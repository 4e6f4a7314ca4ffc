import Stencil.Proofs.Correspondence.Evaluate
import Stencil.Render.Environment

/-! Runs of whole templates on stores that correspond, and their global variables. -/
namespace Stencil.Correspondence

variable {σ : Correspondence} {κ : Known} {K : Set Text} {i j : ScopeId} {s t : Store}
  {env env' : Environment} {body : List Stmt} {xs ys : List (Text × Value)}

theorem Agree.vars (h : σ.Agree κ s t) (hij : σ.rel .scope i j) (hi : i ∉ σ.outer) :
    List.Forall₂ σ.NamedAlike (s.scope i).vars (t.scope j).vars := by
  unfold Store.scope
  rcases rel_cases (h.scopes i j hij) with ⟨hx, hy⟩ | ⟨p, q, hx, hy, hpq⟩ <;> rw [hx, hy]
  · exact .nil
  · exact hpq.vars hi

theorem forall₂_ofMacro (h : List.Forall₂ σ.NamedAlike xs ys) :
    List.Forall₂ σ.NamedAlike
      (xs.filter fun (_, v) => match v with | .ofMacro _ => true | _ => false)
      (ys.filter fun (_, v) => match v with | .ofMacro _ => true | _ => false) := by
  refine List.rel_filter ?_ h
  rintro ⟨_, v⟩ ⟨_, w⟩ ⟨_, hvw⟩
  cases hvw <;> exact Iff.rfl

/-- Environments are created alike where scopes agree on all names. -/
theorem Agree.create (h : σ.Agree κ s t) (hshown : σ.shown = Set.univ) (keep auto performs : Bool) : ∃ μ ≥ κ,
    σ.Agree μ (Environment.create keep auto performs s).2 (Environment.create keep auto performs t).2 ∧
      σ.At μ Set.univ (Environment.create keep auto performs s).1.globals
        (Environment.create keep auto performs t).1.globals := by
  obtain ⟨hrange, hrange'⟩ := h.newNative .range
  obtain ⟨hdict, hdict'⟩ := hrange.newNative .dict
  have hvars : List.Forall₂ σ.NamedAlike
      [(Text.ofString "range", (s.newNative .range).1), (Text.ofString "dict", ((s.newNative .range).2.newNative .dict).1)]
      [(Text.ofString "range", (t.newNative .range).1), (Text.ofString "dict", ((t.newNative .range).2.newNative .dict).1)] :=
    .cons ⟨rfl, hrange'⟩ (.cons ⟨rfl, hdict'⟩ .nil)
  have hscope : σ.Agree κ (Environment.create keep auto performs s).2 (Environment.create keep auto performs t).2 :=
    hdict.newScope
      { parent := .none
        older_left := fun _ hk => nomatch hk
        older_right := fun _ hk => nomatch hk
        vars := fun _ => hvars
        shown := fun n _ => rel_lookup hvars n }
  refine ⟨⟨fun _ => Set.univ, insert (Environment.create keep auto performs s).1.globals κ.live⟩, ?_,
    hscope.know ?_ (fun _ _ _ => .inl (hshown ▸ trivial)) ?_, h.fresh_id .scope, Set.mem_insert _ _, subset_rfl⟩
  · exact ⟨fun _ => Set.subset_univ _, Set.subset_insert _ _⟩
  · exact ⟨fun _ => Set.subset_univ _, Set.subset_insert _ _⟩
  · rintro i (rfl | hi)
    · simp [Environment.create, Store.newNative, Store.newScope]
    · exact hscope.live i hi

/-- The environments of a correspondence have its features and global variables that correspond. -/
structure Environments (σ : Correspondence) (κ : Known) (K : Set Text) (env env' : Environment) : Prop where
  left : env.features = σ.features
  right : env'.features = σ.features
  globals : σ.At κ K env.globals env'.globals

theorem Environments.mono {μ : Known} (h : σ.Environments κ K env env') (hκ : κ ≤ μ) :
    σ.Environments μ K env env' :=
  { h with globals := h.globals.mono hκ }

/-- Scopes that correspond and can enclose others, whether or not they can be written. -/
structure Hosts (σ : Correspondence) (κ : Known) (K : Set Text) (i j : ScopeId) : Prop where
  rel : σ.rel .scope i j
  known : K ⊆ κ.names i
  lt : ∀ {μ s t}, κ ≤ μ → σ.Agree μ s t → i < s.scopes.size

theorem At.hosts (h : σ.At κ K i j) : σ.Hosts κ K i j :=
  ⟨h.rel, h.known, fun hμ hagree => hagree.live i (hμ.2 h.live)⟩

theorem Hosts.mono {μ : Known} (h : σ.Hosts κ K i j) (hκ : κ ≤ μ) : σ.Hosts μ K i j :=
  ⟨h.rel, h.known.trans (hκ.1 i), fun hμ => h.lt (hκ.trans hμ)⟩

theorem sim_open (h : σ.Hosts κ K i j) (hxs : List.Forall₂ σ.NamedAlike xs ys) :
    σ.Sim κ (Eval.alloc (·.newScope (some i) xs)) (Eval.alloc (·.newScope (some j) ys)) fun μ k l => σ.At μ K k l :=
  .modifyGet fun _ _ hagree => ⟨_, Known.le_enter, hagree.newInner h.rel (h.lt (le_refl κ) hagree) hxs,
    hagree.fresh_id .scope, Known.live_enter, h.known.trans Known.names_enter⟩

section within

variable (hleft : env.features = σ.features) (hright : env'.features = σ.features)
  (h : σ.Hosts κ K env.globals env'.globals)
include hleft hright h

/-- A template runs alike inside of scopes that correspond. -/
theorem sim_runWithin (hxs : List.Forall₂ σ.NamedAlike xs ys) (hbody : bodyAllowed σ.toPolicy K body) :
    σ.Sim κ (Eval.run env body xs) (Eval.run env' body ys) fun μ p q =>
      σ.Written p.1 q.1 ∧ σ.At μ K p.2 q.2 ∧ p.2 ∉ σ.outer := by
  unfold Eval.run
  rw [hleft, hright]
  refine (sim_open h hxs).bind fun μ _ k l hkl => (sim_newScope_inner hkl).bind ?_
  rintro ν _ m n ⟨hmn, hm⟩
  refine ((simulates σ depthLimit).render hmn hbody).bind fun ξ hξ _ _ htu => ?_
  exact .pure ⟨htu, hmn.mono hξ, hm⟩

theorem sim_exports (hbody : bodyAllowed σ.toPolicy K body) :
    σ.Sim κ (Eval.exports env body) (Eval.exports env' body) fun _ => List.Forall₂ σ.NamedAlike := by
  refine (sim_runWithin hleft hright h .nil hbody).bind ?_
  rintro μ _ ⟨t, k⟩ ⟨u, l⟩ ⟨_, hkl, hk⟩
  exact sim_get fun _ _ hagree => .pure (hagree.vars hkl.rel hk)

theorem sim_macros (hbody : bodyAllowed σ.toPolicy K body) :
    σ.Sim κ (Eval.macros env body) (Eval.macros env' body) fun _ => List.Forall₂ σ.NamedAlike :=
  (sim_exports hleft hright h hbody).bind fun _ _ _ _ hps => .pure (forall₂_ofMacro hps)

end within

variable (h : σ.Environments κ K env env')
include h

theorem sim_run (hxs : List.Forall₂ σ.NamedAlike xs ys) (hbody : bodyAllowed σ.toPolicy K body) :
    σ.Sim κ (Eval.run env body xs) (Eval.run env' body ys) fun μ p q =>
      σ.Written p.1 q.1 ∧ σ.At μ K p.2 q.2 ∧ p.2 ∉ σ.outer :=
  sim_runWithin h.left h.right h.globals.hosts hxs hbody

theorem sim_setGlobals (hxs : List.Forall₂ σ.NamedAlike xs ys) :
    σ.Sim κ (Eval.setGlobals env xs) (Eval.setGlobals env' ys) fun _ _ _ => True := by
  unfold Eval.setGlobals
  induction hxs generalizing κ with
  | nil => exact .pure trivial
  | @cons p q _ _ hpq _ ih =>
    rw [List.forIn_cons, List.forIn_cons]
    simp only [bind_assoc, pure_bind]
    obtain ⟨name, v⟩ := p
    obtain ⟨_, w⟩ := q
    obtain ⟨rfl, hvw⟩ := hpq
    exact (sim_setVar h.globals name hvw).bind fun _ hμ _ _ _ => ih (h.mono hμ)

end Stencil.Correspondence
