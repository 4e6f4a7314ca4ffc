import Stencil.Proofs.Correspondence.Filter

/-! Scopes, targets and parameters of corresponding runs. -/
namespace Stencil.Correspondence

variable {σ : Correspondence} {κ μ : Known} {K : Set Text} {i j : ScopeId} {v w : Value}

/-- Two scopes that correspond, can be written, and know some names. -/
structure At (σ : Correspondence) (κ : Known) (K : Set Text) (i j : ScopeId) : Prop where
  rel : σ.rel .scope i j
  live : i ∈ κ.live
  known : K ⊆ κ.names i

theorem At.mono (h : σ.At κ K i j) (hκ : κ ≤ μ) : σ.At μ K i j :=
  ⟨h.rel, hκ.2 h.live, h.known.trans (hκ.1 i)⟩

theorem At.learn (h : σ.At κ K i j) {names : List Text} (hκ : κ ≤ μ) (hnames : namesOf names ⊆ μ.names i) :
    σ.At μ (K ∪ namesOf names) i j :=
  ⟨h.rel, hκ.2 h.live, Set.union_subset (h.known.trans (hκ.1 i)) hnames⟩

/-- Texts that are written on both sides: equal, and good where markup is escaped. -/
def Written (σ : Correspondence) (t u : Text) : Prop :=
  t = u ∧ (σ.features.autoescape = true → t ∈ σ.good)

theorem Written.nil : σ.Written [] [] := ⟨rfl, fun _ => σ.good_nil⟩

theorem Written.append {t t' u u' : Text} (ht : σ.Written t t') (hu : σ.Written u u') :
    σ.Written (t ++ u) (t' ++ u') :=
  ⟨by rw [ht.1, hu.1], fun h => σ.good_append (ht.2 h) (hu.2 h)⟩

theorem Written.flatten {ts us : List Text} (h : List.Forall₂ σ.Written ts us) :
    σ.Written ts.flatten us.flatten := by
  induction h with
  | nil => exact .nil
  | cons hxy _ ih => exact hxy.append ih

theorem captured_alike {t u : Text} (h : σ.Written t u) :
    σ.Alike (Eval.captured σ.features t) (Eval.captured σ.features u) := by
  obtain ⟨rfl, hgood⟩ := h
  unfold Eval.captured
  split
  · exact .safe (hgood ‹_›)
  · exact .text t

theorem sim_written (h : σ.Alike v w) :
    σ.Sim κ (Eval.written σ.features v) (Eval.written σ.features w) fun _ => σ.Written := by
  have hplain : ∀ t, σ.Written (if σ.features.autoescape then escapeMarkup t else t)
      (if σ.features.autoescape then escapeMarkup t else t) := by
    refine fun t => ⟨rfl, fun hauto => ?_⟩
    rw [if_pos hauto]
    exact σ.good_escape t
  have hdisplay := sim_display (κ := κ) h
  cases h with
  | @safe u hgood =>
    have hsafe : σ.Sim κ (Eval.display (.safe u)) (Eval.display (.safe u)) fun _ a b => a = u ∧ b = u :=
      sim_readDeep fun _ _ _ => .some ⟨rfl, rfl⟩
    refine hsafe.bind ?_
    rintro μ _ a b ⟨rfl, rfl⟩
    refine .pure ⟨rfl, fun hauto => ?_⟩
    rw [hauto]
    exact hgood
  | _ =>
    refine hdisplay.bind_same fun μ _ t => .pure ?_
    have := hplain t
    revert this
    cases σ.features.autoescape <;> exact id

theorem sim_enter {vars vars' : List (Text × Value)} (h : σ.At κ K i j)
    (hvars : List.Forall₂ σ.NamedAlike vars vars') :
    σ.Sim κ (Eval.alloc (·.newScope (some i) vars)) (Eval.alloc (·.newScope (some j) vars'))
      fun μ k l => σ.At μ K k l :=
  .modifyGet fun _ _ hagree => ⟨_, Known.le_enter, hagree.newInner h.rel (hagree.live _ h.live) hvars,
    hagree.fresh_id .scope, Known.live_enter, h.known.trans Known.names_enter⟩

theorem sim_newScope (h : σ.At κ K i j) :
    σ.Sim κ (Eval.newScope i) (Eval.newScope j) fun μ k l => σ.At μ K k l :=
  sim_enter h .nil

/-- A new scope is none of the outer ones. -/
theorem sim_newScope_inner (h : σ.At κ K i j) :
    σ.Sim κ (Eval.newScope i) (Eval.newScope j) fun μ k l => σ.At μ K k l ∧ k ∉ σ.outer := by
  intro s t hagree
  obtain ⟨μ, hμ, hagree', hat⟩ := sim_newScope h s t hagree
  exact ⟨μ, hμ, hagree', hat, hagree.not_outer⟩

theorem sim_setVar (h : σ.At κ K i j) (name : Text) (hvw : σ.Alike v w) :
    σ.Sim κ (Eval.setVar i name v) (Eval.setVar j name w) fun μ _ _ => namesOf [name] ⊆ μ.names i :=
  .modify fun _ _ hagree => ⟨_, Known.le_learn, hagree.setVar h.rel name hvw, by
    intro n hn
    cases List.mem_singleton.mp hn
    exact Known.names_learn h.live⟩

theorem namesOf_cons {name : Text} {names : List Text} {S : Set Text} (h : namesOf [name] ⊆ S)
    (h' : namesOf names ⊆ S) : namesOf (name :: names) ⊆ S := by
  intro n hn
  rcases List.mem_cons.mp hn with rfl | hn
  · exact h (List.mem_singleton.mpr rfl)
  · exact h' hn

theorem sim_setAll (h : σ.At κ K i j) {names : List Name} {xs ys : List Value}
    (hxs : List.Forall₂ σ.Alike xs ys) (hlen : names.length ≤ xs.length) :
    σ.Sim κ
      (do for (n, item) in names.zip xs do Eval.setVar i n.text item)
      (do for (n, item) in names.zip ys do Eval.setVar j n.text item)
      fun μ _ _ => namesOf (names.map (·.text)) ⊆ μ.names i := by
  induction names generalizing κ xs ys with
  | nil => exact .pure fun n hn => nomatch hn
  | cons name names ih =>
    cases hxs with
    | nil => exact absurd hlen (Nat.not_succ_le_zero _)
    | @cons x y xs ys hxy hxs =>
      rw [List.zip_cons_cons, List.zip_cons_cons, List.forIn_cons, List.forIn_cons]
      simp only [bind_assoc, pure_bind]
      refine (sim_setVar h name.text hxy).bind fun μ hμ _ _ hname => ?_
      refine (ih (h.mono hμ) hxs (Nat.le_of_succ_le_succ hlen)).mono fun ν hν _ _ hnames => ?_
      exact namesOf_cons (hname.trans (hν.1 i)) hnames

theorem sim_assign (h : σ.At κ K i j) (target : Target) (hvw : σ.Alike v w) :
    σ.Sim κ (Eval.assign target v i) (Eval.assign target w j)
      fun μ _ _ => namesOf (target.names.map (·.text)) ⊆ μ.names i := by
  cases target with
  | name n => exact sim_setVar h n.text hvw
  | tuple line names =>
    refine (sim_items hvw).bind fun μ hμ xs ys hxs => ?_
    rw [hxs.length_eq]
    dsimp only
    split
    · exact .throw
    · rename_i hlen
      have hlen : ys.length = names.length := by simpa using hlen
      exact sim_setAll (h.mono hμ) hxs (by rw [hxs.length_eq, hlen])

theorem sim_loopContext {xs ys : List Value} (hxs : List.Forall₂ σ.Alike xs ys) (index : Nat) :
    σ.Sim κ (Eval.loopContext xs.toArray index) (Eval.loopContext ys.toArray index) fun _ => σ.Alike := by
  have hcell : ∀ i, Option.Rel σ.Alike xs.toArray[i]? ys.toArray[i]? := fun i => by
    rw [List.getElem?_toArray, List.getElem?_toArray]
    exact rel_getElem? hxs i
  have hprevious : σ.Alike
      (if index = 0 then .undefined .previousItem else xs.toArray[index - 1]?.getD .absent)
      (if index = 0 then .undefined .previousItem else ys.toArray[index - 1]?.getD .absent) := by
    split
    · exact .undefined _
    · exact rel_getD (hcell _) .absent
  have hnext := rel_getD (hcell (index + 1)) (.undefined .nextItem)
  unfold Eval.loopContext
  rw [List.size_toArray, List.size_toArray, hxs.length_eq]
  refine (sim_newNative (.cycle index)).bind fun μ _ f g hfg => sim_mappingOf ?_
  refine .cons ⟨rfl, .number _⟩ <| .cons ⟨rfl, .number _⟩ <| .cons ⟨rfl, .number _⟩ <|
    .cons ⟨rfl, .number _⟩ <| .cons ⟨rfl, .bool _⟩ <| .cons ⟨rfl, .bool _⟩ <| .cons ⟨rfl, .number _⟩ <|
    .cons ⟨rfl, hprevious⟩ <| .cons ⟨rfl, hnext⟩ <| .cons ⟨rfl, hfg⟩ .nil

theorem sim_keptItems {keep keep' : Value → Eval Bool} (h : σ.Alike v w)
    (hkeep : ∀ μ ≥ κ, ∀ x y, σ.Alike x y → σ.Sim μ (keep x) (keep' y) fun _ a b => a = b) :
    σ.Sim κ (Eval.keptItems v keep) (Eval.keptItems w keep') fun _ => List.Forall₂ σ.Alike := by
  have hother : σ.Sim κ (do (← Eval.items v).filterM keep) (do (← Eval.items w).filterM keep')
      fun _ => List.Forall₂ σ.Alike :=
    (sim_items h).bind fun μ hμ _ _ hxs => .filterM hxs fun ν hν => hkeep ν (hμ.trans hν)
  cases h with
  | @list k l hkl =>
    refine (sim_list hkl).bind fun μ hμ xs ys hxs => ?_
    rw [hxs.length_eq]
    refine Sim.bind (P := fun _ => List.Forall₂ σ.Alike) ?_ fun _ _ _ _ hkept => .pure (List.rel_reverse hkept)
    refine Sim.foldlM_same .nil fun ν hν kept kept' hkept n _ => sim_get fun s t hagree => ?_
    have hhead := rel_head? (List.forall₂_drop n (hagree.list hkl))
    rcases rel_cases hhead with ⟨hx, hy⟩ | ⟨x, y, hx, hy, hxy⟩ <;> rw [hx, hy]
    · exact .pure hkept
    · refine (hkeep ν (hμ.trans hν) x y hxy).bind_same fun _ _ holds => .pure ?_
      split
      · exact .cons hxy hkept
      · exact hkept
  | _ => exact hother

theorem forall₂_dropKeyword {xs ys : List (Text × Value)} (h : List.Forall₂ σ.NamedAlike xs ys) (name : Text) :
    List.Forall₂ σ.NamedAlike (xs.filter (·.1 != name)) (ys.filter (·.1 != name)) :=
  forall₂_filter h fun _ _ hpq => by rw [hpq.1]

theorem namesOf_nil {S : Set Text} : namesOf [] ⊆ S := fun _ hn => nomatch hn

section parameters

variable {a b : Arguments} {default default' : Expr → Eval Value} (ha : σ.ArgumentsAlike a b)
  (hdefault : ∀ {μ L e}, κ ≤ μ → σ.At μ L i j → e.Allowed σ.toPolicy L →
    σ.Sim μ (default e) (default' e) fun _ => σ.Alike)
include ha hdefault

theorem sim_bindParam (routine param : Text) {default? : Option Expr} (n : Nat)
    {named named' : List (Text × Value)} (h : σ.At κ K i j)
    (hallowed : ∀ e ∈ default?, e.Allowed σ.toPolicy K) (hnamed : List.Forall₂ σ.NamedAlike named named') :
    σ.Sim κ (Eval.bindParam routine a i default named param default? n)
      (Eval.bindParam routine b j default' named' param default? n)
      fun μ xs ys => List.Forall₂ σ.NamedAlike xs ys ∧ namesOf [param] ⊆ μ.names i := by
  have hset : ∀ {μ v w}, κ ≤ μ → σ.Alike v w →
      σ.Sim μ (do Eval.setVar i param v; return named) (do Eval.setVar j param w; return named')
        fun μ xs ys => List.Forall₂ σ.NamedAlike xs ys ∧ namesOf [param] ⊆ μ.names i :=
    fun hμ hvw => (sim_setVar (h.mono hμ) param hvw).bind fun _ _ _ _ hname => .pure ⟨hnamed, hname⟩
  unfold Eval.bindParam
  rcases rel_cases (rel_getElem? ha.args n) with ⟨hx, hy⟩ | ⟨x, y, hx, hy, hxy⟩ <;> rw [hx, hy]
  · rcases rel_cases (rel_lookup hnamed param) with ⟨hx, hy⟩ | ⟨x, y, hx, hy, hxy⟩ <;> rw [hx, hy]
    · cases default? with
      | some e =>
        exact (hdefault (le_refl κ) h (hallowed e rfl)).bind fun μ hμ _ _ hvw => hset hμ hvw
      | none => exact hset (le_refl κ) (.undefined _)
    · exact (sim_setVar h param hxy).bind fun _ _ _ _ hname =>
        .pure ⟨forall₂_dropKeyword hnamed param, hname⟩
  · rcases rel_cases (rel_lookup hnamed param) with ⟨hx, hy⟩ | ⟨x', y', hx, hy, _⟩ <;> rw [hx, hy]
    · exact hset (le_refl κ) hxy
    · exact .throw

/-- One parameter after the other is bound; each default sees those before it. -/
theorem sim_bindPairs (routine : Text) (pairs : List (Text × Option Expr)) (n : Nat)
    {named named' : List (Text × Value)} (h : σ.At κ K i j) (hallowed : paramsAllowed σ.toPolicy K pairs)
    (hnamed : List.Forall₂ σ.NamedAlike named named') :
    σ.Sim κ
      ((pairs.zipIdx n).foldlM (fun (named : List (Text × Value)) ((param, default?), i') =>
        Eval.bindParam routine a i default named param default? i') named)
      ((pairs.zipIdx n).foldlM (fun (named : List (Text × Value)) ((param, default?), i') =>
        Eval.bindParam routine b j default' named param default? i') named')
      fun μ xs ys => List.Forall₂ σ.NamedAlike xs ys ∧ namesOf (pairs.map (·.1)) ⊆ μ.names i := by
  induction pairs generalizing κ K n named named' with
  | nil => exact .pure ⟨hnamed, namesOf_nil⟩
  | cons p pairs ih =>
    obtain ⟨param, default?⟩ := p
    rw [List.zipIdx_cons, List.foldlM_cons, List.foldlM_cons]
    refine (sim_bindParam ha hdefault routine param n h hallowed.1 hnamed).bind ?_
    rintro μ hμ xs ys ⟨hxs, hname⟩
    refine (ih (fun hν => hdefault (hμ.trans hν)) (n + 1) (h.learn hμ hname) hallowed.2 hxs).mono ?_
    rintro ν hν _ _ ⟨hrest, hnames⟩
    exact ⟨hrest, namesOf_cons (hname.trans (hν.1 i)) hnames⟩

theorem sim_bindParams {m n : Macro} (hm : σ.MacroAlike κ m n) (h : σ.At κ K i j)
    (hallowed : paramsAllowed σ.toPolicy K (m.params.zip (alignDefaults m.params.length m.defaults))) :
    σ.Sim κ (Eval.bindParams m a i default) (Eval.bindParams n b j default') fun μ xs ys =>
      List.Forall₂ σ.NamedAlike xs ys ∧ namesOf m.params ⊆ μ.names i := by
  have hnames : (m.params.zip (alignDefaults m.params.length m.defaults)).map (·.1) = m.params := by
    refine List.map_fst_zip ?_
    rw [alignDefaults, List.length_append, List.length_replicate, List.length_map]
    omega
  unfold Eval.bindParams
  rw [← hm.params, ← hm.defaults, ← hm.name]
  have hpairs := sim_bindPairs ha hdefault m.name _ 0 h hallowed ha.named
  rw [hnames] at hpairs
  exact hpairs

end parameters

end Stencil.Correspondence
