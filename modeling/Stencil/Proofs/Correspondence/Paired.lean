import Stencil.Proofs.Correspondence.Identity
import Stencil.Proofs.Correspondence.Shape

/-! A store corresponds to itself by a pairing of what is in it. -/
namespace Stencil

namespace Correspondence

variable {features : Features} {s : Store} {R : Pairing} {shown : Set Text}

/-- The correspondence that pairs things of a store, and younger things in their order. -/
def ofPairs (features : Features) (s : Store) (hR : R.OneToOne) (h : s.Pairs R) (shown : Set Text) :
    Correspondence where
  toPolicy := .free features
  rel a i j := R a i j ∨ i = j ∧ s.taken a ≤ i
  functional := by
    rintro a i j k (hj | ⟨rfl, hi⟩) (hk | ⟨rfl, hi'⟩)
    · exact hR.functional hj hk
    · rcases h.taken hj with rfl | hlt
      · rfl
      · exact absurd hlt.1 (Nat.not_lt.mpr hi')
    · rcases h.taken hk with rfl | hlt
      · rfl
      · exact absurd hlt.1 (Nat.not_lt.mpr hi)
    · rfl
  injective := by
    rintro a i j k (hi | ⟨rfl, hk⟩) (hj | ⟨rfl, hk'⟩)
    · exact hR.injective hi hj
    · rcases h.taken hi with rfl | hlt
      · rfl
      · exact absurd hlt.2 (Nat.not_lt.mpr hk')
    · rcases h.taken hj with rfl | hlt
      · rfl
      · exact absurd hlt.2 (Nat.not_lt.mpr hk)
    · rfl
  base := .empty
  frozen := ∅
  frozen_lt := False.elim
  closed := False.elim
  apart {a _ _} _ _ := by cases a <;> exact ⟨Nat.zero_le _, Nat.zero_le _⟩
  origin := s
  shown := shown
  outer := {s.scopes.size}

/-- What is known at first: every name in old scopes, the shown names in all. -/
def startKnown (s : Store) (shown : Set Text) : Known :=
  ⟨fun i => {n | n ∈ shown ∨ i < s.scopes.size}, {i | i < s.scopes.size}⟩

variable {hR : R.OneToOne} {h : s.Pairs R}

theorem alike_ofPairs {v w : Value} (hvw : Value.Alike R Set.univ v w) :
    (ofPairs features s hR h shown).Alike v w :=
  hvw.mono fun _ _ _ => .inl

/-- Things that are paired are both in the store, or they are the same. -/
theorem rel_cells {α : Type} {S : α → α → Prop} {xs : Array (List α)} {i j : Nat}
    (hij : i = j ∨ i < xs.size ∧ j < xs.size) (hcell : List.Forall₂ S (xs[i]?.getD []) (xs[j]?.getD [])) :
    Option.Rel (List.Forall₂ S) xs[i]? xs[j]? := by
  rcases hij with rfl | ⟨hi, hj⟩
  · cases hx : xs[i]? with
    | none => exact .none
    | some x =>
      rw [hx] at hcell
      exact .some hcell
  · rw [Array.getElem?_eq_getElem hi, Array.getElem?_eq_getElem hj] at hcell ⊢
    exact .some hcell

theorem scopeAlike_ofPairs {i : ScopeId} (hlayered : s.Layered) (hi : R .scope i i) :
    (ofPairs features s hR h shown).ScopeAlike i i (s.scope i) (s.scope i) := by
  obtain ⟨hparent, hvars⟩ := h.scope hi
  have hnamed : List.Forall₂ (ofPairs features s hR h shown).NamedAlike (s.scope i).vars (s.scope i).vars :=
    hvars.imp fun _ _ hpq => ⟨hpq.1, alike_ofPairs hpq.2⟩
  refine ⟨?_, hlayered.parents i, hlayered.parents i, fun _ => hnamed, fun n _ => rel_lookup hnamed n⟩
  cases hp : (s.scope i).parent with
  | none => exact .none
  | some k => exact .some (.inl (hparent k hp))

theorem macroAlike_ofPairs {i : MacroId} {m : Macro} (hlayered : s.Layered) (hi : R .ofMacro i i)
    (hm : s.macros[i]? = some m) : (ofPairs features s hR h shown).MacroAlike (startKnown s shown) m m where
  name := rfl
  params := rfl
  defaults := rfl
  body := rfl
  scope := .inl (h.ofMacro hi m hm)
  live := hlayered.macros m (Array.mem_of_getElem? hm)
  allowed :=
    ⟨Set.univ, fun _ _ => .inr (hlayered.macros m (Array.mem_of_getElem? hm)), Macro.allowed_free features m⟩

/-- A store corresponds to itself by a pairing, where the context variables are alike in what is shown. -/
theorem agree_ofPairs {g : ScopeId} {xs ys : List (Text × Value)} (hlayered : s.Layered) (hg : R .scope g g)
    (hlt : g < s.scopes.size)
    (hvars : ∀ n ∈ shown, Option.Rel (Value.Alike R Set.univ) (xs.lookup n) (ys.lookup n)) :
    (ofPairs features s hR h shown).Agree (startKnown s shown) (s.newScope (some g) xs).2
      (s.newScope (some g) ys).2 where
  fresh a k := by
    refine .inr ⟨?_, ?_⟩
    · cases a <;> simp [Store.taken, Store.newScope]
    · cases a <;> simp only [Store.taken, Store.newScope, Array.size_push] <;> omega
  lists := by
    rintro i j (hij | ⟨rfl, hi⟩)
    · exact rel_cells (h.taken hij) ((h.list hij).imp fun _ _ => alike_ofPairs)
    · exact rel_beyond hi hi
  mappings := by
    rintro i j (hij | ⟨rfl, hi⟩)
    · exact rel_cells (h.taken hij) ((h.mapping hij).imp fun _ _ hpq => ⟨hpq.1, hpq.2.mono fun _ _ _ => .inl⟩)
    · exact rel_beyond hi hi
  tables := by
    rintro i j (hij | ⟨rfl, hi⟩)
    · exact rel_cells (h.taken hij) ((h.table hij).imp fun _ _ hpq =>
        ⟨.inl (alike_ofPairs hpq.1), alike_ofPairs hpq.2⟩)
    · exact rel_beyond hi hi
  scopes := by
    intro i j hrel
    have hij : i = j := hrel.elim (h.same id) (·.1)
    subst hij
    change Option.Rel _ (s.scopes.push ⟨some g, xs⟩)[i]? (s.scopes.push ⟨some g, ys⟩)[i]?
    rcases Nat.lt_trichotomy i s.scopes.size with hi | rfl | hi
    · have hii : R .scope i i := hrel.elim id fun hge => absurd hi (Nat.not_lt.mpr hge.2)
      have hget : s.scopes[i]? = some (s.scope i) := by
        rw [Store.scope, Array.getElem?_eq_getElem hi]
        rfl
      rw [getElem?_push_of_some hget, getElem?_push_of_some hget]
      exact .some (scopeAlike_ofPairs hlayered hii)
    · rw [Array.getElem?_push_size, Array.getElem?_push_size]
      refine .some ⟨.some (.inl hg), ?_, ?_, fun hne => absurd (Set.mem_singleton _) hne, fun n hn => ?_⟩
      · rintro k ⟨⟩; exact hlt
      · rintro k ⟨⟩; exact hlt
      · rcases rel_cases (hvars n hn) with ⟨hx, hy⟩ | ⟨x, y, hx, hy, hxy⟩ <;> dsimp only <;> rw [hx, hy]
        · exact .none
        · exact .some (alike_ofPairs hxy)
    · exact rel_beyond (by rwa [Array.size_push]) (by rwa [Array.size_push])
  macros := by
    intro i j hrel
    have hij : i = j := hrel.elim (h.same id) (·.1)
    subst hij
    change Option.Rel _ s.macros[i]? s.macros[i]?
    cases hm : s.macros[i]? with
    | none => exact .none
    | some m =>
      obtain ⟨hi, _⟩ := Array.getElem?_eq_some_iff.mp hm
      have hii : R .ofMacro i i := hrel.elim id fun hge => absurd hi (Nat.not_lt.mpr hge.2)
      exact .some (macroAlike_ofPairs hlayered hii hm)
  known := by
    rintro i n (hn | hi)
    · exact .inl hn
    · refine .inr ⟨fun ho => ?_, s.scope i, ?_, .inr fun k hk => .inr ((hlayered.parents i k hk).trans hi)⟩
      · exact absurd (Set.mem_singleton_iff.mp ho) (Nat.ne_of_lt hi)
      · refine getElem?_push_of_some ?_
        rw [Store.scope, Array.getElem?_eq_getElem hi]
        rfl
  live := by
    intro i hi
    exact Nat.lt_succ_of_lt hi |>.trans_eq (Array.size_push _).symm
  outer := by
    rintro i ⟨⟩
    simp [Store.newScope]
  left := .empty _
  right := .empty _
  still := ⟨fun hx _ => hx, fun hx _ => hx, fun hx _ => hx⟩

end Correspondence

open Correspondence

variable {env : Environment} {body : List Stmt} {s : Store}

/-- A run renders the template in a new scope inside that of its variables. -/
theorem run_eq (vars : List (Text × Value)) :
    (do return (← Eval.run env body vars).1 : Eval Text) s =
      Eval.render env.features depthLimit (s.newScope (some env.globals) vars).2.scopes.size body
        ((s.newScope (some env.globals) vars).2.newScope (some s.scopes.size) []).2 := by
  have hfst : ∀ (x : Eval Text) (k : ScopeId) (t : Store),
      (do return (← (do return (← x, k) : Eval (Text × ScopeId))).1 : Eval Text) t = x t := by
    intro x k t
    change EStateM.bind (EStateM.bind x _) _ t = _
    unfold EStateM.bind
    cases x t <;> rfl
  exact hfst _ _ _

/-- A run ends alike on variables that are alike in what is shown. -/
theorem ends_run {R : Pairing} {shown : Set Text} {xs ys : List (Text × Value)} (hs : env.Lives s) (hR : R.OneToOne)
    (h : s.Pairs R) (hglobals : R .scope env.globals env.globals)
    (hbody : bodyAllowed (.free env.features) shown body)
    (hvars : ∀ n ∈ shown, Option.Rel (Value.Alike R Set.univ) (xs.lookup n) (ys.lookup n)) :
    Ends (ofPairs env.features s hR h shown) (startKnown s shown) (fun _ a b => a = b)
      ((do return (← Eval.run env body xs).1 : Eval Text) s)
      ((do return (← Eval.run env body ys).1 : Eval Text) s) := by
  let σ : Correspondence := ofPairs env.features s hR h shown
  have hagree : σ.Agree (startKnown s shown) (s.newScope (some env.globals) xs).2
      (s.newScope (some env.globals) ys).2 := agree_ofPairs hs.layered hglobals hs.globals hvars
  have houter : σ.rel .scope s.scopes.size s.scopes.size := .inr ⟨rfl, le_refl _⟩
  have hinner := hagree.newInner houter (hagree.outer _ (Set.mem_singleton _)) (List.Forall₂.nil : List.Forall₂ _ [] [])
  have hknown : shown ⊆ (startKnown s shown).names s.scopes.size := fun _ hn => .inl hn
  have hat : σ.At _ shown _ _ := ⟨hagree.fresh_id .scope, Known.live_enter, hknown.trans Known.names_enter⟩
  rw [run_eq, run_eq]
  exact ((simulates σ depthLimit).render hat hbody _ _ hinner).mono Known.le_enter fun _ _ _ _ htu => htu.1

end Stencil
