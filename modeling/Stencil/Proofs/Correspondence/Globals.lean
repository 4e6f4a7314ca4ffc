import Stencil.Proofs.Correspondence.Run
import Stencil.Proofs.Running

/-! Global variables that are set in different orders. -/
namespace Stencil

namespace Store

/-- The store with variables set in a scope, one after another. -/
def setVars (s : Store) (id : ScopeId) (vars : List (Text × Value)) : Store :=
  { s with scopes := s.scopes.modify id fun scope =>
      { scope with vars := vars.foldl (fun vars (name, v) => assocSet name v vars) scope.vars } }

variable {s : Store} {id : ScopeId}

theorem getElem?_setVars (vars : List (Text × Value)) (i : ScopeId) : (s.setVars id vars).scopes[i]? =
    if id = i then s.scopes[i]?.map fun scope =>
      { scope with vars := vars.foldl (fun vars (name, v) => assocSet name v vars) scope.vars }
    else s.scopes[i]? :=
  Array.getElem?_modify

theorem setVars_nil : s.setVars id [] = s := by
  have hscopes : (s.setVars id []).scopes = s.scopes := by
    refine Array.ext_getElem? fun i => ?_
    rw [getElem?_setVars]
    split
    · exact Option.map_id'
    · rfl
  exact congrArg (fun scopes => { s with scopes := scopes }) hscopes

theorem setVars_cons {name : Text} {v : Value} {vars : List (Text × Value)} :
    s.setVars id ((name, v) :: vars) = (s.setVar id name v).setVars id vars := by
  have hscopes : (s.setVars id ((name, v) :: vars)).scopes = ((s.setVar id name v).setVars id vars).scopes := by
    refine Array.ext_getElem? fun i => ?_
    have hset : (s.setVar id name v).scopes[i]? = if id = i then s.scopes[i]?.map fun scope =>
        { scope with vars := assocSet name v scope.vars } else s.scopes[i]? := Array.getElem?_modify
    rw [getElem?_setVars, getElem?_setVars, hset]
    split
    · rw [Option.map_map]
      rfl
    · rfl
  exact congrArg (fun scopes => { s with scopes := scopes }) hscopes

end Store

/-- Variables that are set in a loop are set one after another. -/
theorem forIn_setVar {α : Type} (l : List α) (f : α → Text × Value) (i : ScopeId) (s : Store) :
    (do for a in l do Eval.setVar i (f a).1 (f a).2 : Eval Unit) s = .ok ⟨⟩ (s.setVars i (l.map f)) := by
  induction l generalizing s with
  | nil =>
    rw [List.map_nil, Store.setVars_nil]
    rfl
  | cons a l ih =>
    have hset : Eval.setVar i (f a).1 (f a).2 s = .ok ⟨⟩ (s.setVar i (f a).1 (f a).2) := rfl
    rw [List.map_cons, Store.setVars_cons, ← ih (s.setVar i (f a).1 (f a).2), List.forIn_cons]
    simp only [bind_assoc, pure_bind]
    exact bind_ok hset

theorem setGlobals_eq (env : Environment) (vars : List (Text × Value)) (s : Store) :
    Eval.setGlobals env vars s = .ok ⟨⟩ (s.setVars env.globals vars) := by
  have hset := forIn_setVar vars id env.globals s
  rw [List.map_id] at hset
  exact hset

namespace Correspondence

variable {σ : Correspondence} {κ : Known} {K : Set Text} {g g' : ScopeId} {s t : Store}

/-- The correspondence in which the variables of a scope may stand in another order. -/
def hosting (σ : Correspondence) (g : ScopeId) : Correspondence := { σ with outer := {g} }

theorem Agree.hosting (h : σ.Agree κ s t) (houter : σ.outer = ∅) (hshown : σ.shown = Set.univ)
    (hlt : g < s.scopes.size) : (σ.hosting g).Agree κ s t where
  fresh := h.fresh
  lists := h.lists
  mappings := h.mappings
  tables := h.tables
  scopes i j hij := by
    rcases rel_cases (h.scopes i j hij) with ⟨hx, hy⟩ | ⟨p, q, hx, hy, hpq⟩ <;> rw [hx, hy]
    · exact .none
    · refine .some ⟨hpq.parent, hpq.older_left, hpq.older_right, fun _ => hpq.vars ?_, hpq.shown⟩
      rw [houter]
      exact Set.notMem_empty i
  macros i j hij := by
    rcases rel_cases (h.macros i j hij) with ⟨hx, hy⟩ | ⟨m, n, hx, hy, hmn⟩ <;> rw [hx, hy]
    · exact .none
    · exact .some { hmn with }
  known _ _ _ := .inl (hshown ▸ trivial)
  live := h.live
  outer _ ho := Set.mem_singleton_iff.mp ho ▸ hlt
  left := h.left
  right := h.right
  still := { h.still with }

theorem hosts_hosting (hg : σ.rel .scope g g') (hknown : K ⊆ κ.names g) : (σ.hosting g).Hosts κ K g g' :=
  ⟨hg, hknown, fun _ hagree => hagree.outer g rfl⟩

section reordered

variable (houter : σ.outer = {g}) (hshown : σ.shown = Set.univ) (hg : σ.rel .scope g g') {xs ys : List (Text × Value)}
  (hxs : (xs.map (·.1)).Nodup) (hys : (ys.map (·.1)).Nodup) (hsame : ∀ n, Option.Rel σ.Alike (xs.lookup n) (ys.lookup n))
include houter hshown hg hxs hys hsame

theorem Agree.setVars (h : σ.Agree κ s t) : σ.Agree κ (s.setVars g xs) (t.setVars g' ys) where
  fresh a k := by
    have hfresh := h.fresh a k
    cases a with
    | scope => rwa [Store.taken, Store.taken, Store.setVars, Store.setVars, Array.size_modify, Array.size_modify]
    | _ => exact hfresh
  lists := h.lists
  mappings := h.mappings
  tables := h.tables
  scopes i j hij := by
    rw [Store.getElem?_setVars, Store.getElem?_setVars]
    by_cases hi : g = i
    · cases hi
      cases σ.functional hg hij
      rw [if_pos rfl, if_pos rfl]
      rcases rel_cases (h.scopes g g' hg) with ⟨hx, hy⟩ | ⟨p, q, hx, hy, hpq⟩ <;> rw [hx, hy]
      · exact .none
      · refine .some ⟨hpq.parent, hpq.older_left, hpq.older_right, fun hne => absurd (houter ▸ rfl) hne, fun n hn => ?_⟩
        dsimp only
        rw [lookup_assocSets hxs, lookup_assocSets hys]
        rcases rel_cases (hsame n) with ⟨hx, hy⟩ | ⟨v, w, hx, hy, hvw⟩ <;> rw [hx, hy]
        · exact hpq.shown n hn
        · exact .some hvw
    · have hj : g' ≠ j := fun hj => hi (σ.injective (hj ▸ hg) hij)
      rw [if_neg hi, if_neg hj]
      exact h.scopes i j hij
  macros := h.macros
  known _ _ _ := .inl (hshown ▸ trivial)
  live i hi := by
    rw [Store.setVars, Array.size_modify]
    exact h.live i hi
  outer i hi := by
    rw [Store.setVars, Array.size_modify]
    exact h.outer i hi
  left := { h.left with }
  right := { h.right with }
  still := { h.still with }

/-- Global variables may be set in different orders. -/
theorem sim_setReordered {env env' : Environment} (hleft : env.globals = g) (hright : env'.globals = g') :
    σ.Sim κ (Eval.setGlobals env xs) (Eval.setGlobals env' ys) fun _ _ _ => True := by
  intro s t hagree
  rw [setGlobals_eq, setGlobals_eq, hleft, hright]
  exact ⟨κ, le_refl κ, Agree.setVars houter hshown hg hxs hys hsame hagree, trivial⟩

end reordered
end Correspondence
end Stencil
