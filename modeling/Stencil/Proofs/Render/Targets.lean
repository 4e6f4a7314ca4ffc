import Stencil.Proofs.Correspondence.Globals
import Stencil.Proofs.Quiet

/-! What targets bind in a scope. -/
namespace Stencil

variable {s t : Store} {v : Value} {i k : ScopeId} {name : Text} {target : Target}

namespace Store

variable {vars : List (Text × Value)}

/-- Of several values under one name the last stands. -/
theorem lookup_setVars (hi : i < s.scopes.size) : ((s.setVars i vars).scope i).vars.lookup name =
    (vars.reverse.lookup name).or ((s.scope i).vars.lookup name) := by
  unfold scope
  rw [getElem?_setVars, if_pos rfl, Array.getElem?_eq_getElem hi]
  exact Correspondence.lookup_last vars _

theorem isSome_lookup_reverse (h : name ∈ vars.map (·.1)) : (vars.reverse.lookup name).isSome := by
  obtain ⟨p, hp, rfl⟩ := List.mem_map.mp h
  rw [List.lookup_isSome_iff]
  exact ⟨p, List.mem_reverse.mpr hp, by simp⟩

end Store

/-- What a target binds to which values, from left to right; nothing where the items are not as many as the names. -/
def Target.bindings? (s : Store) (v : Value) : Target → Option (List (Text × Value))
  | .name n => some [(n.text, v)]
  | .tuple _ names => (s.items? v).bind fun items =>
    if items.length = names.length then some ((names.zip items).map fun p => (p.1.text, p.2)) else none

/-- Every name of a target is bound, and no other. -/
theorem Target.names_bindings {bindings : List (Text × Value)} (h : target.bindings? s v = some bindings) :
    bindings.map (·.1) = target.names.map (·.text) := by
  cases target with
  | name n =>
    cases h
    rfl
  | tuple line names =>
    obtain ⟨items, _, h⟩ := Option.bind_eq_some_iff.mp h
    split at h
    · rename_i hlen
      cases h
      rw [List.map_map]
      change (names.zip items).map ((·.text) ∘ Prod.fst) = _
      rw [← List.map_map, List.map_fst_zip hlen.ge]
      rfl
    · cases h

/-- A target is assigned as a whole, or it fails before anything is bound. -/
theorem assign_cases (target : Target) (v : Value) (i : ScopeId) (s : Store) :
    (∃ bindings, target.bindings? s v = some bindings ∧ Eval.assign target v i s = .ok ⟨⟩ (s.setVars i bindings)) ∨
      target.bindings? s v = none ∧ ∃ e, Eval.assign target v i s = .error e s := by
  cases target with
  | name n =>
    refine .inl ⟨_, rfl, ?_⟩
    rw [Store.setVars_cons, Store.setVars_nil]
    rfl
  | tuple line names =>
    have hitems : Eval.items v s = _ := Eval.run_items v s
    cases hvs : s.items? v with
    | none =>
      rw [hvs] at hitems
      refine .inr ⟨?_, _, bind_error hitems⟩
      rw [Target.bindings?, hvs, Option.bind_none]
    | some vs =>
      rw [hvs] at hitems
      by_cases hlen : vs.length = names.length
      · refine .inl ⟨(names.zip vs).map fun p => (p.1.text, p.2), ?_, (bind_ok hitems).trans ?_⟩
        · rw [Target.bindings?, hvs, Option.bind_some, if_pos hlen]
        · dsimp only
          rw [if_neg (by simpa using hlen)]
          exact forIn_setVar (names.zip vs) (fun p => (p.1.text, p.2)) i s
      · refine .inr ⟨?_, .unpack names.length vs.length, (bind_ok hitems).trans ?_⟩
        · rw [Target.bindings?, hvs, Option.bind_some, if_neg hlen]
        · dsimp only
          rw [if_pos (by simpa using hlen)]
          rfl

theorem assign_ok_iff : (∃ t, Eval.assign target v i s = .ok ⟨⟩ t) ↔ (target.bindings? s v).isSome := by
  rcases assign_cases target v i s with ⟨bindings, hbindings, hassign⟩ | ⟨hnone, e, hassign⟩ <;> rw [hassign]
  · rw [hbindings]
    exact ⟨fun _ => rfl, fun _ => ⟨_, rfl⟩⟩
  · rw [hnone]
    exact ⟨nofun, nofun⟩

/-- Every name of a target gets a value; of several under one name the last. -/
theorem lookup_assign {bindings : List (Text × Value)} {n : Name} (hi : i < s.scopes.size)
    (h : Eval.assign target v i s = .ok ⟨⟩ t) (hbindings : target.bindings? s v = some bindings)
    (hn : n ∈ target.names) : ∃ x, bindings.reverse.lookup n.text = some x ∧
      (t.scope i).vars.lookup n.text = some x := by
  rcases assign_cases target v i s with ⟨bindings', hsome, hassign⟩ | ⟨hnone, e, hassign⟩ <;> rw [hassign] at h <;>
    cases h
  cases hsome.symm.trans hbindings
  have hbound : n.text ∈ bindings.map (·.1) := by
    rw [Target.names_bindings hbindings]
    exact List.mem_map_of_mem hn
  obtain ⟨x, hx⟩ := Option.isSome_iff_exists.mp (Store.isSome_lookup_reverse hbound)
  refine ⟨x, hx, ?_⟩
  rw [Store.lookup_setVars hi, hx, Option.some_or]

end Stencil
