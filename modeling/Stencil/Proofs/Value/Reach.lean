import Stencil.Value.Display

/-! What can be reached from a value, through the contents of containers and what functions hold. -/
namespace Stencil

/-- The container that a method is bound to. -/
def Native.receiver? : Native → Option Value
  | .list _ id => some (.list id)
  | .keyed _ target => some (.ofKeyed target)
  | _ => none

namespace Store

/-- The values that a value holds in itself. -/
def contents (s : Store) : Value → List Value
  | .list id => s.list id
  | .mapping id => (s.mapping id).map (·.2.value)
  | .table id => (s.table id).flatMap fun e => [e.1, e.2]
  | .native _ f => f.receiver?.toList
  | _ => []

/-- A scope, and the scopes around it. -/
inductive Encloses (s : Store) (i : ScopeId) : ScopeId → Prop where
  | here : Encloses s i i
  | around {j k : ScopeId} (h : Encloses s i j) (hk : (s.scope j).parent = some k) : Encloses s i k

/-- A value is reached from another. A macro reaches the variables around it. -/
inductive Reaches (s : Store) (v : Value) : Value → Prop where
  | refl : Reaches s v v
  | step {w x : Value} (h : Reaches s v w) (hx : x ∈ s.contents w) : Reaches s v x
  | captured {id : MacroId} {m : Macro} {k : ScopeId} {p : Text × Value} (h : Reaches s v (.ofMacro id))
    (hm : s.macros[id]? = some m) (hk : s.Encloses m.scope k) (hp : p ∈ (s.scope k).vars) : Reaches s v p.2

variable {s : Store} {v w x : Value}

theorem Reaches.trans (h : s.Reaches v w) (h' : s.Reaches w x) : s.Reaches v x := by
  induction h' with
  | refl => exact h
  | step _ hx ih => exact ih.step hx
  | captured _ hm hk hp ih => exact ih.captured hm hk hp

/-- Nothing else is reached from a value that holds nothing. -/
theorem Reaches.eq_of_contents (h : s.Reaches v x) (hv : s.contents v = []) (hne : ∀ id, v ≠ .ofMacro id) :
    x = v := by
  induction h with
  | refl => rfl
  | step _ hx ih => rw [ih, hv] at hx; exact nomatch hx
  | captured _ _ _ _ ih => exact absurd ih.symm (hne _)

theorem Encloses.eq_of_parent {i k : ScopeId} (h : s.Encloses i k) (hi : (s.scope i).parent = none) : k = i := by
  induction h with
  | here => rfl
  | around _ hk ih => rw [ih, hi] at hk; cases hk

theorem value_mem_contents {id : MappingId} {p : Text × Slot} (hp : p ∈ s.mapping id) :
    p.2.value ∈ s.contents (.mapping id) :=
  List.mem_map.mpr ⟨p, hp, rfl⟩

theorem entry_mem_contents {id : TableId} {e : Value × Value} (he : e ∈ s.table id) :
    e.1 ∈ s.contents (.table id) ∧ e.2 ∈ s.contents (.table id) :=
  ⟨List.mem_flatMap.mpr ⟨e, he, by simp⟩, List.mem_flatMap.mpr ⟨e, he, by simp⟩⟩

/-- A value that is in the store and is no function over it. -/
def Plain (s : Store) : Value → Prop
  | .list id => id < s.lists.size
  | .mapping id => id < s.mappings.size
  | .table id => id < s.tables.size
  | .ofMacro _ => False
  | .native n f => n < s.serial ∧ f.receiver? = none
  | .foreign n => n < s.serial
  | _ => True

/-- A value is data in a store: only plain values are reached from it. -/
def Holds (s : Store) (v : Value) : Prop := ∀ x, s.Reaches v x → s.Plain x

/-- Plain values that hold only each other are data. -/
theorem holds_of_closed {values : List Value} (h : ∀ w ∈ values, s.Plain w ∧ ∀ x ∈ s.contents w, x ∈ values)
    (hv : v ∈ values) : s.Holds v := by
  have hmem : ∀ x, s.Reaches v x → x ∈ values := by
    intro x hx
    induction hx with
    | refl => exact hv
    | step _ hx ih => exact (h _ ih).2 _ hx
    | captured _ _ _ _ ih => exact (h _ ih).1.elim
  exact fun x hx => (h x (hmem x hx)).1

namespace Holds

theorem plain (h : s.Holds v) : s.Plain v := h v .refl

theorem content (h : s.Holds v) (hx : x ∈ s.contents v) : s.Holds x :=
  fun y hy => h y ((Reaches.refl.step hx).trans hy)

theorem item {id : ListId} (h : s.Holds (.list id)) (hx : x ∈ s.list id) : s.Holds x := h.content hx

theorem property {id : MappingId} {p : Text × Slot} (h : s.Holds (.mapping id)) (hp : p ∈ s.mapping id) :
    s.Holds p.2.value :=
  h.content (value_mem_contents hp)

theorem entryOf {id : MappingId} {p : Text × Value} (h : s.Holds (.mapping id))
    (hp : p ∈ s.entriesOf (.mapping id)) : s.Holds p.2 := by
  obtain ⟨q, hq, rfl⟩ := List.mem_map.mp hp
  exact h.property hq

theorem key {id : TableId} {e : Value × Value} (h : s.Holds (.table id)) (he : e ∈ s.table id) : s.Holds e.1 :=
  h.content (entry_mem_contents he).1

theorem entry {id : TableId} {e : Value × Value} (h : s.Holds (.table id)) (he : e ∈ s.table id) :
    s.Holds e.2 :=
  h.content (entry_mem_contents he).2

end Holds

end Store
end Stencil
