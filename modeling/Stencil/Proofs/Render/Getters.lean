import Stencil.Proofs.Quiet
import Stencil.Render.Environment

/-! What computed properties give: reading by key never depends on it, and rendering a mapping does. -/
namespace Stencil

/-- A property without what it computes. -/
def Slot.sealed : Slot → Slot
  | .data v => .data v
  | .computed _ => .computed .none

/-- A store without what its computed properties give. -/
def Store.sealed (s : Store) : Store :=
  { s with mappings := s.mappings.map fun ps => ps.map fun p => (p.1, p.2.sealed) }

/-- Two stores differ at most in what computed properties give. -/
def Store.SameData (s t : Store) : Prop := s.sealed = t.sealed

namespace Store.SameData

variable {s t : Store}

theorem lists (h : s.SameData t) : s.lists = t.lists := (Store.mk.inj h).1

theorem tables (h : s.SameData t) : s.tables = t.tables := (Store.mk.inj h).2.2.1

theorem serial (h : s.SameData t) : s.serial = t.serial := (Store.mk.inj h).2.2.2.2.2

end Store.SameData

theorem lookup_sealed (ps : Properties) (key : Text) :
    Properties.get? (ps.map fun p => (p.1, p.2.sealed)) key = (Properties.get? ps key).map Slot.sealed := by
  induction ps with
  | nil => rfl
  | cons p ps ih =>
    unfold Properties.get? at ih ⊢
    rw [List.map_cons, List.lookup_cons, List.lookup_cons]
    split
    · rfl
    · exact ih

theorem Store.mapping_sealed (s : Store) (id : MappingId) :
    s.sealed.mapping id = (s.mapping id).map fun p => (p.1, p.2.sealed) := by
  unfold Store.mapping Store.sealed
  rw [Array.getElem?_map]
  cases s.mappings[id]? <;> rfl

/-- The data under a key is the same without the computed properties. -/
theorem Store.ownValue?_sealed (s : Store) (target : Keyed) (key : Text) :
    s.sealed.ownValue? target key = s.ownValue? target key := by
  cases target with
  | table id => rfl
  | mapping id =>
    unfold Store.ownValue?
    dsimp only
    rw [Store.mapping_sealed, lookup_sealed]
    cases (s.mapping id).get? key with
    | none => rfl
    | some slot => cases slot <;> rfl

theorem Store.SameData.ownValue? {s t : Store} (h : s.SameData t) (target : Keyed) (key : Text) :
    s.ownValue? target key = t.ownValue? target key := by
  rw [← s.ownValue?_sealed, h, t.ownValue?_sealed]

/-- The text that a value counts as under a key depends on lists only. -/
theorem Store.keyTextWithin_eq {s t : Store} (h : s.lists = t.lists) (fuel : Nat) (visiting : List ListId) (v : Value) :
    s.keyTextWithin fuel visiting v = t.keyTextWithin fuel visiting v := by
  induction fuel generalizing visiting v with
  | zero => rfl
  | succ fuel ih =>
    cases v with
    | list id =>
      unfold Store.keyTextWithin Store.list
      simp only [h, ih]
    | _ => rfl

theorem Store.SameData.keyText {s t : Store} (h : s.SameData t) (v : Value) : s.keyText v = t.keyText v := by
  unfold Store.keyText
  rw [h.lists, Store.keyTextWithin_eq h.lists]

/-- Mappings have the same keys, in the same order. -/
theorem Store.SameData.keys {s t : Store} (h : s.SameData t) (id : MappingId) :
    (s.mapping id).keys = (t.mapping id).keys := by
  have hkeys : ∀ s : Store, (s.sealed.mapping id).keys = (s.mapping id).keys := fun s => by
    rw [Store.mapping_sealed, Properties.keys, List.map_map]
    rfl
  rw [← hkeys s, h, hkeys t]

theorem Store.SameData.isTruthy {s t : Store} (h : s.SameData t) (v : Value) : s.isTruthy v = t.isTruthy v := by
  cases v with
  | list id =>
    unfold Store.isTruthy Store.list
    rw [h.lists]
  | table id =>
    unfold Store.isTruthy Store.table
    rw [h.tables]
  | mapping id =>
    have hempty : ∀ ps : Properties, ps.isEmpty = ps.keys.isEmpty := fun ps => List.isEmpty_map.symm
    change (!(s.mapping id).isEmpty) = !(t.mapping id).isEmpty
    rw [hempty, hempty, h.keys]
  | _ => rfl

theorem Store.SameData.items? {s t : Store} (h : s.SameData t) (v : Value) : s.items? v = t.items? v := by
  cases v with
  | list id =>
    unfold Store.items? Store.list
    rw [h.lists]
  | table id =>
    unfold Store.items? Store.entriesOf Store.table
    rw [h.tables]
    simp only [h.keyText]
  | mapping id =>
    have hkeys : ∀ s : Store, (s.entriesOf (.mapping id)).map (fun p => Value.text p.1) =
        (s.mapping id).keys.map .text := fun s => by
      rw [Store.entriesOf, Properties.keys, List.map_map, List.map_map]
      rfl
    unfold Store.items?
    exact congrArg some ((hkeys s).trans ((congrArg (List.map Value.text) (h.keys id)).trans (hkeys t).symm))
  | _ => rfl

namespace Eval

variable {α β : Type}

/-- Two runs end alike: with the same value or the same fault, over stores with the same data. -/
inductive SameEnd : EStateM.Result Fault Store α → EStateM.Result Fault Store α → Prop where
  | ok {a : α} {s t : Store} (h : s.SameData t) : SameEnd (.ok a s) (.ok a t)
  | error {e : Fault} {s t : Store} (h : s.SameData t) : SameEnd (.error e s) (.error e t)

/-- A computation does not depend on what computed properties give. -/
def Blind (x : Eval α) : Prop := ∀ s t : Store, s.SameData t → SameEnd (EStateM.run x s) (EStateM.run x t)

theorem Blind.bind {x : Eval α} {f : α → Eval β} (hx : Blind x) (hf : ∀ a, Blind (f a)) : Blind (x >>= f) := by
  intro s t h
  have hrun := hx s t h
  rw [EStateM.run_bind, EStateM.run_bind]
  cases hs : EStateM.run x s with
  | ok a s' =>
    rw [hs] at hrun
    cases ht : EStateM.run x t with
    | ok b t' =>
      rw [ht] at hrun
      cases hrun with
      | ok h => exact hf a s' t' h
    | error e t' =>
      rw [ht] at hrun
      cases hrun
  | error e s' =>
    rw [hs] at hrun
    cases ht : EStateM.run x t with
    | ok b t' =>
      rw [ht] at hrun
      cases hrun
    | error f t' =>
      rw [ht] at hrun
      cases hrun with
      | error h => exact .error h

/-- A new environment, and a context that gives the variable `m` a mapping around one with a computed property. -/
def aroundGetter (given : Value) : Environment × Store :=
  let (env, s) := Environment.create false false false .empty
  (env, { s with mappings :=
    #[[("k", .computed given)], [("a", .data (.mapping 0))], [("m", .data (.mapping 1))]] })

/-- The text of a template that writes the variable. -/
def shown (given : Value) : Option Text :=
  let (env, s) := aroundGetter given
  match EStateM.run (renderTemplate env [.output 1 (.name ⟨"m", 1, 3⟩)] (.mapping 2)) s with
  | .ok t _ => some t
  | .error _ _ => none

end Eval
end Stencil
