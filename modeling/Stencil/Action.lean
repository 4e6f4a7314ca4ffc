import Stencil.Failure
import Stencil.Log

/-!
Actions: what templaters do. They work on a store, can fail, and leave notes for the log.
-/

namespace Stencil

structure World where
  store : Store
  /-- Notes in the order they were left, the latest first. -/
  notes : List Note

def World.empty : World := ⟨Store.empty, []⟩

instance : Inhabited World := ⟨World.empty⟩

/-- A computation over a world. What it did before a failure stays done. -/
abbrev Action := EStateM Failure World

namespace Action

/-- A computation over the store as an action. -/
def evaluate {α : Type} (x : Eval α) : Action α := do
  let w ← get
  match x.run w.store with
  | .ok a s =>
    set { w with store := s }
    return a
  | .error e s =>
    set { w with store := s }
    throw (.fault e)

def read {α : Type} (f : Store → α) : Action α := return f (← get).store

/-- A change of the store that gives something new. -/
def alloc {α : Type} (f : Store → α × Store) : Action α :=
  modifyGet fun w => let (a, s) := f w.store; (a, { w with store := s })

def note (level : Level) (label : String) (message : String) : Action Unit :=
  modify fun w => { w with notes := ⟨level, label, Text.ofString message⟩ :: w.notes }

/-- What an action gives, or how it fails. -/
def attempt {α : Type} (x : Action α) : Action (Except Failure α) := do
  try return .ok (← x) catch e => return .error e

end Action
end Stencil
