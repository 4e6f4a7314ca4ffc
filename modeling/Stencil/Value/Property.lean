import Stencil.Value.Basic

/-!
Properties of a mapping and their order: keys that are array indices first, in ascending order, then
all other keys in the order they were first set.
-/

namespace Stencil

/-- A property holds data, or computes its value when it is read. -/
inductive Slot where
  | data (v : Value)
  | computed (v : Value)
deriving DecidableEq, Repr

/-- What reading the property gives. -/
def Slot.value : Slot → Value
  | data v | computed v => v

abbrev Properties := List (Text × Slot)

/-- The number of an array index: canonical decimal digits below 2^32 - 1. -/
def arrayIndex? (key : Text) : Option Nat :=
  if key.isEmpty || !key.all CodeUnit.isDigit || 10 < key.length then none
  else
    let n := Text.digitsValue key
    if Text.ofNat n = key && n < Nat.pow 2 32 - 1 then some n else none

namespace Properties

def get? (ps : Properties) (key : Text) : Option Slot := List.lookup key ps

def keys (ps : Properties) : List Text := ps.map (·.1)

/-- Adds a property whose key is new. -/
def insertIndex (key : Text) (n : Nat) (slot : Slot) : Properties → Properties
  | [] => [(key, slot)]
  | p :: rest =>
    match arrayIndex? p.1 with
    | some m => if m < n then p :: insertIndex key n slot rest else (key, slot) :: p :: rest
    | none => (key, slot) :: p :: rest

/-- Sets a property; a key that is there keeps its place. -/
def set (ps : Properties) (key : Text) (slot : Slot) : Properties :=
  if (ps.get? key).isSome then ps.map fun p => if p.1 = key then (key, slot) else p
  else match arrayIndex? key with
    | some n => insertIndex key n slot ps
    | none => ps ++ [(key, slot)]

def ofList (entries : List (Text × Slot)) : Properties :=
  entries.foldl (fun ps (key, slot) => ps.set key slot) []

end Properties
end Stencil
