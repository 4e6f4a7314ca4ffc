import Stencil.Value.Display
import Stencil.Yaml.Spelling

/-!
The data that nodes stand for. A reference stands for the datum of the latest anchor of its name before it.
-/

namespace Stencil.Yaml

/-- What a datum is made of: whether a scalar is in it, and which anchors it refers to. -/
structure Makeup where
  hasScalar : Bool
  references : List Nat
deriving DecidableEq, Repr

namespace Makeup

def nothing : Makeup := ⟨false, []⟩

def ofScalar : Makeup := ⟨true, []⟩

def add (a b : Makeup) : Makeup := ⟨a.hasScalar || b.hasScalar, b.references ++ a.references⟩

end Makeup

/-- An anchor, with the datum of its node once that is known. `uses` counts the node and the references to
it, and `weight` is how many nodes the heaviest part of it stands for. -/
structure Anchor where
  name : Text
  datum : Option (Datum × Makeup)
  uses : Nat
  weight : Nat

/-- The anchors so far, by position. -/
abbrev Anchors := Array Anchor

namespace Anchors

/-- The product of uses and weight of an anchor. -/
def load (as : Anchors) (i : Nat) : Nat := (as[i]?.map fun a => a.uses * a.weight).getD 0

/-- The weight of what is made of scalars and references. -/
def weightOf (as : Anchors) (m : Makeup) : Nat := (m.references.map as.load).foldl max (if m.hasScalar then 1 else 0)

/-- The latest anchor of a name. -/
def find? (as : Anchors) (name : Text) : Option Nat :=
  (List.range as.size).reverse.find? fun i => as[i]?.any (·.name = name)

end Anchors

abbrev Meaning := StateT Anchors (Except Problem)

namespace Meaning

/-- The greatest load of an anchor. -/
def greatestLoad : Nat := 100

/-- Declares an anchor whose node follows, and tells its position. -/
def declare (name : Option Text) : Meaning (Option Nat) := do
  let as ← get
  match name with
  | some name =>
    set (as.push ⟨name, none, 1, 0⟩ : Anchors)
    return some as.size
  | none => return none

/-- Gives an anchor the datum of its node. -/
def define (position : Option Nat) (d : Datum × Makeup) : Meaning (Datum × Makeup) := do
  if let some i := position then modify fun as => as.modify i ({ · with datum := some d })
  return d

/-- The datum that a reference stands for. -/
def refer (name : Text) : Meaning (Datum × Makeup) := do
  let as ← get
  match (as.find? name).bind fun i => as[i]?.map (i, ·) with
  | none => throw (.unknownAnchor name)
  | some (i, a) => match a.datum with
    | none => throw (.openAnchor name)
    | some (d, makeup) =>
      let uses := a.uses + 1
      let as : Anchors := as.modify i ({ · with uses := uses })
      let weight := if a.weight = 0 then as.weightOf makeup else a.weight
      if greatestLoad < uses * weight then throw .excessiveReferences
      set (as.modify i ({ · with weight := weight }) : Anchors)
      return (d, ⟨false, [i]⟩)

end Meaning

namespace Node

/-- The text of a key. Collections are spelled out, and references to them too. -/
def keyText (hs : Handles) (n : Node) : Datum → Except Problem Text
  | .none => return []
  | .bool b => return boolText b
  | .number x => return x.toText
  | .text t => return t
  | _ => n.spelling hs

mutual

/-- What a node stands for, and what that is made of. -/
def datum (hs : Handles) : Node → Meaning (Datum × Makeup)
  | .scalar d s => do
    let position ← Meaning.declare d.anchor
    Meaning.define position (s.value, .ofScalar)
  | .reference _ name => Meaning.refer name
  | .sequence d items => do
    let position ← Meaning.declare d.anchor
    let (ds, makeup) ← listData hs [] .nothing items
    Meaning.define position (.list ds, makeup)
  | .mapping d pairs => do
    let position ← Meaning.declare d.anchor
    let (entries, makeup) ← pairData hs [] .nothing pairs
    Meaning.define position (Datum.mappingOf entries, makeup)

/-- The data of items behind `done`, which is backwards. -/
def listData (hs : Handles) (done : List Datum) (makeup : Makeup) : List Node → Meaning (List Datum × Makeup)
  | [] => return (done.reverse, makeup)
  | n :: rest => do
    let (d, m) ← datum hs n
    listData hs (d :: done) (makeup.add m) rest

/-- The entries of pairs behind `done`, which is backwards. -/
def pairData (hs : Handles) (done : List (Text × Datum)) (makeup : Makeup) :
    List Pair → Meaning (List (Text × Datum) × Makeup)
  | [] => return (done.reverse, makeup)
  | (key, value) :: rest => do
    let (keyDatum, m) ← datum hs key
    let name ← keyText hs key keyDatum
    let (d, n) ← datumOr hs value
    pairData hs ((name, d) :: done) ((makeup.add m).add n) rest

def datumOr (hs : Handles) : Option Node → Meaning (Datum × Makeup)
  | some n => datum hs n
  | none => return (.none, .ofScalar)

end

end Node
end Stencil.Yaml
