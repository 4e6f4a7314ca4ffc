import Stencil.Value.Store

/-!
Data: values as trees, without functions and without sharing. Literals, documents and the details of
failures are data.
-/

namespace Stencil

inductive Datum where
  | none
  | bool (b : Bool)
  | number (x : Number)
  | text (t : Text)
  | list (items : List Datum)
  | mapping (entries : List (Text × Datum))
deriving Repr, Inhabited

namespace Datum

def ofString (s : String) : Datum := text (Text.ofString s)

def ofNat (n : Nat) : Datum := number (Number.ofNat n)

/-- Entries in property order, the last of those with one key. -/
def mappingOf (entries : List (Text × Datum)) : Datum :=
  let keys := (Properties.ofList (entries.map fun (key, _) => (key, .data .none))).keys
  mapping (keys.filterMap fun key => (entries.reverse.lookup key).map (key, ·))

/-- The datum built in a store. -/
def build (s : Store) : Datum → Value × Store
  | none => (.none, s)
  | bool b => (.bool b, s)
  | number x => (.number x, s)
  | text t => (.text t, s)
  | list items =>
    let (vs, s) := buildList s items
    s.newList vs
  | mapping entries =>
    let (ps, s) := buildEntries s entries
    s.newMapping (Properties.ofList ps)
where
  buildList (s : Store) : List Datum → List Value × Store
    | [] => ([], s)
    | d :: rest =>
      let (v, s) := d.build s
      let (vs, s) := buildList s rest
      (v :: vs, s)
  buildEntries (s : Store) : List (Text × Datum) → List (Text × Slot) × Store
    | [] => ([], s)
    | (key, d) :: rest =>
      let (v, s) := d.build s
      let (ps, s) := buildEntries s rest
      ((key, .data v) :: ps, s)

end Datum
end Stencil
