import Stencil.Value.Display

/-!
Truth and equality of values. Containers are equal by content, whatever the order of their keys; safe
and plain text are equal by text; functions and foreign objects are equal to themselves alone.
-/

namespace Stencil.Store

/-- Empty containers and texts, zero, NaN and everything undefined count as false. -/
def isTruthy (s : Store) : Value → Bool
  | .absent | .none | .undefined _ => false
  | .bool b => b
  | .number x => x.isNonzero
  | .text t | .safe t => !t.isEmpty
  | .list id => !(s.list id).isEmpty
  | .mapping id => !(s.mapping id).isEmpty
  | .table id => !(s.table id).isEmpty
  | .ofMacro _ | .native _ _ | .foreign _ => true

/-- Equality of values that are no containers. -/
def sameScalar : Value → Value → Bool
  | .undefined _, .undefined _ => true
  | .number x, .number y => x.eq y
  | .text t, .text u | .text t, .safe u | .safe t, .text u | .safe t, .safe u => t = u
  | .number _, _ | .undefined _, _ => false
  | v, w => v = w

/-- Whether all hold; the first that does not decides, and a test that gives no answer before it. -/
def allHold {α : Type} (p : α → Option Bool) : List α → Option Bool
  | [] => some true
  | a :: rest => match p a with
    | some true => allHold p rest
    | r => r

/-- The value of the last entry with a key. -/
def lastLookup (entries : List (Text × Value)) (key : Text) : Option Value := entries.reverse.lookup key

/-- Equality of values. A comparison inside itself does not end; `visiting` holds the comparisons around
this one. -/
def equalWithin (s : Store) : Nat → List (Value × Value) → Value → Value → Option Bool
  | 0, _, _, _ => none
  | fuel + 1, visiting, v, w =>
    if visiting.contains (v, w) then none
    else match v, w with
    | .list i, .list j =>
      let xs := s.list i
      let ys := s.list j
      if xs.length = ys.length then
        allHold (fun (x, y) => equalWithin s fuel ((.list i, .list j) :: visiting) x y) (xs.zip ys)
      else some false
    | v, w =>
      match s.entries? v, s.entries? w with
      | some xs, some ys =>
        if xs.length = ys.length then
          allHold (fun (key, x) => match lastLookup ys key with
            | some y => equalWithin s fuel ((v, w) :: visiting) x y
            | none => some false) xs
        else some false
      | _, _ => some (sameScalar v w)

/-- Equality of values; none if the comparison does not end. -/
def equal? (s : Store) (v w : Value) : Option Bool := s.equalWithin (s.depth * s.depth) [] v w

/-- The items equal to `v`, each with its position, up to the first comparison that does not end. -/
def positionsOf? (s : Store) (v : Value) (items : List Value) : Option (List Nat) := do
  let hits ← items.zipIdx.mapM fun (item, i) => do return (← s.equal? item v, i)
  return (hits.filter (·.1)).map (·.2)

end Stencil.Store
