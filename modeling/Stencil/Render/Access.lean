import Stencil.Render.Fault
import Stencil.Value.Equality

/-!
Reaching into values: members, items, slices and iteration. Templates see data, list items and a
fixed set of methods; names that start with an underscore are refused.
-/

namespace Stencil

/-- The items that iteration visits: the items of a list, the code points of a text, the keys of a
keyed container, and nothing for an undefined value. -/
def Store.items? (s : Store) : Value → Option (List Value)
  | .undefined _ => some []
  | .list id => some (s.list id)
  | .text t | .safe t => some (t.points.map .text)
  | .mapping id => some ((s.entriesOf (.mapping id)).map fun (key, _) => .text key)
  | .table id => some ((s.entriesOf (.table id)).map fun (key, _) => .text key)
  | _ => none

/-- The place of a slice's bound: from the end if it is negative, and held to the places that can be read and
the one where they end. -/
def slicePlace (length : Nat) (step : Int) (omitted : Int) : Option Int → Int
  | none => omitted
  | some i =>
    let i := if i < 0 then i + length else i
    if 0 < step then min (max i 0) length else min (max i (-1)) (length - 1)

/-- Whether `i` lies before `stop` in the direction of a step. -/
def isBefore (stop step i : Int) : Bool := if 0 < step then i < stop else stop < i

/-- The places from `i` by `step` that lie before `stop`, as many as there are rounds. -/
def strides (stop step : Int) : Nat → Int → List Int
  | 0, _ => []
  | rounds + 1, i => if isBefore stop step i then i :: strides stop step rounds (i + step) else []

/-- The positions of a slice: from `start` by `step` up to, and without, `stop`. A round reads one item, and
none is read twice. -/
def slicePositions (length : Nat) (start stop : Option Int) (step : Int) : List Nat :=
  let first := slicePlace length step (if 0 < step then 0 else length - 1) start
  let last := slicePlace length step (if 0 < step then length else -1) stop
  (strides last step length first).map Int.toNat

namespace Eval

/-- The text of a value in rendered output. -/
def display (v : Value) : Eval Text := readDeep (·.display? v)

/-- The text of a value inside containers. -/
def repr (v : Value) : Eval Text := readDeep (·.repr? v)

def truthy (v : Value) : Eval Bool := read (·.isTruthy v)

def equal (v w : Value) : Eval Bool := readDeep (·.equal? v w)

def items (v : Value) : Eval (List Value) := do
  match (← get).items? v with
  | some items => return items
  | none => throw (.notIterable v.kind)

/-- A value that operators can work on: not undefined, and plain where it is safe text. -/
def plain : Value → Eval Value
  | .undefined reason => throw (.undefined reason)
  | .safe t => return .text t
  | v => return v

def isHidden (name : Text) : Bool := name.head? = some ('_' : CodeUnit)

/-- The method or nothing of that name on a value of a kind. -/
def bound (kind : Kind) (name : Text) : Option Native → Eval Value
  | some f => newNative f
  | none => return .undefined (.member kind name)

/-- The member of a value: a method, or the data of a mapping under that key. -/
def member (v : Value) (name : Text) : Eval Value := do
  match v with
  | .undefined reason => throw (.undefined reason)
  | v =>
    if isHidden name then throw (.unsafeMember v.kind name)
    match v with
    | .text t | .safe t => bound .text name ((TextMethod.ofName? name).map (.text · t))
    | .list id => bound .list name ((ListMethod.ofName? name).map (.list · id))
    | v =>
      match v.keyed? with
      | none => return .undefined (.member v.kind name)
      | some target =>
        match KeyedMethod.ofName? name with
        | some m => newNative (.keyed m target)
        | none =>
          match (← get).ownValue? target name with
          | some v => return v
          | none => return .undefined (.member .dict name)

/-- The items that an integer picks from: those of a list or of plain text. -/
def sequence? (s : Store) : Value → Option (List Value)
  | .list id => some (s.list id)
  | .text t => some (t.points.map .text)
  | _ => none

/-- The item at an integer, where a negative one counts from the end. -/
def at? (items : List Value) (index : Int) : Option Value :=
  let i := if index < 0 then items.length + index else index
  if 0 ≤ i then items[i.toNat]? else none

/-- The key that a value stands for in a keyed container. -/
def keyOf : Value → Eval Text
  | .text t => return t
  | v => display v

/-- The data of a keyed container under a key, if it has any; a hidden key is refused. -/
def dataAt (v key : Value) : Eval (Option Value) := do
  match v.keyed? with
  | none => return none
  | some target =>
    let name ← keyOf key
    if isHidden name then throw (.unsafeKey .dict name)
    return (← get).ownValue? target name

/-- The items that a number picks from, with the number and its integer. -/
def picked? (v key : Value) : Eval (Option (Number × Int × List Value)) := do
  match key with
  | .number x =>
    let s ← get
    return x.toInt?.bind fun i => (sequence? s v).map (x, i, ·)
  | _ => return none

/-- The item of a value under a key. Where there is none, a text key names a member. -/
def item (v key : Value) : Eval Value := do
  match v with
  | .undefined reason => throw (.undefined reason)
  | v =>
    match ← picked? v key with
    | some (x, i, items) => return (at? items i).getD (.undefined (.index v.kind x))
    | none =>
      match ← dataAt v key with
      | some found => return found
      | none =>
        match key with
        | .text name => member v name
        | key => return .undefined (.element v.kind (← repr key))

/-- A bound of a slice; it may be left out. -/
def sliceBound : Value → Eval (Option Int)
  | .none | .absent => return none
  | v =>
    match v with
    | .number x => match x.toInt? with
      | some i => return some i
      | none => throw (.sliceIndex v.kind)
    | v => throw (.sliceIndex v.kind)

/-- The items of a list, or the code points of plain text, at the positions of a slice. -/
def slice (v start stop step : Value) : Eval Value := do
  match v with
  | .undefined reason => throw (.undefined reason)
  | v =>
    match sequence? (← get) v with
    | none => throw (.notSliceable v.kind)
    | some items =>
      let step := (← sliceBound step).getD 1
      if step = 0 then throw .sliceStep
      let start ← sliceBound start
      let stop ← sliceBound stop
      let cells := items.toArray
      let picked := (slicePositions items.length start stop step).filterMap (cells[·]?)
      match v with
      | .text _ => return .text (picked.flatMap fun c => (c.text?).getD [])
      | _ => newList picked

end Eval
end Stencil
