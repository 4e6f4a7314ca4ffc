import Stencil.Render.Operate
import Stencil.Text.Case

/-!
Functions that templates can call: the methods of texts, lists and keyed containers, the cycle of a
loop, and the global functions.
-/

namespace Stencil

/-- Arguments of a call, positional and by keyword. -/
structure Arguments where
  args : List Value
  named : List (Text × Value)
deriving Repr

namespace Arguments

/-- A positional argument, absent if it is not given. -/
def nth (a : Arguments) (i : Nat) : Value := a.args[i]?.getD .absent

/-- A positional argument, or the one by keyword if there are not so many. -/
def get (a : Arguments) (i : Nat) (name : String) : Value :=
  match a.args[i]? with
  | some v => v
  | none => (a.named.lookup (Text.ofString name)).getD .absent

end Arguments

/-- Largest sequence that `range` builds. -/
def maxRange : Nat := 100000

namespace Eval

def textArgument (a : Arguments) (i : Nat) : Eval Text :=
  match (a.nth i).text? with
  | some t => return t
  | none => throw (.textArgument (a.nth i).kind)

def textList (ts : List Text) : Eval Value := newList (ts.map .text)

def callText (m : TextMethod) (self : Text) (a : Arguments) : Eval Value := do
  match m with
  | .upper => return .text self.toUpper
  | .lower => return .text self.toLower
  | .strip => return .text self.trim
  | .lstrip => return .text self.trimLeft
  | .rstrip => return .text self.trimRight
  | .startswith => return .bool ((← textArgument a 0).isPrefixOf self)
  | .endswith => return .bool ((← textArgument a 0).isSuffixOf self)
  | .replace =>
    let parts := Text.splitOn (← textArgument a 0) self
    return .text (Text.join (← textArgument a 1) parts)
  | .split =>
    match a.nth 0 with
    | .absent | .none => textList self.words
    | _ => textList (Text.splitOn (← textArgument a 0) self)
  | .join =>
    let items ← items (a.nth 0)
    return .text (Text.join self (← items.mapM display))

/-- Removes the item at a position that counts from the end if it is negative. The position is held
to the list; behind its last item there is nothing to remove. -/
def popAt (id : ListId) (index : Number) : Eval Value := do
  let items ← read (·.list id)
  let start := if index.lt 0 then Number.ofNat items.length + index else index
  let i := start.position items.length
  modify (·.setList id (items.eraseIdx i))
  return items[i]?.getD .absent

def callList (m : ListMethod) (self : ListId) (a : Arguments) : Eval Value := do
  match m with
  | .append =>
    modify fun s => s.setList self (s.list self ++ [a.nth 0])
    return .none
  | .extend =>
    let more ← items (a.nth 0)
    modify fun s => s.setList self (s.list self ++ more)
    return .none
  | .pop =>
    let length := (← read (·.list self)).length
    if length = 0 then throw .popEmpty
    match a.nth 0 with
    | .number index => popAt self index
    | _ => popAt self (Number.ofNat (length - 1))
  | .index =>
    let items ← read (·.list self)
    match ← readDeep (·.positionsOf? (a.nth 0) items) with
    | i :: _ => return .ofNat i
    | [] => throw (.notInList (← repr (a.nth 0)))
  | .count =>
    let items ← read (·.list self)
    return .ofNat (← readDeep (·.positionsOf? (a.nth 0) items)).length

def callKeyed (m : KeyedMethod) (self : Keyed) (a : Arguments) : Eval Value := do
  match m with
  | .items =>
    let entries ← read (·.entriesOf self)
    newList (← entries.mapM fun (key, v) => newList [.text key, v])
  | .keys => newList ((← read (·.entriesOf self)).map fun (key, _) => .text key)
  | .values => newList ((← read (·.entriesOf self)).map (·.2))
  | .get =>
    let s ← get
    match s.ownValue? self (s.keyText (a.nth 0)) with
    | some v => return v
    | none => return if a.nth 1 = .absent then .none else a.nth 1
  | .update =>
    let entries := ((← get).entries? (a.nth 0)).getD [] ++ a.named
    modify fun s => entries.foldl (fun s (key, v) => s.setEntry self key v) s
    return .none

/-- The start, the stop and the step of a range. -/
def rangeBounds : List Number → Except Fault (Number × Number × Number)
  | [stop] => .ok (0, stop, 1)
  | [start, stop] => .ok (start, stop, 1)
  | [start, stop, step] => .ok (start, stop, step)
  | numbers => .error (.rangeArguments numbers.length)

/-- The numbers from a start by a step up to, and without, a stop. -/
def rangeNumbers (start stop step : Number) : Except Fault (List Number) :=
  if step.eq 0 then .error .rangeStep
  else
    let size := ((stop - start) / step).ceil
    if (Number.ofNat maxRange).lt size then .error .rangeTooBig
    else .ok ((List.range ((size.toInt?).getD 0).toNat).map fun i => start + Number.ofNat i * step)

def callRange (a : Arguments) : Eval Value := do
  let numbers ← a.args.mapM fun v => do
    match v with
    | .number x => if x.isInteger then pure x else throw (.integerArgument v.kind)
    | v => throw (.integerArgument v.kind)
  let (start, stop, step) ← ofExcept (rangeBounds numbers)
  newList ((← ofExcept (rangeNumbers start stop step)).map .number)

def callNative (f : Native) (a : Arguments) : Eval Value := do
  match f with
  | .range => callRange a
  | .dict => mappingOf a.named
  | .cycle index =>
    if a.args.isEmpty then throw .cycleEmpty
    return a.nth (index % a.args.length)
  | .text m self => callText m self a
  | .list m self => callList m self a
  | .keyed m self => callKeyed m self a

end Eval
end Stencil
