import Stencil.Number.Power
import Stencil.Render.Percent

/-!
Operators. Numbers take part in arithmetic, texts and lists can be joined and repeated, and only
numbers with numbers and texts with texts are ordered.
-/

namespace Stencil

/-- Arithmetic on numbers. `floorDiv` rounds down, and `mod` has the sign of its divisor. -/
def arithmetic (op : BinaryOp) (x y : Number) : Except Fault Number :=
  match op with
  | .add => .ok (x + y)
  | .sub => .ok (x - y)
  | .mul => .ok (x * y)
  | .pow => .ok (x.pow y)
  | .div => if y.eq 0 then .error .divisionByZero else .ok (x / y)
  | .floorDiv => if y.eq 0 then .error .divisionByZero else .ok (x / y).floor
  | .mod => if y.eq 0 then .error .divisionByZero else .ok ((x % y + y) % y)
  | .concat => .error (.operands op (Value.number x).kind (Value.number y).kind)

/-- Whether numbers are ordered in a way, decided by the sign of their difference. -/
def numbersOrdered (op : CompareOp) (x y : Number) : Bool :=
  let difference := x - y
  match op with
  | .less => difference.lt 0
  | .greater => Number.lt 0 difference
  | .lessEqual => difference.le 0
  | .greaterEqual => Number.le 0 difference
  | _ => false

/-- Whether texts are ordered in a way, by code unit. -/
def textsOrdered (op : CompareOp) (t u : Text) : Bool :=
  match op with
  | .less => t.before u
  | .greater => Text.before u t
  | .lessEqual => !Text.before u t
  | .greaterEqual => !t.before u
  | _ => false

namespace Eval

def ofExcept {α : Type} : Except Fault α → Eval α
  | .ok a => return a
  | .error e => throw e

/-- A text or a list, a whole number of times in a row; nothing below one. -/
def repeated? (v : Value) (times : Number) : Eval (Option Value) := do
  match times.toInt?, v with
  | some n, .text t =>
    if !t.isEmpty && maxTextLength < n.toNat * t.length then throw .textTooLong
    return some (.text (if t.isEmpty then [] else (List.replicate n.toNat t).flatten))
  | some n, .list id =>
    let items ← read (·.list id)
    return some (← newList (if items.isEmpty then [] else (List.replicate n.toNat items).flatten))
  | _, _ => return none

/-- Two texts or two lists, one after the other. -/
def joined? (left right : Value) : Eval (Option Value) := do
  match left, right with
  | .text t, .text u => return some (.text (t ++ u))
  | .list i, .list j => return some (← newList ((← read (·.list i)) ++ (← read (·.list j))))
  | _, _ => return none

/-- A text or a list repeated by a number on either side. -/
def multiplied? (left right : Value) : Eval (Option Value) :=
  match left, right with
  | left, .number n => repeated? left n
  | .number n, right => repeated? right n
  | _, _ => return none

/-- What an operator makes of operands that are not both numbers. -/
def combined? (op : BinaryOp) (left right : Value) : Eval (Option Value) :=
  match op with
  | .add => joined? left right
  | .mul => multiplied? left right
  | _ => return none

/-- Operators on operands that are neither undefined nor marked safe. -/
def plainBinary (op : BinaryOp) (left right : Value) : Eval Value := do
  match left, right with
  | .number x, .number y => return .number (← ofExcept (arithmetic op x y))
  | left, right =>
    match ← combined? op left right with
    | some v => return v
    | none => throw (.operands op left.kind right.kind)

/-- A binary operator on two values. Concatenation takes the texts of any values, and a text on the
left of `%` is a format. -/
def binary (op : BinaryOp) (left right : Value) : Eval Value := do
  if op = .concat then return .text ((← display left) ++ (← display right))
  let left ← plain left
  match op, left with
  | .mod, .text format => return .text (← percentFormat format right)
  | op, left => plainBinary op left (← plain right)

def signed (sign : Sign) (operand : Value) : Eval Value := do
  match ← plain operand with
  | .number x => return .number (if sign = .minus then -x else x)
  | v => throw (.operand sign v.kind)

/-- Whether a container holds something: a text another text, a list an equal item, a keyed
container a key. -/
def holds (container needle : Value) : Eval Bool := do
  match container with
  | .text t =>
    match ← plain needle with
    | .text u => return t.includes u
    | v => throw (.notInText v.kind)
  | .list id =>
    (← read (·.list id)).anyM (equal · needle)
  | v =>
    match (← get).entries? v with
    | some entries =>
      let key ← keyOf needle
      return entries.any (·.1 = key)
    | none => throw (.notContainer v.kind)

/-- Whether a value holds something; an undefined value holds nothing. -/
def contains (container needle : Value) : Eval Bool := do
  match container with
  | .undefined _ => return false
  | container => holds (← plain container) needle

/-- Whether a comparison holds. -/
def compare (op : CompareOp) (left right : Value) : Eval Bool := do
  match op with
  | .equal => equal left right
  | .notEqual => return !(← equal left right)
  | .isIn => contains right left
  | .isNotIn => return !(← contains right left)
  | op =>
    let left ← plain left
    let right ← plain right
    match left, right with
    | .number x, .number y => return numbersOrdered op x y
    | .text t, .text u => return textsOrdered op t u
    | left, right => throw (.unordered op left.kind right.kind)

end Eval
end Stencil
