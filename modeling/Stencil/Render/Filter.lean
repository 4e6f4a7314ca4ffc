import Stencil.Number.Read
import Stencil.Render.Call
import Stencil.Value.Ranking

/-!
Filters and tests.
-/

namespace Stencil

inductive Filter where
  | upper | lower | trim | title | capitalize | default | join | length | replace | first | last
  | int | float | string | list | sort | unique | reverse | round | abs | safe
deriving DecidableEq, Repr

inductive Test where
  | defined | undefined | none | number | string | mapping | sequence | iterable | even | odd
  | divisibleby | callable
deriving DecidableEq, Repr

/-- Filters by name. Some have two names. -/
def builtinFilters : List (Text × Filter) :=
  ([("upper", .upper), ("lower", .lower), ("trim", .trim), ("title", .title), ("capitalize", .capitalize),
    ("default", .default), ("d", .default), ("join", .join), ("length", .length), ("count", .length),
    ("replace", .replace), ("first", .first), ("last", .last), ("int", .int), ("float", .float),
    ("string", .string), ("list", .list), ("sort", .sort), ("unique", .unique), ("reverse", .reverse),
    ("round", .round), ("abs", .abs), ("safe", .safe)] : List (String × Filter)).map
    fun (name, f) => (Text.ofString name, f)

/-- Tests by name. -/
def builtinTests : List (Text × Test) :=
  ([("defined", .defined), ("undefined", .undefined), ("none", .none), ("number", .number),
    ("string", .string), ("mapping", .mapping), ("sequence", .sequence), ("iterable", .iterable),
    ("even", .even), ("odd", .odd), ("divisibleby", .divisibleby), ("callable", .callable)] :
    List (String × Test)).map fun (name, t) => (Text.ofString name, t)

/-- The size of a value: units of a text, items of a list, entries of a keyed container. -/
def Store.length? (s : Store) : Value → Option Nat
  | .undefined _ => some 0
  | .text t | .safe t => some t.length
  | .list id => some (s.list id).length
  | v => (s.entries? v).map (·.length)

/-- The first occurrences of the items of each class of equal ones. -/
def Store.unique? (s : Store) (items : List Value) : Option (List Value) :=
  items.foldlM (fun (seen : List Value) v => do
    let known ← seen.anyM fun w => s.equal? w v
    return if known then seen else seen ++ [v]) []

/-- The text with `search` replaced by `replacement`, everywhere or as often as a limit says. A limit
below zero is none; the fraction of a limit is dropped after adding one. -/
def replaceText (t search replacement : Text) (limit : Option Number) : Text :=
  if search.isEmpty then t
  else
    let parts := Text.splitOn search t
    let all := Text.join replacement parts
    match limit with
    | none => all
    | some n =>
      if n.lt 0 || (Number.ofNat (parts.length - 1)).le n then all
      else
        let cut := (n + 1).position parts.length
        Text.join replacement (parts.take cut) ++ search ++ Text.join search (parts.drop cut)

/-- The nearest multiple of a decimal place; a half goes away from zero, unless the way is given. -/
def roundNumber (x precision : Number) (method : Text) : Except Fault Number :=
  let factor := Number.pow 10 precision
  if method = "common" then .ok (x.sign * (x.abs * factor).round / factor)
  else if method = "ceil" then .ok ((x * factor).ceil / factor)
  else if method = "floor" then .ok ((x * factor).floor / factor)
  else .error .roundMethod

namespace Eval

def numberArgument (a : Arguments) (i : Nat) (name : String) (fallback : Number) : Eval Number :=
  match a.get i name with
  | .absent => return fallback
  | .number x => return x
  | v => throw (.numberArgument name v.kind)

/-- The number that a text reads as, without underscores in it and blanks around it. Blanks that only
underscores set apart from the ends read as zero. -/
def numberIn? (t : Text) : Option Number :=
  let t := t.trim.filter (· != ('_' : CodeUnit))
  if t.isEmpty then none
  else if (Text.trim t).isEmpty then some 0
  else Number.ofText? (Text.trim t)

/-- The number that a value stands for: a number itself, truth values one and zero, and the number
that the text of any other value reads as. -/
def toNumber? (v : Value) : Eval (Option Number) := do
  match v with
  | .number x => return some x
  | .bool b => return some (if b then 1 else 0)
  | v => return numberIn? (← display v)

def applyFilter (f : Filter) (v : Value) (a : Arguments) : Eval Value := do
  match f with
  | .upper => return .text (← display v).toUpper
  | .lower => return .text (← display v).toLower
  | .trim => return .text (← display v).trim
  | .title => return .text (← display v).title
  | .capitalize => return .text (← display v).capitalize
  | .default =>
    let fallback := match a.get 0 "default_value" with
      | .absent | .none => .text []
      | w => w
    let useBoolean ← truthy (a.get 1 "boolean")
    match v with
    | .undefined _ => return fallback
    | v => return if useBoolean && !(← truthy v) then fallback else v
  | .join =>
    let separator := a.get 0 "d"
    let parts ← (← items v).mapM display
    return .text (Text.join (← display separator) parts)
  | .length =>
    match (← get).length? v with
    | some n => return .ofNat n
    | none => throw (.noLength v.kind)
  | .replace =>
    let t ← display v
    let search ← display (a.get 0 "old")
    let replacement ← display (a.get 1 "new")
    let limit := match a.get 2 "count" with
      | .number x => some x
      | _ => none
    return .text (replaceText t search replacement limit)
  | .first => return (← items v).head?.getD (.undefined .firstItem)
  | .last => return (← items v).getLast?.getD (.undefined .lastItem)
  | .int =>
    match ← toNumber? v with
    | some x => return .number x.trunc
    | none => return .number (← numberArgument a 0 "default" 0)
  | .float =>
    match ← toNumber? v with
    | some x => return .number x
    | none => return .number (← numberArgument a 0 "default" 0)
  | .string => return .text (← display v)
  | .list => newList (← items v)
  | .sort =>
    let reverse ← truthy (a.get 0 "reverse")
    let caseSensitive ← truthy (a.get 1 "case_sensitive")
    let items ← items v
    let sorted ← readDeep (·.sorted? caseSensitive items)
    newList (if reverse then sorted.reverse else sorted)
  | .unique =>
    let items ← items v
    newList (← readDeep (·.unique? items))
  | .reverse =>
    match v with
    | .text t => return .text t.points.reverse.flatten
    | v => newList (← items v).reverse
  | .round =>
    let x := (← toNumber? v).getD 0
    let method := a.get 1 "method"
    let precision ← numberArgument a 0 "precision" 0
    let method ← if method = .absent then pure (Text.ofString "common") else display method
    return .number (← ofExcept (roundNumber x precision method))
  | .abs =>
    match v with
    | .number x => return .number x.abs
    | v => throw (.absOperand v.kind)
  | .safe => return .safe (← display v)

/-- Whether a value has a number of items. -/
def isSequence : Value → Bool
  | .text _ | .safe _ | .list _ | .mapping _ | .table _ => true
  | _ => false

def applyTest (t : Test) (v : Value) (a : Arguments) : Eval Bool := do
  match t with
  | .defined => return v.kind != .undefined
  | .undefined => return v.kind == .undefined
  | .none => return v = .none
  | .number => return match v with
    | .number _ => true
    | _ => false
  | .string => return v.text?.isSome
  | .mapping => return v.keyed?.isSome
  | .sequence | .iterable => return isSequence v
  | .even => return match v with
    | .number x => (x % 2).eq 0
    | _ => false
  | .odd => return match v with
    | .number x => (x % 2).abs.eq 1
    | _ => false
  | .divisibleby =>
    let divisor ← numberArgument a 0 "num" 1
    if divisor.eq 0 then throw .divisionByZero
    return match v with
    | .number x => (x % divisor).eq 0
    | _ => false
  | .callable => return match v with
    | .ofMacro _ | .native _ _ => true
    | _ => false

end Eval
end Stencil
