import Stencil.Value.Store

/-!
What can go wrong while a template runs, and the computations that run over the store.
-/

namespace Stencil

inductive Fault where
  | undefined (reason : Missing)
  | unsafeMember (kind : Kind) (name : Text)
  | unsafeKey (kind : Kind) (key : Text)
  | rangeTooBig
  | notIterable (kind : Kind)
  | notContainer (kind : Kind)
  | notSliceable (kind : Kind)
  | notCallable (kind : Kind)
  | noLength (kind : Kind)
  | sliceIndex (kind : Kind)
  | sliceStep
  | textArgument (kind : Kind)
  | numberArgument (name : String) (kind : Kind)
  | integerArgument (kind : Kind)
  | popEmpty
  | notInList (item : Text)
  | operands (op : BinaryOp) (left right : Kind)
  | operand (sign : Sign) (kind : Kind)
  | absOperand (kind : Kind)
  | unordered (op : CompareOp) (left right : Kind)
  | notInText (kind : Kind)
  | divisionByZero
  | realRequired (conversion : CodeUnit) (kind : Kind)
  | incompleteFormat
  | unknownConversion (conversion : CodeUnit) (index : Nat)
  | formatWithoutMapping
  | formatKey (key : Text)
  | formatTooFew
  | formatTooMany
  | roundMethod
  | rangeArguments (count : Nat)
  | rangeStep
  | cycleEmpty
  | unpack (expected got : Nat)
  | argumentTwice (routine param : Text)
  | unknownFilter (name : Text)
  | unknownTest (name : Text)
  | places
  | textTooLong
  | tooDeep
deriving DecidableEq, Repr

/-- The classes of faults that callers tell apart. A fault of extent is a text, a count of places or
a nesting beyond every limit. -/
inductive FaultClass where
  | runtime
  | undefined
  | security
  | extent
deriving DecidableEq, Repr

namespace Fault

def faultClass : Fault → FaultClass
  | undefined _ => .undefined
  | unsafeMember _ _ | unsafeKey _ _ | rangeTooBig => .security
  | places | textTooLong | tooDeep => .extent
  | _ => .runtime

def message : Fault → String
  | undefined reason => reason.message
  | unsafeMember kind name => s!"access to attribute '{name.toString}' of '{kind.name}' object is unsafe"
  | unsafeKey kind key => s!"access to key '{key.toString}' of '{kind.name}' object is unsafe"
  | rangeTooBig => "Range too big. The sandbox blocks ranges larger than MAX_RANGE (100000)"
  | notIterable kind => s!"'{kind.name}' object is not iterable"
  | notContainer kind => s!"argument of type '{kind.name}' is not iterable"
  | notSliceable kind => s!"'{kind.name}' object is not sliceable"
  | notCallable kind => s!"'{kind.name}' object is not callable"
  | noLength kind => s!"object of type '{kind.name}' has no len()"
  | sliceIndex kind => s!"slice indices must be integers or none, not '{kind.name}'"
  | sliceStep => "slice step cannot be zero"
  | textArgument kind => s!"expected a string argument, got '{kind.name}'"
  | numberArgument name kind => s!"argument '{name}' must be a number, got '{kind.name}'"
  | integerArgument kind => s!"'{kind.name}' object cannot be interpreted as an integer"
  | popEmpty => "pop from empty list"
  | notInList item => s!"{item.toString} is not in list"
  | operands op left right => s!"unsupported operand type(s) for {op.symbol}: '{left.name}' and '{right.name}'"
  | operand sign kind => s!"bad operand type for unary {sign.symbol}: '{kind.name}'"
  | absOperand kind => s!"bad operand type for abs(): '{kind.name}'"
  | unordered op left right =>
    s!"'{op.symbol}' not supported between instances of '{left.name}' and '{right.name}'"
  | notInText kind => s!"'in <string>' requires string as left operand, not {kind.name}"
  | divisionByZero => "division by zero"
  | realRequired conversion kind =>
    s!"%{Text.toString [conversion]} format: a real number is required, not '{kind.name}'"
  | incompleteFormat => "incomplete format"
  | unknownConversion conversion index =>
    s!"unsupported format character '{Text.toString [conversion]}' at index {index}"
  | formatWithoutMapping => "format requires a mapping"
  | formatKey key => s!"format key '{key.toString}' is not defined"
  | formatTooFew => "not enough arguments for format string"
  | formatTooMany => "not all arguments converted during string formatting"
  | roundMethod => "method must be common, ceil or floor"
  | rangeArguments count => s!"range expected 1 to 3 arguments, got {count}"
  | rangeStep => "range() arg 3 must not be zero"
  | cycleEmpty => "no items for cycling given"
  | unpack expected got =>
    let problem := if expected < got then "too many" else "not enough"
    s!"{problem} values to unpack (expected {expected}, got {got})"
  | argumentTwice routine param =>
    s!"macro '{routine.toString}' got multiple values for argument '{param.toString}'"
  | unknownFilter name => s!"No filter named '{name.toString}'"
  | unknownTest name => s!"No test named '{name.toString}'"
  | places => "toFixed() digits argument must be between 0 and 100"
  | textTooLong => "Invalid string length"
  | tooDeep => "Maximum call stack size exceeded"

end Fault

/-- A computation over the store. What it changed before a fault stays changed. -/
abbrev Eval := EStateM Fault Store

namespace Eval

/-- A computation that only reads the store. -/
def read {α : Type} (f : Store → α) : Eval α := return f (← get)

/-- A computation that reads the store and gives up where it nests without end. -/
def readDeep {α : Type} (f : Store → Option α) : Eval α := do
  match f (← get) with
  | some a => return a
  | none => throw .tooDeep

/-- A change of the store that gives something new. -/
def alloc {α : Type} (f : Store → α × Store) : Eval α := modifyGet f

def newList (items : List Value) : Eval Value := alloc (·.newList items)

def newMapping (ps : Properties) : Eval Value := alloc (·.newMapping ps)

/-- A mapping of data properties. -/
def mappingOf (entries : List (Text × Value)) : Eval Value :=
  newMapping (Properties.ofList (entries.map fun (key, v) => (key, .data v)))

def newNative (f : Native) : Eval Value := alloc (·.newNative f)

def newScope (parent : ScopeId) : Eval ScopeId := alloc (·.newScope (some parent) [])

def setVar (scope : ScopeId) (name : Text) (value : Value) : Eval Unit :=
  modify (·.setVar scope name value)

end Eval
end Stencil
