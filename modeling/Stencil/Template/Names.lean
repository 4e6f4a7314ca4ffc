import Stencil.Template.Node

/-!
The names a template reads: every read in the order of the source, and the names that are read where
nothing has declared them.
-/

namespace Stencil

namespace Expr

/-- The names that an expression reads, in the order of the source. -/
def reads : Expr → List Name
  | name n => [n]
  | const _ _ => []
  | list _ items | tuple _ items => readsOfList items
  | dict _ entries => readsOfEntries entries
  | member _ target _ => target.reads
  | item _ target key => target.reads ++ key.reads
  | slice _ target start stop step =>
    target.reads ++ readsOfOption start ++ readsOfOption stop ++ readsOfOption step
  | call _ callee args named => callee.reads ++ readsOfList args ++ readsOfNamed named
  | filter _ target _ args named => target.reads ++ readsOfList args ++ readsOfNamed named
  | test _ target _ args named _ => target.reads ++ readsOfList args ++ readsOfNamed named
  | not _ operand => operand.reads
  | signed _ _ operand => operand.reads
  | binary _ _ left right => left.reads ++ right.reads
  | logical _ _ left right => left.reads ++ right.reads
  | compare _ first rest => first.reads ++ readsOfCompared rest
  | cond _ value check otherwise => value.reads ++ check.reads ++ readsOfOption otherwise
where
  readsOfList : List Expr → List Name
    | [] => []
    | e :: rest => e.reads ++ readsOfList rest
  readsOfEntries : List (Expr × Expr) → List Name
    | [] => []
    | (key, value) :: rest => key.reads ++ value.reads ++ readsOfEntries rest
  readsOfNamed : List (Text × Expr) → List Name
    | [] => []
    | (_, e) :: rest => e.reads ++ readsOfNamed rest
  readsOfCompared : List (CompareOp × Expr) → List Name
    | [] => []
    | (_, e) :: rest => e.reads ++ readsOfCompared rest
  readsOfOption : Option Expr → List Name
    | none => []
    | some e => e.reads

end Expr

namespace Stmt

/-- The names that a statement reads, in the order of the source. -/
def reads : Stmt → List Name
  | text _ _ => []
  | output _ e | perform _ e => e.reads
  | branches _ bs otherwise => readsOfBranches bs ++ readsOfList otherwise
  | loop _ _ iter filter body otherwise =>
    iter.reads ++ (filter.map Expr.reads).getD [] ++ readsOfList body ++ readsOfList otherwise
  | assign _ _ value => value.reads
  | capture _ _ body => readsOfList body
  | define _ _ _ defaults body => defaults.flatMap Expr.reads ++ readsOfList body
where
  readsOfList : List Stmt → List Name
    | [] => []
    | s :: rest => s.reads ++ readsOfList rest
  readsOfBranches : List (Expr × List Stmt) → List Name
    | [] => []
    | (test, body) :: rest => test.reads ++ readsOfList body ++ readsOfBranches rest

end Stmt

/-- The reads of `names` at the nodes of a stack and below them. Each node is taken from the top of the stack
and its children are put there, the first one topmost. -/
def referencesFrom (names : List Text) : List Node → List Name
  | [] => []
  | node :: rest =>
    let found := node.read?.toList.filter (names.contains ·.text)
    found ++ referencesFrom names (node.children ++ rest)
termination_by stack => sumOf Node.weight stack
decreasing_by
  have hlt := node.weight_children
  rw [sumOf_append, sumOf_cons]
  omega

/-- Every read of one of `names`, in the order of the source. -/
def nameReferences (body : List Stmt) (names : List Text) : List Name := referencesFrom names [.template body]

/-- Names without those that occurred before, in order. -/
def addNew (found : List Text) (names : List Text) : List Text :=
  names.foldl (fun found n => if found.contains n then found else found ++ [n]) found

/-- The names declared where a statement stands, and the undeclared names found up to it. -/
structure Declarations where
  declared : List Text
  undeclared : List Text

namespace Declarations

def declare (d : Declarations) (names : List Text) : Declarations :=
  { d with declared := names ++ d.declared }

/-- Adds the reads of an expression that nothing has declared. -/
def visit (d : Declarations) (e : Expr) : Declarations :=
  { d with undeclared := addNew d.undeclared ((e.reads.map (·.text)).filter (!d.declared.contains ·)) }

/-- Keeps what was found in an inner scope, and drops what was declared there. -/
def leave (outer inner : Declarations) : Declarations := { outer with undeclared := inner.undeclared }

/-- Parameters become known one after the other, each after its default. -/
def params (d : Declarations) (defaults : List (Option Expr)) (params : List Name) : Declarations :=
  (params.zip defaults).foldl (fun d (param, default?) =>
    ((default?.map d.visit).getD d).declare [param.text]) d

end Declarations

/-- The default of each of `count` parameters; the defaults belong to the last ones. -/
def alignDefaults (count : Nat) (defaults : List Expr) : List (Option Expr) :=
  List.replicate (count - defaults.length) none ++ defaults.map some

namespace Stmt

/-- What is declared and found after a statement. The parts of a branching statement share its scope;
loops, captured bodies and macros have scopes of their own. -/
def declarations (d : Declarations) : Stmt → Declarations
  | text _ _ => d
  | output _ e | perform _ e => d.visit e
  | branches _ bs otherwise => ofList (ofBranches d bs) otherwise
  | loop _ target iter filter body otherwise =>
    let d := d.visit iter
    let inner := d.declare (target.names.map (·.text))
    let inner := (filter.map inner.visit).getD inner
    let d := d.leave (ofList (inner.declare [Text.ofString "loop"]) body)
    d.leave (ofList d otherwise)
  | assign _ target value => (d.visit value).declare (target.names.map (·.text))
  | capture _ target body => (d.leave (ofList d body)).declare (target.names.map (·.text))
  | define _ name params defaults body =>
    let d := d.declare [name]
    let inner := d.params (alignDefaults params.length defaults) params
    d.leave (ofList (inner.declare [Text.ofString "varargs", Text.ofString "kwargs"]) body)
where
  ofList (d : Declarations) : List Stmt → Declarations
    | [] => d
    | s :: rest => ofList (s.declarations d) rest
  ofBranches (d : Declarations) : List (Expr × List Stmt) → Declarations
    | [] => d
    | (test, body) :: rest => ofBranches (ofList (d.visit test) body) rest

end Stmt

/-- The names that a template reads without declaring them, in the order they are found. -/
def undeclaredNames (body : List Stmt) : List Text :=
  (body.foldl Stmt.declarations ⟨[], []⟩).undeclared

end Stencil
