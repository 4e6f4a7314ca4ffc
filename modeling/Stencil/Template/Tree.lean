import Stencil.Number.Basic
import Stencil.Text.Basic

/-!
The syntax tree of a template. Every node records the line it starts on; names also record the
number of code units before them.
-/

namespace Stencil

/-- An occurrence of a name in a source. -/
structure Name where
  text : Text
  line : Nat
  offset : Nat
deriving DecidableEq, Repr

/-- A value that is written out in a template. -/
inductive Constant where
  | none
  | bool (b : Bool)
  | number (x : Number)
  | text (t : Text)
deriving DecidableEq, Repr

inductive BinaryOp where
  | add | sub | mul | div | floorDiv | mod | pow | concat
deriving DecidableEq, Repr

def BinaryOp.symbol : BinaryOp → String
  | add => "+" | sub => "-" | mul => "*" | div => "/" | floorDiv => "//" | mod => "%" | pow => "**" | concat => "~"

inductive CompareOp where
  | equal | notEqual | less | greater | lessEqual | greaterEqual | isIn | isNotIn
deriving DecidableEq, Repr

def CompareOp.symbol : CompareOp → String
  | equal => "==" | notEqual => "!=" | less => "<" | greater => ">" | lessEqual => "<="
  | greaterEqual => ">=" | isIn => "in" | isNotIn => "not in"

inductive Sign where
  | minus
  | plus
deriving DecidableEq, Repr

def Sign.symbol : Sign → String
  | minus => "-"
  | plus => "+"

inductive LogicalOp where
  | and
  | or
deriving DecidableEq, Repr

def LogicalOp.symbol : LogicalOp → String
  | and => "and"
  | or => "or"

/-- An expression. Calls, filters and tests have positional arguments and arguments by keyword. -/
inductive Expr where
  | name (n : Name)
  | const (line : Nat) (value : Constant)
  | list (line : Nat) (items : List Expr)
  | tuple (line : Nat) (items : List Expr)
  | dict (line : Nat) (entries : List (Expr × Expr))
  | member (line : Nat) (target : Expr) (attr : Text)
  | item (line : Nat) (target key : Expr)
  | slice (line : Nat) (target : Expr) (start stop step : Option Expr)
  | call (line : Nat) (callee : Expr) (args : List Expr) (named : List (Text × Expr))
  | filter (line : Nat) (target : Expr) (filter : Text) (args : List Expr) (named : List (Text × Expr))
  | test (line : Nat) (target : Expr) (test : Text) (args : List Expr) (named : List (Text × Expr)) (negated : Bool)
  | not (line : Nat) (operand : Expr)
  | signed (line : Nat) (sign : Sign) (operand : Expr)
  | binary (line : Nat) (op : BinaryOp) (left right : Expr)
  | logical (line : Nat) (op : LogicalOp) (left right : Expr)
  | compare (line : Nat) (first : Expr) (rest : List (CompareOp × Expr))
  | cond (line : Nat) (value test : Expr) (otherwise : Option Expr)
deriving Repr, Inhabited

/-- What an assignment or a loop binds. -/
inductive Target where
  | name (n : Name)
  | tuple (line : Nat) (items : List Name)
deriving DecidableEq, Repr

/-- The names that a target binds, from left to right. -/
def Target.names : Target → List Name
  | name n => [n]
  | tuple _ items => items

inductive Stmt where
  | text (line : Nat) (value : Text)
  | output (line : Nat) (expr : Expr)
  | branches (line : Nat) (branches : List (Expr × List Stmt)) (otherwise : List Stmt)
  | loop (line : Nat) (target : Target) (iter : Expr) (filter : Option Expr) (body otherwise : List Stmt)
  | assign (line : Nat) (target : Target) (value : Expr)
  | capture (line : Nat) (target : Target) (body : List Stmt)
  | define (line : Nat) (name : Text) (params : List Name) (defaults : List Expr) (body : List Stmt)
  | perform (line : Nat) (expr : Expr)
deriving Repr, Inhabited

namespace Expr

def line : Expr → Nat
  | name n => n.line
  | const l _ | list l _ | tuple l _ | dict l _ | member l _ _ | item l _ _ | slice l _ _ _ _ | call l _ _ _
  | filter l _ _ _ _ | test l _ _ _ _ _ | not l _ | signed l _ _ | binary l _ _ _ | logical l _ _ _
  | compare l _ _ | cond l _ _ _ => l

/-- The word for the kind of an expression. -/
def kindName : Expr → String
  | name _ => "name"
  | const _ _ => "const"
  | list _ _ => "list"
  | tuple _ _ => "tuple"
  | dict _ _ => "dict"
  | member _ _ _ => "getattr"
  | item _ _ _ | slice _ _ _ _ _ => "getitem"
  | call _ _ _ _ => "call"
  | filter _ _ _ _ _ => "filter"
  | test _ _ _ _ _ _ => "test"
  | not _ _ | signed _ _ _ => "unary"
  | binary _ _ _ _ => "binary"
  | logical _ _ _ _ => "logical"
  | compare _ _ _ => "compare"
  | cond _ _ _ _ => "cond"

end Expr
end Stencil
