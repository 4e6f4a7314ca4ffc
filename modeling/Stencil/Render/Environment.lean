import Stencil.Render.Evaluate
import Stencil.Template.Lexer
import Stencil.Template.Parser

/-!
Environments: what templates are read and run with. All templates of an environment see its global
variables.
-/

namespace Stencil

structure Environment where
  keepFinalBreak : Bool
  autoescape : Bool
  performs : Bool
  filters : List (Text × Filter)
  tests : List (Text × Test)
  globals : ScopeId

/-- How deep a render may nest. -/
def depthLimit : Nat := 10000

namespace Environment

/-- An environment with the built-in filters, tests and global functions. -/
def create (keepFinalBreak autoescape performs : Bool) (s : Store) : Environment × Store :=
  let (range, s) := s.newNative .range
  let (dict, s) := s.newNative .dict
  let (globals, s) := s.newScope none [(Text.ofString "range", range), (Text.ofString "dict", dict)]
  (⟨keepFinalBreak, autoescape, performs, builtinFilters, builtinTests, globals⟩, s)

def dialect (env : Environment) : Dialect :=
  ⟨env.performs, env.filters.map (·.1), env.tests.map (·.1)⟩

def features (env : Environment) : Features := ⟨env.autoescape, env.filters, env.tests⟩

/-- The statements of a source. -/
def parse (env : Environment) (source : Text) : Except Unreadable (List Stmt) := do
  Parser.parse env.dialect (← Lexer.tokenize source env.keepFinalBreak)

/-- The names of the global variables, in the order they were set. -/
def globalNames (env : Environment) (s : Store) : List Text := (s.scope env.globals).vars.map (·.1)

/-- The environment without a filter; templates that were read before fail where they use it. -/
def dropFilter (env : Environment) (name : Text) : Environment :=
  { env with filters := env.filters.filter (·.1 != name) }

/-- The environment without a test; templates that were read before fail where they use it. -/
def dropTest (env : Environment) (name : Text) : Environment :=
  { env with tests := env.tests.filter (·.1 != name) }

end Environment

/-- The variables that a context gives: the entries of a mapping, or those of a table under text. -/
def Store.contextVars (s : Store) : Value → List (Text × Value)
  | .mapping id => s.entriesOf (.mapping id)
  | .table id => (s.table id).filterMap fun (key, v) => match key with
    | .text t => some (t, v)
    | _ => none
  | _ => []

namespace Eval

/-- Sets global variables of an environment. -/
def setGlobals (env : Environment) (vars : List (Text × Value)) : Eval Unit := do
  for (name, v) in vars do
    setVar env.globals name v

/-- Runs a template over context variables: its text, and the scope of its own variables. -/
def run (env : Environment) (body : List Stmt) (vars : List (Text × Value)) : Eval (Text × ScopeId) := do
  let outer ← alloc (·.newScope (some env.globals) vars)
  let scope ← newScope outer
  return (← render env.features depthLimit scope body, scope)

/-- The text of a template over a context. -/
def renderTemplate (env : Environment) (body : List Stmt) (context : Value) : Eval Text := do
  let vars ← read (·.contextVars context)
  return (← run env body vars).1

/-- The names that a template defines at its top level, with their values after a run. -/
def exports (env : Environment) (body : List Stmt) : Eval (List (Text × Value)) := do
  let (_, scope) ← run env body []
  return ((← get).scope scope).vars

/-- The macros that a template defines at its top level. -/
def macros (env : Environment) (body : List Stmt) : Eval (List (Text × Value)) :=
  return (← exports env body).filter fun (_, v) => match v with
    | .ofMacro _ => true
    | _ => false

end Eval
end Stencil
