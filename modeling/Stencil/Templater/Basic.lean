import Stencil.Render.Environment
import Stencil.Template.Names
import Stencil.Templater.Field
import Stencil.Violation

/-!
Templaters turn the text of a document into another text: unchanged, with fields replaced, or rendered
as a template whose macros and variables come from a configuration.
-/

namespace Stencil

inductive Variant where
  | raw
  | placeholder
  | jinja
deriving DecidableEq, Repr

namespace Variant

def all : List Variant := [raw, placeholder, jinja]

def name : Variant → String
  | raw => "raw"
  | placeholder => "placeholder"
  | jinja => "jinja"

def ofName? (s : String) : Option Variant := all.find? (·.name = s)

end Variant

/-- A templater with the variables that win over every configuration. -/
structure Templater where
  variant : Variant
  overrides : Context
deriving Repr

namespace Templater

/-- Whether two templaters are of one variant, whatever their variables. -/
def sameVariant (a b : Templater) : Bool := a.variant = b.variant

def context (t : Templater) (filename : Option Text) (config : Option Config) : Action Context :=
  Context.build (Text.ofString t.variant.name) t.overrides filename config

/-- Replaces the fields of a text. -/
def replaceFields (t : Templater) (text : Text) (filename : Option Text) (config : Option Config) :
    Action Outcome := do
  let context ← t.context filename config
  let parts ← (Piece.ofText text).mapM (·.expand context filename)
  Action.note .debug "[placeholder]" s!"Substituted placeholders in {Context.documentName filename}"
  return ⟨some parts.flatten, []⟩

/-- The environment that documents are rendered in. -/
def environment : Store → Environment × Store := Environment.create true false true

/-- Reads a template of an environment. -/
def readTemplate (env : Environment) (source : Text) : Action (List Stmt) :=
  match env.parse source with
  | .ok body => return body
  | .error e => throw (.unreadable e)

/-- The macros that a template source defines. -/
def sourceMacros (env : Environment) (source : Text) : Action (List (Text × Value)) := do
  let body ← readTemplate env source
  Action.evaluate (Eval.macros env body)

/-- The macros of all sources, a later one winning over an earlier one of its name; or the first
source that cannot be loaded. -/
def loadMacros (env : Environment) (sources : List (Text × Text)) :
    Action (Except Violation (List (Text × Value))) := do
  let mut loaded := []
  for (entry, source) in sources do
    match ← Action.attempt (sourceMacros env source) with
    | .ok found => loaded := found.foldl (fun loaded (name, m) => assocSet name m loaded) loaded
    | .error e => return .error (.fatal (.loadingMacro entry) e)
  if !loaded.isEmpty then
    Action.note .debug "[jinja]" ("Loaded macros: " ++ ", ".intercalate (loaded.map (·.1.toString)))
  return .ok loaded

/-- The reads of variables that neither the context nor the global variables have. -/
def undefinedVariables (body : List Stmt) (source : Text) (known : List Text) : List Violation :=
  let missing := (undeclaredNames body).filter (!known.contains ·)
  (nameReferences body missing).map fun n => .undefinedVariable n.text (Position.locate source n.line n.text)

/-- Renders a text as a template. -/
def renderDocument (t : Templater) (text : Text) (filename : Option Text) (config : Option Config) :
    Action Outcome := do
  let env ← Action.alloc environment
  let sources ← Config.macros config (Text.ofString t.variant.name)
  match ← loadMacros env sources with
  | .error violation => return ⟨none, [violation]⟩
  | .ok macros =>
    Action.evaluate (Eval.setGlobals env macros)
    match ← Action.attempt (readTemplate env text) with
    | .error e =>
      Action.note .debug "[jinja]" s!"Parse failure in {Context.documentName filename}: {e.message}"
      return ⟨none, [.fatal .parsing e]⟩
    | .ok body =>
      let context ← t.context filename config
      let known := context.map (·.1) ++ env.globalNames (← get).store
      let violations := undefinedVariables body text known
      match ← Action.attempt (Action.evaluate (Eval.run env body context)) with
      | .ok (output, _) =>
        Action.note .debug "[jinja]"
          s!"Rendered {Context.documentName filename} with {violations.length} undefined variable(s)"
        return ⟨some output, violations⟩
      | .error e => return ⟨none, violations ++ [.fatal .rendering e]⟩

/-- Templates a document. -/
def process (t : Templater) (text : Text) (filename : Option Text) (config : Option Config) :
    Action Outcome :=
  match t.variant with
  | .raw => return ⟨some text, []⟩
  | .placeholder => t.replaceFields text filename config
  | .jinja => t.renderDocument text filename config

end Templater
end Stencil
