import Stencil.Failure
import Stencil.Position

/-!
Findings of a templater on a document, and the outcome of templating one.
-/

namespace Stencil

/-- At which step a document failed as a whole. -/
inductive FatalStep where
  | loadingMacro (entry : Text)
  | parsing
  | rendering
deriving DecidableEq, Repr

inductive Violation where
  | undefinedVariable (name : Text) (position : Position)
  | fatal (step : FatalStep) (failure : Failure)
deriving DecidableEq, Repr

namespace Violation

def code : Violation → String
  | undefinedVariable _ _ => "undefined-variable"
  | fatal _ _ => "fatal"

def message : Violation → String
  | undefinedVariable name _ => s!"Undefined template variable: '{name.toString}'"
  | fatal (.loadingMacro entry) failure => s!"Failure in loading macro '{entry.toString}': {failure.message}"
  | fatal .parsing failure => s!"Failure in parsing template: {failure.message}"
  | fatal .rendering failure =>
    s!"Unrecoverable failure in templating: {failure.message}. Have you configured your variables?"

def position? : Violation → Option Position
  | undefinedVariable _ position => some position
  | fatal _ _ => none

def isFatal : Violation → Bool
  | undefinedVariable _ _ => false
  | fatal _ _ => true

end Violation

/-- What templating a document gave. Without output the document failed as a whole. -/
structure Outcome where
  output : Option Text
  violations : List Violation
deriving DecidableEq, Repr

def Outcome.hasFatal (o : Outcome) : Bool := o.violations.any (·.isFatal)

end Stencil
