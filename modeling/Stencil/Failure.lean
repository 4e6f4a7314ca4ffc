import Stencil.Literal
import Stencil.Render.Fault
import Stencil.Report
import Stencil.Template.SyntaxError

/-!
Everything that can go wrong, and the reports on it. Texts, counts and nestings beyond every limit
have a message but no report of their own.
-/

namespace Stencil

/-- What an entry of a configuration section should have been. -/
inductive SectionProblem where
  | notMapping (found : String)
  | missing
  | notMacroText
deriving DecidableEq, Repr

/-- A problem with a section as a whole, or with one entry. -/
structure SectionIssue where
  key : Option Text
  problem : SectionProblem
deriving DecidableEq, Repr

inductive ConfigProblem where
  | valuesNotMapping
  | documentNotMapping
  | malformedDocument (reason : String)
  | invalidSection (path : List Text) (issues : List SectionIssue)
  | unavailable (requested : Text) (available : List Text)
deriving DecidableEq, Repr

/-- What is wrong with a replacement field, or with a brace outside of fields. -/
inductive FieldProblem where
  | stray (mark : CodeUnit) (offset : Nat)
  | braceInside (source : Text)
  | formatGiven (source : Text)
  | unknownConversion (flag source : Text)
  | positional (source : Text)
  | invalidName (part : Text)
  | missing (name : Text)
  | unresolved (source : Text)
deriving DecidableEq, Repr

inductive Failure where
  | unreadable (cause : Unreadable)
  | fault (cause : Fault)
  | config (cause : ConfigProblem)
  | field (cause : FieldProblem) (filename : Option Text)
deriving DecidableEq, Repr

def SectionIssue.message (i : SectionIssue) : String :=
  let place := ((i.key.map Text.toString)).getD ""
  let problem := match i.problem with
    | .notMapping found => s!"Expected object, received {found}"
    | .missing => "Required"
    | .notMacroText => "Macro definitions must be template strings"
  s!"{place}: {problem}"

namespace ConfigProblem

def pathText (path : List Text) : String := ".".intercalate (path.map Text.toString)

def message : ConfigProblem → String
  | valuesNotMapping | documentNotMapping => "Configuration root must be a mapping"
  | malformedDocument reason => s!"Invalid YAML configuration: {reason}"
  | invalidSection path issues =>
    s!"Invalid configuration section '{pathText path}': " ++ "; ".intercalate (issues.map (·.message))
  | unavailable requested available =>
    s!"Requested templater '{requested.toString}' which is not currently available. Try one of " ++
      ", ".intercalate (available.map Text.toString)

def details : ConfigProblem → Option Details
  | valuesNotMapping => some []
  | documentNotMapping | malformedDocument _ => none
  | invalidSection path _ => some [(Text.ofString "path", .list (path.map .text))]
  | unavailable requested available =>
    some [(Text.ofString "requested", .text requested), (Text.ofString "available", .list (available.map .text))]

end ConfigProblem

namespace FieldProblem

def needsVariables (problem : String) : String :=
  s!"Failure in placeholder templating: {problem}. Have you configured your variables?"

def message : FieldProblem → String
  | stray mark _ => s!"Single '{Text.toString [mark]}' encountered in format string"
  | braceInside source => s!"Unexpected '\x7b' in field '{source.toString}'"
  | formatGiven source => s!"Format specifications are not supported: '\x7b{source.toString}\x7d'"
  | unknownConversion flag source =>
    s!"Unknown conversion specifier '{flag.toString}' in '\x7b{source.toString}\x7d'"
  | positional source => s!"Positional fields are not supported: '\x7b{source.toString}\x7d'"
  | invalidName part => s!"Invalid field name '{part.toString}'"
  | missing name => needsVariables s!"missing variable '{name.toString}'"
  | unresolved source => needsVariables s!"cannot resolve '{source.toString}'"

def details (filename : Option Text) : FieldProblem → Option Details
  | stray _ offset =>
    let file := match filename with
      | some name => [(Text.ofString "filename", .text name)]
      | none => []
    some (file ++ [(Text.ofString "offset", .ofNat offset)])
  | missing part | unresolved part => some [(Text.ofString "field", .text part)]
  | _ => none

end FieldProblem

def NotLiteral.report (e : NotLiteral) : Report :=
  .create .templater e.message (some [(Text.ofString "text", .text e.text)])

def Unreadable.message : Unreadable → String
  | malformed e => e.message
  | exhausted => "template too long"

def FaultClass.reportClass? : FaultClass → Option ReportClass
  | runtime => some .run
  | undefined => some .undefined
  | security => some .security
  | extent => none

namespace Failure

def message : Failure → String
  | unreadable cause => cause.message
  | fault cause => cause.message
  | config cause => cause.message
  | field cause _ => cause.message

/-- The report on a failure, unless it is one of extent. -/
def report? : Failure → Option Report
  | unreadable (.malformed e) => some (.template e.cause.message (Number.ofNat e.line) none)
  | unreadable .exhausted => none
  | fault cause => cause.faultClass.reportClass?.map fun c => .create c cause.message none
  | config cause => some (.create .config cause.message cause.details)
  | field cause filename => some (.create .templater cause.message (cause.details filename))

end Failure
end Stencil
