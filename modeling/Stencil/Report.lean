import Stencil.Value.Datum

/-!
Reports: what callers are told about a failure. Each report has a class, a code and a message, and may
have details.
-/

namespace Stencil

/-- The classes of reports. Undefined values and refused accesses are failures of a run. -/
inductive ReportClass where
  | general
  | config
  | templater
  | template
  | run
  | undefined
  | security
deriving DecidableEq, Repr

namespace ReportClass

def all : List ReportClass := [general, config, templater, template, run, undefined, security]

def name : ReportClass → String
  | general => "WeaveError"
  | config => "ConfigError"
  | templater => "TemplaterError"
  | template => "TemplateSyntaxError"
  | run => "TemplateRuntimeError"
  | undefined => "UndefinedError"
  | security => "SecurityError"

def ofName? (s : String) : Option ReportClass := all.find? (·.name = s)

/-- The code that reports of a class carry; those of the general class name their own. -/
def code : ReportClass → String
  | general => ""
  | config => "CONFIG_ERROR"
  | templater => "TEMPLATER_ERROR"
  | template => "TEMPLATE_SYNTAX_ERROR"
  | run => "TEMPLATE_RUNTIME_ERROR"
  | undefined => "UNDEFINED_ERROR"
  | security => "SECURITY_ERROR"

/-- Whether every report of class `c` is one of class `d`. -/
def isKindOf (c d : ReportClass) : Bool :=
  d = .general || c = d || (d = .run && (c = .undefined || c = .security))

end ReportClass

/-- The details of a report, by key. -/
abbrev Details := List (Text × Datum)

structure Report where
  reportClass : ReportClass
  code : String
  message : String
  /-- The line that a report on a template names. -/
  line : Option Number
  details : Option Details
deriving Repr

namespace Report

/-- A report of any class but those on templates. -/
def create (c : ReportClass) (message : String) (details : Option Details) : Report :=
  ⟨c, c.code, message, none, details⟩

/-- A report of the general class under a code. -/
def general (code message : String) (details : Option Details) : Report :=
  ⟨.general, code, message, none, details⟩

/-- A report on the text of a template: message and details name the line. -/
def template (message : String) (line : Number) (details : Option Details) : Report :=
  let details := details.getD [] ++ [(Text.ofString "lineno", .number line)]
  ⟨.template, ReportClass.template.code, s!"{message} (line {line.toText.toString})", some line, some details⟩

/-- The classes that a report belongs to. -/
def classes (r : Report) : List ReportClass := ReportClass.all.filter r.reportClass.isKindOf

/-- A report as data. -/
def toDatum (r : Report) : Datum :=
  let context := match r.details with
    | some details => [(Text.ofString "context", Datum.mappingOf details)]
    | none => []
  .mapping ([(Text.ofString "name", .ofString r.reportClass.name), (Text.ofString "code", .ofString r.code),
    (Text.ofString "message", .ofString r.message)] ++ context)

end Report
end Stencil
