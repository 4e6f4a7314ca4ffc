import Stencil.Action
import Stencil.Value.Display
import Stencil.Yaml.Document

/-!
Configurations: mappings whose sections are found by paths of keys. Templaters read two sections of
theirs, the variables of the context and the macro templates.
-/

namespace Stencil

/-- A configuration; its root is a mapping. -/
structure Config where
  root : Value
deriving Repr

/-- The sections that a templater reads. -/
inductive Section where
  | context
  | macros
deriving DecidableEq, Repr

def Section.name : Section → String
  | context => "context"
  | macros => "macros"

/-- The key that names no entry of a record. -/
def reservedKey : Text := Text.ofString "__proto__"

/-- The kind of a value in the words of section problems. -/
def Value.shapeName : Value → String
  | .absent => "undefined"
  | .none => "null"
  | .bool _ => "boolean"
  | .number x => if x = .nan then "nan" else "number"
  | .text _ => "string"
  | .list _ => "array"
  | .table _ => "map"
  | .native _ _ => "function"
  | _ => "object"

namespace Store

/-- The entries of a value that is read as a record; computed properties are read. A foreign object is
a record without entries. -/
def recordEntries? (s : Store) : Value → Option (List (Text × Value))
  | .mapping id => some (s.entriesOf (.mapping id))
  | .foreign _ => some []
  | _ => none

/-- What stands under a key of a mapping; other values have no keys. -/
def child (s : Store) (v : Value) (key : Text) : Value :=
  match v with
  | .mapping id => (((s.mapping id).get? key).map (·.value)).getD .absent
  | _ => .absent

end Store

/-- Entries of a record without the reserved key. -/
def withoutReserved {α : Type} (entries : List (Text × α)) : List (Text × α) :=
  entries.filter fun (key, _) => key != reservedKey

namespace Config

/-- The configuration with the entries of a value; a value that was not given has none. -/
def ofValue (v : Value) : Action Config := do
  let s := (← get).store
  match if v = .absent then some [] else s.recordEntries? v with
  | some entries => return ⟨← Action.evaluate (Eval.mappingOf (withoutReserved entries))⟩
  | none => throw (.config .valuesNotMapping)

/-- The configuration that a YAML document describes; an empty document has no entries. -/
def ofDocument (text : Text) : Action Config := do
  match Yaml.parse text with
  | .error e => throw (.config (.malformedDocument e.message))
  | .ok .none => ofValue .absent
  | .ok (.mapping entries) => ofValue (← Action.alloc (Datum.mapping entries).build)
  | .ok _ => throw (.config .documentNotMapping)

/-- The value at a path of keys, absent if a step is missing. -/
def valueAt (s : Store) (config : Config) (path : List Text) : Value := path.foldl s.child config.root

/-- Where the section of a variant is found. -/
def sectionPath (variant : Text) (part : Section) : List Text :=
  [Text.ofString "templater", variant, Text.ofString part.name]

/-- The entries of a section, none if it is missing. `check` tells what is wrong with a value; every
problem is reported. -/
def entries (config : Option Config) (variant : Text) (part : Section)
    (check : Value → Option SectionProblem) : Action (List (Text × Value)) := do
  let path := sectionPath variant part
  let s := (← get).store
  match (config.map (valueAt s · path)).getD .absent with
  | .absent => return []
  | v =>
    let issues := match s.recordEntries? v with
      | none => [⟨none, .notMapping v.shapeName⟩]
      | some entries => entries.filterMap fun (key, v) => (check v).map (⟨some key, ·⟩)
    if !issues.isEmpty then throw (.config (.invalidSection path issues))
    return withoutReserved ((s.recordEntries? v).getD [])

/-- The variables that a configuration gives to a variant. -/
def context (config : Option Config) (variant : Text) : Action (List (Text × Value)) :=
  entries config variant .context fun _ => none

/-- The macro templates that a configuration gives to a variant, by key. -/
def macros (config : Option Config) (variant : Text) : Action (List (Text × Text)) := do
  let checked ← entries config variant .macros fun
    | .text _ => none
    | .absent => some .missing
    | _ => some .notMacroText
  return checked.filterMap fun (key, v) => v.text?.map (key, ·)

end Config
end Stencil
