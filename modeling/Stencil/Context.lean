import Stencil.Config
import Stencil.Literal

/-!
Contexts: the variables of a document. Overrides win over the configuration, which wins over the
defaults, and everything a template could change is copied first.
-/

namespace Stencil

/-- Variables in the order they were first set. -/
abbrev Context := List (Text × Value)

namespace Value

/-- Whether a value is more than a scalar. -/
def isCompound : Value → Bool
  | absent | none | bool _ | number _ | text _ => false
  | _ => true

end Value

namespace Eval

/-- A copy of a value that nests less than `depth` containers; scalars and foreign objects stay as
they are. A copy with a compound value under the reserved key is a foreign object, and any other value
under that key is left out. -/
def copyWithin : Nat → Value → Eval Value
  | 0, _ => throw .tooDeep
  | depth + 1, v => do
    match v with
    | .list id => newList (← (← read (·.list id)).mapM (copyWithin depth))
    | .table id =>
      let copied ← (← read (·.table id)).mapM fun (key, item) => return (key, ← copyWithin depth item)
      alloc (·.newTable copied)
    | .mapping id =>
      let copied ← (← read (·.entriesOf (.mapping id))).mapM fun (key, item) =>
        return (key, ← copyWithin depth item)
      if copied.any fun (key, item) => key = reservedKey && item.isCompound then alloc (·.newForeign)
      else mappingOf (withoutReserved copied)
    | v => return v

def copy (v : Value) : Eval Value := do copyWithin (← read (·.depth)) v

end Eval

namespace Context

/-- What every document can rely on. -/
def defaults : Context := [(Text.ofString "test_value", .text (Text.ofString "__test__"))]

/-- The name that notes give to a document. -/
def documentName (filename : Option Text) : String := ((filename.map Text.toString)).getD "<string>"

/-- A variable as a configuration gives it: text is read as a literal if it is one. -/
def configured (v : Value) : Action Value :=
  match v with
  | .text t => Action.alloc (Literal.infer t).build
  | v => Action.evaluate (Eval.copy v)

/-- The context of a document for a variant. -/
def build (variant : Text) (overrides : Context) (filename : Option Text) (config : Option Config) :
    Action Context := do
  let loaded ← Config.context config variant
  let loaded ← loaded.mapM fun (key, v) => return (key, ← configured v)
  let copied ← overrides.mapM fun (key, v) => return (key, ← Action.evaluate (Eval.copy v))
  let context := (loaded ++ copied).foldl (fun context (key, v) => assocSet key v context) defaults
  Action.note .debug "[context]" <|
    s!"Built context for {documentName filename}: {context.length} variables " ++
    s!"({loaded.length} from config, {overrides.length} overrides)"
  return context

end Context
end Stencil
