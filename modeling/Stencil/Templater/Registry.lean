import Stencil.Templater.Basic

/-!
Registries: which variant stands behind a name. The default name is that of the rendering variant.
-/

namespace Stencil

/-- Names in the order they were first registered. -/
structure Registry where
  variants : List (Text × Variant)
deriving Repr

namespace Registry

def empty : Registry := ⟨[]⟩

instance : Inhabited Registry := ⟨empty⟩

/-- The registry of the built-in variants under their names. -/
def default : Registry := ⟨Variant.all.map fun v => (Text.ofString v.name, v)⟩

def names (r : Registry) : List Text := r.variants.map (·.1)

def has (r : Registry) (name : Text) : Bool := r.names.contains name

/-- Puts a variant behind a name; one that stood there before is replaced. -/
def register (r : Registry) (name : Text) (variant : Variant) : Action Registry := do
  if r.has name then
    Action.note .warn "[registry]" s!"Templater '{name.toString}' is already registered and will be replaced"
  return ⟨assocSet name variant r.variants⟩

/-- The name that is meant where none is given. -/
def defaultName : Text := Text.ofString Variant.jinja.name

/-- A templater of the variant behind a name. -/
def select (r : Registry) (name : Option Text) (overrides : Context) : Action Templater :=
  let requested := match name with
    | none | some [] => defaultName
    | some name => name
  match r.variants.lookup requested with
  | some variant => return ⟨variant, overrides⟩
  | none => throw (.config (.unavailable requested r.names))

end Registry
end Stencil
