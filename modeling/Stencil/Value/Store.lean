import Stencil.Template.Tree
import Stencil.Value.Property

/-!
The store of a render: the contents of lists, mappings and tables, the scopes of variables, and the
macros that were defined.
-/

namespace Stencil

/-- Variables in the order they were first set, over an enclosing scope. -/
structure Scope where
  parent : Option ScopeId
  vars : List (Text × Value)
deriving Repr

/-- A macro with the scope it was defined in. Defaults belong to the last parameters. -/
structure Macro where
  name : Text
  params : List Text
  defaults : List Expr
  body : List Stmt
  scope : ScopeId
deriving Repr

structure Store where
  lists : Array (List Value)
  mappings : Array Properties
  tables : Array (List (Value × Value))
  scopes : Array Scope
  macros : Array Macro
  serial : Nat
deriving Repr

/-- Sets the value under a key; a key that is there keeps its place. -/
def assocSet {α β : Type} [DecidableEq α] (key : α) (value : β) : List (α × β) → List (α × β)
  | [] => [(key, value)]
  | (k, v) :: rest => if k = key then (k, value) :: rest else (k, v) :: assocSet key value rest

namespace Store

def empty : Store := ⟨#[], #[], #[], #[], #[], 0⟩

instance : Inhabited Store := ⟨empty⟩

def list (s : Store) (id : ListId) : List Value := s.lists[id]?.getD []

def mapping (s : Store) (id : MappingId) : Properties := s.mappings[id]?.getD []

def table (s : Store) (id : TableId) : List (Value × Value) := s.tables[id]?.getD []

def scope (s : Store) (id : ScopeId) : Scope := s.scopes[id]?.getD ⟨none, []⟩

def setList (s : Store) (id : ListId) (items : List Value) : Store :=
  { s with lists := s.lists.setIfInBounds id items }

def setMapping (s : Store) (id : MappingId) (ps : Properties) : Store :=
  { s with mappings := s.mappings.setIfInBounds id ps }

def setTable (s : Store) (id : TableId) (entries : List (Value × Value)) : Store :=
  { s with tables := s.tables.setIfInBounds id entries }

def newList (s : Store) (items : List Value) : Value × Store :=
  (.list s.lists.size, { s with lists := s.lists.push items })

def newMapping (s : Store) (ps : Properties) : Value × Store :=
  (.mapping s.mappings.size, { s with mappings := s.mappings.push ps })

/-- The entries of a table that is filled in some order; zero has no sign as a key. -/
def tableEntries (entries : List (Value × Value)) : List (Value × Value) :=
  entries.foldl (fun done (key, v) =>
    let key := match key with
      | .number (.finite _ 0) => .number 0
      | key => key
    assocSet key v done) []

def newTable (s : Store) (entries : List (Value × Value)) : Value × Store :=
  (.table s.tables.size, { s with tables := s.tables.push entries })

def newScope (s : Store) (parent : Option ScopeId) (vars : List (Text × Value)) : ScopeId × Store :=
  (s.scopes.size, { s with scopes := s.scopes.push ⟨parent, vars⟩ })

def newMacro (s : Store) (m : Macro) : Value × Store :=
  (.ofMacro s.macros.size, { s with macros := s.macros.push m })

def newNative (s : Store) (f : Native) : Value × Store :=
  (.native s.serial f, { s with serial := s.serial + 1 })

def newForeign (s : Store) : Value × Store :=
  (.foreign s.serial, { s with serial := s.serial + 1 })

/-- Sets a variable in a scope itself. -/
def setVar (s : Store) (id : ScopeId) (name : Text) (value : Value) : Store :=
  { s with scopes := s.scopes.modify id fun scope => { scope with vars := assocSet name value scope.vars } }

/-- The value of a name in a scope or the nearest scope around it that has it. -/
def resolveWithin (s : Store) (name : Text) : Nat → ScopeId → Option Value
  | 0, _ => none
  | fuel + 1, id =>
    let scope := s.scope id
    match scope.vars.lookup name with
    | some v => some v
    | none => scope.parent.bind (resolveWithin s name fuel)

/-- The value of a name, undefined if no scope has it. Every scope is younger than the one around
it. -/
def resolve (s : Store) (id : ScopeId) (name : Text) : Value :=
  (s.resolveWithin name (id + 1) id).getD (.undefined (.variable name))

/-- Sets an entry of a keyed container by text; in a mapping it becomes data. -/
def setEntry (s : Store) (target : Keyed) (key : Text) (value : Value) : Store :=
  match target with
  | .mapping id => s.setMapping id ((s.mapping id).set key (.data value))
  | .table id => s.setTable id (assocSet (Value.text key) value (s.table id))

/-- The data stored under a text key. Computed properties are not read. -/
def ownValue? (s : Store) (target : Keyed) (key : Text) : Option Value :=
  match target with
  | .mapping id => match (s.mapping id).get? key with
    | some (.data v) => some v
    | _ => none
  | .table id => (s.table id).lookup (.text key)

/-- A number that no chain of containers without a cycle can exceed in length. -/
def depth (s : Store) : Nat := s.lists.size + s.mappings.size + s.tables.size + 1

end Store
end Stencil
