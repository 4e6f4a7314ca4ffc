import Stencil.Number.Integral
import Stencil.Number.Shortest

/-!
The values of templates. Lists, mappings and tables are references into a store, so that a template
can change them; everything else is immutable.
-/

namespace Stencil

/-- The kinds of value that messages tell apart. -/
inductive Kind where
  | undefined | none | text | int | float | bool | list | dict | ofMacro | function | object
deriving DecidableEq, Repr

def Kind.name : Kind → String
  | undefined => "Undefined"
  | none => "NoneType"
  | text => "str"
  | int => "int"
  | float => "float"
  | bool => "bool"
  | list => "list"
  | dict => "dict"
  | ofMacro => "Macro"
  | function => "builtin_function_or_method"
  | object => "object"

/-- Why there is no value. -/
inductive Missing where
  | variable (name : Text)
  | parameter (name : Text)
  | member (kind : Kind) (name : Text)
  | element (kind : Kind) (key : Text)
  | index (kind : Kind) (index : Number)
  | otherwise
  | previousItem
  | nextItem
  | firstItem
  | lastItem
deriving DecidableEq, Repr

def Missing.message : Missing → String
  | .variable name => s!"'{name.toString}' is undefined"
  | .parameter name => s!"parameter '{name.toString}' was not provided"
  | .member kind name => s!"'{kind.name}' object has no attribute '{name.toString}'"
  | .element kind key => s!"'{kind.name}' object has no element {key.toString}"
  | .index kind i => s!"{kind.name} index {i.toText.toString} out of range"
  | .otherwise => "the inline if-expression evaluated to false and no else section was defined"
  | .previousItem => "there is no previous item"
  | .nextItem => "there is no next item"
  | .firstItem => "No first item, sequence was empty."
  | .lastItem => "No last item, sequence was empty."

abbrev ListId := Nat
abbrev MappingId := Nat
abbrev TableId := Nat
abbrev ScopeId := Nat
abbrev MacroId := Nat

/-- A container with keys: a mapping has text keys in property order, a table keys of any kind in
the order they came. -/
inductive Keyed where
  | mapping (id : MappingId)
  | table (id : TableId)
deriving DecidableEq, Repr

inductive TextMethod where
  | upper | lower | strip | lstrip | rstrip | startswith | endswith | replace | split | join
deriving DecidableEq, Repr

inductive ListMethod where
  | append | extend | pop | index | count
deriving DecidableEq, Repr

inductive KeyedMethod where
  | items | keys | values | get | update
deriving DecidableEq, Repr

/-- A function that templates can call: a global one, the cycle of a loop at some index, or a method
bound to its receiver. -/
inductive Native where
  | range
  | dict
  | cycle (index : Nat)
  | text (method : TextMethod) (self : Text)
  | list (method : ListMethod) (self : ListId)
  | keyed (method : KeyedMethod) (self : Keyed)
deriving DecidableEq, Repr

namespace TextMethod

def name : TextMethod → String
  | upper => "upper" | lower => "lower" | strip => "strip" | lstrip => "lstrip" | rstrip => "rstrip"
  | startswith => "startswith" | endswith => "endswith" | replace => "replace" | split => "split"
  | join => "join"

def all : List TextMethod :=
  [upper, lower, strip, lstrip, rstrip, startswith, endswith, replace, split, join]

def ofName? (t : Text) : Option TextMethod := all.find? fun m => Text.ofString m.name = t

end TextMethod

namespace ListMethod

def name : ListMethod → String
  | append => "append" | extend => "extend" | pop => "pop" | index => "index" | count => "count"

def all : List ListMethod := [append, extend, pop, index, count]

def ofName? (t : Text) : Option ListMethod := all.find? fun m => Text.ofString m.name = t

end ListMethod

namespace KeyedMethod

def name : KeyedMethod → String
  | items => "items" | keys => "keys" | values => "values" | get => "get" | update => "update"

def all : List KeyedMethod := [items, keys, values, get, update]

def ofName? (t : Text) : Option KeyedMethod := all.find? fun m => Text.ofString m.name = t

end KeyedMethod

def Native.name : Native → String
  | range => "range"
  | dict => "dict"
  | cycle _ => "cycle"
  | text m _ => m.name
  | list m _ => m.name
  | keyed m _ => m.name

/-- A value. `absent` stands for a part that was never given; `undefined` is the result of a look-up
that failed; `safe` is text that needs no escaping; `foreign` is an object that templates cannot
look into. Serial numbers tell functions and foreign objects apart. -/
inductive Value where
  | absent
  | none
  | bool (b : Bool)
  | number (x : Number)
  | text (t : Text)
  | safe (t : Text)
  | undefined (reason : Missing)
  | list (id : ListId)
  | mapping (id : MappingId)
  | table (id : TableId)
  | ofMacro (id : MacroId)
  | native (serial : Nat) (function : Native)
  | foreign (serial : Nat)
deriving DecidableEq, Repr, Inhabited

namespace Value

def kind : Value → Kind
  | absent | foreign _ => .object
  | none => .none
  | bool _ => .bool
  | number x => if x.isInteger then .int else .float
  | text _ | safe _ => .text
  | undefined _ => .undefined
  | list _ => .list
  | mapping _ | table _ => .dict
  | ofMacro _ => .ofMacro
  | native _ _ => .function

def ofKeyed : Keyed → Value
  | .mapping id => mapping id
  | .table id => table id

def keyed? : Value → Option Keyed
  | mapping id => some (.mapping id)
  | table id => some (.table id)
  | _ => Option.none

/-- The text of a text value, safe or not. -/
def text? : Value → Option Text
  | text t | safe t => some t
  | _ => Option.none

def ofNat (n : Nat) : Value := number (Number.ofNat n)

end Value
end Stencil
