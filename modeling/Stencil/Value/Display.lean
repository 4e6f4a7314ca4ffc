import Stencil.Value.Store

/-!
The text of a value. Inside lists and mappings, text is quoted.
-/

namespace Stencil

/-- Text between single quotes; a backslash stands before quotes and backslashes in it. -/
def quoted (t : Text) : Text :=
  let mark : CodeUnit := '\''
  let inner : Text := t.flatMap fun (u : CodeUnit) => if u = '\\' || u = mark then ['\\', u] else [u]
  mark :: inner ++ [mark]

def boolText (b : Bool) : Text := Text.ofString (if b then "true" else "false")

namespace Store

/-- The text that a key of a table counts as. Lists are joined by commas, and a list inside itself
counts as nothing; `visiting` holds the lists around the value. -/
def keyTextWithin (s : Store) : Nat → List ListId → Value → Text
  | 0, _, _ => []
  | fuel + 1, visiting, v =>
    match v with
    | .absent => Text.ofString "undefined"
    | .none => Text.ofString "null"
    | .bool b => boolText b
    | .number x => x.toText
    | .text t | .safe t => t
    | .list id =>
      if visiting.contains id then []
      else Text.join (Text.ofString ",") ((s.list id).map fun item =>
        if item = .none || item = .absent then [] else keyTextWithin s fuel (id :: visiting) item)
    | .table _ => Text.ofString "[object Map]"
    | .undefined _ | .mapping _ | .ofMacro _ | .native _ _ | .foreign _ => Text.ofString "[object Object]"

def keyText (s : Store) (v : Value) : Text := s.keyTextWithin (s.lists.size + 1) [] v

/-- The entries of a keyed container by text key; computed properties are read. -/
def entriesOf (s : Store) : Keyed → List (Text × Value)
  | .mapping id => (s.mapping id).map fun (key, slot) => (key, slot.value)
  | .table id => (s.table id).map fun (key, v) => (s.keyText key, v)

def entries? (s : Store) (v : Value) : Option (List (Text × Value)) := v.keyed?.map s.entriesOf

def bracket (opening closing : String) (parts : List Text) : Text :=
  Text.ofString opening ++ Text.join (Text.ofString ", ") parts ++ Text.ofString closing

/-- The text of a value that nests less than `depth` containers; `quote` asks for the form inside
containers. -/
def displayWithin (s : Store) : Nat → Bool → Value → Option Text
  | 0, _, _ => none
  | depth + 1, quote, v =>
    match v with
    | .absent | .none | .undefined _ => some []
    | .bool b => some (boolText b)
    | .number x => some x.toText
    | .text t | .safe t => some (if quote then quoted t else t)
    | .list id => (bracket "[" "]") <$> (s.list id).mapM (displayWithin s depth true)
    | .mapping id => (bracket "\x7b" "\x7d") <$> (s.entriesOf (.mapping id)).mapM fun (key, item) => do
      return quoted key ++ Text.ofString ": " ++ (← displayWithin s depth true item)
    | .table id => (bracket "\x7b" "\x7d") <$> (s.entriesOf (.table id)).mapM fun (key, item) => do
      return quoted key ++ Text.ofString ": " ++ (← displayWithin s depth true item)
    | .ofMacro id =>
      some (Text.ofString "<Macro '" ++ ((s.macros[id]?.map (·.name)).getD []) ++ Text.ofString "'>")
    | .native _ f => some (Text.ofString s!"<built-in function {f.name}>")
    | .foreign _ => some (Text.ofString "<object>")

/-- The text of a value in rendered output; none if the value contains itself. -/
def display? (s : Store) (v : Value) : Option Text := s.displayWithin s.depth false v

/-- The text of a value inside containers; none if the value contains itself. -/
def repr? (s : Store) (v : Value) : Option Text := s.displayWithin s.depth true v

end Store
end Stencil
