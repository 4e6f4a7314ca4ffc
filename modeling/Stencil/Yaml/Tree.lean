import Stencil.Yaml.Token

/-!
The arrangement of YAML tokens: which of them belong to one scalar, item or collection. Every token of
a document is in its tree, white space included, because where it stands decides what it means.
-/

namespace Stencil.Yaml

/-- An item of a collection. What precedes the value mark of a pair is its start and its key; what
follows the key up to the value is its separator. Items of sequences have no separator. -/
structure Item (τ : Type) where
  start : Array Token := #[]
  explicit : Bool := false
  key : Option τ := none
  separator : Option (Array Token) := none
  value : Option τ := none

/-- A node as it is written. The tail of a leaf or of a flow collection is what stands between it and the
next token that is none of its own; the tail of a flow collection starts with its closing bracket. -/
inductive Tree where
  | leaf (token : Token) (tail : Array Token)
  | block (header : Array Token) (indent : Nat) (text : Text)
  | mapping (indent : Nat) (items : List (Item Tree))
  | sequence (indent : Nat) (items : List (Item Tree))
  | flow (opening : Token) (items : List (Item Tree)) (tail : Array Token)

/-- Whether tokens of a kind are among some. -/
def includesKind (kind : Kind) (tokens : Array Token) : Bool := tokens.any (·.kind = kind)

/-- Whether some tokens are white space and comments only. -/
def areGaps (tokens : Array Token) : Bool := tokens.all (·.kind.isGap)

namespace Item

variable {τ : Type}

def ofToken (t : Token) : Item τ := { start := #[t] }

/-- A pair without a key that starts at its value mark. -/
def ofValueMark (start : Array Token) (t : Token) : Item τ := { start := start, separator := some #[t] }

/-- A pair of which the key was read. -/
def ofKey (start : Array Token) (key : τ) : Item τ := { start := start, key := some key, separator := some #[] }

/-- An item with a token after what was read of it, before its value. -/
def push (it : Item τ) (t : Token) : Item τ :=
  match it.separator with
  | some ts => { it with separator := some (ts.push t) }
  | none => { it with start := it.start.push t }

end Item

namespace Tree

/-- Where the first token of a leaf or of a flow collection is. -/
def offset? : Tree → Option Nat
  | leaf t _ => some t.offset
  | flow t _ _ => some t.offset
  | _ => none

/-- The indentation that keys of one mapping share. References count like scalars. -/
def indent : Tree → Nat
  | leaf t _ => t.indent
  | block _ n _ => n
  | mapping n _ => n
  | sequence n _ => n
  | flow t _ _ => t.indent

def isBlockCollection : Tree → Bool
  | mapping _ _ | sequence _ _ => true
  | _ => false

def isFlow : Tree → Bool
  | flow _ _ _ => true
  | _ => false

/-- The tail of a tree that may get more tokens. -/
def tail? : Tree → Option (Array Token)
  | leaf _ tail => if tail.isEmpty then none else some tail
  | flow _ _ tail => some tail
  | _ => none

def addTail (ts : Array Token) : Tree → Tree
  | leaf t tail => leaf t (tail ++ ts)
  | flow t items tail => flow t items (tail ++ ts)
  | t => t

/-- Whether a comment ends a tree; a line break behind it belongs to the tree too. -/
def endsInComment (t : Tree) : Bool := t.tail?.any fun ts => ts.back?.any (·.kind = .comment)

mutual

/-- Whether a key takes more than one line. -/
def isMultiline : Tree → Bool
  | leaf t tail => t.text.contains '\n' || includesKind .newline tail
  | flow _ items _ => areMultiline items
  | _ => true

def areMultiline : List (Item Tree) → Bool
  | [] => false
  | ⟨start, _, key, separator, value⟩ :: rest =>
    includesKind .newline start || separator.any (includesKind .newline) || isMultiline? key ||
      isMultiline? value || areMultiline rest

def isMultiline? : Option Tree → Bool
  | none => false
  | some t => t.isMultiline

end

/-- An item of a flow sequence that looked like a key, without the value mark of a pair, is a value. -/
def settleItem (it : Item Tree) : Item Tree :=
  match it.separator with
  | none => it
  | some separator =>
    if it.value.isSome || includesKind .keyMark it.start || includesKind .valueMark separator then it
    else match it.key with
      | some key => { start := it.start, explicit := it.explicit, value := some (key.addTail separator) }
      | none => { start := it.start ++ separator, explicit := it.explicit }

/-- A flow collection whose items were read, the latest first. -/
def ofFlow (opening : Token) (items : List (Item Tree)) (tail : Array Token) : Tree :=
  let items := items.reverse
  flow opening (if opening.kind = .sequenceOpen then items.map settleItem else items) tail

end Tree
end Stencil.Yaml
