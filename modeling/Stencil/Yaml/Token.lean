import Stencil.Text.Basic

/-!
Tokens of YAML, and the reasons why a text is no YAML document.
-/

namespace Stencil.Yaml

/-- Why a text is no YAML document. -/
inductive Problem where
  | unclosedQuote
  | unclosedCollection
  | escape
  | codePoint
  | reservedStart (unit : CodeUnit)
  | stray (text : Text)
  | misplacedComment
  | missingSpace
  | missingComma
  | missingValue
  | missingMark
  | missingLineBreak
  | repeatedProperty
  | misplacedProperty
  | emptyName
  | referenceProperties
  | indentation
  | tabIndentation
  | blockHeader
  | nestedBlock
  | blockInFlow
  | multilineKey
  | longKey
  | duplicateKey
  | tag (text : Text)
  | directive (text : Text)
  | missingDocumentStart
  | documentEnd
  | severalDocuments
  | unknownAnchor (name : Text)
  | openAnchor (name : Text)
  | anchorName (name : Text)
  | excessiveReferences
  | exhausted
deriving DecidableEq, Repr

def Problem.message : Problem → String
  | unclosedQuote => "missing closing quote"
  | unclosedCollection => "flow collection must be indented and closed"
  | escape => "invalid escape sequence"
  | codePoint => "invalid code point"
  | reservedStart u => s!"plain value cannot start with {Text.toString [u]}"
  | stray t => s!"unexpected {t.toString}"
  | misplacedComment => "comments must be separated by white space and come last"
  | missingSpace => "tags and anchors must be separated from the next token by white space"
  | missingComma => "missing comma or colon between items of a flow collection"
  | missingValue => "implicit keys need to be followed by values"
  | missingMark => "sequence item without a mark"
  | missingLineBreak => "block collection cannot start on this line"
  | repeatedProperty => "a node has at most one tag and one anchor"
  | misplacedProperty => "tags and anchors must stand after the mark"
  | emptyName => "anchor cannot be an empty string"
  | referenceProperties => "a reference has no properties"
  | indentation => "all items must start at the same column"
  | tabIndentation => "tabs are not allowed as indentation"
  | blockHeader => "block scalar header includes extra characters"
  | nestedBlock => "nested collections are not allowed on the line of their key"
  | blockInFlow => "block collections are not allowed within flow collections"
  | multilineKey => "implicit keys need to be on a single line"
  | longKey => "the colon must be at most 1024 units after the start of an implicit key"
  | duplicateKey => "mapping keys must be unique"
  | tag t => s!"could not resolve tag {t.toString}"
  | directive t => s!"invalid directive {t.toString}"
  | missingDocumentStart => "directives must be followed by a document start"
  | documentEnd => "unexpected document end without a document"
  | severalDocuments => "source contains several documents"
  | unknownAnchor name => s!"unresolved reference {name.toString}"
  | openAnchor name => s!"reference inside its anchor {name.toString}"
  | anchorName name => s!"invalid anchor {name.toString}"
  | excessiveReferences => "excessive count of references"
  | exhausted => "document is too long"

/-- The kind of a token. Content is the text of a plain or of a block scalar. A document mode stands in
front of the first token of a document. -/
inductive Kind where
  | byteOrderMark
  | documentMode
  | documentStart
  | documentEnd
  | directive
  | newline
  | space
  | comment
  | itemMark
  | keyMark
  | valueMark
  | mappingOpen
  | mappingClose
  | sequenceOpen
  | sequenceClose
  | comma
  | anchor
  | tag
  | reference
  | content
  | singleQuoted
  | doubleQuoted
  | blockHeader
deriving DecidableEq, Repr

namespace Kind

/-- Kinds that are told by the whole text. -/
def words : List (String × Kind) :=
  [("---", documentStart), ("...", documentEnd), ("\n", newline), ("\r\n", newline), ("-", itemMark),
    ("?", keyMark), (":", valueMark), ("\x7b", mappingOpen), ("\x7d", mappingClose), ("[", sequenceOpen),
    ("]", sequenceClose), (",", comma)]

/-- Kinds that are told by the first unit. -/
def starts : List (Char × Kind) :=
  [(' ', space), ('\t', space), ('#', comment), ('%', directive), ('*', reference), ('&', anchor),
    ('!', tag), ('\'', singleQuoted), ('"', doubleQuoted), ('|', blockHeader), ('>', blockHeader)]

/-- The kind of a text that is no content. -/
def ofText? (t : Text) : Option Kind :=
  match words.find? fun (w, _) => t = Text.ofString w with
  | some (_, kind) => some kind
  | none => t.head?.bind fun u => (starts.find? fun (c, _) => u = CodeUnit.ofChar c).map (·.2)

/-- White space and comments, which stand between all other tokens. -/
def isGap (k : Kind) : Bool := k = space || k = comment || k = newline

/-- Scalars on their own and references. -/
def isLeaf (k : Kind) : Bool := k = content || k = singleQuoted || k = doubleQuoted || k = reference

end Kind

/-- A piece of a source and its position. -/
structure Lexeme where
  kind : Kind
  text : Text
  offset : Nat
deriving DecidableEq, Repr

/-- A lexeme with the indentation in front of it. -/
structure Token extends Lexeme where
  indent : Nat
deriving DecidableEq, Repr

def Token.finish (t : Token) : Nat := t.offset + t.text.length

end Stencil.Yaml
