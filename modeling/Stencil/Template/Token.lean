import Stencil.Text.Basic

/-!
Tokens of a template: text between tags, the marks that frame a tag, and the words, literals and
operators inside it.
-/

namespace Stencil

inductive Operator where
  | floorDiv | power | equal | notEqual | lessEqual | greaterEqual
  | plus | minus | times | divide | modulo | tilde | less | greater | assign
  | leftParen | rightParen | leftBracket | rightBracket | leftBrace | rightBrace
  | comma | dot | colon | pipe
deriving DecidableEq, Repr

namespace Operator

def symbol : Operator → String
  | floorDiv => "//" | power => "**" | equal => "==" | notEqual => "!=" | lessEqual => "<="
  | greaterEqual => ">=" | plus => "+" | minus => "-" | times => "*" | divide => "/"
  | modulo => "%" | tilde => "~" | less => "<" | greater => ">" | assign => "="
  | leftParen => "(" | rightParen => ")" | leftBracket => "[" | rightBracket => "]"
  | leftBrace => "\x7b" | rightBrace => "\x7d" | comma => "," | dot => "." | colon => ":" | pipe => "|"

/-- All operators; the longer of two that start alike comes first. -/
def all : List Operator :=
  [floorDiv, power, equal, notEqual, lessEqual, greaterEqual, plus, minus, times, divide, modulo,
    tilde, less, greater, assign, leftParen, rightParen, leftBracket, rightBracket, leftBrace,
    rightBrace, comma, dot, colon, pipe]

/-- The operator that a text starts with. -/
def ofStart? (t : Text) : Option Operator := all.find? fun op => (Text.ofString op.symbol).isPrefixOf t

def isOpening : Operator → Bool
  | leftParen | leftBracket | leftBrace => true
  | _ => false

/-- The bracket that a closing bracket closes. -/
def opening? : Operator → Option Operator
  | rightParen => some leftParen
  | rightBracket => some leftBracket
  | rightBrace => some leftBrace
  | _ => none

end Operator

/-- Tags that hold an expression and tags that hold a statement. -/
inductive TagKind where
  | output
  | statement
deriving DecidableEq, Repr

namespace TagKind

def openMark : TagKind → String
  | output => "\x7b\x7b"
  | statement => "\x7b%"

def closeMark : TagKind → String
  | output => "\x7d\x7d"
  | statement => "%\x7d"

end TagKind

/-- What a token is and what it carries; numbers keep their spelling. -/
inductive TokenKind where
  | data (text : Text)
  | tagBegin (tag : TagKind)
  | tagEnd (tag : TagKind)
  | name (word : Text)
  | string (value : Text)
  | integer (spelling : Text)
  | float (spelling : Text)
  | operator (op : Operator)
  | eof
deriving DecidableEq, Repr

/-- A token with the line it starts on and the number of code units before it. -/
structure Token where
  kind : TokenKind
  line : Nat
  offset : Nat
deriving DecidableEq, Repr

namespace TokenKind

/-- The content of a token: data and strings as they are read, everything else as it is spelled. -/
def content : TokenKind → Text
  | data t | name t | string t | integer t | float t => t
  | tagBegin tag => Text.ofString tag.openMark
  | tagEnd tag => Text.ofString tag.closeMark
  | operator op => Text.ofString op.symbol
  | eof => []

/-- How messages refer to a token. -/
def describe (k : TokenKind) : String :=
  match k with
  | eof => "end of template"
  | k => s!"'{k.content.toString}'"

end TokenKind
end Stencil
