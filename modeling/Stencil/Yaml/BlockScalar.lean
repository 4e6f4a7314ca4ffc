import Stencil.Yaml.Lead
import Stencil.Yaml.Scalar

/-!
Block scalars of YAML: indented lines that are kept as they are or folded, and rules for the line
breaks at their end.
-/

namespace Stencil.Yaml

/-- What happens to the line breaks at the end. -/
inductive Chomping where
  | strip
  | clip
  | keep
deriving DecidableEq, Repr

structure BlockHeader where
  folds : Bool
  /-- Indentation beyond that of the parent, where it is given. -/
  indent : Option Nat
  chomping : Chomping
deriving DecidableEq, Repr

namespace BlockHeader

/-- The marks of a header: an indentation and a chomping mark in either order. -/
def read (h : BlockHeader) : Text → Except Problem BlockHeader
  | [] => .ok h
  | u :: rest =>
    if u = '-' && h.chomping = .clip then read { h with chomping := .strip } rest
    else if u = '+' && h.chomping = .clip then read { h with chomping := .keep } rest
    else if u.isDigit && u != '0' && h.indent.isNone then read { h with indent := some (u.toNat - 0x30) } rest
    else .error .blockHeader

/-- The header that some tokens start with, and its comment. -/
def ofTokens : List Token → Except Problem (BlockHeader × Text)
  | [] => .error .blockHeader
  | t :: rest => do
    let h ← read ⟨t.text.head? = some ('>' : CodeUnit), none, .clip⟩ (t.text.drop 1)
    return (h, ← tailComment [] [] false rest)

end BlockHeader

/-- A line of a block scalar: the spaces at its start, and the rest. -/
structure BlockLine where
  indent : Nat
  text : Text
deriving DecidableEq, Repr

namespace BlockLine

def ofText (line : Text) : BlockLine :=
  let spaces := (line.takeWhile (· = (' ' : CodeUnit))).length
  ⟨spaces, line.drop spaces⟩

/-- Whether only spaces are in a line. -/
def isBlank (l : BlockLine) : Bool := l.text.isEmpty || l.text = [CodeUnit.ofChar '\r']

/-- The text without a carriage return at its end. -/
def content (l : BlockLine) : Text :=
  match l.text.reverse with
  | u :: rest => if u = '\r' then rest.reverse else l.text
  | [] => []

/-- The spaces behind an indentation. -/
def spacesFrom (indent : Nat) (l : BlockLine) : Text := List.replicate (l.indent - indent) (' ' : CodeUnit)

end BlockLine

/-- The line break in front of a line: none yet, one that becomes a space, one that stays, or two. -/
inductive Break where
  | start
  | space
  | line
  | lines
deriving DecidableEq, Repr

def Break.text : Break → Text
  | start => []
  | space => [' ']
  | line => [lineFeed]
  | lines => [lineFeed, lineFeed]

/-- Lines of a literal scalar without their indentation. -/
def keepLines (indent : Nat) (lines : List BlockLine) : Text :=
  Text.join [lineFeed] (lines.map fun l => l.spacesFrom indent ++ l.content)

/-- Folds lines without their indentation. Lines that are indented deeper, or start with a tab, keep the line
breaks around them; `afterDeep` says that one came before. -/
def foldLines (indent : Nat) : Break → Bool → List BlockLine → Text
  | _, _, [] => []
  | mark, afterDeep, l :: rest =>
    if indent < l.indent || l.content.head? = some ('\t' : CodeUnit) then
      let mark : Break :=
        if mark = .space then .line else if mark = .line && !afterDeep then .lines else mark
      mark.text ++ l.spacesFrom indent ++ l.content ++ foldLines indent .line true rest
    else if l.content.isEmpty then
      if mark = .line then '\n' :: foldLines indent mark afterDeep rest else foldLines indent .line afterDeep rest
    else mark.text ++ l.content ++ foldLines indent .space false rest

/-- The line breaks that end a scalar, behind its text. `rest` are the lines that are dropped unless they
are kept. -/
def chomped (h : BlockHeader) (indent : Nat) (text : Text) (rest : List BlockLine) : Text :=
  match h.chomping with
  | .strip => text
  | .clip => text ++ [lineFeed]
  | .keep =>
    let text := text ++ rest.flatMap fun l => lineFeed :: l.spacesFrom indent
    if text.getLast? = some lineFeed then text else text ++ [lineFeed]

/-- The indentation of the lines of a scalar with a first line behind some blank lines. Blank lines must not
be indented deeper, unless the header gives the indentation. -/
def lineIndent (h : BlockHeader) (parent : Nat) (isRoot : Bool) (blanks : List BlockLine) (first : BlockLine) :
    Except Problem Nat :=
  let least := match h.indent with
    | some n => parent + n
    | none => (blanks.map (·.indent)).foldl max parent
  let indent := if h.indent.isSome then least else first.indent
  if first.indent < least || (indent = 0 && !isRoot) then .error .indentation else .ok indent

/-- The lines up to the last that satisfies `p`, and the lines behind it. -/
def splitLast {α : Type} (p : α → Bool) (xs : List α) : List α × List α :=
  let rest := (xs.reverse.takeWhile (!p ·)).reverse
  (xs.take (xs.length - rest.length), rest)

/-- The value of a block scalar. Blank lines at its end that are indented deeper belong to its text. -/
def blockValue (h : BlockHeader) (parent : Nat) (isRoot : Bool) (source : Text) : Except Problem Text := do
  let lines := if source.isEmpty then [] else (Text.splitOn [lineFeed] source).map BlockLine.ofText
  let blanks := lines.takeWhile (·.isBlank)
  match lines.dropWhile (·.isBlank) with
  | [] =>
    return if h.chomping = .keep && !lines.isEmpty then List.replicate (max 1 (lines.length - 1)) lineFeed else []
  | first :: _ =>
    let indent ← lineIndent h parent isRoot blanks first
    let (body, rest) := splitLast (fun l => !l.isBlank || indent < l.indent) (lines.drop blanks.length)
    if body.any fun l => !l.content.isEmpty && l.indent < indent then throw .indentation
    let text := if h.folds then foldLines indent .start false body else keepLines indent body
    return chomped h indent ((blanks.flatMap fun l => l.spacesFrom indent ++ [lineFeed]) ++ text) rest

end Stencil.Yaml
