import Stencil.Template.SyntaxError
import Stencil.Text.Blank
import Stencil.Text.Digits

/-!
Splitting a source into tokens. The lexer is a machine that stands between two tags or inside one;
every step reads a piece of the source. Lines are counted where line feeds may stand: in text, comments,
the two tags of a raw block, strings and the blanks inside tags.
-/

namespace Stencil

/-- A place in a source: what is still to be read, and what was read before it, in units and lines. -/
structure Cursor where
  rest : Text
  offset : Nat
  line : Nat
deriving DecidableEq, Repr

namespace Cursor

def start (source : Text) : Cursor := ⟨source, 0, 1⟩

/-- Passes over `n` units of a mark or a word, where no line ends. -/
def skip (c : Cursor) (n : Nat) : Cursor := ⟨c.rest.drop n, c.offset + n, c.line⟩

/-- Passes over `n` units and counts the lines that end in them. -/
def advance (c : Cursor) (n : Nat) : Cursor :=
  { c.skip n with line := c.line + Text.lineFeeds (c.rest.take n) }

/-- Passes over the blanks ahead. -/
def skipBlanks (c : Cursor) : Cursor := c.advance (c.rest.takeWhile CodeUnit.isBlank).length

end Cursor

namespace Lexer

/-- What stands after an opening brace. -/
inductive Opener where
  | tag (kind : TagKind)
  | comment
deriving DecidableEq, Repr

def Opener.ofUnit? (u : CodeUnit) : Option Opener :=
  if u = '\x7b' then some (.tag .output)
  else if u = '%' then some (.tag .statement)
  else if u = '#' then some .comment
  else none

/-- The first opening mark: the units before it, what it opens, and whether a dash belongs to it. -/
def openerAt? : Text → Option (Nat × Opener × Bool)
  | [] => none
  | u :: rest =>
    match if u = '\x7b' then rest.head?.bind Opener.ofUnit? else none with
    | some opener => some (0, opener, (rest.drop 1).head? = some ('-' : CodeUnit))
    | none => (openerAt? rest).map fun (n, o) => (n + 1, o)

/-- Every line break as a line feed. -/
def normalizeBreaks : Text → Text
  | [] => []
  | [u] => if u = '\r' then ['\n'] else [u]
  | u :: v :: rest =>
    if u = '\r' then (if v = '\n' then normalizeBreaks (v :: rest) else '\n' :: normalizeBreaks (v :: rest))
    else u :: normalizeBreaks (v :: rest)

/-- The value of the next `n` units as text between tags. -/
def dataValue (raw : Text) (stripStart stripEnd : Bool) : Text :=
  let value := normalizeBreaks raw
  let value := if stripStart then value.trimLeft else value
  if stripEnd then value.trimRight else value

/-- The token of the next `n` units, if any text is left. -/
def dataTokens (c : Cursor) (n : Nat) (stripStart stripEnd : Bool) : List Token :=
  let value := dataValue (c.rest.take n) stripStart stripEnd
  if value.isEmpty then [] else [⟨.data value, c.line, c.offset⟩]

/-- A word framed by optional blanks and a closing mark, with an optional dash before the mark: its
length and the dash. -/
def wordThenClose? (word : String) (t : Text) : Option (Nat × Bool) :=
  let blanks := (t.takeWhile CodeUnit.isBlank).length
  let t := t.drop blanks
  let word := Text.ofString word
  if word.isPrefixOf t then
    let t := t.drop word.length
    let more := (t.takeWhile CodeUnit.isBlank).length
    let t := t.drop more
    let length := blanks + word.length + more
    if (Text.ofString "-%\x7d").isPrefixOf t then some (length + 3, true)
    else if (Text.ofString "%\x7d").isPrefixOf t then some (length + 2, false)
    else none
  else none

/-- The end of a raw block at the start of a text: its length and the dashes of its two marks. -/
def rawEnd? (t : Text) : Option (Nat × Bool × Bool) :=
  if (Text.ofString "\x7b%").isPrefixOf t then
    let t := t.drop 2
    let dash := t.head? = some ('-' : CodeUnit)
    let width := if dash then 3 else 2
    (wordThenClose? "endraw" (if dash then t.drop 1 else t)).map fun (n, dashAfter) =>
      (width + n, dash, dashAfter)
  else none

/-- The first end of a raw block and the units before it. -/
def rawEndAt? : Text → Option (Nat × Nat × Bool × Bool)
  | [] => none
  | u :: rest =>
    match rawEnd? (u :: rest) with
    | some e => some (0, e)
    | none => (rawEndAt? rest).map fun (n, e) => (n + 1, e)

/-- The number ahead: its length, and whether it has a decimal part or an exponent. -/
def numberLength (t : Text) : Nat × Bool :=
  let whole := t.digitsLength
  let fraction := Text.fractionLength (t.drop whole)
  let exponent := Text.exponentLength (t.drop (whole + fraction))
  (whole + fraction + exponent, fraction + exponent != 0)

/-- The value of a backslash and the unit after it; unknown escapes stand for themselves. -/
def escapeValue (u : CodeUnit) : Text :=
  if u = 'n' then ['\n'] else if u = 't' then ['\t'] else if u = 'r' then ['\r']
  else if u = '\\' || u = '\'' || u = '"' then [u]
  else ['\\', u]

/-- The value of a string up to its closing quote, and its length with the quote. -/
def stringBody? (quote : CodeUnit) : Text → Option (Text × Nat)
  | [] => none
  | [u] => if u = quote then some ([], 1) else none
  | u :: v :: rest =>
    if u = quote then some ([], 1)
    else if u = '\\' then (stringBody? quote rest).map fun (t, n) => (escapeValue v ++ t, n + 2)
    else (stringBody? quote (v :: rest)).map fun (t, n) => (u :: t, n + 1)

/-- Where the lexer stands: between tags, where blanks may be dropped, or inside a tag that was
opened on a line and holds open brackets, innermost first. -/
inductive Mode where
  | between (strip : Bool)
  | inside (tag : TagKind) (openLine : Nat) (brackets : List Operator)
deriving DecidableEq, Repr

/-- The tokens of a step, and where the lexer stands after it. -/
structure Step where
  tokens : List Token
  cursor : Cursor
  mode : Mode
deriving DecidableEq, Repr

def fail {α : Type} (cause : SyntaxCause) (line : Nat) : Except Unreadable α :=
  .error (.malformed ⟨cause, line⟩)

/-- Skips a comment; `dash` tells whether its opening mark ends in a dash. -/
def comment (before : List Token) (c : Cursor) (dash : Bool) : Except Unreadable Step :=
  match Text.find? (Text.ofString "#\x7d") c.rest with
  | none => fail .unclosedComment c.line
  | some n =>
    let strip := if n = 0 then dash else c.rest[n - 1]? = some ('-' : CodeUnit)
    .ok ⟨before, (c.advance n).skip 2, .between strip⟩

/-- Reads a raw block whose opening tag has `width` units left. -/
def rawBlock (before : List Token) (c : Cursor) (width : Nat) (strip : Bool) : Except Unreadable Step :=
  let body := c.advance width
  match rawEndAt? body.rest with
  | none => fail .unclosedRaw c.line
  | some (n, length, dash, dashAfter) =>
    .ok ⟨before ++ dataTokens body n strip dash, (body.advance n).advance length, .between dashAfter⟩

/-- A step between tags: the text up to the next opening mark, and what the mark opens. -/
def stepBetween (c : Cursor) (strip : Bool) : Except Unreadable Step :=
  match openerAt? c.rest with
  | none => .ok ⟨dataTokens c c.rest.length strip false, c.advance c.rest.length, .between false⟩
  | some (n, opener, dash) =>
    let data := dataTokens c n strip dash
    let mark := c.advance n
    let inner := mark.skip (if dash then 3 else 2)
    match opener with
    | .comment => comment data inner dash
    | .tag kind =>
      match if kind = .statement then wordThenClose? "raw" inner.rest else none with
      | some (width, strip) => rawBlock data inner width strip
      | none => .ok ⟨data ++ [⟨.tagBegin kind, mark.line, mark.offset⟩], inner, .inside kind mark.line []⟩

/-- The open brackets after an operator. -/
def track (brackets : List Operator) (op : Operator) : Option (List Operator) :=
  if op.isOpening then some (op :: brackets)
  else match op.opening? with
    | none => some brackets
    | some opening => match brackets with
      | innermost :: outer => if innermost = opening then some outer else none
      | [] => none

/-- A step inside a tag: its end, or one word, literal or operator. The end is recognised only
where no bracket is open. -/
def stepInside (c : Cursor) (kind : TagKind) (openLine : Nat) (brackets : List Operator) :
    Except Unreadable Step :=
  let c := c.skipBlanks
  let close := Text.ofString kind.closeMark
  match c.rest with
  | [] => fail (.unclosedTag kind) openLine
  | u :: rest =>
    let token (k : TokenKind) (after : Cursor) (mode : Mode) : Except Unreadable Step :=
      .ok ⟨[⟨k, c.line, c.offset⟩], after, mode⟩
    let stay := Mode.inside kind openLine brackets
    if brackets.isEmpty && (('-' : CodeUnit) :: close).isPrefixOf c.rest then
      token (.tagEnd kind) (c.skip 3) (.between true)
    else if brackets.isEmpty && close.isPrefixOf c.rest then token (.tagEnd kind) (c.skip 2) (.between false)
    else if u = '\'' || u = '"' then
      match stringBody? u rest with
      | none => fail .unclosedString c.line
      | some (value, n) => token (.string value) ((c.advance n).skip 1) stay
    else if u.isDigit then
      let (n, float) := numberLength c.rest
      token (if float then .float (c.rest.take n) else .integer (c.rest.take n)) (c.skip n) stay
    else if u.isNameStart then
      let word := c.rest.takeWhile CodeUnit.isNamePart
      token (.name word) (c.skip word.length) stay
    else match Operator.ofStart? c.rest with
      | none => fail (.strayUnit u) c.line
      | some op => match track brackets op with
        | none => fail (.strayBracket op) c.line
        | some brackets => token (.operator op) (c.skip op.symbol.length) (.inside kind openLine brackets)

/-- A step in either mode. -/
def step (c : Cursor) : Mode → Except Unreadable Step
  | .between strip => stepBetween c strip
  | .inside kind openLine brackets => stepInside c kind openLine brackets

/-- Steps until the source is read; every step takes one unit of fuel. -/
def run : Nat → Cursor → Mode → Except Unreadable (List Token)
  | 0, _, _ => .error .exhausted
  | fuel + 1, c, mode =>
    match c.rest, mode with
    | [], .between _ => .ok [⟨.eof, c.line, c.offset⟩]
    | _, _ => do
      let step ← step c mode
      return step.tokens ++ (← run fuel step.cursor step.mode)

/-- A source without its last line break, if it ends in one. -/
def trimFinalBreak (source : Text) : Text :=
  match source.reverse with
  | u :: v :: rest => if u = '\n' then (if v = '\r' then rest.reverse else (v :: rest).reverse) else source
  | [u] => if u = '\n' then [] else source
  | [] => []

/-- What is read of a source: a final line break belongs to it only if `keep` says so. -/
def trimmed (source : Text) (keep : Bool) : Text := if keep then source else trimFinalBreak source

/-- The tokens of a source, the last of which is the end of the template. -/
def tokenize (source : Text) (keep : Bool) : Except Unreadable (List Token) :=
  let source := trimmed source keep
  run (source.length + 1) (.start source) (.between false)

end Lexer
end Stencil
