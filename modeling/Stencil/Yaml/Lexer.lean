import Stencil.Yaml.Source
import Stencil.Yaml.Token

/-!
Splitting a YAML source into lexemes. The lexer stands between documents, in a document or in a flow
collection; all that it needs to know of the lines before is how far the next ones have to be
indented.
-/

namespace Stencil.Yaml

namespace Lexer

/-- Where the lexer stands. -/
inductive Mode where
  | stream
  | document
  | flow
deriving DecidableEq, Repr

/-- What was read, the latest lexeme first, and the indentation of the current line and of the lines that
go on with its scalars. `depth` counts the open flow collections, and `afterKey` says that a value mark
needs no white space behind it. -/
structure State where
  source : Source
  position : Nat
  lexemes : List Lexeme
  indent : Nat
  required : Nat
  depth : Nat
  afterKey : Bool
deriving Repr

end Lexer

abbrev Lexer := StateT Lexer.State (Except Problem)

namespace Lexer

/-- The unit `n` behind the position. -/
def ahead (n : Nat) : Lexer (Option CodeUnit) := do
  let s ← get
  return s.source[s.position + n]?

def isGapAhead (n : Nat) : Lexer Bool := do
  let s ← get
  return s.source.isGapAt (s.position + n)

def atLineEnd : Lexer Bool := do
  let s ← get
  return s.source.endsLine s.position

/-- Passes over the units up to `stop`, which are a lexeme even if there are none. -/
def emit (kind : Kind) (stop : Nat) : Lexer Unit :=
  modify fun s =>
    { s with
      position := max s.position stop
      lexemes := ⟨kind, s.source.slice s.position stop, s.position⟩ :: s.lexemes }

/-- Passes over the units up to `stop`, which are a lexeme if there are any. -/
def takeTo (kind : Kind) (stop : Nat) : Lexer Unit := do
  if (← get).position < stop then emit kind stop

def takeUnits (kind : Kind) (n : Nat) : Lexer Unit := do takeTo kind ((← get).position + n)

/-- Passes over the units ahead that satisfy `p`, and tells their number. -/
def takeWhile (kind : Kind) (p : CodeUnit → Bool) : Lexer Nat := do
  let s ← get
  let stop := s.source.skip p s.position
  takeTo kind stop
  return stop - s.position

def spaces : Lexer Nat := takeWhile .space (· = ' ')

def blanks : Lexer Nat := takeWhile .space isBlank

def lineBreak : Lexer Nat := do
  let s ← get
  let n := s.source.breakLength s.position
  takeUnits .newline n
  return n

/-- Passes over the rest of the line, which is a comment if it is not empty. -/
def comment : Lexer Unit := do
  let s ← get
  takeTo .comment (s.source.lineEnd s.position)

/-- A mark of one unit and the blanks behind it; tells their number. -/
def mark (kind : Kind) : Lexer Nat := do
  takeUnits kind 1
  return 1 + (← blanks)

def markKind? (u : CodeUnit) : Option Kind :=
  if u = '-' then some .itemMark else if u = '?' then some .keyMark else if u = ':' then some .valueMark else none

/-- Where the tag at `i` ends: behind the bracket that closes it, or behind units that a tag may hold,
among them escapes of a percent mark and two hexadecimal digits. -/
def tagEnd (s : Source) (i : Nat) : Nat :=
  if s.has (i + 1) '<' then
    let j := s.skip (fun u => !isGap u && u != '>') (i + 2)
    if s.has j '>' then j + 1 else j
  else shorthand (s.size + 1) (i + 1)
where
  shorthand : Nat → Nat → Nat
    | 0, i => i
    | fuel + 1, i =>
      if s[i]?.any isTagUnit then shorthand fuel (i + 1)
      else if s.has i '%' && s[i + 1]?.any CodeUnit.isHexDigit && s[i + 2]?.any CodeUnit.isHexDigit then
        shorthand fuel (i + 3)
      else i

/-- The marks, tags and anchors ahead in a line that has begun. -/
def properties : Nat → Lexer Unit
  | 0 => throw .exhausted
  | fuel + 1 => do
    let some u ← ahead 0 | return
    if u = '!' then
      let s ← get
      takeTo .tag (tagEnd s.source s.position)
      let _ ← blanks
      properties fuel
    else if u = '&' then
      let _ ← takeWhile .anchor (!endsName ·)
      let _ ← blanks
      properties fuel
    else if let some kind := markKind? u then
      let inFlow := (← get).depth != 0
      if (← isGapAhead 1) || (inFlow && (← ahead 1).any isFlowMark) then
        if inFlow && kind = .itemMark then throw .blockInFlow
        modify fun s => if inFlow then { s with afterKey := false } else { s with required := s.indent + 1 }
        let _ ← mark kind
        properties fuel

/-- The marks at the start of a line, which count as indentation. -/
def lineMarks : Nat → Lexer Unit
  | 0 => throw .exhausted
  | fuel + 1 => do
    match (← ahead 0).bind markKind? with
    | some kind =>
      if ← isGapAhead 1 then
        let n ← mark kind
        modify fun s => { s with required := s.indent + 1, indent := s.indent + n }
        lineMarks fuel
    | none => return

/-- The start of a line outside flow collections: a document mark, or indentation and marks. -/
def lineStart : Lexer Mode := do
  let s ← get
  if s.source.isMarkAt s.position then
    let ends := s.source.has s.position '.'
    takeUnits (if ends then .documentEnd else .documentStart) 3
    modify fun s => { s with indent := 0, required := 0 }
    return if ends then .stream else .document
  let n ← spaces
  let fits ← isGapAhead 1
  modify fun s => { s with indent := n, required := if fits then s.required else min s.required n }
  lineMarks (s.source.size + 1)
  return .document

/-- A quoted scalar; double quotes if the first unit is one. -/
def quoted : Lexer Unit := do
  let s ← get
  emit (if s.source.has s.position '"' then .doubleQuoted else .singleQuoted)
    (s.source.quotedEnd s.required s.position)

def plain : Lexer Unit := do
  let s ← get
  emit .content (s.source.plainEnd (s.depth != 0) s.required (s.source.size + 1) s.position s.position)

/-- The indentation that the header of a block scalar gives, less one, and whether it keeps the line
breaks at the end. -/
def headerMarks (given : Option Nat) (keep : Bool) : Text → Option Nat × Bool
  | [] => (given, keep)
  | u :: rest =>
    if u = '+' then headerMarks given true rest
    else if u.isDigit && u != '0' then headerMarks (some (u.toNat - 0x31)) keep rest
    else if u = '-' then headerMarks given keep rest
    else (given, keep)

/-- A block scalar with its header. -/
def block : Lexer Mode := do
  let s ← get
  let stop := s.source.skip (fun u => !isGap u && u != '#') s.position
  let (given, keep) := headerMarks none false (s.source.slice (s.position + 1) stop)
  takeTo .blockHeader stop
  let _ ← blanks
  let rest := (← get).position
  let stop := s.source.lineEnd rest
  if rest < stop then
    let text := s.source.slice rest stop
    match Kind.ofText? text with
    | some kind => takeTo kind stop
    | none => throw (.stray text)
  let _ ← lineBreak
  let (stop, required) := s.source.blockEnd s.required given keep (← get).position
  emit .content stop
  modify fun s => { s with required := required }
  lineStart

/-- The length of a line without the comment that a blank separates from it, and without the blanks at
its end. -/
def directiveLength (line : Text) : Nat := ((withoutComment line).reverse.dropWhile isBlank).length
where
  withoutComment : Text → Text
    | u :: v :: rest => if isBlank u && v = '#' then [] else u :: withoutComment (v :: rest)
    | t => t

/-- A line between documents, or the start of one. -/
def inStream : Lexer Mode := do
  if (← ahead 0) = some 0xFEFF then takeUnits .byteOrderMark 1
  let s ← get
  if (← ahead 0) = some ('%' : CodeUnit) then
    takeUnits .directive (directiveLength (s.source.slice s.position (s.source.lineEnd s.position)))
    let _ ← blanks
    comment
    return .stream
  let next := s.source.skip isBlank s.position
  if s.source.endsLine next || s.source.has next '#' then
    let _ ← blanks
    comment
    let _ ← lineBreak
    return .stream
  emit .documentMode s.position
  lineStart

/-- A token of a document outside flow collections. -/
def inDocument : Lexer Mode := do
  let _ ← blanks
  properties ((← get).source.size + 1)
  if ← atLineEnd then
    let _ ← lineBreak
    return ← lineStart
  let some u ← ahead 0 | return .document
  if u = '#' then
    comment
    let _ ← lineBreak
    lineStart
  else if u = '\x7b' || u = '[' then
    takeUnits (if u = '[' then .sequenceOpen else .mappingOpen) 1
    modify fun s => { s with afterKey := false, depth := 1 }
    return .flow
  else if u = '\x7d' || u = ']' then throw (.stray [u])
  else if u = '*' then
    let _ ← takeWhile .reference (!endsName ·)
    return .document
  else if u = '"' || u = '\'' then
    quoted
    return .document
  else if u = '|' || u = '>' then block
  else
    plain
    return .document

/-- The line breaks and blanks ahead in a flow collection, and the indentation behind the last line
break. -/
def flowGap (indent : Option Nat) : Nat → Lexer (Option Nat)
  | 0 => throw .exhausted
  | fuel + 1 => do
    if (← lineBreak) != 0 then
      let n ← spaces
      modify fun s => { s with indent := n }
      let _ ← blanks
      flowGap (some n) fuel
    else if (← blanks) != 0 then flowGap indent fuel
    else return indent

def commas : Nat → Lexer Unit
  | 0 => throw .exhausted
  | fuel + 1 => do
    if (← ahead 0) = some (',' : CodeUnit) then
      let _ ← mark .comma
      modify fun s => { s with afterKey := false }
      commas fuel

/-- A token of a flow collection. Its lines have to be indented, except that the last bracket may stand
where the line of the first one starts. -/
def inFlow : Lexer Mode := do
  let fuel := (← get).source.size + 1
  let indent ← flowGap none fuel
  let s ← get
  if let some n := indent then
    let closes := s.source.has s.position ']' || s.source.has s.position '\x7d'
    let outdented := n < s.required && !s.source.has s.position '#'
    if (outdented || (n = 0 && s.source.isMarkAt s.position)) &&
        !(n + 1 = s.required && s.depth = 1 && closes) then
      throw .unclosedCollection
  commas fuel
  properties fuel
  if ← atLineEnd then return .flow
  let some u ← ahead 0 | return .flow
  if u = '#' then
    comment
    return .flow
  else if u = '\x7b' || u = '[' then
    takeUnits (if u = '[' then .sequenceOpen else .mappingOpen) 1
    modify fun s => { s with afterKey := false, depth := s.depth + 1 }
    return .flow
  else if u = '\x7d' || u = ']' then
    takeUnits (if u = ']' then .sequenceClose else .mappingClose) 1
    modify fun s => { s with afterKey := true, depth := s.depth - 1 }
    return if s.depth = 1 then .document else .flow
  else if u = '*' then
    let _ ← takeWhile .reference (!endsName ·)
    return .flow
  else if u = '"' || u = '\'' then
    modify fun s => { s with afterKey := true }
    quoted
    return .flow
  else
    let afterKey := (← get).afterKey
    modify fun s => { s with afterKey := false }
    if u = ':' && (afterKey || (← isGapAhead 1) || (← ahead 1) = some (',' : CodeUnit)) then
      let _ ← mark .valueMark
    else plain
    return .flow

def step : Mode → Lexer Mode
  | .stream => inStream
  | .document => inDocument
  | .flow => inFlow

/-- Steps until the source is read. -/
def run : Nat → Mode → Lexer Unit
  | 0, _ => throw .exhausted
  | fuel + 1, mode => do
    let s ← get
    if s.position < s.source.size then run fuel (← step mode)

end Lexer

/-- The lexemes of a source. -/
def lexemes (source : Text) : Except Problem (List Lexeme) := do
  let source := source.toArray
  let (_, s) ← StateT.run (Lexer.run (2 * source.size + 2) .stream) ⟨source, 0, [], 0, 0, 0, false⟩
  return s.lexemes.reverse

end Stencil.Yaml
