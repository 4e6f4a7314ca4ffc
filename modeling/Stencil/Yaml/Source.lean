import Stencil.Text.Basic

/-!
YAML sources by position, and the places that matter to their tokens: gaps, line ends, document marks,
and where a scalar ends.
-/

namespace Stencil.Yaml

def lineFeed : CodeUnit := '\n'

def isBlank (u : CodeUnit) : Bool := u = ' ' || u = '\t'

def isGap (u : CodeUnit) : Bool := isBlank u || u = '\n' || u = '\r'

def isFlowMark (u : CodeUnit) : Bool := u = ',' || u = '[' || u = ']' || u = '\x7b' || u = '\x7d'

/-- The names of anchors end before these. -/
def endsName (u : CodeUnit) : Bool := isGap u || isFlowMark u

/-- The units of a tag that stand for themselves. -/
def isTagUnit (u : CodeUnit) : Bool :=
  u.isLetter || u.isDigit || (Text.ofString "-#;/?:@&=+$_.!~*'()").contains u

/-- A source by position. -/
abbrev Source := Array CodeUnit

namespace Source

variable (s : Source)

def slice (i j : Nat) : Text := (s.extract i j).toList

def has (i : Nat) (u : CodeUnit) : Bool := s[i]? = some u

/-- Whether white space or the end is at a position. -/
def isGapAt (i : Nat) : Bool := s[i]?.all isGap

/-- The first position from `i` on whose unit does not satisfy `p`. -/
def skip (p : CodeUnit → Bool) (i : Nat) : Nat :=
  if h : i < s.size then if p s[i] then skip p (i + 1) else i else i
termination_by s.size - i

/-- Length of the line break at a position. -/
def breakLength (i : Nat) : Nat :=
  if s.has i '\n' then 1 else if s.has i '\r' && s.has (i + 1) '\n' then 2 else 0

/-- Whether a line ends at a position. -/
def endsLine (i : Nat) : Bool := s.size ≤ i || s.breakLength i != 0

/-- Where the line at a position ends. -/
def lineEnd (i : Nat) : Nat :=
  let j := s.skip (· != '\n') i
  if j < s.size && i < j && s.has (j - 1) '\r' then j - 1 else j

/-- Whether a document mark is at a position. -/
def isMarkAt (i : Nat) : Bool :=
  (['-', '.'] : List Char).any (fun c => s.slice i (i + 3) = List.replicate 3 (CodeUnit.ofChar c)) && s.isGapAt (i + 3)

/-- Where a scalar goes on in the line that starts at `i`: behind an indentation of at least `required`
spaces, or at the end of a line of spaces. Where no indentation is required, only a document mark ends
it. -/
def continueAt? (required i : Nat) : Option Nat :=
  if 0 < required then
    let j := s.skip (· = ' ') i
    if s.breakLength j = 2 then some (j + 1)
    else if s.has j '\n' || required ≤ j - i then some j
    else none
  else if s.isMarkAt i then none
  else some i

/-- The first line feed from `i` on and before `stop` after which a scalar cannot go on. -/
def cutBreak? (required stop : Nat) : Nat → Nat → Option Nat
  | 0, _ => none
  | fuel + 1, i =>
    let j := s.skip (· != '\n') i
    if j < stop then
      match s.continueAt? required (j + 1) with
      | some i => cutBreak? required stop fuel i
      | none => some j
    else none

/-- The closing single quote from `i` on; two in a row are text. -/
def singleQuoteEnd? : Nat → Nat → Option Nat
  | 0, _ => none
  | fuel + 1, i =>
    let j := s.skip (· != '\'') i
    if s.size ≤ j then none
    else if s.has (j + 1) '\'' then singleQuoteEnd? fuel (j + 2)
    else some j

/-- The closing double quote from `i` on; a backslash hides the unit after it. -/
def doubleQuoteEnd? : Nat → Nat → Option Nat
  | 0, _ => none
  | fuel + 1, i =>
    let j := s.skip (fun u => u != '"' && u != '\\') i
    if s.size ≤ j then none
    else if s.has j '\\' then doubleQuoteEnd? fuel (j + 2)
    else some j

/-- Where the quoted scalar at `i` ends. A line that is not indented cuts it off, and so does the end of
the source. -/
def quotedEnd (required i : Nat) : Nat :=
  match if s.has i '\'' then s.singleQuoteEnd? (s.size + 1) (i + 1)
      else s.doubleQuoteEnd? (s.size + 1) (i + 1) with
  | none => s.size
  | some close =>
    match s.cutBreak? required close (s.size + 1) i with
    | none => close + 1
    | some j => if s.has (j - 1) '\r' then j - 1 else j

/-- Where the text of the plain scalar ends of which `last` is the end so far and that is read up to
`i`. It ends before a value mark, a comment and, in a flow collection, a flow mark. -/
def plainEnd (inFlow : Bool) (required : Nat) : Nat → Nat → Nat → Nat
  | 0, _, last => last
  | fuel + 1, i, last =>
    match s[i]? with
    | none => last
    | some u =>
      let flowMarkAt (j : Nat) : Bool := inFlow && s[j]?.any isFlowMark
      if u = ':' then
        if s.isGapAt (i + 1) || flowMarkAt (i + 1) then last
        else plainEnd inFlow required fuel (i + 1) (i + 1)
      else if isGap u then
        let breaks := s.breakLength i
        let j := if breaks = 2 then i + 1 else i
        let last := if u = '\r' && breaks = 0 then i + 1 else last
        if s.has (j + 1) '#' || flowMarkAt (j + 1) then last
        else if breaks = 0 then plainEnd inFlow required fuel (j + 1) last
        else match s.continueAt? required (j + 1) with
          | none => last
          | some next => plainEnd inFlow required fuel (max (j + 1) (next - 1)) last
      else if flowMarkAt i then last
      else plainEnd inFlow required fuel (i + 1) (i + 1)

/-- The line feed that ends the last line of a block scalar of which a line ends at `last`, or the end of
the source. -/
def blockBreak (required : Nat) : Nat → Nat → Nat
  | 0, last => last
  | fuel + 1, last =>
    match s.continueAt? required (last + 1) with
    | none => last
    | some i =>
      let j := s.skip (· != '\n') i
      if j < s.size then blockBreak required fuel j else s.size

/-- The first of the positions up to `i` such that all units in between satisfy `p`. -/
def skipBack (p : CodeUnit → Bool) : Nat → Nat
  | 0 => 0
  | i + 1 => if s[i]?.any p then skipBack p i else i + 1

/-- The line end before `last`, and not before `first`, behind which only lines of at most `indent` spaces
follow. -/
def dropLines (first indent : Nat) : Nat → Nat → Nat
  | 0, last => last
  | fuel + 1, last =>
    let stop := if 0 < last && s.has (last - 1) '\r' then last - 1 else last
    let start := s.skipBack (· = ' ') stop
    if first < start && s.has (start - 1) '\n' && stop - start ≤ indent then
      dropLines first indent fuel (start - 1)
    else last

/-- The end of the line in front of the first line of a block scalar that is not blank, and the
indentation of that line. Blank lines hold spaces only; the line at `i` starts after `last` and
`indent` of its spaces were read. -/
def firstLine (last indent : Nat) : Nat → Nat → Nat × Nat
  | 0, _ => (last, indent)
  | fuel + 1, i =>
    if s.has i ' ' then firstLine last (indent + 1) fuel (i + 1)
    else if s.has i '\n' then firstLine i 0 fuel (i + 1)
    else if s.breakLength i = 2 then firstLine last indent fuel (i + 1)
    else (last, indent)

/-- Where the block scalar ends whose lines start at `first`, and the indentation that was required in
it. `given` is the indentation of its header. Blank lines that hold tabs belong to it in any case, and
`keep` says whether other blank lines at its end do. -/
def blockEnd (required : Nat) (given : Option Nat) (keep : Bool) (first : Nat) : Nat × Nat :=
  let fuel := s.size + 1
  let (last, indent) := s.firstLine (first - 1) 0 fuel first
  let (last, required) :=
    if indent < required then (last, required)
    else
      let required := match given with
        | none => indent
        | some n => n + (if required = 0 then 1 else required)
      (s.blockBreak required fuel last, required)
  let next := s.skip (· = ' ') (last + 1)
  if s.has next '\t' then (s.skip isGap next, required)
  else if keep then (last + 1, required)
  else (s.dropLines first indent fuel last + 1, required)

end Source
end Stencil.Yaml
