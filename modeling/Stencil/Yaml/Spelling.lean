import Stencil.Text.Blank
import Stencil.Yaml.Node
import Stencil.Yaml.Wrapping

/-!
The text of keys that are collections: flow style, with the tags, anchors, comments and quotes that the
document has.
-/

namespace Stencil.Yaml

/-- Where a node is written: its indentation, whether it is a key in front of a value mark, and the column it
starts at, if something precedes it in its line. -/
structure Place where
  indent : Nat
  isKey : Bool
  column : Option Nat
deriving DecidableEq, Repr

def spacesOf (n : Nat) : Text := List.replicate n ' '

/-- A line break and an indentation. -/
def newLine (indent : Nat) : Text := lineFeed :: spacesOf indent

/-- Whether two neighbours in a text satisfy `p`. -/
def hasPair (p : CodeUnit → CodeUnit → Bool) (t : Text) : Bool := (t.zip (t.drop 1)).any fun (u, v) => p u v

namespace Spelling

/-- Hexadecimal digits, at least `width` of them. -/
def hex (width n : Nat) : Text := Text.padLeft '0' width ((Nat.toDigits 16 n).map CodeUnit.ofChar)

/-- The letter of the escape that a unit has. -/
def letter? (u : CodeUnit) : Option Char :=
  if u = '"' then some '"' else if u = '\\' then some '\\' else if u = 8 then some 'b' else if u = 9 then some 't'
  else if u = 10 then some 'n' else if u = 12 then some 'f' else if u = 13 then some 'r' else none

/-- The letter of the escape that a unit has, if its long form has six units. -/
def shortLetter? (u : CodeUnit) : Option Char :=
  if u = 0 then some '0' else if u = 7 then some 'a' else if u = 11 then some 'v' else if u = 27 then some 'e'
  else none

def isHalfPair : Text → Bool
  | [u] => u.isHighSurrogate || u.isLowSurrogate
  | _ => false

/-- A code point in double quotes. -/
def escaped (p : Text) : Text :=
  match p with
  | [u] =>
    match letter? u <|> shortLetter? u with
    | some c => ['\\', CodeUnit.ofChar c]
    | none =>
      if u < 32 then Text.ofString "\\x" ++ hex 2 u.toNat
      else if isHalfPair p then Text.ofString "\\u" ++ hex 4 u.toNat
      else p
  | p => p

/-- The number of units of a code point in the long form of double quotes. -/
def longLength (p : Text) : Nat :=
  match p with
  | [u] => if (letter? u).isSome then 2 else if u < 32 || isHalfPair p then 6 else 1
  | p => p.length

/-- Code points in double quotes. Where lines may be broken, a line feed is a line break and an empty line;
spaces around it are escaped. -/
def escapedAll (breaks : Bool) (indent : Nat) (ps : List Text) : Text :=
  match ps with
  | [] => []
  | p :: rest =>
    if p = [lineFeed] && breaks && !rest.isEmpty then
      let more := min (rest.takeWhile (· = [lineFeed])).length (rest.length - 1)
      let next := rest.drop more
      lineFeed :: lineFeed :: List.replicate more lineFeed ++ spacesOf indent ++
        Text.ofString (if next.head? = some [CodeUnit.ofChar ' '] then "\\" else "") ++ escapedAll breaks indent next
    else if p = [CodeUnit.ofChar ' '] && rest.head? = some [lineFeed] then
      Text.ofString "\\ " ++ escapedAll breaks indent rest
    else escaped p ++ escapedAll breaks indent rest
termination_by ps.length

def doubleQuoted (p : Place) (t : Text) : Text :=
  let ps := t.points
  let breaks := !p.isKey && 38 ≤ ps.foldl (fun n p => n + longLength p) 0
  let text := ('"' : CodeUnit) :: escapedAll breaks p.indent ps ++ Text.ofString "\""
  if p.isKey then text else wrapped true p.indent p.column text

/-- Text with an empty line in front of the line behind each run of line feeds. -/
def doubledBreaks (indent : Nat) : Text → Text
  | [] => []
  | u :: rest =>
    if u = lineFeed && rest.head? != some lineFeed then u :: newLine indent ++ doubledBreaks indent rest
    else u :: doubledBreaks indent rest

def singleQuoted (p : Place) (t : Text) : Text :=
  if (p.isKey && t.contains lineFeed) ||
      hasPair (fun u v => (isBlank u && v = lineFeed) || (u = lineFeed && isBlank v)) t then doubleQuoted p t
  else
    let inner : Text := t.flatMap fun (u : CodeUnit) => if u = '\'' then [u, u] else [u]
    let text := ('\'' : CodeUnit) :: doubledBreaks p.indent inner ++ Text.ofString "'"
    if p.isKey then text else wrapped false p.indent p.column text

/-- Single quotes if only double ones are in the text. -/
def quoted (p : Place) (t : Text) : Text :=
  if t.contains ('"' : CodeUnit) && !t.contains ('\'' : CodeUnit) then singleQuoted p t else doubleQuoted p t

/-- Whether a text cannot stand without quotes in a flow collection. -/
def needsQuotes (t : Text) : Bool :=
  let isMark (u : CodeUnit) : Bool := u = '?' || u = '-'
  let first := t.head?.any fun (u : CodeUnit) =>
    isBlank u || u = lineFeed || (Text.ofString ",[]\x7b\x7d#&*!|>'\"%@\x60").contains u
  let marked := match t with
    | [u] => isMark u
    | u :: v :: _ => isMark u && isBlank v
    | [] => false
  let last := t.getLast?.any fun (u : CodeUnit) => isBlank u || u = lineFeed || u = ':' || u = '-'
  let inside := hasPair (fun u v => ((u = lineFeed || u = ':') && isBlank v) || (isBlank u && v = lineFeed) ||
    ((isBlank u || u = lineFeed) && v = '#')) t
  first || marked || last || inside || t.any isFlowMark

def plain (p : Place) (t : Text) : Text :=
  let text := doubledBreaks p.indent t
  if (p.isKey && t.contains lineFeed) || needsQuotes t || (Scalar.core? text).isSome then quoted p t
  else if p.isKey then text
  else wrapped false p.indent p.column text

/-- Whether a code point is written in double quotes only. -/
def isControl (p : Text) : Bool :=
  match p with
  | [u] => (u < 32 && u != 9 && u != 10) || (0x7F ≤ u && u ≤ 0x9F) || isHalfPair p
  | _ => false

def text (p : Place) (style : Style) (t : Text) : Text :=
  if t.points.any isControl then doubleQuoted p t
  else match style with
    | .plain => plain p t
    | .singleQuoted => singleQuoted p t
    | .doubleQuoted => doubleQuoted p t
    | .block => quoted p t

/-- A number with a decimal exponent. -/
def exponential : Number → Text
  | .finite negative grains =>
    if grains = 0 then Text.ofString "0e+0"
    else
      let d := Number.shortest grains
      let digits := Text.ofNat d.digits
      let e := d.exponent + digits.length - 1
      Text.ofString (if negative then "-" else "") ++ digits.take 1 ++
        (if digits.length = 1 then [] else ('.' : CodeUnit) :: digits.drop 1) ++
        Text.ofString (if e < 0 then "e-" else "e+") ++ Text.ofNat e.natAbs
  | x => x.toText

/-- A number in decimal, with at least `places` decimal places unless it is negative. -/
def decimal (places : Nat) : Number → Text
  | .nan => Text.ofString ".nan"
  | .infinity negative => Text.ofString (if negative then "-.inf" else ".inf")
  | x =>
    let t := if x = .finite true 0 then Text.ofString "-0" else x.toText
    if places = 0 || !t.head?.any CodeUnit.isDigit then t
    else
      let t := if t.contains ('.' : CodeUnit) then t else t ++ Text.ofString "."
      t ++ List.replicate (places + (t.takeWhile (· != ('.' : CodeUnit))).length + 1 - t.length) ('0' : CodeUnit)

def number (s : Scalar) (tag : Option Text) (x : Number) : Text :=
  let inBase (mark : String) (base : Nat) : Text :=
    match x.toInt? with
    | some n => Text.ofString mark ++ (Nat.toDigits base n.natAbs).map CodeUnit.ofChar
    | none => decimal 0 x
  match s.format with
  | .octal => inBase "0o" 8
  | .hexadecimal => inBase "0x" 16
  | .exponent => exponential x
  | .decimal => decimal (if tag.all (· = Tag.core ++ Text.ofString "float") then s.places else 0) x

/-- A scalar without its tag and its anchor. A core tag decides the form, also where the text is not of that
form. -/
def scalar (p : Place) (tag : Option Text) (s : Scalar) : Text :=
  let isTag (name : String) : Bool := tag = some (Tag.core ++ Text.ofString name)
  match s.value with
  | .none => s.text
  | .bool _ => s.text
  | .number x => number s tag x
  | .text t =>
    if isTag "null" then Text.ofString "null"
    else if isTag "bool" then Text.ofString (if t.isEmpty then "false" else "true")
    else if isTag "int" || isTag "float" then
      match if t.trim.isEmpty then some 0 else Number.ofText? t.trim with
      | some (.finite _ _) => ('"' : CodeUnit) :: escapedAll false 0 t.points ++ Text.ofString "\""
      | some x => decimal 0 x
      | none => decimal 0 .nan
    else text p s.style t
  | _ => []

/-- The name of an anchor; white space, control units and flow marks cannot be part of it. -/
def anchorName (name : Text) : Except Problem Text :=
  if name.any fun u => u ≤ 25 || u.isBlank || isFlowMark u then .error (.anchorName name) else .ok name

/-- The anchor and the tag in front of a node. References have none. -/
def properties (hs : Handles) : Node → Except Problem Text
  | .reference _ _ => return []
  | n => do
    let anchor ← match n.decoration.anchor with
      | some name => some <$> (('&' : CodeUnit) :: ·) <$> anchorName name
      | none => pure none
    return Text.join " " (anchor.toList ++ (n.decoration.tag.map hs.shorten).toList)

/-- A text behind the properties of its node. -/
def behind (properties text : Text) : Text := if properties.isEmpty then text else properties ++ (' ' : CodeUnit) :: text

/-- The column behind the properties of a node. -/
def columnBehind (column : Option Nat) (properties : Text) : Option Nat :=
  if properties.isEmpty then column else some (column.getD 0 + properties.length + 1)

/-- A comment with its marks. -/
def marked (comment : Text) : Text :=
  Text.join [lineFeed] ((Text.splitOn [lineFeed] comment).map fun line =>
    if line.isEmpty then [] else if line = [CodeUnit.ofChar ' '] then Text.ofString "#" else ('#' : CodeUnit) :: line)

/-- The lines of a text, all but empty ones behind an indentation. -/
def indentLines (indent : Nat) (t : Text) : Text :=
  Text.join [lineFeed] ((Text.splitOn [lineFeed] t).map fun line =>
    if line.all (· = (' ' : CodeUnit)) then line else spacesOf indent ++ line)

/-- A text with a comment behind it: in its line if the comment has one line, else below. -/
def withComment (indent : Nat) (text comment : Text) : Text :=
  if comment.isEmpty then text
  else
    let t := marked comment
    if t.contains lineFeed then text ++ lineFeed :: indentLines indent t
    else if text.getLast? = some (' ' : CodeUnit) then text ++ t
    else text ++ (' ' : CodeUnit) :: t

/-- An item of a flow collection: the lines in front of it, its text, and whether it cannot share a line. -/
structure Entry where
  above : List Text
  text : Text
  alone : Bool

/-- The lines above a node. -/
def above (indent : Nat) (d : Decoration) : List Text :=
  (if d.gapBefore then [[]] else []) ++
    (if d.before.isEmpty then [] else [(indentLines indent (marked d.before)).trimLeft])

/-- An entry with the comma behind it, unless it is the last, and with a comment. -/
def entry (indent : Nat) (above : List Text) (text comment : Text) (alone isLast : Bool) : Entry :=
  let text := withComment indent (if isLast then text else text ++ Text.ofString ",") comment
  ⟨above, text, alone || !comment.isEmpty || !above.isEmpty || text.contains lineFeed⟩

/-- A flow collection in one line, or in several if it is long or has to. -/
def collection (opening closing : CodeUnit) (indent : Nat) (entries : List Entry) : Text :=
  let lines := entries.flatMap fun e => e.above ++ [e.text]
  if lines.isEmpty then [opening, closing]
  else if entries.any (·.alone) || Wrapping.width < lines.foldl (fun n line => n + line.length + 2) 2 then
    opening :: lines.flatMap (fun line => if line.isEmpty then [lineFeed] else newLine (indent + 2) ++ line) ++
      newLine indent ++ [closing]
  else opening :: Text.ofString " " ++ Text.join " " lines ++ Text.ofString " " ++ [closing]

/-- Whether a key is written behind a key mark. -/
def needsMark : Node → Bool
  | .scalar _ s => s.style = .block
  | _ => true

/-- A key with its mark. -/
def keyText (indent : Nat) (comment : Text) (marked : Bool) (key : Text) : Text :=
  if marked then Text.ofString "? " ++ withComment (indent + 2) key comment ++ newLine indent ++ Text.ofString ":"
  else withComment (indent + 2) (key ++ Text.ofString ":") comment

/-- What stands between the value mark and a value. -/
def gapBefore (indent : Nat) (afterComment marked : Bool) (value : Node) (text : Text) : Text :=
  let d := value.decoration
  if afterComment || d.gapBefore || !d.before.isEmpty then
    (if d.gapBefore then [lineFeed] else []) ++
      (if d.before.isEmpty then [] else lineFeed :: indentLines indent (Spelling.marked d.before)) ++ newLine indent
  else if !marked && value.isCollection then if text.contains lineFeed then newLine indent else " "
  else if text.isEmpty || text.head? = some lineFeed then []
  else " "

/-- A pair. A key without a value stands alone, behind its mark if it has one. -/
def pairText (indent : Nat) (key : Node) (text : Text) (value : Option Node) (valueText : Text) : Text :=
  let comment := key.decoration.comment
  let marked := needsMark key
  match value with
  | none => if text.isEmpty then "?" else if marked then Text.ofString "? " ++ text else text
  | some v =>
    keyText indent comment marked text ++ gapBefore (indent + 2) (!comment.isEmpty) marked v valueText ++ valueText

/-- The column of a value, which starts behind its key. -/
def valueColumn (column : Option Nat) (indent : Nat) (key : Node) (text : Text) (value : Option Node) : Option Nat :=
  let comment := key.decoration.comment
  if !needsMark key && comment.isEmpty && value.any Node.isScalar then
    some ((keyText indent comment false text).length + 1)
  else column

mutual

/-- A node behind its properties. -/
def node (hs : Handles) (p : Place) (properties : Text) : Node → Except Problem Text
  | .reference _ name => return ('*' : CodeUnit) :: (← anchorName name)
  | .scalar d s => return behind properties (scalar { p with column := columnBehind p.column properties } d.tag s)
  | .mapping _ pairs => do
    let entries ← pairEntries hs p.indent (columnBehind p.column properties) (pairs.all (·.2.isNone)) pairs
    return behind properties (collection '\x7b' '\x7d' p.indent entries)
  | .sequence _ items => do
    let entries ← itemEntries hs p.indent (columnBehind p.column properties) items
    return behind properties (collection '[' ']' p.indent entries)

def nodeOr (hs : Handles) (p : Place) (properties : Text) : Option Node → Except Problem Text
  | some n => node hs p properties n
  | none => return []

/-- The items of a sequence. The column of an item is moved by the properties of those before it. -/
def itemEntries (hs : Handles) (indent : Nat) (column : Option Nat) : List Node → Except Problem (List Entry)
  | [] => return []
  | n :: rest => do
    let d := n.decoration
    let ps ← properties hs n
    let text ← node hs ⟨indent + 4, false, column⟩ ps n
    return entry (indent + 4) (above indent d) text d.comment false rest.isEmpty ::
      (← itemEntries hs indent (columnBehind column ps) rest)

/-- The pairs of a mapping. `keysOnly` holds if none of them has a value. -/
def pairEntries (hs : Handles) (indent : Nat) (column : Option Nat) (keysOnly : Bool) :
    List Pair → Except Problem (List Entry)
  | [] => return []
  | (key, value) :: rest => do
    let inner := indent + 2
    let ps ← properties hs key
    let text ← node hs ⟨inner + 2, !needsMark key && !keysOnly, column⟩ ps key
    let valueColumn := valueColumn (columnBehind column ps) inner key text value
    let vps ← (value.map (properties hs)).getD (pure [])
    let valueText ← nodeOr hs ⟨inner + 2, false, valueColumn⟩ vps value
    let d := key.decoration
    let comment := (value.map (·.decoration.comment)).getD d.comment
    let alone := !d.comment.isEmpty || value.any fun v => !v.decoration.before.isEmpty
    return entry inner (above indent d) (pairText inner key text value valueText) comment alone rest.isEmpty ::
      (← pairEntries hs indent column keysOnly rest)

end

end Spelling

/-- The text of a collection that is a key; its own tag and anchor are not written. -/
def Node.spelling (hs : Handles) (n : Node) : Except Problem Text := Spelling.node hs ⟨0, false, none⟩ [] n

end Stencil.Yaml
