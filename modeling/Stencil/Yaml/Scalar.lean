import Stencil.Number.Read
import Stencil.Value.Datum
import Stencil.Yaml.Source
import Stencil.Yaml.Token

/-!
Scalars of YAML: plain, single-quoted and double-quoted text, folded over lines, and the values that
plain text stands for in the core schema.
-/

namespace Stencil.Yaml

inductive Style where
  | plain
  | singleQuoted
  | doubleQuoted
  | block
deriving DecidableEq, Repr

/-- How a number is spelled, where it is not in plain decimal. -/
inductive Format where
  | decimal
  | octal
  | hexadecimal
  | exponent
deriving DecidableEq, Repr

/-- A scalar: its value, the text it stands for it, and how it is spelled. `places` are the decimal places
of a number whose last one is zero. -/
structure Scalar where
  value : Datum
  text : Text
  style : Style
  format : Format := .decimal
  places : Nat := 0

/-- The lines of a text; a carriage return in front of a line feed belongs to the line break. -/
def linesOf (t : Text) : List Text :=
  let lines := Text.splitOn [lineFeed] t
  let withoutReturn (line : Text) : Text :=
    match line.reverse with
    | u :: rest => if u = '\r' then rest.reverse else line
    | [] => line
  lines.dropLast.map withoutReturn ++ lines.getLast?.toList

def trimEnd (t : Text) : Text := (t.reverse.dropWhile isBlank).reverse

/-- Folds the lines behind the first one: a single line break becomes a space, of several all but the first
stay. -/
def foldFrom (mark : CodeUnit) : List Text → Text
  | [] => []
  | [line] => mark :: line.dropWhile isBlank
  | line :: rest =>
    let text := trimEnd (line.dropWhile isBlank)
    if !text.isEmpty then mark :: text ++ foldFrom ' ' rest
    else if mark = lineFeed then mark :: foldFrom mark rest
    else foldFrom lineFeed rest

/-- Folds lines. Blanks around a line break are dropped. -/
def folded (t : Text) : Text :=
  match linesOf t with
  | first :: next :: rest => trimEnd first ++ foldFrom ' ' (next :: rest)
  | _ => t

/-- Whether a line break is ahead. -/
def startsBreak : Text → Bool
  | u :: v :: _ => u = lineFeed || (u = '\r' && v = lineFeed)
  | [u] => u = lineFeed
  | [] => false

/-- The number of line feeds in the white space ahead, and the text behind it. -/
def skipGaps (breaks : Nat) : Text → Nat × Text
  | [] => (breaks, [])
  | u :: rest =>
    if u = lineFeed then skipGaps (breaks + 1) rest
    else if isBlank u || startsBreak (u :: rest) then skipGaps breaks rest
    else (breaks, u :: rest)

/-- The unit that an escape stands for. -/
def escape? (u : CodeUnit) : Option CodeUnit :=
  if u = '0' then some 0 else if u = 'a' then some 7 else if u = 'b' then some 8 else if u = 'e' then some 0x1B
  else if u = 'f' then some 0x0C else if u = 'n' then some 0x0A else if u = 'r' then some 0x0D
  else if u = 't' || u = '\t' then some 9 else if u = 'v' then some 0x0B else if u = 'N' then some 0x85
  else if u = '_' then some 0xA0 else if u = 'L' then some 0x2028 else if u = 'P' then some 0x2029
  else if u = ' ' || u = '"' || u = '/' || u = '\\' then some u
  else none

/-- The number of hexadecimal digits that an escape takes. -/
def escapeWidth (u : CodeUnit) : Nat :=
  if u = 'x' then 2 else if u = 'u' then 4 else if u = 'U' then 8 else 0

/-- What the escape behind a backslash stands for, and the text behind it. An escaped line break stands for
nothing, with the blanks behind it. -/
def readEscape : Text → Except Problem (Text × Text)
  | [] => .error .escape
  | u :: rest =>
    if startsBreak (u :: rest) then
      .ok ([], (if u = lineFeed then rest else rest.drop 1).dropWhile isBlank)
    else match escape? u with
      | some v => .ok ([v], rest)
      | none =>
        let digits := rest.take (escapeWidth u)
        match if digits.length = escapeWidth u then Number.inBase? 16 digits else none with
        | some n => if 0x10FFFF < n then .error .codePoint else .ok (Text.ofCodePoint n, rest.drop digits.length)
        | none => .error .escape

/-- The value of double-quoted text whose last unit is the closing quote, behind `done`, which is
backwards. -/
def unescape (done : Text) : Nat → Text → Except Problem Text
  | fuel + 1, u :: v :: rest =>
    let t := v :: rest
    if u = lineFeed then
      let (breaks, t) := skipGaps 0 t
      unescape (if breaks = 0 then ' ' :: done else List.replicate breaks lineFeed ++ done) fuel t
    else if startsBreak (u :: t) then unescape done fuel t
    else if u = '\\' then
      match readEscape t with
      | .ok (value, t) => unescape (value.reverse ++ done) fuel t
      | .error e => .error e
    else if isBlank u then
      let more := t.takeWhile isBlank
      let t := t.dropWhile isBlank
      unescape (if startsBreak t then done else more.reverse ++ u :: done) fuel t
    else unescape (u :: done) fuel t
  | _, _ => .ok done.reverse

/-- Two single quotes in a row stand for one. -/
def unquote : Text → Text
  | [] => []
  | [u] => [u]
  | u :: v :: rest => if u = '\'' && v = '\'' then u :: unquote rest else u :: unquote (v :: rest)

/-- Whether text is closed by the quote it starts with. -/
def isClosed (quote : CodeUnit) (t : Text) : Bool := 1 < t.length && t.getLast? = some quote

/-- The text that a scalar token stands for. -/
def contentOf (style : Style) (t : Text) : Except Problem Text :=
  match style with
  | .singleQuoted =>
    if isClosed '\'' t then .ok (unquote (folded (t.drop 1).dropLast)) else .error .unclosedQuote
  | .doubleQuoted => if isClosed '"' t then unescape [] t.length (t.drop 1) else .error .unclosedQuote
  | _ => match t.head?.filter fun (u : CodeUnit) => u = '\t' || (Text.ofString ",%|>@\x60").contains u with
    | some u => .error (.reservedStart u)
    | none => .ok (folded t)

namespace Scalar

/-- A scalar that is text. -/
def ofText (style : Style) (t : Text) : Scalar := { value := .text t, text := t, style := style }

def isWord (words : List String) (t : Text) : Bool := words.any (Text.ofString · = t)

def null? (t : Text) : Option Datum := if t.isEmpty || isWord ["~", "null", "Null", "NULL"] t then some .none else none

def bool? (t : Text) : Option Datum :=
  if isWord ["true", "True", "TRUE"] t then some (.bool true)
  else if isWord ["false", "False", "FALSE"] t then some (.bool false)
  else none

def withoutSign : Text → Text
  | u :: rest => if u = '-' || u = '+' then rest else u :: rest
  | [] => []

/-- Whether a text is one digit or more, where `p` tells what a digit is. -/
def areDigits (p : CodeUnit → Bool) (t : Text) : Bool := !t.isEmpty && t.all p

/-- The format of an integer. -/
def integerFormat? (t : Text) : Option Format :=
  let isOctal (u : CodeUnit) : Bool := '0' ≤ u && u ≤ '7'
  if (Text.ofString "0o").isPrefixOf t && areDigits isOctal (t.drop 2) then some .octal
  else if areDigits CodeUnit.isDigit (withoutSign t) then some .decimal
  else if (Text.ofString "0x").isPrefixOf t && areDigits CodeUnit.isHexDigit (t.drop 2) then some .hexadecimal
  else none

/-- A text in front of its first exponent mark, and what follows the mark. -/
def splitExponent (t : Text) : Text × Option Text :=
  let isMark (u : CodeUnit) : Bool := u = 'e' || u = 'E'
  let mantissa := t.takeWhile (!isMark ·)
  (mantissa, (t.drop mantissa.length).tail?)

/-- Whether a text is digits with a point among them, in front of them, or behind them. -/
def hasPoint (t : Text) : Bool :=
  let whole := t.takeWhile CodeUnit.isDigit
  match t.dropWhile CodeUnit.isDigit with
  | u :: fraction => u = '.' && fraction.all CodeUnit.isDigit && !(whole.isEmpty && fraction.isEmpty)
  | [] => false

/-- The format of a number with a point or an exponent, and the places to keep. -/
def floatFormat? (t : Text) : Option (Format × Nat) :=
  match splitExponent (withoutSign t) with
  | (mantissa, some exponent) =>
    if (hasPoint mantissa || areDigits CodeUnit.isDigit mantissa) &&
        areDigits CodeUnit.isDigit (withoutSign exponent) then some (.exponent, 0)
    else none
  | (mantissa, none) =>
    if !hasPoint mantissa then none
    else
      let fraction := (mantissa.dropWhile CodeUnit.isDigit).drop 1
      some (.decimal, if t.getLast? = some ('0' : CodeUnit) then fraction.length else 0)

/-- The value of a text without a number: not a number, and the infinities. -/
def special? (t : Text) : Option Number :=
  if isWord [".nan", ".NaN", ".NAN"] t then some .nan
  else if isWord [".inf", ".Inf", ".INF"] (withoutSign t) then some (.infinity (t.head? = some ('-' : CodeUnit)))
  else none

def integer? (style : Style) (t : Text) : Option Scalar := do
  let format ← integerFormat? t
  let x ← Number.ofText? t
  return { value := .number x, text := t, style := style, format := format }

def float? (style : Style) (t : Text) : Option Scalar :=
  match special? t with
  | some x => some { value := .number x, text := t, style := style }
  | none => do
    let (format, places) ← floatFormat? t
    let x ← Number.ofText? t
    return { value := .number x, text := t, style := style, format := format, places := places }

def ofDatum? (style : Style) (t : Text) (d : Option Datum) : Option Scalar :=
  d.map fun d => { value := d, text := t, style := style }

/-- Core tags and what they make of a text. Other tags leave it text, and so do these if it is not of
their form. -/
def ofTag (tag : Text) (style : Style) (t : Text) : Scalar :=
  let read : Option Scalar :=
    if tag = "tag:yaml.org,2002:null" then ofDatum? style t (null? t)
    else if tag = "tag:yaml.org,2002:bool" then ofDatum? style t (bool? t)
    else if tag = "tag:yaml.org,2002:int" then integer? style t
    else if tag = "tag:yaml.org,2002:float" then float? style t
    else none
  read.getD (ofText style t)

/-- What plain text stands for in the core schema, if it is more than text. -/
def core? (t : Text) : Option Scalar :=
  ofDatum? .plain t (null? t) <|> ofDatum? .plain t (bool? t) <|> integer? .plain t <|> float? .plain t

/-- The scalar that a text stands for. Only plain text is more than text without a tag. -/
def of (tag : Option Text) (style : Style) (t : Text) : Scalar :=
  match tag with
  | some tag => ofTag tag style t
  | none => if style = .plain then (core? t).getD (ofText style t) else ofText style t

end Scalar
end Stencil.Yaml
