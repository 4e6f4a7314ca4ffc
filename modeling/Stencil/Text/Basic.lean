/-!
Text is a sequence of UTF-16 code units. Lengths, cuts and columns count units; walking over a text
goes by code point. A cut may fall inside a surrogate pair, so a text can hold half a pair.
-/

namespace Stencil

/-- One 16-bit unit of a text. -/
abbrev CodeUnit := UInt16

/-- A sequence of UTF-16 code units, not necessarily well formed. -/
abbrev Text := List CodeUnit

namespace CodeUnit

/-- The unit of a character below U+10000. -/
def ofChar (c : Char) : CodeUnit := UInt16.ofNat c.toNat

instance : Coe Char CodeUnit := ⟨ofChar⟩

def isHighSurrogate (u : CodeUnit) : Bool := 0xD800 ≤ u && u ≤ 0xDBFF

def isLowSurrogate (u : CodeUnit) : Bool := 0xDC00 ≤ u && u ≤ 0xDFFF

/-- ASCII digits only. -/
def isDigit (u : CodeUnit) : Bool := '0' ≤ u && u ≤ '9'

/-- ASCII letters only. -/
def isLetter (u : CodeUnit) : Bool := ('A' ≤ u && u ≤ 'Z') || ('a' ≤ u && u ≤ 'z')

/-- A unit that may start an identifier. -/
def isNameStart (u : CodeUnit) : Bool := u.isLetter || u = '_'

/-- A unit that may continue an identifier. -/
def isNamePart (u : CodeUnit) : Bool := u.isNameStart || u.isDigit

/-- Value of an ASCII digit or letter in bases up to sixteen. -/
def hexValue? (u : CodeUnit) : Option Nat :=
  if '0' ≤ u && u ≤ '9' then some (u.toNat - 0x30)
  else if 'a' ≤ u && u ≤ 'f' then some (u.toNat - 0x61 + 10)
  else if 'A' ≤ u && u ≤ 'F' then some (u.toNat - 0x41 + 10)
  else none

def isHexDigit (u : CodeUnit) : Bool := u.hexValue?.isSome

end CodeUnit

namespace Text

/-- A code point above U+FFFF takes a surrogate pair. -/
def ofCodePoint (n : Nat) : Text :=
  if n < 0x10000 then [UInt16.ofNat n]
  else [UInt16.ofNat (0xD800 + (n - 0x10000) / 0x400), UInt16.ofNat (0xDC00 + (n - 0x10000) % 0x400)]

def ofString (s : String) : Text := s.toList.flatMap fun c => ofCodePoint c.toNat

instance : Coe String Text := ⟨ofString⟩

/-- The code points of a text, each as a text of one or two units, in front of `done` backwards. -/
def pointsOnto (done : List Text) : Text → List Text
  | [] => done.reverse
  | [u] => ([u] :: done).reverse
  | u :: v :: rest =>
    if u.isHighSurrogate && v.isLowSurrogate then pointsOnto ([u, v] :: done) rest
    else pointsOnto ([u] :: done) (v :: rest)

/-- The code points of a text, each as a text of one or two units; half a pair stands alone. -/
def points (t : Text) : List Text := pointsOnto [] t

/-- The number of a code point written by `points`. -/
def codePoint : Text → Nat
  | [u] => u.toNat
  | [u, v] => 0x10000 + (u.toNat - 0xD800) * 0x400 + (v.toNat - 0xDC00)
  | _ => 0xFFFD

/-- The text as characters; U+FFFD stands for half a pair. -/
def toString (t : Text) : String :=
  String.ofList (t.points.map fun p =>
    let n := codePoint p
    if n < 0xD800 || 0xDFFF < n then Char.ofNat n else '\uFFFD')

instance : ToString Text := ⟨toString⟩

/-- Lexicographic order by code unit. -/
def before : Text → Text → Bool
  | _, [] => false
  | [], _ :: _ => true
  | u :: s, v :: t => u < v || (u == v && before s t)

/-- The digits of a natural number, most significant first. -/
def ofNat (n : Nat) : Text := (Nat.toDigits 10 n).map CodeUnit.ofChar

/-- The number written by decimal digits; other units count as nothing. -/
def digitsValue (t : Text) : Nat :=
  t.foldl (fun n u => if u.isDigit then n * 10 + (u.toNat - 0x30) else n) 0

/-- Number of line feeds. -/
def lineFeeds (t : Text) : Nat := t.count ('\n' : CodeUnit)

/-- Everything before `u` and everything after it, if it occurs. -/
def splitAtUnit? (u : CodeUnit) : Text → Option (Text × Text)
  | [] => none
  | v :: rest => if v = u then some ([], rest) else (splitAtUnit? u rest).map fun (a, b) => (v :: a, b)

/-- Everything before the first occurrence of `mark` and everything after it. -/
def splitAtFirst? (mark : Text) : Text → Option (Text × Text)
  | [] => if mark.isEmpty then some ([], []) else none
  | u :: rest =>
    if mark.isPrefixOf (u :: rest) then some ([], (u :: rest).drop mark.length)
    else (splitAtFirst? mark rest).map fun (a, b) => (u :: a, b)

/-- Index of the first occurrence of `part`, in code units. -/
def find? (part : Text) (t : Text) : Option Nat := (splitAtFirst? part t).map (·.1.length)

def includes (t part : Text) : Bool := (find? part t).isSome

/-- Parts between the non-overlapping occurrences of `mark`, found from the left. `skip` units
belong to an occurrence already found, and `part` holds the current part backwards. -/
def splitFrom (mark : Text) : Nat → Text → Text → List Text
  | _, part, [] => [part.reverse]
  | skip + 1, part, _ :: rest => splitFrom mark skip part rest
  | 0, part, u :: rest =>
    if mark.isPrefixOf (u :: rest) then part.reverse :: splitFrom mark (mark.length - 1) [] rest
    else splitFrom mark 0 (u :: part) rest

/-- Parts between the non-overlapping occurrences of `mark`; an empty mark separates all units. -/
def splitOn (mark t : Text) : List Text :=
  if mark.isEmpty then t.map ([·]) else splitFrom mark 0 [] t

/-- The parts with `mark` between them. -/
def join (mark : Text) (parts : List Text) : Text := mark.intercalate parts

/-- The text filled up on the left to `width` units. -/
def padLeft (fill : CodeUnit) (width : Nat) (t : Text) : Text :=
  List.replicate (width - t.length) fill ++ t

/-- The text filled up on the right to `width` units. -/
def padRight (fill : CodeUnit) (width : Nat) (t : Text) : Text :=
  t ++ List.replicate (width - t.length) fill

end Text
end Stencil
