import Stencil.Yaml.Token

/-!
Tags of YAML: their short forms, which start with a handle, and their names.
-/

namespace Stencil.Yaml

/-- What handles stand for, in the order they were declared. -/
abbrev Handles := List (Text × Text)

namespace Tag

/-- What the names of core tags start with. -/
def core : Text := Text.ofString "tag:yaml.org,2002:"

def mapping : Text := core ++ Text.ofString "map"

def sequence : Text := core ++ Text.ofString "seq"

/-- The byte that a percent mark and two hexadecimal digits stand for, and what follows them. -/
def escapedByte? : Text → Option (Nat × Text)
  | p :: a :: b :: rest =>
    if p = '%' then do
      let x ← a.hexValue?
      let y ← b.hexValue?
      return (16 * x + y, rest)
    else none
  | _ => none

/-- Adds the bits of bytes behind the first of a code point. -/
def addBytes? : Nat → Nat → Text → Option (Nat × Text)
  | 0, n, t => some (n, t)
  | count + 1, n, t => do
    let (b, t) ← escapedByte? t
    if b / 64 = 2 then addBytes? count (n * 64 + b % 64) t else none

/-- The code point of escaped bytes in UTF-8, and what follows them. -/
def escapedPoint? (t : Text) : Option (Nat × Text) := do
  let (b, t) ← escapedByte? t
  if b < 0x80 then return (b, t)
  let (count, least, bits) ←
    if b / 32 = 6 then some (1, 0x80, b % 32)
    else if b / 16 = 14 then some (2, 0x800, b % 16)
    else if b / 8 = 30 then some (3, 0x10000, b % 8)
    else none
  let (n, t) ← addBytes? count bits t
  if n < least || 0x10FFFF < n || (0xD800 ≤ n && n ≤ 0xDFFF) then none else return (n, t)

/-- A text with its escapes resolved; none if one of them is no code point. -/
def decode? : Nat → Text → Option Text
  | _, [] => some []
  | 0, _ => none
  | fuel + 1, u :: rest =>
    if u = '%' then do
      let (n, t) ← escapedPoint? (u :: rest)
      return Text.ofCodePoint n ++ (← decode? fuel t)
    else (decode? fuel rest).map (u :: ·)

/-- Units that a short form escapes. -/
def encode (t : Text) : Text :=
  t.flatMap fun (u : CodeUnit) =>
    if u = '!' || u = ',' || u = '[' || u = ']' || u = '\x7b' || u = '\x7d' then
      ('%' : CodeUnit) :: (Nat.toDigits 16 u.toNat).map fun c => CodeUnit.ofChar c.toUpper
    else [u]

end Tag

namespace Handles

def standard : Handles := [(Text.ofString "!!", Tag.core)]

/-- Declares a handle; one that is known keeps its place. -/
def declare (hs : Handles) (handle start : Text) : Handles :=
  if hs.any (·.1 = handle) then hs.map fun (h, s) => if h = handle then (h, start) else (h, s)
  else hs ++ [(handle, start)]

/-- The name of a tag that is written behind its handle, which ends in the last exclamation mark. -/
def expand (hs : Handles) (short : Text) : Except Problem Text :=
  let suffix := (short.reverse.takeWhile (· != ('!' : CodeUnit))).reverse
  let handle := short.take (short.length - suffix.length)
  if suffix.isEmpty then .error (.tag short)
  else match hs.lookup handle with
    | some start => match Tag.decode? suffix.length suffix with
      | some name => .ok (start ++ name)
      | none => .error (.tag short)
    | none => if handle.length = 1 then .ok short else .error (.tag short)

/-- The name of a tag as it is written; the mark alone is a name. -/
def nameOf (hs : Handles) (t : Text) : Except Problem Text :=
  if t.length = 1 then .ok t
  else if t[1]? = some ('<' : CodeUnit) then
    let name := (t.drop 2).dropLast
    let bare := name.all (· = ('!' : CodeUnit)) && (name.length = 1 || name.length = 2)
    if bare || t.getLast? != some ('>' : CodeUnit) then .error (.tag t) else .ok name
  else hs.expand t

/-- The short form of a tag, or its name in brackets. -/
def shorten (hs : Handles) (name : Text) : Text :=
  match hs.find? fun (_, start) => start.isPrefixOf name with
  | some (handle, start) => handle ++ Tag.encode (name.drop start.length)
  | none => if name.head? = some ('!' : CodeUnit) then name else Text.ofString "!<" ++ name ++ Text.ofString ">"

end Handles
end Stencil.Yaml
