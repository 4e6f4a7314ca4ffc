import Stencil.Number.Fixed
import Stencil.Render.Access
import Stencil.Text.Blank

/-!
Formatting with percent marks: `%s` and `%r` write any value, `%d`, `%i` and `%f` numbers, and `%%` a
percent sign. A key in parentheses picks the value from a mapping; without one the values are used in
turn. A flag, a width and a precision may stand before the letter.
-/

namespace Stencil

/-- A percent mark: the letter is missing at the end of a line or of the format. -/
structure Conversion where
  index : Nat
  key : Option Text
  flag : Option CodeUnit
  width : Nat
  precision : Option Nat
  letter : Option CodeUnit
deriving DecidableEq, Repr

inductive FormatPiece where
  | literal (t : Text)
  | conversion (c : Conversion)
deriving DecidableEq, Repr

namespace Conversion

/-- Takes the first unit if it satisfies `p`. -/
def takeUnit (p : CodeUnit → Bool) : Text → Option CodeUnit × Text
  | u :: rest => if p u then (some u, rest) else (none, u :: rest)
  | [] => (none, [])

def spanDigits (t : Text) : Text × Text := (t.takeWhile CodeUnit.isDigit, t.dropWhile CodeUnit.isDigit)

def readKey (t : Text) : Option Text × Text :=
  match t with
  | u :: rest =>
    if u = '(' then match Text.splitAtUnit? ')' rest with
      | some (key, rest) => (some key, rest)
      | none => (none, t)
    else (none, t)
  | [] => (none, t)

def readPrecision (t : Text) : Option Nat × Text :=
  match t with
  | u :: rest =>
    let (digits, after) := spanDigits rest
    if u = '.' && !digits.isEmpty then (some (Text.digitsValue digits), after) else (none, t)
  | [] => (none, t)

/-- The conversion after a percent sign at `index`, and the text after it. -/
def read (index : Nat) (t : Text) : Conversion × Text :=
  let (key, t) := readKey t
  let (flag, t) := takeUnit (fun u => u = '-' || u = '0') t
  let (digits, t) := spanDigits t
  let (precision, t) := readPrecision t
  let (letter, t) := takeUnit (fun u => !u.isLineEnd) t
  (⟨index, key, flag, Text.digitsValue digits, precision, letter⟩, t)

end Conversion

/-- The pieces of a format whose first unit stands at `index`; `fuel` bounds their number. -/
def formatPieces : Nat → Nat → Text → List FormatPiece
  | 0, _, _ => []
  | fuel + 1, index, t =>
    let plain := t.takeWhile fun (u : CodeUnit) => u != ('%' : CodeUnit)
    let rest := t.drop plain.length
    match rest with
    | [] => [.literal plain]
    | _ :: after =>
      let start := index + plain.length
      let (c, after') := Conversion.read start after
      .literal plain :: .conversion c ::
        formatPieces fuel (start + 1 + (after.length - after'.length)) after'

/-- The longest text that can exist, in units. -/
def maxTextLength : Nat := 536870888

namespace Eval

/-- Fills a text up to a width: blanks on the left, or on the right after a dash, or zeros between
the sign and the digits of a number. -/
def padTo (c : Conversion) (t : Text) : Eval Text := do
  if c.width ≤ t.length then return t
  if maxTextLength < c.width then throw .textTooLong
  if c.flag = some ('-' : CodeUnit) then return t.padRight ' ' c.width
  if c.flag = some ('0' : CodeUnit) then
    match t with
    | u :: rest =>
      if u.isDigit then return t.padLeft '0' c.width
      if u = '-' && (rest.head?.map CodeUnit.isDigit).getD false then
        return u :: Text.padLeft '0' (c.width - 1) rest
    | [] => pure ()
  return t.padLeft ' ' c.width

/-- The text of a number, or of a truth value as one or zero. -/
def numberText (letter : CodeUnit) (v : Value) (precision : Option Nat) : Eval Text := do
  let x ← match ← plain v with
    | .number x => pure x
    | .bool b => pure (if b then 1 else 0)
    | v => throw (.realRequired letter v.kind)
  if letter = 'f' then
    let places := precision.getD 6
    if 100 < places then throw .places
    return x.toFixed places
  return x.trunc.toText

/-- The value of a conversion, and how many values have been used in turn. -/
def conversionValue (c : Conversion) (mapping : Option Keyed) (args : List Value) (used : Nat) :
    Eval (Value × Nat) := do
  match c.key with
  | some key =>
    match mapping with
    | none => throw .formatWithoutMapping
    | some target =>
      match (← get).ownValue? target key with
      | some v => return (v, used)
      | none => throw (.formatKey key)
  | none =>
    match args[used]? with
    | some v => return (v, used + 1)
    | none => throw .formatTooFew

/-- The text of a conversion, and how many values have been used in turn after it. -/
def convert (c : Conversion) (mapping : Option Keyed) (args : List Value) (used : Nat) :
    Eval (Text × Nat) := do
  match c.letter with
  | none => throw .incompleteFormat
  | some letter =>
    if letter = '%' then return (['%'], used)
    if !(Text.ofString "sridf").contains letter then throw (.unknownConversion letter c.index)
    let (v, used) ← conversionValue c mapping args used
    let t ←
      if letter = 's' || letter = 'r' then do
        let t ← if letter = 's' then display v else repr v
        pure (match c.precision with
          | some n => t.take n
          | none => t)
      else numberText letter v c.precision
    return (← padTo c t, used)

/-- The values that a format uses in turn. -/
def formatArguments (values : Value) : Eval (List Value) :=
  match values with
  | .list id => read (·.list id)
  | v => return [v]

/-- The format filled in with a list of values, or with a single one. Without a mapping all values
must be used. -/
def percentFormat (format : Text) (values : Value) : Eval Text := do
  let mapping := values.keyed?
  let args ← formatArguments values
  let (parts, used) ← (formatPieces (format.length + 1) 0 format).foldlM
    (fun ((parts, used) : List Text × Nat) piece => do
      match piece with
      | .literal t => return (t :: parts, used)
      | .conversion c =>
        let (t, used) ← convert c mapping args used
        return (t :: parts, used)) ([], 0)
  if mapping.isNone && used < args.length then throw .formatTooMany
  return parts.reverse.flatten

end Eval
end Stencil
