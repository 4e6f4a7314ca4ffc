import Stencil.Number.Integral
import Stencil.Number.Read
import Stencil.Text.Blank
import Stencil.Text.Digits
import Stencil.Value.Datum

/-!
Literals in configuration text: numbers, quoted texts, truth values, `None`, sequences in square
brackets or parentheses, and mappings. Text that is no literal stands for itself.
-/

namespace Stencil

/-- Why a text is no literal. -/
inductive LiteralCause where
  | unexpectedEnd
  | unexpected (unit : CodeUnit)
  | expected (mark : CodeUnit)
  | expectedCommaOr (close : CodeUnit)
  | notKeyword (word : Text)
  | keyNotScalar
  | unterminated
  | invalidNumber (token : Text)
  | inexactInteger (token : Text)
deriving DecidableEq, Repr

def LiteralCause.message : LiteralCause → String
  | unexpectedEnd => "unexpected end of input"
  | unexpected u => s!"unexpected '{Text.toString [u]}'"
  | expected u => s!"expected '{Text.toString [u]}'"
  | expectedCommaOr u => s!"expected ',' or '{Text.toString [u]}'"
  | notKeyword word => s!"name '{word.toString}' is not a literal"
  | keyNotScalar => "mapping keys must be scalar literals"
  | unterminated => "unterminated string"
  | invalidNumber token => s!"invalid number '{token.toString}'"
  | inexactInteger token => s!"integer '{token.toString}' cannot be represented exactly"

/-- A cause and the number of units from where it was found to the end. -/
structure LiteralStop where
  cause : LiteralCause
  remaining : Nat
deriving DecidableEq, Repr

/-- A text that is no literal, with the position of the first problem. -/
structure NotLiteral where
  cause : LiteralCause
  position : Nat
  text : Text
deriving DecidableEq, Repr

def NotLiteral.message (e : NotLiteral) : String :=
  s!"Not a literal ({e.cause.message} at position {e.position})"

namespace Literal

def stop {α : Type} (cause : LiteralCause) (rest : Text) : Except LiteralStop α :=
  .error ⟨cause, rest.length⟩

def keyword? (word : Text) : Option Datum :=
  if word = "True" || word = "true" then some (.bool true)
  else if word = "False" || word = "false" then some (.bool false)
  else if word = "None" then some .none
  else none

/-- Units that a number token may hold. -/
def isNumberUnit (u : CodeUnit) : Bool := u.isNamePart || u = '.'

/-- Length of the number token ahead. A sign belongs to it after the letter of an exponent, but not in
hexadecimal. -/
def tokenLength (hex : Bool) (previous : Option CodeUnit) : Text → Nat
  | [] => 0
  | u :: rest =>
    let afterExponent := previous = some ('e' : CodeUnit) || previous = some ('E' : CodeUnit)
    if isNumberUnit u || ((u = '+' || u = '-') && afterExponent && !hex) then 1 + tokenLength hex (some u) rest
    else 0

def startsHex : Text → Bool
  | z :: x :: _ => z = '0' && (x = 'x' || x = 'X')
  | _ => false

/-- The base of an integer with a base mark, if its digits are spelled well. -/
def markedBase? : Text → Option Nat
  | z :: m :: digits =>
    let run := match digits with
      | u :: rest => if u = '_' then rest else digits
      | [] => []
    let below (n : Nat) (u : CodeUnit) : Bool := match u.hexValue? with
      | some d => d < n
      | none => false
    if z = '0' then
      if (m = 'x' || m = 'X') && Text.isRun (below 16) run then some 16
      else if (m = 'o' || m = 'O') && Text.isRun (below 8) run then some 8
      else if (m = 'b' || m = 'B') && Text.isRun (below 2) run then some 2
      else none
    else none
  | _ => none

/-- A decimal integer without zeros in front. -/
def isDecimalInteger : Text → Bool
  | u :: rest =>
    if u = '0' then Text.isRun (· = ('0' : CodeUnit)) (u :: rest) else Text.isRun CodeUnit.isDigit (u :: rest)
  | [] => false

/-- A decimal with a point or an exponent, and with a digit before or after the point. -/
def isDecimalFraction (t : Text) : Bool :=
  let whole := t.digitsLength
  let rest := t.drop whole
  let fraction := Text.fractionLength rest
  let point :=
    if fraction != 0 then fraction else if whole != 0 && rest.head? = some ('.' : CodeUnit) then 1 else 0
  let exponent := Text.exponentLength (rest.drop point)
  (whole != 0 || fraction != 0) && point + exponent != 0 && whole + point + exponent = t.length

/-- The number that a token spells. -/
def numberOf (token : Text) : Except LiteralCause Number :=
  let digits := token.filter (· != ('_' : CodeUnit))
  let value := (Number.ofText? digits).getD .nan
  if (markedBase? token).isSome || isDecimalInteger token then
    if value.isSafeInteger then .ok value else .error (.inexactInteger token)
  else if isDecimalFraction token then .ok value
  else .error (.invalidNumber token)

def number (t : Text) : Except LiteralStop (Number × Text) :=
  let n := tokenLength (startsHex t) none t
  match numberOf (t.take n) with
  | .ok x => .ok (x, t.drop n)
  | .error cause => stop cause (t.drop n)

/-- The value of a simple escape; an escaped line break joins two lines. -/
def escape? (u : CodeUnit) : Option Text :=
  if u = 'n' then some ['\n'] else if u = 't' then some ['\t'] else if u = 'r' then some ['\r']
  else if u = '0' then some [0]
  else if u = '\\' || u = '\'' || u = '"' then some [u]
  else if u = '\n' then some []
  else none

/-- The unit written by exactly `width` hexadecimal digits. -/
def hexUnit? (width : Nat) (t : Text) : Option CodeUnit :=
  let digits := t.take width
  if digits.length = width then (Number.inBase? 16 digits).map UInt16.ofNat else none

/-- The text up to a closing quote; a line break ends it early. `skip` units belong to an escape that
was read. -/
def quotedText (quote : CodeUnit) : Nat → Text → Text → Except LiteralStop (Text × Text)
  | _, _, [] => stop .unterminated []
  | skip + 1, out, _ :: rest => quotedText quote skip out rest
  | 0, out, u :: rest =>
    if u = quote then .ok (out.reverse, rest)
    else if u = '\n' then stop .unterminated (u :: rest)
    else if u = '\\' then
      match rest with
      | [] => stop .unterminated []
      | v :: after =>
        match escape? v with
        | some t => quotedText quote 1 (t.reverse ++ out) rest
        | none =>
          let width := if v = 'x' then 2 else if v = 'u' then 4 else 0
          match if width = 0 then none else hexUnit? width after with
          | some w => quotedText quote (1 + width) (w :: out) rest
          | none => quotedText quote 0 (u :: out) rest
    else quotedText quote 0 (u :: out) rest

/-- Passes over a mark. -/
def expect (mark : CodeUnit) (t : Text) : Except LiteralStop Text :=
  match t with
  | u :: rest => if u = mark then .ok rest else stop (.expected mark) t
  | [] => stop (.expected mark) t

/-- The text of a key; containers are no keys. -/
def keyText? : Datum → Option Text
  | .none => some (Text.ofString "null")
  | .bool b => some (Text.ofString (if b then "true" else "false"))
  | .number x => some x.toText
  | .text t => some t
  | .list _ | .mapping _ => none

mutual

/-- The literal ahead. -/
def value : Nat → Text → Except LiteralStop (Datum × Text)
  | 0, t => stop .unexpectedEnd t
  | fuel + 1, t =>
    let t := t.trimLeft
    match t with
    | [] => stop .unexpectedEnd t
    | u :: rest => do
      if u = '[' then
        let (items, rest) ← sequence ']' fuel [] rest
        return (.list items, rest)
      else if u = '(' then parenthesized fuel rest
      else if u = '\x7b' then
        let (entries, rest) ← mapping fuel [] rest
        return (Datum.mappingOf entries, rest)
      else if u = '\'' || u = '"' then
        let (t, rest) ← quotedText u 0 [] rest
        return (.text t, rest)
      else if u = '-' || u = '+' then
        let (x, rest) ← number (Text.trimLeft rest)
        return (.number (if u = '-' then -x else x), rest)
      else if u.isDigit || u = '.' then
        let (x, rest) ← number t
        return (.number x, rest)
      else if u.isNameStart then
        let word := t.takeWhile CodeUnit.isNamePart
        let rest := t.drop word.length
        match keyword? word with
        | some d => return (d, rest)
        | none => stop (.notKeyword word) rest
      else stop (.unexpected u) t

/-- Items up to a closing mark; `done` holds those before, backwards. -/
def sequence (close : CodeUnit) : Nat → List Datum → Text → Except LiteralStop (List Datum × Text)
  | 0, _, t => stop .unexpectedEnd t
  | fuel + 1, done, t => do
    let t := t.trimLeft
    if t.head? = some close then return (done.reverse, t.drop 1)
    let (d, t) ← value fuel t
    let t := t.trimLeft
    match t with
    | u :: rest =>
      if u = ',' then sequence close fuel (d :: done) rest
      else if u = close then return ((d :: done).reverse, rest)
      else stop (.expectedCommaOr close) t
    | [] => stop (.expectedCommaOr close) t

/-- What follows an opening parenthesis: one literal, or the items of a sequence. -/
def parenthesized : Nat → Text → Except LiteralStop (Datum × Text)
  | 0, t => stop .unexpectedEnd t
  | fuel + 1, t => do
    let t := t.trimLeft
    if t.head? = some (')' : CodeUnit) then return (.list [], t.drop 1)
    let (first, t) ← value fuel t
    let t := t.trimLeft
    if t.head? = some (')' : CodeUnit) then return (first, t.drop 1)
    let t ← expect ',' t
    let (items, t) ← sequence ')' fuel [first] t
    return (.list items, t)

/-- Entries up to a closing brace; `done` holds those before, backwards. -/
def mapping : Nat → List (Text × Datum) → Text → Except LiteralStop (List (Text × Datum) × Text)
  | 0, _, t => stop .unexpectedEnd t
  | fuel + 1, done, t => do
    let t := t.trimLeft
    if t.head? = some ('\x7d' : CodeUnit) then return (done.reverse, t.drop 1)
    let (key, t) ← value fuel t
    match keyText? key with
    | none => stop .keyNotScalar t
    | some key =>
      let t ← expect ':' t.trimLeft
      let (d, t) ← value fuel t
      let t := t.trimLeft
      let done := (key, d) :: done
      match t with
      | u :: rest =>
        if u = ',' then mapping fuel done rest
        else if u = '\x7d' then return (done.reverse, rest)
        else stop (.expectedCommaOr '\x7d') t
      | [] => stop (.expectedCommaOr '\x7d') t

end

/-- The literal that a text is. -/
def parse (text : Text) : Except NotLiteral Datum :=
  let locate (e : LiteralStop) : NotLiteral := ⟨e.cause, text.length - e.remaining, text⟩
  match value (2 * text.length + 2) text with
  | .error e => .error (locate e)
  | .ok (d, rest) =>
    match rest.trimLeft with
    | [] => .ok d
    | u :: rest => .error (locate ⟨.unexpected u, rest.length + 1⟩)

/-- The literal that a text is, or the text itself. -/
def infer (text : Text) : Datum :=
  match parse text with
  | .ok d => d
  | .error _ => .text text

end Literal
end Stencil
