import Stencil.Number.Shortest
import Stencil.Text.Blank

/-!
Reading numbers from text. The value of a decimal is rounded once, from all its digits.
-/

namespace Stencil.Number

/-- The number nearest to a decimal. Decimals far outside the range of numbers are decided by their
size alone. -/
def ofDecimal (negative : Bool) (d : Decimal) : Number :=
  if d.digits = 0 then finite negative 0
  else
    let point := d.exponent + digitCount d.digits
    if 310 < point then infinity negative
    else if point < -330 then finite negative 0
    else ofRatio negative d.ratio.1 d.ratio.2

/-- The leading digits and the rest. -/
def spanDigits (t : Text) : Text × Text := (t.takeWhile CodeUnit.isDigit, t.dropWhile CodeUnit.isDigit)

/-- The exponent part at the start of a text: `e` or `E`, an optional sign, digits. -/
def exponent? : Text → Option (Int × Text)
  | [] => some (0, [])
  | u :: rest =>
    if u = 'e' || u = 'E' then
      let (negative, rest) := match rest with
        | v :: r => if v = '-' then (true, r) else if v = '+' then (false, r) else (false, rest)
        | [] => (false, [])
      let (digits, rest) := spanDigits rest
      if digits.isEmpty then none
      else
        let n : Int := Text.digitsValue digits
        some (if negative then -n else n, rest)
    else some (0, u :: rest)

/-- An unsigned decimal: digits with an optional point and at least one digit on either side of it,
then an optional exponent. -/
def decimal? (t : Text) : Option Decimal :=
  let (whole, rest) := spanDigits t
  let (fraction, rest) := match rest with
    | u :: r => if u = '.' then spanDigits r else ([], rest)
    | [] => ([], [])
  if whole.isEmpty && fraction.isEmpty then none
  else match exponent? rest with
    | some (e, []) => some ⟨Text.digitsValue (whole ++ fraction), e - fraction.length⟩
    | _ => none

/-- The value of digits in a base up to sixteen; nothing if one of them is not a digit of it. -/
def inBase? (base : Nat) (t : Text) : Option Nat :=
  if t.isEmpty then none
  else t.foldl (fun n u => do
    let n ← n
    let d ← u.hexValue?
    if d < base then some (n * base + d) else none) (some 0)

/-- An unsigned integer with a base mark, `0x`, `0o` or `0b` in either case. -/
def marked? : Text → Option Number
  | z :: m :: digits =>
    if z = '0' then
      if m = 'x' || m = 'X' then (inBase? 16 digits).map ofNat
      else if m = 'o' || m = 'O' then (inBase? 8 digits).map ofNat
      else if m = 'b' || m = 'B' then (inBase? 2 digits).map ofNat
      else none
    else none
  | _ => none

/-- A decimal without digits beyond its sign is infinite if it is spelled out. -/
def unsigned? (negative : Bool) (t : Text) : Option Number :=
  if t = "Infinity" then some (infinity negative) else (decimal? t).map (ofDecimal negative)

/-- The number written by a text without blanks around it: an integer with a base mark, or a decimal
or `Infinity` with an optional sign. -/
def ofText? (t : Text) : Option Number :=
  match marked? t with
  | some x => some x
  | none => match t with
    | u :: rest =>
      if u = '-' then unsigned? true rest else if u = '+' then unsigned? false rest else unsigned? false t
    | [] => none

end Stencil.Number
