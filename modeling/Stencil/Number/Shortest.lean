import Stencil.Number.Basic
import Stencil.Text.Basic

/-!
The text of a number: the fewest significant digits that read back as the same number, and of those
the nearest to it. Positional notation is used from 10^-6 up to below 10^21.
-/

namespace Stencil.Number

/-- The decimal `digits · 10^exponent`. -/
structure Decimal where
  digits : Nat
  exponent : Int
deriving DecidableEq, Repr

/-- The decimal as a quotient of natural numbers. -/
def Decimal.ratio (d : Decimal) : Nat × Nat :=
  match d.exponent with
  | .ofNat e => (d.digits * Nat.pow 10 e, 1)
  | .negSucc e => (d.digits, Nat.pow 10 (e + 1))

/-- The count of grains that a decimal reads as. -/
def Decimal.grains (d : Decimal) : Nat := nearest (d.ratio.1 * unit) d.ratio.2

def digitCount (n : Nat) : Nat := (Nat.toDigits 10 n).length

/-- The number of zeros between the point and the first digit of `grains / unit`, which is below one;
`fuel` bounds the search. -/
def leadingZeros (grains : Nat) : Nat → Nat
  | 0 => 0
  | fuel + 1 => if unit ≤ grains * 10 then 0 else leadingZeros (grains * 10) fuel + 1

/-- The exponent `p` with `10^(p-1) ≤ grains / unit < 10^p`. -/
def decimalPoint (grains : Nat) : Int :=
  if unit ≤ grains then digitCount (grains / unit) else -leadingZeros grains 400

/-- The better of the two neighbours of `grains / unit` on the grid of `count` digits, if one of them
reads back. -/
def onGrid (grains : Nat) (point : Int) (count : Nat) : Option Decimal :=
  let exponent := point - count
  let scaled := match exponent with
    | .ofNat e => (grains, unit * Nat.pow 10 e)
    | .negSucc e => (grains * Nat.pow 10 (e + 1), unit)
  let low := scaled.1 / scaled.2
  let below : Decimal := ⟨low, exponent⟩
  let above : Decimal := ⟨low + 1, exponent⟩
  match below.grains == grains, above.grains == grains with
  | false, false => none
  | true, false => some below
  | false, true => some above
  | true, true => some (if roundDiv scaled.1 scaled.2 = low then below else above)

/-- Removes zeros at the end of the digits. -/
def Decimal.strip (d : Decimal) : Nat → Decimal
  | 0 => d
  | fuel + 1 => if d.digits % 10 = 0 then Decimal.strip ⟨d.digits / 10, d.exponent + 1⟩ fuel else d

/-- The shortest decimal that reads as the positive count of grains; 17 digits always suffice. -/
def shortest (grains : Nat) : Decimal :=
  let point := decimalPoint grains
  let found := (List.range 17).findSome? fun n => onGrid grains point (n + 1)
  (found.getD ⟨grains, 0⟩).strip 20

/-- Digits written positionally when the point falls into `-6 < point ≤ 21`, with an exponent
otherwise. -/
def Decimal.toText (d : Decimal) : Text :=
  let digits := Text.ofNat d.digits
  let count : Int := digits.length
  let point := d.exponent + count
  if count ≤ point && point ≤ 21 then digits ++ List.replicate (point - count).toNat ('0' : CodeUnit)
  else if 0 < point && point ≤ 21 then
    digits.take point.toNat ++ ('.' : CodeUnit) :: digits.drop point.toNat
  else if -6 < point && point ≤ 0 then
    Text.ofString "0." ++ List.replicate (-point).toNat ('0' : CodeUnit) ++ digits
  else
    let e := point - 1
    let tail := digits.drop 1
    digits.take 1 ++ (if tail.isEmpty then [] else ('.' : CodeUnit) :: tail) ++
      Text.ofString (if e < 0 then "e-" else "e+") ++ Text.ofNat e.natAbs

/-- Integers below 2^53 have no shorter text than all their digits. The sign of minus zero is not
written. -/
def toText : Number → Text
  | nan => Text.ofString "NaN"
  | infinity s => Text.ofString (if s then "-Infinity" else "Infinity")
  | finite s g =>
    let sign := if s && g != 0 then Text.ofString "-" else []
    if g % unit = 0 && g / unit < Nat.pow 2 53 then sign ++ Text.ofNat (g / unit)
    else sign ++ (shortest g).toText

end Stencil.Number
