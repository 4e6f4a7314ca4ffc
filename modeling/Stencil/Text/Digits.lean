import Stencil.Text.Basic

/-!
Runs of digits as numbers are spelled with them: a single underscore may stand between two digits.
-/

namespace Stencil.Text

/-- Length of the run of digits ahead, where `p` tells what a digit is. -/
def runLength (p : CodeUnit → Bool) : Text → Nat
  | [] => 0
  | [u] => if p u then 1 else 0
  | u :: v :: rest =>
    if p u then
      if v = '_' && (match rest with | w :: _ => p w | [] => false) then 2 + runLength p rest
      else 1 + runLength p (v :: rest)
    else 0

/-- Length of the run of decimal digits ahead. -/
def digitsLength (t : Text) : Nat := runLength CodeUnit.isDigit t

/-- Length of a decimal part ahead: a point and digits. -/
def fractionLength : Text → Nat
  | u :: rest => if u = '.' && digitsLength rest != 0 then 1 + digitsLength rest else 0
  | [] => 0

/-- Length of an exponent ahead: `e`, an optional sign and digits. -/
def exponentLength : Text → Nat
  | u :: rest =>
    if u = 'e' || u = 'E' then
      let sign := match rest with
        | v :: _ => if v = '+' || v = '-' then 1 else 0
        | [] => 0
      let digits := digitsLength (rest.drop sign)
      if digits = 0 then 0 else 1 + sign + digits
    else 0
  | [] => 0

/-- Whether a text is one run of digits. -/
def isRun (p : CodeUnit → Bool) (t : Text) : Bool := !t.isEmpty && runLength p t = t.length

end Stencil.Text
