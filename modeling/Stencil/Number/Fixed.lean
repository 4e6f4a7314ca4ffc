import Stencil.Number.Shortest

/-!
Numbers with a fixed count of decimal places. The magnitude is rounded to the nearest multiple of the
last place, a half goes up, and numbers from 10^21 on keep their ordinary text.
-/

namespace Stencil.Number

/-- The sign is written for every number below zero, also when all places are zero. -/
def toFixed (places : Nat) : Number → Text
  | finite s g =>
    if Nat.pow 10 21 * unit ≤ g then toText (finite s g)
    else
      let n := (2 * (g * Nat.pow 10 places) + unit) / (2 * unit)
      let digits := Text.padLeft '0' (places + 1) (Text.ofNat n)
      let cut := digits.length - places
      (if s && g != 0 then Text.ofString "-" else []) ++ digits.take cut ++
        (if places = 0 then [] else ('.' : CodeUnit) :: digits.drop cut)
  | x => toText x

end Stencil.Number
