import Stencil.Number.Basic

/-!
Integers among the numbers, and the ways to round a number to one. Results keep the sign of their
argument, so small negative numbers round to minus zero.
-/

namespace Stencil.Number

def isInteger : Number → Bool
  | finite _ g => g % unit == 0
  | _ => false

/-- The value of an integral number. -/
def toInt? : Number → Option Int
  | finite s g => if g % unit = 0 then some (signed s (g / unit)) else none
  | _ => none

/-- Integers up to 2^53 - 1 in magnitude, each the only one that is read as itself. -/
def isSafeInteger (x : Number) : Bool :=
  match x.toInt? with
  | some n => n.natAbs ≤ Nat.pow 2 53 - 1
  | none => false

/-- Drops the fraction. -/
def trunc : Number → Number
  | finite s g => finite s (g / unit * unit)
  | x => x

def floor : Number → Number
  | finite s g => finite s ((if s then (g + (unit - 1)) / unit else g / unit) * unit)
  | x => x

def ceil : Number → Number
  | finite s g => finite s ((if s then g / unit else (g + (unit - 1)) / unit) * unit)
  | x => x

/-- The nearest integer; a half goes up, toward positive infinity. -/
def round : Number → Number
  | finite s g => finite s ((2 * g + (if s then unit - 1 else unit)) / (2 * unit) * unit)
  | x => x

/-- One with the sign of a nonzero number; zeros and NaN stay. -/
def sign : Number → Number
  | nan => nan
  | infinity s => if s then -1 else 1
  | finite s g => if g = 0 then finite s 0 else if s then -1 else 1

/-- A position in a sequence of `length` items: the fraction is dropped, negative positions count
from the end, and everything is held between the two ends. NaN and all that lies less than one below
zero are the start. -/
def position (length : Nat) : Number → Nat
  | nan => 0
  | infinity s => if s then 0 else length
  | finite s g =>
    let n := g / unit
    if s && n != 0 then length - n else min n length

end Stencil.Number
