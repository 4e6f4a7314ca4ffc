/-!
Binary floating point with 53 significant bits. A finite number is a sign and a count of grains,
where a grain is the smallest positive step, 2^-1074; both zeros exist. Every operation computes its
exact result as a quotient of natural numbers and rounds it once, to the nearest representable
count, ties to even.
-/

namespace Stencil

inductive Number where
  | nan
  | infinity (negative : Bool)
  | finite (negative : Bool) (grains : Nat)
deriving DecidableEq, Repr, Inhabited

namespace Number

/-- Grains in one. -/
def unit : Nat := Nat.pow 2 1074

/-- Least count of grains beyond every finite number. -/
def limit : Nat := Nat.pow 2 2098

/-- The integer nearest to `num / den`, ties to even. -/
def roundDiv (num den : Nat) : Nat :=
  let q := num / den
  let twice := 2 * (num % den)
  if twice < den then q else if den < twice then q + 1 else q + q % 2

/-- The integer with at most 53 significant bits nearest to `num / den`, ties to even. -/
def nearest (num den : Nat) : Nat :=
  let shift := (num / den).log2 - 52
  roundDiv num (den * Nat.pow 2 shift) * Nat.pow 2 shift

/-- A number from an exact count of grains. -/
def ofGrains (negative : Bool) (num den : Nat) : Number :=
  let grains := nearest num den
  if grains < limit then finite negative grains else infinity negative

/-- The number nearest to `± num / den`. -/
def ofRatio (negative : Bool) (num den : Nat) : Number := ofGrains negative (num * unit) den

def ofNat (n : Nat) : Number := ofRatio false n 1

def ofInt (n : Int) : Number := ofRatio (n < 0) n.natAbs 1

instance (n : Nat) : OfNat Number n := ⟨ofNat n⟩

/-- A finite number as a signed count of grains. -/
def signed (negative : Bool) (grains : Nat) : Int := if negative then -grains else grains

def isNaN (x : Number) : Bool := x == nan

/-- Neither zero, of either sign, nor NaN. -/
def isNonzero : Number → Bool
  | nan => false
  | infinity _ => true
  | finite _ g => g != 0

/-- Below zero; minus zero is not. -/
def isNegative : Number → Bool
  | nan => false
  | infinity s => s
  | finite s g => s && g != 0

def neg : Number → Number
  | nan => nan
  | infinity s => infinity !s
  | finite s g => finite (!s) g

instance : Neg Number := ⟨neg⟩

def abs : Number → Number
  | nan => nan
  | infinity _ => infinity false
  | finite _ g => finite false g

/-- A sum that cancels is plus zero, unless both terms are minus zero. -/
def add : Number → Number → Number
  | nan, _ => nan
  | _, nan => nan
  | infinity s, infinity t => if s = t then infinity s else nan
  | infinity s, finite _ _ => infinity s
  | finite _ _, infinity t => infinity t
  | finite s g, finite t h =>
    let sum := signed s g + signed t h
    if sum = 0 then finite (s && t) 0 else ofGrains (sum < 0) sum.natAbs 1

instance : Add Number := ⟨add⟩

def sub (x y : Number) : Number := x + -y

instance : Sub Number := ⟨sub⟩

def mul : Number → Number → Number
  | nan, _ => nan
  | _, nan => nan
  | infinity s, infinity t => infinity (s != t)
  | infinity s, finite t h => if h = 0 then nan else infinity (s != t)
  | finite s g, infinity t => if g = 0 then nan else infinity (s != t)
  | finite s g, finite t h => ofGrains (s != t) (g * h) unit

instance : Mul Number := ⟨mul⟩

def div : Number → Number → Number
  | nan, _ => nan
  | _, nan => nan
  | infinity _, infinity _ => nan
  | infinity s, finite t _ => infinity (s != t)
  | finite s _, infinity t => finite (s != t) 0
  | finite s g, finite t h =>
    if h = 0 then (if g = 0 then nan else infinity (s != t)) else ofGrains (s != t) (g * unit) h

instance : Div Number := ⟨div⟩

/-- Remainder of the division that drops the fraction; its sign is the sign of the dividend. -/
def rem : Number → Number → Number
  | nan, _ => nan
  | _, nan => nan
  | infinity _, _ => nan
  | finite s g, infinity _ => finite s g
  | finite s g, finite _ h => if h = 0 then nan else finite s (g % h)

instance : Mod Number := ⟨rem⟩

/-- Numerical equality: zeros are equal, NaN equals nothing. -/
def eq : Number → Number → Bool
  | nan, _ => false
  | _, nan => false
  | infinity s, infinity t => s == t
  | finite s g, finite t h => signed s g == signed t h
  | _, _ => false

/-- Strictly smaller; false whenever NaN takes part. -/
def lt : Number → Number → Bool
  | nan, _ => false
  | _, nan => false
  | infinity s, infinity t => s && !t
  | infinity s, finite _ _ => s
  | finite _ _, infinity t => !t
  | finite s g, finite t h => signed s g < signed t h

def le (x y : Number) : Bool := x.lt y || x.eq y

end Number
end Stencil
