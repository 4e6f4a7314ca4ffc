import Stencil.Number.Integral

/-!
Powers, to within seven tenths of the last place. The binary logarithm of the base and its product with
the exponent are each kept as a head with few significant bits, whose products are exact, and a tail
that holds the rest. The power is the whole part of that product as a power of two, times the
exponential of what is left. Exponents one, two and a half have operations of their own.
-/

namespace Stencil.Number

/-- A number from its 64-bit encoding: sign, eleven bits of exponent and the significand. -/
def ofBits (bits : Nat) : Number :=
  let exponent := bits / Nat.pow 2 52 % 2048
  let significand := bits % Nat.pow 2 52
  let negative := bits / Nat.pow 2 63 = 1
  if exponent = 2047 then (if significand = 0 then infinity negative else nan)
  else if exponent = 0 then finite negative significand
  else finite negative ((Nat.pow 2 52 + significand) * Nat.pow 2 (exponent - 1))

/-- The power of two that a positive count of grains is at least. -/
def exponentOf (grains : Nat) : Int := grains.log2 - 1074

/-- A number with the `count` lowest of its 53 significant bits cleared. -/
def clearLow (count : Nat) : Number → Number
  | finite s g =>
    let step := Nat.pow 2 (g.log2 - 52 + count)
    finite s (g / step * step)
  | x => x

/-- The 21 leading bits of a number. -/
def head : Number → Number := clearLow 32

/-- A number times a power of two. -/
def scale (x : Number) (n : Int) : Number :=
  match x with
  | finite s g =>
    if 0 ≤ n then ofGrains s (g * Nat.pow 2 n.toNat) 1 else ofGrains s g (Nat.pow 2 (-n).toNat)
  | x => x

/-- The square root, rounded once; negative numbers have none. -/
def sqrt : Number → Number
  | nan => nan
  | infinity s => if s then nan else infinity false
  | finite s g =>
    if g = 0 then finite s 0
    else if s then nan
    else
      let square := g * unit * Nat.pow 2 128
      let root := Nat.sqrt square
      ofGrains false (2 * root + (if root * root = square then 0 else 1)) (Nat.pow 2 65)

/-- A value as the sum of a leading part and a small rest. -/
structure Split where
  head : Number
  tail : Number
deriving DecidableEq, Repr

/-- The value of a polynomial, its coefficients in rising order. -/
def polynomial (x : Number) : List Number → Number
  | [] => 0
  | [c] => c
  | c :: cs => c + x * polynomial x cs

namespace Log

/-- Coefficients of the logarithm of `(1 + s) / (1 - s)`, less its first terms. -/
def coefficients : List Number :=
  [ofBits 0x3FE3333333333303, ofBits 0x3FDB6DB6DB6FABFF, ofBits 0x3FD55555518F264D,
    ofBits 0x3FD17460A91D4101, ofBits 0x3FCD864A93C9DB65, ofBits 0x3FCA7E284A454EEF]

/-- Two thirds of the binary logarithm of e. -/
def factor : Number := ofBits 0x3FEEC709DC3A03FD

def factorSplit : Split := ⟨ofBits 0x3FEEC709E0000000, ofBits 0xBE3E2FE0145B01F5⟩

/-- The binary logarithm of e. -/
def ofE : Number := ofBits 0x3FF71547652B82FE

def ofESplit : Split := ⟨ofBits 0x3FF7154760000000, ofBits 0x3E54AE0BF85DDF44⟩

/-- The binary logarithm of three halves. -/
def ofThreeHalves : Split := ⟨ofBits 0x3FE2B80340000000, ofBits 0x3E4CFDEB43CFD006⟩

def half : Number := ofBits 0x3FE0000000000000

def threeHalves : Number := ofBits 0x3FF8000000000000

/-- The binary logarithm of a number within a millionth of one. -/
def nearOne (x : Number) : Split :=
  let t := x - 1
  let w := t * t * (half - t * (ofBits 0x3FD5555555555555 - t * ofBits 0x3FD0000000000000))
  let u := ofESplit.head * t
  let v := t * ofESplit.tail - w * ofE
  let leading := (u + v).head
  ⟨leading, v - (leading - u)⟩

/-- The binary logarithm of `x`, near a pivot whose own logarithm is `offset`, times `2 ^ n`. -/
def nearPivot (x pivot : Number) (offset : Split) (n : Int) : Split :=
  let u := x - pivot
  let v := 1 / (x + pivot)
  let quotient := u * v
  let lead := quotient.head
  let sum := (x.head + pivot).head
  let rest := v * ((u - lead * sum) - lead * (x - (sum - pivot)))
  let square := quotient * quotient
  let series := square * square * polynomial square coefficients + rest * (lead + quotient)
  let square := lead * lead
  let three := (3 + square + series).head
  let u := lead * three
  let v := rest * three + (series - ((three - 3) - square)) * quotient
  let sum := (u + v).head
  let zHead := factorSplit.head * sum
  let zTail := factorSplit.tail * sum + (v - (sum - u)) * factor + offset.tail
  let n := ofInt n
  let result := (((zHead + zTail) + offset.head) + n).head
  ⟨result, zTail - (((result - n) - offset.head) - zHead)⟩

/-- The binary logarithm of a positive count of grains. The number is a power of two times one that is
near one or near three halves. -/
def ofGrains (grains : Nat) : Split :=
  let n := exponentOf grains
  let x := scale (finite false grains) (-n)
  if x.head.le (ofBits 0x3FF3988E00000000) then nearPivot x 1 ⟨0, 0⟩ n
  else if x.head.lt (ofBits 0x3FFBB67A00000000) then nearPivot x threeHalves ofThreeHalves n
  else nearPivot (scale x (-1)) 1 ⟨0, 0⟩ (n + 1)

end Log

namespace Exp

/-- Coefficients of the correction to the exponential. -/
def coefficients : List Number :=
  [ofBits 0x3FC555555555553E, ofBits 0xBF66C16C16BEBD93, ofBits 0x3F11566AAF25DE2C,
    ofBits 0xBEBBBD41C5D26BF1, ofBits 0x3E66376972BEA4D0]

/-- The natural logarithm of two. -/
def logTwo : Number := ofBits 0x3FE62E42FEFA39EF

def logTwoSplit : Split := ⟨ofBits 0x3FE62E4300000000, ofBits 0xBE205C610CA86C39⟩

/-- Half a place of the largest finite number, in terms of its logarithm. -/
def margin : Number := ofBits 0x3C971547652B82FE

/-- Two to the power of a split value. -/
def ofSplit (p : Split) : Number :=
  let z := p.tail + p.head
  let slack := z - p.head
  if (1024 : Number).lt z || (z.eq 1024 && slack.lt (p.tail + margin)) then infinity false
  else if z.lt (-1075) || (z.eq (-1075) && p.tail.le slack) then finite false 0
  else
    let whole := if z.abs.head.le (ofBits 0x3FE0000000000000) then 0 else z.sign * z.abs.round
    let lead := p.head - whole
    let t := (p.tail + lead).head
    let u := t * logTwoSplit.head
    let v := (p.tail - (t - lead)) * logTwo + t * logTwoSplit.tail
    let z := u + v
    let w := v - (z - u)
    let square := z * z
    let t := z - square * polynomial square coefficients
    let r := z * t / ((t - 2) - (w + z * w))
    scale (1 - (r - z)) (whole.toInt?.getD 0)

end Exp

/-- The power of a positive finite number other than one, for a finite exponent. Beyond 2^31 only bases
close to one have a power that is neither zero nor infinite. -/
def positivePower (grains : Nat) (y : Number) : Number :=
  let x := finite false grains
  let large := (ofBits 0x41E0000000000000).lt y.abs.head
  if large && x.lt (ofBits 0x3FEFFFFF00000000) then (if y.isNegative then infinity false else 0)
  else if large && (ofBits 0x3FF00000FFFFFFFF).lt x then (if y.isNegative then 0 else infinity false)
  else
    let log := if large then Log.nearOne x else Log.ofGrains grains
    let lead := y.head
    Exp.ofSplit ⟨lead * log.head, (y - lead) * log.head + y * log.tail⟩

def isOddInteger (x : Number) : Bool :=
  match x.toInt? with
  | some n => n % 2 != 0
  | none => false

/-- The power of a base that is not zero. Negative bases need an integral exponent. -/
def finitePower (negative : Bool) (grains : Nat) (y : Number) : Number :=
  let x := finite negative grains
  if y.eq 1 then x
  else if y.eq (-1) then 1 / x
  else if y.eq 2 then x * x
  else if y.eq Log.half && !negative then x.sqrt
  else if negative && !y.isInteger then nan
  else
    let power := if grains = unit then 1 else positivePower grains y
    if negative && isOddInteger y then -power else power

/-- Anything to the power of zero is one, and one and minus one have no infinite powers. -/
def pow (x y : Number) : Number :=
  match x, y with
  | _, nan => nan
  | x, finite s h =>
    if h = 0 then 1
    else
      let odd := isOddInteger (finite s h)
      match x with
      | nan => nan
      | infinity t => if s then finite (t && odd) 0 else infinity (t && odd)
      | finite t g =>
        if g = 0 then (if s then infinity (t && odd) else finite (t && odd) 0)
        else finitePower t g (finite s h)
  | x, infinity s =>
    match x with
    | nan => nan
    | infinity _ => if s then finite false 0 else infinity false
    | finite _ g => if g = unit then nan else if (unit < g) != s then infinity false else finite false 0

end Stencil.Number
