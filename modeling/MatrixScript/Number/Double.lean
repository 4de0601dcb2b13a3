/-! Doubles and the exact numbers they stand for. -/
namespace MatrixScript.Number

/-- The quotient rounded to the nearest whole number, a half to the even neighbour. -/
def roundDiv (num den : Nat) : Nat :=
  let whole := num / den
  let rest := num % den
  if 2 * rest < den then whole
  else if den < 2 * rest then whole + 1
  else whole + whole % 2

/-- `n * 2 ^ e`, which is a whole number for the exponents it is used with. -/
def shift (n : Nat) (e : Int) : Nat := n <<< e.toNat

/-- The greatest `e` with `2 ^ e ≤ num / den`, for positive numbers. -/
def binaryExponent (num den : Nat) : Int :=
  let guess := (num.log2 : Int) - den.log2
  if shift den guess ≤ shift num (-guess) then guess else guess - 1

/-- The bits of infinity, which stand above those of all finite doubles. -/
def infinityBits : Nat := 0x7FF <<< 52

/-- The bits of the double nearest to a quotient, ties to even. Below the least normal double the
last place stays where it is, and what is too large becomes infinite. -/
def roundToBits (num den : Nat) : Nat :=
  if num = 0 then 0
  else
    let unit := max (binaryExponent num den - 52) (-1074)
    let mantissa := roundDiv (shift num (-unit)) (shift den unit)
    min ((unit + 1074).toNat <<< 52 + mantissa) infinityBits

def signBit : Nat := 1 <<< 63

def ofBits (negative : Bool) (bits : Nat) : Float :=
  Float.ofBits (UInt64.ofNat (if negative then signBit + bits else bits))

/-- The double nearest to a whole number; none where that is not finite. -/
def ofInt? (n : Int) : Option Float :=
  let bits := roundToBits n.natAbs 1
  if bits < infinityBits then some (ofBits (n < 0) bits) else none

/-- Far beyond the decimal exponents of all doubles. -/
private def exponentBound : Int := 400

/-- The double nearest to `mantissa * 10 ^ exponent`. -/
def ofDecimal (negative : Bool) (mantissa : Nat) (exponent : Int) : Float :=
  let magnitude := exponent + (toString mantissa).length
  ofBits negative <|
    if mantissa = 0 || magnitude < -exponentBound then 0
    else if exponentBound < magnitude then infinityBits
    else roundToBits (mantissa * Nat.pow 10 exponent.toNat) (Nat.pow 10 (-exponent).toNat)

def infinity (negative : Bool) : Float := ofBits negative infinityBits

def notANumber : Float := ofBits false (infinityBits + 1 <<< 51)

/-- A finite double as `m * 2 ^ e`. -/
def decode? (x : Float) : Option (Int × Int) :=
  let bits := x.toBits.toNat
  let exponent : Nat := (bits >>> 52) % 0x800
  let fraction : Nat := bits % 1 <<< 52
  let signed (m : Nat) : Int := if signBit ≤ bits then -m else m
  if exponent = 0x7FF then none
  else if exponent = 0 then some (signed fraction, -1074)
  else some (signed (1 <<< 52 + fraction), exponent - 1075)

/-- The whole number that a double stands for, if it stands for one. -/
def toInt? (x : Float) : Option Int := do
  let (m, e) ← decode? x
  let den : Int := shift 1 (-e)
  if m % den = 0 then some (m / den * shift 1 e) else none

end MatrixScript.Number
