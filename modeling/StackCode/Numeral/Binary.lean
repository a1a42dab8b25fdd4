namespace StackCode

def twoPow (n : Nat) : Nat := Nat.pow 2 n

def tenPow (n : Nat) : Nat := Nat.pow 10 n

/-- A format by its significand bits, the leading one included, and its exponent bits. -/
structure FloatFormat where
  precision : Nat
  exponentBits : Nat

namespace FloatFormat

def single : FloatFormat := ⟨24, 8⟩

def double : FloatFormat := ⟨53, 11⟩

/-- The pattern of positive infinity. The finite magnitudes are the patterns below it. -/
def infinity (f : FloatFormat) : Nat :=
  (twoPow f.exponentBits - 1) * twoPow (f.precision - 1)

def signBit (f : FloatFormat) : Nat :=
  twoPow (f.exponentBits + f.precision - 1)

def leastExponent (f : FloatFormat) : Int :=
  3 - twoPow (f.exponentBits - 1) - f.precision

end FloatFormat

def roundHalfEven (num den : Nat) : Nat :=
  let q := num / den
  let r := num % den
  if 2 * r < den then q else if den < 2 * r then q + 1 else q + q % 2

def scaleDown (num den : Nat) (s : Int) : Nat × Nat :=
  (num * twoPow (-s).toNat, den * twoPow s.toNat)

def floorLogTwo (num den : Nat) : Int :=
  let e : Int := num.log2 - den.log2
  let (a, b) := scaleDown num den e
  if a < b then e - 1 else e

namespace FloatFormat

def nearest (f : FloatFormat) (num den : Nat) : Nat :=
  if num = 0 then 0
  else
    let q := max f.leastExponent (floorLogTwo num den - (f.precision - 1))
    let (a, b) := scaleDown num den q
    min f.infinity ((q - f.leastExponent).toNat * twoPow (f.precision - 1) + roundHalfEven a b)

end FloatFormat

structure Binary (f : FloatFormat) where
  bits : Nat
deriving DecidableEq

abbrev Binary32 := Binary .single

abbrev Binary64 := Binary .double

inductive Magnitude where
  | nan
  | infinite
  | finite (m : Nat) (q : Int)
deriving DecidableEq

namespace Binary

variable {f g : FloatFormat}

def negative (x : Binary f) : Bool :=
  f.signBit ≤ x.bits

def magnitude (x : Binary f) : Magnitude :=
  let p := x.bits % f.signBit
  let e := p / twoPow (f.precision - 1)
  let r := p % twoPow (f.precision - 1)
  if f.infinity < p then .nan
  else if p = f.infinity then .infinite
  else if e = 0 then .finite r f.leastExponent
  else .finite (twoPow (f.precision - 1) + r) (f.leastExponent + e - 1)

def ofMagnitude (negative : Bool) (pattern : Nat) : Binary f :=
  ⟨(if negative then f.signBit else 0) + pattern⟩

def zero : Binary f := ⟨0⟩

def ofRatio (negative : Bool) (num den : Nat) : Binary f :=
  ofMagnitude negative (f.nearest num den)

def ofInt (v : Int) : Binary f :=
  ofRatio (v < 0) v.natAbs 1

def convert (x : Binary f) : Binary g :=
  match x.magnitude with
  | .nan => ofMagnitude x.negative (g.infinity + twoPow (g.precision - 2))
  | .infinite => ofMagnitude x.negative g.infinity
  | .finite m q => ofRatio x.negative (m * twoPow q.toNat) (twoPow (-q).toNat)

/-- The number nearest to `digits · 10 ^ e`. Quotients far outside the range of the format are not
computed. -/
def ofDecimal (negative : Bool) (digits : Nat) (e : Int) : Binary f :=
  let size := e + (Nat.toDigits 10 digits).length
  if digits = 0 then ofMagnitude negative 0
  else if twoPow f.exponentBits < size then ofMagnitude negative f.infinity
  else if size < -(twoPow f.exponentBits : Int) then ofMagnitude negative 0
  else ofRatio negative (digits * tenPow e.toNat) (tenPow (-e).toNat)

end Binary

end StackCode
