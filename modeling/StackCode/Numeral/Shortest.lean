import StackCode.Numeral.Binary

namespace StackCode

structure Decimal where
  digits : Nat
  exponent : Int
deriving DecidableEq

/-- The reals that round to a number: from `low` to `high` around `mid`, in units of
`unitNum / unitDen`. The ends belong to it when `closed` holds. -/
structure RoundingInterval where
  low : Nat
  mid : Nat
  high : Nat
  closed : Bool
  unitNum : Nat
  unitDen : Nat

/-- The interval of `m · 2 ^ q`, in quarters of its last place. Below a power of two the gap is
half as wide. -/
def RoundingInterval.of (f : FloatFormat) (m : Nat) (q : Int) : RoundingInterval where
  low := if m = twoPow (f.precision - 1) then 4 * m - 1 else 4 * m - 2
  mid := 4 * m
  high := 4 * m + 2
  closed := m % 2 = 0
  unitNum := twoPow (q - 2).toNat
  unitDen := twoPow (2 - q).toNat

namespace RoundingInterval

def contains (i : RoundingInterval) (digits : Nat) (e : Int) : Bool :=
  let x := digits * tenPow e.toNat * i.unitDen
  let scale := i.unitNum * tenPow (-e).toNat
  if i.closed then i.low * scale ≤ x && x ≤ i.high * scale
  else i.low * scale < x && x < i.high * scale

/-- The multiple of `10 ^ e` chosen for the interval: the nearer one of two that lie in it, and the
upper one when both are equally near. -/
def pick (i : RoundingInterval) (e : Int) : Option Nat :=
  let num := i.mid * i.unitNum * tenPow (-e).toNat
  let den := i.unitDen * tenPow e.toNat
  let below := num / den
  let r := num % den
  let down := 0 < below && i.contains below e
  let up := 0 < r && i.contains (below + 1) e
  if up && (!down || den ≤ 2 * r) then some (below + 1)
  else if down then some below
  else none

def search (i : RoundingInterval) : Nat → Int → Decimal
  | 0, e => ⟨0, e⟩
  | fuel + 1, e =>
    match i.pick e with
    | some d => ⟨d, e⟩
    | none => search i fuel (e - 1)

end RoundingInterval

/-- The shortest decimal that reads back as `m · 2 ^ q`, for a positive `m`. The search starts above
the number, and a format of `p` bits needs at most `p / 3 + 2` digits. -/
def shortest (f : FloatFormat) (m : Nat) (q : Int) : Decimal :=
  let start := (m.log2 + q) * 30103 / 100000 + 2
  (RoundingInterval.of f m q).search (f.precision + 4) start

end StackCode
