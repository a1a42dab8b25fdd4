import Mathlib.Algebra.Order.Ring.Int
import Mathlib.Data.Int.Bitwise
import Mathlib.Tactic.Positivity
import StackCode.Ty

namespace StackCode

theorem emod_of_le {a b : Int} {m w : Nat} (hm : m ≤ w) (h : a % 2 ^ w = b % 2 ^ w) :
    a % 2 ^ m = b % 2 ^ m := by
  rw [← Int.emod_emod_of_dvd a (pow_dvd_pow 2 hm), h, Int.emod_emod_of_dvd b (pow_dvd_pow 2 hm)]

theorem holds_iff {r : IntShape} {n : Int} :
    r.holds n = true ↔ r.least ≤ n ∧ n ≤ r.greatest := by
  simp [IntShape.holds]

theorem ofInt_sub_ofInt (w : Nat) (a b : Int) :
    BitVec.ofInt w a - BitVec.ofInt w b = BitVec.ofInt w (a - b) := by
  rw [BitVec.sub_eq_iff_eq_add, ← BitVec.ofInt_add, Int.sub_add_cancel]

namespace IntShape

/-- The value of the shape that differs from an integer by a multiple of `2 ^ bits`. -/
def wrap (s : IntShape) (n : Int) : Int := s.least + (n - s.least) % 2 ^ s.bits

structure Ordinary (s : IntShape) : Prop where
  pos : 0 < s.bits
  le : s.bits ≤ 64

theorem ordinary_bit : IntShape.Ordinary ⟨1, false⟩ := ⟨by decide, by decide⟩

section Wrapping

variable {s t : IntShape} {a b n : Int}

theorem least_unsigned (bits : Nat) : (IntShape.mk bits false).least = 0 := by
  simp [least]

theorem Ordinary.least_signed {bits : Nat} (h : (IntShape.mk bits true).Ordinary) :
    (IntShape.mk bits true).least = -2 ^ (bits - 1) := by
  have h₁ := h.pos
  have h₂ := h.le
  dsimp only at h₁ h₂
  have h₃ : ¬128 ≤ bits := by omega
  simp [least, h₃, Nat.pos_iff_ne_zero.mp h₁, twoPow]

theorem Ordinary.two_pow (h : s.Ordinary) : (2 : Int) ^ s.bits = 2 * 2 ^ (s.bits - 1) := by
  rw [← pow_succ', Nat.sub_add_cancel h.pos]

theorem Ordinary.least_le (h : s.Ordinary) : s.least ≤ 0 ∧ -2 ^ (s.bits - 1) ≤ s.least := by
  have hpos : (0 : Int) < 2 ^ (s.bits - 1) := by positivity
  obtain ⟨bits, signed⟩ := s
  cases signed
  · rw [least_unsigned]
    omega
  · rw [h.least_signed]
    dsimp only at hpos ⊢
    omega

theorem Ordinary.greatest_eq (h : s.Ordinary) : s.greatest = s.least + 2 ^ s.bits - 1 := by
  have h₁ := h.pos
  have h₂ := h.le
  have hpow := h.two_pow
  obtain ⟨bits, signed⟩ := s
  dsimp only at h₁ h₂ hpow
  have h₃ : ¬128 ≤ bits := by omega
  have h₄ : ¬127 ≤ bits := by omega
  cases signed
  · simp [least, greatest, h₄, Nat.pos_iff_ne_zero.mp h₁, twoPow]
  · rw [h.least_signed]
    simp [greatest, h₃, Nat.pos_iff_ne_zero.mp h₁, twoPow]
    omega

theorem Ordinary.holds_iff (h : s.Ordinary) :
    s.holds n = true ↔ s.least ≤ n ∧ n < s.least + 2 ^ s.bits := by
  rw [StackCode.holds_iff, h.greatest_eq]
  omega

theorem Ordinary.holds_wrap (h : s.Ordinary) (n : Int) : s.holds (s.wrap n) = true := by
  have hpos : (0 : Int) < 2 ^ s.bits := by positivity
  have h₁ := Int.emod_nonneg (n - s.least) hpos.ne'
  have h₂ := Int.emod_lt_of_pos (n - s.least) hpos
  rw [h.holds_iff, wrap]
  omega

theorem wrap_emod (s : IntShape) (n : Int) : s.wrap n % 2 ^ s.bits = n % 2 ^ s.bits := by
  rw [wrap, Int.add_emod, Int.emod_emod, ← Int.add_emod]
  congr 1
  omega

theorem wrap_congr (h : a % 2 ^ s.bits = b % 2 ^ s.bits) : s.wrap a = s.wrap b := by
  rw [wrap, wrap, Int.sub_emod, h, ← Int.sub_emod]

theorem Ordinary.wrap_eq (h : s.Ordinary) (hn : s.holds n = true) : s.wrap n = n := by
  rw [h.holds_iff] at hn
  rw [wrap, Int.emod_eq_of_lt (by omega) (by omega)]
  omega

theorem Ordinary.wrap_unique (h : s.Ordinary) (ha : s.holds a = true)
    (hab : a % 2 ^ s.bits = n % 2 ^ s.bits) : s.wrap n = a := by
  rw [← wrap_congr hab, h.wrap_eq ha]

theorem wrap_wrap (h : s.bits ≤ t.bits) (n : Int) : s.wrap (t.wrap n) = s.wrap n :=
  wrap_congr (emod_of_le h (wrap_emod t n))

theorem Ordinary.holds_mono (h : s.Ordinary) {w : Nat} (hw : s.bits ≤ w) (hw' : w ≤ 64)
    (hn : s.holds n = true) : (IntShape.mk w s.signed).holds n = true := by
  have ht : (IntShape.mk w s.signed).Ordinary := ⟨h.pos.trans_le hw, hw'⟩
  have hpow : (2 : Int) ^ s.bits ≤ 2 ^ w := pow_le_pow_right₀ (by decide) hw
  have hhalf : (2 : Int) ^ (s.bits - 1) ≤ 2 ^ (w - 1) :=
    pow_le_pow_right₀ (by decide) (Nat.sub_le_sub_right hw 1)
  have h₁ := h.two_pow
  have h₂ := ht.two_pow
  rw [h.holds_iff] at hn
  rw [ht.holds_iff]
  obtain ⟨bits, signed⟩ := s
  dsimp only at *
  cases signed
  · rw [least_unsigned] at hn ⊢
    omega
  · rw [h.least_signed] at hn
    rw [ht.least_signed]
    omega

end Wrapping

end IntShape

def number (signed : Bool) {w : Nat} (x : BitVec w) : Int :=
  if signed then x.toInt else x.toNat

section Readings

variable {w : Nat} {signed : Bool} {a b n : Int} {s : IntShape}

theorem ofInt_inj_iff : BitVec.ofInt w a = BitVec.ofInt w b ↔ a % 2 ^ w = b % 2 ^ w := by
  have hpos : (0 : Int) < 2 ^ w := by positivity
  have ha := Int.emod_nonneg a hpos.ne'
  have hb := Int.emod_nonneg b hpos.ne'
  rw [← BitVec.toNat_inj, BitVec.toNat_ofInt, BitVec.toNat_ofInt]
  push_cast
  omega

theorem ofInt_number (signed : Bool) (x : BitVec w) : BitVec.ofInt w (number signed x) = x := by
  cases signed
  · simp [number]
  · exact BitVec.ofInt_toInt

theorem holds_number (h : (IntShape.mk w signed).Ordinary) (x : BitVec w) :
    (IntShape.mk w signed).holds (number signed x) = true := by
  rw [h.holds_iff]
  cases signed
  · have hx : (x.toNat : Int) < 2 ^ w := by exact_mod_cast x.isLt
    rw [IntShape.least_unsigned]
    simp only [number, Bool.false_eq_true, if_false]
    omega
  · have h₁ := x.le_toInt
    have h₂ := x.toInt_lt
    have hpow := h.two_pow
    rw [h.least_signed]
    simp only [number, if_true]
    dsimp only at hpow
    omega

theorem number_ofInt (h : (IntShape.mk w signed).Ordinary) (n : Int) :
    number signed (BitVec.ofInt w n) = (IntShape.mk w signed).wrap n := by
  symm
  apply h.wrap_unique (holds_number h _)
  rw [← ofInt_inj_iff, ofInt_number]

theorem IntShape.Ordinary.number_ofInt (h : (IntShape.mk w signed).Ordinary)
    (hn : (IntShape.mk w signed).holds n = true) : number signed (BitVec.ofInt w n) = n := by
  rw [StackCode.number_ofInt h, h.wrap_eq hn]

end Readings

section Bitwise

variable {w m n k : Nat} {a b : Int} {f : Bool → Bool → Bool} {s : IntShape}

theorem getLsbD_ofInt (w : Nat) (n : Int) (i : Nat) :
    (BitVec.ofInt w n).getLsbD i = (decide (i < w) && n.testBit i) := by
  cases n with
  | ofNat m => exact BitVec.getLsbD_ofNat w m i
  | negSucc m =>
    rw [BitVec.ofInt_negSucc_eq_not_ofNat, BitVec.getLsbD_not, BitVec.getLsbD_ofNat]
    cases h : decide (i < w) <;> simp [Int.testBit]

theorem ofInt_bitwise (f : Bool → Bool → Bool) {x : BitVec w}
    (h : ∀ i < w, x.getLsbD i = f ((BitVec.ofInt w a).getLsbD i) ((BitVec.ofInt w b).getLsbD i)) :
    x = BitVec.ofInt w (Int.bitwise f a b) := by
  apply BitVec.eq_of_getLsbD_eq
  intro i hi
  rw [h i hi, getLsbD_ofInt, getLsbD_ofInt, getLsbD_ofInt, Int.testBit_bitwise]
  simp [hi]

theorem ofInt_land (w : Nat) (a b : Int) :
    BitVec.ofInt w a &&& BitVec.ofInt w b = BitVec.ofInt w (a.land b) := by
  rw [← Int.bitwise_and]
  exact ofInt_bitwise _ fun i _ => BitVec.getLsbD_and

theorem ofInt_lor (w : Nat) (a b : Int) :
    BitVec.ofInt w a ||| BitVec.ofInt w b = BitVec.ofInt w (a.lor b) := by
  rw [← Int.bitwise_or]
  exact ofInt_bitwise _ fun i _ => BitVec.getLsbD_or

theorem ofInt_xor (w : Nat) (a b : Int) :
    BitVec.ofInt w a ^^^ BitVec.ofInt w b = BitVec.ofInt w (a.xor b) := by
  rw [← Int.bitwise_xor]
  exact ofInt_bitwise _ fun i _ => BitVec.getLsbD_xor

theorem natBitwise_bounds (f : Bool → Bool → Bool) (hm : m < 2 ^ k) (hn : n < 2 ^ k) :
    -2 ^ k ≤ Int.natBitwise f m n ∧ Int.natBitwise f m n < 2 ^ k := by
  have h (g : Bool → Bool → Bool) : ((Nat.bitwise g m n : Nat) : Int) < 2 ^ k := by
    exact_mod_cast Nat.bitwise_lt_two_pow hm hn
  rw [Int.natBitwise]
  cases f false false
  · have := h f
    rw [cond_false]
    omega
  · have := h fun x y => !f x y
    rw [cond_true]
    omega

theorem bitwise_bounds (f : Bool → Bool → Bool) (ha : -2 ^ k ≤ a ∧ a < 2 ^ k)
    (hb : -2 ^ k ≤ b ∧ b < 2 ^ k) :
    -2 ^ k ≤ Int.bitwise f a b ∧ Int.bitwise f a b < 2 ^ k := by
  have hcast : ((2 ^ k : Nat) : Int) = 2 ^ k := by push_cast; rfl
  cases a <;> cases b <;> simp only [Int.ofNat_eq_natCast, Int.negSucc_eq] at ha hb <;>
    unfold Int.bitwise <;> refine natBitwise_bounds _ ?_ ?_ <;> omega

theorem IntShape.Ordinary.holds_bitwise (h : s.Ordinary) (hf : f false false = false)
    (ha : s.holds a = true) (hb : s.holds b = true) : s.holds (Int.bitwise f a b) = true := by
  have hpow := h.two_pow
  rw [h.holds_iff] at ha hb ⊢
  obtain ⟨bits, signed⟩ := s
  dsimp only at *
  cases signed
  · rw [IntShape.least_unsigned, Int.zero_add] at *
    lift a to Nat using ha.1
    lift b to Nat using hb.1
    have hlt : Nat.bitwise f a b < 2 ^ bits :=
      Nat.bitwise_lt_two_pow (by exact_mod_cast ha.2) (by exact_mod_cast hb.2)
    have heq : Int.bitwise f a b = ((Nat.bitwise f a b : Nat) : Int) := by
      change Int.natBitwise f a b = _
      rw [Int.natBitwise, hf, cond_false]
    rw [heq]
    exact ⟨Int.natCast_nonneg _, by exact_mod_cast hlt⟩
  · -- The bits above the width are copies of the highest one, and stay such copies.
    rw [h.least_signed] at ha hb ⊢
    have := bitwise_bounds f (k := bits - 1) ⟨ha.1, by omega⟩ ⟨hb.1, by omega⟩
    omega

end Bitwise

end StackCode
