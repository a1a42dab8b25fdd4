import Mathlib.Data.Int.ConditionallyCompleteOrder
import Mathlib.Order.Interval.Set.Basic
import Mathlib.Tactic.Positivity
import Mathlib.Tactic.SplitIfs
import StackCode.Ty

namespace StackCode.IntShape

def values (s : IntShape) : Set Int :=
  if s.bits = 0 then {0}
  else if s.signed then Set.Icc (-2 ^ (s.bits - 1)) (2 ^ (s.bits - 1) - 1)
  else Set.Icc 0 (2 ^ s.bits - 1)

def digits (s : IntShape) : Nat := if s.signed then s.bits - 1 else s.bits

def hasNegative (s : IntShape) : Bool := s.signed && s.bits ≠ 0

/-- The integers from zero to the largest one with so many binary digits, and as many below zero. -/
def span (negative : Bool) (digits : Nat) : Set Int :=
  Set.Icc (if negative then -2 ^ digits else 0) (2 ^ digits - 1)

section Spans

variable {a b : Bool} {m n : Nat}

theorem span_subset_iff : span a m ⊆ span b n ↔ (a = true → b = true) ∧ m ≤ n := by
  have hm : (0 : Int) < 2 ^ m := by positivity
  have hpow : (2 : Int) ^ m ≤ 2 ^ n ↔ m ≤ n := pow_le_pow_iff_right₀ (by decide)
  rw [span, span, Set.Icc_subset_Icc_iff (by split_ifs <;> omega), ← hpow]
  cases a <;> cases b <;> simp

theorem span_inter_span : span a m ∩ span true n = span a (min m n) := by
  rcases Nat.le_total m n with h | h
  · rw [Nat.min_eq_left h, Set.inter_eq_left]
    exact span_subset_iff.mpr ⟨fun _ => rfl, h⟩
  · rw [Nat.min_eq_right h]
    have hpow : (2 : Int) ^ n ≤ 2 ^ m := pow_le_pow_right₀ (by decide) h
    have hpos : (0 : Int) < 2 ^ n := by positivity
    ext x
    cases a <;> simp only [span, Set.mem_inter_iff, Set.mem_Icc, if_pos, if_neg, Bool.false_eq_true,
      not_false_eq_true] <;> omega

end Spans

section Bounds

variable (s : IntShape)

theorem values_eq_span : s.values = span s.hasNegative s.digits := by
  obtain ⟨bits, signed⟩ := s
  by_cases hb : bits = 0 <;> cases signed <;> simp [values, span, hasNegative, digits, hb]

theorem least_eq : s.least = if s.hasNegative then -2 ^ min s.digits 127 else 0 := by
  obtain ⟨bits, signed⟩ := s
  by_cases hb : bits = 0
  · simp [least, hasNegative, hb]
  cases signed with
  | false => simp [least, hasNegative]
  | true =>
    by_cases hw : 128 ≤ bits
    · have hmin : min (bits - 1) 127 = 127 := by omega
      simp [least, hasNegative, digits, hb, hw, hmin, constantMin, twoPow]
    · have hmin : min (bits - 1) 127 = bits - 1 := by omega
      simp [least, hasNegative, digits, hb, hw, hmin, twoPow]

theorem greatest_eq : s.greatest = 2 ^ min s.digits 127 - 1 := by
  obtain ⟨bits, signed⟩ := s
  by_cases hb : bits = 0
  · cases signed <;> simp [greatest, digits, hb]
  cases signed with
  | false =>
    by_cases hw : 127 ≤ bits
    · simp [greatest, digits, hb, hw, constantMax, twoPow]
    · have hmin : min bits 127 = bits := by omega
      simp [greatest, digits, hb, hw, hmin, twoPow]
  | true =>
    by_cases hw : 128 ≤ bits
    · have hmin : min (bits - 1) 127 = 127 := by omega
      simp [greatest, digits, hb, hw, hmin, constantMax, twoPow]
    · have hmin : min (bits - 1) 127 = bits - 1 := by omega
      simp [greatest, digits, hb, hw, hmin, twoPow]

theorem constants_eq_span : Set.Icc constantMin constantMax = span true 127 := by
  simp [span, constantMin, constantMax, twoPow]

theorem values_inter_constants :
    s.values ∩ Set.Icc constantMin constantMax = Set.Icc s.least s.greatest := by
  rw [constants_eq_span, values_eq_span, span_inter_span, least_eq, greatest_eq]
  rfl

theorem digits_le : s.digits ≤ s.bits := by
  rw [digits]
  split <;> omega

theorem least_le_greatest : s.least ≤ s.greatest := by
  have hpos : (0 : Int) < 2 ^ min s.digits 127 := by positivity
  rw [least_eq, greatest_eq]
  split_ifs <;> omega

end Bounds

variable {s t : IntShape}

theorem holds_iff_mem_values {v : Int} (h : s.digits ≤ 127) : s.holds v = true ↔ v ∈ s.values := by
  have hconstants : s.values ⊆ Set.Icc constantMin constantMax := by
    rw [constants_eq_span, values_eq_span]
    exact span_subset_iff.mpr ⟨fun _ => rfl, h⟩
  rw [← Set.inter_eq_left.mpr hconstants, values_inter_constants]
  simp [holds]

theorem within_iff : s.within t = true
    ↔ Set.Icc s.least s.greatest ⊆ Set.Icc t.least t.greatest := by
  rw [Set.Icc_subset_Icc_iff s.least_le_greatest]
  simp [within]

theorem within_iff_digits :
    s.within t = true ↔
      (s.hasNegative = true → t.hasNegative = true) ∧ min s.digits 127 ≤ min t.digits 127 := by
  rw [within_iff, least_eq, greatest_eq, least_eq, greatest_eq]
  exact span_subset_iff

theorem hasNegative_of_digits (h : 0 < s.digits) : s.hasNegative = s.signed := by
  obtain ⟨bits, signed⟩ := s
  cases signed with
  | false => rfl
  | true =>
    have : bits ≠ 0 := by
      rintro rfl
      exact absurd h (by decide)
    simp [hasNegative, this]

/-- The test tells whether the constants of one shape are values of another. It tells the same of
all values, except where both shapes reach up to the greatest constant, the first one further than
the second, and the second has negative values if the first one has. -/
theorem within_exact_iff (s t : IntShape) :
    (s.within t = true ↔ s.values ∩ Set.Icc constantMin constantMax ⊆ t.values)
      ∧ ((s.within t = true ↔ s.values ⊆ t.values) ↔
        ¬(127 ≤ t.digits ∧ t.digits < s.digits ∧ (s.signed = true → t.signed = true))) := by
  constructor
  · rw [within_iff, ← values_inter_constants, ← values_inter_constants]
    exact ⟨fun h => h.trans Set.inter_subset_left,
      fun h => Set.subset_inter h Set.inter_subset_right⟩
  · rw [within_iff_digits, values_eq_span, values_eq_span, span_subset_iff]
    by_cases hwide : 127 ≤ t.digits ∧ t.digits < s.digits
    · rw [← hasNegative_of_digits (by omega : 0 < s.digits),
        ← hasNegative_of_digits (by omega : 0 < t.digits)]
      have hlt : ¬s.digits ≤ t.digits := by omega
      simp [hwide, hlt]
    · have hle : min s.digits 127 ≤ min t.digits 127 ↔ s.digits ≤ t.digits := by omega
      refine iff_of_true (by rw [hle]) ?_
      rintro ⟨hle, hlt, -⟩
      exact hwide ⟨hle, hlt⟩

theorem unsigned_within_signed :
    (⟨128, false⟩ : IntShape).within ⟨128, true⟩ = true
      ∧ 2 ^ 127 ∈ (⟨128, false⟩ : IntShape).values ∧ 2 ^ 127 ∉ (⟨128, true⟩ : IntShape).values
      ∧ ¬∀ s t : IntShape, s.within t = true ↔ s.values ⊆ t.values := by
  have hwithin : (⟨128, false⟩ : IntShape).within ⟨128, true⟩ = true := by decide +kernel
  have hmem : 2 ^ 127 ∈ (⟨128, false⟩ : IntShape).values := by simp [values]
  have hnot : 2 ^ 127 ∉ (⟨128, true⟩ : IntShape).values := by simp [values]
  exact ⟨hwithin, hmem, hnot, fun h => hnot ((h _ _).mp hwithin hmem)⟩

end StackCode.IntShape
