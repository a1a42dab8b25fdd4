import StackCode.Proofs.Conversions
import StackCode.Proofs.Ranges

namespace StackCode

/-- The types of integer constants, with width and sign. Native words and transient pointers have 64
bits. -/
inductive Ty.Literal : Ty → IntShape → Prop
  | int (s : IntShape) : Literal (.int s) s
  | word (signed : Bool) : Literal (.word signed) ⟨64, signed⟩
  | pointer (target : Ty) : Literal (.pointer .transient target) ⟨64, false⟩

inductive LiteralCode (s : IntShape) (v : Int) (t : Ty) (w : Word) :
    Except CompileError (List Machine.Instr) → Prop
  | pushed {code : List Machine.Instr} : s.bits ≤ 64 → s.holds v = true →
    (∀ stack, computeAll code stack = .ok (w :: stack)) → LiteralCode s v t w (.ok code)
  | refused : ¬ (s.bits ≤ 64 ∧ s.holds v = true) →
    LiteralCode s v t w (.error (.unrepresentable v t))

section Literals

variable {t : Ty} {s : IntShape} {k : StackKind} {signed : Bool} {v : Int}

theorem compute_toWord
    (h : 64 ≤ k.width ∨ (IntShape.mk k.width signed).holds v = true) (stack : List Word) :
    (toWord signed).compute (k.word v :: stack) = .ok (StackKind.native.word v :: stack) := by
  have hk : integers? (if signed then .i else .u) = some (.native, ⟨64, signed⟩) := by
    cases signed <;> rfl
  have hwide : (IntShape.mk 64 signed).Ordinary := StackKind.native.ordinary signed
  apply (compute_conv hk (k.word v) stack).trans
  rw [StackKind.resized_word hwide h, StackKind.word_wrap hwide (.inl rfl)]

theorem literalCode_pushWord (signed : Bool) (v : Int) (t : Ty) :
    LiteralCode ⟨64, signed⟩ v t (StackKind.native.word v) (pushWord signed v t) := by
  rw [pushWord]
  split
  · rename_i hshort
    have hord : (IntShape.mk 32 signed).Ordinary := StackKind.int32.ordinary signed
    have hv := hord.holds_mono (show 32 ≤ 64 by decide) (le_refl 64) hshort
    apply LiteralCode.pushed (le_refl 64) hv
    intro stack
    rw [computeAll_ok (compute_ldcI4 v stack), computeAll_single]
    exact compute_toWord (k := .int32) (.inr hshort) stack
  · split
    · rename_i hv
      apply LiteralCode.pushed (le_refl 64) hv
      intro stack
      rw [computeAll_ok (compute_ldcI8 v stack), computeAll_single]
      exact compute_toWord (k := .int64) (.inl (le_refl 64)) stack
    · rename_i hv
      apply LiteralCode.refused
      rintro ⟨-, hholds⟩
      exact hv hholds

theorem literalCode_int (s : IntShape) (v : Int) :
    LiteralCode s v (.int s) ((Ty.int s).encode v) (pushInt v (.int s)) := by
  rw [pushInt]
  split
  · rename_i hv
    apply LiteralCode.refused
    rintro ⟨hbits, hholds⟩
    rw [hholds, Bool.not_true, Bool.or_false, decide_eq_true_eq] at hv
    omega
  · rename_i hv
    rw [Bool.or_eq_true, not_or, decide_eq_true_eq, Bool.not_eq_true', Bool.not_eq_false] at hv
    have hbits : s.bits ≤ 64 := by omega
    rw [Ty.encode, Ty.stackKind_int]
    split
    · rename_i hlong
      rw [if_neg (Nat.not_le.mpr hlong)]
      apply LiteralCode.pushed hbits hv.2
      intro stack
      rw [computeAll_single, compute_ldcI8]
    · rename_i hshort
      rw [if_pos (Nat.le_of_not_lt hshort)]
      apply LiteralCode.pushed hbits hv.2
      intro stack
      rw [computeAll_single, compute_ldcI4]

theorem Ty.Literal.literalCode (h : t.Literal s) (v : Int) :
    LiteralCode s v t (t.encode v) (pushInt v t) := by
  cases h with
  | int s => exact literalCode_int s v
  | word signed => exact literalCode_pushWord signed v _
  | pointer target => exact literalCode_pushWord false v _

theorem read_word (h : s.Ordinary) (hw : s.bits ≤ k.width) (hv : s.holds v = true) :
    (k.word v).resized s = v ∧ (k.word v).number s.signed = v := by
  constructor
  · rw [StackKind.resized_word h (.inl hw), h.wrap_eq hv]
  · exact StackKind.number_word (h.holds_mono hw (k.ordinary s.signed).le hv)

theorem Ty.Literal.read (h : t.Literal s) (hb : s.bits ≤ 64) (hv : s.holds v = true) :
    (t.encode v).resized s = v ∧ (t.encode v).number s.signed = v := by
  cases h with
  | word signed => exact read_word (k := .native) (StackKind.native.ordinary signed) (le_refl 64) hv
  | pointer target =>
    exact read_word (k := .native) (StackKind.native.ordinary false) (le_refl 64) hv
  | int s =>
    obtain ⟨bits, signed⟩ := s
    cases bits with
    | zero =>
      obtain rfl : v = 0 := by
        simpa [IntShape.values] using (IntShape.holds_iff_mem_values (by simp [IntShape.digits])).mp
          hv
      cases signed <;> decide
    | succ n =>
      rw [Ty.encode, Ty.stackKind_int]
      apply read_word ⟨Nat.succ_pos n, hb⟩ _ hv
      dsimp only at hb ⊢
      split
      · exact hb
      · exact Nat.le_of_not_lt ‹¬32 < n + 1›

end Literals

/-- An integer is pushed as a constant of a type exactly if it is in the range of the type and the
type has 64 bits at most. The code then leaves the entry of the type for this integer, which reads
as the integer, cut to the width of the type or not. Any other integer is refused as not
representable. -/
theorem literal_exact {t : Ty} {s : IntShape} (h : t.Literal s) (v : Int) :
    ((∃ code, pushInt v t = .ok code) ↔ s.bits ≤ 64 ∧ v ∈ s.values)
      ∧ (∀ code, pushInt v t = .ok code → ∃ w, w = t.encode v ∧ w.resized s = v
        ∧ w.number s.signed = v ∧ ∀ stack, computeAll code stack = .ok (w :: stack))
      ∧ (¬ (s.bits ≤ 64 ∧ v ∈ s.values) → pushInt v t = .error (.unrepresentable v t)) := by
  have hrange : s.bits ≤ 64 ∧ v ∈ s.values ↔ s.bits ≤ 64 ∧ s.holds v = true := by
    refine and_congr_right fun hb => (IntShape.holds_iff_mem_values ?_).symm
    exact s.digits_le.trans (hb.trans (by decide))
  rw [hrange]
  generalize hp : pushInt v t = r
  have hcode := h.literalCode v
  rw [hp] at hcode
  cases hcode with
  | @pushed code hb hv hrun =>
    refine ⟨⟨fun _ => ⟨hb, hv⟩, fun _ => ⟨code, rfl⟩⟩, ?_, fun hn => absurd ⟨hb, hv⟩ hn⟩
    rintro _ ⟨⟩
    obtain ⟨hcut, hwhole⟩ := h.read hb hv
    exact ⟨_, rfl, hcut, hwhole, hrun⟩
  | refused hn =>
    refine ⟨⟨?_, fun hv => absurd hv hn⟩, ?_, fun _ => rfl⟩
    · rintro ⟨code, ⟨⟩⟩
    · rintro code ⟨⟩

theorem literal_largest_half :
    pushInt 4294967295 (.word false) = .ok [ldcI4 4294967295, toWord false]
      ∧ ldcI4 4294967295 = ldcI4 (-1)
      ∧ computeAll [ldcI4 (-1), toWord false] [] = .ok [.native 4294967295]
      ∧ pushInt (2 ^ 64) (.word false) = .error (.unrepresentable (2 ^ 64) (.word false)) := by
  have hcode : pushInt 4294967295 (.word false) = .ok [ldcI4 4294967295, toWord false] := rfl
  have hsame : ldcI4 4294967295 = ldcI4 (-1) := rfl
  obtain ⟨w, rfl, -, -, hrun⟩ := (literal_exact (.word false) 4294967295).2.1 _ hcode
  refine ⟨hcode, hsame, hsame ▸ hrun [], ?_⟩
  apply (literal_exact (.word false) (2 ^ 64)).2.2
  rintro ⟨-, hmem⟩
  simp [IntShape.values] at hmem

end StackCode
