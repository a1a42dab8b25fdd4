import StackCode.Proofs.Arithmetic

/-!
Arithmetic at every width. Below 32 bits a width without a conversion of its own is refused where
results have to be narrowed. Above 32 bits nothing is narrowed, so between 32 and 64 bits results
may leave the range of their type. Signed integers of one bit leave it since they are narrowed to
the bit.
-/

namespace StackCode

def ArithOp.escapes (op : ArithOp) (r : IntShape) : Bool :=
  match op with
  | .add | .sub | .mul | .neg => (r.bits = 1 && r.signed) || (32 < r.bits && r.bits < 64)
  | .not => (r.bits = 1 && r.signed) || (!r.signed && 32 < r.bits && r.bits < 64)
  | _ => false

theorem ArithOp.bits_of_escapes {op : ArithOp} {r : IntShape} (h : op.escapes r = true) :
    r = ⟨1, true⟩ ∨ 32 < r.bits ∧ r.bits < 64 := by
  have hbit (h1 : r.bits = 1) (hs : r.signed = true) : r = ⟨1, true⟩ := by
    rw [← h1, ← hs]
  cases op with
  | add | sub | mul | neg =>
    simp only [escapes, Bool.or_eq_true, Bool.and_eq_true, decide_eq_true_eq] at h
    exact h.imp_left fun h => hbit h.1 h.2
  | not =>
    simp only [escapes, Bool.or_eq_true, Bool.and_eq_true, decide_eq_true_eq] at h
    exact h.imp (fun h => hbit h.1 h.2) fun h => ⟨h.1.2, h.2⟩
  | _ => cases h

section Accepted

variable {op : ArithOp} {r : IntShape} {checked : Bool} {code tail : List Machine.Instr}

theorem narrow_accepted (h : r.Ordinary) (htail : narrow (.int r) checked = .ok tail) :
    r.bits = 1 ∨ r.bits = 8 ∨ r.bits = 16 ∨ 32 ≤ r.bits := by
  by_cases h1 : r.bits = 1
  · exact .inl h1
  by_cases h32 : r.bits < 32
  · cases hk : (Numeric.int r).kind with
    | error e =>
      simp only [narrow, if_neg h1, if_pos h32, hk] at htail
      cases htail
    | ok k =>
      have := Numeric.Ranges.bits_of_kind (.int h) hk
      omega
  · omega

theorem arithCode_accepted (hop : op ≠ .convert) (hm : op.mayLeaveRange = true)
    (hcode : arithCode op checked (.int r) (.int r) = .ok code) :
    ∃ tail, narrow (.int r) checked = .ok tail := by
  cases htail : narrow (.int r) checked with
  | ok tail => exact ⟨tail, rfl⟩
  | error e =>
    rw [arithCode, if_neg hop, if_neg (by simp [Numeric.of?])] at hcode
    simp only [hm] at hcode
    change (operatorCode op checked (.int r)).bind
      (fun code => (narrow (.int r) checked).bind fun tail => .ok (code ++ tail)) = _ at hcode
    rw [htail] at hcode
    cases hc : operatorCode op checked (.int r) <;> rw [hc] at hcode <;> cases hcode

theorem settles_of_accepted (h : r.Ordinary)
    (hop : op ∈ [.add, .sub, .mul, .and, .or, .xor, .not, .neg])
    (hcode : arithCode op false (.int r) (.int r) = .ok code) (he : op.escapes r = false) :
    op.Settles r := by
  have hle := h.le
  constructor
  · intro hm
    obtain ⟨tail, htail⟩ := arithCode_accepted (by rintro rfl; cases hm) hm hcode
    have hrange : ¬(r.bits = 1 ∧ r.signed = true) ∧ ¬(32 < r.bits ∧ r.bits < 64) := by
      cases op with
      | add | sub | mul | neg => simpa [ArithOp.escapes] using he
      | div | shl => exact absurd hop (by decide)
      | _ => cases hm
    rcases narrow_accepted h htail with h1 | hbits
    · left
      obtain ⟨bits, signed⟩ := r
      cases signed <;> simp_all
    · right
      omega
  · rintro rfl
    have hrange : ¬(r.bits = 1 ∧ r.signed = true)
        ∧ ¬(r.signed = false ∧ 32 < r.bits ∧ r.bits < 64) := by
      simpa [ArithOp.escapes, and_assoc] using he
    refine ⟨?_, ?_⟩
    · rintro rfl
      exact hrange.1 ⟨rfl, rfl⟩
    · cases hs : r.signed with
      | true => exact .inl rfl
      | false =>
        have := hrange.2
        simp only [hs, true_and] at this
        omega

end Accepted

section Outside

variable {op : ArithOp} {r : IntShape} {a b n : Int} {code : List Machine.Instr} {stack : List Word}

theorem exists_outside (h : r.Ordinary) (h32 : 32 < r.bits) (he : op.escapes r = true) :
    ∃ a b, r.holds a = true ∧ r.holds b = true ∧
      (op.exact a b = r.least - 1 ∨ op.exact a b = r.least + 2 ^ r.bits) := by
  have hpow := h.two_pow
  have hhalf : (2 : Int) ^ 32 ≤ 2 ^ (r.bits - 1) := pow_le_pow_right₀ (by decide) (by omega)
  have hleast := h.least_le
  have hsign : r.signed = false ∧ r.least = 0 ∨ r.signed = true ∧ r.least = -2 ^ (r.bits - 1) := by
    obtain ⟨bits, signed⟩ := r
    cases signed
    · exact .inl ⟨rfl, IntShape.least_unsigned bits⟩
    · exact .inr ⟨rfl, h.least_signed⟩
  simp only [h.holds_iff]
  -- Each operator takes the least or the greatest integer one step out of the range.
  cases op with
  | add => exact ⟨r.least + 2 ^ r.bits - 1, 1, by omega, by omega, .inr (Int.sub_add_cancel _ _)⟩
  | sub => exact ⟨r.least, 1, by omega, by omega, .inl rfl⟩
  | mul =>
    rcases hsign with ⟨-, hl⟩ | ⟨-, hl⟩
    · exact ⟨2 ^ (r.bits - 1), 2, by omega, by omega, .inr (by rw [ArithOp.exact]; omega)⟩
    · exact ⟨r.least, -1, by omega, by omega, .inr (by rw [ArithOp.exact]; omega)⟩
  | neg =>
    rcases hsign with ⟨-, hl⟩ | ⟨-, hl⟩
    · exact ⟨1, 0, by omega, by omega, .inl (by rw [ArithOp.exact]; omega)⟩
    · exact ⟨r.least, 0, by omega, by omega, .inr (by rw [ArithOp.exact]; omega)⟩
  | not =>
    have hs : r.signed = false := by
      simp only [ArithOp.escapes, Bool.or_eq_true, Bool.and_eq_true, decide_eq_true_eq,
        Bool.not_eq_true'] at he
      exact (he.resolve_left fun h1 => by omega).1.1
    refine ⟨0, 0, by omega, by omega, .inl ?_⟩
    rcases hsign with ⟨-, hl⟩ | ⟨hs', -⟩
    · rw [ArithOp.exact]
      omega
    · rw [hs] at hs'
      cases hs'
  | _ => cases he

theorem word_outside (h : r.Ordinary) (h64 : r.bits < 64) (hn : r.holds n = true)
    (ha : a = r.least - 1 ∨ a = r.least + 2 ^ r.bits) :
    StackKind.int64.word a ≠ StackKind.int64.word n := by
  have hpow : (2 : Int) ^ r.bits ≤ 2 ^ 63 := pow_le_pow_right₀ (by decide) (by omega)
  rw [h.holds_iff] at hn
  rw [Ne, StackKind.word_eq_iff]
  change ¬a % 2 ^ 64 = n % 2 ^ 64
  omega

theorem encode_wide (h : r.Ordinary) (h32 : 32 < r.bits) :
    (Ty.int r).encode = StackKind.int64.word := by
  obtain ⟨m, hm, -, he⟩ := (Ty.Integral.int h).numeric
  obtain rfl : Numeric.int r = m := Option.some.inj hm
  rw [he, Numeric.stackKind_wide h32]

theorem compute_wide (h : r.Ordinary) (h32 : 32 < r.bits) (he : op.escapes r = true)
    (hd : op.Defined r a b) (hcode : arithCode op false (.int r) (.int r) = .ok code)
    (stack : List Word) : computeAll code (op.operands (.int r) a b ++ stack)
      = .ok (StackKind.int64.word (op.exact a b) :: stack) := by
  have hconvert : op ≠ .convert := by
    rintro rfl
    cases he
  rw [operands_eq (encode_wide h h32)]
  by_cases hnot : op = .not
  · subst hnot
    have hc : operatorCode .not false (.int r) = .ok [plain .not] := by
      simp [operatorCode, complement, show r.bits ≠ 1 by omega, show 32 ≤ r.bits by omega]
    obtain rfl := Except.ok.inj (hcode.symm.trans (arithCode_plain hconvert rfl hc rfl))
    exact computeAll_not .int64 a
  · obtain ⟨xs, hc, hrun⟩ := compute_operator (.int h) hnot hconvert hd stack
    have hm : op.mayLeaveRange = true ∧ op.isComparison = false := by
      cases op with
      | add | sub | mul | neg => exact ⟨rfl, rfl⟩
      | not => exact absurd rfl hnot
      | _ => cases he
    obtain rfl := Except.ok.inj
      (hcode.symm.trans (arithCode_narrowed hconvert rfl hc hm.1 (narrow_whole (by omega) false)))
    rw [Numeric.stackKind_wide h32, hm.2] at hrun
    rw [List.append_nil, hrun]
    rfl

theorem exists_lone_bit (he : op.escapes ⟨1, true⟩ = true)
    (hcode : arithCode op false (.signed 1) (.signed 1) = .ok code) :
    ∃ a b, (IntShape.mk 1 true).holds a = true ∧ (IntShape.mk 1 true).holds b = true ∧
      computeAll code (op.operands (.signed 1) a b) = .ok [StackKind.int32.word 1] := by
  cases op with
  | add | sub | neg =>
    cases hcode
    exact ⟨-1, 0, by decide, by decide, by decide⟩
  | mul =>
    cases hcode
    exact ⟨-1, -1, by decide, by decide, by decide⟩
  | not =>
    cases hcode
    exact ⟨0, 0, by decide, by decide, by decide⟩
  | _ => cases he

theorem lone_bit_outside (hn : (IntShape.mk 1 true).holds n = true) :
    (Ty.signed 1).encode n ≠ StackKind.int32.word 1 := by
  have hrange : -1 ≤ n ∧ n ≤ 0 := holds_iff.mp hn
  obtain rfl | rfl : n = -1 ∨ n = 0 := by omega
  · decide
  · decide

end Outside

theorem defined_of_holds {op : ArithOp} {r : IntShape} {a b : Int}
    (hop : op ∈ [.add, .sub, .mul, .and, .or, .xor, .not, .neg]) (ha : r.holds a = true)
    (hb : r.holds b = true) : op.Defined r a b := by
  cases op with
  | add | sub | mul | and | or | xor | not | neg =>
    exact ⟨ha, fun _ _ => hb, nofun, nofun, nofun⟩
  | _ => exact absurd hop (by decide)

/-- Code that is accepted for a width leaves integers of this width, unless they escape. -/
theorem results_in_range_iff {op : ArithOp} {r : IntShape} {code : List Machine.Instr}
    (h : r.Ordinary) (hop : op ∈ [.add, .sub, .mul, .and, .or, .xor, .not, .neg])
    (hcode : arithCode op false (.int r) (.int r) = .ok code) :
    (∀ a b, r.holds a = true → r.holds b = true → ∀ stack, ∃ n, r.holds n = true ∧
      computeAll code (op.operands (.int r) a b ++ stack) = .ok ((Ty.int r).encode n :: stack))
    ↔ op.escapes r = false := by
  constructor
  · intro hall
    by_contra hne
    have he : op.escapes r = true := by simpa using hne
    rcases ArithOp.bits_of_escapes he with rfl | ⟨h32, h64⟩
    · obtain ⟨a, b, ha, hb, hrun⟩ := exists_lone_bit he hcode
      obtain ⟨n, hn, hleft⟩ := hall a b ha hb []
      rw [List.append_nil] at hleft
      have hword := Except.ok.inj (hleft.symm.trans hrun)
      exact lone_bit_outside hn (List.cons.inj hword).1
    · obtain ⟨a, b, ha, hb, hout⟩ := exists_outside h h32 he
      obtain ⟨n, hn, hleft⟩ := hall a b ha hb []
      have hrun := compute_wide h h32 he (defined_of_holds hop ha hb) hcode []
      have hword := Except.ok.inj (hrun.symm.trans hleft)
      rw [encode_wide h h32] at hword
      exact word_outside h h64 hn hout (List.cons.inj hword).1
  · intro he a b ha hb stack
    have hconvert : op ≠ .convert := by
      rintro rfl
      exact absurd hop (by decide)
    have htype : op.resultType (.int r) = .int r ∧ op.resultShape r = r := by
      cases op with
      | add | sub | mul | and | or | xor | not | neg => exact ⟨rfl, rfl⟩
      | _ => exact absurd hop (by decide)
    obtain ⟨xs, hxs, hrun⟩ := (settles_of_accepted h hop hcode he).compute (.int h) hconvert
      (defined_of_holds hop ha hb) stack
    rw [htype.1] at hxs hrun
    obtain rfl := Except.ok.inj (hcode.symm.trans hxs)
    rw [htype.2] at hrun
    exact ⟨_, h.holds_wrap _, hrun⟩

theorem short_products_in_range :
    arithCode .mul false (.signed 16) (.signed 16) = .ok [binary .mul, plain (.conv .i2)] ∧
      ∀ a b, (IntShape.mk 16 true).holds a = true → (IntShape.mk 16 true).holds b = true →
        ∀ stack, ∃ n, (IntShape.mk 16 true).holds n = true ∧
          computeAll [binary .mul, plain (.conv .i2)]
              ((Ty.signed 16).encode b :: (Ty.signed 16).encode a :: stack)
            = .ok ((Ty.signed 16).encode n :: stack) := by
  have hcode : arithCode .mul false (.signed 16) (.signed 16)
      = .ok [binary .mul, plain (.conv .i2)] := rfl
  exact ⟨hcode, (results_in_range_iff ⟨by decide, by decide⟩ (by decide) hcode).mpr (by decide)⟩

theorem results_out_of_range :
    (∃ code, arithCode .add false (.unsigned 33) (.unsigned 33) = .ok code ∧
      ∀ n, (IntShape.mk 33 false).holds n = true →
        computeAll code [(Ty.unsigned 33).encode 1, (Ty.unsigned 33).encode 8589934591]
          ≠ .ok [(Ty.unsigned 33).encode n]) ∧
    ∃ code, arithCode .neg false (.signed 1) (.signed 1) = .ok code ∧
      ∀ n, (IntShape.mk 1 true).holds n = true →
        computeAll code [(Ty.signed 1).encode (-1)] ≠ .ok [(Ty.signed 1).encode n] := by
  refine ⟨⟨_, rfl, fun n hn hrun => ?_⟩, ⟨_, rfl, fun n hn hrun => ?_⟩⟩
  · have hsum : computeAll [binary .add]
        [(Ty.unsigned 33).encode 1, (Ty.unsigned 33).encode 8589934591]
        = .ok [StackKind.int64.word 8589934592] := by decide
    have hword := List.cons.inj (Except.ok.inj (hsum.symm.trans hrun))
    exact word_outside ⟨by decide, by decide⟩ (by decide) hn (.inr (by decide)) hword.1
  · have hbit : computeAll [plain .neg, ldcI4 1, binary .and] [(Ty.signed 1).encode (-1)]
        = .ok [StackKind.int32.word 1] := by decide
    have hword := List.cons.inj (Except.ok.inj (hbit.symm.trans hrun))
    exact lone_bit_outside hn hword.1.symm

end StackCode
