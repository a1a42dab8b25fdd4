import StackCode.Proofs.Arithmetic

/-!
Checked arithmetic. The exact result is left if the type has it, and otherwise an operator or the
narrowing after it traps. Two kinds of results escape both: sums of truth values, whose narrowing is
a mask, and opposites of unsigned integers, whose negation is not checked.
-/

namespace StackCode

open Machine (BinaryOp NumKind)

def guarded (k : StackKind) (s : IntShape) (a : Int) (stack : List Word) :
    Except Halt (List Word) :=
  if s.holds a then .ok (k.word a :: stack) else .error .trap

def ArithOp.unguarded (op : ArithOp) (r : IntShape) : Bool :=
  match op with
  | .add => r.bits = 1
  | .neg => !r.signed && (r.bits = 1 || 32 ≤ r.bits)
  | _ => false

theorem ArithOp.unguarded_iff {op : ArithOp} {r : IntShape} : op.unguarded r = true ↔
    op = .add ∧ r.bits = 1 ∨ op = .neg ∧ r.signed = false ∧ (r.bits = 1 ∨ 32 ≤ r.bits) := by
  cases op <;> simp [unguarded]

section Guards

variable {n : Numeric} {r s : IntShape} {k : StackKind} {op : ArithOp} {a b : Int}
  {xs ys : List Machine.Instr} {stack rest : List Word} {signed : Bool}

theorem guarded_ok (h : s.holds a = true) : guarded k s a stack = .ok (k.word a :: stack) :=
  if_pos h

theorem guarded_trap (h : ¬s.holds a = true) : guarded k s a stack = .error .trap := if_neg h

theorem guarded_append (hle : r.holds a = true → s.holds a = true)
    (hx : computeAll xs stack = guarded k s a rest)
    (hy : s.holds a = true → computeAll ys (k.word a :: rest) = guarded k r a rest) :
    computeAll (xs ++ ys) stack = guarded k r a rest := by
  by_cases hs : s.holds a = true
  · rw [guarded_ok hs] at hx
    rw [computeAll_append_ok hx, hy hs]
  · rw [guarded_trap hs] at hx
    rw [computeAll_append_error hx, guarded_trap fun hr => hs (hle hr)]

theorem computeAll_exactly {op : BinaryOp} {f : Int → Int → Int}
    (hop : ∀ x y : Word, x.binary op y = x.combine (exactly signed f) y)
    (ha : (IntShape.mk k.width signed).holds a = true)
    (hb : (IntShape.mk k.width signed).holds b = true) :
    computeAll [binary op] (k.word b :: k.word a :: stack)
      = guarded k ⟨k.width, signed⟩ (f a b) stack := by
  rw [computeAll_single]
  change ((k.word a).binary op (k.word b)).map (· :: stack) = _
  rw [hop, StackKind.combine_exactly f ha hb, guarded]
  split <;> rfl

theorem compute_checkedOp {free ovf ovfUn : BinaryOp} {f : Int → Int → Int} (h : n.Ranges r)
    (hovf : ∀ x y : Word, x.binary ovf y = x.combine (exactly true f) y)
    (hovfUn : ∀ x y : Word, x.binary ovfUn y = x.combine (exactly false f) y)
    (ha : r.holds a = true) (hb : r.holds b = true) :
    computeAll (checkedOp n true free ovf ovfUn)
        (n.stackKind.word b :: n.stackKind.word a :: stack)
      = guarded n.stackKind ⟨n.stackKind.width, r.signed⟩ (f a b) stack := by
  have hfloat : n.isFloat = false := by cases h <;> rfl
  rw [checkedOp, hfloat, h.isSigned]
  have ha' := h.holds ha
  have hb' := h.holds hb
  cases hs : r.signed <;> rw [hs] at ha' hb'
  · exact computeAll_exactly hovfUn ha' hb'
  · exact computeAll_exactly hovf ha' hb'

theorem negation_int (hs : r.signed = true) : negation (.int r) true
    = [if 32 < r.bits then ldcI8 (-1) else ldcI4 (-1), binary .mulOvf] := by
  simp [negation, Numeric.isSigned, Numeric.isFloat, Numeric.isWide, hs]

theorem negation_unsigned (h : n.Ranges r) (hs : r.signed = false) (checked : Bool) :
    negation n checked = [plain .neg] := by
  have hsigned : n.isSigned = false := h.isSigned.trans hs
  simp [negation, hsigned]

theorem compute_checkedNegation (h : n.Ranges r) (hs : r.signed = true) (ha : r.holds a = true) :
    computeAll (negation n true) (n.stackKind.word a :: stack)
      = guarded n.stackKind ⟨n.stackKind.width, r.signed⟩ (-a) stack := by
  have hone : (IntShape.mk n.stackKind.width true).holds (-1) = true := by
    cases n.stackKind <;> decide
  have hmul : computeAll [binary .mulOvf] (n.stackKind.word (-1) :: n.stackKind.word a :: stack)
      = guarded n.stackKind ⟨n.stackKind.width, r.signed⟩ (-a) stack := by
    have hmulOvf (x y : Word) : x.binary .mulOvf y = x.combine (exactly true (· * ·)) y := rfl
    have ha' := h.holds ha
    rw [hs] at ha' ⊢
    rw [computeAll_exactly hmulOvf ha' hone, Int.mul_neg_one]
  cases h with
  | int h =>
    rw [negation_int hs]
    refine Eq.trans (computeAll_ok ?_) hmul
    rw [Numeric.stackKind_int]
    split
    · exact compute_ldcI8 (-1) _
    · exact compute_ldcI4 (-1) _
  | word signed =>
    obtain rfl : signed = true := hs
    refine Eq.trans (computeAll_ok (compute_ldcI8 (-1) _)) (Eq.trans (computeAll_ok ?_) hmul)
    have hwide : IntShape.Ordinary ⟨64, true⟩ := StackKind.native.ordinary true
    rw [compute_conv rfl, StackKind.resized_word hwide (.inl (le_refl 64)), hwide.wrap_eq hone]
    rfl

theorem compute_guardedOperator (h : n.Ranges r) (hop : op ∈ [.add, .sub, .mul, .neg])
    (hs : op = .neg → r.signed = true) (hd : op.Defined r a b) (stack : List Word) :
    ∃ code, operatorCode op true n = .ok code ∧
      computeAll code (pushed op n.stackKind a b ++ stack)
        = guarded n.stackKind ⟨n.stackKind.width, r.signed⟩ (op.exact a b) stack := by
  cases op with
  | add | sub | mul =>
    exact ⟨_, rfl, compute_checkedOp h (fun _ _ => rfl) (fun _ _ => rfl) hd.left (hd.right rfl rfl)⟩
  | neg => exact ⟨_, rfl, compute_checkedNegation h (hs rfl) hd.left⟩
  | _ => exact absurd hop (by decide)

theorem compute_narrow_exact {k : NumKind} (hr : r.bits = 8 ∨ r.bits = 16)
    (hk : (Numeric.int r).kind = .ok k)
    (ha : (IntShape.mk 32 r.signed).holds a = true ∨ (IntShape.mk 32 true).holds a = true)
    (stack : List Word) : computeAll [plain (.convOvf k)] (StackKind.int32.word a :: stack)
      = guarded .int32 r a stack := by
  have hord : r.Ordinary := ⟨by omega, by omega⟩
  have hkind : integers? k = some (.int32, r) := by
    rw [Numeric.Ranges.integers_kind (.int hord) hk, Numeric.stackKind_short (by omega)]
  rw [computeAll_single]
  refine (compute_convOvf hkind true _ _).trans ?_
  by_cases hs : (IntShape.mk 32 true).holds a = true
  · rw [StackKind.number_word (k := .int32) hs, guarded]
  · -- The word of a large unsigned integer is read as a negative one, which the type does not have
    -- either.
    obtain ⟨bits, signed⟩ := r
    have hun := ha.resolve_right hs
    obtain rfl : signed = false := by
      cases signed
      · rfl
      · exact absurd hun hs
    have hsigned : IntShape.Ordinary ⟨32, true⟩ := StackKind.int32.ordinary true
    have hunsigned : IntShape.Ordinary ⟨32, false⟩ := StackKind.int32.ordinary false
    rw [hsigned.holds_iff, hsigned.least_signed] at hs
    rw [hunsigned.holds_iff, IntShape.least_unsigned] at hun
    dsimp only at hs hun hr
    have hnumber : (StackKind.int32.word a).number true = a - 2 ^ 32 := by
      change number true (BitVec.ofInt 32 a) = _
      rw [number_ofInt hsigned]
      apply hsigned.wrap_unique
      · rw [hsigned.holds_iff, hsigned.least_signed]
        dsimp only
        omega
      · exact Int.sub_emod_right a (2 ^ 32)
    have hpow : (2 : Int) ^ bits ≤ 2 ^ 16 := pow_le_pow_right₀ (by decide) (by omega)
    have hout : ¬(IntShape.mk bits false).holds (a - 2 ^ 32) = true
        ∧ ¬(IntShape.mk bits false).holds a = true := by
      rw [hord.holds_iff, hord.holds_iff, IntShape.least_unsigned]
      dsimp only
      omega
    rw [hnumber, if_neg hout.1, guarded_trap hout.2]

theorem narrow_unchecked (h : n.Ranges r) (hr : r.bits = 1 ∨ 32 ≤ r.bits) :
    narrow n true = narrow n false := by
  cases h with
  | word signed => rfl
  | int h =>
    rcases hr with h1 | h32
    · simp only [narrow, if_pos h1]
    · rw [narrow_whole h32, narrow_whole h32]

theorem IntShape.Standard.eq_bit (h : r.Standard) (h1 : r.bits = 1) : r = ⟨1, false⟩ := by
  rcases h with h | h
  · exact h
  · omega

theorem IntShape.Standard.short (h : r.Standard) (hr : ¬(r.bits = 1 ∨ 32 ≤ r.bits)) :
    r.bits = 8 ∨ r.bits = 16 := by
  rcases h with rfl | h
  · exact absurd (.inl rfl) hr
  · omega

theorem Numeric.Ranges.width_eq (h : n.Ranges r) (hr : r.Standard) (h32 : 32 ≤ r.bits) :
    n.stackKind.width = r.bits := by
  cases h with
  | word signed => rfl
  | int h =>
    rcases hr with rfl | hr
    · exact absurd h32 (by decide)
    · exact Numeric.width_int (by omega)

theorem compute_narrow_guarded (h : n.Ranges r) (hr : r.Standard) (a : Int) (stack : List Word) :
    ∃ code, narrow n true = .ok code ∧
      ((IntShape.mk n.stackKind.width r.signed).holds a = true → (r.bits = 1 → r.holds a = true) →
        computeAll code (n.stackKind.word a :: stack) = guarded n.stackKind r a stack) := by
  by_cases hbits : r.bits = 1 ∨ 32 ≤ r.bits
  · obtain ⟨code, hcode, hrun⟩ := compute_narrow h hr a stack
    refine ⟨code, narrow_unchecked h hbits ▸ hcode, fun ha hbit => ?_⟩
    have hholds : r.holds a = true := by
      rcases hbits with h1 | h32
      · exact hbit h1
      · rwa [h.width_eq hr h32] at ha
    rw [hrun, h.ordinary.wrap_eq hholds, guarded_ok hholds]
  · cases h with
    | word signed => simp at hbits
    | int h =>
      have hshort := hr.short hbits
      obtain ⟨k, hk⟩ := exists_kind hshort
      refine ⟨_, narrow_conv (by omega) (by omega) hk true, fun ha _ => ?_⟩
      rw [Numeric.stackKind_short (by omega)] at ha ⊢
      exact compute_narrow_exact hshort hk (.inl ha) stack

theorem holds_bit (hop : op = .sub ∨ op = .mul) (hd : op.Defined ⟨1, false⟩ a b)
    (h0 : 0 ≤ op.exact a b) : (IntShape.mk 1 false).holds (op.exact a b) = true := by
  have ha := bit_holds_iff.mp hd.left
  rw [bit_holds_iff]
  rcases hop with rfl | rfl <;> have hb := bit_holds_iff.mp (hd.right rfl rfl)
  · change 0 ≤ a - b at h0
    change 0 ≤ a - b ∧ a - b ≤ 1
    omega
  · obtain rfl | rfl : b = 0 ∨ b = 1 := by omega
    · exact ⟨by simp [ArithOp.exact], by simp [ArithOp.exact]⟩
    · rw [ArithOp.exact, Int.mul_one]
      exact ha

def CheckedOutcome (op : ArithOp) (n : Numeric) (r : IntShape) (a b : Int)
    (stack : List Word) : Prop :=
  ∃ code tail, operatorCode op true n = .ok code ∧ narrow n true = .ok tail ∧
    computeAll (code ++ tail) (pushed op n.stackKind a b ++ stack)
      = if op.unguarded r then .ok (n.stackKind.word (r.wrap (op.exact a b)) :: stack)
        else guarded n.stackKind r (op.exact a b) stack

theorem outcome_unsignedNegation (h : n.Ranges r) (hr : r.Standard) (hs : r.signed = false)
    (ha : r.holds a = true) (b : Int) (stack : List Word) : CheckedOutcome .neg n r a b stack := by
  have hcode : operatorCode .neg true n = .ok [plain .neg] :=
    congrArg Except.ok (negation_unsigned h hs true)
  have hrun : computeAll [plain .neg] (pushed .neg n.stackKind a b ++ stack)
      = .ok (n.stackKind.word (-a) :: stack) := computeAll_neg _ a
  have hunguarded : ArithOp.neg.unguarded r = true ↔ r.bits = 1 ∨ 32 ≤ r.bits := by
    simp [ArithOp.unguarded, hs]
  by_cases hbits : r.bits = 1 ∨ 32 ≤ r.bits
  · obtain ⟨tail, htail, hnarrow⟩ := compute_narrow h hr (-a) stack
    refine ⟨_, tail, hcode, narrow_unchecked h hbits ▸ htail, ?_⟩
    rw [computeAll_append_ok hrun, hnarrow, if_pos (hunguarded.mpr hbits)]
    rfl
  · cases h with
    | word signed => simp at hbits
    | int h =>
      have hshort := hr.short hbits
      obtain ⟨k, hk⟩ := exists_kind hshort
      have hsmall : (IntShape.mk 32 true).holds (-a) = true := by
        have hint : IntShape.Ordinary ⟨32, true⟩ := StackKind.int32.ordinary true
        have hpow : (2 : Int) ^ r.bits ≤ 2 ^ 16 := pow_le_pow_right₀ (by decide) (by omega)
        have hleast : r.least = 0 := by simp [IntShape.least, hs]
        rw [h.holds_iff] at ha
        rw [hint.holds_iff, hint.least_signed]
        dsimp only
        omega
      rw [Numeric.stackKind_short (by omega)] at hrun
      refine ⟨_, _, hcode, narrow_conv (by omega) (by omega) hk true, ?_⟩
      rw [Numeric.stackKind_short (by omega), computeAll_append_ok hrun,
        if_neg fun h => hbits (hunguarded.mp h)]
      exact compute_narrow_exact hshort hk (.inr hsmall) stack

theorem outcome_bitSum (hd : ArithOp.add.Defined ⟨1, false⟩ a b) (stack : List Word) :
    CheckedOutcome .add (.int ⟨1, false⟩) ⟨1, false⟩ a b stack := by
  have h : (Numeric.int ⟨1, false⟩).Ranges ⟨1, false⟩ := .int IntShape.ordinary_bit
  obtain ⟨code, hcode, hrun⟩ := compute_guardedOperator h (by decide) (by decide) hd stack
  obtain ⟨tail, htail, hnarrow⟩ := compute_narrow h (.inl rfl) (a + b) stack
  have hsum : (IntShape.mk 32 false).holds (a + b) = true := by
    have ha := bit_holds_iff.mp hd.left
    have hb := bit_holds_iff.mp (hd.right rfl rfl)
    rw [holds_iff]
    change 0 ≤ a + b ∧ a + b ≤ 4294967295
    omega
  refine ⟨code, tail, hcode, htail, ?_⟩
  rw [computeAll_append_ok (hrun.trans (guarded_ok hsum)), if_pos (by decide)]
  exact hnarrow

theorem outcome_checked (h : n.Ranges r) (hr : r.Standard) (hop : op ∈ [.add, .sub, .mul, .neg])
    (hd : op.Defined r a b) (stack : List Word) : CheckedOutcome op n r a b stack := by
  by_cases hneg : op = .neg ∧ r.signed = false
  · obtain ⟨rfl, hs⟩ := hneg
    exact outcome_unsignedNegation h hr hs hd.left b stack
  by_cases hsum : op = .add ∧ r.bits = 1
  · obtain ⟨rfl, h1⟩ := hsum
    obtain rfl := hr.eq_bit h1
    cases h
    exact outcome_bitSum hd stack
  have hsigned : op = .neg → r.signed = true := fun hop => by
    simpa using fun hs => hneg ⟨hop, hs⟩
  obtain ⟨code, hcode, hrun⟩ := compute_guardedOperator h hop hsigned hd stack
  obtain ⟨tail, htail, hnarrow⟩ := compute_narrow_guarded h hr (op.exact a b) stack
  refine ⟨code, tail, hcode, htail, ?_⟩
  rw [if_neg (fun hun => ?_)]
  · refine guarded_append h.holds hrun fun hentry => hnarrow hentry fun h1 => ?_
    -- Differences of truth values that are not negative are truth values, and so are products.
    obtain rfl := hr.eq_bit h1
    refine holds_bit ?_ hd ?_
    · cases op with
      | sub => exact .inl rfl
      | mul => exact .inr rfl
      | add => exact absurd ⟨rfl, rfl⟩ hsum
      | neg => exact absurd ⟨rfl, rfl⟩ hneg
      | _ => exact absurd hop (by decide)
    · rw [(n.stackKind.ordinary false).holds_iff, IntShape.least_unsigned] at hentry
      exact hentry.1
  · rcases ArithOp.unguarded_iff.mp hun with h | h
    · exact hsum h
    · exact hneg ⟨h.1, h.2.1⟩

end Guards

/-- Checked arithmetic leaves the exact result or traps, if the type has the result or the operator
is guarded, and in no other case. -/
theorem checked_exact_iff {op : ArithOp} {t : Ty} {r : IntShape} {a b : Int} (ht : t.Integral r)
    (hr : r.Standard) (hop : op ∈ [.add, .sub, .mul, .neg]) (hd : op.Defined r a b)
    (stack : List Word) :
    ∃ code, arithCode op true t t = .ok code ∧
      (computeAll code (op.operands t a b ++ stack)
          = (if r.holds (op.exact a b) then .ok (t.encode (op.exact a b) :: stack)
            else .error .trap)
        ↔ r.holds (op.exact a b) = true ∨ op.unguarded r = false) := by
  obtain ⟨n, hn, hranges, he⟩ := ht.numeric
  have hconvert : op ≠ .convert := by
    rintro rfl
    exact absurd hop (by decide)
  have hm : op.mayLeaveRange = true := by
    cases op with
    | add | sub | mul | neg => rfl
    | _ => exact absurd hop (by decide)
  obtain ⟨code, tail, hcode, htail, hrun⟩ := outcome_checked hranges hr hop hd stack
  refine ⟨code ++ tail, arithCode_narrowed hconvert hn hcode hm htail, ?_⟩
  rw [operands_eq he, hrun, he]
  change _ = guarded n.stackKind r (op.exact a b) stack ↔ _
  cases hun : op.unguarded r with
  | false => simp
  | true =>
    rw [if_pos rfl]
    by_cases hholds : r.holds (op.exact a b) = true
    · simp [guarded_ok hholds, hranges.ordinary.wrap_eq hholds, hholds]
    · simp [guarded_trap hholds, hholds]

theorem checked_opposite_of_least_traps :
    ArithOp.neg.Defined ⟨8, true⟩ (-128) 0 ∧
      ∃ code, arithCode .neg true (.signed 8) (.signed 8) = .ok code ∧
        computeAll code [(Ty.signed 8).encode (-128)] = .error .trap := by
  have hd : ArithOp.neg.Defined ⟨8, true⟩ (-128) 0 :=
    ⟨by decide, fun _ _ => by decide, by decide, by decide, by decide⟩
  obtain ⟨code, hcode, hrun⟩ := checked_exact_iff (t := .signed 8) (.int ⟨by decide, by decide⟩)
    (.inr (.inl rfl)) (by decide) hd []
  exact ⟨hd, code, hcode, hrun.mpr (.inr (by decide))⟩

theorem checked_overflow_unnoticed :
    (∃ code, arithCode .add true .bool .bool = .ok code ∧
      (IntShape.mk 1 false).holds (ArithOp.add.exact 1 1) = false ∧
      computeAll code [Ty.bool.encode 1, Ty.bool.encode 1] = .ok [Ty.bool.encode 0]) ∧
    ∃ code, arithCode .neg true (.unsigned 32) (.unsigned 32) = .ok code ∧
      (IntShape.mk 32 false).holds (ArithOp.neg.exact 1 0) = false ∧
      computeAll code [(Ty.unsigned 32).encode 1] = .ok [(Ty.unsigned 32).encode 4294967295] :=
  ⟨⟨_, rfl, by decide, by decide⟩, ⟨_, rfl, by decide, by decide⟩⟩

end StackCode
