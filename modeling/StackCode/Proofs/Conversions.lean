import StackCode.Proofs.Calculation

namespace StackCode

open Machine (NumKind)

inductive Ty.Integral : Ty → IntShape → Prop
  | int {r : IntShape} (h : r.Ordinary) : Integral (.int r) r
  | word (signed : Bool) : Integral (.word signed) ⟨64, signed⟩
  | pointer {kind : PointerKind} (h : kind ≠ .boxed) (target : Ty) :
    Integral (.pointer kind target) ⟨64, false⟩

namespace Numeric

inductive Ranges : Numeric → IntShape → Prop
  | int {r : IntShape} (h : r.Ordinary) : Ranges (.int r) r
  | word (signed : Bool) : Ranges (.word signed) ⟨64, signed⟩

def stackKind : Numeric → StackKind
  | .word _ => .native
  | n => if n.isWide then .int64 else .int32

section Ranges

variable {n : Numeric} {r : IntShape} {k : NumKind} {a : Int}

theorem Ranges.ordinary (h : n.Ranges r) : r.Ordinary := by
  cases h with
  | int h => exact h
  | word signed => exact StackKind.native.ordinary signed

theorem Ranges.range (h : n.Ranges r) : n.range? = some r := by
  cases h <;> rfl

theorem Ranges.isSigned (h : n.Ranges r) : n.isSigned = r.signed := by
  cases h <;> rfl

theorem stackKind_int (r : IntShape) :
    (Numeric.int r).stackKind = if 32 < r.bits then .int64 else .int32 := by
  simp [stackKind, isWide]

theorem stackKind_short (h : r.bits ≤ 32) : (Numeric.int r).stackKind = .int32 := by
  rw [stackKind_int, if_neg (by omega)]

theorem stackKind_wide (h : 32 < r.bits) : (Numeric.int r).stackKind = .int64 := by
  rw [stackKind_int, if_pos h]

theorem width_int (h : r.bits = 32 ∨ r.bits = 64) : (Numeric.int r).stackKind.width = r.bits := by
  rcases h with h | h
  · rw [stackKind_short (by omega), h]
    rfl
  · rw [stackKind_wide (by omega), h]
    rfl

theorem Ranges.bits_le (h : n.Ranges r) : r.bits ≤ n.stackKind.width := by
  cases h with
  | int h =>
    have := h.le
    rw [stackKind_int]
    split <;> simp only [StackKind.width] <;> omega
  | word signed => exact le_refl 64

theorem Ranges.stackKind_narrow (h : n.Ranges r) (hw : n.isWide = false) :
    n.stackKind = .int32 := by
  cases h with
  | int h => rw [stackKind_int, if_neg (of_decide_eq_false hw)]
  | word signed => cases hw

theorem Ranges.width_wide (h : n.Ranges r) (hw : n.isWide = true) : n.stackKind.width = 64 := by
  cases h with
  | int h =>
    rw [stackKind_int, if_pos (of_decide_eq_true hw)]
    rfl
  | word signed => rfl

theorem Ranges.holds (h : n.Ranges r) (ha : r.holds a = true) :
    (IntShape.mk n.stackKind.width r.signed).holds a = true :=
  h.ordinary.holds_mono h.bits_le (n.stackKind.ordinary r.signed).le ha

theorem Ranges.integers_kind (h : n.Ranges r) (hk : n.kind = .ok k) :
    integers? k = some (n.stackKind, r) := by
  cases h with
  | word signed => cases signed <;> cases hk <;> rfl
  | int h =>
    unfold kind at hk
    split at hk <;> cases hk <;> simp_all [integers?, stackKind_int]

end Ranges

end Numeric

theorem Ty.Integral.numeric {t : Ty} {r : IntShape} (h : t.Integral r) :
    ∃ n, Numeric.of? t = some n ∧ n.Ranges r ∧ t.encode = n.stackKind.word := by
  cases h with
  | int h =>
    refine ⟨.int r, rfl, .int h, ?_⟩
    funext a
    rw [encode, Ty.stackKind_int, Numeric.stackKind_int]
  | word signed => exact ⟨.word signed, rfl, .word signed, rfl⟩
  | @pointer kind hk target =>
    cases kind with
    | boxed => exact absurd rfl hk
    | _ => exact ⟨.word false, rfl, .word false, rfl⟩

section Codes

variable {m n : Numeric} {r s : IntShape} {k : NumKind} {kind : StackKind} {a b : Int}
  {code : List Machine.Instr} {stack : List Word} {checked : Bool}

theorem land_one_emod (a : Int) : a.land 1 % 2 ^ 32 = a % 2 := by
  have hmod : a % 4294967296 % 2 = a % 2 := Int.emod_emod_of_dvd a (by decide)
  have h := congrArg BitVec.toNat (ofInt_land 32 a 1)
  have hone : (BitVec.ofInt 32 1).toNat = 1 := by decide
  rw [BitVec.toNat_and, hone, Nat.and_one_is_mod, BitVec.toNat_ofInt, BitVec.toNat_ofInt] at h
  norm_num at h ⊢
  omega

theorem compute_maskToBool (h : n.Ranges r) (a : Int) (stack : List Word) :
    computeAll (maskToBool n) (n.stackKind.word a :: stack)
      = .ok (StackKind.int32.word (a % 2) :: stack) := by
  have hmask (b : Int) (hb : b % 2 = a % 2) :
      computeAll [ldcI4 1, binary .and] (StackKind.int32.word b :: stack)
        = .ok (StackKind.int32.word (a % 2) :: stack) := by
    have hand : StackKind.int32.word (b.land 1) = StackKind.int32.word (a % 2) := by
      have hlt := Int.emod_two_eq a
      rw [StackKind.word_eq_iff]
      change b.land 1 % 2 ^ 32 = a % 2 % 2 ^ 32
      rw [land_one_emod, hb]
      omega
    rw [computeAll_ok (compute_ldcI4 1 _),
      computeAll_ok (compute_binary (StackKind.word_and _ b 1)), hand]
    rfl
  rw [maskToBool]
  cases hw : n.isWide
  · have hkind : n.stackKind = .int32 := h.stackKind_narrow hw
    rw [if_neg Bool.false_ne_true, List.nil_append, hkind]
    exact hmask a rfl
  · have hwidth : n.stackKind.width = 64 := h.width_wide hw
    have hu4 : IntShape.Ordinary ⟨32, false⟩ := ⟨by decide, by decide⟩
    rw [if_pos rfl, List.singleton_append, computeAll_ok (compute_conv rfl _ _),
      StackKind.resized_word hu4 (.inl (by rw [hwidth]; decide))]
    apply hmask
    exact emod_of_le (m := 1) (w := 32) (by decide) (IntShape.wrap_emod ⟨32, false⟩ a)

theorem compute_exact (h : m.Ranges r) (hk : integers? k = some (kind, s)) (ha : r.holds a = true)
    (stack : List Word) :
    (plain (if m.isSigned then .convOvf k else .convOvfUn k)).compute (m.stackKind.word a :: stack)
      = if s.holds a then .ok (kind.word a :: stack) else .error .trap := by
  have hnumber : (m.stackKind.word a).number m.isSigned = a := by
    rw [h.isSigned, StackKind.number_word (h.holds ha)]
  rw [compute_convOvf hk, hnumber]

theorem byte_holds_iff : (IntShape.mk 8 false).holds a = true ↔ 0 ≤ a ∧ a ≤ 255 := holds_iff

theorem bit_holds_iff : (IntShape.mk 1 false).holds a = true ↔ 0 ≤ a ∧ a ≤ 1 := holds_iff

theorem compute_checkedToBool (h : m.Ranges r) (ha : r.holds a = true) (stack : List Word) :
    computeAll (checkedToBool m) (m.stackKind.word a :: stack)
      = if (IntShape.mk 1 false).holds a then .ok (StackKind.int32.word a :: stack)
        else .error .trap := by
  have hbyte := compute_exact h (k := .u1) rfl ha stack
  by_cases hb : (IntShape.mk 8 false).holds a = true
  · rw [if_pos hb] at hbyte
    rw [byte_holds_iff] at hb
    have hint : (IntShape.mk 32 true).holds (a + 254) = true := by
      rw [holds_iff]
      change -2147483648 ≤ a + 254 ∧ a + 254 ≤ 2147483647
      omega
    have hsum : (plain (.convOvf .u1)).compute (StackKind.int32.word (a + 254) :: stack)
        = if (IntShape.mk 8 false).holds (a + 254) then
            .ok (StackKind.int32.word (a + 254) :: stack) else .error .trap :=
      compute_exact (.int ⟨by decide, by decide⟩) (m := .int ⟨32, true⟩) rfl hint stack
    rw [checkedToBool, computeAll_ok hbyte, computeAll_ok (compute_ldcI4 254 _),
      computeAll_ok (compute_binary (StackKind.word_add _ a 254))]
    -- A byte above 1 is no byte any more when 254 is added.
    by_cases hbit : (IntShape.mk 1 false).holds a = true
    · rw [if_pos hbit]
      rw [bit_holds_iff] at hbit
      rw [if_pos (byte_holds_iff.mpr (by omega))] at hsum
      rw [computeAll_ok hsum, computeAll_ok (compute_ldcI4 254 _),
        computeAll_ok (compute_binary (StackKind.word_sub _ (a + 254) 254)), Int.add_sub_cancel]
      rfl
    · rw [if_neg hbit]
      rw [bit_holds_iff] at hbit
      rw [if_neg (fun h => hbit (by rw [byte_holds_iff] at h; omega))] at hsum
      exact computeAll_error hsum
  · rw [if_neg hb] at hbyte
    rw [byte_holds_iff] at hb
    rw [if_neg (fun h => hb (by rw [bit_holds_iff] at h; omega))]
    exact computeAll_error hbyte

theorem compute_widening (h : m.Ranges r) (hk : integers? k = some (kind, ⟨64, r.signed⟩))
    (hkind : kind.width = 64) (hs : s.Ordinary) (hbits : s.bits = 64) (ha : r.holds a = true)
    (stack : List Word) :
    computeAll [plain (.conv k)] (m.stackKind.word a :: stack)
      = .ok (kind.word (s.wrap a) :: stack) := by
  have hwide : IntShape.Ordinary ⟨64, r.signed⟩ := StackKind.native.ordinary r.signed
  rw [computeAll_single, compute_conv hk, StackKind.resized_word hwide (.inr (h.holds ha)),
    StackKind.word_wrap hwide (.inl hkind), StackKind.word_wrap hs (.inl (by rw [hkind, hbits]))]

theorem Numeric.Ranges.bits_of_kind (h : n.Ranges r) (hk : n.kind = .ok k) :
    r.bits = 8 ∨ r.bits = 16 ∨ r.bits = 32 ∨ r.bits = 64 := by
  cases h with
  | word signed => simp
  | int h =>
    unfold kind at hk
    split at hk <;> simp_all

theorem holds_of_within (h : r.within s = true) (ha : r.holds a = true) : s.holds a = true := by
  rw [IntShape.within, Bool.and_eq_true, decide_eq_true_eq, decide_eq_true_eq] at h
  rw [holds_iff] at ha ⊢
  omega

theorem compute_unchanged (hs : s.Ordinary) (hmn : m.stackKind = n.stackKind)
    (hw : n.stackKind.width = s.bits ∨ s.holds a = true) :
    computeAll [] (m.stackKind.word a :: stack) = .ok (n.stackKind.word (s.wrap a) :: stack) := by
  rw [computeAll, hmn, StackKind.word_wrap hs hw]

theorem compute_cut (hn : n.Ranges s) (hk : n.kind = .ok k) (hle : s.bits ≤ kind.width) :
    computeAll [plain (.conv k)] (kind.word a :: stack)
      = .ok (n.stackKind.word (s.wrap a) :: stack) := by
  rw [computeAll_single, compute_conv (hn.integers_kind hk),
    StackKind.resized_word hn.ordinary (.inl hle)]

theorem compute_extend_wide (hm : m.Ranges r) (hs : s.Ordinary) (h64 : s.bits = 64)
    (ha : r.holds a = true) (stack : List Word) :
    computeAll (extend m (.int s) r s k) (m.stackKind.word a :: stack)
      = .ok ((Numeric.int s).stackKind.word (s.wrap a) :: stack) := by
  have hwide : 32 < s.bits := by omega
  have hkind : (Numeric.int s).stackKind = .int64 := Numeric.stackKind_wide hwide
  have hext : computeAll [plain (.conv (if m.isSigned then .i8 else .u8))]
      (m.stackKind.word a :: stack) = .ok ((Numeric.int s).stackKind.word (s.wrap a) :: stack) := by
    have hlong : integers? (if m.isSigned then .i8 else .u8) = some (.int64, ⟨64, r.signed⟩) := by
      rw [hm.isSigned]
      cases r.signed <;> rfl
    rw [hkind]
    exact compute_widening hm hlong rfl hs h64 ha stack
  simp only [extend, if_pos hwide]
  cases hm with
  | word signed => exact hext
  | int hr =>
    dsimp only
    by_cases hr32 : 32 < r.bits
    · have hsame : (Numeric.int r).stackKind = .int64 := Numeric.stackKind_wide hr32
      rw [if_pos hr32]
      exact compute_unchanged hs (hsame.trans hkind.symm) (.inl (Numeric.width_int (.inr h64)))
    · rw [if_neg hr32]
      exact hext

theorem compute_extend_short (hm : m.Ranges r) (hs : s.Ordinary) (h32 : s.bits ≤ 32)
    (hk : (Numeric.int s).kind = .ok k) (ha : r.holds a = true) (stack : List Word) :
    computeAll (extend m (.int s) r s k) (m.stackKind.word a :: stack)
      = .ok ((Numeric.int s).stackKind.word (s.wrap a) :: stack) := by
  have hkind := Numeric.stackKind_short h32
  have hcut : computeAll [plain (.conv k)] (m.stackKind.word a :: stack)
      = .ok ((Numeric.int s).stackKind.word (s.wrap a) :: stack) :=
    compute_cut (.int hs) hk (h32.trans m.stackKind.le_width)
  simp only [extend, if_neg (show ¬32 < s.bits by omega)]
  cases hmw : m.isWide with
  | true => exact hcut
  | false =>
    rw [if_neg Bool.false_ne_true]
    by_cases hsame : (decide (s.bits = 32) || r.within s) = true
    · rw [if_pos hsame]
      rw [Bool.or_eq_true, decide_eq_true_eq] at hsame
      refine compute_unchanged hs ((hm.stackKind_narrow hmw).trans hkind.symm) (hsame.imp ?_ ?_)
      · exact fun hbits => Numeric.width_int (.inl hbits)
      · exact fun h => holds_of_within h ha
    · rw [if_neg hsame]
      exact hcut

theorem compute_extend (hm : m.Ranges r) (hn : n.Ranges s) (hk : n.kind = .ok k)
    (ha : r.holds a = true) (stack : List Word) :
    computeAll (extend m n r s k) (m.stackKind.word a :: stack)
      = .ok (n.stackKind.word (s.wrap a) :: stack) := by
  have hbits := hn.bits_of_kind hk
  cases hn with
  | word signed =>
    have hs : IntShape.Ordinary ⟨64, signed⟩ := StackKind.native.ordinary signed
    cases hm with
    | word signed' => exact compute_unchanged hs rfl (.inl rfl)
    | int h =>
      have hword : integers? (if r.signed then .i else .u) = some (.native, ⟨64, r.signed⟩) := by
        cases r.signed <;> rfl
      exact compute_widening (.int h) hword rfl hs rfl ha stack
  | int hs =>
    by_cases h32 : s.bits ≤ 32
    · exact compute_extend_short hm hs h32 hk ha stack
    · exact compute_extend_wide hm hs (by omega) ha stack

def converted (kind : StackKind) (s : IntShape) (checked : Bool) (a : Int) : Except Halt Word :=
  if checked then
    if s.holds a then .ok (kind.word a) else .error .trap
  else .ok (kind.word (s.wrap a))

theorem compute_toInteger (hm : m.Ranges r) (hn : n.Ranges s)
    (hcode : toInteger m n checked = .ok code) (ha : r.holds a = true) (stack : List Word) :
    computeAll code (m.stackKind.word a :: stack)
      = (converted n.stackKind s checked a).map (· :: stack) := by
  rw [toInteger] at hcode
  cases hk : n.kind with
  | error e =>
    rw [hk] at hcode
    cases hcode
  | ok k =>
    simp only [hk, hm.range, hn.range] at hcode
    split at hcode
    · rename_i hcheck
      rw [Bool.and_eq_true] at hcheck
      cases hcode
      rw [computeAll_single, compute_exact hm (hn.integers_kind hk) ha, converted, if_pos hcheck.1]
      split <;> rfl
    · rename_i hcheck
      cases hcode
      rw [compute_extend hm hn hk ha, converted]
      split
      · rename_i hc
        have hs : s.holds a = true := by
          refine holds_of_within ?_ ha
          simpa [hc] using hcheck
        rw [if_pos hs, hn.ordinary.wrap_eq hs]
        rfl
      · rfl

theorem toBool_eq (h : m.Ranges r) (checked : Bool) : toBool m checked
    = if r.bits = 1 then [] else if checked then checkedToBool m else maskToBool m := by
  cases h with
  | word signed => cases checked <;> rfl
  | int h =>
    unfold toBool
    split
    · rename_i heq
      cases heq
      rfl
    · rename_i hne
      have hbits : r.bits ≠ 1 := fun hr => hne r.signed (by rw [← hr])
      rw [if_neg hbits]

theorem wrap_bit (a : Int) : (IntShape.mk 1 false).wrap a = a % 2 := by
  simp [IntShape.wrap, IntShape.least_unsigned]

theorem compute_toBool (hm : m.Ranges r) (hr : r ≠ ⟨1, true⟩) (ha : r.holds a = true)
    (stack : List Word) :
    computeAll (toBool m checked) (m.stackKind.word a :: stack)
      = (converted .int32 ⟨1, false⟩ checked a).map (· :: stack) := by
  rw [toBool_eq hm, converted]
  split
  · rename_i hbits
    have hr' : r = ⟨1, false⟩ := by
      obtain ⟨bits, signed⟩ := r
      cases signed <;> simp_all
    subst hr'
    have hkind : m.stackKind = .int32 := by cases hm; rfl
    rw [computeAll, hkind, IntShape.ordinary_bit.wrap_eq ha, if_pos ha, ite_self]
    rfl
  · cases checked with
    | true =>
      rw [if_pos rfl, if_pos rfl, compute_checkedToBool hm ha]
      split <;> rfl
    | false =>
      rw [if_neg Bool.false_ne_true, if_neg Bool.false_ne_true, compute_maskToBool hm, wrap_bit]
      rfl

theorem compute_convertNumeric (hm : m.Ranges r) (hn : n.Ranges s) (hr : r ≠ ⟨1, true⟩)
    (hs : s ≠ ⟨1, true⟩) (hcode : convertNumeric m n checked = .ok code) (ha : r.holds a = true)
    (stack : List Word) :
    computeAll code (m.stackKind.word a :: stack)
      = (converted n.stackKind s checked a).map (· :: stack) := by
  unfold convertNumeric at hcode
  split at hcode
  · cases hn
  · cases hn
  · rename_i signed
    cases hn
    cases hcode
    cases signed with
    | true => exact absurd rfl hs
    | false => exact compute_toBool hm hr ha stack
  · exact compute_toInteger hm hn hcode ha stack

end Codes

/-- Conversions leave the residue of an integer in the target, or, if they are checked, the integer
itself and an exception where the target has no such integer. -/
theorem conversion_exact {source target : Ty} {r s : IntShape} {checked : Bool}
    {code : List Machine.Instr} {a : Int} (hsource : source.Integral r)
    (htarget : target.Integral s)
    (hr : r ≠ ⟨1, true⟩) (hs : s ≠ ⟨1, true⟩) (hcode : conversion source target checked = .ok code)
    (ha : r.holds a = true) (stack : List Word) :
    computeAll code (source.encode a :: stack)
      = if checked then
          if s.holds a then .ok (target.encode a :: stack) else .error .trap
        else .ok (target.encode (s.wrap a) :: stack) := by
  obtain ⟨m, hm, hmr, hme⟩ := hsource.numeric
  obtain ⟨n, hn, hnr, hne⟩ := htarget.numeric
  rw [conversion, Numeric.of, Numeric.of, hm, hn] at hcode
  rw [hme, hne, compute_convertNumeric hmr hnr hr hs hcode ha, converted]
  split
  · split <;> rfl
  · rfl

theorem conversion_two_traps :
    conversion (.signed 64) .bool true = .ok (checkedToBool (.int ⟨64, true⟩))
      ∧ computeAll (checkedToBool (.int ⟨64, true⟩)) [(Ty.signed 64).encode 2] = .error .trap := by
  have hcode : conversion (.signed 64) .bool true = .ok (checkedToBool (.int ⟨64, true⟩)) := rfl
  exact ⟨hcode, conversion_exact (.int ⟨by decide, by decide⟩) (.int ⟨by decide, by decide⟩)
    (by decide) (by decide) hcode (a := 2) (by decide) []⟩

end StackCode
