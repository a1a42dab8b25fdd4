import StackCode.Proofs.Conversions

namespace StackCode

open Machine (NumKind)

namespace ArithOp

def isShift : ArithOp → Bool
  | .shl | .shr => true
  | _ => false

def divides : ArithOp → Bool
  | .div | .rem => true
  | _ => false

/-- The result of an operator over all integers. Bits are those of the two's complement, without
end. -/
def exact (op : ArithOp) (a b : Int) : Int :=
  match op with
  | .add => a + b
  | .sub => a - b
  | .mul => a * b
  | .div => a.tdiv b
  | .rem => a.tmod b
  | .and => a.land b
  | .or => a.lor b
  | .xor => a.xor b
  | .shl => a * 2 ^ b.toNat
  | .shr => a / 2 ^ b.toNat
  | .not => -a - 1
  | .neg => -a
  | .eq => if a = b then 1 else 0
  | .ne => if a ≠ b then 1 else 0
  | .lt => if a < b then 1 else 0
  | .le => if a ≤ b then 1 else 0
  | .gt => if b < a then 1 else 0
  | .ge => if b ≤ a then 1 else 0
  | .convert => a

/-- The operands of an operator on the stack. Unary operators have no second one, and shift counts
are 32-bit integers. -/
def operands (op : ArithOp) (t : Ty) (a b : Int) : List Word :=
  if op.isUnary then [t.encode a]
  else [(if op.isShift then Ty.signed 32 else t).encode b, t.encode a]

def resultType (op : ArithOp) (t : Ty) : Ty := if op.isComparison then .bool else t

def resultShape (op : ArithOp) (r : IntShape) : IntShape :=
  if op.isComparison then ⟨1, false⟩ else r

structure Defined (op : ArithOp) (r : IntShape) (a b : Int) : Prop where
  left : r.holds a = true
  right : op.isUnary = false → op.isShift = false → r.holds b = true
  count : op.isShift = true → 0 ≤ b ∧ b < r.bits
  divisor : op.divides = true → b ≠ 0
  quotient : op.divides = true → 32 ≤ r.bits → ¬(a = r.least ∧ b = -1)

end ArithOp

namespace IntShape.Ordinary

variable {r : IntShape} {a b : Int} {w : Nat}

theorem two_pow_half_pos (r : IntShape) : (0 : Int) < 2 ^ (r.bits - 1) := by positivity

theorem holds_tdiv (h : r.Ordinary) (ha : r.holds a = true) (hb : r.holds b = true) (h0 : b ≠ 0)
    (hx : ¬(a = r.least ∧ b = -1)) : r.holds (a.tdiv b) = true := by
  have hpow := h.two_pow
  have hhalf := two_pow_half_pos r
  have hle := Int.natAbs_tdiv_le_natAbs a b
  rw [h.holds_iff] at ha hb ⊢
  have hleast := h.least_le
  rcases Int.lt_or_gt_of_ne h0 with hneg | hpos
  · -- Only signed shapes have a negative divisor, and these are symmetric but for the least value.
    have hl : r.least = -2 ^ (r.bits - 1) := by
      obtain ⟨bits, signed⟩ := r
      cases signed
      · rw [least_unsigned] at hb
        omega
      · exact h.least_signed
    by_cases hone : b = -1
    · rw [hone, Int.tdiv_neg, Int.tdiv_one]
      omega
    · have htwo : (a.tdiv b).natAbs ≤ a.natAbs / 2 := by
        rw [Int.natAbs_tdiv]
        exact Nat.div_le_div_left (by omega) (by decide)
      omega
  · rcases Int.le_total 0 a with hge | hle'
    · have := Int.tdiv_nonneg hge hpos.le
      omega
    · have hq := Int.tdiv_nonneg (Int.neg_nonneg_of_nonpos hle') hpos.le
      rw [Int.neg_tdiv] at hq
      omega

theorem holds_tmod (h : r.Ordinary) (ha : r.holds a = true) (b : Int) :
    r.holds (a.tmod b) = true := by
  have hleast := h.least_le
  have hhalf := two_pow_half_pos r
  have hpow := h.two_pow
  have habs : (a.tmod b).natAbs ≤ a.natAbs := by
    rw [Int.natAbs_tmod]
    exact Nat.mod_le _ _
  rw [h.holds_iff] at ha ⊢
  rcases Int.le_total 0 a with hge | hle
  · have := Int.tmod_nonneg b hge
    omega
  · have hm := Int.tmod_nonneg b (Int.neg_nonneg_of_nonpos hle)
    rw [Int.neg_tmod] at hm
    omega

theorem holds_shiftRight (h : r.Ordinary) (ha : r.holds a = true) (n : Nat) :
    r.holds (a / 2 ^ n) = true := by
  have hleast := h.least_le
  have hhalf := two_pow_half_pos r
  have hpow := h.two_pow
  have hone : (1 : Int) ≤ 2 ^ n := by exact_mod_cast Nat.one_le_two_pow
  rw [h.holds_iff] at ha ⊢
  rcases Int.le_total 0 a with hge | hle
  · have h₁ := Int.ediv_nonneg hge (by omega : (0 : Int) ≤ 2 ^ n)
    have h₂ := Int.ediv_le_self (2 ^ n) hge
    omega
  · have h₁ : a ≤ a / 2 ^ n := by
      rw [Int.le_ediv_iff_mul_le (by omega)]
      calc a * 2 ^ n ≤ a * 1 := mul_le_mul_of_nonpos_left hone hle
        _ = a := mul_one a
    have h₂ := Int.ediv_le_ediv (by omega : (0 : Int) < 2 ^ n) hle
    rw [Int.zero_ediv] at h₂
    omega

theorem holds_complement (h : r.Ordinary) (hs : r.signed = true) (ha : r.holds a = true) :
    r.holds (-a - 1) = true := by
  have hpow := h.two_pow
  obtain ⟨bits, signed⟩ := r
  obtain rfl : signed = true := hs
  rw [h.holds_iff, h.least_signed] at ha ⊢
  dsimp only at *
  omega

end IntShape.Ordinary

section Operators

variable {n : Numeric} {r : IntShape} {k : StackKind} {op : ArithOp} {a b : Int} {stack : List Word}
  {x y z : Word}

theorem computeAll_binary {op : Machine.BinaryOp} (hz : x.binary op y = .ok z) :
    computeAll [binary op] (y :: x :: stack) = .ok (z :: stack) := by
  rw [computeAll_single, compute_binary hz]

theorem computeAll_not (k : StackKind) (a : Int) :
    computeAll [plain .not] (k.word a :: stack) = .ok (k.word (-a - 1) :: stack) := by
  rw [computeAll_single]
  change ((k.word a).transform fun x => .ok (~~~x)).map (· :: stack) = _
  rw [StackKind.word_not]
  rfl

theorem computeAll_neg (k : StackKind) (a : Int) :
    computeAll [plain .neg] (k.word a :: stack) = .ok (k.word (-a) :: stack) := by
  rw [computeAll_single]
  change ((k.word a).transform fun x => .ok (-x)).map (· :: stack) = _
  rw [StackKind.word_neg]
  rfl

theorem computeAll_opposite {op : Machine.BinaryOp} {p : Prop} [Decidable p]
    (h : x.binary op y = .ok (StackKind.int32.word (if p then 1 else 0))) :
    computeAll [binary op, ldcI4 0, binary .ceq] (y :: x :: stack)
      = .ok (StackKind.int32.word (if ¬p then 1 else 0) :: stack) := by
  rw [computeAll_ok (compute_binary h), computeAll_ok (compute_ldcI4 0 _)]
  apply computeAll_binary
  by_cases hp : p <;> simp only [hp, not_true, not_false_iff, if_true, if_false] <;> rfl

theorem holds_quotient (h : n.Ranges r) (ha : r.holds a = true) (hb : r.holds b = true) (h0 : b ≠ 0)
    (hx : 32 ≤ r.bits → ¬(a = r.least ∧ b = -1)) :
    (IntShape.mk n.stackKind.width r.signed).holds (a.tdiv b) = true := by
  have hw := n.stackKind.ordinary r.signed
  refine hw.holds_tdiv (h.holds ha) (h.holds hb) h0 ?_
  rintro ⟨hleast, hone⟩
  have hr := h.ordinary
  have hle := h.bits_le
  rw [hr.holds_iff] at ha hb
  obtain ⟨bits, signed⟩ := r
  cases signed with
  | false =>
    rw [IntShape.least_unsigned] at hb
    omega
  | true =>
    rw [hw.least_signed] at hleast
    rw [hr.least_signed, hleast] at ha
    -- The least integer of the entry is one of the type only if the type fills the entry.
    have hbits : bits = n.stackKind.width := by
      by_contra hne
      have hlt : bits - 1 < n.stackKind.width - 1 := by
        have := hr.pos
        dsimp only at hle this
        omega
      have : (2 : Int) ^ (bits - 1) < 2 ^ (n.stackKind.width - 1) :=
        pow_lt_pow_right₀ (by decide) hlt
      omega
    refine hx ?_ ⟨?_, hone⟩
    · exact hbits ▸ n.stackKind.le_width
    · rw [hr.least_signed, hleast, hbits]

def pushed (op : ArithOp) (k : StackKind) (a b : Int) : List Word :=
  if op.isUnary then [k.word a] else [(if op.isShift then .int32 else k).word b, k.word a]

theorem compute_signedOp {signed unsigned : Machine.BinaryOp} (h : n.Ranges r)
    (hz : x.binary (if r.signed then signed else unsigned) y = .ok z) :
    computeAll (signedOp n signed unsigned) (y :: x :: stack) = .ok (z :: stack) := by
  rw [signedOp, h.isSigned, computeAll_binary hz]

theorem compute_negatedOp {signed unsigned : Machine.BinaryOp} {p : Prop} [Decidable p]
    (h : n.Ranges r)
    (hz : x.binary (if r.signed then signed else unsigned) y
      = .ok (StackKind.int32.word (if p then 1 else 0))) :
    computeAll (negatedOp n signed unsigned) (y :: x :: stack)
      = .ok (StackKind.int32.word (if ¬p then 1 else 0) :: stack) := by
  have hfloat : n.isFloat = false := by cases h <;> rfl
  rw [negatedOp, h.isSigned, hfloat, Bool.not_false, Bool.and_true, computeAll_opposite hz]

theorem compute_operator (h : n.Ranges r) (hop : op ≠ .not) (hop' : op ≠ .convert)
    (hd : op.Defined r a b) (stack : List Word) :
    ∃ code, operatorCode op false n = .ok code ∧
      computeAll code (pushed op n.stackKind a b ++ stack)
        = .ok ((if op.isComparison then .int32 else n.stackKind).word (op.exact a b) :: stack) := by
  have hr := h.ordinary
  have ha := h.holds hd.left
  cases op with
  | add => exact ⟨_, rfl, computeAll_binary (StackKind.word_add _ a b)⟩
  | sub => exact ⟨_, rfl, computeAll_binary (StackKind.word_sub _ a b)⟩
  | mul => exact ⟨_, rfl, computeAll_binary (StackKind.word_mul _ a b)⟩
  | and => exact ⟨_, rfl, computeAll_binary (StackKind.word_and _ a b)⟩
  | or => exact ⟨_, rfl, computeAll_binary (StackKind.word_or _ a b)⟩
  | xor => exact ⟨_, rfl, computeAll_binary (StackKind.word_xor _ a b)⟩
  | div =>
    have hb := hd.right rfl rfl
    have hq := holds_quotient h hd.left hb (hd.divisor rfl) (hd.quotient rfl)
    exact ⟨_, rfl, compute_signedOp h (StackKind.word_div ha (h.holds hb) (hd.divisor rfl) hq)⟩
  | rem =>
    have hb := hd.right rfl rfl
    have hq := holds_quotient h hd.left hb (hd.divisor rfl) (hd.quotient rfl)
    exact ⟨_, rfl, compute_signedOp h (StackKind.word_rem ha (h.holds hb) (hd.divisor rfl) hq)⟩
  | shl =>
    obtain ⟨h0, hb⟩ := hd.count rfl
    have hle := h.bits_le
    exact ⟨_, rfl, computeAll_binary (StackKind.word_shl _ a h0 (by omega))⟩
  | shr =>
    obtain ⟨h0, hb⟩ := hd.count rfl
    have hle := h.bits_le
    exact ⟨_, rfl, compute_signedOp h (StackKind.word_shr ha h0 (by omega))⟩
  | neg => exact ⟨_, rfl, computeAll_neg _ a⟩
  | eq => exact ⟨_, rfl, computeAll_binary (StackKind.word_ceq ha (h.holds (hd.right rfl rfl)))⟩
  | ne => exact ⟨_, rfl, computeAll_opposite (StackKind.word_ceq ha (h.holds (hd.right rfl rfl)))⟩
  | lt => exact ⟨_, rfl, compute_signedOp h (StackKind.word_clt ha (h.holds (hd.right rfl rfl)))⟩
  | gt => exact ⟨_, rfl, compute_signedOp h (StackKind.word_cgt ha (h.holds (hd.right rfl rfl)))⟩
  | le =>
    have hgt := StackKind.word_cgt ha (h.holds (hd.right rfl rfl))
    refine ⟨_, rfl, (compute_negatedOp h hgt).trans ?_⟩
    simp only [not_lt]
    rfl
  | ge =>
    have hlt := StackKind.word_clt ha (h.holds (hd.right rfl rfl))
    refine ⟨_, rfl, (compute_negatedOp h hlt).trans ?_⟩
    simp only [not_lt]
    rfl
  | not => exact absurd rfl hop
  | convert => exact absurd rfl hop'

theorem narrow_conv {k : NumKind} (h1 : r.bits ≠ 1) (h32 : r.bits < 32)
    (hk : (Numeric.int r).kind = .ok k) (checked : Bool) : narrow (.int r) checked
      = .ok [plain (if checked then .convOvf k else .conv k)] := by
  simp only [narrow, if_neg h1, if_pos h32, hk]
  rfl

theorem narrow_whole (h : 32 ≤ r.bits) (checked : Bool) : narrow (.int r) checked = .ok [] := by
  simp only [narrow, if_neg (show r.bits ≠ 1 by omega), if_neg (show ¬r.bits < 32 by omega)]

theorem exists_kind (h : r.bits = 8 ∨ r.bits = 16) : ∃ k, (Numeric.int r).kind = .ok k := by
  obtain ⟨bits, signed⟩ := r
  rcases h with h | h <;> (dsimp only at h; subst h; cases signed <;> exact ⟨_, rfl⟩)

def IntShape.Standard (r : IntShape) : Prop :=
  r = ⟨1, false⟩ ∨ r.bits = 8 ∨ r.bits = 16 ∨ r.bits = 32 ∨ r.bits = 64

theorem compute_narrow (h : n.Ranges r) (hr : r.Standard) (a : Int) (stack : List Word) :
    ∃ code, narrow n false = .ok code ∧
      computeAll code (n.stackKind.word a :: stack)
        = .ok (n.stackKind.word (r.wrap a) :: stack) := by
  have hord := h.ordinary
  have hwhole (hw : n.stackKind.width = r.bits) :
      computeAll [] (n.stackKind.word a :: stack) = .ok (n.stackKind.word (r.wrap a) :: stack) := by
    rw [computeAll, StackKind.word_wrap hord (.inl hw)]
  cases h with
  | word signed => exact ⟨[], rfl, hwhole rfl⟩
  | int h =>
    rcases hr with rfl | hr
    · refine ⟨_, rfl, ?_⟩
      rw [compute_maskToBool (.int h), wrap_bit]
      rfl
    · by_cases h32 : 32 ≤ r.bits
      · exact ⟨[], narrow_whole h32 false, hwhole (Numeric.width_int (by omega))⟩
      · obtain ⟨k, hk⟩ := exists_kind (r := r) (by omega)
        exact ⟨_, narrow_conv (by omega) (by omega) hk false,
          compute_cut (.int h) hk (Numeric.Ranges.bits_le (.int h))⟩

theorem xor_mask {w : Nat} {m : Nat} (h : m < 2 ^ w) : m ^^^ (2 ^ w - 1) = 2 ^ w - 1 - m := by
  have hx := congrArg BitVec.toNat (BitVec.xor_allOnes (x := BitVec.ofNatLT m h))
  rwa [BitVec.toNat_xor, BitVec.toNat_allOnes, BitVec.toNat_not] at hx

theorem wrap_complement {bits : Nat} (h : (IntShape.mk bits false).Ordinary)
    (ha : (IntShape.mk bits false).holds a = true) :
    (IntShape.mk bits false).wrap (-a - 1) = a.xor (Int.ofNat (twoPow bits - 1)) := by
  have hpow : ((2 ^ bits : Nat) : Int) = 2 ^ bits := by push_cast; rfl
  rw [h.holds_iff, IntShape.least_unsigned, Int.zero_add] at ha
  lift a to Nat using ha.1
  have hlt : a < 2 ^ bits := by exact_mod_cast ha.2
  have hxor : (a : Int).xor (Int.ofNat (twoPow bits - 1)) = ((2 ^ bits - 1 - a : Nat) : Int) :=
    congrArg Nat.cast (xor_mask hlt)
  have hcast : ((2 ^ bits - 1 - a : Nat) : Int) = 2 ^ bits - 1 - a := by omega
  rw [hxor, hcast]
  apply h.wrap_unique
  · rw [h.holds_iff, IntShape.least_unsigned]
    dsimp only
    omega
  · rw [show (2 : Int) ^ bits - 1 - a = -a - 1 + 2 ^ bits by omega, Int.add_emod_right]

theorem compute_complement (h : n.Ranges r) (hbit : r ≠ ⟨1, true⟩)
    (hwide : r.signed = true ∨ r.bits ≤ 32 ∨ r.bits = 64) (ha : r.holds a = true)
    (stack : List Word) :
    ∃ code, complement n = .ok code ∧
      computeAll code (n.stackKind.word a :: stack)
        = .ok (n.stackKind.word (r.wrap (-a - 1)) :: stack) := by
  have hord := h.ordinary
  have hnot (hw : n.stackKind.width = r.bits ∨ r.holds (-a - 1) = true) :
      computeAll [plain .not] (n.stackKind.word a :: stack)
        = .ok (n.stackKind.word (r.wrap (-a - 1)) :: stack) := by
    rw [computeAll_not, StackKind.word_wrap hord hw]
  cases h with
  | word signed => exact ⟨_, rfl, hnot (.inl rfl)⟩
  | int h =>
    rw [complement]
    by_cases h1 : r.bits = 1
    · obtain rfl : r = ⟨1, false⟩ := by
        obtain ⟨bits, signed⟩ := r
        cases signed <;> simp_all
      rw [if_pos h1]
      refine ⟨_, rfl, (computeAll_ok (compute_ldcI4 0 _)).trans ?_⟩
      rw [bit_holds_iff] at ha
      obtain rfl | rfl : a = 0 ∨ a = 1 := by omega
      · rfl
      · rfl
    · rw [if_neg h1]
      by_cases hn : (r.signed || decide (32 ≤ r.bits)) = true
      · rw [if_pos hn]
        refine ⟨_, rfl, hnot ?_⟩
        rw [Bool.or_eq_true, decide_eq_true_eq] at hn
        by_cases hs : r.signed = true
        · exact .inr (h.holds_complement hs ha)
        · have h32 := hn.resolve_left hs
          have hw := hwide.resolve_left hs
          exact .inl (Numeric.width_int (by omega))
      · -- Below 32 bits only the bits of the width are flipped.
        rw [if_neg hn]
        rw [Bool.or_eq_true, decide_eq_true_eq, not_or] at hn
        obtain ⟨bits, signed⟩ := r
        obtain rfl : signed = false := by simpa using hn.1
        refine ⟨_, rfl, (computeAll_ok (compute_ldcI4 _ _)).trans ?_⟩
        rw [Numeric.stackKind_short (by dsimp only at hn ⊢; omega), wrap_complement h ha]
        exact computeAll_binary (StackKind.word_xor _ _ _)

theorem holds_exact (h : r.Ordinary) (hd : op.Defined r a b) (hm : op.mayLeaveRange = false)
    (hop : op ≠ .not) (hop' : op ≠ .convert) : (op.resultShape r).holds (op.exact a b) = true := by
  have hbit (p : Prop) [Decidable p] : (IntShape.mk 1 false).holds (if p then 1 else 0) = true := by
    split <;> decide
  cases op with
  | add | sub | mul | div | shl | neg => cases hm
  | rem => exact h.holds_tmod hd.left b
  | and =>
    rw [ArithOp.exact, ← Int.bitwise_and]
    exact h.holds_bitwise rfl hd.left (hd.right rfl rfl)
  | or =>
    rw [ArithOp.exact, ← Int.bitwise_or]
    exact h.holds_bitwise rfl hd.left (hd.right rfl rfl)
  | xor =>
    rw [ArithOp.exact, ← Int.bitwise_xor]
    exact h.holds_bitwise rfl hd.left (hd.right rfl rfl)
  | shr => exact h.holds_shiftRight hd.left b.toNat
  | eq | ne | lt | le | gt | ge => exact hbit _
  | not => exact absurd rfl hop
  | convert => exact absurd rfl hop'

section Code

variable {t u : Ty} {code tail : List Machine.Instr} {checked : Bool}

theorem arithCode_plain (hop : op ≠ .convert) (hn : Numeric.of? t = some n)
    (hcode : operatorCode op checked n = .ok code) (hm : op.mayLeaveRange = false) :
    arithCode op checked t u = .ok code := by
  rw [arithCode, if_neg hop, if_neg (by simp [hn]), Numeric.of, hn]
  simp only [hm]
  change (operatorCode op checked n).bind _ = _
  rw [hcode]
  rfl

theorem arithCode_narrowed (hop : op ≠ .convert) (hn : Numeric.of? t = some n)
    (hcode : operatorCode op checked n = .ok code) (hm : op.mayLeaveRange = true)
    (htail : narrow n checked = .ok tail) : arithCode op checked t t = .ok (code ++ tail) := by
  rw [arithCode, if_neg hop, if_neg (by simp [hn]), Numeric.of, hn]
  simp only [hm]
  change (operatorCode op checked n).bind _ = _
  rw [hcode]
  change (narrow n checked).bind _ = _
  rw [htail]
  rfl

theorem operands_eq (he : t.encode = k.word) : op.operands t a b = pushed op k a b := by
  rw [ArithOp.operands, pushed, he]
  cases op.isShift with
  | true => rfl
  | false => simp only [Bool.false_eq_true, if_false, he]

end Code

end Operators

structure ArithOp.Settles (op : ArithOp) (r : IntShape) : Prop where
  narrowed : op.mayLeaveRange = true → r.Standard
  flipped : op = .not → r ≠ ⟨1, true⟩ ∧ (r.signed = true ∨ r.bits ≤ 32 ∨ r.bits = 64)

theorem ArithOp.Settles.compute {op : ArithOp} {t : Ty} {r : IntShape} {a b : Int}
    (h : op.Settles r) (ht : t.Integral r) (hop : op ≠ .convert) (hd : op.Defined r a b)
    (stack : List Word) :
    ∃ code, arithCode op false t (op.resultType t) = .ok code ∧
      computeAll code (op.operands t a b ++ stack)
        = .ok ((op.resultType t).encode ((op.resultShape r).wrap (op.exact a b)) :: stack) := by
  obtain ⟨n, hn, hr, he⟩ := ht.numeric
  have hword : (if op.isComparison then .int32 else n.stackKind).word
      = (op.resultType t).encode := by
    rw [ArithOp.resultType]
    cases op.isComparison with
    | true => rfl
    | false => exact he.symm
  rw [operands_eq he]
  by_cases hnot : op = .not
  · subst hnot
    obtain ⟨hbit, hwide⟩ := h.flipped rfl
    obtain ⟨code, hcode, hrun⟩ := compute_complement hr hbit hwide hd.left stack
    refine ⟨code, arithCode_plain hop hn hcode rfl, hrun.trans ?_⟩
    rw [← hword]
    rfl
  obtain ⟨code, hcode, hrun⟩ := compute_operator hr hnot hop hd stack
  rw [hword] at hrun
  cases hm : op.mayLeaveRange with
  | false =>
    have hshape : (op.resultShape r).Ordinary := by
      rw [ArithOp.resultShape]
      cases op.isComparison with
      | true => exact IntShape.ordinary_bit
      | false => exact hr.ordinary
    refine ⟨code, arithCode_plain hop hn hcode hm, ?_⟩
    rw [hrun, hshape.wrap_eq (holds_exact hr.ordinary hd hm hnot hop)]
  | true =>
    obtain ⟨tail, htail, hnarrow⟩ := compute_narrow hr (h.narrowed hm) (op.exact a b) stack
    have hc : op.isComparison = false := by
      cases op with
      | add | sub | mul | div | shl | neg => rfl
      | _ => cases hm
    have htype : op.resultType t = t := by rw [ArithOp.resultType, hc]; rfl
    have hshape : op.resultShape r = r := by rw [ArithOp.resultShape, hc]; rfl
    rw [htype] at hrun
    rw [htype, hshape]
    refine ⟨code ++ tail, arithCode_narrowed hop hn hcode hm htail, ?_⟩
    rw [computeAll_append_ok hrun, he, hnarrow]

/-- Unchecked arithmetic leaves the residue of the exact result. -/
theorem arithmetic_exact {op : ArithOp} {t : Ty} {r : IntShape} {a b : Int} (ht : t.Integral r)
    (hr : r.Standard) (hop : op ≠ .convert) (hd : op.Defined r a b) (stack : List Word) :
    ∃ code, arithCode op false t (op.resultType t) = .ok code ∧
      computeAll code (op.operands t a b ++ stack)
        = .ok ((op.resultType t).encode ((op.resultShape r).wrap (op.exact a b)) :: stack) := by
  have hflip : r ≠ ⟨1, true⟩ ∧ (r.signed = true ∨ r.bits ≤ 32 ∨ r.bits = 64) := by
    rcases hr with rfl | hr
    · exact ⟨by decide, by decide⟩
    · refine ⟨?_, by omega⟩
      rintro rfl
      simp at hr
  exact ArithOp.Settles.compute ⟨fun _ => hr, fun _ => hflip⟩ ht hop hd stack

theorem quotient_of_least_exact :
    ArithOp.div.Defined ⟨8, true⟩ (-128) (-1) ∧
      ∃ code, arithCode .div false (.signed 8) (.signed 8) = .ok code ∧
        computeAll code [(Ty.signed 8).encode (-1), (Ty.signed 8).encode (-128)]
          = .ok [(Ty.signed 8).encode (-128)] := by
  have hd : ArithOp.div.Defined ⟨8, true⟩ (-128) (-1) :=
    ⟨by decide, fun _ _ => by decide, by decide, by decide, by decide⟩
  exact ⟨hd, arithmetic_exact (.int ⟨by decide, by decide⟩) (.inr (.inl rfl)) (by decide) hd []⟩

end StackCode
