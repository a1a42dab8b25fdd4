import StackCode.Code.Numeric
import StackCode.Proofs.Residues

/-!
Arithmetic code, run on machine words. An instruction leaves a stack or throws an exception. Entries
of different kinds have no arithmetic in common, and a shift by the width or more has no specified
result: code that comes to such a point neither ends nor traps.
-/

namespace StackCode

open Machine (BinaryOp NumKind)

inductive Halt where
  | trap
  | unspecified
deriving DecidableEq

/-- Entries of the evaluation stack. Native words have 64 bits. -/
inductive Word where
  | int32 (x : BitVec 32)
  | int64 (x : BitVec 64)
  | native (x : BitVec 64)
deriving DecidableEq

namespace Word

def compare? (test : ∀ {w : Nat}, BitVec w → BitVec w → Bool) : Word → Word → Option Bool
  | .int32 x, .int32 y => some (test x y)
  | .int64 x, .int64 y => some (test x y)
  | .native x, .native y => some (test x y)
  | _, _ => none

def isZero : Word → Bool
  | .int32 x => x == 0
  | .int64 x | .native x => x == 0

def ofBool (b : Bool) : Word := .int32 (if b then 1 else 0)

end Word

inductive StackKind where
  | int32
  | int64
  | native
deriving DecidableEq

namespace StackKind

def width : StackKind → Nat
  | .int32 => 32
  | .int64 | .native => 64

def ofBits : (k : StackKind) → BitVec k.width → Word
  | .int32, x => .int32 x
  | .int64, x => .int64 x
  | .native, x => .native x

/-- The entry that stands for an integer and all that differ from it by a multiple of `2 ^ width`.
-/
def word (k : StackKind) (n : Int) : Word := k.ofBits (.ofInt k.width n)

end StackKind

namespace Ty

def stackKind (t : Ty) : StackKind :=
  if t.isWord then .native else if t.isWide then .int64 else .int32

def encode (t : Ty) (n : Int) : Word := t.stackKind.word n

theorem stackKind_int (s : IntShape) :
    (Ty.int s).stackKind = if 32 < s.bits then .int64 else .int32 := by
  simp [stackKind, isWide, isWord, shape?]

end Ty

def integers? : NumKind → Option (StackKind × IntShape)
  | .i1 => some (.int32, ⟨8, true⟩)
  | .u1 => some (.int32, ⟨8, false⟩)
  | .i2 => some (.int32, ⟨16, true⟩)
  | .u2 => some (.int32, ⟨16, false⟩)
  | .i4 => some (.int32, ⟨32, true⟩)
  | .u4 => some (.int32, ⟨32, false⟩)
  | .i8 => some (.int64, ⟨64, true⟩)
  | .u8 => some (.int64, ⟨64, false⟩)
  | .i => some (.native, ⟨64, true⟩)
  | .u => some (.native, ⟨64, false⟩)
  | .r4 | .r8 => none

section Bits

variable {w : Nat}

def exactly (signed : Bool) (f : Int → Int → Int) (x y : BitVec w) : Except Halt (BitVec w) :=
  let n := f (number signed x) (number signed y)
  if (IntShape.mk w signed).holds n then .ok (.ofInt w n) else .error .trap

/-- Division truncates. The remainder exists if the quotient does. -/
def dividing (signed : Bool) (f : Int → Int → Int) (x y : BitVec w) : Except Halt (BitVec w) :=
  let a := number signed x
  let b := number signed y
  if b ≠ 0 ∧ (IntShape.mk w signed).holds (a.tdiv b) then .ok (.ofInt w (f a b)) else .error .trap

def shifted (f : BitVec w → Nat → BitVec w) (count : Nat) (x : BitVec w) : Except Halt (BitVec w) :=
  if count < w then .ok (f x count) else .error .unspecified

def resized (s : IntShape) (x : BitVec w) : Int :=
  if s.signed then (x.signExtend s.bits).toInt else (x.setWidth s.bits).toNat

end Bits

namespace Word

def transform (f : ∀ {w : Nat}, BitVec w → Except Halt (BitVec w)) : Word → Except Halt Word
  | .int32 x => (f x).map .int32
  | .int64 x => (f x).map .int64
  | .native x => (f x).map .native

def combine (f : ∀ {w : Nat}, BitVec w → BitVec w → Except Halt (BitVec w)) :
    Word → Word → Except Halt Word
  | .int32 x, .int32 y => (f x y).map .int32
  | .int64 x, .int64 y => (f x y).map .int64
  | .native x, .native y => (f x y).map .native
  | _, _ => .error .unspecified

def shift (f : ∀ {w : Nat}, BitVec w → Nat → BitVec w) (x : Word) : Word → Except Halt Word
  | .int32 count => x.transform (shifted f count.toNat)
  | .native count => x.transform (shifted f count.toNat)
  | .int64 _ => .error .unspecified

def test (holds : ∀ {w : Nat}, BitVec w → BitVec w → Bool) (x y : Word) : Except Halt Word :=
  match x.compare? holds y with
  | some b => .ok (.ofBool b)
  | none => .error .unspecified

def number (signed : Bool) : Word → Int
  | .int32 x => StackCode.number signed x
  | .int64 x | .native x => StackCode.number signed x

def resized (s : IntShape) : Word → Int
  | .int32 x => StackCode.resized s x
  | .int64 x | .native x => StackCode.resized s x

def binary (op : BinaryOp) (x y : Word) : Except Halt Word :=
  match op with
  | .add => x.combine (fun x y => .ok (x + y)) y
  | .addOvf => x.combine (exactly true (· + ·)) y
  | .addOvfUn => x.combine (exactly false (· + ·)) y
  | .sub => x.combine (fun x y => .ok (x - y)) y
  | .subOvf => x.combine (exactly true (· - ·)) y
  | .subOvfUn => x.combine (exactly false (· - ·)) y
  | .mul => x.combine (fun x y => .ok (x * y)) y
  | .mulOvf => x.combine (exactly true (· * ·)) y
  | .mulOvfUn => x.combine (exactly false (· * ·)) y
  | .div => x.combine (dividing true Int.tdiv) y
  | .divUn => x.combine (dividing false Int.tdiv) y
  | .rem => x.combine (dividing true Int.tmod) y
  | .remUn => x.combine (dividing false Int.tmod) y
  | .and => x.combine (fun x y => .ok (x &&& y)) y
  | .or => x.combine (fun x y => .ok (x ||| y)) y
  | .xor => x.combine (fun x y => .ok (x ^^^ y)) y
  | .shl => x.shift (· <<< ·) y
  | .shr => x.shift BitVec.sshiftRight y
  | .shrUn => x.shift BitVec.ushiftRight y
  | .ceq => x.test (· == ·) y
  | .cgt => x.test (fun x y => y.slt x) y
  | .cgtUn => x.test (fun x y => y.ult x) y
  | .clt => x.test BitVec.slt y
  | .cltUn => x.test BitVec.ult y

def convert (x : Word) (k : NumKind) : Except Halt Word :=
  match integers? k with
  | some (kind, s) => .ok (kind.word (x.resized s))
  | none => .error .unspecified

def convertExactly (signed : Bool) (x : Word) (k : NumKind) : Except Halt Word :=
  match integers? k with
  | some (kind, s) =>
    if s.holds (x.number signed) then .ok (kind.word (x.number signed)) else .error .trap
  | none => .error .unspecified

end Word

def Machine.Instr.compute (i : Machine.Instr) (stack : List Word) : Except Halt (List Word) :=
  match i, stack with
  | ⟨.ldcI4, .int32 c⟩, stack => .ok (.int32 c.toBitVec :: stack)
  | ⟨.ldcI8, .int64 c⟩, stack => .ok (.int64 c.toBitVec :: stack)
  | ⟨.binary op, .none⟩, y :: x :: stack => (x.binary op y).map (· :: stack)
  | ⟨.not, .none⟩, x :: stack => (x.transform (fun x => .ok (~~~x))).map (· :: stack)
  | ⟨.neg, .none⟩, x :: stack => (x.transform (fun x => .ok (-x))).map (· :: stack)
  | ⟨.conv k, .none⟩, x :: stack => (x.convert k).map (· :: stack)
  | ⟨.convOvf k, .none⟩, x :: stack => (x.convertExactly true k).map (· :: stack)
  | ⟨.convOvfUn k, .none⟩, x :: stack => (x.convertExactly false k).map (· :: stack)
  | _, _ => .error .unspecified

def computeAll : List Machine.Instr → List Word → Except Halt (List Word)
  | [], stack => .ok stack
  | i :: code, stack =>
    match i.compute stack with
    | .ok stack => computeAll code stack
    | .error h => .error h

section Bits

variable {w : Nat} {signed : Bool} {a b : Int} {s : IntShape} {count : Nat}

theorem exactly_ofInt (f : Int → Int → Int) (h : (IntShape.mk w signed).Ordinary)
    (ha : (IntShape.mk w signed).holds a = true) (hb : (IntShape.mk w signed).holds b = true) :
    exactly signed f (BitVec.ofInt w a) (BitVec.ofInt w b)
      = if (IntShape.mk w signed).holds (f a b) then .ok (.ofInt w (f a b)) else .error .trap := by
  simp only [exactly, h.number_ofInt ha, h.number_ofInt hb]

theorem dividing_ofInt (f : Int → Int → Int) (h : (IntShape.mk w signed).Ordinary)
    (ha : (IntShape.mk w signed).holds a = true) (hb : (IntShape.mk w signed).holds b = true)
    (h0 : b ≠ 0) (hq : (IntShape.mk w signed).holds (a.tdiv b) = true) :
    dividing signed f (BitVec.ofInt w a) (BitVec.ofInt w b) = .ok (.ofInt w (f a b)) := by
  simp only [dividing, h.number_ofInt ha, h.number_ofInt hb]
  rw [if_pos ⟨h0, hq⟩]

theorem ofInt_shiftLeft (w : Nat) (a : Int) (count : Nat) :
    BitVec.ofInt w a <<< count = BitVec.ofInt w (a * 2 ^ count) := by
  rw [BitVec.shiftLeft_eq_mul_twoPow, BitVec.ofInt_mul]
  congr 1
  apply BitVec.eq_of_toNat_eq
  rw [BitVec.toNat_twoPow, BitVec.toNat_ofInt]
  norm_cast

theorem ofInt_sshiftRight (h : (IntShape.mk w true).Ordinary)
    (ha : (IntShape.mk w true).holds a = true) (count : Nat) :
    (BitVec.ofInt w a).sshiftRight count = BitVec.ofInt w (a / 2 ^ count) := by
  have hint : (BitVec.ofInt w a).toInt = a := h.number_ofInt ha
  rw [← BitVec.ofInt_toInt (x := (BitVec.ofInt w a).sshiftRight count), BitVec.toInt_sshiftRight,
    hint, Int.shiftRight_eq_div_pow]
  norm_cast

theorem ofInt_ushiftRight (h : (IntShape.mk w false).Ordinary)
    (ha : (IntShape.mk w false).holds a = true) (count : Nat) :
    (BitVec.ofInt w a).ushiftRight count = BitVec.ofInt w (a / 2 ^ count) := by
  have hnat : ((BitVec.ofInt w a).toNat : Int) = a := h.number_ofInt ha
  have hshift : (((BitVec.ofInt w a).ushiftRight count).toNat : Int) = a / 2 ^ count := by
    change ((((BitVec.ofInt w a) >>> count).toNat : Nat) : Int) = _
    rw [BitVec.toNat_ushiftRight, Nat.shiftRight_eq_div_pow, Int.natCast_ediv, hnat]
    norm_cast
  rw [← hshift]
  exact (ofInt_number false _).symm

theorem ofInt_beq (h : s.Ordinary) (ha : s.holds a = true) (hb : s.holds b = true)
    (hw : s.bits ≤ w) : (BitVec.ofInt w a == BitVec.ofInt w b) = decide (a = b) := by
  rw [Bool.eq_iff_iff, beq_iff_eq, decide_eq_true_eq, ofInt_inj_iff]
  constructor
  · intro heq
    rw [← h.wrap_eq ha, ← h.wrap_eq hb]
    exact IntShape.wrap_congr (emod_of_le hw heq)
  · exact congrArg (· % 2 ^ w)

theorem ofInt_slt (h : (IntShape.mk w true).Ordinary) (ha : (IntShape.mk w true).holds a = true)
    (hb : (IntShape.mk w true).holds b = true) :
    (BitVec.ofInt w a).slt (BitVec.ofInt w b) = decide (a < b) := by
  have ha' : (BitVec.ofInt w a).toInt = a := h.number_ofInt ha
  have hb' : (BitVec.ofInt w b).toInt = b := h.number_ofInt hb
  rw [BitVec.slt, ha', hb']

theorem ofInt_ult (h : (IntShape.mk w false).Ordinary) (ha : (IntShape.mk w false).holds a = true)
    (hb : (IntShape.mk w false).holds b = true) :
    (BitVec.ofInt w a).ult (BitVec.ofInt w b) = decide (a < b) := by
  have ha' : ((BitVec.ofInt w a).toNat : Int) = a := h.number_ofInt ha
  have hb' : ((BitVec.ofInt w b).toNat : Int) = b := h.number_ofInt hb
  rw [BitVec.ult, decide_eq_decide]
  omega

theorem resized_eq (h : s.Ordinary) (x : BitVec w) :
    resized s x = s.wrap (number s.signed x) := by
  obtain ⟨bits, signed⟩ := s
  cases signed
  · simp [resized, number, IntShape.wrap, IntShape.least_unsigned]
  · exact number_ofInt h x.toInt

end Bits

namespace StackKind

variable {k : StackKind} {signed : Bool} {a b n : Int} {s : IntShape}

theorem ordinary (k : StackKind) (signed : Bool) : (IntShape.mk k.width signed).Ordinary := by
  cases k <;> constructor <;> simp [width]

theorem le_width (k : StackKind) : 32 ≤ k.width := by
  cases k <;> decide

theorem combine_ofBits (f : ∀ {w : Nat}, BitVec w → BitVec w → Except Halt (BitVec w))
    (x y : BitVec k.width) : (k.ofBits x).combine f (k.ofBits y) = (f x y).map k.ofBits := by
  cases k <;> rfl

theorem transform_ofBits (f : ∀ {w : Nat}, BitVec w → Except Halt (BitVec w)) (x : BitVec k.width) :
    (k.ofBits x).transform f = (f x).map k.ofBits := by
  cases k <;> rfl

theorem test_ofBits (f : ∀ {w : Nat}, BitVec w → BitVec w → Bool) (x y : BitVec k.width) :
    (k.ofBits x).test f (k.ofBits y) = .ok (.ofBool (f x y)) := by
  cases k <;> rfl

theorem compare?_word (f : ∀ {w : Nat}, BitVec w → BitVec w → Bool) (k : StackKind) (a b : Int) :
    (k.word a).compare? f (k.word b)
      = some (f (BitVec.ofInt k.width a) (BitVec.ofInt k.width b)) := by
  cases k <;> rfl

theorem number_ofBits (x : BitVec k.width) :
    (k.ofBits x).number signed = StackCode.number signed x := by
  cases k <;> rfl

theorem resized_ofBits (x : BitVec k.width) : (k.ofBits x).resized s = StackCode.resized s x := by
  cases k <;> rfl

theorem word_eq_iff : k.word a = k.word b ↔ a % 2 ^ k.width = b % 2 ^ k.width := by
  rw [← ofInt_inj_iff]
  cases k <;> simp [word, ofBits, width]

theorem word_wrap (h : s.Ordinary) (hn : k.width = s.bits ∨ s.holds n = true) :
    k.word (s.wrap n) = k.word n := by
  rcases hn with hw | hn
  · rw [word_eq_iff, hw, s.wrap_emod]
  · rw [h.wrap_eq hn]

theorem word_add (k : StackKind) (a b : Int) :
    (k.word a).binary .add (k.word b) = .ok (k.word (a + b)) := by
  rw [Word.binary, word, word, combine_ofBits, ← BitVec.ofInt_add]
  rfl

theorem word_sub (k : StackKind) (a b : Int) :
    (k.word a).binary .sub (k.word b) = .ok (k.word (a - b)) := by
  rw [Word.binary, word, word, combine_ofBits, ofInt_sub_ofInt]
  rfl

theorem word_mul (k : StackKind) (a b : Int) :
    (k.word a).binary .mul (k.word b) = .ok (k.word (a * b)) := by
  rw [Word.binary, word, word, combine_ofBits, ← BitVec.ofInt_mul]
  rfl

theorem word_and (k : StackKind) (a b : Int) :
    (k.word a).binary .and (k.word b) = .ok (k.word (a.land b)) := by
  rw [Word.binary, word, word, combine_ofBits, ofInt_land]
  rfl

theorem word_or (k : StackKind) (a b : Int) :
    (k.word a).binary .or (k.word b) = .ok (k.word (a.lor b)) := by
  rw [Word.binary, word, word, combine_ofBits, ofInt_lor]
  rfl

theorem word_xor (k : StackKind) (a b : Int) :
    (k.word a).binary .xor (k.word b) = .ok (k.word (a.xor b)) := by
  rw [Word.binary, word, word, combine_ofBits, ofInt_xor]
  rfl

theorem combine_exactly (f : Int → Int → Int) (ha : (IntShape.mk k.width signed).holds a = true)
    (hb : (IntShape.mk k.width signed).holds b = true) :
    (k.word a).combine (exactly signed f) (k.word b)
      = if (IntShape.mk k.width signed).holds (f a b) then .ok (k.word (f a b))
        else .error .trap := by
  rw [word, word, combine_ofBits, exactly_ofInt f (k.ordinary signed) ha hb]
  split <;> rfl

theorem word_not (k : StackKind) (a : Int) :
    (k.word a).transform (fun x => .ok (~~~x)) = .ok (k.word (-a - 1)) := by
  have hnot : ~~~BitVec.ofInt k.width a = BitVec.ofInt k.width (-a - 1) := by
    rw [← ofInt_sub_ofInt, BitVec.ofInt_neg, BitVec.neg_eq_not_add]
    exact (BitVec.add_sub_cancel _ _).symm
  rw [word, transform_ofBits, hnot]
  rfl

theorem word_neg (k : StackKind) (a : Int) :
    (k.word a).transform (fun x => .ok (-x)) = .ok (k.word (-a)) := by
  rw [word, transform_ofBits, ← BitVec.ofInt_neg]
  rfl

theorem combine_dividing (f : Int → Int → Int) (ha : (IntShape.mk k.width signed).holds a = true)
    (hb : (IntShape.mk k.width signed).holds b = true) (h0 : b ≠ 0)
    (hq : (IntShape.mk k.width signed).holds (a.tdiv b) = true) :
    (k.word a).combine (dividing signed f) (k.word b) = .ok (k.word (f a b)) := by
  rw [word, word, combine_ofBits, dividing_ofInt f (k.ordinary signed) ha hb h0 hq]
  rfl

theorem word_div (ha : (IntShape.mk k.width signed).holds a = true)
    (hb : (IntShape.mk k.width signed).holds b = true) (h0 : b ≠ 0)
    (hq : (IntShape.mk k.width signed).holds (a.tdiv b) = true) :
    (k.word a).binary (if signed then .div else .divUn) (k.word b) = .ok (k.word (a.tdiv b)) := by
  cases signed <;> exact combine_dividing Int.tdiv ha hb h0 hq

theorem word_rem (ha : (IntShape.mk k.width signed).holds a = true)
    (hb : (IntShape.mk k.width signed).holds b = true) (h0 : b ≠ 0)
    (hq : (IntShape.mk k.width signed).holds (a.tdiv b) = true) :
    (k.word a).binary (if signed then .rem else .remUn) (k.word b) = .ok (k.word (a.tmod b)) := by
  cases signed <;> exact combine_dividing Int.tmod ha hb h0 hq

theorem shift_word {f : ∀ {w : Nat}, BitVec w → Nat → BitVec w} (h0 : 0 ≤ b) (hb : b < k.width)
    (hf : f (BitVec.ofInt k.width a) b.toNat = BitVec.ofInt k.width n) :
    (k.word a).shift f (int32.word b) = .ok (k.word n) := by
  have hcount : (BitVec.ofInt 32 b).toNat = b.toNat := by
    have := (k.ordinary true).le
    rw [BitVec.toNat_ofInt, Int.emod_eq_of_lt h0 (by dsimp only at this; norm_num; omega)]
  change (k.word a).transform (shifted f (BitVec.ofInt 32 b).toNat) = _
  rw [word, transform_ofBits, hcount, shifted, if_pos (by omega), hf]
  rfl

theorem ofBool_eq (p : Prop) [Decidable p] :
    Word.ofBool (decide p) = int32.word (if p then 1 else 0) := by
  by_cases h : p <;> simp [h] <;> rfl

theorem test_word {f : ∀ {w : Nat}, BitVec w → BitVec w → Bool} {p : Prop} [Decidable p]
    (hf : f (BitVec.ofInt k.width a) (BitVec.ofInt k.width b) = decide p) :
    (k.word a).test f (k.word b) = .ok (int32.word (if p then 1 else 0)) := by
  rw [word, word, test_ofBits, hf, ofBool_eq]

theorem word_ceq (ha : (IntShape.mk k.width signed).holds a = true)
    (hb : (IntShape.mk k.width signed).holds b = true) :
    (k.word a).binary .ceq (k.word b) = .ok (int32.word (if a = b then 1 else 0)) :=
  test_word (ofInt_beq (k.ordinary signed) ha hb (le_refl k.width))

theorem word_clt (ha : (IntShape.mk k.width signed).holds a = true)
    (hb : (IntShape.mk k.width signed).holds b = true) :
    (k.word a).binary (if signed then .clt else .cltUn) (k.word b)
      = .ok (int32.word (if a < b then 1 else 0)) := by
  cases signed
  · exact test_word (ofInt_ult (k.ordinary false) ha hb)
  · exact test_word (ofInt_slt (k.ordinary true) ha hb)

theorem word_cgt (ha : (IntShape.mk k.width signed).holds a = true)
    (hb : (IntShape.mk k.width signed).holds b = true) :
    (k.word a).binary (if signed then .cgt else .cgtUn) (k.word b)
      = .ok (int32.word (if b < a then 1 else 0)) := by
  cases signed
  · exact test_word (ofInt_ult (k.ordinary false) hb ha)
  · exact test_word (ofInt_slt (k.ordinary true) hb ha)

theorem word_shl (k : StackKind) (a : Int) (h0 : 0 ≤ b) (hb : b < k.width) :
    (k.word a).binary .shl (int32.word b) = .ok (k.word (a * 2 ^ b.toNat)) := by
  rw [Word.binary]
  exact shift_word (f := fun x n => x <<< n) h0 hb (ofInt_shiftLeft k.width a b.toNat)

theorem word_shr (ha : (IntShape.mk k.width signed).holds a = true) (h0 : 0 ≤ b)
    (hb : b < k.width) :
    (k.word a).binary (if signed then .shr else .shrUn) (int32.word b)
      = .ok (k.word (a / 2 ^ b.toNat)) := by
  cases signed
  · exact shift_word h0 hb (ofInt_ushiftRight (k.ordinary false) ha b.toNat)
  · exact shift_word h0 hb (ofInt_sshiftRight (k.ordinary true) ha b.toNat)

theorem number_word (hn : (IntShape.mk k.width signed).holds n = true) :
    (k.word n).number signed = n := by
  rw [word, number_ofBits, (k.ordinary signed).number_ofInt hn]

theorem resized_word (h : s.Ordinary)
    (hn : s.bits ≤ k.width ∨ (IntShape.mk k.width s.signed).holds n = true) :
    (k.word n).resized s = s.wrap n := by
  rw [word, resized_ofBits, resized_eq h, number_ofInt (k.ordinary s.signed)]
  rcases hn with hw | hn
  · exact IntShape.wrap_wrap hw n
  · rw [(k.ordinary s.signed).wrap_eq hn]

end StackKind

section Code

variable {i : Machine.Instr} {code xs ys : List Machine.Instr} {stack stack' : List Word}
  {x y z : Word} {op : BinaryOp} {k : NumKind} {kind : StackKind} {s : IntShape} {h : Halt}

theorem computeAll_ok (hi : i.compute stack = .ok stack') :
    computeAll (i :: code) stack = computeAll code stack' := by
  rw [computeAll, hi]

theorem computeAll_error (hi : i.compute stack = .error h) :
    computeAll (i :: code) stack = .error h := by
  rw [computeAll, hi]

theorem computeAll_single (i : Machine.Instr) (stack : List Word) :
    computeAll [i] stack = i.compute stack := by
  rw [computeAll]
  split
  · rename_i hi
    rw [hi, computeAll]
  · rename_i hi
    rw [hi]

theorem computeAll_append_ok (hx : computeAll xs stack = .ok stack') :
    computeAll (xs ++ ys) stack = computeAll ys stack' := by
  induction xs generalizing stack with
  | nil =>
    cases hx
    rfl
  | cons i xs ih =>
    cases hi : i.compute stack with
    | error h =>
      rw [computeAll_error hi] at hx
      cases hx
    | ok stack₁ =>
      rw [computeAll_ok hi] at hx
      rw [List.cons_append, computeAll_ok hi, ih hx]

theorem computeAll_append_error (hx : computeAll xs stack = .error h) :
    computeAll (xs ++ ys) stack = .error h := by
  induction xs generalizing stack with
  | nil => cases hx
  | cons i xs ih =>
    cases hi : i.compute stack with
    | error h' =>
      rw [computeAll_error hi] at hx
      rw [List.cons_append, computeAll_error hi, hx]
    | ok stack₁ =>
      rw [computeAll_ok hi] at hx
      rw [List.cons_append, computeAll_ok hi, ih hx]

theorem compute_ldcI4 (n : Int) (stack : List Word) :
    (ldcI4 n).compute stack = .ok (StackKind.int32.word n :: stack) := by
  change Except.ok (Word.int32 (Int32.ofInt n).toBitVec :: stack) = _
  rw [Int32.toBitVec_ofInt]
  rfl

theorem compute_ldcI8 (n : Int) (stack : List Word) :
    (ldcI8 n).compute stack = .ok (StackKind.int64.word n :: stack) := by
  change Except.ok (Word.int64 (Int64.ofInt n).toBitVec :: stack) = _
  rw [Int64.toBitVec_ofInt]
  rfl

theorem compute_binary (hz : x.binary op y = .ok z) :
    (binary op).compute (y :: x :: stack) = .ok (z :: stack) := by
  change (x.binary op y).map (· :: stack) = _
  rw [hz]
  rfl

theorem compute_conv (hk : integers? k = some (kind, s)) (x : Word) (stack : List Word) :
    (plain (.conv k)).compute (x :: stack) = .ok (kind.word (x.resized s) :: stack) := by
  change (x.convert k).map (· :: stack) = _
  rw [Word.convert, hk]
  rfl

theorem compute_convOvf (hk : integers? k = some (kind, s)) (signed : Bool) (x : Word)
    (stack : List Word) :
    (plain (if signed then .convOvf k else .convOvfUn k)).compute (x :: stack)
      = if s.holds (x.number signed) then .ok (kind.word (x.number signed) :: stack)
        else .error .trap := by
  have hrun : (plain (if signed then .convOvf k else .convOvfUn k)).compute (x :: stack)
      = (x.convertExactly signed k).map (· :: stack) := by
    cases signed <;> rfl
  rw [hrun, Word.convertExactly, hk]
  dsimp only
  split <;> rfl

end Code

end StackCode
