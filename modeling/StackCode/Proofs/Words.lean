import Mathlib.Logic.Function.Basic
import StackCode.Chunk.Flow
import StackCode.Proofs.Calculation

namespace StackCode

structure Evaluation where
  stack : List Word
  cells : Value → Word

namespace Evaluation

abbrev Step := Option (Option Label × Evaluation)

variable (e : Evaluation)

def next (stack : List Word) : Step := some (none, { e with stack })

def branch (taken : Bool) (l : Label) (stack : List Word) : Step :=
  some (if taken then some l else none, { e with stack })

end Evaluation

def Item.run (i : Item) (e : Evaluation) : Evaluation.Step :=
  match i, e.stack with
  | .op i, stack => (i.compute stack).toOption.bind e.next
  | .jump .br l, stack => e.branch true l stack
  | .jump .brtrue l, x :: stack => e.branch (!x.isZero) l stack
  | .jump .brfalse l, x :: stack => e.branch x.isZero l stack
  | .jump .beq l, y :: x :: stack =>
    (x.compare? (· == ·) y).bind fun b => e.branch b l stack
  | .jump .bneUn l, y :: x :: stack =>
    (x.compare? (· == ·) y).bind fun b => e.branch (!b) l stack
  | .switch ls, .int32 x :: stack => some (ls[x.toNat]?, { e with stack })
  | .load v, stack => e.next (e.cells v :: stack)
  | .store v, x :: stack => some (none, ⟨stack, Function.update e.cells v x⟩)
  | .label _, stack => e.next stack
  | _, _ => none

def runCode : List Item → Evaluation → Evaluation.Step
  | [], e => some (none, e)
  | i :: code, e =>
    match i.run e with
    | some (none, e) => runCode code e
    | r => r

def Chunk.run (c : Chunk) (cells : Value → Word) : Evaluation.Step :=
  runCode c.code ⟨(c.deps.map cells).reverse, cells⟩

/-- Control leaves the chunks `cs` for a label that they do not place, from the chunks `rest` on. It
does so by an unconditional jump with arguments, or by any branch with nothing on the stack. -/
inductive Departs (cs : List Chunk) : List Chunk → (Value → Word) → Label → List Value → Prop
  | next {c rest cells cells' l args} (run : c.run cells = some (none, ⟨[], cells'⟩))
    (later : Departs cs rest cells' l args) : Departs cs (c :: rest) cells l args
  | inside {c rest cells cells' m l args} (run : c.run cells = some (some m, ⟨[], cells'⟩))
    (placed : .label m ∈ cs) (later : Departs cs (cs.dropWhile (· ≠ .label m)) cells' l args) :
    Departs cs (c :: rest) cells l args
  | direct {c rest cells cells' l} (run : c.run cells = some (some l, ⟨[], cells'⟩))
    (outside : .label l ∉ cs) : Departs cs (c :: rest) cells l []
  | jump {rest cells l args} (outside : .label l ∉ cs) :
    Departs cs (.jump l args :: rest) cells l args

section Codes

variable {i : Item} {code : List Item} {e e' : Evaluation} {l : Label}

theorem runCode_next (h : i.run e = some (none, e')) : runCode (i :: code) e = runCode code e' := by
  rw [runCode, h]

theorem runCode_branch (h : i.run e = some (some l, e')) :
    runCode (i :: code) e = some (some l, e') := by
  rw [runCode, h]

theorem runCode_single (i : Item) (e : Evaluation) : runCode [i] e = i.run e := by
  rw [runCode]
  split
  · rename_i h
    rw [h]
    rfl
  · rfl

theorem run_op {j : Machine.Instr} {stack stack' : List Word} {cells : Value → Word}
    (h : j.compute stack = .ok stack') :
    (Item.op j).run ⟨stack, cells⟩ = some (none, ⟨stack', cells⟩) := by
  change (j.compute stack).toOption.bind _ = _
  rw [h]
  rfl

theorem runCode_ops {is : List Machine.Instr} {stack stack' : List Word} {cells : Value → Word}
    (h : computeAll is stack = .ok stack') :
    runCode (is.map .op ++ code) ⟨stack, cells⟩ = runCode code ⟨stack', cells⟩ := by
  induction is generalizing stack with
  | nil =>
    cases h
    rfl
  | cons j is ih =>
    cases hj : j.compute stack with
    | error halt =>
      rw [computeAll_error hj] at h
      cases h
    | ok stack₁ =>
      rw [computeAll_ok hj] at h
      rw [List.map_cons, List.cons_append, runCode_next (run_op hj), ih h]

end Codes

section Departures

variable {cs rest : List Chunk} {cells : Value → Word} {l l' : Label} {args args' : List Value}

theorem run_jump : (Chunk.jump l args).run cells
    = some (some l, ⟨(args.map cells).reverse, cells⟩) :=
  rfl

theorem run_label : (Chunk.label l).run cells = some (none, ⟨[], cells⟩) := rfl

theorem args_of_run_jump {m : Option Label} {cells' : Value → Word}
    (h : (Chunk.jump l args).run cells = some (m, ⟨[], cells'⟩)) : args = [] ∧ m = some l := by
  rw [run_jump, Option.some.injEq, Prod.mk.injEq, Evaluation.mk.injEq, List.reverse_eq_nil_iff,
    List.map_eq_nil_iff] at h
  exact ⟨h.2.1, h.1.symm⟩

theorem Departs.unique (h : Departs cs rest cells l args) (h' : Departs cs rest cells l' args') :
    l = l' ∧ args = args' := by
  -- A chunk runs in one way only. What is left are a branch that is both inside and outside, which
  -- cannot be, and a jump without arguments, which is a branch as well.
  induction h with
  | next run later ih =>
    cases h' with
    | next run' later' =>
      cases run.symm.trans run'
      exact ih later'
    | inside run' => cases run.symm.trans run'
    | direct run' => cases run.symm.trans run'
    | jump => cases (args_of_run_jump run).2
  | inside run placed later ih =>
    cases h' with
    | next run' => cases run.symm.trans run'
    | inside run' _ later' =>
      cases run.symm.trans run'
      exact ih later'
    | direct run' outside =>
      cases run.symm.trans run'
      exact absurd placed outside
    | jump outside =>
      cases (args_of_run_jump run).2
      exact absurd placed outside
  | direct run outside =>
    cases h' with
    | next run' => cases run.symm.trans run'
    | inside run' placed =>
      cases run.symm.trans run'
      exact absurd placed outside
    | direct run' =>
      cases run.symm.trans run'
      exact ⟨rfl, rfl⟩
    | jump =>
      obtain ⟨rfl, hm⟩ := args_of_run_jump run
      exact ⟨Option.some.inj hm, rfl⟩
  | jump outside =>
    cases h' with
    | next run' => cases (args_of_run_jump run').2
    | inside run' placed =>
      cases (args_of_run_jump run').2
      exact absurd placed outside
    | direct run' =>
      obtain ⟨rfl, hm⟩ := args_of_run_jump run'
      exact ⟨(Option.some.inj hm).symm, rfl⟩
    | jump => exact ⟨rfl, rfl⟩

theorem dropWhile_label {xs ys : List Chunk} (h : .label l ∉ xs) :
    (xs ++ .label l :: ys).dropWhile (· ≠ .label l) = .label l :: ys := by
  rw [List.dropWhile_append_of_pos, List.dropWhile_cons_of_neg]
  · simp
  · intro c hc
    simpa using ne_of_mem_of_not_mem hc h

theorem departs_label {xs ys : List Chunk} (hcs : cs = xs ++ .label l :: .jump l' args :: ys)
    (hl : .label l ∉ xs) (hout : .label l' ∉ cs) :
    Departs cs (cs.dropWhile (· ≠ .label l)) cells l' args := by
  have hdrop : cs.dropWhile (· ≠ .label l) = .label l :: .jump l' args :: ys := by
    rw [hcs, dropWhile_label hl]
  rw [hdrop]
  exact .next run_label (.jump hout)

end Departures

inductive Ty.Ranges : Ty → IntShape → Prop
  | int {r : IntShape} (h : r.bits ≤ 64) : Ranges (.int r) r
  | word (signed : Bool) : Ranges (.word signed) ⟨64, signed⟩

section Range

variable {n lo hi size : Int} {w : Nat} {r : IntShape} {t : Ty}

theorem emod_lt_iff {a : Int} (hn : a ≤ n ∧ n < a + size) (hlo : a ≤ lo) (hle : lo ≤ hi)
    (hhi : hi < a + size) : (n - lo) % size < hi - lo + 1 ↔ lo ≤ n ∧ n ≤ hi := by
  by_cases h : lo ≤ n
  · rw [Int.emod_eq_of_lt (by omega) (by omega)]
    omega
  · have : (n - lo) % size = n - lo + size := by
      rw [← Int.add_emod_right, Int.emod_eq_of_lt (by omega) (by omega)]
    omega

theorem greatest_lt (h : r.bits ≤ 64) : r.greatest < r.least + 2 ^ r.bits := by
  obtain ⟨bits, signed⟩ := r
  dsimp only at h
  cases bits with
  | zero => simp [IntShape.greatest, IntShape.least]
  | succ k =>
    have h₁ : ¬127 ≤ k + 1 := by omega
    have h₂ : ¬128 ≤ k + 1 := by omega
    have hpow : (2 : Int) ^ (k + 1) = 2 * 2 ^ k := by rw [pow_succ, mul_comm]
    cases signed
    · simp [IntShape.greatest, IntShape.least, h₁, twoPow]
    · simp [IntShape.greatest, IntShape.least, h₂, twoPow]
      omega

theorem Ty.Ranges.greatest_lt (h : t.Ranges r) : r.greatest < r.least + 2 ^ t.stackKind.width := by
  cases h with
  | int h =>
    have hbits : r.bits ≤ (Ty.int r).stackKind.width := by
      rw [Ty.stackKind_int]
      split <;> simp only [StackKind.width] <;> omega
    have hpow : (2 : Int) ^ r.bits ≤ 2 ^ (Ty.int r).stackKind.width :=
      pow_le_pow_right₀ (by decide) hbits
    have := StackCode.greatest_lt h
    omega
  | word signed => exact StackCode.greatest_lt (r := ⟨64, signed⟩) (le_refl 64)

theorem Ty.Ranges.index_lt_iff (h : t.Ranges r) (hn : r.holds n = true) (hlo : r.holds lo = true)
    (hhi : r.holds hi = true) (hle : lo ≤ hi) :
    ((BitVec.ofInt t.stackKind.width (n - lo)).toNat : Int) < hi - lo + 1 ↔ lo ≤ n ∧ n ≤ hi := by
  rw [holds_iff] at hn hlo hhi
  have hgr := h.greatest_lt
  have hpos : (0 : Int) ≤ (n - lo) % 2 ^ t.stackKind.width := Int.emod_nonneg _ (by positivity)
  have hiff : (n - lo) % 2 ^ t.stackKind.width < hi - lo + 1 ↔ lo ≤ n ∧ n ≤ hi :=
    emod_lt_iff ⟨hn.1, by omega⟩ hlo.1 hle (by omega)
  rw [← hiff, BitVec.toNat_ofInt]
  push_cast
  rw [Int.toNat_of_nonneg hpos]

theorem Ty.Ranges.toNat_index (h : t.Ranges r) (hn : r.holds n = true) (hlo : r.holds lo = true)
    (hle : lo ≤ n) : (BitVec.ofInt t.stackKind.width (n - lo)).toNat = (n - lo).toNat := by
  rw [holds_iff] at hn hlo
  have hgr := h.greatest_lt
  have hlt : n - lo < 2 ^ t.stackKind.width := by omega
  rw [BitVec.toNat_ofInt, Int.emod_eq_of_lt (by omega) (by exact_mod_cast hlt)]

theorem Ty.Ranges.ofInt_inj (h : t.Ranges r) {k : Int} (hn : r.holds n = true)
    (hk : r.holds k = true) :
    BitVec.ofInt t.stackKind.width n = BitVec.ofInt t.stackKind.width k ↔ n = k := by
  constructor
  · intro heq
    have hsub : BitVec.ofInt t.stackKind.width (n - k) = 0#t.stackKind.width := by
      rw [← ofInt_sub_ofInt, heq, BitVec.sub_self]
    have hin := h.index_lt_iff hn hk hk (le_refl k)
    rw [hsub, BitVec.toNat_zero] at hin
    omega
  · exact congrArg _

end Range

end StackCode
