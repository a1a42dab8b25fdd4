import Mathlib.Logic.Function.Basic
import StackCode.Proofs.Depth

/-!
Running a body before and after its improvements. Loads, stores, constants and duplications have the
meaning that the improvements rely on, and all other instructions do anything that keeps to the
edges of the body. Both bodies then run through the same states, except between the two instructions
of a fused pair.
-/

namespace StackCode.Machine

/-- The second instruction of a fused pair on a slot: a load behind a store, or behind another such
load, where control cannot come in from elsewhere. -/
inductive Body.Fused (b : Body) : Nat → Slot → Prop where
  | first {p : Nat} {store load : Instr} {x : Slot} : b.instrs[p]? = some store →
    store.storedSlot = some x → b.instrs[p + 1]? = some load → load.loadedSlot = some x →
    p + 1 ∉ b.entryPoints → b.Fused (p + 1) x
  | again {p : Nat} {load : Instr} {x : Slot} : b.Fused p x → b.instrs[p + 1]? = some load →
    load.loadedSlot = some x → p + 1 ∉ b.entryPoints → b.Fused (p + 1) x

def Body.Between (b : Body) (p : Nat) : Prop := ∃ x, b.Fused p x

section Pairs

variable {b : Body} {p : Nat} {x y : Slot}

theorem Body.Fused.load (h : b.Fused p x) :
    ∃ i, b.instrs[p]? = some i ∧ i.loadedSlot = some x := by
  cases h with
  | first _ _ hi hl _ => exact ⟨_, hi, hl⟩
  | again _ hi hl _ => exact ⟨_, hi, hl⟩

theorem Body.Fused.not_mem_entryPoints (h : b.Fused p x) : p ∉ b.entryPoints := by
  cases h with
  | first _ _ _ _ hn => exact hn
  | again _ _ _ hn => exact hn

theorem Body.Fused.unique (h : b.Fused p x) (h' : b.Fused p y) : x = y := by
  obtain ⟨i, hi, hx⟩ := h.load
  obtain ⟨j, hj, hy⟩ := h'.load
  rw [hi] at hj
  obtain rfl := Option.some.inj hj
  rw [hx] at hy
  exact Option.some.inj hy

theorem Instr.storedSlot_of_loadedSlot {i : Instr} (h : i.loadedSlot = some x) :
    i.storedSlot = none := by
  rw [loadedSlot] at h
  split at h <;> simp_all [storedSlot]

theorem Body.Fused.of_succ (h : b.Fused p x) (h' : b.Fused (p + 1) y) : y = x := by
  cases h' with
  | first hi hs _ _ _ =>
    obtain ⟨i, hi', hl⟩ := h.load
    rw [hi] at hi'
    obtain rfl := Option.some.inj hi'
    rw [Instr.storedSlot_of_loadedSlot hl] at hs
    cases hs
  | again h' _ _ _ => exact h'.unique h

theorem Body.Fused.store (h : b.Fused (p + 1) x) (hp : ¬ b.Between p) :
    ∃ i, b.instrs[p]? = some i ∧ i.storedSlot = some x := by
  cases h with
  | first hi hs _ _ _ => exact ⟨_, hi, hs⟩
  | again h' _ _ _ => exact absurd ⟨x, h'⟩ hp

theorem Body.Between.falls (h : b.Between (p + 1)) :
    ∃ i, b.instrs[p]? = some i ∧ i.opcode.endsFlow = false := by
  obtain ⟨x, hx⟩ := h
  cases hx with
  | first hi hs _ _ _ =>
    exact ⟨_, hi, Opcode.endsFlow_of_next (Instr.storedSlot_effect hs).2⟩
  | again h' _ _ _ =>
    obtain ⟨i, hi, hl⟩ := h'.load
    exact ⟨i, hi, Opcode.endsFlow_of_next (Instr.loadedSlot_effect hl).2⟩

theorem Body.Between.stored (h : b.Between p) :
    ∃ q < p, ∃ i, b.instrs[q]? = some i ∧ i.storedSlot ≠ none := by
  obtain ⟨x, hx⟩ := h
  induction hx with
  | @first p store load x hi hs _ _ _ => exact ⟨p, Nat.lt_succ_self p, store, hi, by simp [hs]⟩
  | again _ _ _ _ ih =>
    obtain ⟨q, hq, hstored⟩ := ih
    exact ⟨q, Nat.lt_succ_of_lt hq, hstored⟩

def Body.FusedInstr (b : Body) (p : Nat) (i : Instr) : Prop :=
  (b.Between (p + 1) ∧ i = ⟨.dup, .none⟩)
    ∨ (¬ b.Between (p + 1) ∧ ∃ x, b.Fused p x ∧ i.storedSlot = some x)
    ∨ (¬ b.Between (p + 1) ∧ ¬ b.Between p ∧ b.instrs[p]? = some i)

def Body.Holds (b : Body) (p : Nat) (a : Instr) : Prop :=
  (∃ x, b.Fused p x ∧ a.storedSlot = some x) ∨ (¬ b.Between p ∧ b.instrs[p]? = some a)

theorem Body.Holds.fused {a load : Instr} (h : b.Holds p a) (hl : b.instrs[p + 1]? = some load)
    (hn : p + 1 ∉ b.entryPoints) (hf : a.fusable load = true) :
    ∃ x, b.Fused (p + 1) x ∧ a.storedSlot = some x := by
  obtain ⟨x, hs, hx⟩ := Instr.fusable_slots hf
  refine ⟨x, ?_, hs⟩
  rcases h with ⟨y, hy, hsy⟩ | ⟨-, hi⟩
  · rw [hs] at hsy
    obtain rfl := Option.some.inj hsy
    exact .again hy hl hx hn
  · exact .first hi hs hl hx hn

theorem Body.Holds.fusable {a load : Instr} (h : b.Holds p a) (hl : b.instrs[p + 1]? = some load)
    (hf : b.Between (p + 1)) : p + 1 ∉ b.entryPoints ∧ a.fusable load = true := by
  obtain ⟨x, hx⟩ := hf
  refine ⟨hx.not_mem_entryPoints, ?_⟩
  obtain ⟨i, hi, hlx⟩ := hx.load
  rw [hl] at hi
  obtain rfl := Option.some.inj hi
  have hs : a.storedSlot = some x := by
    rcases h with ⟨y, hy, hsy⟩ | ⟨hp, ha⟩
    · rw [hy.of_succ hx]
      exact hsy
    · obtain ⟨i, hi, hs⟩ := hx.store hp
      rw [ha] at hi
      obtain rfl := Option.some.inj hi
      exact hs
  simp [Instr.fusable, hs, hlx]

theorem fuseFrom_getElem? {a : Instr} {rest : List Instr} (h : b.Holds p a)
    (hr : b.instrs.drop (p + 1) = rest) (k : Nat) (hk : k ≤ rest.length) :
    ∃ i, (fuseFrom b.entryPoints.contains p a rest).1[k]? = some i ∧ b.FusedInstr (p + k) i := by
  -- The invariant is what the pass holds: a store that has moved here, or what stood here before.
  induction rest generalizing p a k with
  | nil =>
    obtain rfl : k = 0 := by simpa using hk
    refine ⟨a, rfl, ?_⟩
    have hlast : ¬ b.Between (p + 1) := by
      rintro ⟨x, hx⟩
      obtain ⟨i, hi, -⟩ := hx.load
      rw [List.drop_eq_nil_iff] at hr
      rw [List.getElem?_eq_none hr] at hi
      cases hi
    rcases h with hx | ⟨hp, hi⟩
    · exact .inr (.inl ⟨hlast, hx⟩)
    · exact .inr (.inr ⟨hlast, hp, hi⟩)
  | cons c rest ih =>
    have hc : b.instrs[p + 1]? = some c := by
      rw [← List.head?_drop, hr, List.head?_cons]
    have hr' : b.instrs.drop (p + 1 + 1) = rest := by
      rw [← List.tail_drop, hr, List.tail_cons]
    rw [fuseFrom]
    split
    · rename_i hf
      rw [Bool.and_eq_true, Bool.not_eq_true', List.contains_eq_mem, decide_eq_false_iff_not] at hf
      obtain ⟨x, hx, hs⟩ := h.fused hc hf.1 hf.2
      cases k with
      | zero => exact ⟨_, rfl, .inl ⟨⟨x, hx⟩, rfl⟩⟩
      | succ k =>
        obtain ⟨i, hi, hfi⟩ := ih (.inl ⟨x, hx, hs⟩) hr' k (by simpa using hk)
        exact ⟨i, hi, by rw [show p + (k + 1) = p + 1 + k by omega]; exact hfi⟩
    · rename_i hf
      have hnot : ¬ b.Between (p + 1) := by
        intro hb
        obtain ⟨hn, hfus⟩ := h.fusable hc hb
        exact hf (by rw [hfus, List.contains_eq_mem, decide_eq_false hn]; rfl)
      cases k with
      | zero =>
        refine ⟨a, rfl, ?_⟩
        rcases h with hx | ⟨hp, hi⟩
        · exact .inr (.inl ⟨hnot, hx⟩)
        · exact .inr (.inr ⟨hnot, hp, hi⟩)
      | succ k =>
        obtain ⟨i, hi, hfi⟩ := ih (.inr ⟨hnot, hc⟩) hr' k (by simpa using hk)
        exact ⟨i, hi, by rw [show p + (k + 1) = p + 1 + k by omega]; exact hfi⟩

theorem Body.fuse_instrs {a : Instr} {rest : List Instr} (h : b.instrs = a :: rest) :
    b.fuse.1.instrs = (fuseFrom b.entryPoints.contains 0 a rest).1 := by
  rw [fuse]
  split
  · rename_i hnil
    rw [hnil] at h
    cases h
  · rename_i hcons
    rw [hcons] at h
    cases h
    rfl

theorem Body.length_fuse (b : Body) : b.fuse.1.instrs.length = b.instrs.length := by
  cases h : b.instrs with
  | nil => simp [fuse, h]
  | cons a rest => rw [fuse_instrs h, length_fuseFrom, List.length_cons]

theorem Body.fuse_handlers (b : Body) : b.fuse.1.handlers = b.handlers := by
  rw [fuse]
  split <;> rfl

theorem Body.fuse_locals (b : Body) : b.fuse.1.locals = b.locals := by
  rw [fuse]
  split <;> rfl

theorem Body.not_between_zero (b : Body) : ¬ b.Between 0 := by
  rintro ⟨x, hx⟩
  cases hx

theorem Body.fuse_getElem? {i : Instr} (h : b.fuse.1.instrs[p]? = some i) : b.FusedInstr p i := by
  have hlt := (List.getElem?_eq_some_iff.mp h).1
  rw [length_fuse] at hlt
  cases hb : b.instrs with
  | nil => simp [hb] at hlt
  | cons a rest =>
    have hr : b.instrs.drop (0 + 1) = rest := by rw [hb]; rfl
    rw [hb, List.length_cons] at hlt
    obtain ⟨j, hj, hf⟩ := fuseFrom_getElem? (.inr ⟨b.not_between_zero, by rw [hb]; rfl⟩) hr p
      (by omega)
    rw [fuse_instrs hb, hj] at h
    obtain rfl := Option.some.inj h
    rw [Nat.zero_add] at hf
    exact hf

theorem mem_fuseFrom {i j : Instr} {entered : Nat → Bool} {n : Nat} {rest : List Instr}
    (h : j ∈ (fuseFrom entered n i rest).1) : j = ⟨.dup, .none⟩ ∨ j ∈ i :: rest := by
  induction rest generalizing n i with
  | nil => exact .inr h
  | cons c rest ih =>
    rw [fuseFrom] at h
    split at h
    · rcases List.mem_cons.mp h with rfl | h
      · exact .inl rfl
      · apply (ih h).imp_right
        intro hm
        rcases List.mem_cons.mp hm with rfl | hm
        · exact List.mem_cons_self
        · exact List.mem_cons_of_mem _ (List.mem_cons_of_mem _ hm)
    · rcases List.mem_cons.mp h with rfl | h
      · exact .inr List.mem_cons_self
      · exact (ih h).imp_right (List.mem_cons_of_mem _)

theorem mem_fuse {j : Instr} (h : j ∈ b.fuse.1.instrs) : j = ⟨.dup, .none⟩ ∨ j ∈ b.instrs := by
  cases hb : b.instrs with
  | nil =>
    rw [Body.fuse, hb, hb] at h
    cases h
  | cons a rest =>
    rw [Body.fuse_instrs hb] at h
    exact mem_fuseFrom h

end Pairs

inductive Action where
  | store (slot : Slot)
  | load (slot : Slot)
  | constant (v : Int32)
  | duplicate
  | other (i : Instr)

namespace Instr

def pushedInt (i : Instr) : Option Int32 :=
  match i.opcode, i.operand with
  | .ldcI4, .int32 v | .ldcI4S, .int32 v => some v
  | .ldcI4M1, _ => some (-1)
  | .ldcI4Of n, _ => some (.ofNat n.toNat)
  | _, _ => none

def longForm (i : Instr) : Instr :=
  match i.opcode, i.operand with
  | .ldlocaS, .local n => ⟨.ldloca, .local n⟩
  | .ldargaS, .argument n => ⟨.ldarga, .argument n⟩
  | _, _ => i

def action (i : Instr) : Action :=
  match i.storedSlot, i.loadedSlot, i.pushedInt with
  | some x, _, _ => .store x
  | none, some x, _ => .load x
  | none, none, some v => .constant v
  | none, none, none => if i.opcode = .dup then .duplicate else .other i

theorem ofNat_of_small {v : Int32} (h : 0 ≤ v.toInt ∧ v.toInt ≤ 8) :
    Int32.ofNat (v.toNatClampNeg % 256) = v := by
  have hn : v.toNatClampNeg = v.toInt.toNat := rfl
  apply Int32.toInt_inj.mp
  rw [Int32.toInt_ofNat_of_lt (by omega), hn]
  omega

theorem action_shortForm (i : Instr) : (i.shortForm?.getD i).action = i.action
    ∨ ∃ j, i.shortForm? = some j ∧ j.action = .other j ∧ i.action = .other i ∧ j.longForm = i := by
  cases hs : i.shortForm? with
  | none => exact .inl rfl
  | some j =>
    rw [Option.getD_some]
    obtain ⟨opcode, operand⟩ := i
    rw [shortForm?] at hs
    dsimp only at hs
    repeat' split at hs
    all_goals cases hs
    · rename_i hv
      exact .inl (congrArg Action.constant (Int32.toInt_inj.mp hv).symm)
    · rename_i hv
      exact .inl (congrArg Action.constant (ofNat_of_small hv))
    · exact .inl rfl
    · exact .inl rfl
    · exact .inl rfl
    · exact .inl rfl
    · exact .inl rfl
    · exact .inl rfl
    · exact .inl rfl
    · exact .inr ⟨_, rfl, rfl, rfl, rfl⟩
    · exact .inr ⟨_, rfl, rfl, rfl, rfl⟩
    · exact .inl rfl

theorem action_eq_duplicate {i : Instr} : i.action = .duplicate ↔ i.opcode = .dup := by
  constructor
  · intro h
    rw [action] at h
    split at h
    · cases h
    · cases h
    · cases h
    · split at h
      · assumption
      · cases h
  · intro h
    obtain ⟨opcode, operand⟩ := i
    obtain rfl : opcode = .dup := h
    rfl

theorem opcode_shortForm (i : Instr) :
    (i.shortForm?.getD i).opcode = .dup ↔ i.opcode = .dup := by
  rw [← action_eq_duplicate, ← action_eq_duplicate]
  rcases i.action_shortForm with h | ⟨j, hs, hj, hi, -⟩
  · rw [h]
  · rw [hs, Option.getD_some, hj, hi]
    simp

end Instr

structure Frame (V M : Type) where
  position : Nat
  stack : List V
  slots : Slot → V
  memory : M

inductive Outcome (V M F : Type) where
  | goes (s : Frame V M)
  | ends (f : F)

/-- A meaning of constants, and of the instructions that the improvements do not look into. -/
structure Semantics (V M F : Type) where
  constant : Int32 → V
  other : Instr → Frame V M → Outcome V M F → Prop

/-- The long and the short form of an address do the same. -/
def Semantics.FormBlind {V M F : Type} (m : Semantics V M F) : Prop :=
  ∀ i s o, m.other i.longForm s o ↔ m.other i s o

def Handler.Covers (h : Handler) (p : Nat) : Prop := h.tryStart ≤ p ∧ p < h.tryEnd

def Body.MayGo (b : Body) (p : Nat) (i : Instr) (q : Nat) : Prop :=
  q = p + 1 ∨ q ∈ i.operand.branchTargets ∨ ∃ h ∈ b.handlers, h.Covers p ∧ q = h.handlerStart

variable {V M F : Type}

def Action.Gives (m : Semantics V M F) (b : Body) (s : Frame V M) :
    Action → Outcome V M F → Prop
  | .store x, o => ∃ v rest, s.stack = v :: rest
    ∧ o = .goes ⟨s.position + 1, rest, Function.update s.slots x v, s.memory⟩
  | .load x, o => o = .goes ⟨s.position + 1, s.slots x :: s.stack, s.slots, s.memory⟩
  | .constant c, o => o = .goes ⟨s.position + 1, m.constant c :: s.stack, s.slots, s.memory⟩
  | .duplicate, o => ∃ v rest, s.stack = v :: rest
    ∧ o = .goes ⟨s.position + 1, v :: v :: rest, s.slots, s.memory⟩
  | .other i, o => m.other i s o ∧ ∀ t, o = .goes t → b.MayGo s.position i t.position

def Step (m : Semantics V M F) (b : Body) (s : Frame V M) (o : Outcome V M F) : Prop :=
  ∃ i, b.instrs[s.position]? = some i ∧ i.action.Gives m b s o

section Steps

variable {m : Semantics V M F} {b c : Body} {s t : Frame V M} {o : Outcome V M F} {i : Instr}
  {x : Slot}

theorem step_iff (hi : b.instrs[s.position]? = some i) :
    Step m b s o ↔ i.action.Gives m b s o := by
  constructor
  · rintro ⟨j, hj, h⟩
    rw [hi] at hj
    obtain rfl := Option.some.inj hj
    exact h
  · intro h
    exact ⟨i, hi, h⟩

theorem Action.Gives.congr {a : Action} (hh : b.handlers = c.handlers) (h : a.Gives m b s o) :
    a.Gives m c s o := by
  cases a with
  | other i =>
    refine ⟨h.1, ?_⟩
    intro t ht
    rw [Body.MayGo, ← hh]
    exact h.2 t ht
  | store | load | constant | duplicate => exact h

theorem step_congr
    (hi : b.instrs[s.position]?.map Instr.action = c.instrs[s.position]?.map Instr.action)
    (hh : b.handlers = c.handlers) : Step m b s o ↔ Step m c s o := by
  constructor
  · rintro ⟨i, hb, h⟩
    rw [hb] at hi
    obtain ⟨j, hj, he⟩ := Option.map_eq_some_iff.mp hi.symm
    exact ⟨j, hj, he ▸ h.congr hh⟩
  · rintro ⟨i, hc, h⟩
    rw [hc] at hi
    obtain ⟨j, hj, he⟩ := Option.map_eq_some_iff.mp hi
    exact ⟨j, hj, he ▸ h.congr hh.symm⟩

theorem Instr.action_store (h : i.storedSlot = some x) : i.action = .store x := by
  rw [action, h]

theorem Instr.action_load (h : i.loadedSlot = some x) : i.action = .load x := by
  rw [action, storedSlot_of_loadedSlot h, h]

theorem Instr.branchTargets_longForm (i : Instr) :
    i.longForm.operand.branchTargets = i.operand.branchTargets := by
  obtain ⟨opcode, operand⟩ := i
  rw [longForm]
  split <;> simp_all [Operand.branchTargets]

theorem Instr.action_other {j : Instr} (h : i.action = .other j) : j = i := by
  rw [action] at h
  split at h
  · cases h
  · cases h
  · cases h
  · split at h
    · cases h
    · exact (Action.other.inj h).symm

theorem gives_shortForm (hm : m.FormBlind) :
    (i.shortForm?.getD i).action.Gives m b s o ↔ i.action.Gives m b s o := by
  rcases i.action_shortForm with h | ⟨j, hj, hshort, hlong, hform⟩
  · rw [h]
  · have htargets := j.branchTargets_longForm
    have hother := hm j s o
    rw [hform] at htargets hother
    rw [hj, Option.getD_some, hshort, hlong]
    simp only [Action.Gives, Body.MayGo, htargets, hother]

theorem Step.position (h : Step m b s (.goes t)) :
    t.position = s.position + 1 ∨ t.position ∈ b.entryPoints := by
  obtain ⟨i, hi, hg⟩ := h
  cases ha : i.action with
  | store x =>
    rw [ha] at hg
    obtain ⟨v, rest, -, ho⟩ := hg
    cases ho
    exact .inl rfl
  | load x =>
    rw [ha] at hg
    cases hg
    exact .inl rfl
  | constant c =>
    rw [ha] at hg
    cases hg
    exact .inl rfl
  | duplicate =>
    rw [ha] at hg
    obtain ⟨v, rest, -, ho⟩ := hg
    cases ho
    exact .inl rfl
  | other j =>
    rw [ha] at hg
    rcases hg.2 t rfl with hn | ht | ⟨h, hh, -, hs⟩
    · exact .inl hn
    · rw [Instr.action_other ha] at ht
      exact .inr (List.mem_append_left _
        (List.mem_flatMap.mpr ⟨i, List.mem_of_getElem? hi, ht⟩))
    · refine .inr (List.mem_append_right _ (List.mem_flatMap.mpr ⟨h, hh, ?_⟩))
      rw [hs]
      simp [Handler.bounds]

end Steps

section Simulation

variable {m : Semantics V M F} {b : Body} {s t : Frame V M} {o : Outcome V M F} {x : Slot}

/-- Equal states, or states between the instructions of a pair: the value is in its slot in the one,
and lies twice on the stack in the other. -/
inductive Linked (b : Body) : Frame V M → Frame V M → Prop where
  | same {s : Frame V M} : ¬ b.Between s.position → Linked b s s
  | between {p : Nat} {x : Slot} {v : V} {stack : List V} {slots : Slot → V} {memory : M} :
    b.Fused p x → Linked b ⟨p, stack, Function.update slots x v, memory⟩
      ⟨p, v :: v :: stack, slots, memory⟩

inductive Outcome.Rel (L : Frame V M → Frame V M → Prop) :
    Outcome V M F → Outcome V M F → Prop where
  | goes {s t : Frame V M} : L s t → Outcome.Rel L (.goes s) (.goes t)
  | ends {f : F} : Outcome.Rel L (.ends f) (.ends f)

theorem Outcome.Rel.of_step (h : Step m b s o) (hn : ¬ b.Between (s.position + 1)) :
    Outcome.Rel (Linked b) o o := by
  cases o with
  | ends f => exact .ends
  | goes t =>
    refine .goes (.same ?_)
    rcases h.position with hp | he
    · rw [hp]
      exact hn
    · rintro ⟨x, hx⟩
      exact hx.not_mem_entryPoints he

theorem Body.fuse_cases (b : Body) (p : Nat) :
    (b.instrs[p]? = none ∧ b.fuse.1.instrs[p]? = none)
      ∨ ∃ i j, b.instrs[p]? = some i ∧ b.fuse.1.instrs[p]? = some j ∧ b.FusedInstr p j := by
  by_cases hp : p < b.instrs.length
  · have hf : p < b.fuse.1.instrs.length := by
      rw [b.length_fuse]
      exact hp
    exact .inr ⟨_, _, List.getElem?_eq_getElem hp, List.getElem?_eq_getElem hf,
      fuse_getElem? (List.getElem?_eq_getElem hf)⟩
  · refine .inl ⟨List.getElem?_eq_none (by omega), List.getElem?_eq_none ?_⟩
    rw [b.length_fuse]
    omega

structure StepsAlike (m : Semantics V M F) (b c : Body) (L : Frame V M → Frame V M → Prop)
    (s t : Frame V M) : Prop where
  forth : ∀ o, Step m b s o → ∃ o', Step m c t o' ∧ Outcome.Rel L o o'
  back : ∀ o', Step m c t o' → ∃ o, Step m b s o ∧ Outcome.Rel L o o'

theorem Outcome.Rel.symm {L : Frame V M → Frame V M → Prop} {o o' : Outcome V M F}
    (h : Outcome.Rel L o o') : Outcome.Rel (flip L) o' o := by
  cases h with
  | goes hl => exact .goes hl
  | ends => exact .ends

theorem StepsAlike.symm {c : Body} {L : Frame V M → Frame V M → Prop}
    (h : StepsAlike m b c L s t) : StepsAlike m c b (flip L) t s := by
  constructor
  · intro o ho
    obtain ⟨o', ho', hr⟩ := h.back o ho
    exact ⟨o', ho', hr.symm⟩
  · intro o ho
    obtain ⟨o', ho', hr⟩ := h.forth o ho
    exact ⟨o', ho', hr.symm⟩

theorem stepsAlike_store {i : Instr} (hi : b.instrs[s.position]? = some i)
    (hs : i.storedSlot = some x) (hj : b.fuse.1.instrs[s.position]? = some ⟨.dup, .none⟩)
    (hx : b.Fused (s.position + 1) x) : StepsAlike m b b.fuse.1 (Linked b) s s := by
  constructor
  · intro o ho
    rw [step_iff hi, Instr.action_store hs] at ho
    obtain ⟨v, rest, hv, rfl⟩ := ho
    exact ⟨_, (step_iff hj).mpr ⟨v, rest, hv, rfl⟩, .goes (.between hx)⟩
  · intro o ho
    obtain ⟨v, rest, hv, rfl⟩ := (step_iff hj).mp ho
    refine ⟨_, (step_iff hi).mpr ?_, .goes (.between hx)⟩
    rw [Instr.action_store hs]
    exact ⟨v, rest, hv, rfl⟩

theorem StepsAlike.of_single {c : Body} {o o' : Outcome V M F} (hb : ∀ u, Step m b s u ↔ u = o)
    (hc : ∀ u, Step m c t u ↔ u = o') (h : Outcome.Rel (Linked b) o o') :
    StepsAlike m b c (Linked b) s t := by
  constructor
  · intro u hu
    rw [hb] at hu
    subst u
    exact ⟨o', (hc o').mpr rfl, h⟩
  · intro u hu
    rw [hc] at hu
    subst u
    exact ⟨o, (hb o).mpr rfl, h⟩

variable {p : Nat} {v : V} {stack : List V} {slots : Slot → V} {memory : M} {i j : Instr}

theorem step_load_between (hi : b.instrs[p]? = some i) (hl : i.loadedSlot = some x) :
    Step m b ⟨p, stack, Function.update slots x v, memory⟩ o ↔
      o = .goes ⟨p + 1, v :: stack, Function.update slots x v, memory⟩ := by
  rw [step_iff hi, Instr.action_load hl]
  simp only [Action.Gives, Function.update_self]

theorem stepsAlike_again (hi : b.instrs[p]? = some i) (hl : i.loadedSlot = some x)
    (hj : b.fuse.1.instrs[p]? = some ⟨.dup, .none⟩) (hx : b.Fused (p + 1) x) :
    StepsAlike m b b.fuse.1 (Linked b) ⟨p, stack, Function.update slots x v, memory⟩
      ⟨p, v :: v :: stack, slots, memory⟩ := by
  refine .of_single (fun u => step_load_between hi hl) (fun u => ?_) (.goes (.between hx))
  rw [step_iff hj]
  constructor
  · rintro ⟨w, rest, hw, rfl⟩
    cases hw
    rfl
  · rintro rfl
    exact ⟨v, v :: stack, rfl, rfl⟩

theorem stepsAlike_load (hi : b.instrs[p]? = some i) (hl : i.loadedSlot = some x)
    (hj : b.fuse.1.instrs[p]? = some j) (hs : j.storedSlot = some x)
    (hn : ¬ b.Between (p + 1)) :
    StepsAlike m b b.fuse.1 (Linked b) ⟨p, stack, Function.update slots x v, memory⟩
      ⟨p, v :: v :: stack, slots, memory⟩ := by
  refine .of_single (fun u => step_load_between hi hl) (fun u => ?_) (.goes (.same hn))
  rw [step_iff hj, Instr.action_store hs]
  constructor
  · rintro ⟨w, rest, hw, rfl⟩
    cases hw
    rfl
  · rintro rfl
    exact ⟨v, v :: stack, rfl, rfl⟩

theorem stepsAlike_same (hi : b.fuse.1.instrs[s.position]? = b.instrs[s.position]?)
    (hn : ¬ b.Between (s.position + 1)) : StepsAlike m b b.fuse.1 (Linked b) s s := by
  have hstep : ∀ o, Step m b s o ↔ Step m b.fuse.1 s o := fun o =>
    step_congr (by rw [hi]) b.fuse_handlers.symm
  constructor
  · intro o ho
    exact ⟨o, (hstep o).mp ho, .of_step ho hn⟩
  · intro o ho
    exact ⟨o, (hstep o).mpr ho, .of_step ((hstep o).mpr ho) hn⟩

theorem Linked.stepsAlike (h : Linked b s t) : StepsAlike m b b.fuse.1 (Linked b) s t := by
  rcases b.fuse_cases s.position with ⟨hb, hf⟩ | ⟨i, j, hi, hj, hfused⟩
  · have ht : t.position = s.position := by cases h <;> rfl
    constructor
    · rintro o ⟨i, hi, -⟩
      rw [hb] at hi
      cases hi
    · rintro o ⟨i, hi, -⟩
      rw [ht, hf] at hi
      cases hi
  · cases h with
    | same hn =>
      rcases hfused with ⟨⟨x, hx⟩, rfl⟩ | ⟨-, x, hx, -⟩ | ⟨hnext, -, hb⟩
      · obtain ⟨store, hstore, hs⟩ := hx.store hn
        exact stepsAlike_store hstore hs hj hx
      · exact absurd ⟨x, hx⟩ hn
      · exact stepsAlike_same (hj.trans hb.symm) hnext
    | @between p x v stack slots memory hx =>
      obtain ⟨load, hload, hl⟩ := hx.load
      rcases hfused with ⟨⟨y, hy⟩, rfl⟩ | ⟨hnext, y, hy, hs⟩ | ⟨-, hn, -⟩
      · rw [hx.of_succ hy] at hy
        exact stepsAlike_again hload hl hj hy
      · rw [hy.unique hx] at hs
        exact stepsAlike_load hload hl hj hs hnext
      · exact absurd ⟨x, hx⟩ hn

end Simulation

inductive Config (V M F : Type) where
  | running (s : Frame V M)
  | ended (f : F)
  | stuck

inductive Next (m : Semantics V M F) (b : Body) : Config V M F → Config V M F → Prop where
  | goes {s t : Frame V M} : Step m b s (.goes t) → Next m b (.running s) (.running t)
  | ends {s : Frame V M} {f : F} : Step m b s (.ends f) → Next m b (.running s) (.ended f)
  | stops {s : Frame V M} : (∀ o, ¬ Step m b s o) → Next m b (.running s) .stuck
  | ended {f : F} : Next m b (.ended f) (.ended f)
  | stuck : Next m b .stuck .stuck

structure Run (m : Semantics V M F) (b : Body) (s : Frame V M) (run : Nat → Config V M F) :
    Prop where
  start : run 0 = .running s
  next : ∀ n, Next m b (run n) (run (n + 1))

def Body.Agree (b : Body) : Config V M F → Config V M F → Prop
  | .running s, .running t => s.position = t.position ∧ (¬ b.Between s.position → s = t)
  | x, y => x = y

section Runs

variable {m : Semantics V M F} {b : Body} {s : Frame V M}

inductive Config.Rel (L : Frame V M → Frame V M → Prop) :
    Config V M F → Config V M F → Prop where
  | running {s t : Frame V M} : L s t → Config.Rel L (.running s) (.running t)
  | ended {f : F} : Config.Rel L (.ended f) (.ended f)
  | stuck : Config.Rel L .stuck .stuck

theorem Config.Rel.symm {L : Frame V M → Frame V M → Prop} {x y : Config V M F}
    (h : Config.Rel L x y) : Config.Rel (flip L) y x := by
  cases h with
  | running hl => exact .running hl
  | ended => exact .ended
  | stuck => exact .stuck

theorem Config.Rel.agree {x y : Config V M F} (h : Config.Rel (Linked b) x y) : b.Agree x y := by
  cases h with
  | running hl =>
    cases hl with
    | same hn => exact ⟨rfl, fun _ => rfl⟩
    | between hx => exact ⟨rfl, fun hn => absurd ⟨_, hx⟩ hn⟩
  | ended => rfl
  | stuck => rfl

theorem Config.Rel.next {c : Body} {L : Frame V M → Frame V M → Prop} {x y x' : Config V M F}
    (hL : ∀ s t, L s t → StepsAlike m b c L s t) (h : Config.Rel L x y) (hx : Next m b x x') :
    ∃ y', Next m c y y' ∧ Config.Rel L x' y' := by
  cases hx with
  | goes hs =>
    cases h with
    | running hl =>
      obtain ⟨o, ho, ha⟩ := (hL _ _ hl).forth _ hs
      cases ha with
      | goes hl' => exact ⟨_, .goes ho, .running hl'⟩
  | ends hs =>
    cases h with
    | running hl =>
      obtain ⟨o, ho, ha⟩ := (hL _ _ hl).forth _ hs
      cases ha with
      | ends => exact ⟨_, .ends ho, .ended⟩
  | stops hs =>
    cases h with
    | running hl =>
      refine ⟨_, .stops ?_, .stuck⟩
      intro o ho
      obtain ⟨o', ho', -⟩ := (hL _ _ hl).back _ ho
      exact hs o' ho'
  | ended =>
    cases h
    exact ⟨_, .ended, .ended⟩
  | stuck =>
    cases h
    exact ⟨_, .stuck, .stuck⟩

theorem exists_run {α β : Type} {next : α → α → Prop} {next' : β → β → Prop} {R : α → β → Prop}
    (h : ∀ x y x', R x y → next x x' → ∃ y', next' y y' ∧ R x' y') {run : Nat → α}
    (hrun : ∀ n, next (run n) (run (n + 1))) {y : β} (h0 : R (run 0) y) :
    ∃ run' : Nat → β, run' 0 = y ∧ (∀ n, next' (run' n) (run' (n + 1)))
      ∧ ∀ n, R (run n) (run' n) := by
  have hstep : ∀ n (z : { z // R (run n) z }), ∃ z' : { z' // R (run (n + 1)) z' },
      next' z.1 z'.1 := by
    rintro n ⟨z, hz⟩
    obtain ⟨z', hn, hr⟩ := h _ _ _ hz (hrun n)
    exact ⟨⟨z', hr⟩, hn⟩
  let next : ∀ n, { z // R (run n) z } → { z' // R (run (n + 1)) z' } := fun n z =>
    (hstep n z).choose
  let run' : ∀ n, { z // R (run n) z } := fun n => Nat.rec ⟨y, h0⟩ next n
  refine ⟨fun n => (run' n).1, rfl, ?_, fun n => (run' n).2⟩
  intro n
  exact (hstep n (run' n)).choose_spec

end Runs

section Improving

variable {b : Body} {compaction : Bool}

theorem Body.compact_getElem? (b : Body) (p : Nat) :
    b.compact.1.instrs[p]? = b.instrs[p]?.map fun i => i.shortForm?.getD i := by
  rw [compact, List.getElem?_map]

theorem Body.optimize_shape (b : Body) (compaction : Bool) :
    (b.optimize compaction).1.instrs.length = b.instrs.length
      ∧ (b.optimize compaction).1.handlers = b.handlers
      ∧ (b.optimize compaction).1.locals = b.locals := by
  rw [← b.length_fuse, ← b.fuse_handlers, ← b.fuse_locals]
  cases compaction with
  | false => exact ⟨rfl, rfl, rfl⟩
  | true => exact ⟨List.length_map _, rfl, rfl⟩

variable {m : Semantics V M F} {s t : Frame V M} {o : Outcome V M F}

theorem step_compact (hm : m.FormBlind) : Step m b.compact.1 s o ↔ Step m b s o := by
  have hsame (i : Instr) : (i.shortForm?.getD i).action.Gives m b.compact.1 s o
      ↔ i.action.Gives m b s o := by
    rw [← gives_shortForm hm (b := b)]
    exact ⟨fun h => h.congr rfl, fun h => h.congr rfl⟩
  constructor
  · rintro ⟨j, hj, h⟩
    rw [b.compact_getElem?] at hj
    obtain ⟨i, hi, rfl⟩ := Option.map_eq_some_iff.mp hj
    exact ⟨i, hi, (hsame i).mp h⟩
  · rintro ⟨i, hi, h⟩
    exact ⟨_, by rw [b.compact_getElem?, hi]; rfl, (hsame i).mpr h⟩

theorem step_optimize (hm : compaction = true → m.FormBlind) :
    Step m (b.optimize compaction).1 s o ↔ Step m b.fuse.1 s o := by
  cases compaction with
  | false => exact Iff.rfl
  | true => exact step_compact (hm rfl)

theorem Linked.stepsAlike_optimize (hm : compaction = true → m.FormBlind) (h : Linked b s t) :
    StepsAlike m b (b.optimize compaction).1 (Linked b) s t := by
  constructor
  · intro o ho
    obtain ⟨o', ho', hr⟩ := h.stepsAlike.forth o ho
    exact ⟨o', (step_optimize hm).mpr ho', hr⟩
  · intro o ho
    exact h.stepsAlike.back o ((step_optimize hm).mp ho)

theorem Body.opcode_optimize (b : Body) (compaction : Bool) (p : Nat) :
    (b.optimize compaction).1.instrs[p]?.map Instr.opcode = some .dup
      ↔ b.fuse.1.instrs[p]?.map Instr.opcode = some .dup := by
  cases compaction with
  | false => exact Iff.rfl
  | true =>
    change b.fuse.1.compact.1.instrs[p]?.map Instr.opcode = some .dup ↔ _
    rw [compact_getElem?, Option.map_map]
    cases b.fuse.1.instrs[p]? with
    | none => exact Iff.rfl
    | some i => simpa using i.opcode_shortForm

theorem Body.between_iff (b : Body) (compaction : Bool) (p : Nat) :
    b.Between (p + 1) ↔ (b.optimize compaction).1.instrs[p]?.map Instr.opcode = some .dup
      ∧ b.instrs[p]?.map Instr.opcode ≠ some .dup := by
  rw [b.opcode_optimize compaction]
  constructor
  · rintro ⟨x, hx⟩
    have hi : ∃ i, b.instrs[p]? = some i ∧ i.action ≠ .duplicate := by
      by_cases hp : b.Between p
      · obtain ⟨y, hy⟩ := hp
        obtain ⟨i, hi, hl⟩ := hy.load
        exact ⟨i, hi, by rw [Instr.action_load hl]; nofun⟩
      · obtain ⟨i, hi, hs⟩ := hx.store hp
        exact ⟨i, hi, by rw [Instr.action_store hs]; nofun⟩
    obtain ⟨i, hi, hne⟩ := hi
    rw [ne_eq, Instr.action_eq_duplicate] at hne
    rcases b.fuse_cases p with ⟨hn, -⟩ | ⟨_, j, -, hj, hf⟩
    · rw [hn] at hi
      cases hi
    · refine ⟨?_, by rw [hi]; simpa using hne⟩
      rcases hf with ⟨-, rfl⟩ | ⟨hn, -⟩ | ⟨hn, -⟩
      · rw [hj]
        rfl
      · exact absurd ⟨x, hx⟩ hn
      · exact absurd ⟨x, hx⟩ hn
  · rintro ⟨hd, hne⟩
    obtain ⟨j, hj, ha⟩ := Option.map_eq_some_iff.mp hd
    rcases fuse_getElem? hj with ⟨hb, -⟩ | ⟨-, x, -, hs⟩ | ⟨-, -, hi⟩
    · exact hb
    · rw [← Instr.action_eq_duplicate, Instr.action_store hs] at ha
      cases ha
    · rw [hi] at hne
      exact absurd (congrArg some ha) hne

end Improving

/-- The improvements keep the number of instructions, the handlers and the locals. From a state that
is not between the instructions of a pair, as at the start and at every entry point, the improved
body has the same runs: each run of one body goes with one of the other that is in the same state
after the same number of steps, except between the instructions of a pair, and ends in the same way
if it ends. Short forms are taken only where addresses have the same meaning in both forms. -/
theorem optimize_same_runs (b : Body) (compaction : Bool) :
    ((b.optimize compaction).1.instrs.length = b.instrs.length
      ∧ (b.optimize compaction).1.handlers = b.handlers
      ∧ (b.optimize compaction).1.locals = b.locals)
    ∧ (∀ p, b.Between (p + 1) ↔
      (b.optimize compaction).1.instrs[p]?.map Instr.opcode = some .dup
        ∧ b.instrs[p]?.map Instr.opcode ≠ some .dup)
    ∧ (¬ b.Between 0 ∧ ∀ p ∈ b.entryPoints, ¬ b.Between p)
    ∧ ∀ (V M F : Type) (m : Semantics V M F) (s : Frame V M),
      (compaction = true → m.FormBlind) → ¬ b.Between s.position →
      (∀ run, Run m b s run →
        ∃ run', Run m (b.optimize compaction).1 s run' ∧ ∀ n, b.Agree (run n) (run' n))
      ∧ (∀ run', Run m (b.optimize compaction).1 s run' →
        ∃ run, Run m b s run ∧ ∀ n, b.Agree (run n) (run' n)) := by
  refine ⟨b.optimize_shape compaction, b.between_iff compaction, ⟨b.not_between_zero, ?_⟩, ?_⟩
  · rintro p hp ⟨x, hx⟩
    exact hx.not_mem_entryPoints hp
  intro V M F m s hm hs
  have hlink : ∀ s t : Frame V M, Linked b s t →
      StepsAlike m b (b.optimize compaction).1 (Linked b) s t := fun s t h =>
    h.stepsAlike_optimize hm
  have hstart : Config.Rel (F := F) (Linked b) (.running s) (.running s) := .running (.same hs)
  constructor
  · intro run hrun
    obtain ⟨run', h0, hnext, hrel⟩ := exists_run
      (fun x y x' h hx => Config.Rel.next hlink h hx) hrun.next (hrun.start ▸ hstart)
    exact ⟨run', ⟨h0.trans hrun.start, hnext⟩, fun n => (hrel n).agree⟩
  · intro run' hrun
    obtain ⟨run, h0, hnext, hrel⟩ := exists_run
      (fun x y x' h hx => Config.Rel.next (fun s t h => (hlink t s h).symm) h hx) hrun.next
      (hrun.start ▸ hstart.symm)
    exact ⟨run, ⟨h0.trans hrun.start, hnext⟩, fun n => (hrel n).symm.agree⟩

def storeLoads : Body where
  instrs := [⟨.stloc, .local 0⟩, ⟨.ldloc, .local 0⟩, ⟨.ldloc, .local 0⟩, ⟨.ret, .none⟩]
  handlers := []
  locals := [.signed 32]
  maxStack := 2

def returning : Semantics Nat Unit (List Nat) where
  constant _ := 0
  other i s o := i.opcode = .ret ∧ o = .ends s.stack

theorem returning_formBlind : returning.FormBlind := by
  intro i s o
  have hret : i.longForm.opcode = .ret ↔ i.opcode = .ret := by
    rw [Instr.longForm]
    split <;> simp_all
  exact and_congr_left' hret

def storeLoadsRun : Nat → Config Nat Unit (List Nat)
  | 0 => .running ⟨0, [7], fun _ => 3, ()⟩
  | 1 => .running ⟨1, [], Function.update (fun _ => 3) (.local 0) 7, ()⟩
  | 2 => .running ⟨2, [7], Function.update (fun _ => 3) (.local 0) 7, ()⟩
  | 3 => .running ⟨3, [7, 7], Function.update (fun _ => 3) (.local 0) 7, ()⟩
  | _ + 4 => .ended [7, 7]

theorem storeLoads_same_runs :
    ¬ storeLoads.Between 0
      ∧ (storeLoads.optimize true).1.instrs
        = [⟨.dup, .none⟩, ⟨.dup, .none⟩, ⟨.stlocAt 0, .none⟩, ⟨.ret, .none⟩]
      ∧ ∃ run', Run returning (storeLoads.optimize true).1 ⟨0, [7], fun _ => 3, ()⟩ run'
        ∧ run' 4 = .ended [7, 7] := by
  have hstart := storeLoads.not_between_zero
  have hrun : Run returning storeLoads ⟨0, [7], fun _ => 3, ()⟩ storeLoadsRun := by
    refine ⟨rfl, ?_⟩
    intro n
    match n with
    | 0 => exact .goes ⟨_, rfl, 7, [], rfl, rfl⟩
    | 1 => exact .goes ⟨_, rfl, rfl⟩
    | 2 => exact .goes ⟨_, rfl, rfl⟩
    | 3 => exact .ends ⟨_, rfl, ⟨rfl, rfl⟩, nofun⟩
    | _ + 4 => exact .ended
  obtain ⟨run', hrun', hagree⟩ :=
    ((optimize_same_runs storeLoads true).2.2.2 _ _ _ returning _ (fun _ => returning_formBlind)
      hstart).1 _ hrun
  refine ⟨hstart, by decide, run', hrun', ?_⟩
  have h4 := hagree 4
  cases hr : run' 4 with
  | running s =>
    rw [hr] at h4
    cases h4
  | ended f =>
    rw [hr] at h4
    exact h4.symm
  | stuck =>
    rw [hr] at h4
    cases h4

def formBound : Semantics Nat Unit (List Nat) where
  constant _ := 0
  other i s o := i.opcode = .ldloca ∧ o = .ends s.stack

def addressBody : Body where
  instrs := [⟨.ldloca, .local 0⟩]
  handlers := []
  locals := [.signed 32]
  maxStack := 1

def lateRun : Nat → Config Nat Unit (List Nat)
  | 0 => .running ⟨2, [7], fun _ => 3, ()⟩
  | 1 => .running ⟨3, [3, 7], fun _ => 3, ()⟩
  | _ + 2 => .ended [3, 7]

def addressRun : Nat → Config Nat Unit (List Nat)
  | 0 => .running ⟨0, [], fun _ => 3, ()⟩
  | _ + 1 => .ended []

theorem runs_apart :
    (storeLoads.Between 2 ∧ Run returning storeLoads ⟨2, [7], fun _ => 3, ()⟩ lateRun
      ∧ ∀ run', Run returning (storeLoads.optimize false).1 ⟨2, [7], fun _ => 3, ()⟩ run' →
        ¬ storeLoads.Agree (lateRun 1) (run' 1))
    ∧ Run formBound addressBody ⟨0, [], fun _ => 3, ()⟩ addressRun
      ∧ ∀ run', Run formBound (addressBody.optimize true).1 ⟨0, [], fun _ => 3, ()⟩ run' →
        ¬ addressBody.Agree (addressRun 1) (run' 1) := by
  refine ⟨⟨(storeLoads.between_iff false 1).mpr (by decide), ⟨rfl, ?_⟩, ?_⟩, ⟨rfl, ?_⟩, ?_⟩
  · intro n
    match n with
    | 0 => exact .goes ⟨_, rfl, rfl⟩
    | 1 => exact .ends ⟨_, rfl, ⟨rfl, rfl⟩, nofun⟩
    | _ + 2 => exact .ended
  · intro run' hrun hagree
    have hnext := hrun.next 0
    rw [hrun.start] at hnext
    have hthree : ¬ storeLoads.Between 3 := fun h =>
      absurd ((storeLoads.between_iff false 2).mp h) (by decide)
    generalize run' 1 = y at hnext hagree
    cases hnext with
    | goes hs =>
      obtain ⟨i, hi, hg⟩ := hs
      cases hi
      obtain ⟨v, rest, hstack, ho⟩ := hg
      cases hstack
      cases ho
      have hstacks := congrArg Frame.stack (hagree.2 hthree)
      cases hstacks
    | ends hs => cases hagree
    | stops hs => cases hagree
  · intro n
    match n with
    | 0 => exact .ends ⟨_, rfl, ⟨rfl, rfl⟩, nofun⟩
    | _ + 1 => exact .ended
  · intro run' hrun hagree
    have hnext := hrun.next 0
    rw [hrun.start] at hnext
    generalize run' 1 = y at hnext hagree
    cases hnext with
    | goes hs => cases hagree
    | ends hs =>
      obtain ⟨i, hi, hg⟩ := hs
      cases hi
      cases hg.1.1
    | stops hs => cases hagree

end StackCode.Machine
