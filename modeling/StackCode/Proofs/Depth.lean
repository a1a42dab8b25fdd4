import StackCode.Machine.Depth
import StackCode.Machine.Peephole

namespace StackCode.Machine

structure Body.Fits (b : Body) (depth : Nat → Option Nat) : Prop where
  step : ∀ p i d, b.instrs[p]? = some i → depth p = some d → ∃ after, i.depthAfter p d = .ok after
    ∧ ∀ q ∈ i.successors p, q < b.instrs.length ∧ depth q = some after
  start : b.instrs ≠ [] → depth 0 = some 0
  handler : ∀ h ∈ b.handlers, h.handlerStart < b.instrs.length ∧ depth h.handlerStart = some 1
  guarded : ∀ h ∈ b.handlers, ∀ d, depth h.tryStart = some d → d = 0

structure Agrees (instrs : List Instr) (depth : Nat → Option Nat) (sites : Array Site) : Prop where
  instr : sites.toList.map Site.instr = instrs
  depth : ∀ p i d, sites[p]? = some ⟨i, some d⟩ → depth p = some d

section Exploring

variable {b : Body} {depth : Nat → Option Nat} {sites : Array Site}

theorem Agrees.getElem? {instrs : List Instr} (h : Agrees instrs depth sites) (p : Nat) :
    instrs[p]? = sites[p]?.map Site.instr := by
  rw [← h.instr, List.getElem?_map, Array.getElem?_toList]

theorem Agrees.set {instrs : List Instr} {i : Instr} {p d : Nat}
    (h : Agrees instrs depth sites) (hs : sites[p]? = some ⟨i, none⟩) (hd : depth p = some d) :
    Agrees instrs depth (sites.setIfInBounds p ⟨i, some d⟩) := by
  obtain ⟨hp, hi⟩ := Array.getElem?_eq_some_iff.mp hs
  constructor
  · rw [Array.toList_setIfInBounds, List.map_set, ← h.instr]
    refine List.ext_getElem? ?_
    intro q
    rw [List.getElem?_set]
    split
    · subst q
      simp [hi, hp]
    · rfl
  · intro q j e hq
    rw [Array.getElem?_setIfInBounds] at hq
    split at hq
    · subst q
      simp only [Option.some.injEq, Site.mk.injEq] at hq
      rw [hd, hq.2]
    · exact h.depth q j e hq

theorem explore_agrees (hb : b.Fits depth) {pending : List (Nat × Nat)}
    (hs : Agrees b.instrs depth sites)
    (hp : ∀ e ∈ pending, e.1 < b.instrs.length ∧ depth e.1 = some e.2) :
    ∃ found, explore sites pending = .ok found ∧ Agrees b.instrs depth found := by
  fun_induction explore sites pending with
  | case1 sites => exact ⟨sites, rfl, hs⟩
  | case2 sites p d pending h =>
    have hlt := (hp _ List.mem_cons_self).1
    have hnone := hs.getElem? p
    rw [h, Option.map_none, List.getElem?_eq_none_iff] at hnone
    omega
  | case3 sites d pending p i h ih =>
    exact ih hs fun e he => hp e (List.mem_cons_of_mem _ he)
  | case4 sites p d pending i known h hne =>
    have hd := (hp _ List.mem_cons_self).2
    rw [hs.depth p i known h, Option.some.injEq] at hd
    exact absurd hd hne
  | case5 sites p d pending i h e he =>
    have hi : b.instrs[p]? = some i := by rw [hs.getElem?, h]; rfl
    obtain ⟨after, ha, -⟩ := hb.step p i d hi (hp _ List.mem_cons_self).2
    rw [ha] at he
    cases he
  | case6 sites p d pending i h after ha ih =>
    have hi : b.instrs[p]? = some i := by rw [hs.getElem?, h]; rfl
    have hd := (hp _ List.mem_cons_self).2
    obtain ⟨after', ha', hq⟩ := hb.step p i d hi hd
    obtain rfl : after' = after := by
      rw [ha', Except.ok.injEq] at ha
      exact ha
    refine ih (hs.set h hd) ?_
    intro e he
    rcases List.mem_append.mp he with he | he
    · obtain ⟨q, hq', rfl⟩ := List.mem_map.mp he
      exact hq q hq'
    · exact hp e (List.mem_cons_of_mem _ he)

theorem Body.Fits.starts (h : b.Fits depth) :
    ∀ e ∈ b.starts, e.1 < b.instrs.length ∧ depth e.1 = some e.2 := by
  intro e he
  rcases List.mem_append.mp he with he | he
  · obtain ⟨k, hk, rfl⟩ := List.mem_map.mp (List.mem_reverse.mp he)
    exact h.handler k hk
  · split at he
    · cases he
    · rename_i hne
      obtain rfl := List.mem_singleton.mp he
      rw [List.isEmpty_iff] at hne
      exact ⟨List.length_pos_iff.mpr hne, h.start hne⟩

theorem Body.Fits.depths (h : b.Fits depth) : ∃ d, b.depths = .ok d
    ∧ d.depths.length = b.instrs.length
    ∧ ∀ p x, d.depths[p]? = some x → x = none ∨ x = depth p := by
  have hs : Agrees b.instrs depth (b.instrs.map fun i => (⟨i, none⟩ : Site)).toArray := by
    constructor
    · simp [Function.comp_def]
    · intro p i d hp
      simp at hp
  obtain ⟨sites, hex, hag⟩ := explore_agrees h hs h.starts
  have hfree : b.handlers.findSome? (occupiedTry? sites) = none := by
    rw [List.findSome?_eq_none_iff]
    intro k hk
    rw [occupiedTry?]
    split
    · rename_i i d hd
      have := h.guarded k hk _ (hag.depth _ _ _ hd)
      omega
    · rfl
  refine ⟨⟨sites.toList.map Site.depth,
    (sites.toList.zipIdx.map fun e => e.1.peak e.2).foldl max 0⟩, ?_, ?_, ?_⟩
  · rw [Body.depths, hex]
    dsimp only
    rw [hfree]
  · rw [← hag.instr]
    simp
  · intro p x hx
    simp only [List.getElem?_map, Option.map_eq_some_iff, Array.getElem?_toList] at hx
    obtain ⟨⟨i, d⟩, hsite, rfl⟩ := hx
    cases d with
    | none => exact .inl rfl
    | some d => exact .inr (hag.depth p i d hsite).symm

end Exploring

structure Instr.Does (i : Instr) (pops pushes : Nat) : Prop where
  effect : i.opcode.effect = .fixed pops pushes
  flow : i.opcode.flow = .next
  targets : i.operand.branchTargets = []

section Slots

variable {i store load : Instr} {p d : Nat}

theorem Instr.storedSlot_effect {slot : Slot} (h : i.storedSlot = some slot) :
    i.opcode.effect = .fixed 1 0 ∧ i.opcode.flow = .next := by
  rw [storedSlot] at h
  split at h <;> simp_all [Opcode.effect, Opcode.flow]

theorem Instr.loadedSlot_effect {slot : Slot} (h : i.loadedSlot = some slot) :
    i.opcode.effect = .fixed 0 1 ∧ i.opcode.flow = .next := by
  rw [loadedSlot] at h
  split at h <;> simp_all [Opcode.effect, Opcode.flow]

theorem Opcode.endsFlow_of_next {op : Opcode} (h : op.flow = .next) : op.endsFlow = false := by
  rw [endsFlow, h]

theorem Instr.fusable_slots (h : store.fusable load = true) :
    ∃ slot, store.storedSlot = some slot ∧ load.loadedSlot = some slot := by
  rw [fusable] at h
  split at h
  · rename_i slot hs
    exact ⟨slot, hs, of_decide_eq_true h⟩
  · cases h

theorem Instr.depthAfter_fixed {pops pushes : Nat} (h : i.opcode.effect = .fixed pops pushes) :
    i.depthAfter p d =
      if d < pops then .error (.underflow p i.opcode pops d) else .ok (d - pops + pushes) := by
  rw [depthAfter, exchange, h]

theorem Instr.Does.successors {pops pushes : Nat} (h : i.Does pops pushes) :
    i.successors p = [p + 1] := by
  rw [Instr.successors, h.targets, Opcode.endsFlow_of_next h.flow]
  rfl

theorem Instr.shortForm?_does {j : Instr} (h : i.shortForm? = some j) :
    ∃ pops pushes, i.Does pops pushes ∧ j.Does pops pushes := by
  obtain ⟨opcode, operand⟩ := i
  rw [shortForm?] at h
  dsimp only at h
  repeat' split at h
  all_goals cases h
  all_goals exact ⟨_, _, ⟨rfl, rfl, rfl⟩, rfl, rfl, rfl⟩

end Slots

theorem length_fuseFrom {entered : Nat → Bool} (n : Nat) (a : Instr) (rest : List Instr) :
    (fuseFrom entered n a rest).1.length = rest.length + 1 := by
  induction rest generalizing n a with
  | nil => rfl
  | cons c rest ih =>
    rw [fuseFrom]
    split <;> simp [ih]

end StackCode.Machine
