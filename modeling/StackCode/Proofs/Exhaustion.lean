import StackCode.Proofs.Levels

namespace StackCode.Machine

section Pairs

variable {b : Body} {i : Instr} {p : Nat} {x : Slot}

theorem fuseFrom_of_apart (h : ∀ p, ¬ b.Between p) {a : Instr} {rest : List Instr}
    (hr : b.instrs.drop p = a :: rest) :
    fuseFrom b.entryPoints.contains p a rest = (a :: rest, 0) := by
  induction rest generalizing p a with
  | nil => rfl
  | cons c rest ih =>
    have ha : b.instrs[p]? = some a := by
      rw [← List.head?_drop, hr, List.head?_cons]
    have hr' : b.instrs.drop (p + 1) = c :: rest := by
      rw [← List.tail_drop, hr, List.tail_cons]
    have hc : b.instrs[p + 1]? = some c := by
      rw [← List.head?_drop, hr', List.head?_cons]
    have hnot : ¬ (!b.entryPoints.contains (p + 1) && a.fusable c) = true := by
      intro hf
      rw [Bool.and_eq_true, Bool.not_eq_true', List.contains_eq_mem, decide_eq_false_iff_not] at hf
      obtain ⟨x, hx, -⟩ := Body.Holds.fused (.inr ⟨h p, ha⟩) hc hf.1 hf.2
      exact h (p + 1) ⟨x, hx⟩
    rw [fuseFrom, if_neg hnot, ih hr']

theorem Body.fuse_of_apart (h : ∀ p, ¬ b.Between p) : b.fuse = (b, 0) := by
  rw [fuse]
  split
  · rfl
  · rename_i a rest hb
    have hfuse := fuseFrom_of_apart (p := 0) h hb
    dsimp only
    rw [hfuse, ← hb]

theorem Body.Straight.mem_entryPoints (h : b.Straight) (hp : p ∈ b.entryPoints) :
    p ∈ b.fuse.1.entryPoints := by
  rcases List.mem_append.mp hp with hp | hp
  · obtain ⟨i, hi, ht⟩ := List.mem_flatMap.mp hp
    obtain ⟨k, hk⟩ := List.getElem?_of_mem hi
    obtain ⟨j, hj⟩ := h.alike.symm.getElem? hk
    refine List.mem_append_left _ (List.mem_flatMap.mpr ⟨j, List.mem_of_getElem? hj, ?_⟩)
    cases h.changed hk hj with
    | kept => exact ht
    | replaced hdoes =>
      rw [hdoes.targets] at ht
      cases ht
  · refine List.mem_append_right _ ?_
    rw [b.fuse_handlers]
    exact hp

theorem Body.FusedInstr.holds (h : b.FusedInstr p i) (hi : i ≠ ⟨.dup, .none⟩) : b.Holds p i := by
  rcases h with ⟨-, rfl⟩ | ⟨-, hx⟩ | ⟨-, hp⟩
  · exact absurd rfl hi
  · exact .inl hx
  · exact .inr hp

theorem Body.Straight.apart_fuse (h : b.Straight) (p : Nat) : ¬ b.fuse.1.Between p := by
  rintro ⟨x, hx⟩
  induction hx with
  | @first p store load x hstore hs hload hl hn =>
    have hstore : b.Holds p store := (fuse_getElem? hstore).holds (by rintro rfl; cases hs)
    have hn : p + 1 ∉ b.entryPoints := fun hmem => hn (h.mem_entryPoints hmem)
    -- A load is not a store that has moved, so it stands where it stood.
    obtain ⟨hbetween, hload⟩ : ¬ b.Between (p + 1) ∧ b.instrs[p + 1]? = some load := by
      rcases (fuse_getElem? hload).holds (by rintro rfl; cases hl) with ⟨y, -, hy⟩ | hsame
      · rw [Instr.storedSlot_of_loadedSlot hl] at hy
        cases hy
      · exact hsame
    have hf : store.fusable load = true := by simp [Instr.fusable, hs, hl]
    obtain ⟨y, hy, -⟩ := hstore.fused hload hn hf
    exact hbetween ⟨y, hy⟩
  | again _ _ _ _ ih => exact ih

end Pairs

section Forms

variable {b : Body} {p : Nat} {x : Slot}

theorem Instr.shortForm?_shortForm (i : Instr) : (i.shortForm?.getD i).shortForm? = none := by
  cases hs : i.shortForm? with
  | none => exact hs
  | some j =>
    rw [Option.getD_some]
    rw [shortForm?] at hs
    dsimp only at hs
    repeat' split at hs
    all_goals cases hs
    all_goals rfl

theorem Instr.slots_shortForm (i : Instr) :
    (i.shortForm?.getD i).storedSlot = i.storedSlot
      ∧ (i.shortForm?.getD i).loadedSlot = i.loadedSlot := by
  cases hs : i.shortForm? with
  | none => exact ⟨rfl, rfl⟩
  | some j =>
    obtain ⟨opcode, operand⟩ := i
    rw [shortForm?] at hs
    dsimp only at hs
    repeat' split at hs
    all_goals cases hs
    all_goals exact ⟨rfl, rfl⟩

theorem Instr.branchTargets_shortForm (i : Instr) :
    (i.shortForm?.getD i).operand.branchTargets = i.operand.branchTargets := by
  cases hs : i.shortForm? with
  | none => rfl
  | some j =>
    obtain ⟨_, _, hi, hj⟩ := shortForm?_does hs
    rw [Option.getD_some, hi.targets, hj.targets]

theorem Body.entryPoints_compact (b : Body) : b.compact.1.entryPoints = b.entryPoints := by
  simp only [entryPoints, compact, List.flatMap_map, Instr.branchTargets_shortForm]

theorem Body.Fused.of_compact (h : b.compact.1.Fused p x) : b.Fused p x := by
  have hinstr : ∀ {p : Nat} {j : Instr}, b.compact.1.instrs[p]? = some j →
      ∃ i, b.instrs[p]? = some i ∧ j.storedSlot = i.storedSlot ∧ j.loadedSlot = i.loadedSlot := by
    intro p j hj
    rw [compact, List.getElem?_map] at hj
    obtain ⟨i, hi, rfl⟩ := Option.map_eq_some_iff.mp hj
    exact ⟨i, hi, i.slots_shortForm⟩
  induction h with
  | first hstore hs hload hl hn =>
    obtain ⟨store, hstore, has, -⟩ := hinstr hstore
    obtain ⟨load, hload, -, hal⟩ := hinstr hload
    rw [has] at hs
    rw [hal] at hl
    rw [b.entryPoints_compact] at hn
    exact .first hstore hs hload hl hn
  | again _ hload hl hn ih =>
    obtain ⟨load, hload, -, hal⟩ := hinstr hload
    rw [hal] at hl
    rw [b.entryPoints_compact] at hn
    exact .again ih hload hl hn

theorem Body.shortForm?_of_mem_compact {j : Instr} (h : j ∈ b.compact.1.instrs) :
    j.shortForm? = none := by
  obtain ⟨i, -, rfl⟩ := List.mem_map.mp h
  exact i.shortForm?_shortForm

theorem Body.compact_of_short (h : ∀ i ∈ b.instrs, i.shortForm? = none) : b.compact = (b, 0) := by
  have hmap : (b.instrs.map fun i => i.shortForm?.getD i) = b.instrs := by
    rw [List.map_congr_left (g := id) fun i hi => by rw [h i hi]; rfl, List.map_id]
  have hcount : (b.instrs.countP fun i => i.shortForm?.isSome) = 0 := by
    rw [List.countP_eq_zero]
    intro i hi
    simp [h i hi]
  rw [compact, hmap, hcount]

theorem Body.Straight.apart_optimize (h : b.Straight) (compaction : Bool) (p : Nat) :
    ¬ (b.optimize compaction).1.Between p := by
  cases compaction with
  | false => exact h.apart_fuse p
  | true =>
    rintro ⟨x, hx⟩
    exact h.apart_fuse p ⟨x, hx.of_compact⟩

end Forms

/-- The improvements leave no pair to fuse and, if asked to take short forms, no instruction that
has one. A second run changes nothing and counts nothing. -/
theorem optimize_idempotent (b : Body) (compaction : Bool) (h : b.Straight) :
    (∀ p, ¬ (b.optimize compaction).1.Between p)
      ∧ (compaction = true → ∀ i ∈ (b.optimize compaction).1.instrs, i.shortForm? = none)
      ∧ (b.optimize compaction).1.optimize compaction = ((b.optimize compaction).1, 0) := by
  have hapart := h.apart_optimize compaction
  have hshort : compaction = true → ∀ i ∈ (b.optimize compaction).1.instrs,
      i.shortForm? = none := by
    rintro rfl i hi
    exact Body.shortForm?_of_mem_compact hi
  refine ⟨hapart, hshort, ?_⟩
  rw [Body.optimize, Body.fuse_of_apart hapart]
  cases compaction with
  | false => rfl
  | true =>
    dsimp only
    rw [Body.compact_of_short (hshort rfl)]
    rfl

theorem storeLoads_idempotent :
    storeLoads.Straight ∧ (storeLoads.optimize true).2 = 3
      ∧ (storeLoads.optimize true).1.optimize true = ((storeLoads.optimize true).1, 0) := by
  have h : storeLoads.Straight := by decide
  exact ⟨h, by decide, (optimize_idempotent storeLoads true h).2.2⟩

end StackCode.Machine
