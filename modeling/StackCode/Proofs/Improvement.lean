import StackCode.Proofs.Compiled

namespace StackCode

open Machine (Body Slot Opcode)

def Options.shorten (o : Options) (i : Machine.Instr) : Machine.Instr :=
  if o.compact then i.shortForm?.getD i else i

section Improving

variable {o : Options} {body : Body} {k : Nat} {i j : Machine.Instr}

theorem Options.shorten_of_flow (h : i.opcode.flow ≠ .next) : o.shorten i = i := by
  rw [shorten]
  split
  · cases hs : i.shortForm? with
    | none => rfl
    | some j =>
      obtain ⟨_, _, hi, -⟩ := Machine.Instr.shortForm?_does hs
      exact absurd hi.flow h
  · rfl

theorem Options.shorten_cases (o : Options) (i : Machine.Instr) :
    o.shorten i = i ∨ i.opcode.flow = .next ∧ (o.shorten i).opcode.flow = .next
      ∧ (o.shorten i).operand.branchTargets = [] := by
  rw [shorten]
  split
  · cases hs : i.shortForm? with
    | none => exact .inl rfl
    | some j =>
      obtain ⟨_, _, hi, hj⟩ := Machine.Instr.shortForm?_does hs
      exact .inr ⟨hi.flow, hj.flow, hj.targets⟩
  · exact .inl rfl

theorem improve_instrs (o : Options) (body : Body) : (Compile.improve o body).instrs
    = (if o.peephole then body.fuse.1 else body).instrs.map o.shorten := by
  have hshort : o.shorten = if o.compact then fun i => i.shortForm?.getD i else id := by
    funext i
    rw [Options.shorten]
    split <;> rfl
  rw [hshort, Compile.improve]
  cases o.peephole <;> cases o.compact
  · exact (List.map_id _).symm
  · rfl
  · exact (List.map_id _).symm
  · rfl

theorem improve_handlers (o : Options) (body : Body) :
    (Compile.improve o body).handlers = body.handlers := by
  rw [Compile.improve]
  split
  · exact (body.optimize_shape o.compact).2.1
  · split <;> rfl

theorem targets_of_improve (h : i ∈ (Compile.improve o body).instrs) {n : Nat}
    (hn : n ∈ i.operand.branchTargets) : ∃ j ∈ body.instrs, n ∈ j.operand.branchTargets := by
  rw [improve_instrs] at h
  obtain ⟨j, hj, rfl⟩ := List.mem_map.mp h
  rcases o.shorten_cases j with hsame | ⟨-, -, hnil⟩
  · rw [hsame] at hn
    split at hj
    · rcases Machine.mem_fuse hj with rfl | hj
      · cases hn
      · exact ⟨j, hj, hn⟩
    · exact ⟨j, hj, hn⟩
  · rw [hnil] at hn
    cases hn

theorem flow_of_improve (h : (Compile.improve o body).instrs[k]? = some i) :
    ∃ j, body.instrs[k]? = some j ∧ i.opcode.flow = j.opcode.flow := by
  rw [improve_instrs, List.getElem?_map] at h
  obtain ⟨j, hj, rfl⟩ := Option.map_eq_some_iff.mp h
  have hshort : (o.shorten j).opcode.flow = j.opcode.flow := by
    rcases o.shorten_cases j with hsame | ⟨hj, hs, -⟩
    · rw [hsame]
    · rw [hj, hs]
  rw [hshort]
  split at hj
  · rcases body.fuse_cases k with ⟨-, hnone⟩ | ⟨a, b, ha, hb, hf⟩
    · rw [hnone] at hj
      cases hj
    · rw [hj] at hb
      obtain rfl := Option.some.inj hb
      refine ⟨a, ha, ?_⟩
      have hload : ∀ x, body.Fused k x → a.opcode.flow = .next := by
        intro x hx
        obtain ⟨c, hc, hl⟩ := hx.load
        rw [ha] at hc
        obtain rfl := Option.some.inj hc
        exact (Machine.Instr.loadedSlot_effect hl).2
      -- A duplication or the moved store stands where a load or the store was.
      rcases hf with ⟨⟨x, hx⟩, rfl⟩ | ⟨-, x, hx, hs⟩ | ⟨-, -, hsame⟩
      · by_cases hk : body.Between k
        · obtain ⟨y, hy⟩ := hk
          rw [hload y hy]
          rfl
        · obtain ⟨c, hc, hs⟩ := hx.store hk
          rw [ha] at hc
          obtain rfl := Option.some.inj hc
          rw [(Machine.Instr.storedSlot_effect hs).2]
          rfl
      · rw [hload x hx, (Machine.Instr.storedSlot_effect hs).2]
      · rw [ha] at hsame
        rw [Option.some.inj hsame]
  · exact ⟨j, hj, rfl⟩

theorem improve_getElem? (hj : body.instrs[k]? = some j) (hk : ¬ body.Between k)
    (hn : ¬ body.Between (k + 1)) : (Compile.improve o body).instrs[k]? = some (o.shorten j) := by
  rw [improve_instrs, List.getElem?_map]
  split
  · rcases body.fuse_cases k with ⟨hnone, -⟩ | ⟨a, b, ha, hb, hf⟩
    · rw [hj] at hnone
      cases hnone
    · rcases hf with ⟨hx, -⟩ | ⟨-, x, hx, -⟩ | ⟨-, -, hsame⟩
      · exact absurd hx hn
      · exact absurd ⟨x, hx⟩ hk
      · rw [hj] at hsame
        rw [hb, Option.some.inj hsame]
        rfl
  · rw [hj]
    rfl

theorem not_between_of_entry (h : k ∈ body.entryPoints) : ¬ body.Between k := by
  rintro ⟨x, hx⟩
  exact hx.not_mem_entryPoints h

theorem not_between_of_loadedSlot (hj : body.instrs[k]? = some j) (h : j.loadedSlot = none) :
    ¬ body.Between k := by
  rintro ⟨x, hx⟩
  obtain ⟨c, hc, hl⟩ := hx.load
  rw [hj] at hc
  obtain rfl := Option.some.inj hc
  rw [h] at hl
  cases hl

theorem not_between_succ (hj : body.instrs[k]? = some j) (hs : j.storedSlot = none)
    (hk : ¬ body.Between k) : ¬ body.Between (k + 1) := by
  rintro ⟨x, hx⟩
  obtain ⟨c, hc, hl⟩ := hx.store hk
  rw [hj] at hc
  obtain rfl := Option.some.inj hc
  rw [hs] at hl
  cases hl

theorem isPrefix_improve {code : List Machine.Instr} (h : code <+: body.instrs.drop k)
    (hs : ∀ j ∈ code, j.storedSlot = none) (hk : ¬ body.Between k) :
    code.map o.shorten <+: (Compile.improve o body).instrs.drop k := by
  induction code generalizing k with
  | nil => exact List.nil_prefix
  | cons j code ih =>
    rw [List.forall_mem_cons] at hs
    obtain ⟨rest, hrest⟩ := h
    have hj : body.instrs[k]? = some j := by
      rw [← List.head?_drop, ← hrest]
      rfl
    have hnext := not_between_succ hj hs.1 hk
    have hcode : code <+: body.instrs.drop (k + 1) := by
      rw [← List.tail_drop, ← hrest]
      exact ⟨rest, rfl⟩
    have himproved := improve_getElem? (o := o) hj hk hnext
    obtain ⟨hlt, hget⟩ := List.getElem?_eq_some_iff.mp himproved
    rw [List.drop_eq_getElem_cons hlt, hget, List.map_cons, List.cons_prefix_cons]
    exact ⟨rfl, ih hcode hs.2 hnext⟩

end Improving

end StackCode
