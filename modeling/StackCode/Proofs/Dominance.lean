import StackCode.Proofs.Plans
import StackCode.Proofs.Streams

namespace StackCode

namespace Graph

variable (g : Graph)

inductive Walk : List Block → Block → Prop where
  | start {b : Block} (h : g.block? g.entry = some b) : Walk [] b
  | step {before : List Block} {b c : Block} {br : Branch} (h : Walk before b)
      (hb : br ∈ b.flow.branches) (hc : g.block? br.target = some c) : Walk (before ++ [b]) c

/-- The values that a walk has passed before instruction `k` of its last block. -/
def passed (before : List Block) (b : Block) (k : Nat) : List Value :=
  before.flatMap Block.definitions ++ (b.parameters.map Parameter.value ++ b.instructions.take k)

structure Dominated : Prop where
  instrs : ∀ before b, g.Walk before b → ∀ (k : Nat) v i, b.instructions[k]? = some v →
    g.instr? v = some i → ∀ w ∈ i.operands, w ∈ passed before b k
  flows : ∀ before b, g.Walk before b → ∀ w ∈ b.flow.reads,
    w ∈ passed before b b.instructions.length

structure UsesValues (env : Environment) : Prop where
  instrs : ∀ i ∈ g.instrs, ∀ v ∈ i.operands, g.type? v ≠ some .void
  flows : ∀ b ∈ g.blocks.toList, ∀ v ∈ b.flow.reads, g.type? v ≠ some .void
  captured : ∀ b ∈ g.blocks.toList, ∀ risky success failure,
    b.flow = .protect risky success failure → .exception ∈ failure.args
      → env.captured.isVoid = false

end Graph

section Walks

variable {g : Graph} {before : List Block} {b : Block} {k : Nat} {v w : Value}

theorem Graph.Walk.mem (h : g.Walk before b) : b ∈ g.blocks.toList := by
  cases h with
  | start hb => exact Array.mem_toList_iff.mpr (Array.mem_of_getElem? hb)
  | step _ _ hc => exact Array.mem_toList_iff.mpr (Array.mem_of_getElem? hc)

theorem Graph.Walk.part (h : g.Walk before b) {xs ys : List Block} {c : Block}
    (hc : before = xs ++ c :: ys) : g.Walk xs c := by
  induction h generalizing ys with
  | start => simp at hc
  | @step before b d br hwalk hb hd ih =>
    rcases List.eq_nil_or_concat ys with rfl | ⟨ys, y, rfl⟩
    · obtain ⟨rfl, hlast⟩ := List.append_inj' hc rfl
      obtain ⟨rfl, -⟩ := List.cons.inj hlast
      exact hwalk
    · rw [List.concat_eq_append, ← List.cons_append, ← List.append_assoc] at hc
      exact ih (List.append_inj' hc rfl).1

theorem passed_mono {j : Nat} (h : j ≤ k) (hv : v ∈ Graph.passed before b j) :
    v ∈ Graph.passed before b k := by
  simp only [Graph.passed, List.mem_append] at hv ⊢
  refine hv.imp_right fun hv => hv.imp_right fun hv => ?_
  exact (List.take_sublist_take_left h).subset hv

theorem mem_passed_of_part {xs ys : List Block} {c : Block} (hc : before = xs ++ c :: ys)
    (hv : v ∈ Graph.passed xs c k) : v ∈ before.flatMap Block.definitions := by
  rw [hc, List.flatMap_append, List.flatMap_cons, Block.definitions]
  simp only [Graph.passed, List.mem_append] at hv ⊢
  rcases hv with hv | hv | hv
  · exact .inl hv
  · exact .inr (.inl (.inl hv))
  · exact .inr (.inl (.inr (List.mem_of_mem_take hv)))

theorem mem_defined (hb : b ∈ g.blocks.toList) (hv : v ∈ b.definitions) : v ∈ g.defined :=
  List.mem_map.mpr ⟨(v, b.name), List.mem_flatMap.mpr ⟨b, hb, List.mem_map_of_mem hv⟩, rfl⟩

theorem Graph.Valid.nodup_definitions (hg : g.Valid) (hb : b ∈ g.blocks.toList) :
    b.definitions.Nodup := by
  have h := hg.distinct
  rw [defined, definitions, List.map_flatMap, List.nodup_flatMap] at h
  have := h.1 b hb
  rwa [List.map_map, show Prod.fst ∘ (fun v => (v, b.name)) = id from rfl, List.map_id] at this

theorem Graph.Walk.defined (h : g.Walk before b) (hv : v ∈ passed before b k) :
    v ∈ g.defined := by
  rcases List.mem_append.mp hv with hv | hv
  · obtain ⟨c, hc, hvc⟩ := List.mem_flatMap.mp hv
    obtain ⟨xs, ys, hsplit⟩ := List.append_of_mem hc
    exact mem_defined (h.part hsplit).mem hvc
  · exact mem_defined h.mem ((List.Sublist.append_left (List.take_sublist _ _) _).subset hv)

theorem Graph.Valid.instr?_parameter (hg : g.Valid) (hb : b ∈ g.blocks.toList)
    (hv : v ∈ b.parameters.map Parameter.value) : g.instr? v = none := by
  obtain ⟨n, hn, rfl⟩ := List.mem_iff_getElem.mp hb
  have hc := hg.coherent n _ (by rw [← Array.getElem?_toList, List.getElem?_eq_getElem hn])
  obtain ⟨q, hq, rfl⟩ := List.mem_map.mp hv
  obtain ⟨name, k, hk⟩ := hc.parameters q hq
  rw [instr?, info?, hk]

theorem Graph.Dominated.operands (hd : g.Dominated) (hg : g.Valid) (hw : g.Walk before b)
    {i : Instr} (hv : v ∈ passed before b k) (hi : g.instr? v = some i) :
    i ∈ g.instrs ∧ ∀ w ∈ i.operands, w ∈ passed before b k := by
  rcases List.mem_append.mp hv with hv | hv
  · obtain ⟨c, hc, hvc⟩ := List.mem_flatMap.mp hv
    obtain ⟨xs, ys, hsplit⟩ := List.append_of_mem hc
    have hwc := hw.part hsplit
    rcases List.mem_append.mp hvc with hp | hl
    · rw [hg.instr?_parameter hwc.mem hp] at hi
      cases hi
    · obtain ⟨j, hj⟩ := List.mem_iff_getElem?.mp hl
      refine ⟨mem_instrs_of_listed hwc.mem hl hi, ?_⟩
      intro w hw'
      exact List.mem_append_left _ (mem_passed_of_part hsplit
        (hd.instrs xs c hwc j v i hj hi w hw'))
  · rcases List.mem_append.mp hv with hp | ht
    · rw [hg.instr?_parameter hw.mem hp] at hi
      cases hi
    · refine ⟨mem_instrs_of_listed hw.mem (List.mem_of_mem_take ht) hi, ?_⟩
      intro w hw'
      obtain ⟨j, hj⟩ := List.mem_iff_getElem?.mp ht
      rw [List.getElem?_take] at hj
      split at hj
      · rename_i hlt
        exact passed_mono (Nat.le_of_lt hlt) (hd.instrs before b hw j v i hj hi w hw')
      · cases hj

theorem Graph.Dominated.feeds {env : Environment} (hd : g.Dominated) (hu : g.UsesValues env)
    (hg : g.Valid) (hw : g.Walk before b) {operands : List Value}
    (ho : ∀ x ∈ operands, x ∈ passed before b k ∧ g.type? x ≠ some .void)
    (hv : g.Feeds operands v) : v ∈ passed before b k ∧ g.type? v ≠ some .void := by
  rcases hv with hv | ⟨x, hx, f, base, hi, hv⟩
  · exact ho v hv
  · obtain ⟨hmem, hall⟩ := hd.operands hg hw (ho x hx).1 hi
    exact ⟨hall v hv, hu.instrs _ hmem v hv⟩

end Walks

end StackCode
