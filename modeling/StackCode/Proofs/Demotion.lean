import Mathlib.Logic.Function.Iterate
import StackCode.Proofs.Residence

namespace StackCode

structure Visit where
  deps : List Value
  alone : Bool
  result : Option Value

namespace Visit

def ofInstr (e : Value × Chunk) : Visit := ⟨e.2.deps, e.2.isBarrier, some e.1⟩

def ofChunk (c : Chunk) : Visit := ⟨c.deps, c.isBarrier, none⟩

def ofFlow : List Chunk → List Visit
  | [] => []
  | c :: cs => ⟨c.deps, true, none⟩ :: cs.map ofChunk

def pushed (kept : List Value) (s : Visit) : List Value :=
  s.result.toList.filter kept.contains

end Visit

def Plan.visits (u : Usage) (p : Plan) : List Visit :=
  (p.live u).map Visit.ofInstr ++ Visit.ofFlow p.flow

/-- A stack, whose top is its last entry, has what the chunks read from it: the kept dependencies of
each come before the others and lie on top in their order. In the end the stack is empty. -/
inductive Fits (kept : List Value) : List Value → List Visit → Prop
  | done : Fits kept [] []
  | visit {s : Visit} {rest first others : List Value} {later : List Visit}
    (deps : s.deps = first ++ others) (first_kept : ∀ v ∈ first, v ∈ kept)
    (others_unkept : ∀ v ∈ others, v ∉ kept) (alone : s.alone = true → rest = [])
    (next : Fits kept (rest ++ s.pushed kept) later) : Fits kept (rest ++ first) (s :: later)

section Following

variable {u : Usage} {kept stack deps rest : List Value} {alone : Bool} {p : Plan}

theorem takeDeps_of_takes (h : Takes kept stack deps rest alone) :
    takeDeps kept stack deps alone = .ok rest := by
  have hlate : (deps.dropWhile kept.contains).filter kept.contains = [] :=
    List.filter_eq_nil_iff.mpr fun v hv => by simpa using h.others v hv
  have hrest : stack.length - (deps.takeWhile kept.contains).length = rest.length := by
    rw [h.stack, List.length_append, Nat.add_sub_cancel]
  have hdrop : stack.drop rest.length = deps.takeWhile kept.contains := by
    rw [h.stack, List.drop_left]
  have htake : stack.take rest.length = rest := by
    rw [h.stack, List.take_left]
  have hlen : ¬stack.length < (deps.takeWhile kept.contains).length := by
    rw [h.stack, List.length_append]
    omega
  have halone : ¬(alone = true ∧ 0 < rest.length) := by
    rintro ⟨ha, hpos⟩
    rw [h.alone ha] at hpos
    exact absurd hpos (by decide)
  simp [takeDeps, hlate, hrest, hdrop, htake, hlen, halone]

theorem takes_of_split {first others : List Value} (hfirst : ∀ v ∈ first, v ∈ kept)
    (hothers : ∀ v ∈ others, v ∉ kept) (halone : alone = true → rest = []) :
    Takes kept (rest ++ first) (first ++ others) rest alone := by
  have hf : ∀ v ∈ first, kept.contains v = true :=
    fun v hv => List.contains_iff_mem.mpr (hfirst v hv)
  have ho : others.takeWhile kept.contains = [] ∧ others.dropWhile kept.contains = others := by
    cases others with
    | nil => simp
    | cons v others =>
      have hv : v ∉ kept := hothers v List.mem_cons_self
      simp [hv]
  refine ⟨?_, ?_, halone⟩
  · rw [List.takeWhile_append_of_pos hf, ho.1, List.append_nil]
  · rw [List.dropWhile_append_of_pos hf, ho.2]
    exact hothers

theorem fits_cons {s : Visit} {later : List Visit} :
    Fits kept stack (s :: later) ↔
      ∃ rest, takeDeps kept stack s.deps s.alone = .ok rest
        ∧ Fits kept (rest ++ s.pushed kept) later := by
  constructor
  · rintro (_ | ⟨hdeps, hfirst, hothers, halone, hnext⟩)
    refine ⟨_, takeDeps_of_takes ?_, hnext⟩
    rw [hdeps]
    exact takes_of_split hfirst hothers halone
  · rintro ⟨rest, htake, hnext⟩
    have ht := takes_of_takeDeps htake
    rw [ht.stack]
    exact .visit List.takeWhile_append_dropWhile.symm
      (fun v hv => List.contains_iff_mem.mp (List.mem_takeWhile_imp hv)) ht.others ht.alone hnext

theorem fits_instrs {es : List (Value × Chunk)} {later : List Visit} :
    Fits kept stack (es.map Visit.ofInstr ++ later) ↔
      ∃ out, Plan.followInstrs kept stack es = .ok out ∧ Fits kept out later := by
  induction es generalizing stack with
  | nil => simp [Plan.followInstrs]
  | cons e es ih =>
    obtain ⟨v, c⟩ := e
    have hpush (rest : List Value) : rest ++ (Visit.ofInstr (v, c)).pushed kept
        = if kept.contains v then rest ++ [v] else rest := by
      by_cases hv : v ∈ kept <;> simp [Visit.pushed, Visit.ofInstr, hv]
    simp only [List.map_cons, List.cons_append, fits_cons, followInstrs_cons, hpush, ih]
    constructor
    · rintro ⟨rest, htake, out, hfollow, hnext⟩
      exact ⟨out, ⟨rest, htake, hfollow⟩, hnext⟩
    · rintro ⟨out, ⟨rest, htake, hfollow⟩, hnext⟩
      exact ⟨rest, htake, out, hfollow, hnext⟩

theorem fits_nil : Fits kept stack [] ↔ stack = [] := by
  constructor
  · rintro ⟨⟩
    rfl
  · rintro rfl
    exact .done

theorem fits_chunks {cs : List Chunk} :
    Fits kept stack (cs.map Visit.ofChunk) ↔ Plan.followFlow kept stack false cs = .ok [] := by
  induction cs generalizing stack with
  | nil => simp [fits_nil, Plan.followFlow]
  | cons c cs ih =>
    have hpush : (Visit.ofChunk c).pushed kept = [] := rfl
    simp only [List.map_cons, fits_cons, followFlow_cons, hpush, List.append_nil, ih, Bool.false_or]
    rfl

theorem fits_flow {cs : List Chunk} :
    Fits kept stack (Visit.ofFlow cs) ↔ Plan.followFlow kept stack true cs = .ok [] := by
  cases cs with
  | nil => simp [Visit.ofFlow, fits_nil, Plan.followFlow]
  | cons c cs =>
    have hpush : (Visit.mk c.deps true none).pushed kept = [] := rfl
    simp only [Visit.ofFlow, fits_cons, followFlow_cons, hpush, List.append_nil, fits_chunks,
      Bool.true_or]

theorem misfits_eq_nil_iff : p.misfits u kept = [] ↔ Fits kept [] (p.visits u) := by
  rw [Plan.visits, fits_instrs]
  constructor
  · intro h
    obtain ⟨stack, hinstrs, hflow⟩ := follow_of_misfits h
    exact ⟨stack, hinstrs, fits_flow.mpr hflow⟩
  · rintro ⟨stack, hinstrs, hflow⟩
    simp [Plan.misfits, hinstrs, fits_flow.mp hflow]

end Following

section Rounds

variable {u : Usage} {plans : List Plan} {kept : List Value}

theorem withoutMisfits_of_nil (h : firstMisfits u kept plans = []) :
    withoutMisfits u plans kept = kept := by
  simp [withoutMisfits, h]

theorem demote_rounds (u : Usage) (plans : List Plan) (kept : List Value) :
    ∃ n ≤ kept.length, (withoutMisfits u plans)^[n] kept = demote u plans kept
      ∧ ∀ m < n, firstMisfits u ((withoutMisfits u plans)^[m] kept) plans ≠ [] := by
  -- Demotion stops where a round takes nothing away, which is where the round finds no misfits.
  fun_induction demote u plans kept with
  | case1 kept fewer hfewer ih =>
    obtain ⟨n, hn, hlast, hrounds⟩ := ih
    refine ⟨n + 1, by omega, hlast, ?_⟩
    rintro (_ | m) hm
    · intro hnil
      rw [show fewer = kept from withoutMisfits_of_nil hnil] at hfewer
      exact Nat.lt_irrefl _ hfewer
    · exact hrounds m (by omega)
  | case2 kept fewer hfewer => exact ⟨0, Nat.zero_le _, rfl, by simp⟩

end Rounds

/-- Giving up the misfits round by round ends, since each round with misfits takes a kept value
away. Then no block has misfits, and the stack of each can be followed from its start to its end. -/
theorem demotion_settles (u : Usage) (plans : List Plan) (kept : List Value) :
    (∀ ks, firstMisfits u ks plans ≠ [] → ∃ v ∈ ks, v ∉ withoutMisfits u plans ks)
      ∧ (∃ n ≤ kept.length, (withoutMisfits u plans)^[n] kept = demote u plans kept
        ∧ (∀ m < n, firstMisfits u ((withoutMisfits u plans)^[m] kept) plans ≠ [])
        ∧ firstMisfits u (demote u plans kept) plans = [])
      ∧ ∀ p ∈ plans, p.misfits u (demote u plans kept) = []
        ∧ Fits (demote u plans kept) [] (p.visits u) := by
  refine ⟨fun ks => exists_given_up, ?_, ?_⟩
  · obtain ⟨n, hn, hlast, hrounds⟩ := demote_rounds u plans kept
    exact ⟨n, hn, hlast, hrounds, firstMisfits_demote⟩
  · intro p hp
    have h : p.misfits u (demote u plans kept) = [] :=
      misfits_of_firstMisfits firstMisfits_demote p hp
    exact ⟨h, misfits_eq_nil_iff.mp h⟩

def shiftedAddress : Plan where
  block := ⟨⟨0⟩, "entry", [⟨⟨0⟩, .int ⟨32, true⟩⟩], [⟨1⟩, ⟨2⟩, ⟨3⟩, ⟨4⟩, ⟨5⟩], .ret (some ⟨5⟩)⟩
  instrs := [(⟨1⟩, ⟨[.plain (.ldcI4Of 1)], []⟩), (⟨2⟩, ⟨[.plain (.ldcI4Of 2)], []⟩),
    (⟨3⟩, ⟨[.plain (.binary .sub)], [⟨2⟩, ⟨1⟩]⟩), (⟨4⟩, ⟨[.plain .localloc], [⟨0⟩]⟩),
    (⟨5⟩, ⟨[.plain (.binary .add)], [⟨3⟩, ⟨4⟩]⟩)]
  flow := [⟨[.plain .ret], [⟨5⟩]⟩]

theorem shiftedAddress_settled :
    demote ⟨[], []⟩ [shiftedAddress] [⟨1⟩, ⟨2⟩, ⟨3⟩, ⟨4⟩, ⟨5⟩] = [⟨5⟩]
      ∧ Fits [⟨5⟩] [] (shiftedAddress.visits ⟨[], []⟩) := by
  have hkept : demote ⟨[], []⟩ [shiftedAddress] [⟨1⟩, ⟨2⟩, ⟨3⟩, ⟨4⟩, ⟨5⟩] = [⟨5⟩] := by
    decide +kernel
  refine ⟨hkept, ?_⟩
  rw [← hkept]
  exact ((demotion_settles _ _ _).2.2 _ List.mem_cons_self).2

end StackCode
