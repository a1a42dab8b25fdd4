import Mathlib.Data.Multiset.AddSub
import Mathlib.Data.List.Nodup
import Mathlib.Logic.Relation
import Mathlib.Order.Bounds.Basic
import StackCode.Proofs.Reads

/-!
Removal of unread instructions, one pending value after the other and in any order. What has been
dropped in the end does not depend on the order: it is the least set that has every pure instruction
whose readers are all in the set.
-/

namespace StackCode

namespace Removal

abbrev State := Usage × Multiset Value

/-- A pending value is taken. If it is removable, it goes, and of its operands at least those that
are removable now become pending. -/
inductive Round (g : Graph) (plans : List Plan) : State → State → Prop
  | pass {u : Usage} {v : Value} {rest : Multiset Value}
      (h : ∀ e ∈ plans.flatMap Plan.instrs, e.1 = v → u.removable g.pureAt v = false) :
      Round g plans (u, v ::ₘ rest) (u, rest)
  | drop {u : Usage} {e : Value × Chunk} {again rest : Multiset Value}
      (he : e ∈ plans.flatMap Plan.instrs) (hr : u.removable g.pureAt e.1 = true)
      (hle : again ≤ ↑e.2.deps)
      (hall : ∀ a ∈ plans.flatMap Plan.instrs, a.1 ∈ e.2.deps →
        (u.drop e.1 e.2.deps).removable g.pureAt a.1 = true → a.1 ∈ again) :
      Round g plans (u, e.1 ::ₘ rest) (u.drop e.1 e.2.deps, again + rest)

def ReadWithin (plans : List Plan) (t : Set Value) (v : Value) : Prop :=
  ∀ p ∈ plans, (∀ e ∈ p.instrs, v ∈ e.2.deps → e.1 ∈ t) ∧ ∀ c ∈ p.flow, v ∉ c.deps

def Closed (g : Graph) (plans : List Plan) (t : Set Value) : Prop :=
  ∀ e ∈ plans.flatMap Plan.instrs, g.pureAt e.1 = true → ReadWithin plans t e.1 → e.1 ∈ t

/-- Nothing is left to drop, nothing has been dropped without need, and the counts are those of the
reads that remain. -/
structure Settled (g : Graph) (plans : List Plan) (u : Usage) : Prop where
  least : IsLeast {t | Closed g plans t} {v | u.isDead v = true}
  dropped : ∀ v, u.isDead v = true → g.pureAt v = true
    ∧ v ∈ (plans.flatMap Plan.instrs).map Prod.fst ∧ ReadWithin plans {w | u.isDead w = true} v
  counts : ∀ v, u.count v = (u.remaining plans).count v

structure Sound (g : Graph) (plans : List Plan) (s : State) : Prop where
  counts : ∀ v, s.1.count v = (s.1.remaining plans).count v
  below : ∀ t, Closed g plans t → ∀ v, s.1.isDead v = true → v ∈ t
  pending : ∀ e ∈ plans.flatMap Plan.instrs, s.1.removable g.pureAt e.1 = true → e.1 ∈ s.2

variable {g : Graph} {plans : List Plan} {u : Usage} {s s' : State} {e : Value × Chunk}

theorem ReadWithin.mono {t t' : Set Value} (h : t ⊆ t') {v : Value} (hv : ReadWithin plans t v) :
    ReadWithin plans t' v := by
  intro p hp
  exact ⟨fun e he hd => h ((hv p hp).1 e he hd), (hv p hp).2⟩

theorem not_mem_remaining {v : Value} :
    v ∉ u.remaining plans ↔ ReadWithin plans {w | u.isDead w = true} v := by
  simp only [Usage.remaining, ReadWithin, Plan.live, List.mem_flatMap, List.mem_append,
    List.mem_map, List.mem_filter, Set.mem_ofPred_eq]
  constructor
  · intro h p hp
    constructor
    · intro e he hd
      cases hl : u.isDead e.1 with
      | true => rfl
      | false => exact absurd ⟨p, hp, e.2, .inl ⟨e, ⟨he, by simp [hl]⟩, rfl⟩, hd⟩ h
    · intro c hc hd
      exact h ⟨p, hp, c, .inr hc, hd⟩
  · rintro h ⟨p, hp, c, ⟨e, ⟨he, hl⟩, rfl⟩ | hc, hd⟩
    · simp [(h p hp).1 e he hd] at hl
    · exact (h p hp).2 c hc hd

section Rounds

theorem count_remaining_drop (hd : ((plans.flatMap Plan.instrs).map Prod.fst).Nodup)
    (he : e ∈ plans.flatMap Plan.instrs) (hl : u.isDead e.1 = false) (v : Value) :
    ((u.drop e.1 e.2.deps).remaining plans).count v + e.2.deps.count v
      = (u.remaining plans).count v := by
  have hother : ∀ a ∈ plans.flatMap Plan.instrs, a ≠ e →
      (u.drop e.1 e.2.deps).readsOf v a = u.readsOf v a := by
    intro a ha hne
    have htag : a.1 ≠ e.1 := fun h => hne (List.inj_on_of_nodup_map hd ha he h)
    simp [Usage.readsOf, Usage.isDead_drop, htag]
  have hweight := weight_add_eq hd.of_map he hother
  have hself : (u.drop e.1 e.2.deps).readsOf v e = 0 := by simp [Usage.readsOf, Usage.isDead_drop]
  have hbefore : u.readsOf v e = e.2.deps.count v := by simp [Usage.readsOf, hl]
  rw [Usage.count_remaining, Usage.count_remaining]
  omega

theorem removable_of_drop {a : Value} (ha : a ∉ e.2.deps)
    (h : (u.drop e.1 e.2.deps).removable g.pureAt a = true) :
    u.removable g.pureAt a = true ∧ a ≠ e.1 := by
  rw [Usage.removable_iff, Usage.count_drop, List.count_eq_zero_of_not_mem ha, Usage.isDead_drop,
    Bool.or_eq_false_iff, decide_eq_false_iff_not] at h
  exact ⟨Usage.removable_iff.mpr ⟨h.1, h.2.1.2, h.2.2⟩, h.2.1.1⟩

theorem Sound.round (hd : ((plans.flatMap Plan.instrs).map Prod.fst).Nodup)
    (h : Sound g plans s) (hr : Round g plans s s') : Sound g plans s' := by
  cases hr with
  | @pass u v rest hv =>
    refine ⟨h.counts, h.below, ?_⟩
    intro e he hgo
    rcases Multiset.mem_cons.mp (h.pending e he hgo) with rfl | hmem
    · exact absurd hgo (by rw [hv e he rfl]; exact Bool.false_ne_true)
    · exact hmem
  | @drop u e again rest he hgo hle hall =>
    obtain ⟨hc, hl, hp⟩ := Usage.removable_iff.mp hgo
    refine ⟨?_, ?_, ?_⟩
    · intro v
      have hcounts := h.counts v
      have hreads := count_remaining_drop hd he hl v
      rw [Usage.count_drop]
      dsimp only at hcounts ⊢
      omega
    · -- whatever read the instruction has been dropped before, so it is in the set
      intro t ht v hv
      rw [Usage.isDead_drop, Bool.or_eq_true, decide_eq_true_eq] at hv
      rcases hv with rfl | hv
      · have hunread : e.1 ∉ u.remaining plans :=
          List.count_eq_zero.mp ((h.counts e.1).symm.trans hc)
        exact ht e he hp ((not_mem_remaining.mp hunread).mono (h.below t ht))
      · exact h.below t ht v hv
    · intro a ha hgone
      rw [Multiset.mem_add]
      by_cases hdep : a.1 ∈ e.2.deps
      · exact .inl (hall a ha hdep hgone)
      · obtain ⟨hbefore, hne⟩ := removable_of_drop hdep hgone
        exact .inr ((Multiset.mem_cons.mp (h.pending a ha hbefore)).resolve_left hne)

theorem Sound.run (hd : ((plans.flatMap Plan.instrs).map Prod.fst).Nodup) (h : Sound g plans s)
    (hr : Relation.ReflTransGen (Round g plans) s s') : Sound g plans s' := by
  induction hr with
  | refl => exact h
  | tail _ hround ih => exact ih.round hd hround

theorem sound_start {start : Multiset Value} (hs : ∀ e ∈ plans.flatMap Plan.instrs,
    (Usage.ofPlans plans).removable g.pureAt e.1 = true → e.1 ∈ start) :
    Sound g plans (.ofPlans plans, start) := by
  refine ⟨Usage.count_ofPlans plans, ?_, hs⟩
  intro t _ v hv
  simp [Usage.isDead, Usage.ofPlans] at hv

end Rounds

section Ending

theorem exists_round (hs : s.2 ≠ 0) : ∃ s', Round g plans s s' := by
  obtain ⟨u, pending⟩ := s
  obtain ⟨v, hv⟩ := Multiset.exists_mem_of_ne_zero hs
  obtain ⟨rest, rfl⟩ := Multiset.exists_cons_of_mem hv
  by_cases h : ∃ e ∈ plans.flatMap Plan.instrs, e.1 = v ∧ u.removable g.pureAt e.1 = true
  · obtain ⟨e, he, rfl, hgo⟩ := h
    exact ⟨_, .drop he hgo le_rfl fun a _ ha _ => ha⟩
  · refine ⟨_, .pass ?_⟩
    intro e he hev
    subst hev
    exact Bool.eq_false_iff.mpr fun hgo => h ⟨e, he, rfl, hgo⟩

def left (plans : List Plan) (s : State) : Nat :=
  weight s.1.cost (plans.flatMap Plan.instrs) + s.2.card

theorem Round.left_lt (h : Round g plans s s') : left plans s' < left plans s := by
  cases h with
  | pass => simp [left]
  | @drop u e again rest he hgo hle =>
    have hw := weight_add_le (fun a _ => u.cost_drop_le e.1 e.2.deps a) he
    have hself : (u.drop e.1 e.2.deps).cost e = 0 := u.cost_drop_self e.1 e.2
    have hcost : u.cost e = e.2.deps.length + 1 := by
      simp [Usage.cost, (Usage.removable_iff.mp hgo).2.1]
    have hcard : again.card ≤ e.2.deps.length := Multiset.card_le_card hle
    simp only [left, Multiset.card_add, Multiset.card_cons]
    omega

theorem wellFounded_round (g : Graph) (plans : List Plan) :
    WellFounded fun s' s => Round g plans s s' := by
  apply Subrelation.wf (r := InvImage (· < ·) (left plans))
  · intro s' s h
    exact h.left_lt
  · exact InvImage.wf _ Nat.lt_wfRel.wf

theorem Sound.closed (h : Sound g plans (u, 0)) : Closed g plans {v | u.isDead v = true} := by
  intro e he hp hread
  rw [Set.mem_ofPred_eq, ← Bool.not_eq_false]
  intro hl
  have hc : u.count e.1 = 0 :=
    (h.counts e.1).trans (List.count_eq_zero.mpr (not_mem_remaining.mpr hread))
  exact Multiset.notMem_zero _ (h.pending e he (Usage.removable_iff.mpr ⟨hc, hl, hp⟩))

theorem Sound.settled (h : Sound g plans (u, 0)) : Settled g plans u := by
  refine ⟨⟨h.closed, h.below⟩, ?_, h.counts⟩
  -- the dropped instructions with these properties are a closed set as well, so they are all
  have hclosed : Closed g plans {v | u.isDead v = true ∧ g.pureAt v = true
      ∧ v ∈ (plans.flatMap Plan.instrs).map Prod.fst
      ∧ ReadWithin plans {w | u.isDead w = true} v} := by
    intro e he hp hread
    have hdead : ReadWithin plans {w | u.isDead w = true} e.1 := hread.mono fun _ hw => hw.1
    exact ⟨h.closed e he hp hdead, hp, List.mem_map_of_mem he, hdead⟩
  intro v hv
  exact (h.below _ hclosed v hv).2

theorem Settled.isDead_eq {u' : Usage} (h : Settled g plans u) (h' : Settled g plans u')
    (v : Value) : u.isDead v = u'.isDead v := by
  have hsets := h.least.unique h'.least
  rw [Bool.eq_iff_iff]
  exact Set.ext_iff.mp hsets v

end Ending

theorem sweep_run (g : Graph) (plans : List Plan) (u : Usage) (pending : List Value) :
    Relation.ReflTransGen (Round g plans) (u, ↑pending)
      (sweep (plans.flatMap Plan.instrs) g.pureAt u pending, 0) := by
  fun_induction sweep (plans.flatMap Plan.instrs) g.pureAt u pending with
  | case1 u => exact .refl
  | case2 u v pending hn ih =>
    rw [← Multiset.cons_coe]
    refine .head (.pass ?_) ih
    intro e he hev
    simpa [hev] using List.find?_eq_none.mp hn e he
  | case3 u v pending e he hgo ih =>
    have hv : e.1 = v := by simpa using List.find?_some he
    subst hv
    rw [← Multiset.coe_add] at ih
    rw [← Multiset.cons_coe]
    refine .head (.drop (List.mem_of_find?_eq_some he) hgo ?_ ?_) ih
    · rw [Multiset.coe_reverse]
    · intro a _ ha _
      exact Multiset.mem_coe.mpr (List.mem_reverse.mpr ha)
  | case4 u v pending e he hgo ih =>
    rw [← Multiset.cons_coe]
    refine .head (.pass ?_) ih
    intro _ _ _
    exact Bool.eq_false_iff.mpr hgo

theorem settled_settle (hd : ((plans.flatMap Plan.instrs).map Prod.fst).Nodup) :
    Settled g plans (.settle g plans) := by
  have hall : Sound g plans (.ofPlans plans, ↑((plans.flatMap Plan.instrs).map Prod.fst)) :=
    sound_start fun e he _ => Multiset.mem_coe.mpr (List.mem_map_of_mem he)
  exact (hall.run hd (sweep_run g plans _ _)).settled

end Removal

open Removal in
/-- Taken in any order, the pending values come to an end, and no count is lowered below zero.
Whatever the order has been, the same instructions have gone in the end, and the counts are exact.
-/
theorem removal_exact (g : Graph) (plans : List Plan) (start : List Value)
    (hd : ((plans.flatMap Plan.instrs).map Prod.fst).Nodup)
    (hs : ∀ e ∈ plans.flatMap Plan.instrs,
      (Usage.ofPlans plans).removable g.pureAt e.1 = true → e.1 ∈ start) :
    WellFounded (fun s' s => Round g plans s s')
    ∧ Relation.ReflTransGen (Round g plans) (.ofPlans plans, ↑start)
        (sweep (plans.flatMap Plan.instrs) g.pureAt (.ofPlans plans) start, 0)
    ∧ ∀ s, Relation.ReflTransGen (Round g plans) (.ofPlans plans, ↑start) s →
      (s.2 ≠ 0 → ∃ s', Round g plans s s')
      ∧ (∀ e ∈ plans.flatMap Plan.instrs, s.1.removable g.pureAt e.1 = true →
        ∀ v, e.2.deps.count v ≤ s.1.count v)
      ∧ (s.2 = 0 → Settled g plans s.1
        ∧ ∀ v, s.1.isDead v = (Usage.settle g plans).isDead v) := by
  refine ⟨wellFounded_round g plans, sweep_run g plans _ start, ?_⟩
  intro s hrun
  have hsound := (sound_start hs).run hd hrun
  refine ⟨exists_round, ?_, ?_⟩
  · intro e he hgo v
    have hreads := count_remaining_drop hd he (Usage.removable_iff.mp hgo).2.1 v
    have hcounts := hsound.counts v
    omega
  · intro hdone
    obtain ⟨u, pending⟩ := s
    obtain rfl : pending = 0 := hdone
    exact ⟨hsound.settled, hsound.settled.isDead_eq (settled_settle hd)⟩

/-- A sum of a constant with itself and a copy of it in another block, which nothing reads, and a
variable that stays. -/
def leftovers : Graph :=
  let int := Ty.int ⟨32, true⟩
  let values : List ValueInfo := [
    ⟨none, int, .instruction ⟨0⟩ ⟨.const (.int 1) int, []⟩⟩,
    ⟨none, .pointer .transient int, .instruction ⟨0⟩ ⟨.alloca int, []⟩⟩,
    ⟨none, int, .instruction ⟨1⟩ ⟨.intrinsic "arith.add" int [int, int], [⟨0⟩, ⟨0⟩]⟩⟩,
    ⟨none, int, .instruction ⟨1⟩ ⟨.copy int, [⟨2⟩]⟩⟩]
  let blocks : List Block := [
    ⟨⟨0⟩, "first", [], [⟨0⟩, ⟨1⟩], .jump ⟨⟨1⟩, []⟩⟩,
    ⟨⟨1⟩, "second", [], [⟨2⟩, ⟨3⟩], .ret none⟩]
  ⟨⟨0⟩, blocks.toArray, values.toArray⟩

def leftoverPlans : List Plan :=
  leftovers.blocks.toList.map fun b =>
    ⟨b, b.instructions.map fun v =>
      (v, ⟨[], ((leftovers.instr? v).map Instr.operands).getD []⟩), [⟨[], b.flow.reads⟩]⟩

open Removal in
theorem leftovers_removed :
    let u := sweep (leftoverPlans.flatMap Plan.instrs) leftovers.pureAt (.ofPlans leftoverPlans)
      [⟨3⟩]
    u.dead = [⟨0⟩, ⟨2⟩, ⟨3⟩] ∧ Settled leftovers leftoverPlans u
      ∧ ∀ v, u.isDead v = (Usage.settle leftovers leftoverPlans).isDead v := by
  have h := removal_exact leftovers leftoverPlans [⟨3⟩] (by decide +kernel) (by decide +kernel)
  exact ⟨by decide +kernel, (h.2.2 _ h.2.1).2.2 rfl⟩

end StackCode
