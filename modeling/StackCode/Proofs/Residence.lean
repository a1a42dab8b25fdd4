import Mathlib.Data.List.TakeWhile
import StackCode.Schedule.Kept

namespace StackCode

section Taking

variable {kept stack deps rest : List Value} {alone : Bool}

structure Takes (kept stack deps rest : List Value) (alone : Bool) : Prop where
  stack : stack = rest ++ deps.takeWhile kept.contains
  others : ∀ v ∈ deps.dropWhile kept.contains, v ∉ kept
  alone : alone = true → rest = []

theorem takes_of_takeDeps (h : takeDeps kept stack deps alone = .ok rest) :
    Takes kept stack deps rest alone := by
  rw [takeDeps] at h
  split at h
  · cases h
  rename_i hlate
  split at h
  · cases h
  rename_i hfirst
  split at h
  · cases h
  rename_i halone
  obtain rfl := Except.ok.inj h
  simp only [Bool.or_eq_true, decide_eq_true_eq, not_or, ne_eq, Decidable.not_not] at hfirst
  refine ⟨?_, ?_, ?_⟩
  · have := List.take_append_drop (stack.length - (deps.takeWhile kept.contains).length) stack
    rw [hfirst.2] at this
    exact this.symm
  · intro v hv hk
    rw [ne_eq, Decidable.not_not, List.filter_eq_nil_iff] at hlate
    exact hlate v hv (List.contains_iff_mem.mpr hk)
  · rintro rfl
    simp only [Bool.true_and, decide_eq_true_eq] at halone
    rw [Nat.eq_zero_of_not_pos halone, List.take_zero]

theorem takeDeps_error {vs : List Value} (hs : ∀ v ∈ stack, v ∈ kept)
    (h : takeDeps kept stack deps alone = .error vs) : vs ≠ [] ∧ ∀ v ∈ vs, v ∈ kept := by
  have hfirst : ∀ v ∈ deps.takeWhile kept.contains, v ∈ kept := fun v hv =>
    List.contains_iff_mem.mp (List.mem_takeWhile_imp hv)
  rw [takeDeps] at h
  split at h
  · rename_i hlate
    obtain rfl := Except.error.inj h
    exact ⟨hlate, fun v hv => List.contains_iff_mem.mp (List.mem_filter.mp hv).2⟩
  split at h
  · rename_i hne
    obtain rfl := Except.error.inj h
    refine ⟨?_, hfirst⟩
    intro hnil
    simp [hnil] at hne
  split at h
  · rename_i halone
    obtain rfl := Except.error.inj h
    simp only [Bool.and_eq_true, decide_eq_true_eq] at halone
    refine ⟨?_, fun v hv => hs v (List.mem_of_mem_take hv)⟩
    intro hnil
    have := congrArg List.length hnil
    rw [List.length_take, List.length_nil] at this
    omega
  · cases h

end Taking

section Following

variable {u : Usage} {kept stack out vs : List Value} {p : Plan} {plans : List Plan}

theorem followInstrs_cons {v : Value} {c : Chunk} {es : List (Value × Chunk)} :
    Plan.followInstrs kept stack ((v, c) :: es) = .ok out ↔
      ∃ rest, takeDeps kept stack c.deps c.isBarrier = .ok rest
        ∧ Plan.followInstrs kept (if kept.contains v then rest ++ [v] else rest) es = .ok out := by
  rw [Plan.followInstrs]
  split
  · rename_i h
    simp [h]
  · rename_i h
    simp [h]

theorem followFlow_cons {c : Chunk} {cs : List Chunk} {first : Bool} :
    Plan.followFlow kept stack first (c :: cs) = .ok out ↔
      ∃ rest, takeDeps kept stack c.deps (first || c.isBarrier) = .ok rest
        ∧ Plan.followFlow kept rest false cs = .ok out := by
  rw [Plan.followFlow]
  split
  · rename_i h
    simp [h]
  · rename_i h
    simp [h]

theorem Takes.mem {deps rest : List Value} {alone : Bool} (h : Takes kept stack deps rest alone)
    {v : Value} (hv : v ∈ rest) : v ∈ stack := by
  rw [h.stack]
  exact List.mem_append_left _ hv

theorem followInstrs_kept (es : List (Value × Chunk)) (hs : ∀ v ∈ stack, v ∈ kept) :
    (∀ out, Plan.followInstrs kept stack es = .ok out → ∀ v ∈ out, v ∈ kept)
      ∧ ∀ vs, Plan.followInstrs kept stack es = .error vs → vs ≠ [] ∧ ∀ v ∈ vs, v ∈ kept := by
  induction es generalizing stack with
  | nil =>
    refine ⟨?_, fun vs h => by cases h⟩
    rintro out ⟨⟩
    exact hs
  | cons e es ih =>
    obtain ⟨v, c⟩ := e
    rw [Plan.followInstrs]
    split
    · rename_i vs h
      refine ⟨fun out h => (by cases h), ?_⟩
      rintro ws ⟨⟩
      exact takeDeps_error hs h
    · rename_i rest h
      apply ih
      intro w hw
      have ht := takes_of_takeDeps h
      split at hw
      · rename_i hv
        rcases List.mem_append.mp hw with hw | hw
        · exact hs w (ht.mem hw)
        · rw [List.mem_singleton.mp hw]
          exact List.contains_iff_mem.mp hv
      · exact hs w (ht.mem hw)

theorem followFlow_kept (cs : List Chunk) (first : Bool) (hs : ∀ v ∈ stack, v ∈ kept) :
    (∀ out, Plan.followFlow kept stack first cs = .ok out → ∀ v ∈ out, v ∈ kept)
      ∧ ∀ vs, Plan.followFlow kept stack first cs = .error vs →
        vs ≠ [] ∧ ∀ v ∈ vs, v ∈ kept := by
  induction cs generalizing stack first with
  | nil =>
    refine ⟨?_, fun vs h => by cases h⟩
    rintro out ⟨⟩
    exact hs
  | cons c cs ih =>
    rw [Plan.followFlow]
    split
    · rename_i vs h
      refine ⟨fun out h => (by cases h), ?_⟩
      rintro ws ⟨⟩
      exact takeDeps_error hs h
    · rename_i rest h
      exact ih false fun w hw => hs w ((takes_of_takeDeps h).mem hw)

theorem followInstrs_read {es : List (Value × Chunk)} {v : Value}
    (h : Plan.followInstrs kept stack es = .ok out) (hv : v ∈ stack) :
    (∃ e ∈ es, v ∈ e.2.deps) ∨ v ∈ out := by
  induction es generalizing stack with
  | nil =>
    obtain rfl := Except.ok.inj h
    exact .inr hv
  | cons e es ih =>
    obtain ⟨w, c⟩ := e
    obtain ⟨rest, ht, hrest⟩ := followInstrs_cons.mp h
    rw [(takes_of_takeDeps ht).stack] at hv
    rcases List.mem_append.mp hv with hv | hv
    · have hmem : v ∈ (if kept.contains w then rest ++ [w] else rest) := by
        split
        · exact List.mem_append_left _ hv
        · exact hv
      rcases ih hrest hmem with ⟨e, he, hd⟩ | ho
      · exact .inl ⟨e, List.mem_cons_of_mem _ he, hd⟩
      · exact .inr ho
    · exact .inl ⟨(w, c), List.mem_cons_self, (List.takeWhile_sublist _).subset hv⟩

theorem followFlow_read {cs : List Chunk} {first : Bool} {v : Value}
    (h : Plan.followFlow kept stack first cs = .ok []) (hv : v ∈ stack) :
    ∃ c ∈ cs, v ∈ c.deps := by
  induction cs generalizing stack first with
  | nil =>
    obtain rfl := Except.ok.inj h
    cases hv
  | cons c cs ih =>
    obtain ⟨rest, ht, hrest⟩ := followFlow_cons.mp h
    rw [(takes_of_takeDeps ht).stack] at hv
    rcases List.mem_append.mp hv with hv | hv
    · obtain ⟨d, hd, hv⟩ := ih hrest hv
      exact ⟨d, List.mem_cons_of_mem _ hd, hv⟩
    · exact ⟨c, List.mem_cons_self, (List.takeWhile_sublist _).subset hv⟩

theorem unkept_of_followFlow {cs : List Chunk} {first : Bool}
    (h : Plan.followFlow kept [] first cs = .ok []) : ∀ c ∈ cs, ∀ v ∈ c.deps, v ∉ kept := by
  induction cs generalizing first with
  | nil => simp
  | cons c cs ih =>
    obtain ⟨rest, htake, hrest⟩ := followFlow_cons.mp h
    have ht := takes_of_takeDeps htake
    obtain ⟨rfl, hfirst⟩ := List.append_eq_nil_iff.mp ht.stack.symm
    rw [List.forall_mem_cons]
    refine ⟨?_, ih hrest⟩
    intro v hv
    refine ht.others v ?_
    rwa [← List.takeWhile_append_dropWhile (p := kept.contains) (l := c.deps), hfirst] at hv

theorem misfits_kept : ∀ v ∈ p.misfits u kept, v ∈ kept := by
  have hi := followInstrs_kept (p.live u) (by simp : ∀ v ∈ ([] : List Value), v ∈ kept)
  rw [Plan.misfits]
  split
  · rename_i vs h
    exact (hi.2 vs h).2
  · rename_i stack h
    have hf := followFlow_kept p.flow true (hi.1 stack h)
    split
    · rename_i vs h'
      exact (hf.2 vs h').2
    · rename_i out h'
      exact hf.1 out h'

theorem follow_of_misfits (h : p.misfits u kept = []) :
    ∃ stack, Plan.followInstrs kept [] (p.live u) = .ok stack
      ∧ Plan.followFlow kept stack true p.flow = .ok [] := by
  have hi := followInstrs_kept (p.live u) (by simp : ∀ v ∈ ([] : List Value), v ∈ kept)
  rw [Plan.misfits] at h
  split at h
  · rename_i vs hvs
    exact absurd h (hi.2 vs hvs).1
  · rename_i stack hs
    have hf := followFlow_kept p.flow true (hi.1 stack hs)
    split at h
    · rename_i vs hvs
      exact absurd h (hf.2 vs hvs).1
    · rename_i out ho
      subst h
      exact ⟨stack, hs, ho⟩

theorem firstMisfits_kept : ∀ v ∈ firstMisfits u kept plans, v ∈ kept := by
  induction plans with
  | nil => simp [firstMisfits]
  | cons p plans ih =>
    rw [firstMisfits]
    split
    · exact ih
    · exact misfits_kept

theorem misfits_of_firstMisfits (h : firstMisfits u kept plans = []) :
    ∀ p ∈ plans, p.misfits u kept = [] := by
  induction plans with
  | nil => simp
  | cons p plans ih =>
    rw [firstMisfits] at h
    split at h
    · rename_i hp
      rw [List.forall_mem_cons]
      exact ⟨hp, ih h⟩
    · rename_i hne
      exact absurd h hne

theorem exists_given_up (h : firstMisfits u kept plans ≠ []) :
    ∃ v ∈ kept, v ∉ withoutMisfits u plans kept := by
  obtain ⟨v, hv⟩ := List.exists_mem_of_ne_nil _ h
  refine ⟨v, firstMisfits_kept v hv, fun hmem => ?_⟩
  have := (List.mem_filter.mp hmem).2
  rw [List.contains_iff_mem.mpr hv] at this
  cases this

theorem length_withoutMisfits_lt (h : firstMisfits u kept plans ≠ []) :
    (withoutMisfits u plans kept).length < kept.length := by
  obtain ⟨v, hv, hgone⟩ := exists_given_up h
  have hsub : (withoutMisfits u plans kept).Sublist kept := List.filter_sublist
  refine Nat.lt_of_le_of_ne hsub.length_le fun hlen => hgone ?_
  rwa [hsub.eq_of_length hlen]

theorem firstMisfits_demote : firstMisfits u (demote u plans kept) plans = [] := by
  fun_induction demote u plans kept with
  | case1 kept fewer h ih => exact ih
  | case2 kept fewer h => exact Decidable.not_not.mp fun hne => h (length_withoutMisfits_lt hne)

theorem demote_sublist : (demote u plans kept).Sublist kept := by
  fun_induction demote u plans kept with
  | case1 kept fewer h ih => exact ih.trans List.filter_sublist
  | case2 kept fewer h => exact List.Sublist.refl _

end Following

section KeptValues

variable {g : Graph} {policy : Policy} {u : Usage} {plans : List Plan}

theorem follow_keptValues {p : Plan} (hp : p ∈ plans) :
    ∃ stack, Plan.followInstrs (keptValues g policy u plans) [] (p.live u) = .ok stack
      ∧ Plan.followFlow (keptValues g policy u plans) stack true p.flow = .ok [] :=
  follow_of_misfits (misfits_of_firstMisfits firstMisfits_demote p hp)

theorem candidate_of_kept {v : Value} (hv : v ∈ keptValues g policy u plans) :
    ∃ p ∈ plans, v ∈ p.candidates g policy u :=
  List.mem_flatMap.mp (demote_sublist.subset hv)

end KeptValues

end StackCode
