import StackCode.Schedule.Kept

namespace StackCode

section Counts

variable (c : Counts) (v w : Value)

theorem Counts.get_cons (n : Nat) : get ((v, n) :: c) w = if w = v then n else c.get w := by
  rw [get, List.lookup_cons]
  by_cases h : w = v
  · simp [h]
  · simp [get, h, beq_eq_false_iff_ne.mpr h]

theorem Counts.get_update (f : Nat → Nat) :
    (c.update v f).get w = if w = v then f (c.get v) else c.get w := by
  induction c with
  | nil => rw [update, get_cons, get, get, List.lookup_nil, List.lookup_nil, Option.getD_none]
  | cons e c ih =>
    obtain ⟨x, n⟩ := e
    rw [update]
    split
    · rename_i hx
      subst hx
      by_cases h : w = x <;> simp [get_cons, h]
    · rename_i hx
      rw [get_cons, get_cons, get_cons, ih, if_neg (Ne.symm hx)]
      by_cases h : w = x
      · simp [h, hx]
      · simp [h]

theorem Counts.get_add (vs : List Value) : (c.add vs).get v = c.get v + vs.count v := by
  induction vs generalizing c with
  | nil => rfl
  | cons x vs ih =>
    rw [add, List.foldl_cons]
    have := ih (c.update x (· + 1))
    rw [add] at this
    rw [this, get_update, List.count_cons]
    by_cases h : v = x
    · subst h
      simp
      omega
    · simp [h, Ne.symm h]

theorem Counts.get_remove (vs : List Value) : (c.remove vs).get v = c.get v - vs.count v := by
  induction vs generalizing c with
  | nil => rfl
  | cons x vs ih =>
    rw [remove, List.foldl_cons]
    have := ih (c.update x (· - 1))
    rw [remove] at this
    rw [this, get_update, List.count_cons]
    by_cases h : v = x
    · subst h
      simp
      omega
    · simp [h, Ne.symm h]

end Counts

theorem le_weight {α : Type} (f : α → Nat) {as : List α} {a : α} (h : a ∈ as) :
    f a ≤ weight f as := by
  induction as with
  | nil => cases h
  | cons b as ih =>
    rw [weight]
    rcases List.mem_cons.mp h with rfl | h
    · omega
    · have := ih h
      omega

theorem weight_add_eq {α : Type} {f g : α → Nat} {as : List α} {a : α} (hn : as.Nodup)
    (ha : a ∈ as) (h : ∀ b ∈ as, b ≠ a → f b = g b) : weight f as + g a = weight g as + f a := by
  induction as with
  | nil => cases ha
  | cons b as ih =>
    rw [List.nodup_cons] at hn
    rw [List.forall_mem_cons] at h
    rw [weight, weight]
    by_cases hb : b = a
    · subst hb
      have hsame : ∀ c ∈ as, f c = g c := fun c hc => h.2 c hc fun he => hn.1 (he ▸ hc)
      have hle := weight_le fun c hc => Nat.le_of_eq (hsame c hc)
      have hge := weight_le fun c hc => Nat.le_of_eq (hsame c hc).symm
      omega
    · have hrest := ih hn.2 ((List.mem_cons.mp ha).resolve_left (Ne.symm hb)) h.2
      have hfirst := h.1 hb
      omega

namespace Usage

variable {u : Usage} {instrs : List (Value × Chunk)} {others : List Value} {v w : Value}

def readsOf (u : Usage) (v : Value) (e : Value × Chunk) : Nat :=
  if u.isDead e.1 then 0 else e.2.deps.count v

structure Counted (u : Usage) (instrs : List (Value × Chunk)) (others : List Value) : Prop where
  reads : ∀ v, weight (u.readsOf v) instrs + others.count v ≤ u.count v
  dead : ∀ v, u.isDead v = true → weight (u.readsOf v) instrs + others.count v = 0

theorem isDead_drop (deps : List Value) :
    (u.drop w deps).isDead v = (v = w || u.isDead v) := by
  simp [isDead, drop]

theorem count_drop (deps : List Value) : (u.drop w deps).count v = u.count v - deps.count v :=
  Counts.get_remove u.counts v deps

theorem removable_iff {canGo : Value → Bool} : u.removable canGo v = true
    ↔ u.count v = 0 ∧ u.isDead v = false ∧ canGo v = true := by
  simp [removable, and_assoc]

theorem readsOf_drop_le (deps : List Value) (e : Value × Chunk) :
    (u.drop w deps).readsOf v e ≤ u.readsOf v e := by
  rw [readsOf, readsOf, isDead_drop]
  by_cases h : e.1 = w <;> simp [h]

theorem Counted.drop (h : u.Counted instrs others) {e : Value × Chunk} (he : e ∈ instrs)
    (hd : u.isDead e.1 = false) (hc : u.count e.1 = 0) :
    (u.drop e.1 e.2.deps).Counted instrs others := by
  have hfall : ∀ v, weight ((u.drop e.1 e.2.deps).readsOf v) instrs + e.2.deps.count v
      ≤ weight (u.readsOf v) instrs := by
    intro v
    have hsmaller : ∀ a ∈ instrs, (u.drop e.1 e.2.deps).readsOf v a ≤ u.readsOf v a :=
      fun a _ => readsOf_drop_le e.2.deps a
    have hle := weight_add_le hsmaller he
    have hself : (u.drop e.1 e.2.deps).readsOf v e = 0 := by simp [readsOf, isDead_drop]
    have hbefore : u.readsOf v e = e.2.deps.count v := by simp [readsOf, hd]
    rw [hself, hbefore] at hle
    exact hle
  constructor
  · intro v
    have hv := h.reads v
    have hf := hfall v
    rw [count_drop]
    omega
  · intro v hv
    have hf := hfall v
    rw [isDead_drop, Bool.or_eq_true, decide_eq_true_eq] at hv
    rcases hv with rfl | hv
    · have := h.reads e.1
      omega
    · have := h.dead v hv
      omega

theorem Counted.sweep {canGo : Value → Bool} {pending : List Value}
    (h : u.Counted instrs others) : (sweep instrs canGo u pending).Counted instrs others := by
  fun_induction StackCode.sweep instrs canGo u pending with
  | case1 u => exact h
  | case2 u v pending hn ih => exact ih h
  | case3 u v pending e he hr ih =>
    apply ih
    have hv : e.1 = v := by simpa using List.find?_some he
    rw [← hv, removable_iff] at hr
    exact h.drop (List.mem_of_find?_eq_some he) hr.2.1 hr.1
  | case4 u v pending e he hr ih => exact ih h

def remaining (u : Usage) (plans : List Plan) : List Value :=
  plans.flatMap fun p => ((p.live u).map Prod.snd ++ p.flow).flatMap Chunk.deps

theorem weight_readsOf (u : Usage) (v : Value) (es : List (Value × Chunk)) :
    weight (u.readsOf v) es
      = (((es.filter fun e => !u.isDead e.1).map Prod.snd).flatMap Chunk.deps).count v := by
  induction es with
  | nil => rfl
  | cons e es ih =>
    rw [weight, ih, readsOf]
    cases h : u.isDead e.1 <;> simp [h]

theorem count_remaining (u : Usage) (plans : List Plan) (v : Value) :
    (u.remaining plans).count v = weight (u.readsOf v) (plans.flatMap Plan.instrs)
      + (plans.flatMap fun p => p.flow.flatMap Chunk.deps).count v := by
  induction plans with
  | nil => rfl
  | cons p plans ih =>
    simp only [weight_readsOf, remaining, Plan.live, List.flatMap_cons, List.filter_append,
      List.map_append, List.flatMap_append, List.count_append] at ih ⊢
    omega

theorem count_ofPlans (plans : List Plan) (v : Value) :
    (ofPlans plans).count v = ((ofPlans plans).remaining plans).count v := by
  have hlive : ∀ p : Plan, p.live (ofPlans plans) = p.instrs := by
    intro p
    simp [Plan.live, isDead, ofPlans]
  simp only [remaining, hlive]
  rw [count, ofPlans, Counts.get_add]
  simp [Counts.get, Plan.chunks]

theorem counted_ofPlans (plans : List Plan) :
    (ofPlans plans).Counted (plans.flatMap Plan.instrs)
      (plans.flatMap fun p => p.flow.flatMap Chunk.deps) := by
  constructor
  · intro v
    apply Nat.le_of_eq
    rw [count_ofPlans, count_remaining]
  · intro v hv
    simp [isDead, ofPlans] at hv

theorem Counted.read (h : u.Counted instrs others) (hv : 0 < weight (u.readsOf v) instrs
    + others.count v) : 0 < u.count v ∧ u.isDead v = false := by
  refine ⟨Nat.lt_of_lt_of_le hv (h.reads v), ?_⟩
  rw [Bool.eq_false_iff]
  intro hd
  rw [h.dead v hd] at hv
  exact Nat.lt_irrefl 0 hv

end Usage

section Settled

variable {g : Graph} {plans : List Plan} {q : Plan} {v w : Value} {c : Chunk}

theorem settle_counted (g : Graph) (plans : List Plan) :
    (Usage.settle g plans).Counted (plans.flatMap Plan.instrs)
      (plans.flatMap fun p => p.flow.flatMap Chunk.deps) :=
  (Usage.counted_ofPlans plans).sweep

theorem read_of_instr (hq : q ∈ plans) (he : (w, c) ∈ q.instrs)
    (hw : (Usage.settle g plans).isDead w = false) (hv : v ∈ c.deps) :
    0 < (Usage.settle g plans).count v ∧ (Usage.settle g plans).isDead v = false := by
  refine (settle_counted g plans).read (Nat.lt_of_lt_of_le ?_ (Nat.le_add_right ..))
  have hmem : (w, c) ∈ plans.flatMap Plan.instrs := List.mem_flatMap.mpr ⟨q, hq, he⟩
  refine Nat.lt_of_lt_of_le ?_ (le_weight _ hmem)
  simpa [Usage.readsOf, hw] using List.count_pos_iff.mpr hv

theorem read_of_flow (hq : q ∈ plans) (hc : c ∈ q.flow) (hv : v ∈ c.deps) :
    0 < (Usage.settle g plans).count v ∧ (Usage.settle g plans).isDead v = false := by
  refine (settle_counted g plans).read (Nat.lt_of_lt_of_le ?_ (Nat.le_add_left ..))
  refine List.count_pos_iff.mpr (List.mem_flatMap.mpr ⟨q, hq, ?_⟩)
  exact List.mem_flatMap.mpr ⟨c, hc, hv⟩

end Settled

end StackCode
