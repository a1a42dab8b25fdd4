import StackCode.Proofs.Fusion
import StackCode.Proofs.Reachability

namespace StackCode.Machine

/-- An instruction stays, where depths are related only if they are equal, or is replaced by one
that takes related depths to related depths. -/
inductive Changed (L : Nat → Nat → Nat → Prop) (p : Nat) : Instr → Instr → Prop where
  | kept {i : Instr} : (∀ q, q = p ∨ q ∈ i.successors p → ∀ d e, L q d e ↔ d = e) → Changed L p i i
  | replaced {i j : Instr} {pops pushes pops' pushes' : Nat} : i.Does pops pushes →
    j.Does pops' pushes' → (∀ d e, L p d e → (pops ≤ d ↔ pops' ≤ e)
      ∧ (pops ≤ d → L (p + 1) (d - pops + pushes) (e - pops' + pushes'))) → Changed L p i j

structure Alike (b c : Body) (L : Nat → Nat → Nat → Prop) : Prop where
  length : c.instrs.length = b.instrs.length
  handlers : c.handlers = b.handlers
  right_unique : ∀ p d e e', L p d e → L p d e' → e = e'
  left_unique : ∀ p d d' e, L p d e → L p d' e → d = d'
  entry : ∀ p, p = 0 ∨ p ∈ b.handlers.flatMap Handler.bounds → ∀ d e, L p d e ↔ d = e
  change : ∀ p i j, b.instrs[p]? = some i → c.instrs[p]? = some j → Changed L p i j

section Effects

variable {L : Nat → Nat → Nat → Prop} {i j : Instr} {p d e pops pushes after : Nat}

theorem Instr.Does.depthAfter_iff (h : i.Does pops pushes) :
    i.depthAfter p d = .ok after ↔ pops ≤ d ∧ after = d - pops + pushes := by
  rw [Instr.depthAfter_fixed h.effect]
  split
  · simp
    omega
  · simp
    omega

theorem Changed.symm (h : Changed L p i j) : Changed (fun q e d => L q d e) p j i := by
  cases h with
  | kept h =>
    refine .kept ?_
    intro q hq e d
    rw [h q hq, eq_comm]
  | replaced hi hj h =>
    refine .replaced hj hi ?_
    intro e d hl
    obtain ⟨hiff, hnext⟩ := h d e hl
    exact ⟨hiff.symm, fun hle => hnext (hiff.mpr hle)⟩

theorem Changed.step (h : Changed L p i j) (hl : L p d e) (ha : i.depthAfter p d = .ok after) :
    ∃ after', j.depthAfter p e = .ok after'
      ∧ ∀ q ∈ j.successors p, q ∈ i.successors p ∧ L q after after' := by
  cases h with
  | kept h =>
    obtain rfl := (h p (.inl rfl) d e).mp hl
    refine ⟨after, ha, ?_⟩
    intro q hq
    exact ⟨hq, (h q (.inr hq) after after).mpr rfl⟩
  | replaced hi hj h =>
    obtain ⟨hiff, hnext⟩ := h d e hl
    obtain ⟨hle, rfl⟩ := hi.depthAfter_iff.mp ha
    refine ⟨_, hj.depthAfter_iff.mpr ⟨hiff.mp hle, rfl⟩, ?_⟩
    rw [hi.successors, hj.successors, List.forall_mem_singleton]
    exact ⟨List.mem_singleton_self _, hnext hle⟩

end Effects

section Assignments

variable {b c : Body} {L : Nat → Nat → Nat → Prop} {depth : Nat → Option Nat} {r s : Depths}
  {p d e k : Nat}

theorem Alike.symm (h : Alike b c L) : Alike c b fun p e d => L p d e where
  length := h.length.symm
  handlers := h.handlers.symm
  right_unique p e d d' := h.left_unique p d d' e
  left_unique p e e' d := h.right_unique p d e e'
  entry p hp e d := by
    rw [h.handlers] at hp
    rw [h.entry p hp, eq_comm]
  change p j i hj hi := (h.change p i j hi hj).symm

theorem Alike.getElem? (h : Alike b c L) {j : Instr} (hj : c.instrs[p]? = some j) :
    ∃ i, b.instrs[p]? = some i := by
  have hlt := (List.getElem?_eq_some_iff.mp hj).1
  rw [h.length] at hlt
  exact ⟨_, List.getElem?_eq_getElem hlt⟩

open Classical in
noncomputable def carried (L : Nat → Nat → Nat → Prop) (depth : Nat → Option Nat) (p : Nat) :
    Option Nat :=
  (depth p).bind fun d => if h : ∃ e, L p d e then some h.choose else none

theorem Alike.carried_iff (h : Alike b c L) :
    carried L depth p = some e ↔ ∃ d, depth p = some d ∧ L p d e := by
  rw [carried, Option.bind_eq_some_iff]
  constructor
  · rintro ⟨d, hd, he⟩
    split at he
    · rename_i hex
      obtain rfl := Option.some.inj he
      exact ⟨d, hd, hex.choose_spec⟩
    · cases he
  · rintro ⟨d, hd, hl⟩
    have hex : ∃ e, L p d e := ⟨e, hl⟩
    refine ⟨d, hd, ?_⟩
    rw [dif_pos hex, h.right_unique p d _ _ hex.choose_spec hl]

theorem Alike.carried_of_same (h : Alike b c L) (hp : ∀ d e, L p d e ↔ d = e) :
    carried L depth p = depth p := by
  apply Option.ext
  intro e
  rw [h.carried_iff]
  simp [hp]

theorem Alike.fits (h : Alike b c L) (hb : b.Fits depth) : c.Fits (carried L depth) := by
  have hentry : ∀ k ∈ c.handlers, ∀ t ∈ k.bounds, ∀ d e, L t d e ↔ d = e := by
    intro k hk t ht
    exact h.entry t (.inr (List.mem_flatMap.mpr ⟨k, h.handlers ▸ hk, ht⟩))
  constructor
  · intro p j e hj he
    obtain ⟨d, hd, hl⟩ := h.carried_iff.mp he
    obtain ⟨i, hi⟩ := h.getElem? hj
    obtain ⟨after, ha, hq⟩ := hb.step p i d hi hd
    obtain ⟨after', ha', hs⟩ := (h.change p i j hi hj).step hl ha
    refine ⟨after', ha', ?_⟩
    intro q hm
    obtain ⟨hm, hl⟩ := hs q hm
    rw [h.length]
    exact ⟨(hq q hm).1, h.carried_iff.mpr ⟨after, (hq q hm).2, hl⟩⟩
  · intro hne
    rw [← List.length_pos_iff, h.length, List.length_pos_iff] at hne
    exact h.carried_iff.mpr ⟨0, hb.start hne, (h.entry 0 (.inl rfl) 0 0).mpr rfl⟩
  · intro k hk
    obtain ⟨hlt, hd⟩ := hb.handler k (h.handlers ▸ hk)
    have hl := (hentry k hk k.handlerStart (by simp [Handler.bounds]) 1 1).mpr rfl
    rw [h.length]
    exact ⟨hlt, h.carried_iff.mpr ⟨1, hd, hl⟩⟩
  · intro k hk e he
    obtain ⟨d, hd, hl⟩ := h.carried_iff.mp he
    rw [← (hentry k hk k.tryStart (by simp [Handler.bounds]) d e).mp hl]
    exact hb.guarded k (h.handlers ▸ hk) d hd

theorem Alike.accepted (h : Alike b c L) (hb : ∃ r, b.depths = .ok r) : ∃ s, c.depths = .ok s := by
  obtain ⟨r, hr⟩ := hb
  obtain ⟨s, hs, -⟩ := (h.fits (Body.fits_of_depths hr)).depths
  exact ⟨s, hs⟩

theorem Alike.reaches (h : Alike b c L) (hr : b.depths = .ok r) (he : c.Reaches p e) :
    ∃ d, b.Reaches p d ∧ L p d e := by
  obtain ⟨d, hd, hl⟩ := h.carried_iff.mp ((h.fits (Body.fits_of_depths hr)).reaches he).2
  exact ⟨d, (Body.reaches_iff hr p d).mp (Option.join_eq_some_iff.mp hd), hl⟩

theorem Body.length_depths (hr : b.depths = .ok r) : r.depths.length = b.instrs.length := by
  obtain ⟨s, hs, hlen, -⟩ := (fits_of_depths hr).depths
  rw [hs] at hr
  rw [← Except.ok.inj hr, hlen]

theorem Alike.getElem?_depths (h : Alike b c L) (hr : b.depths = .ok r) (hs : c.depths = .ok s)
    {f : Nat → Nat} (hf : ∀ d e, L p d e ↔ e = f d) :
    s.depths[p]? = r.depths[p]?.map (Option.map f) := by
  have hiff : ∀ e, s.depths[p]? = some (some e) ↔ ∃ d, r.depths[p]? = some (some d) ∧ f d = e := by
    intro e
    simp only [Body.reaches_iff hr, Body.reaches_iff hs, eq_comm (b := e), ← hf]
    constructor
    · exact h.reaches hr
    · rintro ⟨d, hd, hl⟩
      obtain ⟨e', he, hl'⟩ := h.symm.reaches hs hd
      rw [h.right_unique p d e e' hl hl']
      exact he
  by_cases hlt : p < b.instrs.length
  · have hlr : p < r.depths.length := by rw [Body.length_depths hr]; exact hlt
    have hls : p < s.depths.length := by rw [Body.length_depths hs, h.length]; exact hlt
    rw [List.getElem?_eq_getElem hlr, List.getElem?_eq_getElem hls] at hiff ⊢
    simp only [Option.some.injEq] at hiff
    rw [Option.map_some, Option.some.injEq]
    apply Option.ext
    intro e
    rw [hiff, Option.map_eq_some_iff]
  · rw [List.getElem?_eq_none, List.getElem?_eq_none, Option.map_none]
    · rw [Body.length_depths hr]
      omega
    · rw [Body.length_depths hs, h.length]
      omega

end Assignments

section Peaks

variable {b c : Body} {L : Nat → Nat → Nat → Prop} {r s : Depths} {i : Instr}
  {p d k pops pushes : Nat}

theorem Body.occurs_of_reaches (hr : b.depths = .ok r) (hd : b.Reaches p d) : b.Occurs d := by
  have hlt := ((fits_of_depths hr).reaches hd).1
  exact ⟨p, d, _, hd, List.getElem?_eq_getElem hlt, .inl rfl⟩

theorem Instr.Does.reaches (h : i.Does pops pushes) (hr : b.depths = .ok r)
    (hi : b.instrs[p]? = some i) (hd : b.Reaches p d) : b.Reaches (p + 1) (d - pops + pushes) := by
  have hle := (Body.fits_of_depths hr).disciplined.enough p d i pops pushes hd hi (.fixed h.effect)
  exact hd.next hi (.fixed h.effect) hle (Opcode.endsFlow_of_next h.flow)

theorem Body.maxStack_of_nil (hr : b.depths = .ok r) (h : b.instrs = []) : r.maxStack = 0 := by
  obtain ⟨sites, hsites, -, -, -, rfl⟩ := depths_found hr
  have hnone := hsites 0
  rw [h] at hnone
  have hnil : sites = #[] := by simpa using hnone.symm
  simp [hnil]

theorem Alike.maxStack_le (h : Alike b c L) (hr : b.depths = .ok r) (hs : c.depths = .ok s)
    (hL : ∀ p d e, b.Reaches p d → L p d e → ∃ m, b.Occurs m ∧ e ≤ m + k) :
    s.maxStack ≤ r.maxStack + k := by
  have hreach : ∀ {p e}, c.Reaches p e → ∃ m, b.Occurs m ∧ e ≤ m + k := by
    intro p e he
    obtain ⟨d, hd, hl⟩ := h.reaches hr he
    exact hL p d e hd hl
  have hoccurs : ∀ n, c.Occurs n → ∃ m, b.Occurs m ∧ n ≤ m + k := by
    rintro n ⟨p, e, j, he, hj, rfl | ⟨pops, pushes, hx, rfl⟩⟩
    · exact hreach he
    · obtain ⟨i, hi⟩ := h.getElem? hj
      -- The depth after a replaced instruction is the depth at the next position.
      cases h.change p i j hi hj with
      | kept hsame =>
        obtain ⟨d, hd, hl⟩ := h.reaches hr he
        obtain rfl := (hsame p (.inl rfl) d e).mp hl
        exact ⟨_, ⟨p, d, _, hd, hi, .inr ⟨pops, pushes, hx, rfl⟩⟩, Nat.le_add_right ..⟩
      | replaced _ hdoes _ =>
        obtain ⟨rfl, rfl⟩ := hx.unique (.fixed hdoes.effect)
        exact hreach (hdoes.reaches hs hj he)
  by_cases hne : c.instrs = []
  · rw [Body.maxStack_of_nil hs hne]
    exact Nat.zero_le _
  · have hb : b.instrs ≠ [] := by
      rw [← List.length_pos_iff, ← h.length, List.length_pos_iff]
      exact hne
    obtain ⟨m, hm, hle⟩ := hoccurs _ (Body.maxStack_isGreatest hs hne).1
    have := (Body.maxStack_isGreatest hr hb).2 hm
    omega

end Peaks

section Fusing

variable {b : Body} {i j : Instr} {r s : Depths} {p d e : Nat}

def Body.Straight (b : Body) : Prop :=
  ∀ i ∈ b.instrs, i.storedSlot ≠ none ∨ i.loadedSlot ≠ none → i.operand.branchTargets = []

instance (b : Body) : Decidable b.Straight :=
  inferInstanceAs (Decidable (∀ i ∈ b.instrs,
    i.storedSlot ≠ none ∨ i.loadedSlot ≠ none → i.operand.branchTargets = []))

def Body.Level (b : Body) (p d e : Nat) : Prop :=
  (b.Between p → e = d + 2) ∧ (¬ b.Between p → e = d)

theorem Body.level_between (h : b.Between p) : b.Level p d e ↔ e = d + 2 := by
  simp [Level, h]

theorem Body.level_same (h : ¬ b.Between p) : b.Level p d e ↔ e = d := by
  simp [Level, h]

theorem Body.Level.unique {d' e' : Nat} (h : b.Level p d e) (h' : b.Level p d' e') :
    d = d' ↔ e = e' := by
  by_cases hp : b.Between p
  · rw [level_between hp] at h h'
    omega
  · rw [level_same hp] at h h'
    omega

theorem Body.Straight.store (h : b.Straight) (hi : i ∈ b.instrs) {x : Slot}
    (hx : i.storedSlot = some x) : i.Does 1 0 :=
  ⟨(Instr.storedSlot_effect hx).1, (Instr.storedSlot_effect hx).2, h i hi (.inl (by simp [hx]))⟩

theorem Body.Straight.load (h : b.Straight) (hb : b.Between p) (hi : b.instrs[p]? = some i) :
    i.Does 0 1 := by
  obtain ⟨x, hx⟩ := hb
  obtain ⟨load, hload, hl⟩ := hx.load
  rw [hi] at hload
  obtain rfl := Option.some.inj hload
  exact ⟨(Instr.loadedSlot_effect hl).1, (Instr.loadedSlot_effect hl).2,
    h i (List.mem_of_getElem? hi) (.inr (by simp [hl]))⟩

theorem Body.not_between_of_successor (hi : b.instrs[p]? = some i) (hn : ¬ b.Between (p + 1))
    {q : Nat} (hq : q ∈ i.successors p) : ¬ b.Between q := by
  rcases Instr.mem_successors.mp hq with ⟨-, rfl⟩ | ht
  · exact hn
  · rintro ⟨x, hx⟩
    apply hx.not_mem_entryPoints
    exact List.mem_append_left _ (List.mem_flatMap.mpr ⟨i, List.mem_of_getElem? hi, ht⟩)

theorem Body.Straight.changed (h : b.Straight) (hi : b.instrs[p]? = some i)
    (hj : b.fuse.1.instrs[p]? = some j) : Changed b.Level p i j := by
  have hdup : Instr.Does ⟨.dup, .none⟩ 1 2 := ⟨rfl, rfl, rfl⟩
  rcases fuse_getElem? hj with ⟨hnext, rfl⟩ | ⟨hnext, x, hx, hs⟩ | ⟨hnext, hp, hsame⟩
  · by_cases hp : b.Between p
    · refine .replaced (h.load hp hi) hdup ?_
      intro d e hl
      rw [level_between hp] at hl
      rw [level_between hnext]
      omega
    · have hstore : i.Does 1 0 := by
        obtain ⟨x, hx⟩ := hnext
        obtain ⟨store, hstore, hs⟩ := hx.store hp
        rw [hi] at hstore
        obtain rfl := Option.some.inj hstore
        exact h.store (List.mem_of_getElem? hi) hs
      refine .replaced hstore hdup ?_
      intro d e hl
      rw [level_same hp] at hl
      rw [level_between hnext]
      omega
  · have hstore : j.Does 1 0 := by
      rcases mem_fuse (List.mem_of_getElem? hj) with rfl | hmem
      · cases hs
      · exact h.store hmem hs
    refine .replaced (h.load ⟨x, hx⟩ hi) hstore ?_
    intro d e hl
    rw [level_between ⟨x, hx⟩] at hl
    rw [level_same hnext]
    omega
  · rw [hi] at hsame
    obtain rfl := Option.some.inj hsame
    refine .kept ?_
    rintro q (rfl | hq) d e
    · rw [level_same hp, eq_comm]
    · rw [level_same (not_between_of_successor hi hnext hq), eq_comm]

theorem Body.Straight.alike (h : b.Straight) : Alike b b.fuse.1 b.Level where
  length := b.length_fuse
  handlers := b.fuse_handlers
  right_unique p d e e' hl hl' := (hl.unique hl').mp rfl
  left_unique p d d' e hl hl' := (hl.unique hl').mpr rfl
  entry p hp d e := by
    have hn : ¬ b.Between p := by
      rcases hp with rfl | hp
      · exact b.not_between_zero
      · rintro ⟨x, hx⟩
        exact hx.not_mem_entryPoints (List.mem_append_right _ hp)
    rw [level_same hn, eq_comm]
  change p i j hi hj := h.changed hi hj

theorem Body.Fits.fuse {depth : Nat → Option Nat} (hb : b.Fits depth) (h : b.Straight) :
    ∃ depth', b.fuse.1.Fits depth' ∧ ∀ p, ¬ b.Between p → depth' p = depth p := by
  refine ⟨_, h.alike.fits hb, ?_⟩
  intro p hp
  apply h.alike.carried_of_same
  intro d e
  rw [level_same hp, eq_comm]

theorem Body.Straight.maxStack_fuse (h : b.Straight) (hr : b.depths = .ok r)
    (hs : b.fuse.1.depths = .ok s) : r.maxStack ≤ s.maxStack ∧ s.maxStack ≤ r.maxStack + 1 := by
  constructor
  · refine h.alike.symm.maxStack_le (k := 0) hs hr ?_
    intro p e d he hl
    refine ⟨e, occurs_of_reaches hs he, ?_⟩
    by_cases hp : b.Between p
    · rw [level_between hp] at hl
      omega
    · rw [level_same hp] at hl
      omega
  · refine h.alike.maxStack_le hr hs ?_
    intro p d e hd hl
    by_cases hp : b.Between p
    · -- The load that stands there leaves one entry more.
      rw [level_between hp] at hl
      have hi := List.getElem?_eq_getElem ((fits_of_depths hr).reaches hd).1
      refine ⟨d + 1, occurs_of_reaches hr ((h.load hp hi).reaches hr hi hd), ?_⟩
      omega
    · rw [level_same hp] at hl
      exact ⟨d, occurs_of_reaches hr hd, by omega⟩

end Fusing

section Compacting

variable {b : Body} {i : Instr} {r : Depths} {p : Nat}

theorem Instr.changed_shortForm (i : Instr) :
    Changed (fun _ d e => d = e) p i (i.shortForm?.getD i) := by
  cases hs : i.shortForm? with
  | none => exact .kept fun _ _ _ _ => Iff.rfl
  | some j =>
    obtain ⟨pops, pushes, hi, hj⟩ := shortForm?_does hs
    refine .replaced hi hj ?_
    rintro d _ rfl
    exact ⟨Iff.rfl, fun _ => rfl⟩

theorem Body.alike_compact (b : Body) : Alike b b.compact.1 fun _ d e => d = e where
  length := List.length_map _
  handlers := rfl
  right_unique _ _ _ _ hl hl' := hl.symm.trans hl'
  left_unique _ _ _ _ hl hl' := hl.trans hl'.symm
  entry _ _ _ _ := Iff.rfl
  change p i j hi hj := by
    rw [compact, List.getElem?_map, hi] at hj
    obtain rfl := Option.some.inj hj
    exact i.changed_shortForm

theorem Body.Fits.compact {depth : Nat → Option Nat} (h : b.Fits depth) :
    b.compact.1.Fits depth := by
  have hsame : carried (fun _ d e => d = e) depth = depth := by
    funext p
    exact b.alike_compact.carried_of_same fun d e => Iff.rfl
  rw [← hsame]
  exact b.alike_compact.fits h

theorem Body.compact_depths (b : Body) (r : Depths) :
    b.compact.1.depths = .ok r ↔ b.depths = .ok r := by
  have heq : ∀ r s, b.depths = .ok r → b.compact.1.depths = .ok s → r = s := by
    intro r s hr hs
    have hdepths : s.depths = r.depths := by
      apply List.ext_getElem?
      intro p
      rw [b.alike_compact.getElem?_depths hr hs (f := id) fun d e => eq_comm]
      simp
    have hle : s.maxStack ≤ r.maxStack :=
      b.alike_compact.maxStack_le (k := 0) hr hs fun p d e hd hl =>
        ⟨d, occurs_of_reaches hr hd, hl ▸ Nat.le_refl d⟩
    have hge : r.maxStack ≤ s.maxStack :=
      b.alike_compact.symm.maxStack_le (k := 0) hs hr fun p e d he hl =>
        ⟨e, occurs_of_reaches hs he, hl ▸ Nat.le_refl d⟩
    obtain ⟨rs, m⟩ := r
    obtain ⟨ss, n⟩ := s
    dsimp only at hdepths hle hge
    rw [hdepths, Nat.le_antisymm hle hge]
  constructor
  · intro hs
    obtain ⟨r', hr⟩ := b.alike_compact.symm.accepted ⟨r, hs⟩
    rw [hr, heq r' r hr hs]
  · intro hr
    obtain ⟨s, hs⟩ := b.alike_compact.accepted ⟨r, hr⟩
    rw [hs, heq r s hr hs]

end Compacting

/-- The depth analysis accepts a body after fusing exactly if it accepts it before. The depths are
then the same but for the second instruction of each fused pair, where two entries more lie on the
stack, and the largest depth grows by one at most. Short forms change neither the depths nor the
largest one. -/
theorem improvements_keep_depths (b : Body) (h : b.Straight) :
    ((∃ s, b.fuse.1.depths = .ok s) ↔ ∃ r, b.depths = .ok r)
      ∧ (∀ r s, b.depths = .ok r → b.fuse.1.depths = .ok s →
        (∀ p, ¬ b.Between p → s.depths[p]? = r.depths[p]?)
          ∧ (∀ p, b.Between p → s.depths[p]? = r.depths[p]?.map (Option.map (· + 2)))
          ∧ r.maxStack ≤ s.maxStack ∧ s.maxStack ≤ r.maxStack + 1)
      ∧ (¬ b.Between 0 ∧ ∀ p, b.Between (p + 1) ↔
        b.fuse.1.instrs[p]?.map Instr.opcode = some .dup
          ∧ b.instrs[p]?.map Instr.opcode ≠ some .dup)
      ∧ ∀ (c : Body) (r : Depths), c.compact.1.depths = .ok r ↔ c.depths = .ok r := by
  have halike := h.alike
  refine ⟨⟨halike.symm.accepted, halike.accepted⟩, ?_,
    ⟨b.not_between_zero, b.between_iff false⟩, Body.compact_depths⟩
  intro r s hr hs
  refine ⟨?_, ?_, h.maxStack_fuse hr hs⟩
  · intro p hp
    rw [halike.getElem?_depths hr hs (f := id) fun d e => Body.level_same hp]
    simp
  · intro p hp
    exact halike.getElem?_depths hr hs fun d e => Body.level_between hp

def storeLoop : Body where
  instrs := [⟨.ldcI4, .int32 5⟩, ⟨.stloc, .local 0⟩, ⟨.ldloc, .local 0⟩, ⟨.ldloc, .local 0⟩,
    ⟨.beq, .target 0⟩, ⟨.ret, .none⟩]
  handlers := []
  locals := [.signed 32]
  maxStack := 2

theorem storeLoop_keeps_depths :
    storeLoop.Straight ∧ storeLoop.Between 2 ∧ storeLoop.Between 3
      ∧ storeLoop.depths = .ok ⟨[some 0, some 1, some 0, some 1, some 2, some 0], 2⟩
      ∧ ∃ s, storeLoop.fuse.1.depths = .ok s ∧ s.depths[2]? = some (some 2)
        ∧ s.depths[3]? = some (some 3) ∧ s.depths[4]? = some (some 2) ∧ s.maxStack ≤ 3 := by
  have hstraight : storeLoop.Straight := by decide
  have hfirst : storeLoop.Fused 2 (.local 0) := .first rfl rfl rfl rfl (by decide)
  have hsecond : storeLoop.Fused 3 (.local 0) := .again hfirst rfl rfl (by decide)
  have hdepths : storeLoop.depths
      = .ok ⟨[some 0, some 1, some 0, some 1, some 2, some 0], 2⟩ := by
    cbv
  obtain ⟨hiff, hall, -, -⟩ := improvements_keep_depths storeLoop hstraight
  obtain ⟨s, hs⟩ := hiff.mpr ⟨_, hdepths⟩
  obtain ⟨hsame, hbetween, -, hmax⟩ := hall _ s hdepths hs
  have hfourth : ¬ storeLoop.Between 4 := by
    rintro ⟨x, hx⟩
    obtain ⟨i, hi, hl⟩ := hx.load
    obtain rfl := Option.some.inj hi
    cases hl
  exact ⟨hstraight, ⟨_, hfirst⟩, ⟨_, hsecond⟩, hdepths, s, hs, hbetween 2 ⟨_, hfirst⟩,
    hbetween 3 ⟨_, hsecond⟩, hsame 4 hfourth, hmax⟩

end StackCode.Machine
