import Mathlib.Order.Bounds.Defs
import StackCode.Proofs.Depth

namespace StackCode.Machine

inductive Instr.Exchanges (i : Instr) (depth : Nat) : Nat → Nat → Prop where
  | fixed {pops pushes : Nat} : i.opcode.effect = .fixed pops pushes →
    i.Exchanges depth pops pushes
  | call {r : Ref} {arguments : Nat} {returns : Bool} : i.opcode.effect = .call →
    i.operand = .method r arguments returns → i.Exchanges depth arguments returns.toNat
  | newObject {r : Ref} {arguments : Nat} {returns : Bool} : i.opcode.effect = .newObject →
    i.operand = .method r arguments returns → i.Exchanges depth arguments 1
  | ret : i.opcode.effect = .ret → i.Exchanges depth depth 0
  | leave : i.opcode.effect = .leave → i.Exchanges depth depth 0

inductive Body.Reaches (b : Body) : Nat → Nat → Prop where
  | start : b.instrs ≠ [] → b.Reaches 0 0
  | handler {h : Handler} : h ∈ b.handlers → b.Reaches h.handlerStart 1
  | target {p d t pops pushes : Nat} {i : Instr} : b.Reaches p d → b.instrs[p]? = some i →
    i.Exchanges d pops pushes → pops ≤ d → t ∈ i.operand.branchTargets →
    b.Reaches t (d - pops + pushes)
  | next {p d pops pushes : Nat} {i : Instr} : b.Reaches p d → b.instrs[p]? = some i →
    i.Exchanges d pops pushes → pops ≤ d → i.opcode.endsFlow = false →
    b.Reaches (p + 1) (d - pops + pushes)

/-- The rules of the stack, for every reachable configuration. -/
structure Body.Disciplined (b : Body) : Prop where
  inside : ∀ p d, b.Reaches p d → p < b.instrs.length
  single : ∀ p d e, b.Reaches p d → b.Reaches p e → d = e
  enough : ∀ p d i pops pushes, b.Reaches p d → b.instrs[p]? = some i →
    i.Exchanges d pops pushes → pops ≤ d
  callee : ∀ p d i, b.Reaches p d → b.instrs[p]? = some i →
    i.opcode = .call ∨ i.opcode = .callvirt ∨ i.opcode = .newobj →
    ∃ r arguments returns, i.operand = .method r arguments returns
  result : ∀ p d i, b.Reaches p d → b.instrs[p]? = some i → i.opcode = .ret → d ≤ 1
  guarded : ∀ h ∈ b.handlers, ∀ d, b.Reaches h.tryStart d → d = 0

def Body.Occurs (b : Body) (n : Nat) : Prop :=
  ∃ p d i, b.Reaches p d ∧ b.instrs[p]? = some i
    ∧ (n = d ∨ ∃ pops pushes, i.Exchanges d pops pushes ∧ n = d - pops + pushes)

section Effects

variable {i : Instr} {p d after pops pushes : Nat}

theorem Opcode.effect_eq_call {op : Opcode} : op.effect = .call ↔ op = .call ∨ op = .callvirt := by
  cases op <;> simp [Opcode.effect]

theorem Opcode.effect_eq_newObject {op : Opcode} : op.effect = .newObject ↔ op = .newobj := by
  cases op <;> simp [Opcode.effect]

theorem Opcode.effect_eq_ret {op : Opcode} : op.effect = .ret ↔ op = .ret := by
  cases op <;> simp [Opcode.effect]

theorem Instr.Exchanges.unique (h : i.Exchanges d pops pushes) {pops' pushes' : Nat}
    (h' : i.Exchanges d pops' pushes') : pops = pops' ∧ pushes = pushes' := by
  cases h <;> cases h' <;> simp_all

theorem Instr.exchanges_of_depthAfter (h : i.depthAfter p d = .ok after) :
    ∃ pops pushes, i.Exchanges d pops pushes ∧ pops ≤ d ∧ after = d - pops + pushes := by
  rw [depthAfter] at h
  split at h
  · cases h
  · rename_i pops pushes hx
    split at h
    · cases h
    · refine ⟨pops, pushes, ?_, by omega, (Except.ok.inj h).symm⟩
      rw [exchange] at hx
      split at hx
      · cases hx
        exact .fixed ‹_›
      · split at hx
        · cases hx
          exact .call ‹_› ‹_›
        · cases hx
      · split at hx
        · cases hx
          exact .newObject ‹_› ‹_›
        · cases hx
      · split at hx
        · cases hx
        · cases hx
          exact .ret ‹_›
      · cases hx
        exact .leave ‹_›

theorem Instr.depthAfter_of_exchanges (h : i.Exchanges d pops pushes) (hd : pops ≤ d)
    (hr : i.opcode.effect = .ret → d ≤ 1) : i.depthAfter p d = .ok (d - pops + pushes) := by
  have hx : i.exchange p d = .ok (pops, pushes) := by
    cases h with
    | fixed he => simp [exchange, he]
    | call he ho => simp [exchange, he, ho]
    | newObject he ho => simp [exchange, he, ho]
    | ret he => simp [exchange, he, hr he]
    | leave he => simp [exchange, he]
  rw [depthAfter, hx]
  dsimp only
  rw [if_neg (by omega)]

theorem Instr.exists_exchanges
    (h : i.opcode = .call ∨ i.opcode = .callvirt ∨ i.opcode = .newobj →
      ∃ r arguments returns, i.operand = .method r arguments returns) :
    ∃ pops pushes, i.Exchanges d pops pushes := by
  cases he : i.opcode.effect with
  | fixed pops pushes => exact ⟨_, _, .fixed he⟩
  | call =>
    obtain ⟨r, arguments, returns, ho⟩ := h ((Opcode.effect_eq_call.mp he).imp_right .inl)
    exact ⟨_, _, .call he ho⟩
  | newObject =>
    obtain ⟨r, arguments, returns, ho⟩ := h (.inr (.inr (Opcode.effect_eq_newObject.mp he)))
    exact ⟨_, _, .newObject he ho⟩
  | ret => exact ⟨_, _, .ret he⟩
  | leave => exact ⟨_, _, .leave he⟩

theorem Instr.mem_successors {t : Nat} :
    t ∈ i.successors p ↔ i.opcode.endsFlow = false ∧ t = p + 1 ∨ t ∈ i.operand.branchTargets := by
  rw [successors, List.mem_append, List.mem_reverse]
  cases i.opcode.endsFlow <;> simp

end Effects

section Search

variable {b : Body} {sites found : Array Site} {pending : List (Nat × Nat)}

def Known (sites : Array Site) (p d : Nat) : Prop :=
  ∃ i, sites[p]? = some ⟨i, some d⟩

/-- Behind a known depth, control goes to known depths or to pending ones. -/
def Expanded (sites : Array Site) (pending : List (Nat × Nat)) : Prop :=
  ∀ (p : Nat) (i : Instr) (d : Nat), sites[p]? = some ⟨i, some d⟩ →
    ∃ after, i.depthAfter p d = .ok after
      ∧ ∀ q ∈ i.successors p, Known sites q after ∨ (q, after) ∈ pending

theorem Known.set {i : Instr} {p d q e : Nat} (hs : sites[p]? = some ⟨i, none⟩)
    (h : Known sites q e) : Known (sites.setIfInBounds p ⟨i, some d⟩) q e := by
  obtain ⟨j, hj⟩ := h
  have hne : p ≠ q := by
    rintro rfl
    rw [hs] at hj
    cases hj
  exact ⟨j, by rw [Array.getElem?_setIfInBounds, if_neg hne, hj]⟩

theorem known_set {i : Instr} {p d : Nat} (hs : sites[p]? = some ⟨i, none⟩) :
    Known (sites.setIfInBounds p ⟨i, some d⟩) p d := by
  obtain ⟨hp, -⟩ := Array.getElem?_eq_some_iff.mp hs
  exact ⟨i, by rw [Array.getElem?_setIfInBounds, if_pos rfl, if_pos hp]⟩

theorem Expanded.set {i : Instr} {p d after : Nat} (h : Expanded sites ((p, d) :: pending))
    (hs : sites[p]? = some ⟨i, none⟩) (ha : i.depthAfter p d = .ok after) :
    Expanded (sites.setIfInBounds p ⟨i, some d⟩)
      ((i.successors p).map (·, after) ++ pending) := by
  intro q j e hj
  rw [Array.getElem?_setIfInBounds] at hj
  split at hj
  · subst q
    split at hj
    · simp only [Option.some.injEq, Site.mk.injEq] at hj
      obtain ⟨rfl, rfl⟩ := hj
      refine ⟨after, ha, ?_⟩
      intro q hq
      exact .inr (List.mem_append_left _ (List.mem_map.mpr ⟨q, hq, rfl⟩))
    · cases hj
  · obtain ⟨after', ha', hq⟩ := h q j e hj
    refine ⟨after', ha', ?_⟩
    intro r hr
    rcases hq r hr with hk | hm
    · exact .inl (hk.set hs)
    · rcases List.mem_cons.mp hm with hm | hm
      · cases hm
        exact .inl (known_set hs)
      · exact .inr (List.mem_append_right _ hm)

theorem Expanded.drop {i : Instr} {p d : Nat} (h : Expanded sites ((p, d) :: pending))
    (hs : sites[p]? = some ⟨i, some d⟩) : Expanded sites pending := by
  intro q j e hj
  obtain ⟨after, ha, hq⟩ := h q j e hj
  refine ⟨after, ha, ?_⟩
  intro r hr
  rcases hq r hr with hk | hm
  · exact .inl hk
  · rcases List.mem_cons.mp hm with hm | hm
    · cases hm
      exact .inl ⟨i, hs⟩
    · exact .inr hm

theorem explore_expanded (h : explore sites pending = .ok found) (he : Expanded sites pending) :
    Expanded found [] ∧ (∀ p d, Known sites p d ∨ (p, d) ∈ pending → Known found p d)
      ∧ found.toList.map Site.instr = sites.toList.map Site.instr := by
  -- Of the rounds that do not fail, one meets a known depth and one finds a new one.
  fun_induction explore sites pending with
  | case1 sites =>
    cases h
    refine ⟨he, ?_, rfl⟩
    rintro p d (hk | hm)
    · exact hk
    · cases hm
  | case2 sites p d pending hs => cases h
  | case3 sites p pending i d hs ih =>
    obtain ⟨hx, hk, hi⟩ := ih h (he.drop hs)
    refine ⟨hx, ?_, hi⟩
    rintro q e (hq | hq)
    · exact hk q e (.inl hq)
    · rcases List.mem_cons.mp hq with hq | hq
      · cases hq
        exact hk p d (.inl ⟨i, hs⟩)
      · exact hk q e (.inr hq)
  | case4 sites p d pending i known hs hne => cases h
  | case5 sites p d pending i hs e hd => cases h
  | case6 sites p d pending i hs after ha ih =>
    obtain ⟨hx, hk, hi⟩ := ih h (he.set hs ha)
    refine ⟨hx, ?_, ?_⟩
    · rintro q e (hq | hq)
      · exact hk q e (.inl (hq.set hs))
      · rcases List.mem_cons.mp hq with hq | hq
        · cases hq
          exact hk p d (.inl (known_set hs))
        · exact hk q e (.inr (List.mem_append_right _ hq))
    · rw [hi, Array.toList_setIfInBounds, List.map_set]
      obtain ⟨hp, hsite⟩ := Array.getElem?_eq_some_iff.mp hs
      apply List.ext_getElem?
      intro q
      rw [List.getElem?_set]
      split
      · subst q
        simp [hp, hsite]
      · rfl

theorem Body.depths_found {r : Depths} (h : b.depths = .ok r) :
    ∃ sites : Array Site, (∀ p : Nat, b.instrs[p]? = sites[p]?.map Site.instr)
      ∧ Expanded sites [] ∧ (∀ p d, (p, d) ∈ b.starts → Known sites p d)
      ∧ b.handlers.findSome? (occupiedTry? sites) = none
      ∧ r = ⟨sites.toList.map Site.depth,
        (sites.toList.zipIdx.map fun (s, p) => s.peak p).foldl max 0⟩ := by
  rw [Body.depths] at h
  split at h
  · cases h
  · rename_i sites hs
    split at h
    · cases h
    · rename_i hfree
      have hfresh : Expanded (b.instrs.map fun i => (⟨i, none⟩ : Site)).toArray b.starts := by
        intro p i d hp
        simp at hp
      obtain ⟨hx, hk, hi⟩ := explore_expanded hs hfresh
      refine ⟨sites, ?_, hx, fun p d hm => hk p d (.inr hm), hfree, (Except.ok.inj h).symm⟩
      intro p
      rw [← Array.getElem?_toList, ← List.getElem?_map, hi]
      simp [Function.comp_def]

theorem Body.fits_of_depths {r : Depths} (h : b.depths = .ok r) :
    b.Fits fun p => r.depths[p]?.join := by
  obtain ⟨sites, hinstr, hx, hstart, hfree, rfl⟩ := depths_found h
  have hknown : ∀ p d, Known sites p d →
      p < b.instrs.length ∧ (sites.toList.map Site.depth)[p]?.join = some d := by
    rintro p d ⟨i, hp⟩
    refine ⟨?_, by simp [hp]⟩
    have hi := hinstr p
    rw [hp] at hi
    exact (List.getElem?_eq_some_iff.mp hi).1
  constructor
  · intro p i d hp hd
    simp only [List.getElem?_map, Array.getElem?_toList] at hd
    rw [hinstr] at hp
    obtain ⟨⟨j, e⟩, hsite, rfl⟩ := Option.map_eq_some_iff.mp hp
    rw [hsite] at hd
    obtain rfl : e = some d := hd
    obtain ⟨after, ha, hq⟩ := hx p j d hsite
    refine ⟨after, ha, ?_⟩
    intro q hs
    rcases hq q hs with hkq | hm
    · exact hknown q after hkq
    · cases hm
  · intro hne
    apply fun hm => (hknown 0 0 (hstart 0 0 hm)).2
    simp [Body.starts, hne]
  · intro k hmem
    apply hknown
    apply hstart
    exact List.mem_append_left _ (List.mem_reverse.mpr (List.mem_map.mpr ⟨k, hmem, rfl⟩))
  · intro k hmem d hd
    have hf := List.findSome?_eq_none_iff.mp hfree k hmem
    simp only [List.getElem?_map, Array.getElem?_toList] at hd
    cases d with
    | zero => rfl
    | succ d =>
      obtain ⟨⟨j, e⟩, hsite, rfl⟩ : ∃ s, sites[k.tryStart]? = some s ∧ s.depth = some (d + 1) := by
        simpa [Option.join_eq_some_iff] using hd
      simp [occupiedTry?, hsite] at hf

end Search

section Configurations

variable {b : Body} {depth : Nat → Option Nat}

theorem Body.Fits.reaches (h : b.Fits depth) {p d : Nat} (hr : b.Reaches p d) :
    p < b.instrs.length ∧ depth p = some d := by
  induction hr with
  | start hne => exact ⟨List.length_pos_iff.mpr hne, h.start hne⟩
  | handler hm => exact h.handler _ hm
  | @target p d t pops pushes i _ hi hx hle ht ih =>
    obtain ⟨after, ha, hq⟩ := h.step p i d hi ih.2
    obtain ⟨pops', pushes', hx', -, rfl⟩ := Instr.exchanges_of_depthAfter ha
    obtain ⟨rfl, rfl⟩ := hx.unique hx'
    exact hq t (Instr.mem_successors.mpr (.inr ht))
  | @next p d pops pushes i _ hi hx hle he ih =>
    obtain ⟨after, ha, hq⟩ := h.step p i d hi ih.2
    obtain ⟨pops', pushes', hx', -, rfl⟩ := Instr.exchanges_of_depthAfter ha
    obtain ⟨rfl, rfl⟩ := hx.unique hx'
    exact hq (p + 1) (Instr.mem_successors.mpr (.inl ⟨he, rfl⟩))

theorem Body.Fits.disciplined (h : b.Fits depth) : b.Disciplined := by
  constructor
  · intro p d hr
    exact (h.reaches hr).1
  · intro p d e hd he
    have hde := (h.reaches hd).2
    rw [(h.reaches he).2] at hde
    exact (Option.some.inj hde).symm
  · intro p d i pops pushes hr hi hx
    obtain ⟨after, ha, -⟩ := h.step p i d hi (h.reaches hr).2
    obtain ⟨pops', pushes', hx', hle, -⟩ := Instr.exchanges_of_depthAfter ha
    obtain ⟨rfl, -⟩ := hx.unique hx'
    exact hle
  · intro p d i hr hi ho
    obtain ⟨after, ha, -⟩ := h.step p i d hi (h.reaches hr).2
    obtain ⟨pops, pushes, hx, -, -⟩ := Instr.exchanges_of_depthAfter ha
    cases hx with
    | call _ hm => exact ⟨_, _, _, hm⟩
    | newObject _ hm => exact ⟨_, _, _, hm⟩
    | fixed he | ret he | leave he => rcases ho with ho | ho | ho <;> simp [ho, Opcode.effect] at he
  · intro p d i hr hi ho
    obtain ⟨after, ha, -⟩ := h.step p i d hi (h.reaches hr).2
    by_cases hd : d ≤ 1
    · exact hd
    · simp [Instr.depthAfter, Instr.exchange, ho, Opcode.effect, show 1 < d by omega] at ha
  · intro k hk d hr
    exact h.guarded k hk d (h.reaches hr).2

open Classical in
noncomputable def Body.reachedDepth (b : Body) (p : Nat) : Option Nat :=
  if h : ∃ d, b.Reaches p d then some h.choose else none

theorem Body.reaches_of_reachedDepth {p d : Nat} (h : b.reachedDepth p = some d) :
    b.Reaches p d := by
  rw [reachedDepth] at h
  split at h
  · rename_i hex
    rw [← Option.some.inj h]
    exact hex.choose_spec
  · cases h

theorem Body.Disciplined.reachedDepth_eq (h : b.Disciplined) {p d : Nat} (hr : b.Reaches p d) :
    b.reachedDepth p = some d := by
  have hex : ∃ d, b.Reaches p d := ⟨d, hr⟩
  rw [reachedDepth, dif_pos hex, h.single p _ _ hex.choose_spec hr]

theorem Body.Disciplined.fits (h : b.Disciplined) : b.Fits b.reachedDepth := by
  constructor
  · intro p i d hi hd
    have hr := reaches_of_reachedDepth hd
    obtain ⟨pops, pushes, hx⟩ := Instr.exists_exchanges (d := d) (h.callee p d i hr hi)
    have hle := h.enough p d i pops pushes hr hi hx
    refine ⟨d - pops + pushes, Instr.depthAfter_of_exchanges hx hle ?_, ?_⟩
    · intro he
      exact h.result p d i hr hi (Opcode.effect_eq_ret.mp he)
    · intro q hq
      have hr' : b.Reaches q (d - pops + pushes) := by
        rcases Instr.mem_successors.mp hq with ⟨he, rfl⟩ | ht
        · exact hr.next hi hx hle he
        · exact hr.target hi hx hle ht
      exact ⟨h.inside q _ hr', h.reachedDepth_eq hr'⟩
  · intro hne
    exact h.reachedDepth_eq (.start hne)
  · intro k hk
    have hr := Body.Reaches.handler hk
    exact ⟨h.inside _ _ hr, h.reachedDepth_eq hr⟩
  · intro k hk d hd
    exact h.guarded k hk d (reaches_of_reachedDepth hd)

theorem Body.reaches_iff {r : Depths} (h : b.depths = .ok r) (p d : Nat) :
    r.depths[p]? = some (some d) ↔ b.Reaches p d := by
  have hf := fits_of_depths h
  constructor
  · intro hd
    obtain ⟨r', hr', -, hall⟩ := hf.disciplined.fits.depths
    obtain rfl : r = r' := by rw [hr'] at h; exact (Except.ok.inj h).symm
    rcases hall p _ hd with hn | hs
    · cases hn
    · exact reaches_of_reachedDepth hs.symm
  · intro hr
    exact Option.join_eq_some_iff.mp (hf.reaches hr).2

theorem Site.peak_eq {s : Site} {p d after : Nat} (hs : s.depth = some d)
    (ha : s.instr.depthAfter p d = .ok after) : s.peak p = max d after := by
  rw [peak, hs]
  dsimp only
  rw [ha]

theorem le_foldl_max {ns : List Nat} {n : Nat} (h : n ∈ ns) : n ≤ ns.foldl max 0 := by
  rw [List.foldl_max]
  cases hm : ns.max? with
  | none => simp [List.max?_eq_none_iff.mp hm] at h
  | some m =>
    have := (List.max?_eq_some_iff.mp hm).2 n h
    rw [Option.getD_some]
    omega

theorem foldl_max_mem {ns : List Nat} (h : ns ≠ []) : ns.foldl max 0 ∈ ns := by
  obtain ⟨m, hm⟩ := Option.ne_none_iff_exists'.mp fun hn => h (List.max?_eq_none_iff.mp hn)
  rw [List.foldl_max, hm, Option.getD_some, Nat.zero_max]
  exact (List.max?_eq_some_iff.mp hm).1

theorem mem_peaks {sites : Array Site} {n : Nat} :
    n ∈ (sites.toList.zipIdx.map fun (s, p) => s.peak p) ↔
      ∃ (p : Nat) (s : Site), sites[p]? = some s ∧ s.peak p = n := by
  rw [List.mem_map]
  constructor
  · rintro ⟨⟨s, p⟩, hm, rfl⟩
    exact ⟨p, s, by simpa using List.mk_mem_zipIdx_iff_getElem?.mp hm, rfl⟩
  · rintro ⟨p, s, hs, rfl⟩
    exact ⟨(s, p), List.mk_mem_zipIdx_iff_getElem?.mpr (by simpa using hs), rfl⟩

theorem Body.maxStack_isGreatest {r : Depths} (h : b.depths = .ok r) (hne : b.instrs ≠ []) :
    IsGreatest {n | b.Occurs n} r.maxStack := by
  have hreach := reaches_iff h
  obtain ⟨sites, hinstr, hx, -, -, rfl⟩ := depths_found h
  -- a site is reached at the depth that it holds
  have hsite : ∀ (p d : Nat), b.Reaches p d ↔ Known sites p d := by
    intro p d
    rw [← hreach p d, List.getElem?_map, Array.getElem?_toList, Option.map_eq_some_iff]
    constructor
    · rintro ⟨⟨i, e⟩, hs, rfl⟩
      exact ⟨i, hs⟩
    · rintro ⟨i, hs⟩
      exact ⟨_, hs, rfl⟩
  constructor
  · have hpos : (sites.toList.zipIdx.map fun (s, p) => s.peak p) ≠ [] := by
      have hi := hinstr 0
      intro hnil
      rw [List.map_eq_nil_iff, List.zipIdx_eq_nil_iff, Array.toList_eq_nil_iff] at hnil
      rw [hnil] at hi
      exact hne (List.getElem?_eq_none_iff.mp hi |> Nat.le_zero.mp |> List.length_eq_zero_iff.mp)
    obtain ⟨p, ⟨i, e⟩, hs, hp⟩ := mem_peaks.mp (foldl_max_mem hpos)
    change b.Occurs (List.foldl max 0 _)
    rw [← hp]
    cases e with
    | none =>
      obtain ⟨j, hj⟩ := (hsite 0 0).mp (.start hne)
      have hi := hinstr 0
      rw [hj] at hi
      exact ⟨0, 0, j, .start hne, hi, .inl rfl⟩
    | some d =>
      obtain ⟨after, ha, -⟩ := hx p i d hs
      have hi := hinstr p
      rw [hs] at hi
      obtain ⟨pops, pushes, hex, -, rfl⟩ := Instr.exchanges_of_depthAfter ha
      refine ⟨p, d, i, (hsite p d).mpr ⟨i, hs⟩, hi, ?_⟩
      rw [Site.peak_eq rfl ha]
      rcases Nat.le_total d (d - pops + pushes) with hle | hle
      · exact .inr ⟨pops, pushes, hex, Nat.max_eq_right hle⟩
      · exact .inl (Nat.max_eq_left hle)
  · rintro n ⟨p, d, i, hr, hi, hn⟩
    obtain ⟨j, hs⟩ := (hsite p d).mp hr
    obtain rfl : i = j := by
      have := hinstr p
      rw [hi, hs] at this
      exact Option.some.inj this
    obtain ⟨after, ha, -⟩ := hx p i d hs
    apply Nat.le_trans _ (le_foldl_max (mem_peaks.mpr ⟨p, _, hs, Site.peak_eq rfl ha⟩))
    obtain ⟨pops, pushes, hex, -, rfl⟩ := Instr.exchanges_of_depthAfter ha
    rcases hn with rfl | ⟨pops', pushes', hex', rfl⟩
    · omega
    · obtain ⟨rfl, rfl⟩ := hex.unique hex'
      omega

end Configurations

section Rounds

inductive Round : Array Site × List (Nat × Nat) → Array Site × List (Nat × Nat) → Prop where
  | known {sites : Array Site} {p d : Nat} {i : Instr} {pending : List (Nat × Nat)} :
    sites[p]? = some ⟨i, some d⟩ → Round (sites, (p, d) :: pending) (sites, pending)
  | fresh {sites : Array Site} {p d after : Nat} {i : Instr} {pending : List (Nat × Nat)} :
    sites[p]? = some ⟨i, none⟩ → i.depthAfter p d = .ok after →
    Round (sites, (p, d) :: pending)
      (sites.setIfInBounds p ⟨i, some d⟩, (i.successors p).map (·, after) ++ pending)

def roundsLeft (s : Array Site × List (Nat × Nat)) : Nat :=
  weight Site.weight s.1.toList + s.2.length

variable {s t : Array Site × List (Nat × Nat)}

theorem Round.roundsLeft_lt (h : Round s t) : roundsLeft t < roundsLeft s := by
  cases h with
  | known hs => simp [roundsLeft]
  | @fresh sites p d after i pending hs ha =>
    have hw := weight_set Site.weight sites.toList p ⟨i, none⟩ ⟨i, some d⟩ (by simpa using hs)
    have hl := i.length_successors_lt p
    simp only [roundsLeft, Site.weight, Array.toList_setIfInBounds, List.length_append,
      List.length_map, List.length_cons] at hw ⊢
    omega

theorem Round.explore_eq (h : Round s t) : explore s.1 s.2 = explore t.1 t.2 := by
  cases h with
  | known hs =>
    rw [explore]
    split
    · simp_all
    · simp_all
    · simp_all
  | fresh hs ha =>
    rw [explore]
    split
    · simp_all
    · simp_all
    · simp_all

theorem length_le_roundsLeft {run : Nat → Array Site × List (Nat × Nat)} {n : Nat}
    (h : ∀ k < n, Round (run k) (run (k + 1))) :
    n + roundsLeft (run n) ≤ roundsLeft (run 0)
      ∧ explore (run n).1 (run n).2 = explore (run 0).1 (run 0).2 := by
  induction n with
  | zero => exact ⟨by omega, rfl⟩
  | succ n ih =>
    obtain ⟨hle, heq⟩ := ih fun k hk => h k (by omega)
    have hlast := h n (by omega)
    have hlt := hlast.roundsLeft_lt
    exact ⟨by omega, by rw [← heq, hlast.explore_eq]⟩

end Rounds

def Body.search (b : Body) : Array Site × List (Nat × Nat) :=
  ((b.instrs.map fun i => ⟨i, none⟩).toArray, b.starts)

/-- The depth analysis accepts exactly the bodies that keep to the rules of the stack, finds the
depth of every reachable position and the largest depth, and takes a bounded number of rounds. -/
theorem depths_exact (b : Body) :
    ((∃ r, b.depths = .ok r) ↔ b.Disciplined)
      ∧ (∀ r, b.depths = .ok r → r.depths.length = b.instrs.length
        ∧ (∀ p d, r.depths[p]? = some (some d) ↔ b.Reaches p d)
        ∧ (b.instrs = [] → r.maxStack = 0)
        ∧ (b.instrs ≠ [] → IsGreatest {n | b.Occurs n} r.maxStack))
      ∧ ∀ (run : Nat → Array Site × List (Nat × Nat)) (n : Nat), run 0 = b.search →
        (∀ k < n, Round (run k) (run (k + 1))) →
        n ≤ roundsLeft b.search
          ∧ explore (run n).1 (run n).2 = explore b.search.1 b.search.2 := by
  refine ⟨⟨?_, ?_⟩, ?_, ?_⟩
  · rintro ⟨r, hr⟩
    exact (Body.fits_of_depths hr).disciplined
  · intro h
    obtain ⟨r, hr, -⟩ := h.fits.depths
    exact ⟨r, hr⟩
  · intro r hr
    obtain ⟨sites, hinstr, -, -, -, hsites⟩ := Body.depths_found hr
    have hlen : sites.size = b.instrs.length := by
      have hmap : sites.toList.map Site.instr = b.instrs := by
        apply List.ext_getElem?
        intro p
        rw [hinstr, List.getElem?_map, Array.getElem?_toList]
      rw [← hmap, List.length_map, Array.length_toList]
    refine ⟨by simp [hsites, hlen], Body.reaches_iff hr, ?_, Body.maxStack_isGreatest hr⟩
    intro hnil
    rw [hnil, List.length_nil, Array.size_eq_zero_iff] at hlen
    simp [hsites, hlen]
  · intro run n h0 h
    obtain ⟨hle, heq⟩ := length_le_roundsLeft h
    rw [h0] at hle heq
    exact ⟨by omega, heq⟩

def guardedLoop : Body where
  instrs := [⟨.ldargAt 0, .none⟩, ⟨.ldargAt 1, .none⟩, ⟨.beq, .target 0⟩, ⟨.nop, .none⟩,
    ⟨.leave, .target 7⟩, ⟨.pop, .none⟩, ⟨.leave, .target 7⟩, ⟨.ret, .none⟩]
  handlers := [⟨3, 5, 5, 7, ⟨.type, 0⟩⟩]
  locals := []
  maxStack := 0

theorem guardedLoop_exact :
    guardedLoop.depths = .ok ⟨[some 0, some 1, some 2, some 0, some 0, some 1, some 0, some 0], 2⟩
      ∧ guardedLoop.Disciplined ∧ guardedLoop.Reaches 2 2
      ∧ IsGreatest {n | guardedLoop.Occurs n} 2 := by
  have h : guardedLoop.depths
      = .ok ⟨[some 0, some 1, some 2, some 0, some 0, some 1, some 0, some 0], 2⟩ := by
    cbv
  obtain ⟨hiff, hall, -⟩ := depths_exact guardedLoop
  obtain ⟨-, hreach, -, hmax⟩ := hall _ h
  exact ⟨h, hiff.mp ⟨_, h⟩, (hreach 2 2).mp rfl, hmax (by simp [guardedLoop])⟩

end StackCode.Machine
