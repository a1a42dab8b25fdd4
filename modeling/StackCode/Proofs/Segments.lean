import StackCode.Proofs.Paths

namespace StackCode

theorem Item.not_transfers {i : Item} (h : i.isMark = true) : i.transfers = false := by
  cases i <;> first | rfl | cases h

theorem Item.runs_on {i : Item} (h : i.transfers = false) :
    i.targets = [] ∧ i.fallsThrough = true := by
  cases i with
  | op j => exact ⟨rfl, by simpa [transfers, fallsThrough, opcode?] using h⟩
  | jump o l => cases h
  | switch ls => cases h
  | _ => exact ⟨rfl, rfl⟩

structure Segment.Runs (items : List Item) (s : Segment) : Prop where
  lt : s.start < s.stop
  marks : ∀ p i, s.start < p → p < s.stop → items[p]? = some i → i.isMark = false
  transfers : ∀ p i, s.start ≤ p → p + 1 < s.stop → items[p]? = some i → i.transfers = false

inductive Cuts (items : List Item) : Nat → List Segment → Prop where
  | nil : Cuts items items.length []
  | cons {a b : Nat} {rest : List Segment} (hs : Segment.Runs items ⟨a, b⟩)
      (h : Cuts items b rest) : Cuts items a (⟨a, b⟩ :: rest)

theorem cuts_segmentsFrom {items rest : List Item} {start n : Nat} (hr : items.drop n = rest)
    (hn : n ≤ items.length) (hle : start ≤ n)
    (hm : ∀ p i, start < p → p < n → items[p]? = some i → i.isMark = false)
    (ht : ∀ p i, start ≤ p → p < n → items[p]? = some i → i.transfers = false) :
    Cuts items start (segmentsFrom start n rest) := by
  fun_induction segmentsFrom start n rest with
  | case1 start n hlt =>
    obtain rfl : n = items.length := Nat.le_antisymm hn (List.drop_eq_nil_iff.mp hr)
    exact .cons ⟨hlt, hm, fun p i hp hq => ht p i hp (Nat.lt_of_succ_lt hq)⟩ .nil
  | case2 start n hlt =>
    obtain rfl : start = items.length := by
      have := List.drop_eq_nil_iff.mp hr
      omega
    exact .nil
  | case3 start n i rest hmark ih =>
    obtain ⟨hi, hr⟩ := getElem?_of_drop hr
    have hlen := (List.getElem?_eq_some_iff.mp hi).1
    simp only [Bool.and_eq_true, decide_eq_true_eq] at hmark
    refine .cons ⟨hmark.2, hm, fun p i hp hq => ht p i hp (Nat.lt_of_succ_lt hq)⟩ ?_
    refine ih hr hlen (Nat.le_succ n) (fun p j hp hq => by omega) ?_
    intro p j hp hq hj
    obtain rfl : p = n := by omega
    rw [hi, Option.some.injEq] at hj
    exact hj ▸ Item.not_transfers hmark.1
  | case4 start n i rest hmark htrans ih =>
    obtain ⟨hi, hr⟩ := getElem?_of_drop hr
    have hlen := (List.getElem?_eq_some_iff.mp hi).1
    refine .cons ⟨Nat.lt_succ_of_le hle, ?_, fun p j hp hq => ht p j hp (Nat.lt_of_succ_lt_succ hq)⟩
      (ih hr hlen (Nat.le_refl _) (fun p j hp hq => by omega) fun p j hp hq => by omega)
    intro p j hp hq hj
    rcases Nat.lt_or_eq_of_le (Nat.le_of_lt_succ hq) with hq | rfl
    · exact hm p j hp hq hj
    · rw [hi, Option.some.injEq] at hj
      subst hj
      rw [← Bool.not_eq_true]
      intro hmark
      rw [Item.not_transfers hmark] at htrans
      cases htrans
  | case5 start n i rest hmark htrans ih =>
    obtain ⟨hi, hr⟩ := getElem?_of_drop hr
    have hlen := (List.getElem?_eq_some_iff.mp hi).1
    refine ih hr hlen (Nat.le_succ_of_le hle) ?_ ?_
    · intro p j hp hq hj
      rcases Nat.lt_or_eq_of_le (Nat.le_of_lt_succ hq) with hq | rfl
      · exact hm p j hp hq hj
      · rw [hi, Option.some.injEq] at hj
        subst hj
        simpa [hp] using hmark
    · intro p j hp hq hj
      rcases Nat.lt_or_eq_of_le (Nat.le_of_lt_succ hq) with hq | rfl
      · exact ht p j hp hq hj
      · rw [hi, Option.some.injEq] at hj
        exact hj ▸ Bool.not_eq_true _ ▸ htrans

namespace Cuts

variable {items : List Item} {segments : List Segment} {a m n p : Nat} {s t : Segment}

theorem le_length (h : Cuts items a segments) : a ≤ items.length := by
  induction h with
  | nil => exact Nat.le_refl _
  | cons hs _ ih => exact Nat.le_trans (Nat.le_of_lt hs.lt) ih

theorem segment (h : Cuts items a segments) (hn : segments[n]? = some s) :
    s.Runs items ∧ a ≤ s.start ∧ s.stop ≤ items.length := by
  induction h generalizing n with
  | nil => cases hn
  | cons hs h ih =>
    cases n with
    | zero =>
      cases hn
      exact ⟨hs, Nat.le_refl _, h.le_length⟩
    | succ n =>
      obtain ⟨hr, ha, hl⟩ := ih hn
      exact ⟨hr, Nat.le_trans (Nat.le_of_lt hs.lt) ha, hl⟩

theorem cover (h : Cuts items a segments) (ha : a ≤ p) (hp : p < items.length) :
    ∃ (n : Nat) (s : Segment), segments[n]? = some s ∧ s.start ≤ p ∧ p < s.stop := by
  induction h with
  | nil => omega
  | @cons a b rest hs h ih =>
    by_cases hlt : p < b
    · exact ⟨0, ⟨a, b⟩, rfl, ha, hlt⟩
    · obtain ⟨n, t, hn, ht⟩ := ih (Nat.le_of_not_lt hlt)
      exact ⟨n + 1, t, hn, ht⟩

theorem first (h : Cuts items a segments) (hn : segments[0]? = some s) : s.start = a := by
  cases h with
  | nil => cases hn
  | cons =>
    cases hn
    rfl

theorem next (h : Cuts items a segments) (hn : segments[n]? = some s) (hs : s.stop < items.length) :
    ∃ t, segments[n + 1]? = some t ∧ t.start = s.stop := by
  induction h generalizing n with
  | nil => cases hn
  | cons _ h ih =>
    cases n with
    | zero =>
      cases hn
      cases h with
      | nil => exact absurd hs (Nat.lt_irrefl _)
      | cons => exact ⟨_, rfl, rfl⟩
    | succ n => exact ih hn

theorem unique (h : Cuts items a segments) (hn : segments[n]? = some s)
    (hm : segments[m]? = some t) (hst : s.start = t.start) : n = m := by
  induction h generalizing n m with
  | nil => cases hn
  | @cons a b rest hs h ih =>
    have hlt : a < b := hs.lt
    cases n with
    | zero =>
      cases m with
      | zero => rfl
      | succ m =>
        cases hn
        have := (h.segment hm).2.1
        dsimp only at hst
        omega
    | succ n =>
      cases m with
      | zero =>
        cases hm
        have := (h.segment hn).2.1
        dsimp only at hst
        omega
      | succ m => exact congrArg (· + 1) (ih hn hm)

theorem find_iff (h : Cuts items a segments) :
    segments.findIdx? (·.start = p) = some n ↔ ∃ s, segments[n]? = some s ∧ s.start = p := by
  constructor
  · intro hf
    obtain ⟨hlt, hp, -⟩ := List.findIdx?_eq_some_iff_getElem.mp hf
    exact ⟨segments[n], List.getElem?_eq_getElem hlt, by simpa using hp⟩
  · rintro ⟨s, hn, hp⟩
    obtain ⟨hlt, hget⟩ := List.getElem?_eq_some_iff.mp hn
    refine List.findIdx?_eq_some_iff_getElem.mpr ⟨hlt, by simp [hget, hp], ?_⟩
    intro m hm
    have hmlt : m < segments.length := Nat.lt_trans hm hlt
    simp only [decide_eq_true_eq]
    intro he
    have := h.unique hn (List.getElem?_eq_getElem hmlt) (hp.trans he.symm)
    omega

end Cuts

theorem cuts_segments (items : List Item) : Cuts items 0 (segmentsFrom 0 0 items) :=
  cuts_segmentsFrom List.drop_zero (Nat.zero_le _) (Nat.le_refl _) (fun p i hp hq => by omega)
    fun p i hp hq => by omega

section Edges

variable {items : List Item} {s : Segment} {n p q : Nat}

theorem start_of_mark {i : Item} (hi : items[q]? = some i) (hm : i.isMark = true) :
    ∃ (n : Nat) (s : Segment), (segmentsFrom 0 0 items)[n]? = some s ∧ s.start = q := by
  obtain ⟨n, s, hn, hle, hlt⟩ :=
    (cuts_segments items).cover (Nat.zero_le q) (List.getElem?_eq_some_iff.mp hi).1
  refine ⟨n, s, hn, Nat.le_antisymm hle (Nat.le_of_not_lt fun h => ?_)⟩
  have := ((cuts_segments items).segment hn).1.marks q i h hlt hi
  rw [hm] at this
  cases this

theorem start_of_throws (h : Throws items p q) :
    ∃ (n : Nat) (s : Segment), (segmentsFrom 0 0 items)[n]? = some s ∧ s.start = q := by
  obtain ⟨start, hm, -⟩ := h
  obtain ⟨b, hb, hc⟩ := hm.closing
  exact start_of_mark hb (by cases b <;> first | rfl | cases hc)

theorem start_of_follows (hn : (segmentsFrom 0 0 items)[n]? = some s)
    (h : Follows items (s.stop - 1) q) :
    ∃ (m : Nat) (t : Segment), (segmentsFrom 0 0 items)[m]? = some t ∧ t.start = q := by
  have hruns := ((cuts_segments items).segment hn).1
  cases h with
  | next hi hf hp =>
    have hlt := hruns.lt
    have hstop : s.stop - 1 + 1 = s.stop := by omega
    rw [hstop] at hp ⊢
    obtain ⟨t, ht, hs⟩ := (cuts_segments items).next hn hp
    exact ⟨n + 1, t, ht, hs⟩
  | jump hi hl hq => exact start_of_mark hq.1 rfl

theorem Segment.Runs.follows_iff (h : s.Runs items) (hs : s.start ≤ p) (hp : p + 1 < s.stop)
    (hlen : s.stop ≤ items.length) : Follows items p q ↔ q = p + 1 := by
  have hi := List.getElem?_eq_getElem (l := items) (i := p) (by omega)
  obtain ⟨htargets, hfalls⟩ := Item.runs_on (h.transfers p _ hs hp hi)
  constructor
  · intro hf
    cases hf with
    | next => rfl
    | jump hi' hl hq =>
      rw [hi, Option.some.injEq] at hi'
      rw [← hi', htargets] at hl
      cases hl
  · rintro rfl
    exact .next hi hfalls (by omega)

theorem Segment.Runs.throws_iff (h : s.Runs items) (hs : s.start ≤ p) (hp : p < s.stop) :
    Throws items p q ↔ Throws items s.start q := by
  have hmark : ∀ k i, items[k]? = some i → i.isMark = true → s.start < k → s.stop ≤ k := by
    intro k i hi hm hk
    refine Nat.le_of_not_lt fun hlt => ?_
    rw [h.marks k i hk hlt hi] at hm
    cases hm
  constructor
  · rintro ⟨start, hm, hle, hlt⟩
    obtain ⟨a, ha, hopen⟩ := hm.opening
    refine ⟨start, hm, Nat.le_of_not_lt fun hk => ?_, by omega⟩
    have := hmark start a ha (by cases a <;> first | rfl | cases hopen) hk
    omega
  · rintro ⟨start, hm, hle, hlt⟩
    obtain ⟨b, hb, hclose⟩ := hm.closing
    have := hmark q b hb (by cases b <;> first | rfl | cases hclose) hlt
    exact ⟨start, hm, by omega, by omega⟩

end Edges

section Layout

variable {items : List Item} {c : Control} (h : Control.ofItems items = .ok c) {m n : Nat}
  {s : Segment}

theorem getD_map {α β : Type} {f : α → List β} {xs : List α} {a : α} (ha : xs[n]? = some a) :
    (xs.map f).getD n [] = f a := by
  rw [List.getD_eq_getElem?_getD, List.getElem?_map, ha]
  rfl

theorem mem_numbers {positions : List Nat} :
    m ∈ positions.filterMap (fun p => (segmentsFrom 0 0 items).findIdx? (·.start = p)) ↔
      ∃ t, (segmentsFrom 0 0 items)[m]? = some t ∧ t.start ∈ positions := by
  simp only [List.mem_filterMap, (cuts_segments items).find_iff]
  constructor
  · rintro ⟨p, hp, t, ht, rfl⟩
    exact ⟨t, ht, hp⟩
  · rintro ⟨t, ht, hp⟩
    exact ⟨t.start, hp, t, ht, rfl⟩

include h in
theorem code_layout (hn : (segmentsFrom 0 0 items)[n]? = some s) :
    c.layout.code.getD n [] = slice items s.start s.stop := by
  rw [← (Control.ofItems_eq h).1] at hn ⊢
  exact getD_map hn

include h in
theorem length_layout : c.layout.code.length = (segmentsFrom 0 0 items).length := by
  rw [← (Control.ofItems_eq h).1]
  exact List.length_map _

include h in
theorem mem_layout_handlers (hn : (segmentsFrom 0 0 items)[n]? = some s) :
    m ∈ c.layout.handlers.getD n [] ↔
      ∃ t, (segmentsFrom 0 0 items)[m]? = some t ∧ Throws items s.start t.start := by
  have hc := (Control.ofItems_eq h).1
  have hlayout : c.layout.handlers.getD n [] = _ := getD_map (hc.symm ▸ hn)
  rw [hlayout, hc, mem_numbers]
  simp only [mem_handlers_iff h]

include h in
theorem mem_layout_successors (hn : (segmentsFrom 0 0 items)[n]? = some s) :
    m ∈ c.layout.successors.getD n [] ↔ ∃ t, (segmentsFrom 0 0 items)[m]? = some t
      ∧ (Throws items s.start t.start ∨ Follows items (s.stop - 1) t.start) := by
  have hc := (Control.ofItems_eq h).1
  have hlayout : c.layout.successors.getD n [] = _ := getD_map (hc.symm ▸ hn)
  obtain ⟨hruns, -, hlen⟩ := (cuts_segments items).segment hn
  have hlt := hruns.lt
  have hi := List.getElem?_eq_getElem (l := items) (i := s.stop - 1) (by omega)
  rw [hlayout, hc, mem_numbers]
  dsimp only
  rw [hi, Option.elim_some]
  simp only [List.mem_append, mem_handlers_iff h, mem_successors_iff h hi]

theorem mem_layout_predecessors (hn : n < c.layout.code.length) :
    m ∈ c.layout.predecessors.getD n [] ↔ n ∈ c.layout.successors.getD m [] := by
  have hlen : n < (segmentsFrom 0 0 c.items).length := by simpa [Control.layout] using hn
  have hsources : c.layout.predecessors.getD n [] =
      ((c.layout.successors.zipIdx.flatMap fun e => e.1.map (e.2, ·)).filter (·.2 = n)).map
        Prod.fst := by
    rw [List.getD_eq_getElem?_getD, Control.layout, sources, List.getElem?_map,
      List.getElem?_range hlen]
    rfl
  rw [hsources, List.getD_eq_getElem?_getD]
  simp only [List.mem_map, List.mem_filter, List.mem_flatMap, Prod.exists,
    List.mem_zipIdx_iff_getElem?, decide_eq_true_eq]
  constructor
  · rintro ⟨m', n', ⟨⟨ns, k, hk, j, hj, he⟩, rfl⟩, rfl⟩
    cases he
    rw [hk]
    exact hj
  · intro hm
    cases hs : c.layout.successors[m]? with
    | none =>
      rw [hs] at hm
      cases hm
    | some ns =>
      rw [hs] at hm
      exact ⟨m, n, ⟨⟨ns, m, hs, n, hm, rfl⟩, rfl⟩, rfl⟩

end Layout

end StackCode
