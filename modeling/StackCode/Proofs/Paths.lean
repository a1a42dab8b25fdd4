import Mathlib.Data.List.Induction
import StackCode.Proofs.Nesting
import StackCode.Stream.Control

namespace StackCode

namespace Item

def isTryStart : Item → Bool
  | .tryStart => true
  | _ => false

def isHandlerStart : Item → Bool
  | .handlerStart _ => true
  | _ => false

def isHandlerEnd : Item → Bool
  | .handlerEnd => true
  | _ => false

theorem not_isHandlerStart {i : Item} (h : i.isTryStart = true) : i.isHandlerStart = false := by
  cases i <;> simp_all [isTryStart, isHandlerStart]

theorem not_isHandlerEnd {i : Item} (h : i.isHandlerStart = true) : i.isHandlerEnd = false := by
  cases i <;> simp_all [isHandlerStart, isHandlerEnd]

end Item

abbrev Protects : List Item → Nat → Nat → Prop := Matched Item.isTryStart Item.isHandlerStart

def LastAt (items : List Item) (l : Label) (p : Nat) : Prop :=
  items[p]? = some (.label l) ∧ ∀ q, p < q → items[q]? ≠ some (.label l)

inductive Follows (items : List Item) : Nat → Nat → Prop where
  | next {p : Nat} {i : Item} (hi : items[p]? = some i) (hf : i.fallsThrough = true)
      (hp : p + 1 < items.length) : Follows items p (p + 1)
  | jump {p q : Nat} {i : Item} {l : Label} (hi : items[p]? = some i) (hl : l ∈ i.targets)
      (hq : LastAt items l q) : Follows items p q

def Throws (items : List Item) (p h : Nat) : Prop :=
  ∃ start, Protects items start h ∧ start ≤ p ∧ p < h

/-- A path between positions, with the positions of the items that are run on it. -/
inductive Path (items : List Item) : Nat → List Nat → Nat → Prop where
  | nil (p : Nat) : Path items p [] p
  | run {p q r : Nat} {ps : List Nat} (hf : Follows items p q) (h : Path items q ps r) :
      Path items p (p :: ps) r
  | throwAfter {p q r : Nat} {ps : List Nat} (ht : Throws items p q) (h : Path items q ps r) :
      Path items p (p :: ps) r
  | throwBefore {p q r : Nat} {ps : List Nat} (ht : Throws items p q) (h : Path items q ps r) :
      Path items p ps r

theorem labelPositions_snoc (xs : List Item) (i : Item) :
    labelPositions (xs ++ [i]) =
      (match i with | .label l => [(l, xs.length)] | _ => []) ++ labelPositions xs := by
  cases i <;> simp [labelPositions, List.zipIdx_append, List.filterMap_append]

theorem lastAt_snoc {xs : List Item} {i : Item} {l : Label} {p : Nat} :
    LastAt (xs ++ [i]) l p ↔ i = .label l ∧ p = xs.length ∨ i ≠ .label l ∧ LastAt xs l p := by
  have hlast : (xs ++ [i])[xs.length]? = some i := by simp
  constructor
  · rintro ⟨hp, hq⟩
    by_cases hi : i = .label l
    · refine .inl ⟨hi, ?_⟩
      have h1 : ¬ p < xs.length := fun h => hq _ h (by rw [hlast, hi])
      have h2 := (List.getElem?_eq_some_iff.mp hp).1
      simp at h2
      omega
    · refine .inr ⟨hi, ?_, ?_⟩
      · by_cases h : p < xs.length
        · rwa [List.getElem?_append_left h] at hp
        · have h2 := (List.getElem?_eq_some_iff.mp hp).1
          have h3 : p = xs.length := by
            simp at h2
            omega
          rw [h3, hlast] at hp
          exact absurd (Option.some.inj hp) hi
      · intro q hpq h
        apply hq q hpq
        rw [List.getElem?_append_left (List.getElem?_eq_some_iff.mp h).1, h]
  · rintro (⟨rfl, rfl⟩ | ⟨hi, hp, hq⟩)
    · refine ⟨hlast, ?_⟩
      intro q hpq
      rw [List.getElem?_eq_none (by simp; omega)]
      simp
    · refine ⟨by rw [List.getElem?_append_left (List.getElem?_eq_some_iff.mp hp).1, hp], ?_⟩
      intro q hpq h
      by_cases hx : q < xs.length
      · rw [List.getElem?_append_left hx] at h
        exact hq q hpq h
      · have h2 := (List.getElem?_eq_some_iff.mp h).1
        have h3 : q = xs.length := by
          simp at h2
          omega
        rw [h3, hlast] at h
        exact hi (Option.some.inj h)

theorem lookup_labelPositions {items : List Item} {l : Label} {p : Nat} :
    (labelPositions items).lookup l = some p ↔ LastAt items l p := by
  induction items using List.reverseRecOn with
  | nil => simp [labelPositions, LastAt]
  | append_singleton xs i ih =>
    rw [lastAt_snoc, labelPositions_snoc, ← ih]
    by_cases hi : i = .label l
    · simp [hi, eq_comm]
    · cases i with
      | label m =>
        have hm : l ≠ m := fun h => hi (by rw [h])
        simp [List.lookup_cons, hm.symm, beq_eq_false_iff_ne.mpr hm]
      | _ => simp

theorem getElem?_of_drop {items rest : List Item} {i : Item} {n : Nat}
    (h : items.drop n = i :: rest) : items[n]? = some i ∧ items.drop (n + 1) = rest := by
  constructor
  · have := congrArg List.head? h
    rwa [List.head?_drop] at this
  · have := congrArg List.tail h
    rwa [List.tail_drop] at this

structure Scanned (items : List Item) (labels : List (Label × Nat)) (n : Nat)
    (regions : List Region) : Prop where
  sound : ∀ r ∈ regions, Protects items r.start r.handler
  complete : ∀ p i, n ≤ p → items[p]? = some i → i.isHandlerStart = true →
    ∃ r ∈ regions, r.handler = p
  placed : ∀ p i, n ≤ p → items[p]? = some i → ∀ l ∈ i.targets, (labels.lookup l).isSome = true

theorem Scanned.skip {items : List Item} {labels : List (Label × Nat)} {n : Nat} {i : Item}
    {regions : List Region} (h : Scanned items labels (n + 1) regions) (hi : items[n]? = some i)
    (hs : i.isHandlerStart = false) (ht : ∀ l ∈ i.targets, (labels.lookup l).isSome = true) :
    Scanned items labels n regions := by
  refine ⟨h.sound, ?_, ?_⟩
  · intro p j hp hj hjs
    rcases Nat.eq_or_lt_of_le hp with rfl | hp
    · rw [hi, Option.some.injEq] at hj
      rw [hj, hjs] at hs
      cases hs
    · exact h.complete p j hp hj hjs
  · intro p j hp hj
    rcases Nat.eq_or_lt_of_le hp with rfl | hp
    · rw [hi, Option.some.injEq] at hj
      rwa [← hj]
    · exact h.placed p j hp hj

theorem regionsFrom_scanned {items : List Item} {labels : List (Label × Nat)} {tries : List Nat}
    {n : Nat} {rest : List Item} {regions : List Region}
    (h : regionsFrom labels tries n rest = .ok regions) (hr : items.drop n = rest)
    (ho : Opened Item.isTryStart Item.isHandlerStart items n tries) :
    Scanned items labels n regions := by
  fun_induction regionsFrom labels tries n rest generalizing regions with
  | case1 tries n _ =>
    have hn := List.drop_eq_nil_iff.mp hr
    have hnone : ∀ p, n ≤ p → items[p]? = none :=
      fun p hp => List.getElem?_eq_none (Nat.le_trans hn hp)
    cases h
    exact ⟨by simp, fun p i hp hi => by simp [hnone p hp] at hi,
      fun p i hp hi => by simp [hnone p hp] at hi⟩
  | case2 => cases h
  | case3 tries n rest ih =>
    obtain ⟨hi, hr⟩ := getElem?_of_drop hr
    exact (ih h hr (ho.enter hi rfl)).skip hi rfl (by simp [Item.targets])
  | case4 => cases h
  | case5 => cases h
  | case6 n caught rest start tries found hx ih =>
    obtain ⟨hi, hr⟩ := getElem?_of_drop hr
    -- The innermost open range is the one of this handler.
    have hs := ih hx hr (ho.leave hi rfl)
    cases h
    refine ⟨?_, ?_, ?_⟩
    · intro r hr
      rcases List.mem_cons.mp hr with rfl | hr
      · exact ho.matched hi rfl
      · exact hs.sound r hr
    · intro p j hp hj hjs
      rcases Nat.eq_or_lt_of_le hp with rfl | hp
      · exact ⟨_, List.mem_cons_self, rfl⟩
      · obtain ⟨r, hr, hrp⟩ := hs.complete p j hp hj hjs
        exact ⟨r, List.mem_cons_of_mem _ hr, hrp⟩
    · intro p j hp hj l hl
      rcases Nat.eq_or_lt_of_le hp with rfl | hp
      · rw [hi, Option.some.injEq] at hj
        simp [← hj, Item.targets] at hl
      · exact hs.placed p j hp hj l hl
  | case7 => cases h
  | case8 tries n i rest htry hhandler hx ih =>
    obtain ⟨hi, hr⟩ := getElem?_of_drop hr
    have h1 : i.isTryStart = false := by cases i <;> simp_all [Item.isTryStart]
    have h2 : i.isHandlerStart = false := by cases i <;> simp_all [Item.isHandlerStart]
    refine (ih h hr (ho.pass hi h1 h2)).skip hi h2 ?_
    intro l hl
    simpa using List.find?_eq_none.mp hx l hl

theorem regionsFrom_append {labels : List (Label × Nat)} {xs : List Item}
    (h : Balanced Item.isTryStart Item.isHandlerStart xs)
    (hx : ∀ i ∈ xs, ∀ l ∈ i.targets, (labels.lookup l).isSome = true) {tries : List Nat}
    {rest : List Item} (hr : ∀ k, ∃ rs, regionsFrom labels tries k rest = .ok rs) (n : Nat) :
    ∃ rs, regionsFrom labels tries n (xs ++ rest) = .ok rs := by
  induction h generalizing tries n rest with
  | nil => exact hr n
  | @plain i ho hc =>
    obtain ⟨rs, hrs⟩ := hr (n + 1)
    have hplaced := hx i List.mem_cons_self
    have hf : i.targets.find? (fun l => (labels.lookup l).isNone) = none := by
      rw [List.find?_eq_none]
      intro l hl
      simp only [Option.isNone_iff_eq_none, ← Option.isSome_iff_ne_none, ← ne_eq, hplaced l hl]
    refine ⟨rs, ?_⟩
    cases i with
    | tryStart => cases ho
    | handlerStart _ => cases hc
    | _ => simpa [regionsFrom, hf] using hrs
  | @append xs ys _ _ ihx ihy =>
    rw [List.append_assoc]
    refine ihx (fun i hi => hx i (List.mem_append_left _ hi)) (fun k => ?_) n
    exact ihy (fun i hi => hx i (List.mem_append_right _ hi)) hr k
  | @wrap i j xs ho _ hc ih =>
    cases i with
    | tryStart =>
      cases j with
      | handlerStart caught =>
        have hr' : ∀ k, ∃ rs,
            regionsFrom labels (n :: tries) k (.handlerStart caught :: rest) = .ok rs := by
          intro k
          obtain ⟨rs, hrs⟩ := hr (k + 1)
          exact ⟨⟨n, k⟩ :: rs, by simp [regionsFrom, hrs]⟩
        simpa [regionsFrom] using ih (fun i hi => hx i (by simp [hi])) hr' (n + 1)
      | _ => cases hc
    | _ => cases ho

theorem Control.ofItems_total {items : List Item}
    (h : Balanced Item.isTryStart Item.isHandlerStart items)
    (hx : ∀ i ∈ items, ∀ l ∈ i.targets, ∃ p, LastAt items l p) :
    ∃ c, Control.ofItems items = .ok c := by
  have hx' : ∀ i ∈ items, ∀ l ∈ i.targets, ((labelPositions items).lookup l).isSome = true := by
    intro i hi l hl
    obtain ⟨p, hp⟩ := hx i hi l hl
    rw [lookup_labelPositions.mpr hp, Option.isSome_some]
  have hnil : ∀ k, ∃ rs, regionsFrom (labelPositions items) [] k [] = .ok rs :=
    fun _ => ⟨[], rfl⟩
  obtain ⟨rs, hrs⟩ := regionsFrom_append h hx' hnil 0
  rw [List.append_nil] at hrs
  exact ⟨⟨items, labelPositions items, rs⟩, by simp [Control.ofItems, hrs]⟩

theorem mem_regions_iff {items : List Item} {c : Control} (h : Control.ofItems items = .ok c)
    {start handler : Nat} :
    (⟨start, handler⟩ : Region) ∈ c.regions ↔ Protects items start handler := by
  unfold Control.ofItems at h
  dsimp only at h
  split at h
  · cases h
  · next regions hr =>
    cases h
    have hs := regionsFrom_scanned hr List.drop_zero .start
    refine ⟨hs.sound _, fun hm => ?_⟩
    obtain ⟨b, hb, hc⟩ := hm.closing
    obtain ⟨⟨start', handler'⟩, hr', rfl⟩ := hs.complete handler b (Nat.zero_le _) hb hc
    rwa [hm.unique (fun _ => Item.not_isHandlerStart) (hs.sound _ hr')]

theorem Control.ofItems_eq {items : List Item} {c : Control} (h : Control.ofItems items = .ok c) :
    c.items = items ∧ c.labels = labelPositions items := by
  unfold Control.ofItems at h
  dsimp only at h
  split at h
  · cases h
  · cases h
    exact ⟨rfl, rfl⟩

theorem mem_handlers_iff {items : List Item} {c : Control} (h : Control.ofItems items = .ok c)
    {p q : Nat} : q ∈ c.handlers p ↔ Throws items p q := by
  simp only [Control.handlers, List.mem_map, List.mem_filter, Region.covers, Bool.and_eq_true,
    decide_eq_true_eq]
  constructor
  · rintro ⟨⟨start, handler⟩, ⟨hm, hc⟩, rfl⟩
    exact ⟨start, (mem_regions_iff h).mp hm, hc⟩
  · rintro ⟨start, hm, hc⟩
    exact ⟨⟨start, q⟩, ⟨(mem_regions_iff h).mpr hm, hc⟩, rfl⟩

theorem mem_successors_iff {items : List Item} {c : Control} (h : Control.ofItems items = .ok c)
    {p q : Nat} {i : Item} (hi : items[p]? = some i) :
    q ∈ c.successors p i ↔ Follows items p q := by
  obtain ⟨hc, hl⟩ := Control.ofItems_eq h
  simp only [Control.successors, List.mem_append, List.mem_filterMap, hc, hl]
  constructor
  · rintro (⟨l, hm, hq⟩ | hq)
    · exact .jump hi hm (lookup_labelPositions.mp hq)
    · split at hq
      · next hf =>
        simp only [Bool.and_eq_true, decide_eq_true_eq] at hf
        rw [List.mem_singleton.mp hq]
        exact .next hi hf.1 hf.2
      · simp at hq
  · rintro (⟨hi', hf, hp⟩ | ⟨hi', hm, hq⟩)
    · rw [hi, Option.some.injEq] at hi'
      right
      simp [hi', hf, hp]
    · rw [hi, Option.some.injEq] at hi'
      left
      exact ⟨_, hi' ▸ hm, lookup_labelPositions.mpr hq⟩

end StackCode
