import Mathlib.Data.List.TakeWhile
import Mathlib.Tactic.ByContra
import Mathlib.Tactic.SplitIfs
import StackCode.Check.Match
import StackCode.Proofs.Lists

/-!
What a match of directives against an output means. Each directive that asks for a line has a place
in the output, later ones further down, and the patterns that must be absent are so between two
places. A search takes the first line it can, which leaves the most lines for the searches after it;
so directives that only search are matched whenever they can be.
-/

namespace StackCode.Text

theorem occursIn_iff {pattern cs : List Char} : occursIn pattern cs = true ↔ pattern <:+: cs := by
  induction cs with
  | nil => simp [occursIn]
  | cons c cs ih =>
    rw [occursIn, Bool.or_eq_true, ih, List.isPrefixOf_iff_prefix, List.infix_cons_iff]

theorem trim_eq_nil_iff {cs : List Char} : trim cs = [] ↔ ∀ c ∈ cs, isBlank c = true := by
  have hright : ∀ ds : List Char, trimRight ds = [] ↔ ∀ c ∈ ds, isBlank c = true := by
    intro ds
    rw [trimRight, List.reverse_eq_nil_iff, List.dropWhile_eq_nil_iff]
    simp
  rw [trim, hright, trimLeft]
  constructor
  · intro h c hc
    rw [← List.takeWhile_append_dropWhile (p := isBlank) (l := cs)] at hc
    rcases List.mem_append.mp hc with hc | hc
    · exact List.mem_takeWhile_imp hc
    · exact h c hc
  · intro h c hc
    exact h c ((List.dropWhile_suffix isBlank).subset hc)

end StackCode.Text

namespace StackCode.Check

namespace Directive

def isPositive : Directive → Bool
  | .check _ | .label _ | .next _ | .blank => true
  | .absent _ | .comment _ => false

def isAdjacent : Directive → Bool
  | .next _ | .blank => true
  | _ => false

def isSearch : Directive → Bool
  | .check _ | .label _ | .comment _ => true
  | _ => false

def pattern? : Directive → Option String
  | .check p | .label p => some p
  | _ => none

def Fits (line : String) : Directive → Prop
  | .check p | .label p | .next p => p.toList <:+: line.toList
  | .blank => ∀ c ∈ line.toList, Text.isBlank c = true
  | _ => False

end Directive

abbrev Placing := List (Directive × Option Nat)

def places (ms : Placing) : List Nat :=
  ms.filterMap Prod.snd

def lineAfter (ns : List Nat) : Nat :=
  (ns.getLast?.map (· + 1)).getD 0

structure Ordered (lines : List String) (ms : Placing) : Prop where
  placed : ∀ m ∈ ms, m.2.isSome = m.1.isPositive
  /-- The end of the output counts as a blank line. -/
  fits : ∀ d n, (d, some n) ∈ ms →
    (∃ l, lines[n]? = some l ∧ d.Fits l) ∨ d = .blank ∧ n = lines.length
  increasing : (places ms).Pairwise fun m n => n < lines.length → m < n
  adjacent : ∀ xs d n ys, ms = xs ++ (d, some n) :: ys → d.isAdjacent = true →
    n = min lines.length (lineAfter (places xs))

structure Matching (lines : List String) (ms : Placing) : Prop extends Ordered lines ms where
  absent : ∀ xs p ys, ms = xs ++ (.absent p, none) :: ys →
    ∀ n l, (∀ m ∈ places xs, m < n) → (∀ m ∈ places ys, n < m) → lines[n]? = some l →
      ¬p.toList <:+: l.toList

theorem present?_eq_none_iff {forbidden lines : List String} :
    present? forbidden lines = none ↔ ∀ p ∈ forbidden, ∀ l ∈ lines, ¬p.toList <:+: l.toList := by
  simp [present?, occurs, ← Text.occursIn_iff]

theorem append_singleton_cases {α : Type} {ms xs ys : List α} {m x : α}
    (h : ms ++ [m] = xs ++ x :: ys) :
    (ms = xs ∧ m = x ∧ ys = []) ∨ ∃ zs, ys = zs ++ [m] ∧ ms = xs ++ x :: zs := by
  rcases List.eq_nil_or_concat ys with rfl | ⟨zs, z, rfl⟩
  · obtain ⟨hms, hm⟩ := List.append_inj' h rfl
    exact .inl ⟨hms, by simpa using hm, rfl⟩
  · rw [List.concat_eq_append, ← List.cons_append, ← List.append_assoc] at h
    obtain ⟨hms, hm⟩ := List.append_inj' h rfl
    exact .inr ⟨zs, by rw [hm, List.concat_eq_append], hms⟩

variable {lines : List String} {ms : Placing} {s t : Progress} {d : Directive} {n : Nat}

@[simp]
theorem places_append (xs ys : Placing) : places (xs ++ ys) = places xs ++ places ys :=
  List.filterMap_append

@[simp]
theorem places_none (d : Directive) : places [(d, none)] = [] := rfl

@[simp]
theorem places_some (d : Directive) (n : Nat) : places [(d, some n)] = [n] := rfl

/-- What holds after some directives. Patterns that must be absent are forbidden until the next
match, and settled by it. -/
structure Reached (lines : List String) (ms : Placing) (s : Progress) : Prop extends
    Ordered lines ms where
  settled : ∀ xs p ys, ms = xs ++ (.absent p, none) :: ys → places ys ≠ [] →
    ∀ n l, (∀ m ∈ places xs, m < n) → (∀ m ∈ places ys, n < m) → lines[n]? = some l →
      ¬p.toList <:+: l.toList
  forbidden : ∀ xs p ys, ms = xs ++ (.absent p, none) :: ys → places ys = [] → p ∈ s.forbidden
  position : s.position = min lines.length (lineAfter (places ms))
  before : s.position < lines.length → ∀ m ∈ places ms, m < s.position

theorem reached_nil (lines : List String) : Reached lines [] {} where
  placed := by simp
  fits := by simp
  increasing := List.Pairwise.nil
  adjacent := by simp
  settled := by simp
  forbidden := by simp
  position := by simp [places, lineAfter]
  before := by simp [places]

theorem lineAfter_append (ns : List Nat) (n : Nat) : lineAfter (ns ++ [n]) = n + 1 := by
  simp [lineAfter]

theorem lineAfter_le {ns : List Nat} (h : ∀ m ∈ ns, m < n) : lineAfter ns ≤ n := by
  unfold lineAfter
  cases hns : ns.getLast? with
  | none => exact Nat.zero_le n
  | some m => exact h m (List.mem_of_getLast? hns)

theorem Reached.position_le {xs ys : Placing} (h : Reached lines ms s)
    (heq : ms = xs ++ (d, none) :: ys) (hys : places ys = []) (hxs : ∀ m ∈ places xs, m < n) :
    s.position ≤ n := by
  have hplaces : places ms = places xs := by
    rw [heq, places_append, ← List.singleton_append, places_append, hys]
    simp
  rw [h.position, hplaces]
  exact (Nat.min_le_right _ _).trans (lineAfter_le hxs)

theorem Reached.skip (h : Reached lines ms s) (hd : d.isPositive = false)
    (hp : t.position = s.position) (hf : ∀ p ∈ s.forbidden, p ∈ t.forbidden)
    (habsent : ∀ p, d = .absent p → p ∈ t.forbidden) : Reached lines (ms ++ [(d, none)]) t where
  placed := by
    simp only [List.mem_append, List.mem_singleton]
    rintro m (hm | rfl)
    · exact h.placed m hm
    · exact hd.symm
  fits := by
    intro e n he
    exact h.fits e n (by simpa using he)
  increasing := by simpa using h.increasing
  adjacent := by
    intro xs e n ys heq he
    rcases append_singleton_cases heq with ⟨-, hne, -⟩ | ⟨zs, -, hms⟩
    · cases hne
    · exact h.adjacent xs e n zs hms he
  settled := by
    intro xs p ys heq hys
    rcases append_singleton_cases heq with ⟨-, -, rfl⟩ | ⟨zs, rfl, hms⟩
    · exact absurd rfl hys
    · simpa using h.settled xs p zs hms (by simpa using hys)
  forbidden := by
    intro xs p ys heq hys
    rcases append_singleton_cases heq with ⟨-, he, -⟩ | ⟨zs, rfl, hms⟩
    · exact habsent p (congrArg Prod.fst he)
    · exact hf p (h.forbidden xs p zs hms (by simpa using hys))
  position := by simpa [hp] using h.position
  before := by simpa [hp] using h.before

theorem Reached.place (h : Reached lines ms s) (hd : d.isPositive = true) (hn : s.position ≤ n)
    (hfits : (∃ l, lines[n]? = some l ∧ d.Fits l) ∨ d = .blank ∧ n = lines.length)
    (hadjacent : d.isAdjacent = true → n = s.position)
    (hclean : ∀ p ∈ s.forbidden, ∀ k l, s.position ≤ k → k < n → lines[k]? = some l →
      ¬p.toList <:+: l.toList)
    (ht : t.position = min lines.length (n + 1)) : Reached lines (ms ++ [(d, some n)]) t where
  placed := by
    simp only [List.mem_append, List.mem_singleton]
    rintro m (hm | rfl)
    · exact h.placed m hm
    · exact hd.symm
  fits := by
    intro e k he
    rcases List.mem_append.mp he with he | he
    · exact h.fits e k he
    · cases List.mem_singleton.mp he
      exact hfits
  increasing := by
    rw [places_append, places_some, List.pairwise_append]
    refine ⟨h.increasing, List.pairwise_singleton _ _, ?_⟩
    intro m hm k hk hlt
    obtain rfl := List.mem_singleton.mp hk
    exact (h.before (hn.trans_lt hlt) m hm).trans_le hn
  adjacent := by
    intro xs e k ys heq he
    rcases append_singleton_cases heq with ⟨rfl, hm, -⟩ | ⟨zs, -, hms⟩
    · cases hm
      rw [hadjacent he]
      exact h.position
    · exact h.adjacent xs e k zs hms he
  settled := by
    intro xs p ys heq hys k l hxs hk hl
    rcases append_singleton_cases heq with ⟨-, hm, -⟩ | ⟨zs, rfl, hms⟩
    · cases hm
    rw [places_append, places_some] at hk
    by_cases hzs : places zs = []
    · -- The pattern was forbidden up to this match.
      exact hclean p (h.forbidden xs p zs hms hzs) k l (h.position_le hms hzs hxs)
        (hk n (by simp)) hl
    · exact h.settled xs p zs hms hzs k l hxs (fun m hm => hk m (List.mem_append_left _ hm)) hl
  forbidden := by
    intro xs p ys heq hys
    rcases append_singleton_cases heq with ⟨-, hm, -⟩ | ⟨zs, rfl, hms⟩
    · cases hm
    · simp at hys
  position := by
    rw [ht, places_append, places_some, lineAfter_append]
  before := by
    intro hlt m hm
    rw [places_append, places_some, List.mem_append, List.mem_singleton] at hm
    rcases hm with hm | rfl
    · have := h.before (by omega) m hm
      omega
    · omega

theorem lt_of_getElem? {l : String} (h : lines[n]? = some l) : n < lines.length :=
  (List.getElem?_eq_some_iff.mp h).1

theorem search_eq_ok {isLabel : Bool} {p : String} (h : search lines s isLabel p = .ok t) :
    ∃ n, s.position ≤ n ∧ (∃ l, lines[n]? = some l ∧ p.toList <:+: l.toList)
      ∧ (∀ q ∈ s.forbidden, ∀ k l, s.position ≤ k → k < n → lines[k]? = some l →
        ¬q.toList <:+: l.toList)
      ∧ t = ⟨n + 1, []⟩ := by
  rw [search] at h
  split at h
  · cases h
  · next n hfind =>
    obtain ⟨hn, hp, -⟩ := List.findIdx?_eq_some_iff_getElem.mp hfind
    rw [pass] at h
    split at h
    · cases h
    · next hnone =>
      cases h
      refine ⟨s.position + n, Nat.le_add_right _ _, ⟨_, ?_, Text.occursIn_iff.mp hp⟩, ?_, rfl⟩
      · rw [← List.getElem?_drop, List.getElem?_eq_getElem hn]
      · intro q hq k l hle hlt hl
        refine present?_eq_none_iff.mp hnone q hq l (List.mem_iff_getElem?.mpr ⟨k - s.position, ?_⟩)
        rw [List.getElem?_take_of_lt (by omega), List.getElem?_drop, Nat.add_sub_cancel' hle, hl]

theorem search_of_occurs {p l : String} (hl : lines[n]? = some l) (hp : p.toList <:+: l.toList)
    (hn : s.position ≤ n) (hs : s.forbidden = []) (isLabel : Bool) :
    ∃ m ≤ n, search lines s isLabel p = .ok ⟨m + 1, []⟩ := by
  have hdrop : (lines.drop s.position)[n - s.position]? = some l := by
    rw [List.getElem?_drop, Nat.add_sub_cancel' hn, hl]
  obtain ⟨hlt, hget⟩ := List.getElem?_eq_some_iff.mp hdrop
  have hocc : occurs p (lines.drop s.position)[n - s.position] = true := by
    rw [hget]
    exact Text.occursIn_iff.mpr hp
  cases hfind : (lines.drop s.position).findIdx? (occurs p) with
  | none =>
    have := List.findIdx?_eq_none_iff.mp hfind _ (List.getElem_mem hlt)
    rw [hocc] at this
    cases this
  | some k =>
    obtain ⟨_, _, hfirst⟩ := List.findIdx?_eq_some_iff_getElem.mp hfind
    refine ⟨s.position + k, ?_, by simp [search, hfind, pass, present?, hs]⟩
    by_contra hk
    exact hfirst (n - s.position) (by omega) hocc

theorem Reached.step (h : Reached lines ms s) (hs : step lines s d = .ok t) :
    ∃ place, Reached lines (ms ++ [(d, place)]) t := by
  have hempty : ∀ q ∈ s.forbidden, ∀ k l, s.position ≤ k → k < s.position → lines[k]? = some l →
      ¬q.toList <:+: l.toList := by
    intro q _ k l hle hlt
    omega
  cases d with
  | comment c =>
    cases hs
    exact ⟨none, h.skip rfl rfl (fun _ hp => hp) (by simp)⟩
  | absent p =>
    cases hs
    exact ⟨none, h.skip rfl rfl (fun q hq => List.mem_append_left _ hq) (by simp)⟩
  | check p | label p =>
    obtain ⟨n, hn, hfits, hclean, rfl⟩ := search_eq_ok hs
    have hlt := lt_of_getElem? hfits.choose_spec.1
    exact ⟨some n, h.place rfl hn (.inl hfits) (by simp [Directive.isAdjacent]) hclean
      (by simp; omega)⟩
  | next p =>
    rw [Check.step] at hs
    split at hs
    · cases hs
    · next l hl =>
      split_ifs at hs with hp
      cases hs
      have hlt := lt_of_getElem? hl
      exact ⟨some s.position, h.place rfl le_rfl (.inl ⟨l, hl, Text.occursIn_iff.mp hp⟩)
        (fun _ => rfl) hempty (by simp; omega)⟩
  | blank =>
    rw [Check.step] at hs
    split at hs
    · next hnone =>
      cases hs
      have hend : s.position = lines.length := by
        have := List.getElem?_eq_none_iff.mp hnone
        have := h.position
        omega
      exact ⟨some s.position, h.place rfl le_rfl (.inr ⟨rfl, hend⟩) (fun _ => rfl) hempty
        (by simp; omega)⟩
    · next l hl =>
      split_ifs at hs with hp
      cases hs
      have hlt := lt_of_getElem? hl
      have hblank : ∀ c ∈ l.toList, Text.isBlank c = true :=
        Text.trim_eq_nil_iff.mp (List.isEmpty_iff.mp hp)
      exact ⟨some s.position, h.place rfl le_rfl (.inl ⟨l, hl, hblank⟩) (fun _ => rfl) hempty
        (by simp; omega)⟩

theorem Reached.steps {ds : List Directive} (h : Reached lines ms s)
    (hs : steps lines s ds = .ok t) :
    ∃ ns : Placing, ns.map Prod.fst = ds ∧ Reached lines (ms ++ ns) t := by
  induction ds generalizing ms s with
  | nil =>
    cases hs
    exact ⟨[], rfl, by simpa using h⟩
  | cons d ds ih =>
    rw [Check.steps] at hs
    split at hs
    · cases hs
    · next u hu =>
      obtain ⟨place, hplace⟩ := h.step hu
      obtain ⟨ns, hns, hr⟩ := ih hplace hs
      exact ⟨(d, place) :: ns, by simp [hns], by simpa using hr⟩

theorem Reached.matching (h : Reached lines ms s)
    (hs : present? s.forbidden (lines.drop s.position) = none) : Matching lines ms where
  toOrdered := h.toOrdered
  absent := by
    intro xs p ys heq n l hxs hys hl
    by_cases hplaces : places ys = []
    · have hle : s.position ≤ n := h.position_le heq hplaces hxs
      refine present?_eq_none_iff.mp hs p (h.forbidden xs p ys heq hplaces) l ?_
      rw [List.mem_iff_getElem?]
      exact ⟨n - s.position, by rw [List.getElem?_drop, Nat.add_sub_cancel' hle, hl]⟩
    · exact h.settled xs p ys heq hplaces n l hxs hys hl

theorem validate_eq_ok_iff {output : String} {ds : List Directive} :
    validate output ds = .ok () ↔ ∃ s, steps (Text.lines output) {} ds = .ok s
      ∧ present? s.forbidden ((Text.lines output).drop s.position) = none := by
  rw [validate]
  cases hs : steps (Text.lines output) {} ds with
  | error m => simp
  | ok s => cases hp : present? s.forbidden ((Text.lines output).drop s.position) <;> simp [hp]

theorem steps_of_searches {ds : List Directive} {ns : List Nat}
    (hds : ∀ d ∈ ds, d.isSearch = true) (hs : s.forbidden = [])
    (hns : ns.Pairwise (· < ·)) (hle : ∀ n ∈ ns, s.position ≤ n)
    (hp : List.Forall₂ (fun p n => ∃ l, lines[n]? = some l ∧ p.toList <:+: l.toList)
      (ds.filterMap Directive.pattern?) ns) :
    ∃ t, steps lines s ds = .ok t ∧ t.forbidden = [] := by
  induction ds generalizing s ns with
  | nil => exact ⟨s, rfl, hs⟩
  | cons d ds ih =>
    rw [List.forall_mem_cons] at hds
    obtain ⟨hd, hds⟩ := hds
    cases d with
    | comment c => exact ih hds hs hns hle hp
    | check p | label p =>
      cases hp with
      | @cons _ n _ ns hn hrest =>
        obtain ⟨l, hl, hpl⟩ := hn
        obtain ⟨hlt, hns⟩ := List.pairwise_cons.mp hns
        -- The line found is not below the given one, so the lines given to the others remain.
        obtain ⟨m, hm, hsearch⟩ := search_of_occurs hl hpl (hle n List.mem_cons_self) hs _
        obtain ⟨t, ht, hforbidden⟩ := ih (s := ⟨m + 1, []⟩) hds rfl hns
          (fun k hk => hm.trans_lt (hlt k hk)) hrest
        exact ⟨t, by rw [steps, step, hsearch]; exact ht, hforbidden⟩
    | next p => cases hd
    | absent p => cases hd
    | blank => cases hd

theorem Ordered.searches (h : Ordered lines ms) (hms : ∀ m ∈ ms, m.1.isSearch = true) :
    List.Forall₂ (fun p n => ∃ l, lines[n]? = some l ∧ p.toList <:+: l.toList)
      ((ms.map Prod.fst).filterMap Directive.pattern?) (places ms) := by
  have hentry : ∀ m ∈ ms, m.2.isSome = m.1.isPositive ∧ ∀ n, m.2 = some n →
      ∃ l, lines[n]? = some l ∧ m.1.Fits l := by
    rintro ⟨d, place⟩ hm
    refine ⟨h.placed _ hm, ?_⟩
    rintro n rfl
    rcases h.fits d n hm with hl | ⟨rfl, -⟩
    · exact hl
    · cases hms _ hm
  clear h
  induction ms with
  | nil => exact .nil
  | cons m ms ih =>
    rw [List.forall_mem_cons] at hms hentry
    obtain ⟨⟨hplaced, hfits⟩, hentry⟩ := hentry
    obtain ⟨d, place⟩ := m
    have hrest := ih hms.2 hentry
    cases d with
    | comment c =>
      obtain rfl : place = none := by simpa [Directive.isPositive] using hplaced
      exact hrest
    | check p | label p =>
      obtain ⟨n, rfl⟩ := Option.isSome_iff_exists.mp hplaced
      exact .cons (hfits n rfl) hrest
    | next p => cases hms.1
    | absent p => cases hms.1
    | blank => cases hms.1

/-- An output that is accepted matches the directives, and one that matches directives which only
search is accepted. -/
theorem validation_exact (output : String) (ds : List Directive) :
    (validate output ds = .ok () →
        ∃ ms : Placing, ms.map Prod.fst = ds ∧ Matching (Text.lines output) ms)
      ∧ ((∀ d ∈ ds, d.isSearch = true) →
        (validate output ds = .ok () ↔ ∃ ns : List Nat, ns.Pairwise (· < ·)
          ∧ List.Forall₂ (fun p n => ∃ l, (Text.lines output)[n]? = some l ∧ p.toList <:+: l.toList)
            (ds.filterMap Directive.pattern?) ns)) := by
  have hsound : validate output ds = .ok () →
      ∃ ms : Placing, ms.map Prod.fst = ds ∧ Matching (Text.lines output) ms := by
    intro h
    obtain ⟨s, hs, hrest⟩ := validate_eq_ok_iff.mp h
    obtain ⟨ms, hms, hr⟩ := (reached_nil (Text.lines output)).steps hs
    exact ⟨ms, hms, hr.matching hrest⟩
  refine ⟨hsound, fun hds => ⟨?_, ?_⟩⟩
  · intro h
    obtain ⟨ms, rfl, hm⟩ := hsound h
    have hsearches := hm.searches fun m hm => hds _ (List.mem_map_of_mem hm)
    refine ⟨places ms, ?_, hsearches⟩
    refine hm.increasing.imp_of_mem fun {m n} _ hn hlt => hlt ?_
    obtain ⟨p, -, l, hl, -⟩ := forall_of_forall₂ hsearches.flip hn
    exact lt_of_getElem? hl
  · rintro ⟨ns, hns, hp⟩
    obtain ⟨s, hs, hforbidden⟩ := steps_of_searches (s := {}) hds rfl hns (by simp) hp
    exact validate_eq_ok_iff.mpr ⟨s, hs, by simp [hforbidden, present?]⟩

def returnOutput : String :=
  "method test\n.maxstack 1\nIL_0000: ret\n"

theorem returnOutput_matched :
    (∃ ms : Placing, ms.map Prod.fst =
        [.label "method test", .absent "stloc", .check ".maxstack", .next "ret", .blank]
      ∧ Matching (Text.lines returnOutput) ms)
      ∧ ∃ ns : List Nat, ns.Pairwise (· < ·)
        ∧ List.Forall₂ (fun p n => ∃ l, (Text.lines returnOutput)[n]? = some l
          ∧ p.toList <:+: l.toList) ["method", "ret"] ns :=
  ⟨(validation_exact returnOutput _).1 rfl,
    ((validation_exact returnOutput [.label "method", .comment "the only code", .check "ret"]).2
      (by decide)).mp rfl⟩

end StackCode.Check
