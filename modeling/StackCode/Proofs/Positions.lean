import Mathlib.Data.List.TakeWhile
import Mathlib.Tactic.SplitIfs
import StackCode.Proofs.Spelling

namespace StackCode.Source

inductive Region where
  | code
  | comment
  | string
  | escaped
deriving DecidableEq

namespace Region

def next : Region → Char → Region
  | .code, c => if c = '"' then .string else if c = ';' then .comment else .code
  | .comment, c => if c = '\n' then .code else .comment
  | .string, c => if c = '"' then .code else if c = '\\' then .escaped else .string
  | .escaped, _ => .string

def after (r : Region) (cs : List Char) : Region :=
  cs.foldl next r

def foldedFeeds (r : Region) : List Char → Nat
  | [] => 0
  | c :: cs => (if r = .escaped ∧ c = '\n' then 1 else 0) + (r.next c).foldedFeeds cs

end Region

structure Place where
  before : List Char
  found : Except Fault Token

namespace Place

def line (p : Place) : Nat := 1 + p.before.count '\n'

/-- The number of the line without the line feeds that belong to strings. -/
def countedLine (p : Place) : Nat := p.line - Region.code.foldedFeeds p.before

def report (p : Place) (line : Nat) : Except ParseError Lexeme :=
  match p.found with
  | .ok t => .ok ⟨t, line⟩
  | .error fault => .error ⟨line, fault⟩

def Stands (cs : List Char) (p : Place) : Prop :=
  ∃ c rest, cs = p.before ++ c :: rest ∧ startsToken c ∧ p.found = (token c rest).map Prod.fst

end Place

def placesFrom (before : List Char) : List Char → List Place
  | [] => []
  | c :: rest =>
    if c = '\n' || Text.isBlank c then placesFrom (before ++ [c]) rest
    else if c = ';' then
      placesFrom (before ++ c :: rest.takeWhile (· ≠ '\n')) (rest.dropWhile (· ≠ '\n'))
    else
      match _h : token c rest with
      | .error fault => [⟨before, .error fault⟩]
      | .ok (t, next) =>
        ⟨before, .ok t⟩ :: placesFrom (before ++ c :: rest.take (rest.length - next.length)) next
termination_by cs => cs.length
decreasing_by
  · simp
  · have := length_dropWhile_le (fun c => decide (c ≠ '\n')) rest
    simp at this ⊢
    omega
  · have := length_token_le c rest next _ _h
    simp
    omega

def places (cs : List Char) : List Place := placesFrom [] cs

namespace Region

variable {r : Region} {c : Char} {cs ds : List Char}

@[simp] theorem after_nil : r.after [] = r := rfl

@[simp] theorem after_cons : r.after (c :: cs) = (r.next c).after cs := rfl

theorem after_append : r.after (cs ++ ds) = (r.after cs).after ds :=
  List.foldl_append

theorem foldedFeeds_append :
    r.foldedFeeds (cs ++ ds) = r.foldedFeeds cs + (r.after cs).foldedFeeds ds := by
  induction cs generalizing r with
  | nil => simp [foldedFeeds]
  | cons c cs ih => simp only [List.cons_append, foldedFeeds, after_cons, ih, Nat.add_assoc]

theorem foldedFeeds_le (r : Region) (cs : List Char) : r.foldedFeeds cs ≤ cs.count '\n' := by
  induction cs generalizing r with
  | nil => simp [foldedFeeds]
  | cons c cs ih =>
    have := ih (r.next c)
    rw [foldedFeeds]
    by_cases hc : c = '\n'
    · subst hc
      rw [List.count_cons_self]
      split_ifs <;> omega
    · rw [List.count_cons_of_ne hc, if_neg (fun h => hc h.2)]
      omega

def Ordinary (c : Char) : Prop := c ≠ '"' ∧ c ≠ ';' ∧ c ≠ '\n'

theorem code_of_ordinary (h : ∀ c ∈ cs, Ordinary c) :
    code.after cs = .code ∧ code.foldedFeeds cs = 0 ∧ cs.count '\n' = 0 := by
  induction cs with
  | nil => exact ⟨rfl, rfl, rfl⟩
  | cons c cs ih =>
    rw [List.forall_mem_cons] at h
    obtain ⟨⟨hquote, hcomment, hfeed⟩, hcs⟩ := h
    have hc : code.next c = .code := by simp [next, hquote, hcomment]
    obtain ⟨hafter, hfolded, hcount⟩ := ih hcs
    refine ⟨?_, ?_, ?_⟩
    · rw [after_cons, hc, hafter]
    · simp [foldedFeeds, hc, hfolded]
    · rw [List.count_cons_of_ne hfeed, hcount]

theorem comment_of_note (h : '\n' ∉ cs) :
    comment.after cs = .comment ∧ comment.foldedFeeds cs = 0 := by
  induction cs with
  | nil => exact ⟨rfl, rfl⟩
  | cons c cs ih =>
    rw [List.mem_cons, not_or] at h
    have hc : comment.next c = .comment := by simp [next, Ne.symm h.1]
    obtain ⟨hafter, hfolded⟩ := ih h.2
    constructor
    · rw [after_cons, hc, hafter]
    · simp [foldedFeeds, hc, hfolded]

end Region

section Pieces

open Region (Ordinary)

variable {c : Char} {cs rest next : List Char} {t : Token}

/-- A part of a text that ends where code goes on, and whose line feeds are all folded. -/
structure Closes (r : Region) (own : List Char) : Prop where
  region : r.after own = .code
  feeds : r.foldedFeeds own = own.count '\n'

theorem closes_of_ordinary (h : ∀ d ∈ cs, Ordinary d) : Closes .code cs := by
  obtain ⟨hafter, hfolded, hcount⟩ := Region.code_of_ordinary h
  exact ⟨hafter, hfolded.trans hcount.symm⟩

theorem ordinary_of_isNameChar (h : isNameChar c = true) : Ordinary c := by
  refine ⟨?_, ?_, ?_⟩ <;> rintro rfl <;> exact absurd h (by decide)

theorem ne_backslash (hlast : c = '\\' → rest = [] → False)
    (hslash : ∀ d ds, c = '\\' → rest = d :: ds → False) : c ≠ '\\' := by
  intro hc
  cases rest with
  | nil => exact hlast hc rfl
  | cons d ds => exact hslash d ds hc rfl

theorem readString_closes {s : List Char} (h : readString cs = some (s, next)) :
    ∃ own, cs = own ++ next ∧ Closes .string own := by
  fun_induction readString cs generalizing s next with
  | case1 => cases h
  | case2 => cases h
  | case3 rest =>
    cases h
    exact ⟨['"'], rfl, rfl, rfl⟩
  | case4 => cases h
  | case5 c rest ih =>
    obtain ⟨⟨s', r'⟩, hread, he⟩ := Option.map_eq_some_iff.mp h
    cases he
    obtain ⟨own, rfl, hafter, hfeeds⟩ := ih hread
    refine ⟨'\\' :: c :: own, rfl, hafter, ?_⟩
    by_cases hc : c = '\n' <;>
      simp [Region.foldedFeeds, Region.next, hc, hfeeds, Nat.add_comm]
  | case6 c rest hfeed hquote hlast hslash ih =>
    obtain ⟨⟨s', r'⟩, hread, he⟩ := Option.map_eq_some_iff.mp h
    cases he
    have hc := ne_backslash hlast hslash
    obtain ⟨own, rfl, hafter, hfeeds⟩ := ih hread
    have hnext : Region.string.next c = .string := by
      simp only [Region.next, if_neg hc]
      exact if_neg hquote
    refine ⟨c :: own, rfl, ?_, ?_⟩
    · rw [Region.after_cons, hnext, hafter]
    · rw [Region.foldedFeeds, hnext, hfeeds, List.count_cons_of_ne hfeed]
      simp

theorem readNumber_ordinary (last : Char) (cs : List Char) :
    (readNumber last cs).1 ++ (readNumber last cs).2 = cs
      ∧ ∀ d ∈ (readNumber last cs).1, Ordinary d := by
  induction cs generalizing last with
  | nil => simp [readNumber]
  | cons c cs ih =>
    simp only [readNumber]
    split
    · rename_i hc
      refine ⟨by simp [ih c], ?_⟩
      simp only [List.forall_mem_cons]
      refine ⟨?_, (ih c).2⟩
      refine ⟨?_, ?_, ?_⟩ <;> rintro rfl <;> simp at hc
    · simp

theorem punct?_ordinary {p : Punct} (h : punct? c rest = some (p, next)) :
    ∃ own, rest = own ++ next ∧ ∀ d ∈ c :: own, Ordinary d := by
  unfold punct? at h
  split at h <;> cases h
  · exact ⟨[':'], rfl, by simp [Ordinary]⟩
  · exact ⟨['>'], rfl, by simp [Ordinary]⟩
  all_goals exact ⟨[], rfl, by simp [Ordinary]⟩

theorem token_closes (h : token c rest = .ok (t, next)) :
    ∃ own, rest = own ++ next ∧ Closes .code (c :: own) := by
  have hname : rest = rest.takeWhile isNameChar ++ rest.dropWhile isNameChar :=
    List.takeWhile_append_dropWhile.symm
  have hordinary : ∀ d ∈ rest.takeWhile isNameChar, Ordinary d := fun d hd =>
    ordinary_of_isNameChar (List.mem_takeWhile_imp hd)
  simp only [token] at h
  split at h
  · next make hsigil =>
    split_ifs at h
    cases h
    refine ⟨_, hname, closes_of_ordinary (List.forall_mem_cons.mpr ⟨?_, hordinary⟩)⟩
    refine ⟨?_, ?_, ?_⟩ <;> rintro rfl <;> cases hsigil
  · split_ifs at h with hquote hnumber hstart
    · split at h
      · next hread =>
        cases h
        obtain ⟨own, hrest, hafter, hfeeds⟩ := readString_closes hread
        subst hquote
        exact ⟨own, hrest, hafter, by simpa [Region.foldedFeeds, Region.next] using hfeeds⟩
      · cases h
    · split at h
      · cases h
        obtain ⟨hrest, hown⟩ := readNumber_ordinary c rest
        refine ⟨_, hrest.symm, closes_of_ordinary (List.forall_mem_cons.mpr ⟨?_, hown⟩)⟩
        refine ⟨?_, ?_, ?_⟩ <;> rintro rfl <;> simp [startsNumber] at hnumber
      · cases h
    · cases h
      have hc := ordinary_of_isNameChar (isNameChar_of_startsName hstart)
      exact ⟨_, hname, closes_of_ordinary (List.forall_mem_cons.mpr ⟨hc, hordinary⟩)⟩
    · split at h
      · next hpunct =>
        cases h
        obtain ⟨own, hrest, hown⟩ := punct?_ordinary hpunct
        exact ⟨own, hrest, closes_of_ordinary hown⟩
      · cases h

end Pieces

section Places

variable {c : Char} {before rest next : List Char} {t : Token} {n : Nat}

theorem placesFrom_blank (hc : c = '\n' ∨ Text.isBlank c = true) :
    placesFrom before (c :: rest) = placesFrom (before ++ [c]) rest := by
  rw [placesFrom, if_pos (by simpa using hc)]

theorem placesFrom_comment :
    placesFrom before (';' :: rest) =
      placesFrom (before ++ ';' :: rest.takeWhile (· ≠ '\n')) (rest.dropWhile (· ≠ '\n')) := by
  rw [placesFrom, if_neg (by decide), if_pos rfl]

theorem placesFrom_of_fault {fault : Fault} (hc : startsToken c)
    (ht : token c rest = .error fault) :
    placesFrom before (c :: rest) = [⟨before, .error fault⟩] := by
  obtain ⟨hfeed, hblank, hcomment⟩ := startsToken_iff.mp hc
  rw [placesFrom, if_neg (by simp [hfeed, hblank]), if_neg hcomment]
  split
  · next he =>
    rw [ht] at he
    cases he
    rfl
  · next he =>
    rw [ht] at he
    cases he

theorem placesFrom_of_token (hc : startsToken c) {own : List Char}
    (ht : token c (own ++ next) = .ok (t, next)) :
    placesFrom before (c :: (own ++ next))
      = ⟨before, .ok t⟩ :: placesFrom (before ++ c :: own) next := by
  obtain ⟨hfeed, hblank, hcomment⟩ := startsToken_iff.mp hc
  rw [placesFrom, if_neg (by simp [hfeed, hblank]), if_neg hcomment]
  split
  · next he =>
    rw [ht] at he
    cases he
  · next he =>
    rw [ht] at he
    cases he
    simp

inductive Resumes : Region → List Char → Prop
  | code (cs : List Char) : Resumes .code cs
  | last : Resumes .comment []
  | feed (rest : List Char) : Resumes .comment ('\n' :: rest)

structure Reached (before rest : List Char) (n : Nat) : Prop where
  resumes : Resumes (Region.code.after before) rest
  lines : n + Region.code.foldedFeeds before = 1 + before.count '\n'

theorem Reached.code (h : Reached before (c :: rest) n) (hc : c ≠ '\n') :
    Region.code.after before = .code := by
  have hresumes := h.resumes
  generalize Region.code.after before = r at hresumes
  cases hresumes with
  | code => rfl
  | feed => exact absurd rfl hc

theorem Reached.feed (h : Reached before ('\n' :: rest) n) :
    Reached (before ++ ['\n']) rest (n + 1) := by
  have hlines := h.lines
  have hregion : Region.code.after before = .code ∨ Region.code.after before = .comment := by
    have hresumes := h.resumes
    generalize Region.code.after before = r at hresumes
    cases hresumes <;> simp
  constructor
  · have : Region.code.after (before ++ ['\n']) = .code := by
      rcases hregion with hr | hr <;> rw [Region.after_append, hr] <;> rfl
    rw [this]
    exact .code rest
  · have : (Region.code.after before).foldedFeeds ['\n'] = 0 := by
      rcases hregion with hr | hr <;> rw [hr] <;> rfl
    rw [Region.foldedFeeds_append, this, List.count_append, List.count_singleton_self]
    omega

theorem Reached.closes {own : List Char} (h : Reached before (c :: (own ++ rest)) n) (hc : c ≠ '\n')
    (ho : Closes .code (c :: own)) : Reached (before ++ c :: own) rest n := by
  have hcode := h.code hc
  have hlines := h.lines
  constructor
  · rw [Region.after_append, hcode, ho.region]
    exact .code rest
  · rw [Region.foldedFeeds_append, hcode, ho.feeds, List.count_append]
    omega

theorem Reached.comment (h : Reached before (';' :: rest) n) :
    Reached (before ++ ';' :: rest.takeWhile (· ≠ '\n')) (rest.dropWhile (· ≠ '\n')) n := by
  have hcode := h.code (by decide)
  have hnote : '\n' ∉ rest.takeWhile (· ≠ '\n') := fun hm => by
    simpa using List.mem_takeWhile_imp hm
  obtain ⟨hafter, hfolded⟩ := Region.comment_of_note hnote
  constructor
  · have : Region.code.after (before ++ ';' :: rest.takeWhile (· ≠ '\n')) = .comment := by
      rw [Region.after_append, hcode]
      exact hafter
    rw [this]
    cases hdrop : rest.dropWhile (· ≠ '\n') with
    | nil => exact .last
    | cons d ds =>
      have hd := List.head?_dropWhile_not (fun c : Char => decide (c ≠ '\n')) rest
      rw [hdrop] at hd
      obtain rfl : d = '\n' := by simpa using hd
      exact .feed ds
  · have : Region.code.foldedFeeds (';' :: rest.takeWhile (· ≠ '\n')) = 0 := by
      simpa [Region.foldedFeeds, Region.next] using hfolded
    rw [Region.foldedFeeds_append, hcode, this, List.count_append,
      List.count_cons_of_ne (by decide), List.count_eq_zero_of_not_mem hnote]
    exact h.lines

theorem Reached.countedLine (h : Reached before rest n) (found : Except Fault Token) :
    (Place.mk before found).countedLine = n := by
  have := h.lines
  rw [Place.countedLine, Place.line]
  dsimp only
  omega

theorem lexFrom_places (h : Reached before rest n) :
    lexFrom n rest = (placesFrom before rest).mapM fun p => p.report p.countedLine := by
  -- A comment stops short of its line feed, so the region before the next step may be a comment.
  fun_induction lexFrom n rest generalizing before with
  | case1 line => rw [placesFrom]; rfl
  | case2 line rest ih =>
    rw [placesFrom_blank (.inl rfl)]
    exact ih h.feed
  | case3 line c rest hfeed hblank ih =>
    rw [placesFrom_blank (.inr hblank)]
    have hc : Region.Ordinary c := by
      refine ⟨?_, ?_, hfeed⟩ <;> rintro rfl <;> exact absurd hblank (by decide)
    have ho : Closes .code [c] := closes_of_ordinary (by simpa using hc)
    exact ih (h.closes hfeed ho)
  | case4 line rest hfeed hblank ih =>
    rw [placesFrom_comment]
    exact ih h.comment
  | case5 line c rest hfeed hblank hcomment fault ht =>
    have hc : startsToken c := startsToken_of_not hfeed hblank hcomment
    rw [placesFrom_of_fault hc ht, List.mapM_cons, Place.report, h.countedLine]
    rfl
  | case6 line c rest hfeed hblank hcomment t next ht fault hfault ih =>
    have hc : startsToken c := startsToken_of_not hfeed hblank hcomment
    obtain ⟨own, rfl, ho⟩ := token_closes ht
    rw [placesFrom_of_token hc ht, List.mapM_cons, Place.report, ← ih (h.closes hfeed ho), hfault]
    rfl
  | case7 line c rest hfeed hblank hcomment t next ht ts hts ih =>
    have hc : startsToken c := startsToken_of_not hfeed hblank hcomment
    obtain ⟨own, rfl, ho⟩ := token_closes ht
    rw [placesFrom_of_token hc ht, List.mapM_cons, Place.report, h.countedLine,
      ← ih (h.closes hfeed ho), hts]
    rfl

theorem before_of_mem {p : Place} (h : p ∈ placesFrom before rest) : before <+: p.before := by
  fun_induction placesFrom before rest with
  | case1 => cases h
  | case2 before c rest hblank ih => exact (List.prefix_append _ _).trans (ih h)
  | case3 before rest hblank ih => exact (List.prefix_append _ _).trans (ih h)
  | case4 before c rest hblank hcomment fault ht =>
    obtain rfl := List.mem_singleton.mp h
    exact List.prefix_rfl
  | case5 before c rest hblank hcomment t next ht ih =>
    rcases List.mem_cons.mp h with rfl | h
    · exact List.prefix_rfl
    · exact (List.prefix_append _ _).trans (ih h)

theorem stands_of_mem {p : Place} (h : p ∈ placesFrom before rest) : p.Stands (before ++ rest) := by
  fun_induction placesFrom before rest with
  | case1 => cases h
  | case2 before c rest hblank ih => simpa using ih h
  | case3 before rest hblank ih =>
    have := ih h
    rwa [List.append_assoc, List.cons_append, List.takeWhile_append_dropWhile] at this
  | case4 before c rest hblank hcomment fault ht =>
    obtain rfl := List.mem_singleton.mp h
    exact ⟨c, rest, rfl, startsToken_iff.mpr (by simp_all), by rw [ht]; rfl⟩
  | case5 before c rest hblank hcomment t next ht ih =>
    obtain ⟨own, rfl, -⟩ := token_closes ht
    rcases List.mem_cons.mp h with rfl | h
    · exact ⟨c, own ++ next, rfl, startsToken_iff.mpr (by simp_all), by rw [ht]; rfl⟩
    · simpa using ih h

theorem placesFrom_pairwise :
    (placesFrom before rest).Pairwise fun p q => (∃ t, p.found = .ok t)
      ∧ p.before <+: q.before := by
  fun_induction placesFrom before rest with
  | case1 => exact .nil
  | case2 before c rest hblank ih => exact ih
  | case3 before rest hblank ih => exact ih
  | case4 before c rest hblank hcomment fault ht => exact List.pairwise_singleton _ _
  | case5 before c rest hblank hcomment t next ht ih =>
    refine List.pairwise_cons.mpr ⟨fun q hq => ⟨⟨t, rfl⟩, ?_⟩, ih⟩
    exact (List.prefix_append _ _).trans (before_of_mem hq)

theorem foldedFeeds_mono {r : Region} {xs ys : List Char} (h : xs <+: ys) :
    r.foldedFeeds xs ≤ r.foldedFeeds ys := by
  obtain ⟨zs, rfl⟩ := h
  rw [Region.foldedFeeds_append]
  exact Nat.le_add_right _ _

theorem Place.countedLine_eq_iff {p : Place} :
    p.countedLine = p.line ↔ Region.code.foldedFeeds p.before = 0 := by
  have := Region.foldedFeeds_le .code p.before
  rw [Place.countedLine, Place.line]
  omega

theorem mapM_report_iff {ps : List Place} {l l' : Place → Nat}
    (h : ps.Pairwise fun p q => (∃ t, p.found = .ok t) ∧ (l q = l' q → l p = l' p)) :
    (ps.mapM fun p => p.report (l p)) = (ps.mapM fun p => p.report (l' p))
      ↔ ∀ p ∈ ps, l p = l' p := by
  induction ps with
  | nil => simp
  | cons p ps ih =>
    obtain ⟨hp, hps⟩ := List.pairwise_cons.mp h
    have ih := ih hps
    rw [List.forall_mem_cons, List.mapM_cons, List.mapM_cons, ← ih]
    cases hfound : p.found with
    | error fault =>
      obtain rfl : ps = [] := by
        rw [List.eq_nil_iff_forall_not_mem]
        intro q hq
        obtain ⟨t, ht⟩ := (hp q hq).1
        rw [hfound] at ht
        cases ht
      simp [Place.report, hfound]
    | ok t =>
      have hreport (n : Nat) : p.report n = .ok ⟨t, n⟩ := by rw [Place.report, hfound]
      have hlast (he : ps ≠ []) (hq : ∀ q ∈ ps, l q = l' q) : l p = l' p := by
        obtain ⟨q, hmem⟩ := List.exists_mem_of_ne_nil _ he
        exact (hp q hmem).2 (hq q hmem)
      rw [hreport, hreport]
      cases hf : ps.mapM fun p => p.report (l p) with
      | ok xs =>
        cases hg : ps.mapM fun p => p.report (l' p) with
        | ok ys => simp [bind, Except.bind, pure, Except.pure]
        | error e => simp [bind, Except.bind, pure, Except.pure]
      | error e =>
        have hne : ps ≠ [] := by
          rintro rfl
          cases hf
        rw [hf] at ih
        cases hg : ps.mapM fun p => p.report (l' p) with
        | ok ys => simp [bind, Except.bind, pure, Except.pure]
        | error e' =>
          rw [hg] at ih
          simp only [bind, Except.bind]
          exact ⟨fun he => ⟨hlast hne (ih.mp he), he⟩, fun he => he.2⟩

end Places

/-- Reading reports the tokens of a text in order, or its first fault. Their lines are those that
they stand on if and only if no string before them has a backslash right before a line feed. -/
theorem lines_right_iff (cs : List Char) :
    (∀ p ∈ places cs, p.Stands cs)
      ∧ lex cs = ((places cs).mapM fun p => p.report p.countedLine)
      ∧ (lex cs = ((places cs).mapM fun p => p.report p.line) ↔
        ∀ p ∈ places cs, Region.code.foldedFeeds p.before = 0) := by
  have hlex : lex cs = ((places cs).mapM fun p => p.report p.countedLine) :=
    lexFrom_places ⟨.code cs, rfl⟩
  refine ⟨fun p hp => stands_of_mem hp, hlex, ?_⟩
  rw [hlex, mapM_report_iff]
  · simp only [Place.countedLine_eq_iff]
  · refine placesFrom_pairwise.imp ?_
    rintro p q ⟨hfound, hbefore⟩
    refine ⟨hfound, ?_⟩
    rw [Place.countedLine_eq_iff, Place.countedLine_eq_iff]
    have := foldedFeeds_mono (r := .code) hbefore
    omega

def notedString : List Char :=
  "method m \x7b ; a \"note\\\n  \"one\\n\\\\\"\n  %x ^".toList

theorem notedString_right :
    lex notedString = .error ⟨3, .noName '^'⟩
      ∧ lex notedString = ((places notedString).mapM fun p => p.report p.line) := by
  have h := (lines_right_iff notedString).2.2.mpr (by decide +kernel)
  exact ⟨by decide +kernel, h⟩

def twoLineString : List Char :=
  "method m \x7b\nentry:\n    %s = const class System.String \"a\\\nb\"\n    @\n\x7d\n".toList

theorem twoLineString_miscounted :
    lex twoLineString = .error ⟨4, .badCharacter '@'⟩
      ∧ ((places twoLineString).mapM fun p => p.report p.line) = .error ⟨5, .badCharacter '@'⟩
      ∧ ¬∀ cs, lex cs = ((places cs).mapM fun p => p.report p.line) := by
  have hlex : lex twoLineString = .error ⟨4, .badCharacter '@'⟩ := by decide +kernel
  have hplaces : ((places twoLineString).mapM fun p => p.report p.line) =
      .error ⟨5, .badCharacter '@'⟩ := by decide +kernel
  refine ⟨hlex, hplaces, fun h => ?_⟩
  have := hlex.symm.trans ((h twoLineString).trans hplaces)
  simp at this

end StackCode.Source
