import Mathlib.Data.List.DropRight
import Mathlib.Data.List.TakeWhile
import Mathlib.Tactic.ByContra
import Mathlib.Tactic.SplitIfs
import StackCode.Check.Spec
import StackCode.Proofs.Positions
import StackCode.Source.Parser

/-!
Directives are no part of the program they stand beside. Tokens do not reach beyond their line,
except for strings with a backslash right before the end of a line; so a text is read line by line,
and a line with a directive is a comment, which reads like the empty line that takes its place.
-/

namespace StackCode.Source

inductive LineEnd : List Char → List Char → Prop where
  | feed (rest : List Char) : LineEnd ('\n' :: rest) rest
  | pair (rest : List Char) : LineEnd ('\r' :: '\n' :: rest) rest

def atLineEnd : List Char → Bool
  | '\n' :: _ | '\r' :: '\n' :: _ => true
  | _ => false

/-- Whether no backslash stands right before the end of a line in a string, whose opening quote has
been read. A backslash that is escaped itself does not count. -/
def unbrokenString : List Char → Bool
  | [] | '\n' :: _ | '"' :: _ | ['\\'] => true
  | '\\' :: c :: rest => !atLineEnd (c :: rest) && unbrokenString rest
  | _ :: rest => unbrokenString rest

def unbrokenStrings : List Char → Bool
  | [] => true
  | c :: rest =>
    if c = '\n' || Text.isBlank c then unbrokenStrings rest
    else if c = ';' then unbrokenStrings (rest.dropWhile (· ≠ '\n'))
    else
      (c ≠ '"' || unbrokenString rest) &&
        match _h : token c rest with
        | .error _ => true
        | .ok (_, next) => unbrokenStrings next
termination_by cs => cs.length
decreasing_by
  · simp
  · have := length_dropWhile_le (fun c => decide (c ≠ '\n')) rest
    simp at this ⊢
    omega
  · have := length_token_le c rest next _ _h
    simp
    omega

section Ends

variable {c : Char} {cs e e' r r' : List Char}

theorem LineEnd.head (h : LineEnd e r) : ∃ d ds, e = d :: ds ∧ (d = '\n' ∨ d = '\r') := by
  cases h <;> simp

theorem LineEnd.takeWhile_append {p : Char → Bool} (h : LineEnd e r) (hfeed : p '\n' = false)
    (hreturn : p '\r' = false) (cs : List Char) :
    (cs ++ e).takeWhile p = cs.takeWhile p ∧ (cs ++ e).dropWhile p = cs.dropWhile p ++ e := by
  induction cs with
  | nil =>
    obtain ⟨d, ds, rfl, rfl | rfl⟩ := h.head <;> simp [hfeed, hreturn]
  | cons c cs ih =>
    by_cases hc : p c = true <;> simp [hc, ih]

theorem LineEnd.readNumber_append (h : LineEnd e r) (last : Char) (cs : List Char) :
    readNumber last (cs ++ e) = ((readNumber last cs).1, (readNumber last cs).2 ++ e) := by
  induction cs generalizing last with
  | nil =>
    obtain ⟨d, ds, rfl, rfl | rfl⟩ := h.head <;> simp [readNumber]
  | cons c cs ih =>
    simp only [List.cons_append, readNumber]
    split
    · simp [ih]
    · rfl

theorem LineEnd.startsNumber_append (h : LineEnd e r) (c : Char) (cs : List Char) :
    startsNumber c (cs ++ e) = startsNumber c cs := by
  cases cs with
  | nil =>
    obtain ⟨d, ds, rfl, rfl | rfl⟩ := h.head <;> simp [startsNumber]
  | cons d cs => rfl

theorem LineEnd.punct?_append (h : LineEnd e r) (c : Char) (cs : List Char) :
    punct? c (cs ++ e) = (punct? c cs).map (Prod.map id (· ++ e)) := by
  cases cs with
  | nil =>
    obtain ⟨d, ds, rfl, rfl | rfl⟩ := h.head <;>
      (rw [List.nil_append]; unfold punct?; split <;> simp_all)
  | cons d cs =>
    rw [List.cons_append]
    unfold punct?
    split <;> simp_all

theorem LineEnd.readString_append (he : LineEnd e r) (he' : LineEnd e' r') (hcs : '\n' ∉ cs)
    (hu : unbrokenString (cs ++ e) = true) :
    readString (cs ++ e') = (readString cs).map (Prod.map id (· ++ e')) := by
  fun_induction readString cs with
  | case1 => cases he' <;> simp [readString]
  | case2 rest => simp at hcs
  | case3 rest => simp [readString]
  | case4 => cases he <;> simp [unbrokenString, atLineEnd] at hu
  | case5 c rest ih =>
    simp only [List.cons_append, unbrokenString, Bool.and_eq_true] at hu
    simp only [List.mem_cons, not_or] at hcs
    simp only [List.cons_append, readString, ih hcs.2.2 hu.2, Option.map_map]
    rfl
  | case6 c rest hfeed hquote hlast hslash ih =>
    simp only [List.mem_cons, not_or] at hcs
    have hc := ne_backslash hlast hslash
    rw [List.cons_append, unbrokenString] at hu
    · rw [List.cons_append, readString, ih hcs.2 hu, Option.map_map, Option.map_map]
      · rfl
      all_goals simp_all
    all_goals simp_all

theorem LineEnd.token_append (he : LineEnd e r) (he' : LineEnd e' r') (hcs : '\n' ∉ cs)
    (hu : c = '"' → unbrokenString (cs ++ e) = true) :
    token c (cs ++ e') = (token c cs).map (Prod.map id (· ++ e')) := by
  obtain ⟨htake, hdrop⟩ := he'.takeWhile_append (p := isNameChar) (by decide) (by decide) cs
  simp only [token, htake, hdrop, he'.startsNumber_append, he'.readNumber_append, he'.punct?_append]
  split
  · split_ifs <;> rfl
  · split_ifs with hquote
    · rw [he.readString_append he' hcs (hu hquote)]
      cases readString cs <;> rfl
    · cases number? (c :: (readNumber c cs).1) <;> rfl
    · rfl
    · cases punct? c cs <;> rfl

theorem token_suffix {t : Token} (h : token c cs = .ok (t, r)) : r <:+ cs := by
  obtain ⟨own, rfl, -⟩ := token_closes h
  exact List.suffix_append own r

end Ends

section Lines

variable {n : Nat} {c : Char} {rest next l e e' r r' : List Char} {t : Token} {ts : List Lexeme}

theorem lexFrom_of_fault {fault : Fault} (hc : startsToken c) (ht : token c rest = .error fault) :
    lexFrom n (c :: rest) = .error ⟨n, fault⟩ := by
  obtain ⟨hfeed, hblank, hcomment⟩ := startsToken_iff.mp hc
  rw [lexFrom, if_neg hfeed, if_neg (by simp [hblank]), if_neg hcomment]
  split
  · next he =>
    rw [ht] at he
    cases he
    rfl
  · next he =>
    rw [ht] at he
    cases he

theorem unbrokenStrings_of_token (hc : startsToken c) (h : unbrokenStrings (c :: rest) = true) :
    (c = '"' → unbrokenString rest = true) ∧
      ∀ t next, token c rest = .ok (t, next) → unbrokenStrings next = true := by
  obtain ⟨hfeed, hblank, hcomment⟩ := startsToken_iff.mp hc
  rw [unbrokenStrings, if_neg (by simp [hfeed, hblank]), if_neg hcomment, Bool.and_eq_true] at h
  refine ⟨fun hquote => by simpa [hquote] using h.1, fun t next ht => ?_⟩
  have hnext := h.2
  split at hnext
  · next he =>
    rw [ht] at he
    cases he
  · next he =>
    rw [ht] at he
    cases he
    exact hnext

theorem lexFrom_lineEnd (h : LineEnd e r) (n : Nat) : lexFrom n e = lexFrom (n + 1) r := by
  cases h with
  | feed => exact lexFrom_newline r
  | pair => rw [lexFrom, if_neg (by decide), if_pos (by decide), lexFrom_newline]

theorem unbrokenStrings_lineEnd (h : LineEnd e r) : unbrokenStrings e = unbrokenStrings r := by
  cases h with
  | feed => rw [unbrokenStrings, if_pos (by decide)]
  | pair =>
    rw [unbrokenStrings, if_pos (by decide), unbrokenStrings, if_pos (by decide)]

theorem LineEnd.dropWhile_append (h : LineEnd e r) (hl : '\n' ∉ l) :
    (l ++ e).dropWhile (· ≠ '\n') = '\n' :: r := by
  rw [List.dropWhile_append_of_pos (fun c hc => by simpa using ne_of_mem_of_not_mem hc hl)]
  cases h <;> simp

theorem dropWhile_of_line (hl : '\n' ∉ l) : l.dropWhile (· ≠ '\n') = [] :=
  List.dropWhile_eq_nil_iff.mpr (fun c hc => by simpa using ne_of_mem_of_not_mem hc hl)

theorem LineEnd.next_line (he : LineEnd e r) (he' : LineEnd e' r') (hl : '\n' ∉ c :: rest)
    (hc : startsToken c) (hu : unbrokenStrings (c :: rest ++ e) = true)
    (ht : token c rest = .ok (t, next)) :
    token c (rest ++ e') = .ok (t, next ++ e') ∧ '\n' ∉ next
      ∧ unbrokenStrings (next ++ e) = true := by
  have hrest := List.not_mem_of_not_mem_cons hl
  obtain ⟨hquote, hnext⟩ := unbrokenStrings_of_token hc hu
  have htoken : ∀ {f q}, LineEnd f q → token c (rest ++ f) = .ok (t, next ++ f) := by
    intro f q hf
    rw [he.token_append hf hrest hquote, ht]
    rfl
  exact ⟨htoken he', fun h => hrest ((token_suffix ht).mem h), hnext _ _ (htoken he)⟩

theorem lexFrom_append (he : LineEnd e r) (he' : LineEnd e' r') (hl : '\n' ∉ l)
    (hu : unbrokenStrings (l ++ e) = true) :
    lexFrom n (l ++ e') = (lexFrom n l).bind fun ts => (lexFrom (n + 1) r').map (ts ++ ·) := by
  -- The strings are known to be unbroken before one end, and the line is read before another one.
  fun_induction lexFrom n l with
  | case1 line =>
    rw [List.nil_append, lexFrom_lineEnd he']
    cases lexFrom (line + 1) r' <;> rfl
  | case2 line rest ih => simp at hl
  | case3 line c rest hfeed hblank ih =>
    rw [List.cons_append, unbrokenStrings, if_pos (by simp [hblank])] at hu
    rw [List.cons_append, lexFrom, if_neg hfeed, if_pos hblank]
    exact ih (List.not_mem_of_not_mem_cons hl) hu
  | case4 line rest hfeed hblank ih =>
    have hrest := List.not_mem_of_not_mem_cons hl
    rw [List.cons_append, lexFrom, if_neg hfeed, if_neg hblank, if_pos rfl,
      he'.dropWhile_append hrest, lexFrom_newline, dropWhile_of_line hrest, lexFrom]
    cases lexFrom (line + 1) r' <;> rfl
  | case5 line c rest hfeed hblank hcomment fault ht =>
    have hc : startsToken c := startsToken_of_not hfeed hblank hcomment
    have htoken := he.token_append he' (List.not_mem_of_not_mem_cons hl)
      (unbrokenStrings_of_token hc hu).1
    rw [ht] at htoken
    exact lexFrom_of_fault hc htoken
  | case6 line c rest hfeed hblank hcomment t next ht fault hfault ih =>
    have hc : startsToken c := startsToken_of_not hfeed hblank hcomment
    obtain ⟨htoken, hnext, hu⟩ := he.next_line he' hl hc hu ht
    rw [List.cons_append, lexFrom_of_token hc htoken, ih hnext hu, hfault]
    rfl
  | case7 line c rest hfeed hblank hcomment t next ht ts hts ih =>
    have hc : startsToken c := startsToken_of_not hfeed hblank hcomment
    obtain ⟨htoken, hnext, hu⟩ := he.next_line he' hl hc hu ht
    rw [List.cons_append, lexFrom_of_token hc htoken, ih hnext hu, hts]
    cases lexFrom (line + 1) r' <;> rfl

theorem unbrokenStrings_of_append (he : LineEnd e r) (hl : '\n' ∉ l)
    (hu : unbrokenStrings (l ++ e) = true) (h : lexFrom n l = .ok ts) :
    unbrokenStrings r = true := by
  fun_induction lexFrom n l generalizing ts with
  | case1 line => rwa [List.nil_append, unbrokenStrings_lineEnd he] at hu
  | case2 line rest ih => simp at hl
  | case3 line c rest hfeed hblank ih =>
    rw [List.cons_append, unbrokenStrings, if_pos (by simp [hblank])] at hu
    exact ih (List.not_mem_of_not_mem_cons hl) hu h
  | case4 line rest hfeed hblank ih =>
    rw [List.cons_append, unbrokenStrings, if_neg (by simpa using hblank), if_pos rfl,
      he.dropWhile_append (List.not_mem_of_not_mem_cons hl)] at hu
    rwa [unbrokenStrings, if_pos (by simp)] at hu
  | case5 => cases h
  | case6 => cases h
  | case7 line c rest hfeed hblank hcomment t next ht ts hts ih =>
    have hc : startsToken c := startsToken_of_not hfeed hblank hcomment
    obtain ⟨-, hnext, hu⟩ := he.next_line he hl hc hu ht
    exact ih hnext hu hts

theorem lexFrom_dropWhile_isBlank (hl : '\n' ∉ l) :
    lexFrom n (l.dropWhile Text.isBlank) = lexFrom n l := by
  induction l with
  | nil => rfl
  | cons c l ih =>
    rw [List.dropWhile_cons]
    split
    · next hc =>
      have hfeed : c ≠ '\n' := fun h => hl (h ▸ List.mem_cons_self)
      rw [ih (List.not_mem_of_not_mem_cons hl), lexFrom.eq_def n (c :: l)]
      simp [hfeed, hc]
    · rfl

theorem lexFrom_comment (hl : '\n' ∉ l) : lexFrom n (';' :: l) = .ok [] := by
  rw [lexFrom, if_neg (by decide), if_neg (by decide), if_pos rfl, dropWhile_of_line hl, lexFrom]

end Lines

end StackCode.Source

namespace StackCode.Text

theorem linesFrom_append {l : List Char} (hl : '\n' ∉ l) (run cs : List Char) :
    linesFrom run (l ++ cs) = linesFrom (l.reverse ++ run) cs := by
  induction l generalizing run with
  | nil => rfl
  | cons c l ih =>
    have hc : c ≠ '\n' := fun h => hl (h ▸ List.mem_cons_self)
    rw [List.cons_append, linesFrom, ih (List.not_mem_of_not_mem_cons hl)]
    · simp
    · exact hc

theorem lineList_cases (cs : List Char) :
    ('\n' ∉ cs ∧ lineList cs = if cs = [] then [] else [cs])
      ∨ ∃ l e rest, Source.LineEnd e rest ∧ '\n' ∉ l ∧ cs = l ++ e
        ∧ lineList cs = l :: lineList rest := by
  by_cases h : '\n' ∈ cs
  · obtain ⟨l, rest, rfl, hl⟩ := List.eq_append_cons_of_mem h
    right
    have hlist : lineList (l ++ '\n' :: rest) = closeLine l.reverse :: lineList rest := by
      rw [lineList, linesFrom_append hl, List.append_nil]
      rfl
    rw [hlist]
    -- A carriage return before the line feed belongs to the end.
    rcases List.eq_nil_or_concat l with rfl | ⟨k, c, rfl⟩
    · exact ⟨[], _, rest, .feed rest, hl, rfl, rfl⟩
    · rw [List.concat_eq_append] at hl ⊢
      by_cases hc : c = '\r'
      · subst hc
        refine ⟨k, _, rest, .pair rest, fun hk => hl (List.mem_append_left _ hk), by simp, ?_⟩
        simp [closeLine]
      · refine ⟨k ++ [c], _, rest, .feed rest, hl, rfl, ?_⟩
        simp [closeLine, hc]
  · left
    refine ⟨h, ?_⟩
    have := linesFrom_append h [] []
    rw [List.append_nil, List.append_nil] at this
    rw [lineList, this, linesFrom]
    simp

end StackCode.Text

namespace StackCode.Check

open Source (LineEnd lexFrom unbrokenStrings)

variable {n : Nat} {l : List Char}

theorem after?_eq_none {mark : String} (hm : mark.toList.head? = some ';')
    (h : l.head? ≠ some ';') : after? mark l = none := by
  obtain ⟨m, hm⟩ := List.head?_eq_some_iff.mp hm
  rw [after?, if_neg]
  rw [hm, List.isPrefixOf_iff_prefix]
  rintro ⟨rest, rfl⟩
  exact h rfl

theorem head?_of_directive (h : Line.of l ≠ .source) : (Text.trimLeft l).head? = some ';' := by
  have htrim : (Text.trim l).head? = some ';' := by
    by_contra hhead
    apply h
    have hnone : ∀ mark : String, mark.toList.head? = some ';' → after? mark (Text.trim l) = none :=
      fun mark hm => after?_eq_none hm hhead
    simp only [Line.of, Line.ofTrimmed, hnone "; RUN:" rfl, hnone "; CHECK-LABEL:" rfl,
      hnone "; CHECK-NEXT:" rfl, hnone "; CHECK-NOT:" rfl, hnone "; CHECK-EMPTY" rfl,
      hnone "; CHECK:" rfl, hnone "; COM:" rfl]
    rfl
  have hp : Text.trim l <+: Text.trimLeft l := List.rdropWhile_prefix _ _
  obtain ⟨rest, hrest⟩ := hp
  rw [← hrest, List.head?_append, htrim]
  rfl

theorem lexFrom_sourceLine (hl : '\n' ∉ l) : lexFrom n (sourceLine l) = lexFrom n l := by
  rw [sourceLine]
  split_ifs with h
  · rfl
  · have hhead := head?_of_directive h
    obtain ⟨cs, hcs⟩ : ∃ cs, Text.trimLeft l = ';' :: cs := List.head?_eq_some_iff.mp hhead
    have hrest : '\n' ∉ cs := by
      intro hm
      refine hl ((List.dropWhile_suffix Text.isBlank).mem ?_)
      rw [show l.dropWhile Text.isBlank = ';' :: cs from hcs]
      exact List.mem_cons_of_mem _ hm
    rw [← Source.lexFrom_dropWhile_isBlank hl, show l.dropWhile Text.isBlank = ';' :: cs from hcs,
      Source.lexFrom_comment hrest, lexFrom]

theorem lexFrom_joinLines {e r : List Char} (he : LineEnd e r) (hl : '\n' ∉ l)
    (hu : unbrokenStrings (l ++ e) = true) (ls : List (List Char)) :
    lexFrom n (joinLines (sourceLine l :: ls)) =
      (lexFrom n l).bind fun ts => (lexFrom (n + 1) (joinLines ls)).map (ts ++ ·) := by
  cases ls with
  | nil =>
    rw [joinLines, joinLines, lexFrom_sourceLine hl, lexFrom]
    cases lexFrom n l with
    | error fault => rfl
    | ok ts => simp [Except.bind, Except.map]
  | cons k ls =>
    rw [joinLines]
    · by_cases hsource : Line.of l = .source
      · rw [sourceLine, if_pos hsource]
        exact Source.lexFrom_append he (.feed _) hl hu
      · rw [← lexFrom_sourceLine hl, sourceLine, if_neg hsource, List.nil_append,
          Source.lexFrom_newline, lexFrom]
        cases lexFrom (n + 1) (joinLines (k :: ls)) <;> rfl
    · simp

theorem lexFrom_source {cs : List Char} (hu : unbrokenStrings cs = true) :
    lexFrom n (joinLines ((Text.lineList cs).map sourceLine)) = lexFrom n cs := by
  induction hlen : cs.length using Nat.strongRecOn generalizing cs n with
  | ind k ih =>
    rcases Text.lineList_cases cs with ⟨hcs, hlist⟩ | ⟨l, e, rest, he, hl, rfl, hlist⟩
    · rw [hlist]
      split_ifs with hnil
      · rw [hnil]
        rfl
      · exact lexFrom_sourceLine hcs
    · rw [hlist, List.map_cons, lexFrom_joinLines he hl hu, Source.lexFrom_append he he hl hu]
      cases hlex : lexFrom n l with
      | error fault =>
        -- Nothing is known of the strings after a fault, but they are not read either.
        rfl
      | ok ts =>
        have hshort : rest.length < k := by
          subst hlen
          cases he <;> simp <;> omega
        rw [ih _ hshort (Source.unbrokenStrings_of_append he hl hu hlex) rfl]

/-- Taking the directives out of a text changes neither its methods nor its fault. -/
theorem parse_source (content : String) (h : unbrokenStrings content.toList = true) :
    Source.parse (Spec.parse content).source = Source.parse content := by
  have hlex : Source.lex (Spec.parse content).source.toList = Source.lex content.toList := by
    rw [Spec.parse, String.toList_ofList]
    exact lexFrom_source h
  rw [Source.parse, Source.parse, hlex]

def checkedAnswer : String :=
  "; RUN: %stackgen %s\r\nmethod answer \x7b\n  ; CHECK: \"42\nentry:\n" ++
    "    %v = const class Text \"; COM: \\\\\"\r\n    ret %v\n\x7d"

theorem checkedAnswer_parsed :
    unbrokenStrings checkedAnswer.toList = true
      ∧ (Source.parse checkedAnswer).toBool = true
      ∧ (Spec.parse checkedAnswer).source ≠ checkedAnswer
      ∧ Source.parse (Spec.parse checkedAnswer).source = Source.parse checkedAnswer := by
  have h : unbrokenStrings checkedAnswer.toList = true := by decide +kernel
  exact ⟨h, by decide +kernel, by decide +kernel, parse_source checkedAnswer h⟩

end StackCode.Check
