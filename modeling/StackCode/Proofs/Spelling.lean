import StackCode.Source.Lexer
import StackCode.Source.Printer

namespace StackCode.Text

def isPlain (c : Char) : Bool :=
  escape c = [c] || ['n', 't', '"', '\\'].any fun d => escape c = ['\\', d]

end StackCode.Text

namespace StackCode.Source

theorem isNameChar_lt {c : Char} (h : isNameChar c) : c.toNat < 128 := by
  unfold isNameChar Char.isAlphanum Char.isAlpha Char.isUpper Char.isLower Char.isDigit at h
  simp only [Bool.or_eq_true, Bool.and_eq_true, decide_eq_true_eq, ge_iff_le,
    UInt32.le_iff_toNat_le] at h
  rcases h with (((h | h) | h) | rfl) | rfl
  · exact Nat.lt_of_le_of_lt h.2 (by decide)
  · exact Nat.lt_of_le_of_lt h.2 (by decide)
  · exact Nat.lt_of_le_of_lt h.2 (by decide)
  · decide
  · decide

theorem of_ascii {P : Char → Prop} (h : ∀ n < 128, P (Char.ofNat n)) {c : Char}
    (hc : c.toNat < 128) : P c := by
  have := h c.toNat hc
  rwa [Char.ofNat_toNat] at this

theorem isNameChar_of_startsName {c : Char} (h : startsName c) : isNameChar c := by
  simp only [startsName, isNameChar, Char.isAlphanum, Bool.or_eq_true] at h ⊢
  grind

theorem isNameChar_of_isDigit {c : Char} (h : c.isDigit) : isNameChar c := by
  simp [isNameChar, Char.isAlphanum, h]

def startsToken (c : Char) : Bool :=
  c ≠ '\n' && !Text.isBlank c && c ≠ ';'

theorem startsToken_iff {c : Char} :
    startsToken c = true ↔ c ≠ '\n' ∧ Text.isBlank c = false ∧ c ≠ ';' := by
  simp [startsToken, and_assoc]

theorem startsToken_of_not {c : Char} (hfeed : ¬c = '\n') (hblank : ¬Text.isBlank c = true)
    (hcomment : ¬c = ';') : startsToken c :=
  startsToken_iff.mpr ⟨hfeed, Bool.eq_false_iff.mpr hblank, hcomment⟩

theorem isNameChar_startsToken {c : Char} (h : isNameChar c) : startsToken c := by
  refine of_ascii (P := fun c => isNameChar c → startsToken c) ?_ (isNameChar_lt h) h
  decide

theorem startsName_only {c : Char} (h : startsName c) :
    sigil? c = none ∧ c ≠ '"' ∧ c ≠ '-' ∧ c.isDigit = false := by
  refine of_ascii (P := fun c => startsName c → sigil? c = none ∧ c ≠ '"' ∧ c ≠ '-' ∧
    c.isDigit = false) ?_ (isNameChar_lt (isNameChar_of_startsName h)) h
  decide

theorem isDigit_only {c : Char} (h : c.isDigit) :
    sigil? c = none ∧ c ≠ '"' ∧ c ≠ '-' ∧ c ≠ 'x' ∧ c ≠ 'X' ∧ c ≠ '.' ∧ c ≠ 'e' ∧ c ≠ 'E' := by
  refine of_ascii (P := fun c => c.isDigit → sigil? c = none ∧ c ≠ '"' ∧ c ≠ '-' ∧ c ≠ 'x' ∧
    c ≠ 'X' ∧ c ≠ '.' ∧ c ≠ 'e' ∧ c ≠ 'E') ?_ (isNameChar_lt (isNameChar_of_isDigit h)) h
  decide

theorem digitValue?_of_isDigit {c : Char} (h : c.isDigit) :
    c.toNat - '0'.toNat < 10 ∧ digitValue? c = some (c.toNat - '0'.toNat) := by
  refine ⟨?_, by simp [digitValue?, h]⟩
  refine of_ascii (P := fun c => c.isDigit → c.toNat - '0'.toNat < 10) ?_
    (isNameChar_lt (isNameChar_of_isDigit h)) h
  decide

theorem digitsValueFrom?_digits {cs : List Char} (h : ∀ c ∈ cs, c.isDigit) (n : Nat) :
    digitsValueFrom? 10 n cs = some (Nat.ofDigitChars 10 cs n) := by
  induction cs generalizing n with
  | nil => rfl
  | cons c cs ih =>
    rw [List.forall_mem_cons] at h
    obtain ⟨hd, hv⟩ := digitValue?_of_isDigit h.1
    simp only [digitsValueFrom?, hv, if_pos hd, ih h.2, Nat.ofDigitChars_cons]

theorem isDigit_of_mem_decimalDigits {n : Nat} {c : Char} (h : c ∈ decimalDigits n) : c.isDigit :=
  Nat.isDigit_of_mem_toDigits (by decide) (by decide) h

theorem decimalDigits_ne_nil (n : Nat) : decimalDigits n ≠ [] :=
  Nat.toDigits_ne_nil

theorem digitsValue?_decimalDigits (n : Nat) : digitsValue? 10 (decimalDigits n) = some n := by
  rw [digitsValue?, if_neg (by simpa using decimalDigits_ne_nil n),
    digitsValueFrom?_digits (fun c => isDigit_of_mem_decimalDigits)]
  exact congrArg some Nat.ofDigitChars_ten_toDigits

theorem unsigned?_decimalDigits (negative : Bool) (n : Nat) :
    unsigned? negative (decimalDigits n) = bounded negative n := by
  have hd : ∀ c ∈ decimalDigits n, c.isDigit := fun c => isDigit_of_mem_decimalDigits
  have hv := digitsValue?_decimalDigits n
  generalize decimalDigits n = cs at hd hv
  have hany : (cs.any fun c => c = '.' || c = 'e' || c = 'E') = false := by
    rw [List.any_eq_false]
    intro c hc
    have := isDigit_only (hd c hc)
    simp [this]
  unfold unsigned?
  split
  · exact absurd rfl (isDigit_only (hd 'x' (by simp))).2.2.2.1
  · exact absurd rfl (isDigit_only (hd 'X' (by simp))).2.2.2.2.1
  · simp [hany, hv]

theorem readNumber_digits {cs rest : List Char} (last : Char) (h : ∀ c ∈ cs, c.isDigit)
    (hl : last ≠ 'e' ∧ last ≠ 'E') (hr : ∀ c ∈ rest.head?, isNameChar c = false) :
    readNumber last (cs ++ rest) = (cs, rest) := by
  induction cs generalizing last with
  | nil =>
    cases rest with
    | nil => rfl
    | cons c rest =>
      have hc := hr c rfl
      simp only [isNameChar, Bool.or_eq_false_iff] at hc
      simp only [List.nil_append, readNumber]
      rw [if_neg]
      simp [hc, hl]
  | cons c cs ih =>
    rw [List.forall_mem_cons] at h
    have hc := isDigit_only h.1
    have ha : c.isAlphanum := by simp [Char.isAlphanum, h.1]
    simp only [List.cons_append, readNumber, ha, Bool.true_or, if_true]
    rw [ih c h.2 ⟨hc.2.2.2.2.2.2.1, hc.2.2.2.2.2.2.2⟩]

def isWord (s : String) : Bool :=
  !s.toList.isEmpty && s.toList.all isNameChar

def isName (s : String) : Bool :=
  s.toList.head?.any startsName && s.toList.all isNameChar

def Token.isSound : Token → Bool
  | .name s => isName s
  | .value s | .block s | .mark s => isWord s
  | .int v => IntShape.constantMin ≤ v && v ≤ IntShape.constantMax
  | _ => true

def Token.isPlain : Token → Bool
  | .float _ => false
  | .string s => s.toList.all Text.isPlain
  | _ => true

def Token.Ends : Token → List Char → Prop
  | .name _, cs | .value _, cs | .block _, cs | .mark _, cs | .int _, cs =>
    ∀ c ∈ cs.head?, isNameChar c = false
  | .punct .colon, cs => cs.head? ≠ some ':'
  | .punct .equals, cs => cs.head? ≠ some '>'
  | _, _ => True

theorem takeWhile_word {cs rest : List Char} (h : ∀ c ∈ cs, isNameChar c)
    (hr : ∀ c ∈ rest.head?, isNameChar c = false) :
    (cs ++ rest).takeWhile isNameChar = cs ∧ (cs ++ rest).dropWhile isNameChar = rest := by
  rw [List.takeWhile_append_of_pos h, List.dropWhile_append_of_pos h]
  cases rest with
  | nil => simp
  | cons c rest =>
    have hc := hr c rfl
    simp [hc]

theorem token_sigil {sigil : Char} {make : String → Token} (hm : sigil? sigil = some make)
    {s : String} (hs : isWord s) {rest : List Char}
    (hr : ∀ c ∈ rest.head?, isNameChar c = false) :
    token sigil (s.toList ++ rest) = .ok (make s, rest) := by
  simp only [isWord, Bool.and_eq_true, Bool.not_eq_true', List.all_eq_true] at hs
  obtain ⟨ht, hd⟩ := takeWhile_word hs.2 hr
  simp [token, hm, ht, hd, hs.1]

theorem token_name {s : String} (hs : isName s) {rest : List Char}
    (hr : ∀ c ∈ rest.head?, isNameChar c = false) :
    ∃ c cs, s.toList = c :: cs ∧ startsToken c ∧ token c (cs ++ rest) = .ok (.name s, rest) := by
  simp only [isName, Bool.and_eq_true, List.all_eq_true] at hs
  cases hl : s.toList with
  | nil => simp [hl] at hs
  | cons c cs =>
    rw [hl] at hs
    have hc : startsName c := by simpa using hs.1
    obtain ⟨h1, h2, h3, h4⟩ := startsName_only hc
    obtain ⟨ht, hd⟩ := takeWhile_word (fun d hd => hs.2 d (List.mem_cons_of_mem _ hd)) hr
    refine ⟨c, cs, rfl, isNameChar_startsToken (isNameChar_of_startsName hc), ?_⟩
    simp [token, h1, h2, startsNumber, h3, h4, hc, ht, hd, ← hl]

theorem token_digits {n : Nat} {rest : List Char} (hr : ∀ c ∈ rest.head?, isNameChar c = false)
    {t : Token} (ht : bounded false n = some t) :
    ∃ c cs, decimalDigits n = c :: cs ∧ startsToken c ∧ token c (cs ++ rest) = .ok (t, rest) := by
  have hd : ∀ c ∈ decimalDigits n, c.isDigit := fun c => isDigit_of_mem_decimalDigits
  have hu := unsigned?_decimalDigits false n
  cases hl : decimalDigits n with
  | nil => exact absurd hl (decimalDigits_ne_nil n)
  | cons c cs =>
    rw [hl] at hd hu
    rw [List.forall_mem_cons] at hd
    have hc := isDigit_only hd.1
    have hread := readNumber_digits c hd.2 ⟨hc.2.2.2.2.2.2.1, hc.2.2.2.2.2.2.2⟩ hr
    have hnum : number? (c :: cs) = some t := by
      rw [number?, hu, ht]
      intro ds he
      exact hc.2.2.1 (List.cons.inj he).1
    refine ⟨c, cs, rfl, isNameChar_startsToken (isNameChar_of_isDigit hd.1), ?_⟩
    simp [token, hc.1, hc.2.1, startsNumber, hd.1, hread, hnum]

theorem token_negative {n : Nat} {rest : List Char} (hr : ∀ c ∈ rest.head?, isNameChar c = false)
    {t : Token} (ht : bounded true n = some t) :
    token '-' (decimalDigits n ++ rest) = .ok (t, rest) := by
  have hd : ∀ c ∈ decimalDigits n, c.isDigit := fun c => isDigit_of_mem_decimalDigits
  have hread := readNumber_digits '-' hd (by decide) hr
  have hstart : startsNumber '-' (decimalDigits n ++ rest) := by
    cases hl : decimalDigits n with
    | nil => exact absurd hl (decimalDigits_ne_nil n)
    | cons c cs =>
      have := hd c (by simp [hl])
      simp [startsNumber, this]
  have hnum : number? ('-' :: decimalDigits n) = some t := by
    rw [number?, unsigned?_decimalDigits, ht]
  have hs : sigil? '-' = none := rfl
  simp [token, hs, hstart, hread, hnum]

theorem bounded_natAbs {v : Int} (h : (Token.int v).isSound) :
    bounded (v < 0) v.natAbs = some (.int v) := by
  have hv : (if decide (v < 0) = true then -(v.natAbs : Int) else v.natAbs) = v := by
    by_cases hn : v < 0
    · rw [if_pos (decide_eq_true hn)]
      omega
    · rw [if_neg (by simpa using hn)]
      omega
  simp only [Token.isSound, Bool.and_eq_true, decide_eq_true_eq] at h
  simp only [bounded, hv, if_pos h]

theorem readString_escape {c : Char} (h : Text.isPlain c) (cs : List Char) :
    readString (Text.escape c ++ cs) = (readString cs).map fun (s, r) => (c :: s, r) := by
  simp only [Text.isPlain, Bool.or_eq_true, decide_eq_true_eq, List.any_cons, List.any_nil,
    Bool.or_false] at h
  unfold Text.escape at h ⊢
  split
  · next hc => simp [hc, readString]
  split
  · next hc => simp [hc, readString]
  split
  · next hc => simp [hc, readString]
  split
  · next hc =>
    subst hc
    simp at h
  split
  · next hc => simp [hc, readString]
  split
  · next hc =>
    subst hc
    simp at h
  next hb _ _ _ _ =>
  split
  · next hc => simp [Text.codePointEscape, *] at h
  · simp [readString, hb]

theorem readString_quoted {s : List Char} (h : s.all Text.isPlain) (rest : List Char) :
    readString (s.flatMap Text.escape ++ '"' :: rest) = some (s, rest) := by
  induction s with
  | nil => rfl
  | cons c s ih =>
    simp only [List.all_cons, Bool.and_eq_true] at h
    rw [List.flatMap_cons, List.append_assoc, readString_escape h.1, ih h.2]
    rfl

theorem token_string {s : String} (h : s.toList.all Text.isPlain) (rest : List Char) :
    token '"' (s.toList.flatMap Text.escape ++ '"' :: rest) = .ok (.string s, rest) := by
  have hs : sigil? '"' = none := rfl
  simp [token, hs, readString_quoted h]

theorem token_punct (p : Punct) {rest : List Char} (h : (Token.punct p).Ends rest) :
    ∃ c cs, p.text.toList = c :: cs ∧ startsToken c
      ∧ token c (cs ++ rest) = .ok (.punct p, rest) := by
  cases p with
  | colon =>
    refine ⟨':', [], rfl, by decide, ?_⟩
    cases rest with
    | nil => rfl
    | cons d rest =>
      have hd : d ≠ ':' := by simpa [Token.Ends] using h
      simp [token, sigil?, startsNumber, startsName, punct?, hd]
  | equals =>
    refine ⟨'=', [], rfl, by decide, ?_⟩
    cases rest with
    | nil => rfl
    | cons d rest =>
      have hd : d ≠ '>' := by simpa [Token.Ends] using h
      simp [token, sigil?, startsNumber, startsName, punct?, hd]
  | _ => exact ⟨_, _, rfl, by decide, rfl⟩

theorem Token.read_text {t : Token} (hs : t.isSound) (hp : t.isPlain) {rest : List Char}
    (he : t.Ends rest) :
    ∃ c cs, t.text.toList = c :: cs ∧ startsToken c ∧ token c (cs ++ rest) = .ok (t, rest) := by
  cases t with
  | name s => exact token_name hs he
  | value s => exact ⟨'%', s.toList, by simp [Token.text], by decide, token_sigil rfl hs he⟩
  | block s => exact ⟨'^', s.toList, by simp [Token.text], by decide, token_sigil rfl hs he⟩
  | mark s => exact ⟨'#', s.toList, by simp [Token.text], by decide, token_sigil rfl hs he⟩
  | int v =>
    have hb := bounded_natAbs hs
    by_cases hn : v < 0
    · refine ⟨'-', decimalDigits v.natAbs, by simp [Token.text, intText, hn], by decide, ?_⟩
      exact token_negative he (by simpa [hn] using hb)
    · have := token_digits he (by simpa [hn] using hb)
      simpa [Token.text, intText, hn] using this
  | float x => cases hp
  | string s =>
    refine ⟨'"', s.toList.flatMap Text.escape ++ ['"'], ?_, by decide, ?_⟩
    · simp [Token.text, Text.quote, Text.quoteChars]
    · simpa using token_string hp rest
  | punct p => exact token_punct p he

theorem isSound_of_bounded {negative : Bool} {n : Nat} {t : Token}
    (h : bounded negative n = some t) : t.isSound := by
  simp only [bounded, Option.ite_none_right_eq_some, Option.some.injEq] at h
  obtain ⟨hv, rfl⟩ := h
  simpa [Token.isSound] using hv

theorem isSound_of_unsigned? {negative : Bool} {cs : List Char} {t : Token}
    (h : unsigned? negative cs = some t) : t.isSound := by
  have hhex : ∀ hex : List Char, ((digitsValue? 16 hex).bind fun n =>
      if n ≤ IntShape.constantMax then bounded negative n else none) = some t → t.isSound := by
    intro hex h
    obtain ⟨n, -, hn⟩ := Option.bind_eq_some_iff.mp h
    split at hn
    · exact isSound_of_bounded hn
    · cases hn
  unfold unsigned? at h
  split at h
  · exact hhex _ h
  · exact hhex _ h
  · split at h
    · simp only [fraction?, Option.bind_eq_bind, Option.bind_eq_some_iff] at h
      obtain ⟨_, -, _, -, he⟩ := h
      cases he
      rfl
    · obtain ⟨n, -, hn⟩ := Option.bind_eq_some_iff.mp h
      exact isSound_of_bounded hn

theorem isSound_of_number? {cs : List Char} {t : Token} (h : number? cs = some t) : t.isSound := by
  unfold number? at h
  split at h
  · exact isSound_of_unsigned? h
  · exact isSound_of_unsigned? h

theorem isSound_of_token {c : Char} {rest next : List Char} {t : Token}
    (h : token c rest = .ok (t, next)) : t.isSound := by
  unfold token at h
  split at h
  · next make hm =>
    dsimp only at h
    split at h
    · cases h
    · next hne =>
      have hw : isWord (String.ofList (rest.takeWhile isNameChar)) := by
        simp [isWord, hne]
      obtain rfl : make (String.ofList (rest.takeWhile isNameChar)) = t := by
        simp only [Except.ok.injEq, Prod.mk.injEq] at h
        exact h.1
      unfold sigil? at hm
      split at hm <;> simp only [Option.some.injEq, reduceCtorEq] at hm <;> subst hm <;> exact hw
  · split at h
    · split at h
      · cases h
        rfl
      · cases h
    · split at h
      · split at h
        · next hn =>
          cases h
          exact isSound_of_number? hn
        · cases h
      · split at h
        · next hs =>
          cases h
          simp [Token.isSound, isName, hs, isNameChar_of_startsName hs]
        · split at h
          · cases h
            rfl
          · cases h

theorem isSound_of_lexFrom {line : Nat} {cs : List Char} {ls : List Lexeme}
    (h : lexFrom line cs = .ok ls) : ∀ l ∈ ls, l.token.isSound := by
  fun_induction lexFrom line cs generalizing ls with
  | case1 =>
    cases h
    simp
  | case2 line rest ih => exact ih h
  | case3 line c rest _ _ ih => exact ih h
  | case4 line rest _ _ ih => exact ih h
  | case5 => cases h
  | case6 => cases h
  | case7 line c rest _ _ _ t next ht ts hts ih =>
    cases h
    rw [List.forall_mem_cons]
    exact ⟨isSound_of_token ht, ih hts⟩

theorem isSound_of_lex {cs : List Char} {ls : List Lexeme} (h : lex cs = .ok ls) :
    ∀ l ∈ ls, l.token.isSound :=
  isSound_of_lexFrom h

namespace Piece

def token? : Piece → Option Token
  | .token t => some t
  | _ => none

def isWritten : Piece → Bool
  | .token t => t.isSound && t.isPlain
  | .literal _ => false
  | _ => true

def isLayout : Piece → Bool
  | .space | .indent | .newline => true
  | _ => false

def isOpen : Piece → Bool
  | .token (.name _) | .token (.value _) | .token (.block _) | .token (.mark _)
  | .token (.int _) => true
  | _ => false

def joins : Piece → Bool
  | .token (.name _) | .token (.int _) => true
  | _ => false

def isSign : Piece → Bool
  | .token (.punct .colon) | .token (.punct .equals) => true
  | _ => false

end Piece

/-- Whether each token ends where the next piece starts; `w` tells whether the piece before is open.
The answer tells it of the last piece. -/
def neat (w : Bool) : Pieces → Option Bool
  | [] => some w
  | p :: ps =>
    if p.isWritten && !(w && p.joins) && (!p.isSign || ps.head?.any Piece.isLayout) then
      neat p.isOpen ps
    else none

theorem neat_append {w a : Bool} {ps : Pieces} (h : neat w ps = some a) (qs : Pieces) :
    neat w (ps ++ qs) = neat a qs := by
  induction ps generalizing w with
  | nil =>
    cases h
    rfl
  | cons p ps ih =>
    simp only [neat, Option.ite_none_right_eq_some, Bool.and_eq_true] at h
    obtain ⟨⟨hp, hs⟩, h⟩ := h
    have hs : !p.isSign || (ps ++ qs).head?.any Piece.isLayout := by
      cases ps with
      | nil =>
        have : p.isSign = false := by simpa using hs
        simp [this]
      | cons q ps => exact hs
    rw [List.cons_append, neat, if_pos (by rw [hp.1, hp.2, hs]; rfl), ih h]

def chars (ps : Pieces) : List Char :=
  ps.flatMap fun p => p.text.toList

theorem chars_cons (p : Piece) (ps : Pieces) : chars (p :: ps) = p.text.toList ++ chars ps := rfl

theorem head_chars {p : Piece} (hw : p.isWritten) (hj : p.joins = false) (ps : Pieces) :
    ∀ c ∈ (chars (p :: ps)).head?, isNameChar c = false := by
  rw [chars_cons]
  cases p with
  | token t =>
    cases t with
    | name s => cases hj
    | int v => cases hj
    | float x => cases hw
    | punct p => cases p <;> simp [Piece.text, Token.text, Punct.text] <;> decide
    | value s | block s | mark s =>
      simp [Piece.text, Token.text]
      decide
    | string s =>
      simp [Piece.text, Token.text, Text.quote, Text.quoteChars]
      decide
  | literal s => cases hw
  | space | indent | newline =>
    simp [Piece.text]
    decide

theorem ends_of_neat {t : Token} {a : Bool} {ps : Pieces}
    (hs : !(Piece.token t).isSign || ps.head?.any Piece.isLayout)
    (h : neat (Piece.token t).isOpen ps = some a) : t.Ends (chars ps) := by
  cases ps with
  | nil => cases t with
    | punct p => cases p <;> simp [Token.Ends, chars]
    | _ => simp [Token.Ends, chars]
  | cons p ps =>
    simp only [neat, Option.ite_none_right_eq_some, Bool.and_eq_true] at h
    obtain ⟨⟨⟨hw, hj⟩, -⟩, -⟩ := h
    cases t with
    | name s | value s | block s | mark s | int v =>
      exact head_chars hw (by simpa [Piece.isOpen] using hj) ps
    | punct q =>
      cases q with
      | colon | equals =>
        have hp : p.isLayout := by simpa [Piece.isSign] using hs
        cases p <;> simp [Piece.isLayout] at hp <;> simp [Token.Ends, chars_cons, Piece.text]
      | _ => trivial
    | float x | string s => trivial

theorem lexFrom_of_token {line : Nat} {c : Char} {rest next : List Char} {t : Token}
    (hc : startsToken c) (ht : token c rest = .ok (t, next)) :
    lexFrom line (c :: rest) = (lexFrom line next).map (⟨t, line⟩ :: ·) := by
  obtain ⟨hfeed, hblank, hcomment⟩ := startsToken_iff.mp hc
  rw [lexFrom, if_neg hfeed, if_neg (by simp [hblank]), if_neg hcomment]
  split
  · next he =>
    rw [ht] at he
    cases he
  · next he =>
    rw [ht] at he
    cases he
    cases lexFrom line next <;> rfl

theorem lexFrom_token {line : Nat} {c : Char} {rest next : List Char} {t : Token}
    {ls : List Lexeme} (hc : startsToken c) (ht : token c rest = .ok (t, next))
    (hn : lexFrom line next = .ok ls) : lexFrom line (c :: rest) = .ok (⟨t, line⟩ :: ls) := by
  rw [lexFrom_of_token hc ht, hn]
  rfl

theorem lexFrom_blank {line : Nat} (rest : List Char) :
    lexFrom line (' ' :: rest) = lexFrom line rest := by
  rw [lexFrom, if_neg (by decide), if_pos (by decide)]

theorem lexFrom_newline {line : Nat} (rest : List Char) :
    lexFrom line ('\n' :: rest) = lexFrom (line + 1) rest := by
  rw [lexFrom, if_pos rfl]

theorem lexFrom_chars {w a : Bool} {ps : Pieces} (h : neat w ps = some a) (line : Nat) :
    ∃ ls, lexFrom line (chars ps) = .ok ls ∧ ls.map Lexeme.token = ps.filterMap Piece.token? := by
  induction ps generalizing w line with
  | nil => exact ⟨[], by rw [chars, List.flatMap_nil, lexFrom], rfl⟩
  | cons p ps ih =>
    simp only [neat, Option.ite_none_right_eq_some, Bool.and_eq_true] at h
    obtain ⟨⟨⟨hw, -⟩, hs⟩, h⟩ := h
    cases p with
    | token t =>
      obtain ⟨ls, hl, ht⟩ := ih h line
      simp only [Piece.isWritten, Bool.and_eq_true] at hw
      obtain ⟨c, cs, htext, hc, hread⟩ := Token.read_text hw.1 hw.2 (ends_of_neat hs h)
      refine ⟨⟨t, line⟩ :: ls, ?_, by simp [Piece.token?, ht]⟩
      rw [chars_cons, Piece.text, htext]
      exact lexFrom_token hc hread hl
    | literal s => cases hw
    | space =>
      obtain ⟨ls, hl, ht⟩ := ih h line
      exact ⟨ls, by simpa [chars_cons, Piece.text, lexFrom_blank] using hl, ht⟩
    | indent =>
      obtain ⟨ls, hl, ht⟩ := ih h line
      exact ⟨ls, by simpa [chars_cons, Piece.text, lexFrom_blank] using hl, ht⟩
    | newline =>
      obtain ⟨ls, hl, ht⟩ := ih h (line + 1)
      exact ⟨ls, by simpa [chars_cons, Piece.text, lexFrom_newline] using hl, ht⟩

end StackCode.Source
