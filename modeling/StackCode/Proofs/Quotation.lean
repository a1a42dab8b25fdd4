import Mathlib.Tactic.ByContra
import Mathlib.Tactic.SplitIfs
import StackCode.Proofs.Spelling

/-!
Quoted texts as they are read back. Reading knows fewer escapes than writing: an escape that it does
not know stands for the characters after its backslash. A text is therefore read back as it was if
and only if line feeds and tabs are its only concealed characters.
-/

namespace StackCode.Text

variable {c : Char}

def reread (c : Char) : List Char :=
  if isPlain c then [c] else (escape c).tail

theorem escape_of_not_isPlain (h : isPlain c = false) :
    c = '\r' ∨ c = '\x00' ∨ isConcealed c = true ∧ escape c = codePointEscape c := by
  unfold isPlain escape at h
  unfold escape
  split_ifs at h ⊢ <;> simp_all

theorem isPlain_iff : isPlain c = true ↔ (isConcealed c = true → c = '\n' ∨ c = '\t') := by
  constructor
  · intro h hc
    by_contra hne
    rw [not_or] at hne
    have hquote : c ≠ '"' := by
      rintro rfl
      exact absurd hc (by decide)
    have hslash : c ≠ '\\' := by
      rintro rfl
      exact absurd hc (by decide)
    unfold isPlain escape at h
    split_ifs at h <;> simp_all [codePointEscape]
  · intro h
    by_contra hplain
    rcases escape_of_not_isPlain (by simpa using hplain) with rfl | rfl | ⟨hc, he⟩
    · exact absurd (h (by decide)) (by decide)
    · exact absurd (h (by decide)) (by decide)
    · rcases h hc with rfl | rfl <;> exact hplain (by decide)

theorem head_reread (h : isPlain c = false) (cs : List Char) : (reread c ++ cs).head? ≠ some c := by
  rw [reread, if_neg (by simp [h])]
  rcases escape_of_not_isPlain h with rfl | rfl | ⟨hc, he⟩
  · simp [escape]
  · simp [escape]
  · rw [he]
    intro hu
    obtain rfl : 'u' = c := Option.some.inj hu
    exact absurd hc (by decide)

theorem flatMap_reread_iff {s : List Char} : s.flatMap reread = s ↔ ∀ c ∈ s, isPlain c = true := by
  induction s with
  | nil => simp
  | cons c s ih =>
    rw [List.flatMap_cons, List.forall_mem_cons, ← ih]
    cases h : isPlain c with
    | true => simp [reread, h]
    | false =>
      have hne := head_reread h (s.flatMap reread)
      refine iff_of_false (fun he => hne ?_) (by simp)
      rw [he, List.head?_cons]

end StackCode.Text

namespace StackCode.Source

theorem readString_append {ds : List Char} (h : ∀ d ∈ ds, d ≠ '\n' ∧ d ≠ '"' ∧ d ≠ '\\')
    (cs : List Char) :
    readString (ds ++ cs) = (readString cs).map fun (s, r) => (ds ++ s, r) := by
  induction ds with
  | nil => simp
  | cons d ds ih =>
    rw [List.forall_mem_cons] at h
    obtain ⟨⟨hfeed, hquote, hslash⟩, hds⟩ := h
    rw [List.cons_append, readString, ih hds, Option.map_map]
    · rfl
    all_goals simp_all

theorem mem_toDigits {b n : Nat} (hb : 1 < b) {d : Char} (h : d ∈ Nat.toDigits b n) :
    ∃ k < b, d = Nat.digitChar k := by
  induction n using Nat.strongRecOn with
  | ind n ih =>
    by_cases hn : n < b
    · rw [Nat.toDigits_of_lt_base hn] at h
      exact ⟨n, hn, List.mem_singleton.mp h⟩
    · rw [Nat.toDigits_of_base_le hb (by omega)] at h
      rcases List.mem_append.mp h with h | h
      · exact ih _ (Nat.div_lt_self (by omega) hb) h
      · exact ⟨n % b, Nat.mod_lt n (by omega), List.mem_singleton.mp h⟩

theorem digitChar_ordinary : ∀ k < 16,
    Nat.digitChar k ≠ '\n' ∧ Nat.digitChar k ≠ '"' ∧ Nat.digitChar k ≠ '\\' := by
  decide

theorem readString_reread (c : Char) (cs : List Char) :
    readString (Text.escape c ++ cs) =
      (readString cs).map fun (s, r) => (Text.reread c ++ s, r) := by
  cases h : Text.isPlain c with
  | true =>
    rw [readString_escape h, Text.reread, if_pos h]
    rfl
  | false =>
    -- The backslash is dropped, and the characters after it are read like any others.
    rw [Text.reread, if_neg (by simp [h])]
    rcases Text.escape_of_not_isPlain h with rfl | rfl | ⟨-, he⟩
    · simp [Text.escape, readString]
    · simp [Text.escape, readString]
    · have hdigits : ∀ d ∈ '\x7b' :: Nat.toDigits 16 c.toNat ++ ['\x7d'],
          d ≠ '\n' ∧ d ≠ '"' ∧ d ≠ '\\' := by
        intro d hd
        simp only [List.cons_append, List.mem_cons, List.mem_append, List.not_mem_nil,
          or_false] at hd
        rcases hd with rfl | hd | rfl
        · decide
        · obtain ⟨k, hk, rfl⟩ := mem_toDigits (by decide) hd
          exact digitChar_ordinary k hk
        · decide
      have hread := readString_append hdigits cs
      rw [he, Text.codePointEscape]
      simp only [List.cons_append, readString, List.tail_cons] at hread ⊢
      rw [hread, Option.map_map]
      rfl

theorem readString_quoteChars (s rest : List Char) :
    readString (s.flatMap Text.escape ++ '"' :: rest) = some (s.flatMap Text.reread, rest) := by
  induction s with
  | nil => rfl
  | cons c s ih =>
    rw [List.flatMap_cons, List.append_assoc, readString_reread, ih]
    rfl

theorem lex_quote (s : String) :
    lex (Text.quote s).toList = .ok [⟨.string (String.ofList (s.toList.flatMap Text.reread)),
      1⟩] := by
  have htoken : token '"' (s.toList.flatMap Text.escape ++ ['"']) =
      .ok (.string (String.ofList (s.toList.flatMap Text.reread)), []) := by
    have hs : sigil? '"' = none := rfl
    simp [token, hs, readString_quoteChars]
  rw [Text.quote, String.toList_ofList, Text.quoteChars, lex]
  exact lexFrom_token (by decide) htoken (by rw [lexFrom])

/-- A string constant is read back as one string, which is the same one if line feeds and tabs are
its only concealed characters, and only then. -/
theorem string_constant_read_back_iff (s : String) :
    (∃ r, lex (Print.constant (.string s)).text.toList = .ok [⟨.string r, 1⟩])
      ∧ (lex (Print.constant (.string s)).text.toList = .ok [⟨.string s, 1⟩] ↔
        ∀ c ∈ s.toList, Text.isConcealed c = true → c = '\n' ∨ c = '\t') := by
  have hlex : lex (Print.constant (.string s)).text.toList = _ := lex_quote s
  refine ⟨⟨_, hlex⟩, ?_⟩
  rw [hlex]
  simp only [← Text.isPlain_iff, ← Text.flatMap_reread_iff]
  simp [← String.toList_inj]

theorem indented_lines_read_back :
    lex (Print.constant (.string "one\n\t\"two\"\\")).text.toList =
      .ok [⟨.string "one\n\t\"two\"\\", 1⟩] := by
  have hplain : "one\n\t\"two\"\\".toList.all Text.isPlain = true := by decide
  exact (string_constant_read_back_iff _).2.mpr fun c hc =>
    Text.isPlain_iff.mp (List.all_eq_true.mp hplain c hc)

theorem carriage_return_misread :
    lex (Print.constant (.string "\r")).text.toList = .ok [⟨.string "r", 1⟩]
      ∧ ¬∀ s, lex (Print.constant (.string s)).text.toList = .ok [⟨.string s, 1⟩] := by
  have hletter : String.ofList ("\r".toList.flatMap Text.reread) = "r" := by decide
  have hread := lex_quote "\r"
  rw [hletter] at hread
  refine ⟨hread, fun h => ?_⟩
  have := hread.symm.trans (h "\r")
  simp at this

end StackCode.Source
