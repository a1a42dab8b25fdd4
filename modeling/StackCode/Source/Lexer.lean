import StackCode.Source.Error
import StackCode.Text.Blank

namespace StackCode.Source

open Text (isBlank)

def isNameChar (c : Char) : Bool :=
  c.isAlphanum || c = '_' || c = '.'

def startsName (c : Char) : Bool :=
  c.isAlpha || c = '_' || c = '.'

/-- The characters of a string up to its closing quote, and what follows. A backslash stands for
itself and the next character: a line feed after `n`, a tab after `t`, and otherwise that character.
-/
def readString : List Char → Option (List Char × List Char)
  | [] | '\n' :: _ => none
  | '"' :: rest => some ([], rest)
  | ['\\'] => none
  | '\\' :: c :: rest =>
    (readString rest).map fun (s, r) =>
      ((if c = 'n' then '\n' else if c = 't' then '\t' else c) :: s, r)
  | c :: rest => (readString rest).map fun (s, r) => (c :: s, r)

def readNumber (last : Char) : List Char → List Char × List Char
  | [] => ([], [])
  | c :: rest =>
    let isSign := (c = '-' || c = '+') && (last = 'e' || last = 'E')
    if c.isAlphanum || c = '.' || isSign then
      let (cs, r) := readNumber c rest
      (c :: cs, r)
    else ([], c :: rest)

def digitValue? (c : Char) : Option Nat :=
  if c.isDigit then some (c.toNat - '0'.toNat)
  else if 'a' ≤ c ∧ c ≤ 'f' then some (c.toNat - 'a'.toNat + 10)
  else if 'A' ≤ c ∧ c ≤ 'F' then some (c.toNat - 'A'.toNat + 10)
  else none

def digitsValueFrom? (base n : Nat) : List Char → Option Nat
  | [] => some n
  | c :: cs =>
    match digitValue? c with
    | some d => if d < base then digitsValueFrom? base (base * n + d) cs else none
    | none => none

def digitsValue? (base : Nat) (cs : List Char) : Option Nat :=
  if cs.isEmpty then none else digitsValueFrom? base 0 cs

def bounded (negative : Bool) (n : Nat) : Option Token :=
  let v : Int := if negative then -n else n
  if IntShape.constantMin ≤ v ∧ v ≤ IntShape.constantMax then some (.int v) else none

def exponent? : List Char → Option Int
  | [] => some 0
  | c :: cs =>
    if c = 'e' || c = 'E' then
      match cs with
      | '-' :: ds => (digitsValue? 10 ds).map fun n => -n
      | '+' :: ds => (digitsValue? 10 ds).map fun n => n
      | ds => (digitsValue? 10 ds).map fun n => n
    else none

def fraction? (negative : Bool) (cs : List Char) : Option Token := do
  let whole := cs.takeWhile Char.isDigit
  let rest := cs.dropWhile Char.isDigit
  let places :=
    match rest with
    | '.' :: ds => ds.takeWhile Char.isDigit
    | _ => []
  let tail :=
    match rest with
    | '.' :: ds => ds.dropWhile Char.isDigit
    | _ => rest
  let digits ← digitsValue? 10 (whole ++ places)
  let e ← exponent? tail
  return .float (.ofDecimal negative digits (e - places.length))

def unsigned? (negative : Bool) : List Char → Option Token
  | '0' :: 'x' :: hex | '0' :: 'X' :: hex =>
    (digitsValue? 16 hex).bind fun n =>
      if n ≤ IntShape.constantMax then bounded negative n else none
  | cs =>
    if cs.any fun c => c = '.' || c = 'e' || c = 'E' then fraction? negative cs
    else (digitsValue? 10 cs).bind (bounded negative)

def number? : List Char → Option Token
  | '-' :: cs => unsigned? true cs
  | cs => unsigned? false cs

def punct? (c : Char) (rest : List Char) : Option (Punct × List Char) :=
  match c, rest with
  | ':', ':' :: rest => some (.doubleColon, rest)
  | '=', '>' :: rest => some (.arrow, rest)
  | '(', _ => some (.openParen, rest)
  | ')', _ => some (.closeParen, rest)
  | '\x7b', _ => some (.openBrace, rest)
  | '\x7d', _ => some (.closeBrace, rest)
  | '[', _ => some (.openBracket, rest)
  | ']', _ => some (.closeBracket, rest)
  | ',', _ => some (.comma, rest)
  | ':', _ => some (.colon, rest)
  | '=', _ => some (.equals, rest)
  | '*', _ => some (.star, rest)
  | '&', _ => some (.ampersand, rest)
  | _, _ => none

def sigil? : Char → Option (String → Token)
  | '%' => some .value
  | '^' => some .block
  | '#' => some .mark
  | _ => none

def startsNumber (c : Char) (rest : List Char) : Bool :=
  c.isDigit || (c = '-' && (rest.head?.map Char.isDigit).getD false)

def token (c : Char) (rest : List Char) : Except Fault (Token × List Char) :=
  match sigil? c with
  | some make =>
    let name := rest.takeWhile isNameChar
    if name.isEmpty then .error (.noName c)
    else .ok (make (String.ofList name), rest.dropWhile isNameChar)
  | none =>
    if c = '"' then
      match readString rest with
      | some (s, rest) => .ok (.string (String.ofList s), rest)
      | none => .error .openString
    else if startsNumber c rest then
      match number? (c :: (readNumber c rest).1) with
      | some t => .ok (t, (readNumber c rest).2)
      | none => .error (.badNumber (String.ofList (c :: (readNumber c rest).1)))
    else if startsName c then
      .ok (.name (String.ofList (c :: rest.takeWhile isNameChar)), rest.dropWhile isNameChar)
    else
      match punct? c rest with
      | some (p, rest) => .ok (.punct p, rest)
      | none => .error (.badCharacter c)

theorem length_readString_le (cs s r : List Char) (h : readString cs = some (s, r)) :
    r.length ≤ cs.length := by
  fun_induction readString cs generalizing s r <;> simp_all
  all_goals
    obtain ⟨a, hr, -⟩ := h
    rename_i ih
    have := ih a r hr
    omega

theorem length_readNumber_le (last : Char) (cs : List Char) :
    (readNumber last cs).2.length ≤ cs.length := by
  induction cs generalizing last with
  | nil => simp [readNumber]
  | cons c cs ih =>
    have := ih c
    simp only [readNumber]
    split
    · simp
      omega
    · simp

theorem length_dropWhile_le (f : Char → Bool) (cs : List Char) :
    (cs.dropWhile f).length ≤ cs.length :=
  (List.dropWhile_suffix f).length_le

theorem length_punct?_le (c : Char) (rest r : List Char) (p : Punct)
    (h : punct? c rest = some (p, r)) : r.length ≤ rest.length := by
  unfold punct? at h
  split at h <;> simp_all

theorem length_token_le (c : Char) (rest r : List Char) (t : Token)
    (h : token c rest = .ok (t, r)) : r.length ≤ rest.length := by
  unfold token at h
  split at h
  · dsimp only at h
    split at h
    · simp at h
    · simp at h
      rw [← h.2]
      exact length_dropWhile_le _ _
  · split at h
    · split at h
      · rename_i hs
        simp at h
        rw [← h.2]
        exact length_readString_le _ _ _ hs
      · simp at h
    · split at h
      · split at h
        · simp at h
          rw [← h.2]
          exact length_readNumber_le _ _
        · simp at h
      · split at h
        · simp at h
          rw [← h.2]
          exact length_dropWhile_le _ _
        · split at h
          · rename_i hp
            simp at h
            rw [← h.2]
            exact length_punct?_le _ _ _ _ hp
          · simp at h

def lexFrom (line : Nat) : List Char → Except ParseError (List Lexeme)
  | [] => .ok []
  | c :: rest =>
    if c = '\n' then lexFrom (line + 1) rest
    else if isBlank c then lexFrom line rest
    else if c = ';' then lexFrom line (rest.dropWhile (· ≠ '\n'))
    else
      match _h : token c rest with
      | .error fault => .error ⟨line, fault⟩
      | .ok (t, next) =>
        match lexFrom line next with
        | .error e => .error e
        | .ok ts => .ok (⟨t, line⟩ :: ts)
termination_by cs => cs.length
decreasing_by
  · simp
  · simp
  · have := length_dropWhile_le (fun c => decide (c ≠ '\n')) rest
    simp at this ⊢
    omega
  · have := length_token_le c rest next t _h
    simp
    omega

def lex (cs : List Char) : Except ParseError (List Lexeme) :=
  lexFrom 1 cs

end StackCode.Source
