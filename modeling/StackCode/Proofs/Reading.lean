import StackCode.Proofs.Parsing

namespace StackCode.Source

def OpTree.Alike (a b : OpTree) : Prop :=
  a.operation = b.operation ∧ a.operands = b.operands

def BranchTree.Alike (a b : BranchTree) : Prop :=
  a.target = b.target ∧ a.args = b.args

def CaseTree.Alike (a b : CaseTree) : Prop :=
  a.constants = b.constants ∧ a.branch.Alike b.branch

def FlowTree.Alike : FlowTree → FlowTree → Prop
  | .ret v, .ret w => v = w
  | .jump a, .jump b => a.Alike b
  | .switch v as a, .switch w bs b => v = w ∧ List.Forall₂ CaseTree.Alike as bs ∧ a.Alike b
  | .protect r a a', .protect s b b' => r.Alike s ∧ a.Alike b ∧ a'.Alike b'
  | .unreachable, .unreachable => True
  | _, _ => False

def StatementTree.Alike (a b : StatementTree) : Prop :=
  a.name = b.name ∧ a.op.Alike b.op

def BlockTree.Alike (a b : BlockTree) : Prop :=
  a.name = b.name ∧ a.parameters = b.parameters ∧
    List.Forall₂ StatementTree.Alike a.statements b.statements ∧ a.flow.Alike b.flow

def MethodTree.Alike (a b : MethodTree) : Prop :=
  a.name = b.name ∧ List.Forall₂ BlockTree.Alike a.blocks b.blocks

def tokens (ps : Pieces) : List Token :=
  ps.filterMap Piece.token?

@[simp] theorem tokens_nil : tokens [] = [] := rfl

@[simp] theorem tokens_append (ps qs : Pieces) : tokens (ps ++ qs) = tokens ps ++ tokens qs :=
  List.filterMap_append

@[simp] theorem tokens_token (t : Token) (ps : Pieces) : tokens (.token t :: ps) = t :: tokens ps :=
  rfl

@[simp] theorem tokens_name (s : String) (ps : Pieces) :
    tokens (Print.name s :: ps) = .name s :: tokens ps := rfl

@[simp] theorem tokens_punct (p : Punct) (ps : Pieces) :
    tokens (Print.punct p :: ps) = .punct p :: tokens ps := rfl

@[simp] theorem tokens_space (ps : Pieces) : tokens (.space :: ps) = tokens ps := rfl

@[simp] theorem tokens_indent (ps : Pieces) : tokens (.indent :: ps) = tokens ps := rfl

@[simp] theorem tokens_newline (ps : Pieces) : tokens (.newline :: ps) = tokens ps := rfl

theorem tokens_flatMap {β : Type} (f : β → Pieces) (xs : List β) :
    tokens (xs.flatMap f) = xs.flatMap fun x => tokens (f x) := by
  induction xs with
  | nil => rfl
  | cons x xs ih => simp [ih]

theorem tokens_commas {β : Type} (f : β → Pieces) (x : β) (xs : List β) :
    tokens (Print.commas ((x :: xs).map f))
      = tokens (f x) ++ xs.flatMap fun y => .punct .comma :: tokens (f y) := by
  induction xs generalizing x with
  | nil => simp [Print.commas]
  | cons y ys ih =>
    have := ih y
    simp only [List.map_cons] at this ⊢
    rw [Print.commas]
    · simp [this]
    · simp

def Cursor.tokens (c : Cursor) : List Token :=
  c.lexemes.map Lexeme.token

theorem Cursor.token?_eq (c : Cursor) : c.token? = c.tokens.head? := by
  simp [Cursor.token?, Cursor.tokens]

theorem Cursor.second?_eq (c : Cursor) : c.second? = c.tokens[1]? := by
  simp [Cursor.second?, Cursor.tokens]

theorem Cursor.isValue_iff (c : Cursor) : c.isValue ↔ ∃ v, c.tokens.head? = some (.value v) := by
  rw [Cursor.isValue, c.token?_eq]
  split
  · next h => exact ⟨fun _ => ⟨_, h⟩, fun _ => rfl⟩
  · next h => exact ⟨fun he => absurd he (by decide), fun ⟨v, hv⟩ => absurd hv (h v)⟩

theorem Cursor.length_tokens (c : Cursor) : c.tokens.length = c.lexemes.length :=
  List.length_map _

namespace Parser

variable {α β γ : Type} {ts us rest : List Token}

def Reads (p : Parser α) (ts rest : List Token) (P : α → Prop) : Prop :=
  ∀ c, c.tokens = ts ++ rest → ∃ a d, p c = .ok (a, d) ∧ d.tokens = rest ∧ P a

theorem Reads.bind {p : Parser α} {f : α → Parser β} {P : α → Prop} {Q : β → Prop}
    (hp : Reads p ts (us ++ rest) P) (hf : ∀ a, P a → Reads (f a) us rest Q) :
    Reads (p >>= f) (ts ++ us) rest Q := by
  intro c hc
  obtain ⟨a, d, hpc, hd, ha⟩ := hp c (by rw [hc, List.append_assoc])
  obtain ⟨b, e, hfd, he, hb⟩ := hf a ha d hd
  exact ⟨b, e, by rw [bind_run, hpc]; exact hfd, he, hb⟩

theorem Reads.cons {t : Token} {p : Parser α} {f : α → Parser β} {P : α → Prop} {Q : β → Prop}
    (hp : Reads p [t] (us ++ rest) P) (hf : ∀ a, P a → Reads (f a) us rest Q) :
    Reads (p >>= f) (t :: us) rest Q :=
  hp.bind hf

theorem Reads.skip {p : Parser α} {f : α → Parser β} {P : α → Prop} {Q : β → Prop}
    (hp : Reads p [] (us ++ rest) P) (hf : ∀ a, P a → Reads (f a) us rest Q) :
    Reads (p >>= f) us rest Q :=
  hp.bind hf

theorem reads_pure {a : α} {P : α → Prop} (h : P a) : Reads (pure a) [] rest P :=
  fun c hc => ⟨a, c, rfl, hc, h⟩

theorem Reads.last {p : Parser α} {f : α → β} {P : α → Prop} {Q : β → Prop}
    (hp : Reads p ts rest P) (hf : ∀ a, P a → Q (f a)) :
    Reads (p >>= fun a => pure (f a)) ts rest Q := by
  intro c hc
  obtain ⟨a, d, hpc, hd, ha⟩ := hp c hc
  exact ⟨f a, d, by rw [bind_run, hpc]; rfl, hd, hf a ha⟩

theorem Reads.mono {p : Parser α} {P Q : α → Prop} (h : Reads p ts rest P) (hq : ∀ a, P a → Q a) :
    Reads p ts rest Q := by
  intro c hc
  obtain ⟨a, d, hp, hd, ha⟩ := h c hc
  exact ⟨a, d, hp, hd, hq a ha⟩

theorem eq_of_forall₂ {as bs : List α} (h : List.Forall₂ (· = ·) as bs) : as = bs := by
  rwa [List.forall₂_eq_eq_eq] at h

theorem reads_get {f : Cursor → Parser β} {Q : β → Prop}
    (h : ∀ c, c.tokens = ts ++ rest → Reads (f c) ts rest Q) : Reads (get >>= f) ts rest Q := by
  intro c hc
  exact h c hc c hc

theorem reads_line : Reads line [] rest fun _ => True :=
  fun c hc => ⟨c.line, c, rfl, hc, trivial⟩

theorem reads_take {t : Token} {what : Expectation} {accept : Token → Option α} {a : α}
    (h : accept t = some a) : Reads (take what accept) [t] rest (· = a) := by
  rintro ⟨ls, n⟩ hc
  cases ls with
  | nil => cases hc
  | cons l ls =>
    obtain ⟨hl, hls⟩ := List.cons.inj hc
    exact ⟨a, ⟨ls, n⟩, by simp only [take, hl, h], hls, rfl⟩

theorem reads_expect (t : Token) (what : Expectation) : Reads (expect t what) [t] rest (· = ()) :=
  reads_take (if_pos rfl)

theorem reads_punct (p : Punct) : Reads (punct p) [.punct p] rest (· = ()) :=
  reads_expect _ _

theorem reads_keyword (s : String) : Reads (keyword s) [.name s] rest (· = ()) :=
  reads_expect _ _

theorem reads_name (s : String) : Reads name [.name s] rest (· = s) :=
  reads_take rfl

theorem reads_value (s : String) : Reads value [.value s] rest (· = s) :=
  reads_take rfl

theorem reads_eat (t : Token) : Reads (eat t) [t] rest (· = true) := by
  intro c hc
  have ht : c.token? = some t := by rw [c.token?_eq, hc]; rfl
  refine ⟨true, { c with lexemes := c.lexemes.tail }, by simp only [eat, if_pos ht], ?_, rfl⟩
  rw [Cursor.tokens] at hc
  simp [Cursor.tokens, List.map_tail, hc]

theorem reads_eat_none {t : Token} (h : rest.head? ≠ some t) :
    Reads (eat t) [] rest (· = false) := by
  intro c hc
  have ht : c.token? ≠ some t := by rwa [c.token?_eq, hc]
  exact ⟨false, c, by simp only [eat, if_neg ht], hc, rfl⟩

/-- A repetition takes one item after the other. What follows an item, another one or `rest`, has to
satisfy `G`. -/
theorem reads_repeatUntil {stop : Cursor → Bool} {S : List Token → Bool}
    (hS : ∀ c, stop c = S c.tokens) {p : Parser α} {R : α → β → Prop} {G : List Token → Prop}
    {f : β → List Token} {xs : List β}
    (hx : ∀ x ∈ xs, ∀ r, f x ≠ [] ∧ S (f x ++ r) = false ∧ G (f x ++ r) ∧
      (G r → Reads p (f x) r (R · x)))
    (hstop : S rest = true) (hG : G rest) :
    Reads (repeatUntil stop p) (xs.flatMap f) rest (List.Forall₂ R · xs) := by
  induction xs with
  | nil =>
    intro c hc
    refine ⟨[], c, ?_, hc, .nil⟩
    rw [repeatUntil, if_pos (by rw [hS, hc]; exact hstop)]
  | cons x xs ih =>
    rw [List.forall_mem_cons] at hx
    intro c hc
    have hg : G (xs.flatMap f ++ rest) := by
      cases xs with
      | nil => exact hG
      | cons y ys =>
        rw [List.flatMap_cons, List.append_assoc]
        exact (hx.2 y List.mem_cons_self _).2.2.1
    rw [List.flatMap_cons, List.append_assoc] at hc
    obtain ⟨hne, hs, -, hp⟩ := hx.1 (xs.flatMap f ++ rest)
    obtain ⟨a, d, hpc, hd, ha⟩ := hp hg c hc
    obtain ⟨as, e, hr, he, has⟩ := ih hx.2 d hd
    have hlt : d.lexemes.length < c.lexemes.length := by
      have := List.length_pos_iff.mpr hne
      rw [← c.length_tokens, ← d.length_tokens, hc, hd]
      simp only [List.length_append]
      omega
    refine ⟨a :: as, e, ?_, he, .cons ha has⟩
    rw [repeatUntil, if_neg (by rw [hS, hc, hs]; simp)]
    simp only [hpc, if_pos hlt, hr]

theorem reads_upTo {q : Punct} {p : Parser α} {R : α → β → Prop} {G : List Token → Prop}
    {f : β → List Token} {xs : List β}
    (hx : ∀ x ∈ xs, ∀ r, f x ≠ [] ∧ (f x ++ r).head? ≠ some (.punct q) ∧ G (f x ++ r) ∧
      (G r → Reads p (f x) r (R · x)))
    (hG : G (.punct q :: rest)) :
    Reads (upTo q p) (xs.flatMap f ++ [.punct q]) rest (List.Forall₂ R · xs) := by
  refine Reads.bind (P := (List.Forall₂ R · xs)) ?_ fun as has => ?_
  · refine reads_repeatUntil (S := fun ts => ts.head? = some (.punct q)) (G := G) ?_ ?_ ?_ hG
    · intro c
      rw [c.token?_eq]
    · intro x hm r
      obtain ⟨h1, h2, h3, h4⟩ := hx x hm r
      exact ⟨h1, by simpa using h2, h3, h4⟩
    · simp
  · exact (reads_punct q).last fun _ _ => has

theorem reads_commaList {q : Punct} (hq : q ≠ .comma) {p : Parser α} {R : α → β → Prop}
    {f : β → Pieces} {xs : List β}
    (hx : ∀ x ∈ xs, (∀ r, (tokens (f x) ++ r).head? ≠ some (.punct q)) ∧
      ∀ r, Reads p (tokens (f x)) r (R · x)) :
    Reads (commaList q p) (tokens (Print.commas (xs.map f)) ++ [.punct q]) rest
      (List.Forall₂ R · xs) := by
  cases xs with
  | nil =>
    refine Reads.cons (reads_eat _) fun b hb => ?_
    subst hb
    exact reads_pure .nil
  | cons x xs =>
    rw [List.forall_mem_cons] at hx
    rw [tokens_commas, List.append_assoc]
    refine Reads.skip (reads_eat_none ?_) fun b hb => ?_
    · rw [List.append_assoc]
      exact hx.1.1 _
    subst hb
    refine Reads.bind (hx.1.2 _) fun a ha => ?_
    refine Reads.last (P := (List.Forall₂ R · xs)) ?_ fun as has => .cons ha has
    apply reads_upTo (G := fun _ => True)
    · intro y hy r
      refine ⟨by simp, by simpa using hq.symm, trivial, fun _ => ?_⟩
      exact Reads.cons (reads_punct _) fun _ _ => (hx.2 y hy).2 r
    · trivial

theorem type_opener {l : Lexeme} {ls : List Lexeme} {n : Nat} {o : Opener} {k : Ty → Parser Ty}
    (ho : opener? l.token = some o) (hk : ∀ t os, close t (o :: os) = close t os >>= k) :
    type ⟨l :: ls, n⟩ = (type >>= k) ⟨ls, n⟩ := by
  have hl : openers ⟨l :: ls, n⟩ = .ok (o :: (openersOf ls).1, ⟨(openersOf ls).2, n⟩) := by
    simp only [openers, openersOf, ho]
  calc type ⟨l :: ls, n⟩
      = (plainType >>= fun t => close t (o :: (openersOf ls).1)) ⟨(openersOf ls).2, n⟩ := by
        rw [type, bind_run, hl]
        rfl
    _ = ((plainType >>= fun t => close t (openersOf ls).1) >>= k) ⟨(openersOf ls).2, n⟩ := by
        simp only [hk, bind_assoc]
    _ = (type >>= k) ⟨ls, n⟩ := rfl

theorem Reads.opener {t : Token} {o : Opener} {k : Ty → Parser Ty} {P : Ty → Prop}
    (h : Reads (type >>= k) ts rest P) (ho : opener? t = some o)
    (hk : ∀ t os, close t (o :: os) = close t os >>= k) : Reads type (t :: ts) rest P := by
  rintro ⟨ls, n⟩ hc
  cases ls with
  | nil => cases hc
  | cons l ls =>
    obtain ⟨hl, hls⟩ := List.cons.inj hc
    rw [type_opener (by rw [hl]; exact ho) hk]
    exact h ⟨ls, n⟩ hls

theorem Reads.plain {s : String} {t : Ty} (hs : opener? (.name s) = none)
    (h : Reads plainType (.name s :: ts) rest (· = t)) : Reads type (.name s :: ts) rest
    (· = t) := by
  refine Reads.skip (P := (· = [])) ?_ fun os hos => ?_
  · rintro ⟨ls, n⟩ hc
    cases ls with
    | nil => cases hc
    | cons l ls =>
      obtain ⟨hl, -⟩ := List.cons.inj hc
      exact ⟨[], ⟨l :: ls, n⟩, by simp only [openers, openersOf, hl, hs], hc, rfl⟩
  · subst hos
    intro c hc
    obtain ⟨a, d, hp, hd, rfl⟩ := h c hc
    exact ⟨a, d, by rw [bind_run, hp]; rfl, hd, rfl⟩

theorem intType?_sized {bits : Nat} (h : 1 ≤ bits ∧ bits ≤ 128) :
    intType? ("i" ++ natText bits) = some (.int ⟨bits, true⟩) ∧
      intType? ("u" ++ natText bits) = some (.int ⟨bits, false⟩) := by
  have hi : ("i" ++ natText bits).toList = 'i' :: decimalDigits bits := by simp [natText]
  have hu : ("u" ++ natText bits).toList = 'u' :: decimalDigits bits := by simp [natText]
  simp [intType?, hi, hu, digitsValue?_decimalDigits, h]

theorem reads_sized {s : String} {c d : Char} {cs : List Char} {t : Ty}
    (hs : s.toList = c :: d :: cs) (hc : c ≠ 'f') (hd : d.isDigit) (ht : intType? s = some t) :
    Reads type [.name s] rest (· = t) := by
  refine Reads.plain ?_ (Reads.cons (reads_name s) fun a ha => ?_)
  · unfold opener?
    split
    case h_4 he =>
      cases he
      cases hs
      cases hd
    all_goals first | contradiction | rfl
  · subst ha
    split
    case h_10 =>
      rw [ht]
      exact reads_pure rfl
    all_goals
      cases hs
      first | exact absurd rfl hc | cases hd

theorem reads_int {s : IntShape} (h : 1 ≤ s.bits ∧ s.bits ≤ 128) :
    Reads type [.name (Ty.int s).text] rest (· = .int s) := by
  obtain ⟨bits, signed⟩ := s
  obtain ⟨hi, hu⟩ := intType?_sized h
  obtain ⟨d, ds, hds⟩ := List.exists_cons_of_ne_nil (decimalDigits_ne_nil bits)
  have hd : d.isDigit := isDigit_of_mem_decimalDigits (n := bits) (by simp [hds])
  have hti : ("i" ++ natText bits).toList = 'i' :: d :: ds := by simp [natText, hds]
  have htu : ("u" ++ natText bits).toList = 'u' :: d :: ds := by simp [natText, hds]
  cases signed with
  | true =>
    have ht : (Ty.int ⟨bits, true⟩).text = "i" ++ natText bits := by rw [Ty.text]
    rw [ht]
    exact reads_sized hti (by decide) hd hi
  | false =>
    by_cases hb : bits = 1
    · subst hb
      exact Reads.plain rfl (Reads.cons (reads_name _) (by rintro _ rfl; exact reads_pure rfl))
    by_cases hc : bits = 16
    · subst hc
      exact Reads.plain rfl (Reads.cons (reads_name _) (by rintro _ rfl; exact reads_pure rfl))
    have ht : (Ty.int ⟨bits, false⟩).text = "u" ++ natText bits := by
      rw [Ty.text]
      · exact hb
      · exact hc
    rw [ht]
    exact reads_sized htu (by decide) hd hu

theorem reads_type {t : Ty} (h : t.Sound) : Reads type (tokens (Print.type t)) rest (· = t) := by
  induction t generalizing rest with
  | pointer kind t ih =>
    cases kind with
    | transient | reference | boxed =>
      exact ((ih h).last fun _ he => congrArg _ he).opener rfl fun _ _ => rfl
  | array t ih =>
    simp only [Print.type, List.cons_append, tokens_punct, tokens_append]
    apply Reads.opener _ rfl fun _ _ => rfl
    refine (ih h).bind fun t ht => ?_
    subst ht
    exact (reads_punct _).last fun _ _ => rfl
  | record s | object s =>
    refine Reads.plain rfl (Reads.cons (reads_name _) fun a ha => ?_)
    subst ha
    exact (reads_name s).last fun _ he => congrArg _ he
  | int s => exact reads_int h
  | word signed =>
    cases signed <;>
    · refine Reads.plain rfl (Reads.cons (reads_name _) fun a ha => ?_)
      subst ha
      exact reads_pure rfl
  | void | float32 | float64 =>
    refine Reads.plain rfl (Reads.cons (reads_name _) fun a ha => ?_)
    subst ha
    exact reads_pure rfl

def besideTypes : List Token :=
  [.punct .closeParen, .name "static", .name "virtual", .name "constrained", .name "volatile",
    .name "align"]

theorem head_type (t : Ty) : ∃ k ks, tokens (Print.type t) = k :: ks ∧ k ∉ besideTypes := by
  cases t with
  | pointer kind t => cases kind <;> exact ⟨_, _, rfl, by decide⟩
  | int s =>
    refine ⟨_, _, rfl, ?_⟩
    obtain ⟨bits, signed⟩ := s
    unfold Ty.text
    split
    case h_4 | h_5 =>
      simp only [besideTypes, List.mem_cons, Token.name.injEq, reduceCtorEq, ← String.toList_inj,
        String.toList_append]
      simp
    all_goals first | decide | contradiction
  | word signed => cases signed <;> exact ⟨_, _, rfl, by decide⟩
  | array t | record s | object s | void | float32 | float64 => exact ⟨_, _, rfl, by decide⟩

theorem head_ne_of_type (t : Ty) {k : Token} (hk : k ∈ besideTypes) :
    (tokens (Print.type t) ++ rest).head? ≠ some k := by
  obtain ⟨l, ls, ht, hl⟩ := head_type t
  rw [ht]
  simp only [List.cons_append, List.head?_cons, ne_eq, Option.some.injEq]
  rintro rfl
  exact hl hk

theorem reads_typeList {l : List Ty} (h : ∀ t ∈ l, t.Sound) :
    Reads typeList (tokens (Print.typeList l)) rest (· = l) := by
  simp only [Print.typeList, List.cons_append, tokens_punct, tokens_append]
  refine Reads.cons (reads_punct _) fun _ _ => ?_
  refine Reads.mono (reads_commaList (by decide) (R := (· = ·)) fun t ht => ?_) fun _ =>
    eq_of_forall₂
  exact ⟨fun r => head_ne_of_type t (by decide), fun r => reads_type (h t ht)⟩

theorem reads_field {f : Field} (h : f.Sound) :
    Reads (field f.isStatic) (tokens (Print.field f)) rest (· = f) := by
  obtain ⟨ho, hn, ht⟩ := h
  simp only [Print.field, List.append_assoc, List.cons_append, List.nil_append, tokens_append,
    tokens_punct, tokens_name, tokens_space]
  refine (reads_type ho).bind ?_
  rintro _ rfl
  refine Reads.cons (reads_punct _) fun _ _ => Reads.cons (reads_name _) ?_
  rintro _ rfl
  refine Reads.cons (reads_punct _) fun _ _ => (reads_type ht).last ?_
  rintro _ rfl
  rfl

theorem reads_method {m : Method} (h : m.Sound) :
    Reads method (tokens (Print.method m)) rest (· = m) := by
  obtain ⟨owner, name, parameters, returns, isStatic⟩ := m
  obtain ⟨ho, hn, hp, hr⟩ := h
  have hrest : Reads (type >>= fun returns => type >>= fun owner => punct .doubleColon >>= fun _ =>
      Parser.name >>= fun name => typeList >>= fun ts =>
        pure (⟨owner, name, ts, returns, isStatic⟩ : Method))
      (tokens (Print.type returns) ++ (tokens (Print.type owner) ++
        (.punct .doubleColon :: .name name :: tokens (Print.typeList parameters)))) rest
      (· = ⟨owner, name, parameters, returns, isStatic⟩) := by
    refine (reads_type hr).bind ?_
    rintro _ rfl
    refine (reads_type ho).bind ?_
    rintro _ rfl
    refine Reads.cons (reads_punct _) fun _ _ => Reads.cons (reads_name _) ?_
    rintro _ rfl
    refine (reads_typeList hp).last ?_
    rintro _ rfl
    rfl
  cases isStatic with
  | true =>
    simp only [Print.method, if_true, List.append_assoc, List.cons_append, List.nil_append,
      tokens_append, tokens_punct, tokens_name, tokens_space]
    exact Reads.cons (reads_eat _) (by rintro _ rfl; exact hrest)
  | false =>
    simp only [Print.method, Bool.false_eq_true, if_false, List.append_assoc, List.cons_append,
      List.nil_append, tokens_append, tokens_punct, tokens_name, tokens_space]
    refine Reads.skip (reads_eat_none ?_) (by rintro _ rfl; exact hrest)
    rw [List.append_assoc]
    exact head_ne_of_type returns (by decide)

theorem reads_lookup {l : Lookup} (h : l.Sound) (hv : rest.head? ≠ some (.name "virtual"))
    (hc : rest.head? ≠ some (.name "constrained")) :
    Reads lookup (tokens (Print.lookup l)) rest (· = l) := by
  cases l with
  | static =>
    refine Reads.skip (reads_eat_none hv) ?_
    rintro _ rfl
    refine Reads.skip (reads_eat_none hc) ?_
    rintro _ rfl
    exact reads_pure rfl
  | virtual =>
    refine Reads.cons (reads_eat _) ?_
    rintro _ rfl
    exact reads_pure rfl
  | constrained t =>
    simp only [Print.lookup, List.cons_append, List.nil_append, tokens_append, tokens_name,
      tokens_space, tokens_nil, List.append_nil]
    refine Reads.skip (reads_eat_none (by simp)) ?_
    rintro _ rfl
    refine Reads.cons (reads_eat _) ?_
    rintro _ rfl
    refine (reads_type h).last ?_
    rintro _ rfl
    rfl

theorem head_method (m : Method) {k : Token} (hk : k ∈ besideTypes) (hs : k ≠ .name "static") :
    (tokens (Print.method m) ++ rest).head? ≠ some k := by
  by_cases hm : m.isStatic
  · simpa [Print.method, hm] using hs.symm
  · simp only [Print.method, hm, List.append_assoc, tokens_append, Bool.false_eq_true, if_false,
      List.nil_append]
    exact head_ne_of_type m.returns hk

theorem reads_constant {c : Constant} {t : Ty} (hp : c.Plain)
    (he : c.int?.isSome → t.isFloat = false) :
    Reads (constant t) (tokens [Print.constant c]) rest (· = c) := by
  cases c with
  | int v =>
    apply reads_take
    have ht := he rfl
    cases t <;> first | rfl | cases ht
  | float32 x | float64 x => exact hp.elim
  | null | default | string s => exact reads_take rfl

theorem reads_memoryFlags {f : MemoryFlags} (h : f.Sound)
    (hv : rest.head? ≠ some (.name "volatile")) (ha : rest.head? ≠ some (.name "align")) :
    Reads memoryFlags (tokens (Print.memoryFlags f)) rest (· = f) := by
  obtain ⟨volatile, alignment⟩ := f
  cases alignment with
  | none =>
    have halign : Reads (eatKeyword "align") [] rest (· = false) := reads_eat_none ha
    cases volatile with
    | true =>
      refine Reads.cons (reads_eat _) fun _ hv => Reads.skip halign fun _ ha => ?_
      subst hv ha
      exact reads_pure rfl
    | false =>
      refine Reads.skip (reads_eat_none hv) fun _ hv => Reads.skip halign fun _ ha => ?_
      subst hv ha
      exact reads_pure rfl
  | some n =>
    have hn : alignment? (.int n) = some n := by
      have := h n rfl
      rw [alignment?, if_pos (by omega), Int.toNat_natCast]
    cases volatile with
    | true =>
      refine Reads.cons (reads_eat _) fun _ hv => Reads.cons (reads_eat _) fun _ ha => ?_
      subst hv ha
      exact (reads_take hn).last (by rintro _ rfl; rfl)
    | false =>
      refine Reads.skip (reads_eat_none (by simp [Print.memoryFlags])) fun _ hv =>
        Reads.cons (reads_eat _) fun _ ha => ?_
      subst hv ha
      exact (reads_take hn).last (by rintro _ rfl; rfl)

def EndsOperands (ts : List Token) : Prop :=
  ts.head? ≠ some (.punct .comma) ∧ ts.head? ≠ some (.punct .equals) ∧
    ∀ v, ts.head? = some (.value v) → ts[1]? = some (.punct .equals)

def operandTokens (vs : List String) : List Token :=
  tokens (if vs.isEmpty then [] else .space :: Print.commas (vs.map fun s => [.token (.value s)]))

def moreOperands : List Token → Bool
  | .punct .comma :: .value _ :: _ => true
  | _ => false

theorem moreOperands_eq (c : Cursor) :
    (c.token? = some (.punct .comma) && match c.second? with
      | some (.value _) => true
      | _ => false) = moreOperands c.tokens := by
  rw [c.token?_eq, c.second?_eq]
  cases c.tokens with
  | nil => rfl
  | cons t ts =>
    by_cases ht : t = .punct .comma
    · subst ht
      cases ts with
      | nil => rfl
      | cons u ts => cases u <;> rfl
    · have : moreOperands (t :: ts) = false := by
        unfold moreOperands
        split
        · next he => exact absurd (List.cons.inj he).1 ht
        · rfl
      simp [ht, this]

theorem reads_operands (vs : List String) (h : EndsOperands rest) :
    Reads operands (operandTokens vs) rest (· = vs) := by
  cases vs with
  | nil =>
    refine reads_get fun c hc => ?_
    rw [if_pos]
    · exact reads_pure rfl
    · have hc : c.tokens = rest := hc
      rw [c.second?_eq, hc]
      cases hv : c.isValue with
      | false => rfl
      | true =>
        obtain ⟨v, hv⟩ := c.isValue_iff.mp hv
        simp [h.2.2 v (by rw [← hc, hv])]
  | cons v vs =>
    have ht : operandTokens (v :: vs) = .value v :: vs.flatMap fun w =>
        [.punct .comma, .value w] := by
      rw [operandTokens, if_neg (by simp), tokens_space, tokens_commas]
      rfl
    rw [ht]
    refine reads_get fun c hc => ?_
    rw [if_neg]
    · refine Reads.cons (reads_value v) ?_
      rintro _ rfl
      refine Reads.last (P := (· = vs)) ?_ (by rintro _ rfl; rfl)
      refine Reads.mono (reads_repeatUntil (S := fun ts => !moreOperands ts) (G := fun _ => True)
        (R := (· = ·)) ?_ ?_ ?_ trivial) fun _ => eq_of_forall₂
      · exact fun c => congrArg (!·) (moreOperands_eq c)
      · intro w _ r
        refine ⟨by simp, rfl, trivial, fun _ => ?_⟩
        exact Reads.cons (reads_punct _) fun _ _ => reads_value w
      · unfold moreOperands
        split
        · exact absurd rfl h.1
        · rfl
    · have hv : c.isValue := c.isValue_iff.mpr ⟨v, by rw [hc]; rfl⟩
      rw [hv, c.second?_eq, hc]
      cases vs with
      | nil =>
        have := h.2.1
        cases rest <;> simp_all
      | cons w vs => simp

theorem reads_intrinsic {s : String} {t : Ty} {vs : List String} {line : Nat}
    (hs : s.toList.contains '.')
    (ht : t.Sound) (h : EndsOperands rest) (hc : rest.head? ≠ some (.punct .colon)) :
    Reads (operation line s) (operandTokens vs ++ tokens (Print.suffix (.intrinsic s t []))) rest
      (· = (.intrinsic s t [], vs)) := by
  unfold operation
  split
  case h_18 =>
    rw [if_pos hs]
    by_cases hv : t.isVoid
    · obtain rfl : t = .void := by
        cases t <;> first | rfl | cases hv
      refine (reads_operands vs h).bind ?_
      rintro _ rfl
      refine Reads.skip (reads_eat_none hc) ?_
      rintro _ rfl
      exact reads_pure rfl
    · have hsuf : tokens (Print.suffix (.intrinsic s t []))
          = .punct .colon :: tokens (Print.type t) := by
        simp [Print.suffix, hv]
      rw [hsuf]
      refine (reads_operands vs ?_).bind ?_
      · simp [EndsOperands]
      rintro _ rfl
      refine Reads.cons (reads_eat _) ?_
      rintro _ rfl
      refine (reads_type ht).last ?_
      rintro _ rfl
      rfl
  all_goals exact absurd hs (by decide)

theorem reads_withOperands {o : Operation} {vs : List String} (h : EndsOperands rest) :
    Reads (operands >>= fun vs => pure (o, vs)) (operandTokens vs) rest (· = (o, vs)) :=
  (reads_operands vs h).last (by rintro _ rfl; rfl)

theorem reads_operation {o : Operation} {vs : List String} {line : Nat} (hs : o.Sound vs)
    (hp : o.Plain) (he : o.Exact) (h : EndsOperands rest) (hi : ∀ s t ps, o ≠ .intrinsic s t ps) :
    Reads (operation line o.kind) (tokens (Print.payload o) ++ operandTokens vs) rest
      (· = (o, vs)) := by
  cases o with
  | intrinsic s t ps => exact absurd rfl (hi s t ps)
  | const c t =>
    obtain ⟨ht, -, rfl⟩ := hs
    simp only [Operation.kind, operation, Print.payload, tokens_append, tokens_space,
      List.append_assoc]
    refine (reads_type ht).bind ?_
    rintro _ rfl
    exact (reads_constant hp he).bind (by rintro _ rfl; exact reads_pure rfl)
  | copy t | reinterpret t | dynamicCast t | box t | unbox t | allocaArray t =>
    simp only [Operation.kind, operation, Print.payload]
    exact (reads_type hs).bind (by rintro _ rfl; exact reads_withOperands h)
  | alloca t =>
    obtain ⟨ht, rfl⟩ := hs
    simp only [Operation.kind, operation, Print.payload]
    exact (reads_type ht).bind (by rintro _ rfl; exact reads_pure rfl)
  | fieldAddress f =>
    have hf : Reads (field f.isStatic) _ (operandTokens vs ++ rest) _ := reads_field hs.1
    rw [hs.2] at hf
    simp only [Operation.kind, operation, Print.payload]
    exact hf.bind (by rintro _ rfl; exact reads_withOperands h)
  | staticFieldAddress f =>
    obtain ⟨hf, hstatic, rfl⟩ := hs
    have hf : Reads (field f.isStatic) _ (operandTokens [] ++ rest) _ := reads_field hf
    rw [hstatic] at hf
    simp only [Operation.kind, operation, Print.payload]
    exact hf.bind (by rintro _ rfl; exact reads_pure rfl)
  | load t flags | store t flags =>
    simp only [Operation.kind, operation, Print.payload, tokens_append, List.append_assoc]
    refine (reads_memoryFlags hs.2 ?_ ?_).bind ?_
    · rw [List.append_assoc]
      exact head_ne_of_type t (by decide)
    · rw [List.append_assoc]
      exact head_ne_of_type t (by decide)
    · rintro _ rfl
      exact (reads_type hs.1).bind (by rintro _ rfl; exact reads_withOperands h)
  | storeField f =>
    have hf : Reads (field f.isStatic >>= fun f => operands >>= fun vs =>
        pure (Operation.storeField f, vs))
        (tokens (Print.field f) ++ operandTokens vs) rest (· = (Operation.storeField f, vs)) :=
      (reads_field hs).bind (by rintro _ rfl; exact reads_withOperands h)
    simp only [Operation.kind, operation, Print.payload]
    -- A word before the field tells that it is static.
    by_cases hb : f.isStatic
    · rw [hb] at hf
      simp only [hb, if_true, List.cons_append, List.nil_append, tokens_name, tokens_space]
      exact Reads.cons (reads_eat _) (by rintro _ rfl; exact hf)
    · rw [Bool.not_eq_true] at hb
      rw [hb] at hf
      simp only [hb, Bool.false_eq_true, if_false, List.nil_append]
      refine Reads.skip (reads_eat_none ?_) (by rintro _ rfl; exact hf)
      simp only [Print.field, List.append_assoc, tokens_append]
      exact head_ne_of_type _ (by decide)
  | call m l =>
    simp only [Operation.kind, operation, Print.payload, tokens_append, List.append_assoc]
    refine (reads_lookup hs.2 ?_ ?_).bind ?_
    · rw [List.append_assoc]
      exact head_method m (by decide) (by decide)
    · rw [List.append_assoc]
      exact head_method m (by decide) (by decide)
    · rintro _ rfl
      exact (reads_method hs.1).bind (by rintro _ rfl; exact reads_withOperands h)
  | new m =>
    obtain ⟨owner, name, parameters, returns, isStatic⟩ := m
    obtain ⟨⟨ho, -, hps, -⟩, rfl, rfl, rfl⟩ := hs
    simp only [Operation.kind, operation, Print.payload, tokens_append, List.append_assoc]
    refine (reads_type ho).bind ?_
    rintro _ rfl
    exact (reads_typeList hps).bind (by rintro _ rfl; exact reads_withOperands h)
  | newDelegate t m hasReceiver l =>
    obtain ⟨ht, hm, hl, rfl⟩ := hs
    simp only [Operation.kind, operation, Print.payload, tokens_append, tokens_punct, tokens_space,
      List.append_assoc, List.cons_append, List.nil_append]
    refine (reads_type ht).bind ?_
    rintro _ rfl
    refine Reads.cons (reads_punct _) fun _ _ => (reads_lookup hl ?_ ?_).bind ?_
    · rw [List.append_assoc]
      exact head_method m (by decide) (by decide)
    · rw [List.append_assoc]
      exact head_method m (by decide) (by decide)
    · rintro _ rfl
      refine (reads_method hm).bind ?_
      rintro _ rfl
      exact (reads_operands vs h).last (by rintro _ rfl; rfl)
  | sizeOf measured t =>
    obtain ⟨ht, hm, rfl⟩ := hs
    simp only [Operation.kind, operation, Print.payload, tokens_append, tokens_space, tokens_nil,
      List.append_assoc, List.nil_append]
    refine (reads_type ht).bind ?_
    rintro _ rfl
    exact (reads_type hm).bind (by rintro _ rfl; exact reads_pure rfl)

def EndsOp (ts : List Token) : Prop :=
  EndsOperands ts ∧ ts.head? ≠ some (.punct .colon)

theorem tokens_op {o : OpTree} (hi : ∀ s t ps, o.operation ≠ .intrinsic s t ps) :
    tokens o.pieces
      = .name o.operation.kind :: (tokens (Print.payload o.operation)
        ++ operandTokens o.operands) := by
  have hsuffix : Print.suffix o.operation = [] := by
    rw [Print.suffix]
    exact hi
  rw [OpTree.pieces, hsuffix, Print.operation]
  · simp [operandTokens]
  · exact hi

theorem tokens_intrinsic (s : String) (t : Ty) (ps : List Ty) (vs : List String) (line : Nat) :
    tokens (OpTree.mk (.intrinsic s t ps) vs line).pieces
      = .name s :: (operandTokens vs ++ tokens (Print.suffix (.intrinsic s t ps))) := by
  simp [OpTree.pieces, Print.operation, operandTokens]

theorem reads_op {o : OpTree} (hs : o.Sound) (hp : o.Plain) (h : EndsOp rest) :
    Reads op (tokens o.pieces) rest (·.Alike o) := by
  refine Reads.skip reads_line fun line _ => ?_
  have hrest : ∀ s ks, Reads (operation line s) ks rest (· = (o.operation, o.operands)) →
      Reads (Parser.name >>= fun s => operation line s >>= fun r =>
        pure (⟨r.1, r.2, line⟩ : OpTree)) (.name s :: ks) rest (·.Alike o) := by
    intro s ks hr
    refine Reads.cons (reads_name s) ?_
    rintro _ rfl
    refine hr.last ?_
    rintro _ rfl
    exact ⟨rfl, rfl⟩
  by_cases hi : ∀ s t ps, o.operation ≠ .intrinsic s t ps
  · rw [tokens_op hi]
    exact hrest _ _ (reads_operation hs.1 hp.1 hp.2 h.1 hi)
  · obtain ⟨operation, operands, l⟩ := o
    simp only [ne_eq, not_forall, not_not] at hi
    obtain ⟨s, t, ps, rfl⟩ := hi
    obtain ⟨⟨hname, hdot, ht, rfl⟩, -⟩ := hs
    rw [tokens_intrinsic]
    exact hrest s _ (reads_intrinsic hdot ht h.1 h.2)

theorem head_op {o : OpTree} (hs : o.Sound) :
    ∃ s ks, tokens o.pieces = .name s :: ks ∧ flow? s = none := by
  by_cases hi : ∀ s t ps, o.operation ≠ .intrinsic s t ps
  · refine ⟨_, _, tokens_op hi, ?_⟩
    cases o.operation <;> rfl
  · obtain ⟨operation, operands, l⟩ := o
    simp only [ne_eq, not_forall, not_not] at hi
    obtain ⟨s, t, ps, rfl⟩ := hi
    refine ⟨s, _, tokens_intrinsic s t ps operands l, ?_⟩
    have hdot := hs.1.2.1
    unfold flow?
    split
    case h_6 => rfl
    all_goals exact absurd hdot (by decide)

theorem reads_branch {b : BranchTree} (hb : rest.head? ≠ some (.punct .openParen)) :
    Reads branch (tokens b.pieces) rest (·.Alike b) := by
  refine Reads.skip reads_line fun line _ => ?_
  by_cases he : b.args.isEmpty
  · simp only [BranchTree.pieces, he, if_true]
    refine Reads.cons (reads_take (a := b.target) rfl) ?_
    rintro _ rfl
    refine Reads.skip (reads_eat_none hb) ?_
    rintro _ rfl
    exact reads_pure ⟨rfl, (List.isEmpty_iff.mp he).symm⟩
  · simp only [BranchTree.pieces, he, Bool.false_eq_true, if_false, List.cons_append,
      List.nil_append, tokens_token, tokens_punct, tokens_append]
    refine Reads.cons (reads_take (a := b.target) rfl) ?_
    rintro _ rfl
    refine Reads.cons (reads_eat _) ?_
    rintro _ rfl
    refine Reads.last (P := (· = b.args)) ?_ (by rintro _ rfl; exact ⟨rfl, rfl⟩)
    refine Reads.mono (reads_commaList (by decide) (R := (· = ·)) fun a _ => ?_) fun _ =>
      eq_of_forall₂
    constructor
    · cases a <;> simp [ArgTree.piece]
    · cases a <;> exact fun r => reads_take rfl

def armTokens (c : CaseTree) : List Token :=
  if c.constants.isEmpty then [.name "default", .punct .arrow] ++ tokens c.branch.pieces
  else tokens c.pieces

theorem head_constant {k : Constant} (hp : k.Plain) (hd : k ≠ .default) :
    ∃ t, tokens [Print.constant k] = [t] ∧ t ≠ .name "default" ∧ ∀ p, t ≠ .punct p := by
  cases k with
  | float32 x | float64 x => exact hp.elim
  | default => exact absurd rfl hd
  | int v | null | string s => exact ⟨_, rfl, by simp, by simp⟩

theorem armTokens_default {c : CaseTree} (hc : c.constants = []) :
    armTokens c = .name "default" :: .punct .arrow :: tokens c.branch.pieces := by
  simp [armTokens, hc]

theorem armTokens_case {c : CaseTree} {k : Constant} {ks : List Constant}
    (hc : c.constants = k :: ks) :
    armTokens c = tokens [Print.constant k] ++
      (ks.flatMap (fun k => .punct .comma :: tokens [Print.constant k]) ++
        .punct .arrow :: tokens c.branch.pieces) := by
  rw [armTokens, if_neg (by simp [hc]), CaseTree.pieces, hc]
  simp only [tokens_append, tokens_commas, tokens_indent, tokens_space, tokens_punct,
    tokens_newline, tokens_nil, List.nil_append, List.append_nil, List.append_assoc,
    List.cons_append]

theorem head_arm {c : CaseTree} (h : c.constants ≠ [] → c.Sound) (hp : c.Plain) :
    ∃ t ts, armTokens c = t :: ts ∧ ∀ p, t ≠ .punct p := by
  cases hc : c.constants with
  | nil => exact ⟨_, _, armTokens_default hc, by simp⟩
  | cons k ks =>
    obtain ⟨⟨k', ks', hk, hd⟩, -, -⟩ := h (by simp [hc])
    obtain ⟨rfl, rfl⟩ := List.cons.inj (hc.symm.trans hk)
    obtain ⟨t, ht, -, htp⟩ := head_constant (hp k (by simp [hc])) hd
    exact ⟨t, _, by rw [armTokens_case hc, ht]; rfl, htp⟩

theorem reads_arm {c : CaseTree} (h : c.constants ≠ [] → c.Sound) (hp : c.Plain)
    (hb : rest.head? ≠ some (.punct .openParen)) : Reads arm (armTokens c) rest (·.Alike c) := by
  cases hc : c.constants with
  | nil =>
    rw [armTokens_default hc]
    refine Reads.cons (reads_eat _) ?_
    rintro _ rfl
    refine Reads.cons (reads_punct _) fun _ _ => (reads_branch hb).last fun b hb => ?_
    exact ⟨hc.symm, hb⟩
  | cons k ks =>
    obtain ⟨⟨k', ks', hk, hd⟩, -, -⟩ := h (by simp [hc])
    obtain ⟨rfl, rfl⟩ := List.cons.inj (hc.symm.trans hk)
    have hp' := List.forall_mem_cons.mp (hc ▸ hp : ∀ x ∈ k :: ks, x.Plain)
    obtain ⟨t, ht, htd, -⟩ := head_constant hp'.1 hd
    rw [armTokens_case hc]
    refine Reads.skip (reads_eat_none ?_) ?_
    · rw [ht]
      simpa using htd
    rintro _ rfl
    refine (reads_constant hp'.1 fun _ => rfl).bind ?_
    rintro _ rfl
    refine Reads.bind (P := (· = ks)) ?_ ?_
    · refine Reads.mono (reads_repeatUntil (S := fun ts => ts.head? ≠ some (.punct .comma))
        (G := fun _ => True) (R := (· = ·)) ?_ ?_ (by simp) trivial) fun _ => eq_of_forall₂
      · intro c
        rw [c.token?_eq]
      · intro k hk r
        refine ⟨by simp, by simp, trivial, fun _ => ?_⟩
        exact Reads.cons (reads_punct _) fun _ _ => reads_constant (hp'.2 k hk) fun _ => rfl
    · rintro _ rfl
      refine Reads.cons (reads_punct _) fun _ _ => (reads_branch hb).last fun b hb => ?_
      exact ⟨hc.symm, hb⟩

theorem arms_apart {arms cases : List CaseTree} {fallback : BranchTree} (hc : ∀ c ∈ cases, c.Sound)
    (h : List.Forall₂ CaseTree.Alike arms (cases ++ [⟨[], fallback⟩])) :
    ∃ last, (arms.filter (·.constants.isEmpty)).getLast? = some last ∧ last.branch.Alike fallback ∧
      List.Forall₂ CaseTree.Alike (arms.filter (!·.constants.isEmpty)) cases := by
  obtain ⟨as, bs, rfl, has, hbs⟩ := forall₂_append_left h.flip
  cases hbs with
  | @cons _ last _ bs hlast hnil =>
    cases hnil
    have hne : ∀ a ∈ as, a.constants.isEmpty = false := by
      intro a ha
      obtain ⟨c, hm, hca⟩ := forall_of_forall₂ has.flip ha
      obtain ⟨⟨k, ks, hk, -⟩, -, -⟩ := hc c hm
      have : a.constants = c.constants := hca.1
      simp [this, hk]
    have hl : last.constants = [] := hlast.1
    have hempty : as.filter (·.constants.isEmpty) = [] := by
      rw [List.filter_eq_nil_iff]
      intro a ha
      simp [hne a ha]
    have hall : as.filter (!·.constants.isEmpty) = as := by
      rw [List.filter_eq_self]
      intro a ha
      simp [hne a ha]
    have hout : [last].filter (!·.constants.isEmpty) = [] := by simp [hl]
    refine ⟨last, by simp [hempty, hl], hlast.2, ?_⟩
    rw [List.filter_append, hall, hout, List.append_nil]
    exact has.flip

theorem reads_switch {s : String} {cases : List CaseTree} {fallback : BranchTree}
    (h : (FlowTree.switch s cases fallback).Sound) (hp : (FlowTree.switch s cases fallback).Plain) :
    Reads switch (.value s :: .punct .openBrace ::
        ((cases ++ [(⟨[], fallback⟩ : CaseTree)]).flatMap armTokens ++ [.punct .closeBrace])) rest
      (·.Alike (.switch s cases fallback)) := by
  obtain ⟨-, hc, -⟩ := h
  refine Reads.cons (reads_value s) ?_
  rintro _ rfl
  refine Reads.cons (reads_punct _) fun _ _ => ?_
  rw [← List.append_nil (List.flatMap _ _ ++ _)]
  refine Reads.bind (P := (List.Forall₂ CaseTree.Alike · (cases ++ [⟨[], fallback⟩]))) ?_ ?_
  · refine reads_upTo (G := fun ts => ts.head? ≠ some (.punct .openParen)) ?_ (by simp)
    intro c hm r
    have hcs : (c.constants ≠ [] → c.Sound) ∧ c.Plain := by
      rcases List.mem_append.mp hm with hm | hm
      · exact ⟨fun _ => hc c hm, hp c hm⟩
      · obtain rfl := List.mem_singleton.mp hm
        exact ⟨fun h => absurd rfl h, by simp [CaseTree.Plain]⟩
    obtain ⟨t, ts, ht, htp⟩ := head_arm hcs.1 hcs.2
    refine ⟨by simp [ht], by simpa [ht] using htp _, by simpa [ht] using htp _, ?_⟩
    exact reads_arm hcs.1 hcs.2
  · intro arms harms
    obtain ⟨last, hlast, hbranch, hcases⟩ := arms_apart hc harms
    rw [hlast]
    exact reads_pure ⟨rfl, hcases, hbranch⟩

def EndsFlow (ts : List Token) : Prop :=
  ts.head? ≠ some (.punct .openParen) ∧ ∀ v, ts.head? ≠ some (.value v)

theorem tokens_switch (s : String) (cases : List CaseTree) (fallback : BranchTree)
    (hc : ∀ c ∈ cases, c.Sound) :
    tokens (FlowTree.switch s cases fallback).pieces
      = .name "switch" :: .value s :: .punct .openBrace ::
        ((cases ++ [(⟨[], fallback⟩ : CaseTree)]).flatMap armTokens ++ [.punct .closeBrace]) := by
  have hcases : (cases.flatMap fun c => tokens c.pieces) = cases.flatMap armTokens := by
    apply List.flatMap_congr
    intro c hm
    obtain ⟨⟨k, ks, hk, -⟩, -, -⟩ := hc c hm
    rw [armTokens, if_neg (by simp [hk])]
  simp [FlowTree.pieces, tokens_flatMap, hcases, armTokens]

theorem head_flow {f : FlowTree} (hs : f.Sound) :
    ∃ s ks, tokens f.pieces = .name s :: ks ∧ (flow? s).isSome := by
  cases f with
  | ret value => cases value <;> exact ⟨_, _, rfl, rfl⟩
  | jump b | protect r s f | unreachable => exact ⟨_, _, rfl, rfl⟩
  | switch s cases fallback => exact ⟨_, _, tokens_switch s cases fallback hs.2.1, rfl⟩

theorem reads_flow {f : FlowTree} (hs : f.Sound) (hp : f.Plain) (h : EndsFlow rest) :
    Reads flow (tokens f.pieces) rest (·.Alike f) := by
  cases f with
  | ret value =>
    cases value with
    | none =>
      refine Reads.cons (reads_name _) ?_
      rintro _ rfl
      refine reads_get fun c hc => ?_
      rw [if_neg]
      · exact reads_pure rfl
      · rw [c.isValue_iff, hc]
        exact fun ⟨v, hv⟩ => h.2 v hv
    | some s =>
      refine Reads.cons (reads_name _) ?_
      rintro _ rfl
      refine reads_get fun c hc => ?_
      rw [if_pos]
      · exact (reads_value s).last fun _ he => congrArg _ he
      · rw [c.isValue_iff, hc]
        exact ⟨s, rfl⟩
  | jump b =>
    simp only [FlowTree.pieces, List.cons_append, List.nil_append, tokens_append, tokens_indent,
      tokens_name, tokens_space, tokens_newline, tokens_nil, List.append_nil]
    refine Reads.cons (reads_name _) ?_
    rintro _ rfl
    exact (reads_branch h.1).last fun _ hb => hb
  | switch s cases fallback =>
    rw [tokens_switch s cases fallback hs.2.1]
    refine Reads.cons (reads_name _) ?_
    rintro _ rfl
    exact reads_switch hs hp
  | protect risky success failure =>
    simp only [FlowTree.pieces, List.cons_append, List.nil_append, List.append_assoc, tokens_append,
      tokens_indent, tokens_name, tokens_space, tokens_newline, tokens_nil, List.append_nil]
    refine Reads.cons (reads_name _) ?_
    rintro _ rfl
    refine (reads_op hs.1 hp (by simp [EndsOp, EndsOperands])).bind fun r hr => ?_
    refine Reads.cons (reads_keyword _) fun _ _ => (reads_branch (by simp)).bind fun a ha => ?_
    refine Reads.cons (reads_keyword _) fun _ _ => (reads_branch h.1).last fun b hb => ?_
    exact ⟨hr, ha, hb⟩
  | unreachable =>
    refine Reads.cons (reads_name _) ?_
    rintro _ rfl
    exact reads_pure trivial

theorem endsOp_of_name (s : String) (ts : List Token) : EndsOp (.name s :: ts) := by
  simp [EndsOp, EndsOperands]

theorem endsOp_of_result (v : String) (ts : List Token) :
    EndsOp (.value v :: .punct .equals :: ts) := by
  simp [EndsOp, EndsOperands]

def flowFirst (ts : List Token) : Bool :=
  match ts.head? with
  | some (.name s) => (flow? s).isSome
  | _ => false

theorem tokens_statement (s : StatementTree) :
    tokens s.pieces = (match s.name with
      | some v => [.value v, .punct .equals]
      | none => []) ++ tokens s.op.pieces := by
  cases hn : s.name <;> simp [StatementTree.pieces, hn]

theorem head_statement {s : StatementTree} (hs : s.Sound) (r : List Token) :
    tokens s.pieces ≠ [] ∧ flowFirst (tokens s.pieces ++ r) = false
      ∧ EndsOp (tokens s.pieces ++ r) := by
  obtain ⟨w, ks, ho, hw⟩ := head_op hs.2
  rw [tokens_statement]
  cases s.name with
  | none =>
    rw [ho]
    exact ⟨by simp, by simp [flowFirst, hw], endsOp_of_name _ _⟩
  | some v => exact ⟨by simp, rfl, endsOp_of_result _ _⟩

theorem reads_statement {s : StatementTree} (hs : s.Sound) (hp : s.op.Plain) (h : EndsOp rest) :
    Reads statement (tokens s.pieces) rest (·.Alike s) := by
  rw [tokens_statement]
  refine reads_get fun c hc => ?_
  cases hn : s.name with
  | none =>
    obtain ⟨w, ks, ho, -⟩ := head_op hs.2
    rw [if_neg]
    · exact (reads_op hs.2 hp h).last fun _ ha => ⟨hn.symm, ha⟩
    · rw [c.isValue_iff, hc, hn, ho]
      simp
  | some v =>
    rw [if_pos]
    · refine Reads.cons (reads_value v) ?_
      rintro _ rfl
      refine Reads.cons (reads_punct _) fun _ _ => ?_
      exact (reads_op hs.2 hp h).last fun _ ha => ⟨hn.symm, ha⟩
    · rw [c.isValue_iff, hc, hn]
      exact ⟨v, rfl⟩

theorem reads_parameter {p : String × Ty} (h : p.2.Sound) :
    Reads parameter (tokens (.token (.value p.1) :: Print.punct .colon :: .space :: Print.type p.2))
      rest (· = p) := by
  refine Reads.cons (reads_value _) ?_
  rintro _ rfl
  refine Reads.cons (reads_punct _) fun _ _ => (reads_type h).last ?_
  rintro _ rfl
  rfl

theorem reads_block {b : BlockTree} (hs : b.Sound) (hp : b.Plain) (h : EndsFlow rest) :
    Reads block (tokens b.pieces) rest (·.Alike b) := by
  obtain ⟨-, hps, hsts, hf⟩ := hs
  refine Reads.skip reads_line fun line _ => ?_
  have hrest : Reads (punct .colon >>= fun _ => repeatUntil startsFlow statement >>= fun sts =>
        flow >>= fun f => pure (⟨b.name, line, b.parameters, sts, f⟩ : BlockTree))
      (.punct .colon :: (b.statements.flatMap (fun s => tokens s.pieces) ++ tokens b.flow.pieces))
      rest (·.Alike b) := by
    refine Reads.cons (reads_punct _) fun _ _ => ?_
    refine Reads.bind (P := (List.Forall₂ StatementTree.Alike · b.statements)) ?_ fun sts hsts => ?_
    · obtain ⟨w, ks, hw, hfirst⟩ := head_flow hf
      refine reads_repeatUntil (S := flowFirst) (G := EndsOp) ?_ ?_ ?_ ?_
      · intro c
        rw [startsFlow, c.token?_eq]
        rfl
      · intro s hm r
        obtain ⟨h1, h2, h3⟩ := head_statement (hsts s hm) r
        exact ⟨h1, h2, h3, reads_statement (hsts s hm) (hp.1 s hm)⟩
      · rw [hw]
        exact hfirst
      · rw [hw]
        exact endsOp_of_name _ _
    · exact (reads_flow hf hp.2 h).last fun f hf => ⟨rfl, rfl, hsts, hf⟩
  have ht : tokens b.pieces = .name b.name :: (tokens b.parameterPieces ++
      .punct .colon :: (b.statements.flatMap (fun s => tokens s.pieces)
        ++ tokens b.flow.pieces)) := by
    simp [BlockTree.pieces, tokens_flatMap]
  rw [ht]
  refine Reads.cons (reads_name _) ?_
  rintro _ rfl
  by_cases he : b.parameters.isEmpty
  · rw [List.isEmpty_iff.mp he] at hrest
    simp only [BlockTree.parameterPieces, he, if_true, tokens_nil, List.nil_append]
    refine Reads.skip (reads_eat_none (by simp)) ?_
    rintro _ rfl
    exact hrest
  · have htp : tokens b.parameterPieces = .punct .openParen :: (tokens (Print.commas
        (b.parameters.map fun p => .token (.value p.1) :: Print.punct .colon :: .space
          :: Print.type p.2)) ++ [.punct .closeParen]) := by
      simp [BlockTree.parameterPieces, he]
    rw [htp]
    refine Reads.cons (reads_eat _) ?_
    rintro _ rfl
    refine Reads.bind (P := (· = b.parameters)) ?_ (by rintro _ rfl; exact hrest)
    refine Reads.mono (reads_commaList (by decide) (R := (· = ·)) fun p hm => ?_) fun _ =>
      eq_of_forall₂
    exact ⟨by simp, fun r => reads_parameter (hps p hm).2⟩

theorem reads_methodTree {m : MethodTree} (hs : m.Sound) (hp : m.Plain) :
    Reads methodTree (tokens m.pieces) rest (·.Alike m) := by
  obtain ⟨-, hne, hbs⟩ := hs
  refine Reads.skip reads_line fun line _ => ?_
  have ht : tokens m.pieces = .name "method" :: .name m.name :: .punct .openBrace ::
      (m.blocks.flatMap (fun b => tokens b.pieces) ++ [.punct .closeBrace]) := by
    simp [MethodTree.pieces, tokens_flatMap]
  rw [ht]
  refine Reads.cons (reads_keyword _) fun _ _ => Reads.cons (reads_name _) ?_
  rintro _ rfl
  refine Reads.cons (reads_punct _) fun _ _ => ?_
  rw [← List.append_nil (List.flatMap _ _ ++ _)]
  refine Reads.bind (P := (List.Forall₂ BlockTree.Alike · m.blocks)) ?_ fun bs hb => ?_
  · refine reads_upTo (G := EndsFlow) ?_ (by simp [EndsFlow])
    intro b hm r
    have hb : tokens b.pieces = .name b.name :: _ := rfl
    refine ⟨by simp [hb], by simp [hb], by simp [hb, EndsFlow], ?_⟩
    exact reads_block (hbs b hm) (hp b hm)
  · rw [if_neg]
    · exact reads_pure ⟨rfl, hb⟩
    · intro he
      rw [List.isEmpty_iff.mp he, List.forall₂_nil_left_iff] at hb
      exact hne hb

end Parser

end StackCode.Source
