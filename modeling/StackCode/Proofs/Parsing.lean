import StackCode.Source.Parser
import StackCode.Proofs.Lists
import StackCode.Proofs.Writing

namespace StackCode.Source

def Cursor.Sound (c : Cursor) : Prop :=
  ∀ l ∈ c.lexemes, l.token.isSound

namespace Parser

variable {α β : Type}

def Gives (p : Parser α) (P : α → Prop) : Prop :=
  ∀ c a d, c.Sound → p c = .ok (a, d) → P a ∧ d.Sound

theorem bind_run (p : Parser α) (f : α → Parser β) (c : Cursor) :
    (p >>= f) c = p c >>= fun r => f r.1 r.2 := rfl

theorem Gives.bind {p : Parser α} {f : α → Parser β} {P : α → Prop} {Q : β → Prop} (hp : Gives p P)
    (hf : ∀ a, P a → Gives (f a) Q) : Gives (p >>= f) Q := by
  intro c b d hc h
  obtain ⟨⟨a, e⟩, hpc, h⟩ := bind_eq_ok.mp h
  obtain ⟨ha, he⟩ := hp c a e hc hpc
  exact hf a ha e b d he h

theorem gives_pure {a : α} {P : α → Prop} (h : P a) : Gives (pure a) P := by
  intro c b d hc he
  cases he
  exact ⟨h, hc⟩

theorem gives_throw (e : ParseError) (P : α → Prop) : Gives (throw e) P := by
  intro c a d _ h
  cases h

theorem gives_fail (fault : Fault) (P : α → Prop) : Gives (fail fault) P := by
  intro c a d _ h
  cases h

theorem gives_lift (x : Except ParseError α) : Gives (liftM x : Parser α) fun a => x = .ok a := by
  intro c a d hc h
  obtain ⟨b, hx, h⟩ := bind_eq_ok.mp h
  cases h
  exact ⟨hx, hc⟩

theorem gives_take {what : Expectation} {accept : Token → Option α} {P : α → Prop}
    (h : ∀ t a, t.isSound → accept t = some a → P a) : Gives (take what accept) P := by
  rintro ⟨ls, n⟩ a d hc ht
  cases ls with
  | nil => cases ht
  | cons l ls =>
    have hl := hc l List.mem_cons_self
    simp only [take] at ht
    split at ht
    · next hacc =>
      cases ht
      exact ⟨h _ _ hl hacc, fun x hx => hc x (List.mem_cons_of_mem _ hx)⟩
    · cases ht

theorem gives_eat (t : Token) : Gives (eat t) fun _ => True := by
  intro c a d hc h
  simp only [eat] at h
  split at h <;> cases h
  · exact ⟨trivial, fun l hl => hc l (List.mem_of_mem_tail hl)⟩
  · exact ⟨trivial, hc⟩

theorem gives_get : Gives (get : Parser Cursor) fun _ => True := by
  intro c a d hc h
  cases h
  exact ⟨trivial, hc⟩

theorem gives_line : Gives line fun _ => True :=
  gives_get.bind fun _ _ => gives_pure trivial

theorem gives_expect (t : Token) (what : Expectation) : Gives (expect t what) fun _ => True :=
  gives_take fun _ _ _ _ => trivial

theorem gives_punct (p : Punct) : Gives (punct p) fun _ => True :=
  gives_expect _ _

theorem gives_keyword (s : String) : Gives (keyword s) fun _ => True :=
  gives_expect _ _

theorem gives_name : Gives name fun s => isName s := by
  apply gives_take
  intro t s ht h
  cases t <;> cases h
  exact ht

theorem gives_value : Gives value fun s => isWord s := by
  apply gives_take
  intro t s ht h
  cases t <;> cases h
  exact ht

theorem gives_repeatUntil {stop : Cursor → Bool} {p : Parser α} {P : α → Prop} (hp : Gives p P) :
    Gives (repeatUntil stop p) fun as => ∀ a ∈ as, P a := by
  intro c as d hc h
  fun_induction repeatUntil stop p c generalizing as d with
  | case1 c _ =>
    cases h
    exact ⟨by simp, hc⟩
  | case2 => cases h
  | case3 => cases h
  | case4 c _ a e he _ bs f hf ih =>
    cases h
    obtain ⟨ha, hs⟩ := hp c a e hc he
    obtain ⟨hbs, hd⟩ := ih bs f hs hf
    exact ⟨by simpa [ha] using hbs, hd⟩
  | case5 c _ a e he _ =>
    cases h
    obtain ⟨ha, hs⟩ := hp c a _ hc he
    exact ⟨by simpa using ha, hs⟩

theorem gives_upTo {q : Punct} {p : Parser α} {P : α → Prop} (hp : Gives p P) :
    Gives (upTo q p) fun as => ∀ a ∈ as, P a :=
  (gives_repeatUntil hp).bind fun _ has => (gives_punct q).bind fun _ _ => gives_pure has

theorem gives_commaList {q : Punct} {p : Parser α} {P : α → Prop} (hp : Gives p P) :
    Gives (commaList q p) fun as => ∀ a ∈ as, P a := by
  apply (gives_eat _).bind
  intro b _
  cases b with
  | true => exact gives_pure (by simp)
  | false =>
    refine hp.bind fun a ha => ?_
    refine (gives_upTo ((gives_punct _).bind fun _ _ => hp)).bind fun as has => ?_
    exact gives_pure (by simpa [ha] using has)

theorem mem_openersOf {ls : List Lexeme} {l : Lexeme} (h : l ∈ (openersOf ls).2) : l ∈ ls := by
  induction ls with
  | nil => exact h
  | cons k ls ih =>
    simp only [openersOf] at h
    split at h
    · exact List.mem_cons_of_mem _ (ih h)
    · exact h

theorem gives_openers : Gives openers fun _ => True := by
  intro c a d hc h
  cases h
  exact ⟨trivial, fun l hl => hc l (mem_openersOf hl)⟩

theorem gives_close {t : Ty} (ht : t.Sound) (os : List Opener) : Gives (close t os) Ty.Sound := by
  induction os with
  | nil => exact gives_pure ht
  | cons o os ih =>
    cases o with
    | transient | reference | boxed => exact ih.bind fun _ h => gives_pure h
    | array => exact ih.bind fun _ h => (gives_punct _).bind fun _ _ => gives_pure h

theorem sound_of_intType? {s : String} {t : Ty} (h : intType? s = some t) : t.Sound := by
  have hsized (signed : Bool) (n : Nat)
      (h : (if 1 ≤ n ∧ n ≤ 128 then some (Ty.int ⟨n, signed⟩) else none) = some t) : t.Sound := by
    rw [Option.ite_none_right_eq_some] at h
    obtain ⟨hn, he⟩ := h
    cases he
    exact hn
  simp only [intType?] at h
  split at h
  · split at h
    · exact hsized true _ h
    · cases h
  · split at h
    · exact hsized false _ h
    · cases h
  · cases h

theorem gives_plainType : Gives plainType Ty.Sound := by
  refine gives_name.bind fun s hs => ?_
  split
  case h_8 => exact gives_name.bind fun _ h => gives_pure h
  case h_9 => exact gives_name.bind fun _ h => gives_pure h
  case h_10 =>
    split
    · next h => exact gives_pure (sound_of_intType? h)
    · exact gives_fail _ _
  all_goals exact gives_pure (by simp [Ty.Sound])

theorem gives_type : Gives type Ty.Sound :=
  gives_openers.bind fun os _ => gives_plainType.bind fun _ ht => gives_close ht os

theorem gives_typeList : Gives typeList fun ts => ∀ t ∈ ts, t.Sound :=
  (gives_punct _).bind fun _ _ => gives_commaList gives_type

theorem gives_field (isStatic : Bool) :
    Gives (field isStatic) fun f => f.Sound ∧ f.isStatic = isStatic := by
  refine gives_type.bind fun owner ho => (gives_punct _).bind fun _ _ => ?_
  refine gives_name.bind fun s hs => (gives_punct _).bind fun _ _ => ?_
  exact gives_type.bind fun t ht => gives_pure ⟨⟨ho, hs, ht⟩, rfl⟩

theorem gives_method : Gives method Method.Sound := by
  refine (gives_eat _).bind fun isStatic _ => gives_type.bind fun returns hr => ?_
  refine gives_type.bind fun owner ho => (gives_punct _).bind fun _ _ => ?_
  exact gives_name.bind fun s hs => gives_typeList.bind fun ts hts => gives_pure ⟨ho, hs, hts, hr⟩

theorem gives_lookup : Gives lookup Lookup.Sound := by
  refine (gives_eat _).bind fun b _ => ?_
  cases b with
  | true => exact gives_pure trivial
  | false =>
    refine (gives_eat _).bind fun b _ => ?_
    cases b with
    | true => exact gives_type.bind fun t ht => gives_pure ht
    | false => exact gives_pure trivial

theorem gives_operands : Gives operands fun vs => ∀ v ∈ vs, isWord v := by
  refine gives_get.bind fun c _ => ?_
  split
  · exact gives_pure (by simp)
  · refine gives_value.bind fun v hv => ?_
    refine (gives_repeatUntil ((gives_punct _).bind fun _ _ => gives_value)).bind fun vs hvs => ?_
    exact gives_pure (by simpa [hv] using hvs)

theorem sound_of_constant? {t : Ty} {k : Token} {c : Constant} (hk : k.isSound)
    (h : constant? t k = some c) : c.Sound := by
  unfold constant? at h
  split at h
  · split at h <;> cases h
    · trivial
    · trivial
    · exact hk
  · split at h <;> cases h <;> trivial
  all_goals cases h
  all_goals trivial

theorem gives_constant (t : Ty) : Gives (constant t) Constant.Sound :=
  gives_take fun _ _ => sound_of_constant?

theorem gives_memoryFlags : Gives memoryFlags MemoryFlags.Sound := by
  refine (gives_eat _).bind fun volatile _ => (gives_eat _).bind fun b _ => ?_
  cases b with
  | true =>
    refine (gives_take (P := fun n => n < 4294967296) fun t n _ h => ?_).bind fun n hn => ?_
    · cases t with
      | int v =>
        simp only [alignment?, Option.ite_none_right_eq_some, Option.some.injEq] at h
        omega
      | _ => cases h
    · exact gives_pure (by simpa [MemoryFlags.Sound] using hn)
  | false => exact gives_pure (by simp [MemoryFlags.Sound])

def SoundPair (r : Operation × List String) : Prop :=
  r.1.Sound r.2 ∧ ∀ v ∈ r.2, isWord v

theorem gives_withOperands {o : Operation} (h : ∀ vs, o.Sound vs) :
    Gives (do return (o, ← operands)) SoundPair :=
  gives_operands.bind fun vs hvs => gives_pure ⟨h vs, hvs⟩

theorem gives_operation (line : Nat) {s : String} (hs : isName s) :
    Gives (operation line s) SoundPair := by
  unfold operation
  split
  case h_1 =>
    refine gives_type.bind fun t ht => (gives_constant t).bind fun c hc => ?_
    exact gives_pure ⟨⟨ht, hc, rfl⟩, by simp⟩
  case h_7 => exact (gives_field _).bind fun f hf => gives_withOperands fun _ => hf
  case h_8 => exact (gives_field _).bind fun f hf => gives_pure ⟨⟨hf.1, hf.2, rfl⟩, by simp⟩
  case h_9 => exact gives_type.bind fun t ht => gives_pure ⟨⟨ht, rfl⟩, by simp⟩
  case h_11 =>
    exact gives_memoryFlags.bind fun _ hf => gives_type.bind fun _ ht => gives_withOperands fun _ =>
      ⟨ht, hf⟩
  case h_12 =>
    exact gives_memoryFlags.bind fun _ hf => gives_type.bind fun _ ht => gives_withOperands fun _ =>
      ⟨ht, hf⟩
  case h_13 =>
    refine (gives_eat _).bind fun _ _ => (gives_field _).bind fun f hf => ?_
    exact gives_withOperands fun _ => hf.1
  case h_14 =>
    exact gives_lookup.bind fun _ hl => gives_method.bind fun _ hm => gives_withOperands fun _ =>
      ⟨hm, hl⟩
  case h_15 =>
    refine gives_type.bind fun owner ho => gives_typeList.bind fun ts hts => ?_
    exact gives_withOperands fun _ => ⟨⟨ho, (by decide : isName ".ctor"), hts, trivial⟩, rfl, rfl,
      rfl⟩
  case h_16 =>
    refine gives_type.bind fun t ht => (gives_punct _).bind fun _ _ => ?_
    refine gives_lookup.bind fun l hl => gives_method.bind fun m hm => ?_
    exact gives_operands.bind fun vs hvs => gives_pure ⟨⟨ht, hm, hl, rfl⟩, hvs⟩
  case h_17 =>
    refine gives_type.bind fun t ht => gives_type.bind fun measured hm => ?_
    exact gives_pure ⟨⟨ht, hm, rfl⟩, by simp⟩
  case h_18 =>
    split
    · next hc =>
      refine gives_operands.bind fun vs hvs => (gives_eat _).bind fun b _ => ?_
      cases b with
      | true => exact gives_type.bind fun t ht => gives_pure ⟨⟨hs, hc, ht, rfl⟩, hvs⟩
      | false => exact gives_pure ⟨⟨hs, hc, trivial, rfl⟩, hvs⟩
    · exact gives_throw _ _
  all_goals exact gives_type.bind fun t ht => gives_withOperands fun _ => ht

theorem gives_op : Gives op OpTree.Sound := by
  refine gives_line.bind fun line _ => gives_name.bind fun s hs => ?_
  exact (gives_operation line hs).bind fun r hr => gives_pure hr

theorem gives_branch : Gives branch BranchTree.Sound := by
  refine gives_line.bind fun line _ => ?_
  refine (gives_take (P := fun s => isWord s) fun t s ht h => ?_).bind fun target ht => ?_
  · cases t <;> cases h
    exact ht
  refine (gives_eat _).bind fun b _ => ?_
  cases b with
  | true =>
    refine (gives_commaList (gives_take (P := ArgTree.Sound) fun t a ht h => ?_)).bind fun as has =>
      ?_
    · unfold arg? at h
      split at h <;> cases h
      · exact ht
      · trivial
      · trivial
    · exact gives_pure ⟨ht, has⟩
  | false => exact gives_pure ⟨ht, by simp⟩

def SoundArm (c : CaseTree) : Prop :=
  (c.constants ≠ [] → c.Sound) ∧ c.branch.Sound

theorem ne_default_of_constant {t : Ty} {k : Constant} {c d : Cursor}
    (h : constant t c = .ok (k, d)) (hc : c.token? ≠ some (.name "default")) : k ≠ .default := by
  rintro rfl
  obtain ⟨ls, n⟩ := c
  cases ls with
  | nil => cases h
  | cons l ls =>
    have hl : l.token ≠ .name "default" := by simpa [Cursor.token?] using hc
    simp only [constant, take] at h
    split at h
    · next hk =>
      cases h
      unfold constant? at hk
      split at hk
      · split at hk <;> cases hk
      · split at hk <;> cases hk
      all_goals first | contradiction | cases hk
    · cases h

theorem gives_arm : Gives arm SoundArm := by
  have htrue : Gives (punct .arrow >>= fun _ => branch >>= fun b => pure ⟨[], b⟩) SoundArm := by
    refine (gives_punct _).bind fun _ _ => gives_branch.bind fun b hb => ?_
    exact gives_pure ⟨fun h => absurd rfl h, hb⟩
  have hfalse : ∀ k : Constant, k.Sound → k ≠ .default →
      Gives (repeatUntil (·.token? ≠ some (.punct .comma))
        (punct .comma >>= fun _ => constant (.signed 64))
        >>= fun ks => punct .arrow >>= fun _ => branch >>= fun b => pure ⟨k :: ks, b⟩)
          SoundArm := by
    intro k hk hd
    refine (gives_repeatUntil ((gives_punct _).bind fun _ _ => gives_constant _)).bind fun ks hks =>
      ?_
    refine (gives_punct _).bind fun _ _ => gives_branch.bind fun b hb => ?_
    exact gives_pure ⟨fun _ => ⟨⟨k, ks, rfl, hd⟩, by simpa [hk] using hks, hb⟩, hb⟩
  intro c a d hc h
  -- Where no default comes next, the first constant is not one either.
  by_cases hn : c.token? = some (.name "default")
  · obtain ⟨⟨b, e⟩, he, h⟩ := bind_eq_ok.mp h
    have hs := (gives_eat _ c b e hc he).2
    simp only [eatKeyword, eat, if_pos hn] at he
    cases he
    exact htrue _ a d hs h
  · obtain ⟨⟨b, e⟩, he, h⟩ := bind_eq_ok.mp h
    simp only [eatKeyword, eat, if_neg hn] at he
    cases he
    obtain ⟨⟨k, e⟩, hk, h⟩ := bind_eq_ok.mp h
    obtain ⟨hks, hs⟩ := gives_constant _ c k e hc hk
    exact hfalse k hks (ne_default_of_constant hk hn) e a d hs h

theorem gives_switch : Gives switch FlowTree.Sound := by
  refine gives_value.bind fun v hv => (gives_punct _).bind fun _ _ => ?_
  refine (gives_upTo gives_arm).bind fun arms harms => ?_
  split
  · next fallback hf =>
    have hf := List.mem_of_getLast? hf
    refine gives_pure ⟨hv, ?_, (harms _ (List.mem_of_mem_filter hf)).2⟩
    intro c hc
    obtain ⟨hm, hc⟩ := List.mem_filter.mp hc
    exact (harms c hm).1 (by simpa using hc)
  · exact gives_fail _ _

theorem gives_protect : Gives protect FlowTree.Sound := by
  refine gives_op.bind fun risky hr => (gives_keyword _).bind fun _ _ => ?_
  refine gives_branch.bind fun s hs => (gives_keyword _).bind fun _ _ => ?_
  exact gives_branch.bind fun f hf => gives_pure ⟨hr, hs, hf⟩

theorem gives_ret : Gives ret FlowTree.Sound := by
  refine gives_get.bind fun c _ => ?_
  split
  · exact gives_value.bind fun v hv => gives_pure (by simpa [FlowTree.Sound] using hv)
  · exact gives_pure (by simp [FlowTree.Sound])

theorem gives_flow : Gives flow FlowTree.Sound := by
  refine gives_name.bind fun s _ => ?_
  split
  · next p hp =>
    unfold flow? at hp
    split at hp <;> cases hp
    · exact gives_ret
    · exact gives_branch.bind fun b hb => gives_pure hb
    · exact gives_switch
    · exact gives_protect
    · exact gives_pure trivial
  · exact gives_pure trivial

theorem gives_statement : Gives statement StatementTree.Sound := by
  refine gives_get.bind fun c _ => ?_
  split
  · refine gives_value.bind fun v hv => (gives_punct _).bind fun _ _ => ?_
    exact gives_op.bind fun o ho => gives_pure ⟨by simpa using hv, ho⟩
  · exact gives_op.bind fun o ho => gives_pure ⟨by simp, ho⟩

theorem gives_parameter : Gives parameter fun p => isWord p.1 ∧ p.2.Sound := by
  refine gives_value.bind fun v hv => (gives_punct _).bind fun _ _ => ?_
  exact gives_type.bind fun t ht => gives_pure ⟨hv, ht⟩

theorem gives_block : Gives block BlockTree.Sound := by
  refine gives_line.bind fun line _ => gives_name.bind fun s hs => ?_
  refine (gives_eat _).bind fun b _ => ?_
  have hrest : ∀ ps : List (String × Ty), (∀ p ∈ ps, isWord p.1 ∧ p.2.Sound) →
      Gives (punct .colon >>= fun _ => repeatUntil startsFlow statement >>= fun sts =>
        flow >>= fun f => pure ⟨s, line, ps, sts, f⟩) BlockTree.Sound := by
    intro ps hps
    refine (gives_punct _).bind fun _ _ => (gives_repeatUntil gives_statement).bind fun sts hsts =>
      ?_
    exact gives_flow.bind fun f hf => gives_pure ⟨hs, hps, hsts, hf⟩
  cases b with
  | true => exact (gives_commaList gives_parameter).bind hrest
  | false => exact (gives_pure (by simp)).bind hrest

theorem gives_methodTree : Gives methodTree MethodTree.Sound := by
  refine gives_line.bind fun line _ => (gives_keyword _).bind fun _ _ => ?_
  refine gives_name.bind fun s hs => (gives_punct _).bind fun _ _ => ?_
  refine (gives_upTo gives_block).bind fun bs hbs => ?_
  split
  · exact gives_throw _ _
  · next he => exact gives_pure ⟨hs, by simpa using he, hbs⟩

theorem gives_namedGraph :
    Gives namedGraph fun g => ∃ m : MethodTree, m.Sound ∧ m.name = g.name
      ∧ m.graph = .ok g.graph := by
  refine gives_methodTree.bind fun m hm => ?_
  exact (gives_lift m.graph).bind fun g hg => gives_pure ⟨m, hm, rfl, hg⟩

end Parser

theorem sound_of_parse {text : String} {ms : List NamedGraph} (h : parse text = .ok ms) :
    ∀ g ∈ ms, ∃ m : MethodTree, m.Sound ∧ m.name = g.name ∧ m.graph = .ok g.graph := by
  obtain ⟨ls, hl, h⟩ := bind_eq_ok.mp h
  obtain ⟨⟨as, d⟩, hr, h⟩ := bind_eq_ok.mp h
  cases h
  have hs : Cursor.Sound ⟨ls, (ls.getLast?.map Lexeme.line).getD 1⟩ := isSound_of_lex hl
  exact (Parser.gives_repeatUntil Parser.gives_namedGraph _ _ d hs hr).1

end StackCode.Source
