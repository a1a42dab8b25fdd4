import StackCode.Proofs.RoundTrip

namespace StackCode

def Graph.NamesValue (g : Graph) (name : String) (v : Value) : Prop :=
  ∀ w, (∃ x, g.info? w = some x ∧ x.name = some name) ↔ w = v

def Graph.NamesBlock (g : Graph) (name : String) (l : Label) : Prop :=
  ∀ k, (∃ b, g.block? k = some b ∧ b.name = name) ↔ k = l

namespace Source

def trees (text : String) : Except ParseError (List MethodTree) := do
  let lexemes ← lex text.toList
  let last := (lexemes.getLast?.map Lexeme.line).getD 1
  let (methods, _) ← Parser.repeatUntil (·.lexemes.isEmpty) Parser.methodTree ⟨lexemes, last⟩
  return methods

namespace Parser

variable {α β : Type}

theorem repeatUntil_of_refines {stop : Cursor → Bool} {p : Parser α} {q : Parser β}
    {R : β → α → Prop}
    (hpq : ∀ c a d, p c = .ok (a, d) → ∃ b, q c = .ok (b, d) ∧ R b a) {c d : Cursor} {as : List α}
    (h : repeatUntil stop p c = .ok (as, d)) :
    ∃ bs, repeatUntil stop q c = .ok (bs, d) ∧ List.Forall₂ R bs as := by
  fun_induction repeatUntil stop p c generalizing as d with
  | case1 c hs =>
    cases h
    exact ⟨[], by rw [repeatUntil, if_pos hs], .nil⟩
  | case2 => cases h
  | case3 => cases h
  | case4 c hs a e he hlt rest f hf ih =>
    cases h
    obtain ⟨b, hb, hr⟩ := hpq c a e he
    obtain ⟨bs, hbs, hrest⟩ := ih hf
    refine ⟨b :: bs, ?_, .cons hr hrest⟩
    rw [repeatUntil, if_neg hs, hb]
    dsimp only
    rw [if_pos hlt, hbs]
  | case5 c hs a e he hlt =>
    cases h
    obtain ⟨b, hb, hr⟩ := hpq c a _ he
    refine ⟨[b], ?_, .cons hr .nil⟩
    rw [repeatUntil, if_neg hs, hb]
    dsimp only
    rw [if_neg hlt]

theorem methodTree_of_namedGraph {c d : Cursor} {m : NamedGraph} (h : namedGraph c = .ok (m, d)) :
    ∃ t, methodTree c = .ok (t, d) ∧ m.name = t.name ∧ t.graph = .ok m.graph := by
  obtain ⟨⟨t, e⟩, ht, h⟩ := bind_eq_ok.mp h
  obtain ⟨⟨g, f⟩, hg, h⟩ := bind_eq_ok.mp h
  obtain ⟨g', hg', hg⟩ := bind_eq_ok.mp hg
  cases hg
  cases h
  exact ⟨t, ht, rfl, hg'⟩

end Parser

theorem trees_of_parse {text : String} {ms : List NamedGraph} (h : parse text = .ok ms) :
    ∃ ts, trees text = .ok ts
      ∧ List.Forall₂ (fun t m => m.name = t.name ∧ t.graph = .ok m.graph) ts ms := by
  obtain ⟨ls, hl, h⟩ := bind_eq_ok.mp h
  obtain ⟨⟨as, d⟩, hr, h⟩ := bind_eq_ok.mp h
  cases h
  obtain ⟨ts, hts, hall⟩ :=
    Parser.repeatUntil_of_refines (fun c a d => Parser.methodTree_of_namedGraph) hr
  refine ⟨ts, ?_, hall⟩
  rw [trees, bind_eq_ok]
  refine ⟨ls, hl, ?_⟩
  rw [bind_eq_ok]
  exact ⟨_, hts, rfl⟩

structure OpTree.Means (g : Graph) (op : OpTree) (i : Instr) : Prop where
  operands : List.Forall₂ g.NamesValue op.operands i.operands
  operation : match op.operation with
    | .intrinsic name t _ => ∃ ps, i.operation = .intrinsic name t ps
      ∧ List.Forall₂ (fun v p => g.type? v = some p) i.operands ps
    | o => i.operation = o

def ArgTree.Means (g : Graph) : ArgTree → BranchArg → Prop
  | .value name, .value v => g.NamesValue name v
  | .result, .result => True
  | .exception, .exception => True
  | _, _ => False

structure BranchTree.Means (g : Graph) (t : BranchTree) (b : Branch) : Prop where
  target : g.NamesBlock t.target b.target
  args : List.Forall₂ (ArgTree.Means g) t.args b.args

structure CaseTree.Means (g : Graph) (t : CaseTree) (c : Case) : Prop where
  constants : c.constants = t.constants
  branch : t.branch.Means g c.branch

def FlowTree.Means (g : Graph) : FlowTree → Flow → Prop
  | .ret none, .ret none => True
  | .ret (some name), .ret (some v) => g.NamesValue name v
  | .jump t, .jump b => t.Means g b
  | .switch name ts t, .switch v cs b =>
    g.NamesValue name v ∧ List.Forall₂ (CaseTree.Means g) ts cs ∧ t.Means g b
  | .protect op t u, .protect i b c => op.Means g i ∧ t.Means g b ∧ u.Means g c
  | .unreachable, .unreachable => True
  | _, _ => False

structure ParameterMeans (s : Scope) (g : Graph) (l : Label) (p : (String × Ty) × Nat)
    (q : Parameter) : Prop where
  numbered : s.values.lookup p.1.1 = some (q.value, p.1.2)
  type : q.type = p.1.2
  recorded : g.info? q.value = some ⟨some p.1.1, p.1.2, .parameter l p.2⟩

structure StatementTree.Means (s : Scope) (g : Graph) (l : Label) (st : StatementTree) (v : Value) :
    Prop where
  numbered : ∀ name, st.name = some name →
    s.values.lookup name = some (v, st.op.operation.resultType)
  recorded : ∃ i, g.info? v = some ⟨st.name, st.op.operation.resultType, .instruction l i⟩
    ∧ st.op.Means g i

/-- A block as it is written and as it is in the graph, with its position. The scope has numbered
the names with the values that the block holds in their places. -/
structure BlockTree.Means (s : Scope) (g : Graph) (t : BlockTree) (n : Nat) (b : Block) : Prop where
  name : b.name = t.name
  label : b.label = ⟨n⟩ ∧ s.blocks.lookup t.name = some b.label
  parameters : List.Forall₂ (ParameterMeans s g b.label) t.parameters.zipIdx b.parameters
  instructions : List.Forall₂ (StatementTree.Means s g b.label) t.statements b.instructions
  flow : t.flow.Means g b.flow

/-- A method as it is written and its graph. Every name that the scope has numbered is that of one
value or block only. -/
structure MethodTree.Means (t : MethodTree) (s : Scope) (g : Graph) : Prop where
  scope : t.scope = .ok s
  values : ∀ name v type, s.values.lookup name = some (v, type) →
    g.NamesValue name v ∧ g.type? v = some type
  blocks : ∀ name l, s.blocks.lookup name = some l → g.NamesBlock name l
  contents : List.Forall₂ (fun x b => x.1.Means s g x.2 b) t.blocks.zipIdx g.blocks.toList

section Resolving

variable {s : Scope} {g : Graph}

theorem Names.namesValue (h : Names s g) {name : String} {v : Value} {t : Ty}
    (hl : s.values.lookup name = some (v, t)) : g.NamesValue name v ∧ g.type? v = some t := by
  obtain ⟨x, hx, hn, rfl⟩ := (h.value name v t).mp hl
  refine ⟨?_, by rw [Graph.type?, hx, Option.map_some]⟩
  intro w
  constructor
  · rintro ⟨y, hy, hn'⟩
    have hw := (h.value name w y.type).mpr ⟨y, hy, hn', rfl⟩
    rw [hl] at hw
    exact (congrArg Prod.fst (Option.some.inj hw)).symm
  · rintro rfl
    exact ⟨x, hx, hn⟩

theorem Names.namesBlock (h : Names s g) {name : String} {l : Label}
    (hl : s.blocks.lookup name = some l) : g.NamesBlock name l := by
  intro k
  rw [← h.block name k, hl, Option.some_inj]
  exact eq_comm

theorem Names.means_value (h : Names s g) {n : Nat} {name : String} {v : Value}
    (hv : s.value n name = .ok v) : g.NamesValue name v := by
  rw [Scope.value] at hv
  cases he : s.entry n name with
  | error e =>
    rw [he] at hv
    cases hv
  | ok e =>
    rw [he] at hv
    cases hv
    exact (h.namesValue (entry_eq_ok he)).1

theorem Names.means_instr (h : Names s g) {op : OpTree} {i : Instr} (hi : s.instr op = .ok i) :
    op.Means g i := by
  rw [Scope.instr, bind_eq_ok] at hi
  obtain ⟨es, hes, hi⟩ := hi
  cases hi
  have hnames := (forall₂_of_mapM hes).imp fun name e he => h.namesValue (entry_eq_ok he)
  constructor
  · rw [List.forall₂_map_right_iff]
    exact hnames.imp fun _ _ he => he.1
  · dsimp only
    generalize op.operation = o
    cases o with
    | intrinsic name t ps =>
      refine ⟨_, rfl, ?_⟩
      rw [List.forall₂_map_left_iff, List.forall₂_map_right_iff, List.forall₂_same]
      intro e he
      obtain ⟨name, -, hn⟩ := forall_of_forall₂ hnames.flip he
      exact hn.2
    | _ => rfl

theorem Names.means_arg (h : Names s g) {n : Nat} {a : ArgTree} {r : BranchArg}
    (ha : s.arg n a = .ok r) : a.Means g r := by
  cases a with
  | value name =>
    rw [Scope.arg, bind_eq_ok] at ha
    obtain ⟨v, hv, ha⟩ := ha
    cases ha
    exact h.means_value hv
  | result | exception =>
    cases ha
    trivial

theorem Names.means_branch (h : Names s g) {t : BranchTree} {b : Branch} (hb : s.branch t = .ok b) :
    t.Means g b := by
  unfold Scope.branch at hb
  split at hb
  · cases hb
  · next l hl =>
    obtain ⟨as, has, hb⟩ := bind_eq_ok.mp hb
    cases hb
    exact ⟨h.namesBlock hl, (forall₂_of_mapM has).imp fun _ _ => h.means_arg⟩

theorem Names.means_case (h : Names s g) {t : CaseTree} {c : Case} (hc : s.case t = .ok c) :
    t.Means g c := by
  rw [Scope.case, bind_eq_ok] at hc
  obtain ⟨b, hb, hc⟩ := hc
  cases hc
  exact ⟨rfl, h.means_branch hb⟩

theorem Names.means_flow (h : Names s g) {t : FlowTree} {n : Nat} {f : Flow}
    (hf : s.flow n t = .ok f) :
    t.Means g f := by
  cases t with
  | ret value =>
    cases value with
    | none =>
      cases hf
      trivial
    | some name =>
      obtain ⟨v, hv, hf⟩ := bind_eq_ok.mp hf
      cases hf
      exact h.means_value hv
  | jump t =>
    obtain ⟨b, hb, hf⟩ := bind_eq_ok.mp hf
    cases hf
    exact h.means_branch hb
  | switch name ts t =>
    obtain ⟨v, hv, hf⟩ := bind_eq_ok.mp hf
    obtain ⟨cs, hcs, hf⟩ := bind_eq_ok.mp hf
    obtain ⟨b, hb, hf⟩ := bind_eq_ok.mp hf
    cases hf
    exact ⟨h.means_value hv, (forall₂_of_mapM hcs).imp fun _ _ => h.means_case, h.means_branch hb⟩
  | protect op t u =>
    obtain ⟨i, hi, hf⟩ := bind_eq_ok.mp hf
    obtain ⟨b, hb, hf⟩ := bind_eq_ok.mp hf
    obtain ⟨c, hc, hf⟩ := bind_eq_ok.mp hf
    cases hf
    exact ⟨h.means_instr hi, h.means_branch hb, h.means_branch hc⟩
  | unreachable =>
    cases hf
    trivial

theorem info?_middle {before after : List ValueInfo} {x : ValueInfo}
    (hv : g.values.toList = before ++ x :: after) : g.info? ⟨before.length⟩ = some x := by
  rw [Graph.info?, ← Array.getElem?_toList, hv]
  simp

theorem Names.means_parameters (h : Names s g) {l : Label} {k : Nat} {ps : List (String × Ty)}
    {before after : List ValueInfo}
    (hv : g.values.toList = before ++ (parameterInfos l k ps ++ after)) :
    List.Forall₂ (ParameterMeans s g l) (ps.zipIdx k) (numbered before.length ps) := by
  induction ps generalizing before k with
  | nil => exact .nil
  | cons p ps ih =>
    obtain ⟨name, t⟩ := p
    rw [parameterInfos, List.cons_append] at hv
    have hx := info?_middle hv
    rw [List.append_cons] at hv
    have hrest := ih hv
    rw [List.length_append, List.length_singleton] at hrest
    exact .cons ⟨(h.value name _ t).mpr ⟨_, hx, rfl, rfl⟩, rfl, hx⟩ hrest

theorem Names.means_statements (h : Names s g) {l : Label} {sts : List StatementTree}
    {is : List (Option String × Instr)} {before after : List ValueInfo}
    (hs : List.Forall₂ (fun st x => x.1 = st.name ∧ s.instr st.op = .ok x.2) sts is)
    (hv : g.values.toList = before ++ (is.map (instrInfo l) ++ after)) :
    List.Forall₂ (StatementTree.Means s g l) sts
      ((List.range' before.length is.length).map Value.mk) := by
  induction hs generalizing before with
  | nil => exact .nil
  | @cons st x sts is hr _ ih =>
    obtain ⟨hname, hi⟩ := hr
    rw [List.map_cons, List.cons_append] at hv
    have hx := info?_middle hv
    rw [instrInfo, hname, resultType_of_instr hi] at hx
    rw [List.append_cons] at hv
    have hrest := ih hv
    rw [List.length_append, List.length_singleton] at hrest
    rw [List.length_cons, List.range'_succ, List.map_cons]
    refine .cons ⟨?_, x.2, hx, h.means_instr hi⟩ hrest
    intro name hn
    exact (h.value name _ _).mpr ⟨_, hx, hn, rfl⟩

theorem Names.means_block (h : Names s g) {t : BlockTree} {n : Nat} {r : Resolved}
    {before after : List ValueInfo} (hr : s.block t n = .ok r)
    (hv : g.values.toList = before ++ (r.infos ++ after))
    (hb : g.block? ⟨n⟩ = some (r.toBlock t.name before.length)) :
    t.Means s g n (r.toBlock t.name before.length) := by
  obtain ⟨hlabel, hps, hf, hsts⟩ := block_eq_ok hr
  rw [Resolved.infos, List.append_assoc] at hv
  have hparameters := h.means_parameters hv
  rw [← List.append_assoc] at hv
  have hinstrs := h.means_statements hsts hv
  rw [List.length_append, length_parameterInfos] at hinstrs
  rw [hps] at hparameters
  have hlookup : s.blocks.lookup t.name = some r.label := by
    rw [h.block, hlabel]
    exact ⟨_, hb, rfl⟩
  refine ⟨rfl, ⟨hlabel, hlookup⟩, ?_, hinstrs, h.means_flow hf⟩
  rw [Resolved.toBlock, hps]
  exact hparameters

theorem Names.means_blocks (h : Names s g) {ts : List BlockTree} {rs : List Resolved}
    {before : List ValueInfo} {blocks : List Block}
    (hrs : List.Forall₂ (fun x r => s.block x.1 x.2 = .ok r) (ts.zipIdx blocks.length) rs)
    (hv : g.values.toList = before ++ rs.flatMap Resolved.infos)
    (hb : g.blocks.toList = blocks ++ assembled before.length ts rs) :
    List.Forall₂ (fun x b => x.1.Means s g x.2 b) (ts.zipIdx blocks.length)
      (assembled before.length ts rs) := by
  induction ts generalizing before blocks rs with
  | nil =>
    cases hrs
    exact .nil
  | cons t ts ih =>
    rw [List.zipIdx_cons] at hrs ⊢
    cases hrs with
    | @cons _ r _ rs hr hrest =>
      rw [List.flatMap_cons] at hv
      rw [assembled] at hb ⊢
      have hblock : g.block? ⟨blocks.length⟩ = some (r.toBlock t.name before.length) := by
        rw [Graph.block?, ← Array.getElem?_toList, hb]
        simp
      have hfirst := h.means_block hr hv hblock
      have hlen : blocks.length + 1 = (blocks ++ [r.toBlock t.name before.length]).length := by simp
      rw [← List.append_assoc] at hv
      rw [List.append_cons, ← List.length_append] at hb
      rw [hlen] at hrest ⊢
      rw [← List.length_append]
      exact .cons hfirst (ih hrest hv hb)

end Resolving

/-- In every method of a text each name has been numbered with the value or the block of the graph
that is defined by it, which is the only one with that name. Whatever is written with a name, before
or behind the definition, refers to it, and intrinsics have the types of their operands. -/
theorem names_resolved {text : String} {ms : List NamedGraph} (h : parse text = .ok ms) :
    ∃ ts, trees text = .ok ts
      ∧ List.Forall₂ (fun t m => m.name = t.name ∧ ∃ s, t.Means s m.graph) ts ms := by
  obtain ⟨ts, hts, hall⟩ := trees_of_parse h
  refine ⟨ts, hts, hall.imp ?_⟩
  intro t m ht
  obtain ⟨s, rs, hscope, hnames, hrs, hb, hv⟩ := MethodTree.graph_parts ht.2
  have hrs : List.Forall₂ _ (t.blocks.zipIdx ([] : List Block).length) rs := hrs
  have hv : m.graph.values.toList = [] ++ rs.flatMap Resolved.infos := hv
  have hcontents := hnames.means_blocks hrs hv hb
  refine ⟨ht.1, s, hscope, fun _ _ _ => hnames.namesValue, fun _ _ => hnames.namesBlock, ?_⟩
  rw [hb]
  exact hcontents

def differenceText : String :=
  "method rest \x7b
entry(%n: i32):
    jump ^step(%n)
done:
    %rest = arith.sub %n, %one : i32
    ret %rest
step(%one: i32):
    jump ^done
\x7d
"

theorem difference_resolved : ∃ m t s, parse differenceText = .ok [m]
    ∧ trees differenceText = .ok [t]
    ∧ t.Means s m.graph ∧ m.graph.instr? ⟨1⟩
      = some ⟨.intrinsic "arith.sub" (.signed 32) [.signed 32, .signed 32], [⟨0⟩, ⟨2⟩]⟩ := by
  have hrest : (parse differenceText).toOption.map (List.map fun m => m.graph.instr? ⟨1⟩)
      = some [some ⟨.intrinsic "arith.sub" (.signed 32) [.signed 32, .signed 32], [⟨0⟩, ⟨2⟩]⟩] := by
    decide +kernel
  obtain ⟨ms, hp, hrest⟩ := ok_of_toOption hrest
  obtain ⟨m, rfl, hm⟩ := List.map_eq_singleton_iff.mp hrest
  obtain ⟨ts, hts, hall⟩ := names_resolved hp
  cases hall with
  | cons ht hnil =>
    cases hnil
    obtain ⟨-, s, hs⟩ := ht
    exact ⟨m, _, s, hp, hts, hs, hm⟩

end Source

end StackCode
