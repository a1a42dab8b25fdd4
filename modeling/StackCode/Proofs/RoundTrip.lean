import StackCode.Proofs.Assembly

namespace StackCode

namespace ValueInfo

def instr? (x : ValueInfo) : Option Instr :=
  match x.definition with
  | .instruction _ i => some i
  | .parameter _ _ => none

end ValueInfo

namespace Flow

def guarded? : Flow → Option Operation
  | .protect risky _ _ => some risky.operation
  | _ => none

def constants : Flow → List Constant
  | .switch _ cases _ => cases.flatMap Case.constants
  | _ => []

end Flow

namespace Graph

def operations (g : Graph) : List Operation :=
  (g.values.toList.filterMap ValueInfo.instr?).map Instr.operation
    ++ g.blocks.toList.filterMap fun b => b.flow.guarded?

/-- The results of instructions have names, and nothing else has one. -/
def Named (g : Graph) : Prop :=
  ∀ x ∈ g.values.toList, ∀ i ∈ x.instr?, x.name.isSome = !i.operation.resultType.isVoid

/-- No constant is a fraction, and texts are written with escapes that can be read. -/
def Plain (g : Graph) : Prop :=
  (∀ o ∈ g.operations, o.Plain) ∧ ∀ b ∈ g.blocks.toList, ∀ c ∈ b.flow.constants, c.Plain

/-- No integer constant has the type of a fraction. -/
def Exact (g : Graph) : Prop :=
  ∀ o ∈ g.operations, o.Exact

end Graph

namespace Source

theorem map_of_forall₂ {α β γ : Type} {R : α → β → Prop} {f : β → γ} {g : α → γ} {xs : List α}
    {ys : List β} (h : List.Forall₂ R xs ys) (hfg : ∀ x y, R x y → f y = g x) :
    ys.map f = xs.map g := by
  induction h with
  | nil => rfl
  | cons hr _ ih => rw [List.map_cons, List.map_cons, hfg _ _ hr, ih]

structure Faithful (s : Scope) (g : Graph) : Prop where
  value : ∀ name e, s.values.lookup name = some e → g.valueName e.1 = name
  block : ∀ name l, s.blocks.lookup name = some l → Print.target g l = name

theorem lookup_append_single {α : Type} {es : List (String × α)} {name key : String} {a b : α}
    (hn : ¬ (es.lookup name).isSome = true) :
    (es ++ [(name, a)]).lookup key = some b ↔ es.lookup key = some b ∨ key = name ∧ b = a := by
  rw [List.lookup_append, Option.or_eq_some_iff, List.lookup_cons, List.lookup_nil]
  by_cases hk : key = name
  · subst hk
    rw [Bool.not_eq_true, Option.isSome_eq_false_iff, Option.isNone_iff_eq_none] at hn
    simp [hn, eq_comm]
  · simp [hk, beq_eq_false_iff_ne.mpr hk]

theorem lookup_valueScope {n : Nat} {scope r : List (String × Value × Ty)} {ds : List Defined}
    (h : valueScope n scope ds = .ok r) {name : String} {e : Value × Ty} :
    r.lookup name = some e ↔ scope.lookup name = some e
      ∨ ∃ k d, ds[k]? = some d ∧ d.name = some name ∧ e = (⟨n + k⟩, d.type) := by
  induction ds generalizing n scope with
  | nil =>
    cases h
    simp
  | cons d ds ih =>
    have hshift : ∀ k, (⟨n + 1 + k⟩ : Value) = ⟨n + (k + 1)⟩ := by
      intro k
      rw [Nat.add_assoc, Nat.add_comm 1]
    obtain ⟨dname, t, line⟩ := d
    cases dname with
    | none =>
      rw [valueScope] at h
      rw [ih h, exists_getElem?_cons]
      simp [hshift]
    | some dname =>
      rw [valueScope] at h
      split at h
      · cases h
      · next hn =>
        rw [ih h, lookup_append_single hn, exists_getElem?_cons, or_assoc]
        simp [hshift, eq_comm]

theorem lookup_blockScope {method : String} {n : Nat} {scope r : List (String × Label)}
    {bs : List BlockTree} (h : blockScope method n scope bs = .ok r) {name : String} {l : Label} :
    r.lookup name = some l ↔ scope.lookup name = some l
      ∨ ∃ k b, bs[k]? = some b ∧ b.name = name ∧ l = ⟨n + k⟩ := by
  induction bs generalizing n scope with
  | nil =>
    cases h
    simp
  | cons b bs ih =>
    have hshift : ∀ k, (⟨n + 1 + k⟩ : Label) = ⟨n + (k + 1)⟩ := by
      intro k
      rw [Nat.add_assoc, Nat.add_comm 1]
    rw [blockScope] at h
    split at h
    · cases h
    · next hn =>
      rw [ih h, lookup_append_single hn, exists_getElem?_cons, or_assoc]
      simp [hshift, eq_comm]

theorem valueName_eq {g : Graph} {v : Value} {x : ValueInfo} {name : String}
    (hx : g.values.toList[v.id]? = some x) (hn : x.name = some name) : g.valueName v = name := by
  rw [Array.getElem?_toList] at hx
  obtain ⟨xname, t, d⟩ := x
  obtain rfl : xname = some name := hn
  rw [Graph.valueName, Graph.info?, hx]

theorem target_eq {g : Graph} {l : Label} {b : Block} (hb : g.blocks.toList[l.id]? = some b) :
    Print.target g l = b.name := by
  rw [Array.getElem?_toList] at hb
  rw [Print.target, Graph.block?, hb]

variable {s : Scope} {g : Graph}

theorem entry_eq_ok {n : Nat} {name : String} {e : Value × Ty} (h : s.entry n name = .ok e) :
    s.values.lookup name = some e := by
  unfold Scope.entry at h
  split at h
  · next he =>
    cases h
    exact he
  · cases h

theorem Faithful.named (hg : Faithful s g) {n : Nat} {name : String} {v : Value}
    (h : s.value n name = .ok v) : g.valueName v = name := by
  rw [Scope.value] at h
  cases he : s.entry n name with
  | error e =>
    rw [he] at h
    cases h
  | ok e =>
    rw [he] at h
    cases h
    exact hg.value name e (entry_eq_ok he)

theorem operation_of_instr {op : OpTree} {i : Instr} (h : s.instr op = .ok i) :
    i.operation = op.operation ∨
      ∃ name t ps qs, op.operation = .intrinsic name t ps ∧ i.operation = .intrinsic name t qs := by
  rw [Scope.instr, bind_eq_ok] at h
  obtain ⟨es, -, h⟩ := h
  cases h
  dsimp only
  split
  · next ho => exact .inr ⟨_, _, _, _, ho, rfl⟩
  · exact .inl rfl

theorem operands_of_instr {op : OpTree} {i : Instr} (h : s.instr op = .ok i) :
    List.Forall₂ (fun name v => ∃ t, s.values.lookup name = some (v, t)) op.operands
      i.operands := by
  rw [Scope.instr, bind_eq_ok] at h
  obtain ⟨es, hes, h⟩ := h
  cases h
  rw [List.forall₂_map_right_iff]
  exact (forall₂_of_mapM hes).imp fun name e he => ⟨e.2, entry_eq_ok he⟩

theorem resultType_of_instr {op : OpTree} {i : Instr} (h : s.instr op = .ok i) :
    i.operation.resultType = op.operation.resultType := by
  rcases operation_of_instr h with ho | ⟨name, t, ps, qs, ho, hi⟩
  · rw [ho]
  · rw [ho, hi]
    rfl

theorem plain_of_instr {op : OpTree} {i : Instr} (h : s.instr op = .ok i) (hp : i.operation.Plain)
    (he : i.operation.Exact) : op.Plain := by
  rcases operation_of_instr h with ho | ⟨name, t, ps, qs, ho, -⟩
  · rw [ho] at hp he
    exact ⟨hp, he⟩
  · simp [OpTree.Plain, ho, Operation.Plain, Operation.Exact]

theorem Faithful.instr (hg : Faithful s g) {op : OpTree} {i : Instr} (h : s.instr op = .ok i) :
    Print.instr g i = op.pieces := by
  have hops : i.operands.map (fun v => [Print.value g v]) = op.operands.map fun s =>
      [.token (.value s)] := by
    apply map_of_forall₂ (operands_of_instr h)
    rintro name v ⟨t, ht⟩
    rw [Print.value, hg.value name _ ht]
  have hempty : i.operands.isEmpty = op.operands.isEmpty := by
    have := congrArg List.isEmpty hops
    simpa using this
  have hboth : Print.operation i.operation = Print.operation op.operation ∧
      Print.suffix i.operation = Print.suffix op.operation := by
    rcases operation_of_instr h with ho | ⟨name, t, ps, qs, ho, hi⟩
    · rw [ho]
      exact ⟨rfl, rfl⟩
    · rw [ho, hi]
      exact ⟨rfl, rfl⟩
  rw [Print.instr, OpTree.pieces, hops, hempty, hboth.1, hboth.2]

theorem Faithful.arg (hg : Faithful s g) {n : Nat} {a : ArgTree} {r : BranchArg}
    (h : s.arg n a = .ok r) : Print.arg g r = a.piece := by
  cases a with
  | value name =>
    rw [Scope.arg, bind_eq_ok] at h
    obtain ⟨v, hv, h⟩ := h
    cases h
    rw [Print.arg, Print.value, hg.named hv]
    rfl
  | result | exception =>
    cases h
    rfl

theorem Faithful.branch (hg : Faithful s g) {b : BranchTree} {r : Branch} (h : s.branch b = .ok r) :
    Print.branch g r = b.pieces := by
  unfold Scope.branch at h
  split at h
  · cases h
  · next l hl =>
    rw [bind_eq_ok] at h
    obtain ⟨as, has, h⟩ := h
    cases h
    have hargs : as.map (fun a => [Print.arg g a]) = b.args.map fun a => [a.piece] :=
      map_of_forall₂ (forall₂_of_mapM has) fun a r hr => by rw [hg.arg hr]
    have hempty : as.isEmpty = b.args.isEmpty := by
      have := congrArg List.isEmpty hargs
      simpa using this
    rw [Print.branch, BranchTree.pieces, hargs, hempty, hg.block _ _ hl]

theorem Faithful.case (hg : Faithful s g) {c : CaseTree} {r : Case} (h : s.case c = .ok r) :
    Print.case g r = c.pieces := by
  rw [Scope.case, bind_eq_ok] at h
  obtain ⟨b, hb, h⟩ := h
  cases h
  rw [Print.case, CaseTree.pieces, hg.branch hb]

theorem Faithful.flow (hg : Faithful s g) {f : FlowTree} {n : Nat} {r : Flow}
    (h : s.flow n f = .ok r) :
    Print.flow g r = f.pieces := by
  cases f with
  | ret value =>
    cases value with
    | none =>
      cases h
      rfl
    | some name =>
      rw [Scope.flow, bind_eq_ok] at h
      obtain ⟨v, hv, h⟩ := h
      cases h
      rw [Print.flow, FlowTree.pieces, Print.value, hg.named hv]
  | jump b =>
    rw [Scope.flow, bind_eq_ok] at h
    obtain ⟨br, hb, h⟩ := h
    cases h
    rw [Print.flow, FlowTree.pieces, hg.branch hb]
  | switch name cases fallback =>
    rw [Scope.flow, bind_eq_ok] at h
    obtain ⟨v, hv, h⟩ := h
    rw [bind_eq_ok] at h
    obtain ⟨cs, hcs, h⟩ := h
    rw [bind_eq_ok] at h
    obtain ⟨br, hb, h⟩ := h
    cases h
    have hcases : cs.flatMap (Print.case g) = cases.flatMap CaseTree.pieces := by
      rw [List.flatMap_def, List.flatMap_def, map_of_forall₂ (forall₂_of_mapM hcs) fun c r =>
        hg.case]
    rw [Print.flow, FlowTree.pieces, Print.value, hg.named hv, hcases, hg.branch hb]
  | protect risky success failure =>
    rw [Scope.flow, bind_eq_ok] at h
    obtain ⟨i, hi, h⟩ := h
    rw [bind_eq_ok] at h
    obtain ⟨x, hx, h⟩ := h
    rw [bind_eq_ok] at h
    obtain ⟨y, hy, h⟩ := h
    cases h
    rw [Print.flow, FlowTree.pieces, hg.instr hi, hg.branch hx, hg.branch hy]
  | unreachable =>
    cases h
    rfl

theorem plain_of_flow {f : FlowTree} {n : Nat} {r : Flow} (h : s.flow n f = .ok r)
    (hc : ∀ c ∈ r.constants, c.Plain) (ho : ∀ o ∈ r.guarded?, o.Plain ∧ o.Exact) : f.Plain := by
  cases f with
  | ret value | jump b | unreachable => trivial
  | switch name cases fallback =>
    rw [Scope.flow, bind_eq_ok] at h
    obtain ⟨v, -, h⟩ := h
    rw [bind_eq_ok] at h
    obtain ⟨cs, hcs, h⟩ := h
    rw [bind_eq_ok] at h
    obtain ⟨br, -, h⟩ := h
    cases h
    intro c hm k hk
    obtain ⟨r, hr, hcr⟩ := forall_of_forall₂ (forall₂_of_mapM hcs) hm
    rw [Scope.case, bind_eq_ok] at hcr
    obtain ⟨b, -, hcr⟩ := hcr
    cases hcr
    exact hc k (List.mem_flatMap.mpr ⟨_, hr, hk⟩)
  | protect risky success failure =>
    rw [Scope.flow, bind_eq_ok] at h
    obtain ⟨i, hi, h⟩ := h
    rw [bind_eq_ok] at h
    obtain ⟨x, -, h⟩ := h
    rw [bind_eq_ok] at h
    obtain ⟨y, -, h⟩ := h
    cases h
    obtain ⟨hp, he⟩ := ho i.operation rfl
    exact plain_of_instr hi hp he

theorem block_eq_ok {t : BlockTree} {n : Nat} {r : Resolved} (h : s.block t n = .ok r) :
    r.label = ⟨n⟩ ∧ r.parameters = t.parameters ∧ s.flow t.line t.flow = .ok r.flow ∧
      List.Forall₂ (fun st x => x.1 = st.name ∧ s.instr st.op = .ok x.2) t.statements r.instrs := by
  rw [Scope.block, bind_eq_ok] at h
  obtain ⟨is, his, h⟩ := h
  rw [bind_eq_ok] at h
  obtain ⟨f, hf, h⟩ := h
  cases h
  refine ⟨rfl, rfl, hf, (forall₂_of_mapM his).imp ?_⟩
  intro st x hx
  obtain ⟨i, hi, hx⟩ := bind_eq_ok.mp hx
  cases hx
  exact ⟨rfl, hi⟩

theorem parameters_pieces {l : Label} {k : Nat} {ps : List (String × Ty)}
    {before after : List ValueInfo}
    (h : g.values.toList = before ++ (parameterInfos l k ps ++ after)) :
    (numbered before.length ps).map (fun p => [Print.value g p.value, Print.punct .colon, .space]
        ++ Print.type p.type)
      = ps.map fun p => .token (.value p.1) :: Print.punct .colon :: .space :: Print.type p.2 := by
  induction ps generalizing before k with
  | nil => rfl
  | cons p ps ih =>
    obtain ⟨name, t⟩ := p
    rw [parameterInfos, List.cons_append] at h
    have hv : g.valueName ⟨before.length⟩ = name :=
      valueName_eq (x := ⟨some name, t, .parameter l k⟩) (by simp [h]) rfl
    rw [List.append_cons] at h
    have := ih h
    rw [List.length_append, List.length_singleton] at this
    rw [numbered, List.map_cons, this, Print.value, hv]
    rfl

theorem statements_pieces (hg : Faithful s g) (hn : g.Named) {l : Label} {sts : List StatementTree}
    {is : List (Option String × Instr)} {before after : List ValueInfo}
    (hs : List.Forall₂ (fun st x => x.1 = st.name ∧ s.instr st.op = .ok x.2) sts is)
    (h : g.values.toList = before ++ (is.map (instrInfo l) ++ after)) :
    ((List.range' before.length is.length).map Value.mk).flatMap (Print.statement g)
      = sts.flatMap StatementTree.pieces := by
  induction hs generalizing before with
  | nil => rfl
  | @cons st x sts is hr _ ih =>
    obtain ⟨name, i⟩ := x
    obtain ⟨hname, hi⟩ := hr
    obtain rfl : name = st.name := hname
    rw [List.map_cons, List.cons_append] at h
    have hx : g.values.toList[before.length]? = some (instrInfo l (st.name, i)) := by simp [h]
    have hinstr : g.instr? ⟨before.length⟩ = some i := by
      rw [Array.getElem?_toList] at hx
      rw [Graph.instr?, Graph.info?, hx]
      rfl
    have hvoid := hn _ (List.mem_of_getElem? hx) i rfl
    rw [List.append_cons] at h
    have := ih h
    rw [List.length_append, List.length_singleton] at this
    rw [List.length_cons, List.range'_succ, List.map_cons, List.flatMap_cons, this,
      List.flatMap_cons]
    congr 1
    rw [Print.statement, hinstr]
    dsimp only
    rw [hg.instr hi, StatementTree.pieces]
    cases hst : st.name with
    | none =>
      have : i.operation.resultType.isVoid = true := by simpa [instrInfo, hst] using hvoid
      rw [if_pos this]
    | some v =>
      have hv : i.operation.resultType.isVoid = false := by simpa [instrInfo, hst] using hvoid
      rw [if_neg (by simp [hv]), Print.value, valueName_eq hx hst]

theorem Faithful.blockPieces (hg : Faithful s g) (hn : g.Named) {t : BlockTree} {n : Nat}
    {r : Resolved} {before after : List ValueInfo} (hr : s.block t n = .ok r)
    (h : g.values.toList = before ++ (r.infos ++ after)) :
    Print.block g (r.toBlock t.name before.length) = t.pieces := by
  obtain ⟨-, hps, hf, hsts⟩ := block_eq_ok hr
  rw [Resolved.infos, List.append_assoc] at h
  have hp := parameters_pieces h
  rw [← List.append_assoc] at h
  have hs := statements_pieces hg hn hsts h
  rw [List.length_append, length_parameterInfos] at hs
  have hparams : Print.parameters g (numbered before.length r.parameters) = t.parameterPieces := by
    rw [Print.parameters, BlockTree.parameterPieces, hp, hps]
    cases t.parameters <;> rfl
  rw [Print.block, BlockTree.pieces, Resolved.toBlock, hparams, hs, hg.flow hf]

theorem blocks_pieces (hg : Faithful s g) (hn : g.Named) {ts : List BlockTree} {k : Nat}
    {rs : List Resolved} {before : List ValueInfo}
    (hrs : List.Forall₂ (fun x r => s.block x.1 x.2 = .ok r) (ts.zipIdx k) rs)
    (h : g.values.toList = before ++ rs.flatMap Resolved.infos) :
    (assembled before.length ts rs).flatMap (Print.block g) = ts.flatMap BlockTree.pieces := by
  induction ts generalizing before k rs with
  | nil =>
    cases hrs
    rfl
  | cons t ts ih =>
    rw [List.zipIdx_cons] at hrs
    cases hrs with
    | @cons _ r _ rs hr hrest =>
      rw [List.flatMap_cons] at h
      rw [assembled, List.flatMap_cons, List.flatMap_cons, hg.blockPieces hn hr h]
      rw [← List.append_assoc] at h
      have := ih hrest h
      rw [List.length_append] at this
      rw [this]

theorem signatures_parameterInfos (l : Label) (k : Nat) (ps : List (String × Ty)) :
    (parameterInfos l k ps).map (fun x => (x.name, x.type)) = ps.map fun p => (some p.1, p.2) := by
  induction ps generalizing k with
  | nil => rfl
  | cons p ps ih => rw [parameterInfos, List.map_cons, ih, List.map_cons]

theorem signatures_infos {t : BlockTree} {n : Nat} {r : Resolved} (h : s.block t n = .ok r) :
    r.infos.map (fun x => (x.name, x.type)) = t.defined.map fun d => (d.name, d.type) := by
  obtain ⟨-, hps, -, hsts⟩ := block_eq_ok h
  rw [Resolved.infos, BlockTree.defined, List.map_append, List.map_append,
    signatures_parameterInfos, hps, List.map_map, List.map_map, List.map_map]
  congr 1
  apply map_of_forall₂ hsts
  intro st x hx
  exact Prod.ext hx.1 (resultType_of_instr hx.2)

section Resolving

variable {ts : List BlockTree} {k : Nat} {rs : List Resolved}

theorem signatures_flatMap (hrs : List.Forall₂ (fun x r => s.block x.1 x.2 = .ok r)
    (ts.zipIdx k) rs) :
    (rs.flatMap Resolved.infos).map (fun x => (x.name, x.type))
      = (ts.flatMap BlockTree.defined).map fun d => (d.name, d.type) := by
  induction ts generalizing k rs with
  | nil =>
    cases hrs
    rfl
  | cons t ts ih =>
    rw [List.zipIdx_cons] at hrs
    cases hrs with
    | cons hr hrest =>
      rw [List.flatMap_cons, List.flatMap_cons, List.map_append, List.map_append,
        signatures_infos hr, ih hrest]

theorem names_assembled (hrs : List.Forall₂ (fun x r => s.block x.1 x.2 = .ok r) (ts.zipIdx k) rs)
    (n : Nat) :
    (assembled n ts rs).map Block.name = ts.map BlockTree.name := by
  induction ts generalizing k rs n with
  | nil =>
    cases hrs
    rfl
  | cons t ts ih =>
    rw [List.zipIdx_cons] at hrs
    cases hrs with
    | cons hr hrest => rw [assembled, List.map_cons, ih hrest, List.map_cons, Resolved.toBlock]

theorem mem_assembled (hrs : List.Forall₂ (fun x r => s.block x.1 x.2 = .ok r) (ts.zipIdx k) rs)
    (n : Nat) {t : BlockTree} (ht : t ∈ ts) :
    ∃ r ∈ rs, ∃ j, s.block t j = .ok r ∧ ∃ b ∈ assembled n ts rs, b.flow = r.flow := by
  induction ts generalizing k rs n with
  | nil => cases ht
  | cons u ts ih =>
    rw [List.zipIdx_cons] at hrs
    cases hrs with
    | @cons _ r _ rs hr hrest =>
      rcases List.mem_cons.mp ht with rfl | ht
      · exact ⟨r, List.mem_cons_self, k, hr, _, List.mem_cons_self, rfl⟩
      · obtain ⟨r', hr', j, hj, b, hb, hf⟩ := ih hrest (n + r.infos.length) ht
        exact ⟨r', List.mem_cons_of_mem _ hr', j, hj, b, List.mem_cons_of_mem _ hb, hf⟩

end Resolving

structure Names (s : Scope) (g : Graph) : Prop where
  value : ∀ name v t, s.values.lookup name = some (v, t)
    ↔ ∃ x, g.info? v = some x ∧ x.name = some name ∧ x.type = t
  block : ∀ name l, s.blocks.lookup name = some l ↔ ∃ b, g.block? l = some b ∧ b.name = name

theorem Names.faithful (h : Names s g) : Faithful s g where
  value name e he := by
    obtain ⟨x, hx, hn, -⟩ := (h.value name e.1 e.2).mp he
    exact valueName_eq ((Array.getElem?_toList ..).trans hx) hn
  block name l hl := by
    obtain ⟨b, hb, rfl⟩ := (h.block name l).mp hl
    exact target_eq ((Array.getElem?_toList ..).trans hb)

theorem MethodTree.graph_parts {m : MethodTree} {g : Graph} (h : m.graph = .ok g) :
    ∃ s rs, m.scope = .ok s ∧ Names s g ∧
      List.Forall₂ (fun x r => s.block x.1 x.2 = .ok r) (m.blocks.zipIdx 0) rs ∧
      g.blocks.toList = assembled 0 m.blocks rs ∧ g.values.toList = rs.flatMap Resolved.infos := by
  obtain ⟨blocks, values, rs, hblocks, hvalues, hrs, rfl⟩ := graph_eq_ok.mp h
  obtain ⟨hb, hv⟩ := graph_holds hrs
  have hrs := forall₂_of_mapM hrs
  have hscope : m.scope = .ok ⟨blocks, values⟩ := by
    rw [scope, hblocks, hvalues]
    rfl
  refine ⟨⟨blocks, values⟩, rs, hscope, ⟨?_, ?_⟩, hrs, hb, hv⟩
  · intro name v t
    have hsame := congrArg (fun l => l[v.id]? = some (some name, t)) (signatures_flatMap hrs)
    simp only [List.getElem?_map, Option.map_eq_some_iff, Prod.mk.injEq, ← hv] at hsame
    rw [Graph.info?, ← Array.getElem?_toList, hsame, lookup_valueScope hvalues]
    constructor
    · rintro (hnil | ⟨k, d, hd, hn, he⟩)
      · cases hnil
      · obtain ⟨rfl, rfl⟩ := Prod.mk.inj he
        exact ⟨d, by simpa using hd, hn, rfl⟩
    · rintro ⟨d, hd, hn, rfl⟩
      exact .inr ⟨v.id, d, hd, hn, by simp⟩
  · intro name l
    have hsame := congrArg (fun l' => l'[l.id]? = some name) (names_assembled hrs 0)
    simp only [List.getElem?_map, Option.map_eq_some_iff, ← hb] at hsame
    rw [Graph.block?, ← Array.getElem?_toList, hsame, lookup_blockScope hblocks]
    constructor
    · rintro (hnil | ⟨k, b, hb, hn, rfl⟩)
      · cases hnil
      · exact ⟨b, by simpa using hb, hn⟩
    · rintro ⟨b, hb, hn⟩
      exact .inr ⟨l.id, b, hb, hn, by simp⟩

theorem MethodTree.pieces_graph {m : MethodTree} {g : Graph} (h : m.graph = .ok g) (hn : g.Named) :
    Source.pieces ⟨m.name, g⟩ = m.pieces := by
  obtain ⟨s, rs, -, hnames, hrs, hb, hv⟩ := graph_parts h
  have hg := hnames.faithful
  have hv : g.values.toList = [] ++ rs.flatMap Resolved.infos := hv
  have hblocks := blocks_pieces hg hn hrs hv
  rw [Source.pieces, MethodTree.pieces, hb]
  exact congrArg (fun ps => _ ++ ps ++ _) hblocks

theorem MethodTree.plain_graph {m : MethodTree} {g : Graph} (h : m.graph = .ok g) (hp : g.Plain)
    (he : g.Exact) : m.Plain := by
  obtain ⟨s, rs, -, -, hrs, hb, hv⟩ := graph_parts h
  intro t ht
  obtain ⟨r, hr, j, hj, b, hmem, hflow⟩ := mem_assembled hrs 0 ht
  obtain ⟨-, -, hf, hsts⟩ := block_eq_ok hj
  rw [← hb] at hmem
  constructor
  · intro st hst
    obtain ⟨x, hx, -, hi⟩ := forall_of_forall₂ hsts hst
    have hinfo : instrInfo r.label x ∈ g.values.toList := by
      rw [hv, List.mem_flatMap]
      exact ⟨r, hr, List.mem_append_right _ (List.mem_map_of_mem hx)⟩
    have hop : x.2.operation ∈ g.operations := by
      apply List.mem_append_left
      exact List.mem_map_of_mem (List.mem_filterMap.mpr ⟨_, hinfo, rfl⟩)
    exact plain_of_instr hi (hp.1 _ hop) (he _ hop)
  · rw [← hflow] at hf
    refine plain_of_flow hf (hp.2 b hmem) ?_
    intro o ho
    have hop : o ∈ g.operations := List.mem_append_right _ (List.mem_filterMap.mpr ⟨b, hmem, ho⟩)
    exact ⟨hp.1 o hop, he o hop⟩

theorem toList_print (m : NamedGraph) : (print m).toList = chars (pieces m) := by
  rw [print, String.toList_join, List.flatMap_map]
  rfl

theorem reads_namedGraph {m : MethodTree} {g : Graph} {rest : List Token} (hs : m.Sound)
    (hp : m.Plain) (h : m.graph = .ok g) :
    Parser.Reads Parser.namedGraph (tokens m.pieces) rest (· = ⟨m.name, g⟩) := by
  intro c hc
  obtain ⟨a, d, ha, hd, halike⟩ := Parser.reads_methodTree hs hp c hc
  refine ⟨⟨m.name, g⟩, d, ?_, hd, rfl⟩
  rw [Parser.namedGraph, Parser.bind_run, ha]
  have hg := MethodTree.graph_alike halike h
  rw [← halike.1]
  show ((liftM a.graph : Parser Graph) >>= fun g => pure (⟨a.name, g⟩ : NamedGraph)) d = _
  rw [hg]
  rfl

theorem parse_of_sound {m : MethodTree} {g : Graph} (hs : m.Sound) (hp : m.Plain)
    (h : m.graph = .ok g) (hn : g.Named) : parse (print ⟨m.name, g⟩) = .ok [⟨m.name, g⟩] := by
  have hpieces := MethodTree.pieces_graph h hn
  obtain ⟨ls, hlex, htokens⟩ := lexFrom_chars (hs.neat hp) 1
  have hlex : lex (print ⟨m.name, g⟩).toList = .ok ls := by
    rw [toList_print, hpieces]
    exact hlex
  have hread : Parser.Reads (Parser.repeatUntil (·.lexemes.isEmpty) Parser.namedGraph)
      ([()].flatMap fun _ => tokens m.pieces) []
      (List.Forall₂ (fun a _ => a = ⟨m.name, g⟩) · [()]) := by
    refine Parser.reads_repeatUntil (S := List.isEmpty) (G := fun _ => True) ?_ ?_ rfl trivial
    · intro c
      simp [Cursor.tokens]
    · intro _ _ r
      exact ⟨by simp [MethodTree.pieces], by simp [MethodTree.pieces], trivial,
        fun _ => reads_namedGraph hs hp h⟩
  obtain ⟨as, d, hrun, -, has⟩ := hread ⟨ls, (ls.getLast?.map Lexeme.line).getD 1⟩ (by
    simpa [Cursor.tokens, tokens] using htokens)
  cases has with
  | cons ha hnil =>
    cases hnil
    subst ha
    rw [parse, bind_eq_ok]
    refine ⟨ls, hlex, ?_⟩
    rw [bind_eq_ok]
    exact ⟨_, hrun, rfl⟩

/-- Printing a method of a text and parsing it again gives the method. -/
theorem parse_print {text : String} {ms : List NamedGraph} {m : NamedGraph}
    (h : parse text = .ok ms)
    (hm : m ∈ ms) (hn : m.graph.Named) (hp : m.graph.Plain) (he : m.graph.Exact) :
    ∃ m', parse (print m) = .ok [m'] ∧ m'.name = m.name ∧ m'.graph = m.graph
      ∧ print m' = print m := by
  obtain ⟨t, hs, hname, hg⟩ := sound_of_parse h m hm
  have := parse_of_sound hs (MethodTree.plain_graph hg hp he) hg hn
  rw [hname] at this
  exact ⟨m, this, rfl, rfl, rfl⟩

def lookupText : String :=
  "method lookup \x7b
entry(%key: i32):
    %none = const class System.String \"\\\"-\\\"\\n\"
    switch %key \x7b
        0, -0x10 => ^done(%none)
        default => ^call
    \x7d
call:
    try call class System.String class Table::find(i32) %key to ^done(#result) catch ^done(%none)
done(%found: class System.String):
    ret %found
\x7d
"

def lookupMethod : NamedGraph :=
  let string : Ty := .object "System.String"
  let text : Instr := ⟨.const (.string "\"-\"\n") string, []⟩
  let find : Instr := ⟨.call ⟨.object "Table", "find", [.signed 32], string, false⟩ .static, [⟨0⟩]⟩
  ⟨"lookup", ⟨0⟩,
    #[⟨⟨0⟩, "entry", [⟨⟨0⟩, .signed 32⟩], [⟨1⟩],
        .switch ⟨0⟩ [⟨[.int 0, .int (-16)], ⟨⟨2⟩, [.value ⟨1⟩]⟩⟩] ⟨⟨1⟩, []⟩⟩,
      ⟨⟨1⟩, "call", [], [], .protect find ⟨⟨2⟩, [.result]⟩ ⟨⟨2⟩, [.value ⟨1⟩]⟩⟩,
      ⟨⟨2⟩, "done", [⟨⟨2⟩, string⟩], [], .ret (some ⟨2⟩)⟩],
    #[⟨some "key", .signed 32, .parameter ⟨0⟩ 0⟩, ⟨some "none", string, .instruction ⟨0⟩ text⟩,
      ⟨some "found", string, .parameter ⟨2⟩ 0⟩]⟩

theorem lookup_parsed : parse lookupText = .ok [lookupMethod] := by
  decide +kernel

theorem lookup_named : lookupMethod.graph.Named := by
  intro x hx
  simp only [lookupMethod, List.mem_cons, List.not_mem_nil, or_false] at hx
  rcases hx with rfl | rfl | rfl <;> simp [ValueInfo.instr?, Operation.resultType, Ty.isVoid]

theorem lookup_plain : lookupMethod.graph.Plain := by
  constructor
  · intro o ho
    simp [lookupMethod, Graph.operations, ValueInfo.instr?, Flow.guarded?] at ho
    rcases ho with rfl | rfl
    · exact (by decide : (Constant.string "\"-\"\n").Plain)
    · trivial
  · decide

theorem lookup_exact : lookupMethod.graph.Exact := by
  intro o ho
  simp [lookupMethod, Graph.operations, ValueInfo.instr?, Flow.guarded?] at ho
  rcases ho with rfl | rfl
  · simp [Operation.Exact, Constant.int?]
  · trivial

theorem lookup_read_back :
    parse lookupText = .ok [lookupMethod] ∧ lookupMethod.graph.Named ∧ lookupMethod.graph.Plain ∧
      lookupMethod.graph.Exact ∧ ∃ m, parse (print lookupMethod) = .ok [m] ∧
        m.name = lookupMethod.name ∧ m.graph = lookupMethod.graph ∧
        print m = print lookupMethod :=
  ⟨lookup_parsed, lookup_named, lookup_plain, lookup_exact,
    parse_print lookup_parsed List.mem_cons_self lookup_named lookup_plain lookup_exact⟩

def truthText : String :=
  "method m \x7b
entry:
    %a = const f32 true
    ret %a
\x7d
"

def constantMethod (c : Constant) : NamedGraph :=
  ⟨"m", ⟨0⟩, #[⟨⟨0⟩, "entry", [], [⟨0⟩], .ret (some ⟨0⟩)⟩],
    #[⟨some "a", .float32, .instruction ⟨0⟩ ⟨.const c .float32, []⟩⟩]⟩

theorem truth_not_read_back :
    parse truthText = .ok [constantMethod (.int 1)] ∧ (constantMethod (.int 1)).graph.Named ∧
      (constantMethod (.int 1)).graph.Plain ∧
      ∃ m, parse (print (constantMethod (.int 1))) = .ok [m] ∧
        m.graph ≠ (constantMethod (.int 1)).graph ∧ print m ≠ print (constantMethod (.int 1)) := by
  refine ⟨by decide +kernel, ?_, ?_, constantMethod (.float32 (.ofInt 1)), by decide +kernel,
    by decide +kernel, by decide +kernel⟩
  · intro x hx
    obtain rfl := List.mem_singleton.mp hx
    simp [ValueInfo.instr?, Operation.resultType, Ty.isVoid]
  · constructor
    · intro o ho
      obtain rfl := List.mem_singleton.mp ho
      trivial
    · decide

end Source

end StackCode
