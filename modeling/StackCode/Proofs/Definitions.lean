import StackCode.Proofs.Routes

/-!
Constructed graphs are in single-definition form. Every value is listed once in all blocks together,
in the block and at the place that its definition records. So the contract finds no fault with the
definitions, and what lowering numbers after the values and blocks of the graph is none of them.
-/

namespace StackCode

def Block.Lists (b : Block) (v : Value) (info : ValueInfo) : Prop :=
  match info.definition with
  | .parameter _ k => b.parameters[k]? = some ⟨v, info.type⟩
  | .instruction _ i => v ∈ b.instructions ∧ info.type = i.operation.resultType

def listedValues (blocks : Array Block) : List Value :=
  blocks.toList.flatMap Block.definitions

/-- Each value is listed once, where its definition says, and nothing else is listed. -/
structure Definite (blocks : Array Block) (values : Array ValueInfo) : Prop where
  once : ∀ v : Value, (listedValues blocks).count v = if v.id < values.size then 1 else 0
  recorded : ∀ (v : Value) info, values[v.id]? = some info →
    ∃ b, blocks[info.definition.block.id]? = some b ∧ b.Lists v info

section Steps

variable {blocks : Array Block} {values : Array ValueInfo} {b : Block} {n : Nat} {v : Value}
  {f : Block → Block}

theorem count_listedValues_modify (hb : blocks[n]? = some b) (f : Block → Block) (v : Value) :
    (listedValues (blocks.modify n f)).count v + b.definitions.count v
      = (listedValues blocks).count v + (f b).definitions.count v := by
  have hlist : ∀ (bs : List Block) (n : Nat), bs[n]? = some b →
      ((bs.modify n f).flatMap Block.definitions).count v + b.definitions.count v
        = (bs.flatMap Block.definitions).count v + (f b).definitions.count v := by
    intro bs
    induction bs with
    | nil => simp
    | cons c bs ih =>
      intro n hn
      cases n with
      | zero =>
        obtain rfl := Option.some.inj hn
        simp only [List.modify_zero_cons, List.flatMap_cons, List.count_append]
        omega
      | succ n =>
        have := ih n (by simpa using hn)
        simp only [List.modify_succ_cons, List.flatMap_cons, List.count_append]
        omega
  rw [listedValues, listedValues, Array.toList_modify]
  exact hlist _ n (by simpa using hb)

theorem listedValues_push (b : Block) :
    listedValues (blocks.push b) = listedValues blocks ++ b.definitions := by
  simp [listedValues]

theorem recorded_modify {info : ValueInfo} (hf : ∀ b : Block, b.Lists v info → (f b).Lists v info)
    (h : ∃ b, blocks[info.definition.block.id]? = some b ∧ b.Lists v info) :
    ∃ b, (blocks.modify n f)[info.definition.block.id]? = some b ∧ b.Lists v info := by
  obtain ⟨b, hb, hl⟩ := h
  rw [Array.getElem?_modify, hb]
  split
  · exact ⟨f b, rfl, hf b hl⟩
  · exact ⟨b, rfl, hl⟩

theorem Definite.addBlock (h : Definite blocks values) (l : Label) (name : String) :
    Definite (blocks.push ⟨l, name, [], [], .unreachable⟩) values := by
  constructor
  · intro v
    rw [listedValues_push, List.count_append, h.once]
    rfl
  · intro v info hv
    obtain ⟨b, hb, hl⟩ := h.recorded v info hv
    exact ⟨b, getElem?_push_of_some hb, hl⟩

theorem Definite.setFlow (h : Definite blocks values) (hb : blocks[n]? = some b) (flow : Flow) :
    Definite (blocks.modify n fun b => { b with flow }) values := by
  constructor
  · intro v
    have hcount := count_listedValues_modify hb (fun b => { b with flow }) v
    have hsame : ({ b with flow } : Block).definitions = b.definitions := rfl
    rw [hsame] at hcount
    rw [← h.once]
    omega
  · intro v info hv
    exact recorded_modify (fun b hl => hl) (h.recorded v info hv)

theorem Definite.add {info : ValueInfo} (h : Definite blocks values) (hb : blocks[n]? = some b)
    (hn : info.definition.block = ⟨n⟩)
    (hadded : (f b).definitions.Perm (⟨values.size⟩ :: b.definitions))
    (hkept : ∀ (b : Block) v info, b.Lists v info → (f b).Lists v info)
    (hnew : (f b).Lists ⟨values.size⟩ info) :
    Definite (blocks.modify n f) (values.push info) := by
  constructor
  · intro v
    have hall := count_listedValues_modify hb f v
    rw [hadded.count_eq, h.once] at hall
    rw [Array.size_push]
    by_cases hv : v = ⟨values.size⟩
    · subst hv
      rw [List.count_cons_self, if_neg (Nat.lt_irrefl _)] at hall
      rw [if_pos (Nat.lt_succ_self _)]
      omega
    · have hne : v.id ≠ values.size := fun he => hv (congrArg Value.mk he)
      have hiff : v.id < values.size + 1 ↔ v.id < values.size := by omega
      rw [List.count_cons_of_ne (Ne.symm hv)] at hall
      simp only [hiff]
      omega
  · intro v other hv
    rw [Array.getElem?_push] at hv
    split at hv
    · rename_i he
      obtain rfl := Option.some.inj hv
      obtain rfl : v = ⟨values.size⟩ := congrArg Value.mk he
      refine ⟨f b, ?_, hnew⟩
      rw [hn, Array.getElem?_modify, if_pos rfl, hb]
      rfl
    · exact recorded_modify (fun b => hkept b v other) (h.recorded v other hv)

theorem Definite.addParameter (h : Definite blocks values) (hb : blocks[n]? = some b)
    (name : Option String) (type : Ty) :
    Definite (blocks.modify n fun b => { b with
      parameters := b.parameters ++ [(⟨⟨values.size⟩, type⟩ : Parameter)] })
      (values.push ⟨name, type, .parameter ⟨n⟩ b.parameters.length⟩) := by
  apply h.add hb rfl
  · simp only [Block.definitions, List.map_append, List.map_singleton, List.append_assoc]
    exact List.perm_middle
  · intro b v info hl
    rw [Block.Lists] at hl ⊢
    split
    · rename_i k hk
      rw [hk] at hl
      exact List.getElem?_append_left (List.getElem?_eq_some_iff.mp hl).1 ▸ hl
    · rename_i i hi
      rw [hi] at hl
      exact hl
  · exact List.getElem?_concat_length

theorem Definite.addInstr (h : Definite blocks values) (hb : blocks[n]? = some b)
    (name : Option String) (i : Instr) :
    Definite (blocks.modify n fun b => { b with
      instructions := b.instructions ++ [(⟨values.size⟩ : Value)] })
      (values.push ⟨name, i.operation.resultType, .instruction ⟨n⟩ i⟩) := by
  apply h.add hb rfl
  · simp only [Block.definitions, ← List.append_assoc]
    exact List.perm_append_singleton _ _
  · intro b v info hl
    rw [Block.Lists] at hl ⊢
    split
    · rename_i k hk
      rw [hk] at hl
      exact hl
    · rename_i j hj
      rw [hj] at hl
      exact ⟨List.mem_append_left _ hl.1, hl.2⟩
  · exact ⟨by simp, rfl⟩

theorem Builder.step?_definite {b c : Builder} {s : BuildStep} {answer : BuildAnswer}
    (h : Definite b.blocks b.values) (hs : b.step? s = some (c, answer)) :
    Definite c.blocks c.values := by
  rcases step?_cases hs with ⟨name, rfl⟩ | ⟨l, rfl⟩ | ⟨l, block, hb, hc⟩
  · exact h.addBlock _ name
  · exact h
  · rcases hc with ⟨name, type, rfl⟩ | ⟨name, i, rfl⟩ | ⟨flow, rfl⟩
    · have hk : b.parameterCount l = block.parameters.length := by rw [parameterCount, hb]
      rw [addParameter, hk]
      exact h.addParameter hb name type
    · exact h.addInstr hb name i
    · exact h.setFlow hb flow

theorem Graph.Built.definite {g : Graph} (h : g.Built) : Definite g.blocks g.values := by
  obtain ⟨steps, b, answers, hr, rfl⟩ := h
  refine Builder.run?_invariant (P := fun b => Definite b.blocks b.values)
    (fun _ _ _ _ => Builder.step?_definite) ⟨?_, ?_⟩ hr
  · intro v
    rfl
  · intro v info hv
    cases hv

theorem Definite.nodup (h : Definite blocks values) : (listedValues blocks).Nodup := by
  rw [List.nodup_iff_count]
  intro v
  rw [h.once]
  split <;> omega

end Steps

def ContractFault.isDefinitional : ContractFault → Bool
  | .redefined _ _ | .notInstruction _ _ => true
  | _ => false

def Sparing (check : Option ContractFault) : Prop :=
  ∀ fault, check = some fault → fault.isDefinitional = false

section Faults

variable {g : Graph} {defined : List Value} {b : Block}

theorem sparing_none : Sparing none := nofun

theorem sparing_some {fault : ContractFault} (h : fault.isDefinitional = false) :
    Sparing (some fault) := by
  intro other he
  obtain rfl := Option.some.inj he
  exact h

theorem Sparing.orElse {x y : Option ContractFault} (hx : Sparing x) (hy : Sparing y) :
    Sparing (x <|> y) := by
  cases x with
  | none => exact hy
  | some fault => exact hx

theorem sparing_findSome? {α : Type} {f : α → Option ContractFault} {as : List α}
    (h : ∀ a ∈ as, Sparing (f a)) : Sparing (as.findSome? f) := by
  intro fault hf
  obtain ⟨a, ha, hfa⟩ := List.exists_of_findSome?_eq_some hf
  exact h a ha fault hfa

theorem sparing_useFault? (v : Value) : Sparing (g.useFault? defined b v) := by
  rw [Graph.useFault?]
  split
  · exact sparing_none
  · exact sparing_some rfl

theorem sparing_instrFault? (i : Instr) : Sparing (g.instrFault? defined b i) := by
  rw [Graph.instrFault?]
  split
  · exact sparing_some rfl
  · exact sparing_findSome? fun v _ => sparing_useFault? v

theorem sparing_argFault? (scope : MarkScope) (a : BranchArg) :
    Sparing (g.argFault? defined b scope a) := by
  cases a with
  | value v => exact sparing_useFault? v
  | result =>
    rw [Graph.argFault?]
    split
    · exact sparing_none
    · exact sparing_some rfl
  | exception =>
    rw [Graph.argFault?]
    split
    · exact sparing_none
    · exact sparing_some rfl

theorem sparing_branchFault? (scope : MarkScope) (branch : Branch) :
    Sparing (g.branchFault? defined b scope branch) := by
  rw [Graph.branchFault?]
  split
  · exact sparing_some rfl
  · split
    · exact sparing_some rfl
    · exact sparing_findSome? fun a _ => sparing_argFault? scope a

theorem sparing_flowFault? : Sparing (g.flowFault? defined b) := by
  rw [Graph.flowFault?]
  split
  · exact sparing_findSome? fun v _ => sparing_useFault? v
  · exact sparing_none
  · exact sparing_branchFault? _ _
  · exact (sparing_useFault? _).orElse (sparing_findSome? fun br _ => sparing_branchFault? _ br)
  · exact (sparing_instrFault? _).orElse
      ((sparing_branchFault? _ _).orElse (sparing_branchFault? _ _))

theorem redefinition?_eq_none {seen : List Value} {ds : List (Value × String)}
    (hd : (ds.map Prod.fst).Nodup) (hs : ∀ v ∈ ds.map Prod.fst, v ∉ seen) :
    redefinition? seen ds = none := by
  induction ds generalizing seen with
  | nil => rfl
  | cons d ds ih =>
    obtain ⟨v, name⟩ := d
    rw [List.map_cons, List.nodup_cons] at hd
    rw [List.map_cons, List.forall_mem_cons] at hs
    have hv : seen.contains v = false := by simpa using hs.1
    rw [redefinition?, hv, if_neg Bool.false_ne_true]
    apply ih hd.2
    intro w hw hmem
    rcases List.mem_cons.mp hmem with rfl | hmem
    · exact hd.1 hw
    · exact hs.2 w hw hmem

theorem Graph.defined_eq (g : Graph) : g.defined = listedValues g.blocks := by
  simp [defined, definitions, listedValues, List.map_flatMap, Function.comp_def]

theorem Coherent.instr?_eq_some (h : Coherent g.blocks g.values) (hb : b ∈ g.blocks.toList)
    {v : Value} (hv : v ∈ b.instructions) : ∃ i, g.instr? v = some i := by
  obtain ⟨n, hn⟩ := List.mem_iff_getElem?.mp hb
  obtain ⟨name, i, hi⟩ := (h n b (by simpa using hn)).instructions v hv
  exact ⟨i, by rw [Graph.instr?, Graph.info?, hi]⟩

theorem Graph.Built.sparing_fault? (h : g.Built) : Sparing g.fault? := by
  rw [Graph.fault?]
  split
  · exact sparing_some rfl
  · have hdistinct : (g.definitions.map Prod.fst).Nodup := by
      rw [← Graph.defined, g.defined_eq]
      exact h.definite.nodup
    rw [redefinition?_eq_none hdistinct (by simp)]
    apply sparing_none.orElse
    apply sparing_findSome?
    intro b hb
    rw [Graph.blockFault?]
    refine (sparing_findSome? fun v hv => ?_).orElse sparing_flowFault?
    obtain ⟨i, hi⟩ := h.coherent.instr?_eq_some hb hv
    rw [Graph.listedFault?, hi]
    exact sparing_instrFault? i

end Faults

/-- Selections that the lowering of instructions and flows leads to, in whatever order and with
whatever outcome. -/
inductive Selection.Reached (ctx : Context) (symbols : Symbols) : Selection → Prop where
  | start : Reached ctx symbols (.start ctx.graph symbols)
  | instr {s : Selection} (h : s.Reached ctx symbols) (i : Instr) :
      Reached ctx symbols ((Select.instr ctx i).run.run s).2
  | flow {s : Selection} (h : s.Reached ctx symbols) (b : Block) :
      Reached ctx symbols ((Select.flow ctx b).run.run s).2

namespace Graph

def LacksValue (g : Graph) (v : Value) : Prop :=
  g.info? v = none ∧ v ∉ listedValues g.blocks

def LacksBlock (g : Graph) (l : Label) : Prop :=
  g.block? l = none ∧ ∀ b ∈ g.blocks.toList, b.label ≠ l

def LacksCode (g : Graph) (code : List Item) : Prop :=
  (∀ i ∈ code, ∀ v, i.register? = some v → g.LacksValue v)
    ∧ ∀ l, .label l ∈ code → g.LacksBlock l

end Graph

structure Selection.Apart (ctx : Context) (s : Selection) : Prop where
  temporaries : ∀ e ∈ s.temporaries, ctx.graph.LacksValue e.1
  temporary : ∀ type v t, (Select.temporary type).run.run s = (.ok v, t) → ctx.graph.LacksValue v
  label : ∀ l t, Select.label.run.run s = (.ok l, t) → ctx.graph.LacksBlock l
  instr : ∀ i c t, (Select.instr ctx i).run.run s = (.ok c, t) → ctx.graph.LacksCode c.code
  flow : ∀ b cs t, (Select.flow ctx b).run.run s = (.ok cs, t) → ∀ c ∈ cs,
    ctx.graph.LacksCode c.code

section Numbers

variable {ctx : Context} {symbols : Symbols} {s : Selection} {g : Graph}

theorem meets_instr_written (s : Selection) (i : Instr) :
    Select.Meets Chunk.rename (Select.instr ctx i) s (fun c t => Wrote s t c.code)
      (·.isRefusal = true) :=
  (@Select.meets_instr ctx (fun _ _ => True) s i fun _ _ => trivial).mono fun _ _ _ h => h.wrote

theorem meets_flow_written (s : Selection) (b : Block) :
    Select.Meets (Select.each Chunk.rename) (Select.flow ctx b) s
      (fun cs t => Select.Written s t cs) (fun _ => True) :=
  ((@Select.meets_flow ctx (fun _ _ => True) b s (fun _ _ _ _ => trivial) trivial).weaken
    fun _ _ => trivial).mono fun _ _ _ h => h.written

theorem Selection.Reached.grows (h : s.Reached ctx symbols) :
    (Selection.start ctx.graph symbols).Grows s := by
  induction h with
  | start => exact .refl _
  | instr _ i ih => exact ih.trans (meets_instr_written _ i).grows
  | flow _ b ih => exact ih.trans (meets_flow_written _ b).grows

theorem Graph.Built.lacksValue (h : g.Built) {v : Value} (hv : g.values.size ≤ v.id) :
    g.LacksValue v := by
  refine ⟨Array.getElem?_eq_none hv, ?_⟩
  rw [← List.count_eq_zero, h.definite.once, if_neg (by omega)]

theorem Graph.Built.lacksBlock (h : g.Built) {l : Label} (hl : g.blocks.size ≤ l.id) :
    g.LacksBlock l := by
  refine ⟨Array.getElem?_eq_none hl, ?_⟩
  rintro b hb rfl
  obtain ⟨n, hn⟩ := List.mem_iff_getElem?.mp hb
  have hlabel := (h.coherent n b (by simpa using hn)).label
  have hlt := (List.getElem?_eq_some_iff.mp hn).1
  rw [hlabel] at hl
  rw [Array.length_toList] at hlt
  exact Nat.not_le_of_lt hlt hl

theorem Graph.Built.apart (h : ctx.graph.Built) (hr : s.Reached ctx symbols) : s.Apart ctx := by
  have hd := hr.grows
  have hcode {code : List Item} {t : Selection} (hw : Wrote s t code) :
      ctx.graph.LacksCode code := by
    have hw := hd.wrote hw
    exact ⟨fun i hi v hv => h.lacksValue (hw.registers i hi v hv).after,
      fun l hl => h.lacksBlock (hw.labels l hl)⟩
  constructor
  · intro e he
    rcases hd.drawn e he with he | he
    · cases he
    · exact h.lacksValue he
  · intro type v t hv
    obtain ⟨-, rfl, -⟩ := (@Select.meets_temporary s (fun _ => True) type).of_run hv
    exact h.lacksValue hd.nextValue
  · intro l t hl
    obtain ⟨-, rfl, -⟩ := (@Select.meets_label s fun _ => True).of_run hl
    exact h.lacksBlock hd.nextLabel
  · intro i c t hc
    exact hcode ((meets_instr_written s i).of_run hc).2
  · intro b cs t hcs c hc
    exact hcode (((meets_flow_written s b).of_run hcs).2 c hc)

end Numbers

/-- A construction that is never refused ends with a graph in single-definition form. -/
theorem construction_single_definition {steps : List BuildStep} {b : Builder}
    {answers : List BuildAnswer} (h : Builder.run? {} steps = some (b, answers)) :
    (∀ (n : Nat) (block : Block), b.finish.blocks[n]? = some block → block.label = ⟨n⟩)
      ∧ (∀ v : Value, v.id < b.finish.values.size →
        (listedValues b.finish.blocks).count v = 1 ∧ ∃ info block, b.finish.info? v = some info
          ∧ b.finish.block? info.definition.block = some block ∧ block.Lists v info)
      ∧ (∀ fault, b.finish.fault? = some fault →
        (∀ v name, fault ≠ .redefined v name) ∧ ∀ v name, fault ≠ .notInstruction v name)
      ∧ ∀ env symbols (s : Selection), s.Reached ⟨b.finish, env⟩ symbols
        → s.Apart ⟨b.finish, env⟩ := by
  have hg : b.finish.Built := ⟨steps, b, answers, h, rfl⟩
  refine ⟨fun n block hn => (hg.coherent n block hn).label, ?_, ?_, ?_⟩
  · intro v hv
    obtain ⟨block, hb, hl⟩ := hg.definite.recorded v _ (Array.getElem?_eq_getElem hv)
    exact ⟨by rw [hg.definite.once, if_pos hv], _, block, Array.getElem?_eq_getElem hv, hb, hl⟩
  · intro fault hf
    have hs := hg.sparing_fault? fault hf
    constructor
    · rintro v name rfl
      cases hs
    · rintro v name rfl
      cases hs
  · intro env symbols s hs
    have hctx : (Context.mk b.finish env).graph.Built := hg
    exact hctx.apart hs

def pointSteps : List BuildStep :=
  [.block "entry", .block "done", .parameter ⟨0⟩ (some "c") .bool,
    .instr ⟨0⟩ (some "p") ⟨.const .default (.record "Point"), []⟩,
    .parameter ⟨1⟩ (some "q") (.record "Point"),
    .flow ⟨0⟩ (.switch ⟨0⟩ [⟨[.int 1], ⟨⟨1⟩, [.value ⟨1⟩]⟩⟩] ⟨⟨1⟩, [.value ⟨1⟩]⟩),
    .flow ⟨1⟩ (.ret none)]

def pointBuilder : Builder :=
  { entry := some ⟨0⟩
    blocks := #[
      ⟨⟨0⟩, "entry", [⟨⟨0⟩, .bool⟩], [⟨1⟩],
        .switch ⟨0⟩ [⟨[.int 1], ⟨⟨1⟩, [.value ⟨1⟩]⟩⟩] ⟨⟨1⟩, [.value ⟨1⟩]⟩⟩,
      ⟨⟨1⟩, "done", [⟨⟨2⟩, .record "Point"⟩], [], .ret none⟩]
    values := #[
      ⟨some "c", .bool, .parameter ⟨0⟩ 0⟩,
      ⟨some "p", .record "Point", .instruction ⟨0⟩ ⟨.const .default (.record "Point"), []⟩⟩,
      ⟨some "q", .record "Point", .parameter ⟨1⟩ 0⟩] }

theorem pointSteps_single_definition : ∃ answers, ∃ s : Selection,
    Builder.run? {} pointSteps = some (pointBuilder, answers)
      ∧ (listedValues pointBuilder.finish.blocks).count ⟨2⟩ = 1
      ∧ s.Reached ⟨pointBuilder.finish, {}⟩ {} ∧ s.temporaries = [(⟨3⟩, .record "Point")]
      ∧ pointBuilder.finish.LacksValue ⟨3⟩ := by
  obtain ⟨answers, hr⟩ : ∃ answers, Builder.run? {} pointSteps = some (pointBuilder, answers) :=
    ⟨_, rfl⟩
  obtain ⟨-, hlisted, -, hapart⟩ := construction_single_definition hr
  have hs : Selection.Reached ⟨pointBuilder.finish, {}⟩ {} _ :=
    .instr .start ⟨.const .default (.record "Point"), []⟩
  exact ⟨answers, _, hr, (hlisted ⟨2⟩ (by decide)).1, hs, rfl,
    (hapart _ _ _ hs).temporaries _ (List.mem_singleton_self _)⟩

end StackCode
