import Mathlib.Data.List.Nodup
import StackCode.Graph.Builder
import StackCode.Graph.Contract

namespace StackCode

def Graph.Built (g : Graph) : Prop :=
  ∃ steps b answers, Builder.run? {} steps = some (b, answers) ∧ b.finish = g

def Graph.ofSteps (steps : List BuildStep) : Graph :=
  match Builder.run? {} steps with
  | some (b, _) => b.finish
  | none => ⟨⟨0⟩, #[], #[]⟩

theorem built_ofSteps {steps : List BuildStep} (h : (Builder.run? {} steps).isSome = true) :
    (Graph.ofSteps steps).Built := by
  obtain ⟨⟨b, answers⟩, hr⟩ := Option.isSome_iff_exists.mp h
  exact ⟨steps, b, answers, hr, by rw [Graph.ofSteps, hr]⟩

structure Block.Coherent (values : Array ValueInfo) (n : Nat) (b : Block) : Prop where
  label : b.label = ⟨n⟩
  parameters : ∀ q ∈ b.parameters, ∃ name k,
    values[q.value.id]? = some ⟨name, q.type, .parameter ⟨n⟩ k⟩
  instructions : ∀ v ∈ b.instructions, ∃ name i,
    values[v.id]? = some ⟨name, i.operation.resultType, .instruction ⟨n⟩ i⟩

def Coherent (blocks : Array Block) (values : Array ValueInfo) : Prop :=
  ∀ (n : Nat) (b : Block), blocks[n]? = some b → b.Coherent values n

section Building

variable {blocks : Array Block} {values : Array ValueInfo} {b : Block} {n : Nat}

theorem getElem?_push_of_some {α : Type} {xs : Array α} {a new : α} {k : Nat}
    (h : xs[k]? = some a) : (xs.push new)[k]? = some a := by
  obtain ⟨hk, rfl⟩ := Array.getElem?_eq_some_iff.mp h
  rw [Array.getElem?_push_lt hk]

theorem Block.Coherent.push (h : b.Coherent values n) (info : ValueInfo) :
    b.Coherent (values.push info) n := by
  refine ⟨h.label, ?_, ?_⟩
  · intro q hq
    obtain ⟨name, k, hk⟩ := h.parameters q hq
    exact ⟨name, k, getElem?_push_of_some hk⟩
  · intro v hv
    obtain ⟨name, i, hi⟩ := h.instructions v hv
    exact ⟨name, i, getElem?_push_of_some hi⟩

theorem Coherent.modify {n : Nat} {f : Block → Block} (h : Coherent blocks values)
    (hf : ∀ b : Block, b.Coherent values n → (f b).Coherent values n) :
    Coherent (blocks.modify n f) values := by
  intro m c hc
  rw [Array.getElem?_modify] at hc
  split at hc
  · obtain ⟨b, hb, rfl⟩ := Option.map_eq_some_iff.mp hc
    subst n
    exact hf b (h m b hb)
  · exact h m c hc

theorem Coherent.addBlock (h : Coherent blocks values) (name : String) :
    Coherent (blocks.push ⟨⟨blocks.size⟩, name, [], [], .unreachable⟩) values := by
  intro m c hc
  rw [Array.getElem?_push] at hc
  split at hc
  · obtain rfl := Option.some.inj hc
    subst m
    exact ⟨rfl, by simp, by simp⟩
  · exact h m c hc

theorem Coherent.addParameter (h : Coherent blocks values) (name : Option String) (t : Ty)
    (k : Nat) :
    Coherent (blocks.modify n fun b => { b with
      parameters := b.parameters ++ [(⟨⟨values.size⟩, t⟩ : Parameter)] })
      (values.push ⟨name, t, .parameter ⟨n⟩ k⟩) := by
  refine Coherent.modify (fun m b hb => (h m b hb).push _) ?_
  intro b hb
  refine ⟨hb.label, ?_, hb.instructions⟩
  intro q hq
  rcases List.mem_append.mp hq with hq | hq
  · exact hb.parameters q hq
  · obtain rfl := List.mem_singleton.mp hq
    exact ⟨name, k, Array.getElem?_push_size⟩

theorem Coherent.addInstr (h : Coherent blocks values) (name : Option String) (i : Instr) :
    Coherent (blocks.modify n fun b => { b with
      instructions := b.instructions ++ [(⟨values.size⟩ : Value)] })
      (values.push ⟨name, i.operation.resultType, .instruction ⟨n⟩ i⟩) := by
  refine Coherent.modify (fun m b hb => (h m b hb).push _) ?_
  intro b hb
  refine ⟨hb.label, hb.parameters, ?_⟩
  intro v hv
  rcases List.mem_append.mp hv with hv | hv
  · exact hb.instructions v hv
  · obtain rfl := List.mem_singleton.mp hv
    exact ⟨name, i, Array.getElem?_push_size⟩

theorem Builder.step?_cases {b c : Builder} {s : BuildStep} {answer : BuildAnswer}
    (hs : b.step? s = some (c, answer)) :
    (∃ name, c = (b.addBlock name).1) ∨ (∃ l, c = b.setEntry l)
      ∨ ∃ l block, b.blocks[l.id]? = some block ∧
        ((∃ name type, c = (b.addParameter l name type).1)
          ∨ (∃ name i, c = (b.addInstr l name i).1) ∨ ∃ f, c = b.setFlow l f) := by
  have hblock : ∀ l, b.hasBlock l = true → ∃ block, b.blocks[l.id]? = some block := by
    intro l hl
    rw [hasBlock, decide_eq_true_eq] at hl
    exact ⟨_, Array.getElem?_eq_getElem hl⟩
  cases s with
  | block name =>
    obtain ⟨rfl, -⟩ := Prod.mk.inj (Option.some.inj hs)
    exact .inl ⟨name, rfl⟩
  | entry l =>
    obtain ⟨rfl, -⟩ := Prod.mk.inj (Option.some.inj hs)
    exact .inr (.inl ⟨l, rfl⟩)
  | parameter l name type =>
    simp only [step?] at hs
    split at hs
    · rename_i hl
      obtain ⟨rfl, -⟩ := Prod.mk.inj (Option.some.inj hs)
      obtain ⟨block, hb⟩ := hblock l hl
      exact .inr (.inr ⟨l, block, hb, .inl ⟨name, type, rfl⟩⟩)
    · cases hs
  | instr l name i =>
    simp only [step?] at hs
    split at hs
    · rename_i hl
      obtain ⟨rfl, -⟩ := Prod.mk.inj (Option.some.inj hs)
      obtain ⟨block, hb⟩ := hblock l hl
      exact .inr (.inr ⟨l, block, hb, .inr (.inl ⟨name, i, rfl⟩)⟩)
    · cases hs
  | flow l f =>
    simp only [step?] at hs
    split at hs
    · rename_i hl
      obtain ⟨rfl, -⟩ := Prod.mk.inj (Option.some.inj hs)
      obtain ⟨block, hb⟩ := hblock l hl
      exact .inr (.inr ⟨l, block, hb, .inr (.inr ⟨f, rfl⟩)⟩)
    · cases hs

theorem Builder.run?_invariant {P : Builder → Prop}
    (hstep : ∀ b c s answer, P b → b.step? s = some (c, answer) → P c) {b c : Builder}
    {steps : List BuildStep} {answers : List BuildAnswer} (h : P b)
    (hr : b.run? steps = some (c, answers)) : P c := by
  induction steps generalizing b answers with
  | nil =>
    obtain ⟨rfl, -⟩ := Prod.mk.inj (Option.some.inj hr)
    exact h
  | cons s steps ih =>
    simp only [run?] at hr
    split at hr
    · cases hr
    · rename_i b' answer hs
      split at hr
      · cases hr
      · rename_i c' answers' hc
        obtain ⟨rfl, -⟩ := Prod.mk.inj (Option.some.inj hr)
        exact ih (hstep _ _ _ _ h hs) hc

theorem Builder.step?_coherent {b c : Builder} {s : BuildStep} {answer : BuildAnswer}
    (h : Coherent b.blocks b.values) (hs : b.step? s = some (c, answer)) :
    Coherent c.blocks c.values := by
  rcases step?_cases hs with ⟨name, rfl⟩ | ⟨l, rfl⟩ | ⟨l, block, hb, hc⟩
  · exact h.addBlock name
  · exact h
  · rcases hc with ⟨name, type, rfl⟩ | ⟨name, i, rfl⟩ | ⟨f, rfl⟩
    · exact h.addParameter name type _
    · exact h.addInstr name i
    · exact Coherent.modify h fun b hb => ⟨hb.label, hb.parameters, hb.instructions⟩

theorem Builder.run?_coherent {b c : Builder} {steps : List BuildStep}
    {answers : List BuildAnswer} (h : Coherent b.blocks b.values)
    (hr : b.run? steps = some (c, answers)) : Coherent c.blocks c.values :=
  run?_invariant (P := fun b => Coherent b.blocks b.values) (fun _ _ _ _ => step?_coherent) h hr

theorem Graph.Built.coherent {g : Graph} (h : g.Built) : Coherent g.blocks g.values := by
  obtain ⟨steps, b, answers, hr, rfl⟩ := h
  exact Builder.run?_coherent (fun n b hb => by simp at hb) hr

end Building

section Numbers

variable {g : Graph}

theorem Coherent.block?_label (h : Coherent g.blocks g.values) {b : Block}
    (hb : b ∈ g.blocks.toList) : g.block? b.label = some b := by
  obtain ⟨n, hn, rfl⟩ := List.mem_iff_getElem.mp hb
  have hget : g.blocks[n]? = some (g.blocks.toList[n]) := by
    rw [← Array.getElem?_toList, List.getElem?_eq_getElem hn]
  rw [Graph.block?, (h n _ hget).label]
  exact hget

theorem Coherent.nodup_labels (h : Coherent g.blocks g.values) :
    (g.blocks.toList.map Block.label).Nodup := by
  have hids : (g.blocks.toList.map Block.label).map Label.id = List.range g.blocks.size := by
    refine List.ext_getElem (by simp) ?_
    intro n hn _
    simp only [List.length_map] at hn
    have hget : g.blocks[n]? = some g.blocks.toList[n] := by
      rw [← Array.getElem?_toList, List.getElem?_eq_getElem hn]
    rw [List.getElem_map, List.getElem_map, (h n _ hget).label, List.getElem_range]
  exact List.Nodup.of_map Label.id (hids ▸ List.nodup_range)

end Numbers

def Graph.defined (g : Graph) : List Value :=
  g.definitions.map Prod.fst

structure Instr.Valid (g : Graph) (i : Instr) : Prop where
  arity : i.operands.length = i.operation.arity
  defined : ∀ v ∈ i.operands, v ∈ g.defined

structure Branch.Valid (g : Graph) (b : Branch) : Prop where
  target : ∃ t, g.block? b.target = some t ∧ b.args.length = t.parameters.length
  defined : ∀ v ∈ b.values, v ∈ g.defined

structure Flow.Valid (g : Graph) (f : Flow) : Prop where
  reads : ∀ v ∈ f.ownReads, v ∈ g.defined
  branches : ∀ b ∈ f.branches, b.Valid g
  risky : ∀ i s t, f = .protect i s t → i.Valid g

structure Graph.Valid (g : Graph) : Prop where
  coherent : Coherent g.blocks g.values
  entry : ∃ b, g.block? g.entry = some b
  distinct : g.defined.Nodup
  instr : ∀ b ∈ g.blocks.toList, ∀ v ∈ b.instructions, ∃ i, g.instr? v = some i ∧ i.Valid g
  flow : ∀ b ∈ g.blocks.toList, b.flow.Valid g

section Contract

variable {g : Graph} {b : Block}

theorem orElse_eq_none {α : Type} {x y : Option α} : (x <|> y) = none ↔ x = none ∧ y = none := by
  cases x <;> simp

theorem nodup_of_redefinition? {seen : List Value} {ds : List (Value × String)}
    (h : redefinition? seen ds = none) :
    (ds.map Prod.fst).Nodup ∧ ∀ v ∈ ds.map Prod.fst, v ∉ seen := by
  induction ds generalizing seen with
  | nil => simp
  | cons d ds ih =>
    obtain ⟨v, name⟩ := d
    simp only [redefinition?] at h
    split at h
    · cases h
    · rename_i hv
      obtain ⟨hd, hs⟩ := ih h
      rw [List.contains_iff_mem] at hv
      refine ⟨List.nodup_cons.mpr ⟨fun hm => hs v hm List.mem_cons_self, hd⟩, ?_⟩
      intro w hw
      rcases List.mem_cons.mp hw with rfl | hw
      · exact hv
      · exact fun hm => hs w hw (List.mem_cons_of_mem _ hm)

theorem findSome?_useFault? {vs : List Value}
    (h : vs.findSome? (g.useFault? g.defined b) = none) : ∀ v ∈ vs, v ∈ g.defined := by
  intro v hv
  have := List.findSome?_eq_none_iff.mp h v hv
  rw [Graph.useFault?] at this
  split at this
  · rename_i hd
    exact List.contains_iff_mem.mp hd
  · cases this

theorem valid_of_instrFault? {i : Instr} (h : g.instrFault? g.defined b i = none) : i.Valid g := by
  rw [Graph.instrFault?] at h
  split at h
  · cases h
  · rename_i ha
    exact ⟨Decidable.not_not.mp ha, findSome?_useFault? h⟩

theorem valid_of_branchFault? {scope : MarkScope} {br : Branch}
    (h : g.branchFault? g.defined b scope br = none) : br.Valid g := by
  rw [Graph.branchFault?] at h
  split at h
  · cases h
  · rename_i t ht
    split at h
    · cases h
    · rename_i hl
      refine ⟨⟨t, ht, Decidable.not_not.mp hl⟩, ?_⟩
      intro v hv
      obtain ⟨a, ha, hav⟩ := List.mem_filterMap.mp hv
      have hf := List.findSome?_eq_none_iff.mp h a ha
      cases a with
      | value w =>
        obtain rfl := Option.some.inj hav
        have hw : [w].findSome? (g.useFault? g.defined b) = none := by
          rw [List.findSome?_singleton]
          exact hf
        exact findSome?_useFault? hw w List.mem_cons_self
      | result => cases hav
      | exception => cases hav

theorem valid_of_flowFault? (h : g.flowFault? g.defined b = none) : b.flow.Valid g := by
  rw [Graph.flowFault?] at h
  split at h
  case h_1 value hf =>
    rw [hf]
    exact ⟨findSome?_useFault? h, by simp [Flow.branches], by simp⟩
  case h_2 hf =>
    rw [hf]
    exact ⟨by simp [Flow.ownReads], by simp [Flow.branches], by simp⟩
  case h_3 br hf =>
    rw [hf]
    exact ⟨by simp [Flow.ownReads], by simpa [Flow.branches] using valid_of_branchFault? h,
      by simp⟩
  case h_4 value cases fallback hf =>
    rw [hf]
    obtain ⟨hv, hb⟩ := orElse_eq_none.mp h
    refine ⟨findSome?_useFault? (by simpa [Flow.ownReads] using hv), ?_, by simp⟩
    exact fun br hbr => valid_of_branchFault? (List.findSome?_eq_none_iff.mp hb br hbr)
  case h_5 risky success failure hf =>
    rw [hf]
    obtain ⟨hi, hb⟩ := orElse_eq_none.mp h
    obtain ⟨hs, ht⟩ := orElse_eq_none.mp hb
    have hv := valid_of_instrFault? hi
    refine ⟨hv.defined, ?_, ?_⟩
    · intro br hbr
      simp only [Flow.branches, List.mem_cons, List.not_mem_nil, or_false] at hbr
      rcases hbr with rfl | rfl
      · exact valid_of_branchFault? hs
      · exact valid_of_branchFault? ht
    · rintro i s t ⟨⟩
      exact hv

theorem Graph.Built.valid (hb : g.Built) (h : g.fault? = none) : g.Valid := by
  rw [fault?] at h
  split at h
  · cases h
  · rename_i entry he
    obtain ⟨hr, hf⟩ := orElse_eq_none.mp h
    refine ⟨hb.coherent, ⟨entry, he⟩, (nodup_of_redefinition? hr).1, ?_, ?_⟩
    · intro b hb v hv
      obtain ⟨hi, -⟩ := orElse_eq_none.mp (List.findSome?_eq_none_iff.mp hf b hb)
      have hl := List.findSome?_eq_none_iff.mp hi v hv
      rw [listedFault?] at hl
      split at hl
      · cases hl
      · rename_i i hi
        exact ⟨i, hi, valid_of_instrFault? hl⟩
    · intro b hb
      obtain ⟨-, hl⟩ := orElse_eq_none.mp (List.findSome?_eq_none_iff.mp hf b hb)
      exact valid_of_flowFault? hl

end Contract

end StackCode
