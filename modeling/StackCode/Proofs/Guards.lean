import StackCode.Proofs.Acceptance

namespace StackCode

open Machine (Opcode Ref)

def Item.Proceeds (raises : Bool) (i : Item) : Prop :=
  i.isMark = false ∧ ∀ o, i.opcode? = some o → o.flow = .next ∨ raises = true ∧ o.flow = .throw

def Graph.HasLiteral (g : Graph) (v : Value) (code : List Machine.Instr) : Prop :=
  ∃ c type s t, g.instr? v = some ⟨.const c type, []⟩
    ∧ (Select.pushConstant c type).run.run s = (.ok (code.map .op), t)

section Items

variable {shape : Machine.Instr → Option (Nat × Nat)} {raises : Bool}

theorem Item.proceeds_of_register {i : Item} {v : Value} (h : i.register? = some v) :
    i.Proceeds raises := by
  cases i with
  | load | store | address => exact ⟨rfl, fun o ho => by cases ho⟩
  | op | jump | switch | label | tryStart | handlerStart | handlerEnd => cases h

theorem Item.proceeds_op {j : Machine.Instr} (h : j.opcode.flow = .next) :
    (Item.op j).Proceeds raises := by
  refine ⟨rfl, ?_⟩
  rintro o ⟨⟩
  exact .inl h

theorem Item.proceeds_of_exchange? {i : Item} {e : Nat × Nat} (h : i.exchange? shape = some e) :
    i.Proceeds raises := by
  cases i with
  | op j =>
    apply proceeds_op
    rw [exchange?] at h
    split at h
    · split at h
      · assumption
      · cases h
    · rename_i he
      exact flow_of_call (.inl he)
    · rename_i he
      exact flow_of_call (.inr he)
    · cases h
    · cases h
  | load v | store v | address v => exact proceeds_of_register rfl
  | jump | switch | label | tryStart | handlerStart | handlerEnd => cases h

theorem proceeds_of_height {code : List Item} {d e : Nat} (h : height shape code d = some e) :
    ∀ i ∈ code, i.Proceeds raises := by
  induction code generalizing d with
  | nil => simp
  | cons i code ih =>
    rw [height] at h
    split at h
    · rename_i hi
      split at h
      · rw [List.forall_mem_cons]
        exact ⟨Item.proceeds_of_exchange? hi, ih h⟩
      · cases h
    · cases h

theorem proceeds_keep (v : Option Value) : (Select.keep v).Proceeds raises := by
  cases v with
  | none => exact Item.proceeds_op rfl
  | some v => exact Item.proceeds_of_register rfl

theorem Machine.Opcode.flow_of_isLiteral {o : Opcode} (h : o.isLiteral = true) :
    o.flow = .next := by
  cases o <;> first | rfl | cases h

theorem exists_map_op {code : List Item} {P : Machine.Instr → Prop}
    (h : ∀ i ∈ code, ∃ j, i = .op j ∧ P j) :
    ∃ js : List Machine.Instr, code = js.map .op ∧ ∀ j ∈ js, P j := by
  induction code with
  | nil => exact ⟨[], rfl, by simp⟩
  | cons i code ih =>
    rw [List.forall_mem_cons] at h
    obtain ⟨⟨j, rfl, hj⟩, hrest⟩ := h
    obtain ⟨js, rfl, hjs⟩ := ih hrest
    exact ⟨j :: js, rfl, List.forall_mem_cons.mpr ⟨hj, hjs⟩⟩

end Items

section Fetching

variable {ctx : Context} {calls : Opcode → Method → Prop} {entry : Block} {symbols : Symbols}
  {plans : List Plan} {t : Selection} {policy : Policy} {p : Placement} {v : Value}

theorem Graph.instr?_lt {g : Graph} {i : Instr} (h : g.instr? v = some i) :
    v.id < g.values.size := by
  by_contra hlt
  rw [instr?, info?, Array.getElem?_eq_none (by omega)] at h
  cases h

theorem fetch_cases (h : Finished ctx calls entry symbols plans t)
    (hp : p = .ofPlans ctx.graph policy plans) (hv : v ∉ p.kept) :
    p.fetch v = [.load v] ∨ ∃ code, p.fetch v = code.map .op ∧ ctx.graph.HasLiteral v code
      ∧ ∀ j ∈ code, j.opcode.isLiteral = true ∧ j.Clean := by
  rw [Placement.fetch, if_neg (by simpa using hv)]
  split
  · rename_i code hcode
    right
    obtain ⟨-, q, hq, c, i, he, rfl, -, hi, hconst, hreg⟩ := repeated_cases hp hcode
    obtain ⟨-, s', t', ⟨-, j, hj, hval, -, hl, hpush⟩, -, -⟩ := h.instr hq he
    rw [hi] at hj
    obtain rfl := Option.some.inj hj
    obtain ⟨hpushes, k, type, hop, hrun⟩ := hpush hconst
    have hops : i.operands = [] := by
      have := hval.arity
      rwa [hop, Operation.arity, List.length_eq_zero_iff] at this
    obtain ⟨js, hjs, hlit⟩ := exists_map_op (hpushes.literal hreg)
    refine ⟨js, hjs, ⟨k, type, s', t', ?_, hjs ▸ hrun⟩, ?_⟩
    · rw [hi, ← hop, ← hops]
    · intro j hj
      refine ⟨hlit j hj, hl.wrote.clean j ?_⟩
      rw [hjs]
      exact List.mem_map_of_mem hj
  · exact .inl rfl

theorem proceeds_fetch (h : Finished ctx calls entry symbols plans t)
    (hp : p = .ofPlans ctx.graph policy plans) {raises : Bool} :
    ∀ i ∈ p.fetch v, i.Proceeds raises := by
  by_cases hv : v ∈ p.kept
  · rw [Placement.fetch, if_pos (by simpa using hv)]
    simp
  · rcases fetch_cases h hp hv with hload | ⟨code, hcode, -, hlit⟩
    · rw [hload, List.forall_mem_singleton]
      exact Item.proceeds_of_register rfl
    · rw [hcode, List.forall_mem_map]
      exact fun j hj => Item.proceeds_op (Machine.Opcode.flow_of_isLiteral (hlit j hj).1)

theorem proceeds_fetches (h : Finished ctx calls entry symbols plans t)
    (hp : p = .ofPlans ctx.graph policy plans) {raises : Bool} {vs : List Value} :
    ∀ i ∈ vs.flatMap p.fetch, i.Proceeds raises := by
  intro i hi
  obtain ⟨v, -, hv⟩ := List.mem_flatMap.mp hi
  exact proceeds_fetch h hp i hv

theorem repeated_scratch (hp : p = .ofPlans ctx.graph policy plans)
    (hv : ctx.graph.values.size ≤ v.id) : p.repeated.lookup v = none := by
  rw [Option.eq_none_iff_forall_ne_some]
  intro code hcode
  obtain ⟨-, q, -, c, i, -, -, -, hi, -⟩ := repeated_cases hp hcode
  have := Graph.instr?_lt hi
  omega

end Fetching

structure Exit where
  code : List Item
  outcome : Option Value
  arm : Arm
  branch : Branch

namespace Exit

def items (e : Exit) : List Item := e.code ++ [.jump .leave e.arm.label]

def pushes (p : Placement) (e : Exit) : List Item := p.chunk (.jump e.arm.target e.arm.args)

structure Fits (p : Placement) (t : Selection) (mark : BranchArg) (raises : Bool) (e : Exit) :
    Prop where
  code : ∀ i ∈ e.code, i.Proceeds raises
  target : e.arm.target = e.branch.target
  args : List.Forall₂ (fun x v => x = .value v ∨ x = mark ∧ e.outcome = some v) e.branch.args
    e.arm.args
  unkept : ∀ v ∈ e.arm.args, v ∉ p.kept
  kept : ∀ v, e.outcome = some v → ∃ code, e.code = code ++ [.store v]
  scratch : ∀ v, e.outcome = some v → p.repeated.lookup v = none ∧ ∃ type, (v, type) ∈ t.temporaries

end Exit

structure Guard where
  risky : Instr
  type : Ref
  success : Exit
  failure : Exit

namespace Guard

variable (p : Placement) (G : Guard)

def items : List Item :=
  .tryStart :: (G.success.items ++ .handlerStart G.type :: (G.failure.items ++ .handlerEnd
    :: .label G.success.arm.label :: (G.success.pushes p ++ .label G.failure.arm.label
      :: G.failure.pushes p)))

def close : Nat := G.success.items.length + G.failure.items.length + 2

structure Fits (ctx : Context) (t : Selection) (b : Block) : Prop where
  flow : b.flow = .protect G.risky G.success.branch G.failure.branch
  type : t.symbols.type? G.type = some ctx.env.caught
  success : G.success.Fits p t .result G.risky.operation.raises
  failure : G.failure.Fits p t .exception false

def At (items : List Item) (n : Nat) : Prop :=
  ∃ before after, items = before ++ G.items p ++ after ∧ n = before.length

end Guard

section Flows

variable {ctx : Context} {calls : Opcode → Method → Prop} {entry : Block} {symbols : Symbols}
  {plans : List Plan} {t : Selection} {policy : Policy}
  {shape : Machine.Instr → Option (Nat × Nat)} {p : Placement} {q : Plan}

theorem forall₂_filterMap {α β : Type} {f : α → Option β} {as : List α}
    (h : ∀ a ∈ as, (f a).isSome = true) :
    List.Forall₂ (fun a b => f a = some b) as (as.filterMap f) := by
  induction as with
  | nil => exact .nil
  | cons a as ih =>
    rw [List.forall_mem_cons] at h
    obtain ⟨b, hb⟩ := Option.isSome_iff_exists.mp h.1
    rw [List.filterMap_cons_some hb]
    exact .cons hb (ih h.2)

theorem Arm.Serves.args {a : Arm} {mark : BranchArg} {outcome : Option Value} {br : Branch}
    (h : a.Serves mark outcome br) {f : BranchArg → Option Value}
    (ha : a.args = br.args.filterMap f) (hv : ∀ v, f (.value v) = some v) (hm : f mark = outcome) :
    List.Forall₂ (fun x v => x = .value v ∨ x = mark ∧ outcome = some v) br.args a.args := by
  have hbound : ∀ x ∈ br.args, ∃ v, f x = some v
      ∧ (x = .value v ∨ x = mark ∧ outcome = some v) := by
    intro x hx
    rcases h.marks x hx with hx' | rfl
    · cases x with
      | value v => exact ⟨v, hv v, .inl rfl⟩
      | result | exception => cases hx'
    · obtain ⟨v, ho⟩ := Option.isSome_iff_exists.mp (h.outcome hx)
      exact ⟨v, hm.trans ho, .inr ⟨rfl, ho⟩⟩
  rw [ha]
  refine forall₂_imp_mem (forall₂_filterMap ?_) ?_
  · intro x hx
    obtain ⟨v, hv, -⟩ := hbound x hx
    rw [hv]
    rfl
  · intro x hx w hw
    obtain ⟨v, hv, hcases⟩ := hbound x hx
    rw [hv] at hw
    obtain rfl := Option.some.inj hw
    exact hcases

theorem unkept_guarded {kept stack : List Value} {cs : List Chunk}
    (h : Plan.followFlow kept stack true (⟨[.tryStart], []⟩ :: cs) = .ok []) :
    ∀ c ∈ cs, ∀ v ∈ c.deps, v ∉ kept := by
  obtain ⟨rest, ht, hrest⟩ := followFlow_cons.mp h
  obtain rfl := (takes_of_takeDeps ht).alone rfl
  exact unkept_of_followFlow hrest

theorem Lowered.proceeds {g : Graph} {s' t' : Selection} {c : Chunk} {leaves : Option Bool}
    {operands : List Value} {raises : Bool} (h : Lowered g calls leaves operands s' c t')
    (hs : Shaped calls shape t'.symbols) (hn : leaves = none → raises = true) :
    ∀ i ∈ c.code, i.Proceeds raises := by
  cases h.leaves with
  | entries hh => exact proceeds_of_height (hh shape hs)
  | never hcode hflow =>
    rw [hcode, List.forall_mem_cons, List.forall_mem_singleton]
    constructor
    · refine ⟨rfl, ?_⟩
      rintro o ⟨⟩
      exact .inr ⟨hn rfl, hflow⟩
    · exact Item.proceeds_op rfl

theorem scratch_of_fresh (hp : p = .ofPlans ctx.graph policy plans) {s' t' : Selection} {v : Value}
    (hv : s'.Fresh t' v) (hs : (Selection.start ctx.graph symbols).Grows s') (ht : t'.Grows t) :
    p.repeated.lookup v = none ∧ ∃ type, (v, type) ∈ t.temporaries := by
  constructor
  · exact repeated_scratch hp (Nat.le_trans hs.nextValue hv.after)
  · obtain ⟨type, hlisted⟩ := hv.listed
    exact ⟨type, ht.temporaries _ hlisted⟩

theorem guard_of_flow (h : Finished ctx calls entry symbols plans t)
    (hs : Shaped calls shape t.symbols) (hp : p = .ofPlans ctx.graph policy plans) (hq : q ∈ plans)
    (hprot : q.block.flow.risky?.isSome = true) :
    ∃ G : Guard, G.Fits p ctx t q.block ∧ q.flow.flatMap p.chunk = G.items p := by
  obtain ⟨s', t', hflow, hstart, htt⟩ := h.flow hq
  obtain ⟨stack, hfollow⟩ : ∃ stack, Plan.followFlow p.kept stack true q.flow = .ok [] := by
    obtain ⟨stack, -, hfollow⟩ := follow_keptValues hq
    rw [hp]
    exact ⟨stack, hfollow⟩
  generalize q.flow = cs at hflow hfollow
  cases hflow with
  | ret hf | stop hf | test _ hf => simp [hf, Flow.risky?] at hprot
  | jump _ hf => simp [hf] at hprot
  | @protect risky success failure result caught chunk type capture done failed s₁ s₂ s₃ s₄ _ hf
      hr hc hl _ hk hv hh ho he htype hn =>
    obtain ⟨hlast, -, -⟩ := capture_cases hh
    have h₄ : s₄.Grows t := hlast.trans htt
    have h₂ : s₂.Grows t := (hl.trans hk.grows).trans h₄
    have hunkept := unkept_guarded hfollow
    -- The exit behind the instruction, and the one through the handler.
    refine ⟨⟨risky, type, ⟨chunk.deps.flatMap p.fetch ++ (chunk.code
      ++ if risky.operation.resultType.isVoid then [] else [Select.keep result]), result, done,
      success⟩, ⟨capture ++ [Select.keep caught], caught, failed, failure⟩⟩, ⟨hf, ?_, ?_, ?_⟩, ?_⟩
    · exact htt.types htype
    · refine ⟨?_, he.1.target, he.1.args ho.1 (fun _ => rfl) rfl, ?_, ?_, ?_⟩
      · intro i hi
        simp only [List.mem_append] at hi
        rcases hi with hi | hi | hi
        · exact proceeds_fetches h hp i hi
        · exact hk.proceeds (hs.mono h₄) hn i hi
        · split at hi
          · cases hi
          · rw [List.mem_singleton.mp hi]
            exact proceeds_keep result
      · intro v hv'
        refine hunkept (.jump done.target done.args) ?_ v hv'
        simp [Arm.chunks]
      · rintro v rfl
        rw [hv rfl]
        exact ⟨chunk.deps.flatMap p.fetch ++ chunk.code, by simp [Select.keep]⟩
      · intro v hv'
        exact scratch_of_fresh hp (hr.2 v hv') hstart (hc.1.trans h₂)
    · refine ⟨?_, he.2.target, he.2.args ho.2.1 (fun _ => rfl) rfl, ?_, ?_, ?_⟩
      · intro i hi
        rcases List.mem_append.mp hi with hi | hi
        · rcases hh with ⟨-, rfl, -⟩ | ⟨-, hcapture⟩
          · cases hi
          · exact proceeds_of_height (hcapture.height shape (hs.mono htt)) i hi
        · rw [List.mem_singleton.mp hi]
          exact proceeds_keep caught
      · intro v hv'
        refine hunkept (.jump failed.target failed.args) ?_ v hv'
        simp [Arm.chunks]
      · rintro v rfl
        exact ⟨capture, rfl⟩
      · intro v hv'
        exact scratch_of_fresh hp (hc.2 v hv') (hstart.trans hr.1) h₂
    · simp [guardedChunks, Arm.chunks, Placement.chunk, Guard.items, Exit.items, Exit.pushes,
        Chunk.label]

end Flows

section Ends

variable {xs ys : List Item}

theorem handlerEnds_append (xs ys : List Item) :
    handlerEnds (xs ++ ys) (xs ++ ys).length
      = handlerEnds xs xs.length ++ (handlerEnds ys ys.length).map (xs.length + ·) := by
  rw [handlerEnds, List.length_append, List.range_add, List.filter_append, List.filter_map]
  congr 1
  · apply List.filter_congr
    intro k hk
    rw [List.getElem?_append_left (List.mem_range.mp hk)]
  · congr 1
    apply List.filter_congr
    intro k hk
    rw [Function.comp_apply, List.getElem?_append_right (by omega), Nat.add_sub_cancel_left]

theorem handlerEnds_eq_nil (h : .handlerEnd ∉ xs) : handlerEnds xs xs.length = [] := by
  rw [handlerEnds, List.filter_eq_nil_iff]
  intro k _ hk
  exact h (List.mem_of_getElem? (of_decide_eq_true hk))

theorem handlerEnds_single (hx : .handlerEnd ∉ xs) (hy : .handlerEnd ∉ ys) :
    handlerEnds (xs ++ .handlerEnd :: ys) (xs ++ .handlerEnd :: ys).length = [xs.length] := by
  have hone : handlerEnds [.handlerEnd] 1 = [0] := rfl
  have hcons := handlerEnds_append [.handlerEnd] ys
  rw [List.singleton_append, handlerEnds_eq_nil hy] at hcons
  rw [handlerEnds_append, handlerEnds_eq_nil hx, hcons, List.length_singleton, hone]
  rfl

theorem handlerEnd_not_mem (h : ∀ i ∈ xs, i.isMark = false) : .handlerEnd ∉ xs := by
  intro hm
  cases h _ hm

end Ends

section Blocks

variable {ctx : Context} {calls : Opcode → Method → Prop} {entry : Block} {symbols : Symbols}
  {plans : List Plan} {t : Selection} {policy : Policy}
  {shape : Machine.Instr → Option (Nat × Nat)} {p : Placement} {q : Plan}

theorem isMark_chunk (h : Finished ctx calls entry symbols plans t)
    (hp : p = .ofPlans ctx.graph policy plans) {c : Chunk} {i : Item} (hi : i ∈ p.chunk c)
    (hm : i.isMark = true) : i ∈ c.code := by
  rcases List.mem_append.mp hi with hi | hi
  · have hcode : i.Proceeds false := proceeds_fetches h hp i hi
    rw [hcode.1] at hm
    cases hm
  · exact hi

theorem Exit.Fits.isMark {mark : BranchArg} {raises : Bool} {e : Exit}
    (h : e.Fits p t mark raises) :
    ∀ i ∈ e.items, i.isMark = false := by
  intro i hi
  rcases List.mem_append.mp hi with hi | hi
  · exact (h.code i hi).1
  · rw [List.mem_singleton.mp hi]
    rfl

theorem isMark_pushes (h : Finished ctx calls entry symbols plans t)
    (hp : p = .ofPlans ctx.graph policy plans) {e : Exit} : ∀ i ∈ e.pushes p, i.isMark = false := by
  intro i hi
  by_contra hm
  rw [List.mem_singleton.mp (isMark_chunk h hp hi (by simpa using hm))] at hm
  exact hm rfl

theorem handlerEnds_guard (h : Finished ctx calls entry symbols plans t)
    (hp : p = .ofPlans ctx.graph policy plans) {G : Guard} {b : Block} (hG : G.Fits p ctx t b) :
    handlerEnds (G.items p) (G.items p).length = [G.close] := by
  have hsplit : G.items p = (.tryStart :: (G.success.items ++ .handlerStart G.type
      :: G.failure.items)) ++ .handlerEnd :: (.label G.success.arm.label :: (G.success.pushes p
        ++ .label G.failure.arm.label :: G.failure.pushes p)) := by simp [Guard.items]
  rw [hsplit, handlerEnds_single]
  · simp [Guard.close]
    omega
  · have := handlerEnd_not_mem hG.success.isMark
    have := handlerEnd_not_mem hG.failure.isMark
    simp_all
  · have := handlerEnd_not_mem (isMark_pushes (e := G.success) h hp)
    have := handlerEnd_not_mem (isMark_pushes (e := G.failure) h hp)
    simp_all

theorem isMark_front (hg : ctx.graph.Valid) (h : Finished ctx calls entry symbols plans t)
    (hs : Shaped calls shape t.symbols) (hp : p = .ofPlans ctx.graph policy plans)
    (hq : q ∈ plans) :
    .handlerEnd ∉ .label q.block.label :: p.arrivals ctx.graph q.block
      ++ q.instrs.flatMap (p.instr ctx.graph) := by
  have hcode : Unmarked (t.Knows ctx.graph) (fun _ => True)
      (p.arrivals ctx.graph q.block ++ q.instrs.flatMap (p.instr ctx.graph)) :=
    (unmarked_arrivals hg (h.mem_blocks hq)).append
      (unmarked_flatMap fun e he => unmarked_instr hg h hs hp hq he)
  rw [List.cons_append, List.mem_cons, not_or]
  exact ⟨by simp, handlerEnd_not_mem fun i hi => (hcode i hi).1⟩

theorem Flowed.handlerEnd {b : Block} {s' t' : Selection} {cs : List Chunk}
    (h : Flowed ctx calls b s' cs t') (hb : b.flow.risky? = none) :
    ∀ c ∈ cs, .handlerEnd ∉ c.code := by
  have hjump : ∀ target args, .handlerEnd ∉ (Chunk.jump target args).code := by simp [Chunk.jump]
  cases h with
  | ret | stop => simp
  | jump => simp [Chunk.jump]
  | test arms hf _ _ ht hd _ =>
    rw [List.forall_mem_cons]
    constructor
    · exact handlerEnd_not_mem fun i hi => (straight_of_tests (ht fun _ => none) i hi).1
    · intro c hc
      rcases List.mem_append.mp hc with hc | hc
      · rcases hd with ⟨rfl, -⟩ | ⟨target, args, rfl, -⟩
        · cases hc
        · rw [List.mem_singleton.mp hc]
          exact hjump target args
      · obtain ⟨a, -, ha⟩ := List.mem_flatMap.mp hc
        rcases List.mem_cons.mp ha with rfl | ha
        · simp [Chunk.label]
        · rw [List.mem_singleton.mp ha]
          exact hjump a.target a.args
  | protect hf => simp [hf, Flow.risky?] at hb

structure Guarding (ctx : Context) (p : Placement) (t : Selection) (bs : List Block)
    (items : List Item) (Gs : List (Guard × Nat)) : Prop where
  fits : List.Forall₂ (fun b e => e.1.Fits p ctx t b) (bs.filter fun b => b.flow.risky?.isSome) Gs
  starts : ∀ e ∈ Gs, e.1.At p items e.2
  ends : handlerEnds items items.length = Gs.map fun e => e.2 + e.1.close

theorem Guarding.append {bs cs : List Block} {xs ys : List Item} {Gs Hs : List (Guard × Nat)}
    (hx : Guarding ctx p t bs xs Gs) (hy : Guarding ctx p t cs ys Hs) :
    Guarding ctx p t (bs ++ cs) (xs ++ ys) (Gs ++ Hs.map fun e => (e.1, xs.length + e.2)) := by
  refine ⟨?_, ?_, ?_⟩
  · rw [List.filter_append]
    apply List.rel_append hx.fits
    rw [List.forall₂_map_right_iff]
    exact hy.fits
  · intro e he
    rcases List.mem_append.mp he with he | he
    · obtain ⟨before, after, rfl, hn⟩ := hx.starts e he
      exact ⟨before, after ++ ys, by simp, hn⟩
    · obtain ⟨f, hf, rfl⟩ := List.mem_map.mp he
      obtain ⟨before, after, rfl, hn⟩ := hy.starts f hf
      exact ⟨xs ++ before, after, by simp, by simp [hn]⟩
  · rw [handlerEnds_append, hx.ends, hy.ends, List.map_append, List.map_map, List.map_map]
    congr 1
    apply List.map_congr_left
    intro e _
    simp only [Function.comp_apply]
    omega

theorem guarding_nil {items : List Item} (h : .handlerEnd ∉ items) :
    Guarding ctx p t [] items [] :=
  ⟨.nil, by simp, by rw [handlerEnds_eq_nil h]; rfl⟩

theorem guarding_block (hg : ctx.graph.Valid) (h : Finished ctx calls entry symbols plans t)
    (hs : Shaped calls shape t.symbols) (hp : p = .ofPlans ctx.graph policy plans)
    (hq : q ∈ plans) :
    ∃ Gs, Guarding ctx p t [q.block] (p.block ctx.graph q) Gs := by
  have hfront := isMark_front hg h hs hp hq
  by_cases hprot : q.block.flow.risky?.isSome = true
  · obtain ⟨G, hG, hitems⟩ := guard_of_flow h hs hp hq hprot
    have hflow : Guarding ctx p t [q.block] (G.items p) [(G, 0)] := by
      refine ⟨?_, ?_, ?_⟩
      · rw [List.filter_singleton, hprot]
        exact .cons hG .nil
      · rw [List.forall_mem_singleton]
        exact ⟨[], [], by simp, rfl⟩
      · rw [handlerEnds_guard h hp hG]
        simp
    have := (guarding_nil hfront).append hflow
    exact ⟨_, by rw [Placement.block, hitems]; exact this⟩
  · obtain ⟨s', t', hflow, -, -⟩ := h.flow hq
    have hnone : q.block.flow.risky? = none := by simpa using hprot
    refine ⟨[], ?_, by simp, ?_⟩
    · simp [hnone]
    · apply handlerEnds_eq_nil
      intro hm
      rw [Placement.block] at hm
      rcases List.mem_append.mp hm with hm | hm
      · exact hfront hm
      · obtain ⟨c, hc, hi⟩ := List.mem_flatMap.mp hm
        exact hflow.handlerEnd hnone c hc (isMark_chunk h hp hi rfl)

theorem guarding_plans (hg : ctx.graph.Valid) (h : Finished ctx calls entry symbols plans t)
    (hs : Shaped calls shape t.symbols) (hp : p = .ofPlans ctx.graph policy plans) {qs : List Plan}
    (hqs : ∀ q ∈ qs, q ∈ plans) :
    ∃ Gs, Guarding ctx p t (qs.map Plan.block) (qs.flatMap (p.block ctx.graph)) Gs := by
  induction qs with
  | nil => exact ⟨[], guarding_nil (by simp)⟩
  | cons q qs ih =>
    rw [List.forall_mem_cons] at hqs
    obtain ⟨Gs, hGs⟩ := guarding_block hg h hs hp hqs.1
    obtain ⟨Hs, hHs⟩ := ih hqs.2
    exact ⟨_, hGs.append hHs⟩

theorem guarding_stream (hg : ctx.graph.Valid) (h : Finished ctx calls entry symbols plans t)
    (hs : Shaped calls shape t.symbols) (hp : p = .ofPlans ctx.graph policy plans) :
    ∃ Gs, Guarding ctx p t (ctx.graph.order entry)
      (ctx.graph.preheader entry ++ plans.flatMap (p.block ctx.graph)) Gs := by
  obtain ⟨Gs, hGs⟩ := guarding_plans hg h hs hp (fun _ hq => hq)
  rw [h.blocks] at hGs
  have hpre : .handlerEnd ∉ ctx.graph.preheader entry := by
    rw [Graph.preheader]
    split <;> simp
  exact ⟨_, (guarding_nil hpre).append hGs⟩

end Blocks

end StackCode
