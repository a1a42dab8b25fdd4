import StackCode.Proofs.Guards
import StackCode.Proofs.Improvement
import StackCode.Proofs.Operands

namespace StackCode

open Machine (Body Handler Slot Opcode)

section Addresses

variable {items ys : List Item} {i : Item} {j k n : Nat}

theorem getElem?_of_isPrefix (xs : List Item) (h : xs ++ [i] <+: items) (hk : k = xs.length) :
    items[k]? = some i := by
  obtain ⟨zs, rfl⟩ := h
  subst hk
  simp

theorem slice_of_isPrefix (xs : List Item) (h : xs ++ ys <+: items) (hj : j = xs.length)
    (hk : k = xs.length + ys.length) : slice items j k = ys := by
  obtain ⟨zs, rfl⟩ := h
  subst hj hk
  simp [slice]

theorem address_mono (items : List Item) (h : j ≤ k) : address items j ≤ address items k := by
  apply List.Sublist.countP_le
  rw [← Nat.min_eq_left h, ← List.take_take]
  exact List.take_sublist _ _

theorem address_lt (hn : items[k + 1]? = some i) (hi : i.isMark = false) {mark : Item}
    (hj : items[j]? = some mark) (hm : mark.isMark = true) (h : k < j) :
    address items k < address items j := by
  have hne : j ≠ k + 1 := by
    rintro rfl
    rw [hn] at hj
    obtain rfl := Option.some.inj hj
    rw [hi] at hm
    cases hm
  have hstep := address_succ hn
  rw [hi] at hstep
  have h₁ := address_mono items (Nat.le_succ k)
  have h₂ := address_mono items (by omega : k + 1 + 1 ≤ j)
  simp at hstep h₁
  omega

end Addresses

namespace Guard

def handler (items : List Item) (n : Nat) (G : Guard) : Handler :=
  let border := address items (n + G.success.items.length + 1)
  ⟨address items n, border, border, address items (n + G.close), G.type⟩

section Positions

variable {p : Placement} {ctx : Context} {t : Selection} {b : Block} {G : Guard} {items : List Item}
  {n k : Nat} {i : Item}

theorem At.tryStart (h : G.At p items n) : items[n]? = some .tryStart := by
  obtain ⟨before, after, rfl, rfl⟩ := h
  simp [Guard.items]

theorem At.handlerStart (h : G.At p items n) :
    items[n + G.success.items.length + 1]? = some (.handlerStart G.type) := by
  obtain ⟨before, after, rfl, rfl⟩ := h
  apply getElem?_of_isPrefix (before ++ .tryStart :: G.success.items)
  · simp [Guard.items]
  · simp
    omega

theorem At.handlerEnd (h : G.At p items n) : items[n + G.close]? = some .handlerEnd := by
  obtain ⟨before, after, rfl, rfl⟩ := h
  apply getElem?_of_isPrefix (before ++ .tryStart :: (G.success.items
    ++ .handlerStart G.type :: G.failure.items))
  · simp [Guard.items]
  · simp [close]
    omega

theorem At.range (h : G.At p items n) :
    slice items (n + 1) (n + G.success.items.length + 1) = G.success.items := by
  obtain ⟨before, after, rfl, rfl⟩ := h
  apply slice_of_isPrefix (before ++ [.tryStart])
  · simp [Guard.items]
  · simp
  · simp
    omega

theorem At.handling (h : G.At p items n) :
    slice items (n + G.success.items.length + 2) (n + G.close) = G.failure.items := by
  obtain ⟨before, after, rfl, rfl⟩ := h
  apply slice_of_isPrefix (before ++ .tryStart :: (G.success.items ++ [.handlerStart G.type]))
  · simp [Guard.items]
  · simp
    omega
  · simp [close]
    omega

theorem At.success_label (h : G.At p items n) :
    items[n + G.close + 1]? = some (.label G.success.arm.label) := by
  obtain ⟨before, after, rfl, rfl⟩ := h
  apply getElem?_of_isPrefix (before ++ .tryStart :: (G.success.items
    ++ .handlerStart G.type :: (G.failure.items ++ [.handlerEnd])))
  · simp [Guard.items]
  · simp [close]
    omega

theorem At.success_pushes (h : G.At p items n) :
    slice items (n + G.close + 2) (n + G.close + 2 + (G.success.pushes p).length)
      = G.success.pushes p := by
  obtain ⟨before, after, rfl, rfl⟩ := h
  apply slice_of_isPrefix (before ++ .tryStart :: (G.success.items ++ .handlerStart G.type
    :: (G.failure.items ++ [.handlerEnd, .label G.success.arm.label])))
  · simp [Guard.items]
  · simp [close]
    omega
  · simp [close]
    omega

theorem At.failure_label (h : G.At p items n) :
    items[n + G.close + 2 + (G.success.pushes p).length]? = some (.label G.failure.arm.label) := by
  obtain ⟨before, after, rfl, rfl⟩ := h
  apply getElem?_of_isPrefix (before ++ .tryStart :: (G.success.items ++ .handlerStart G.type
    :: (G.failure.items ++ .handlerEnd :: .label G.success.arm.label :: G.success.pushes p)))
  · simp [Guard.items]
  · simp [close]
    omega

theorem At.failure_pushes (h : G.At p items n) :
    slice items (n + G.close + 2 + (G.success.pushes p).length + 1)
      (n + G.close + 2 + (G.success.pushes p).length + 1 + (G.failure.pushes p).length)
      = G.failure.pushes p := by
  obtain ⟨before, after, rfl, rfl⟩ := h
  apply slice_of_isPrefix (before ++ .tryStart :: (G.success.items ++ .handlerStart G.type
    :: (G.failure.items ++ .handlerEnd :: .label G.success.arm.label
      :: (G.success.pushes p ++ [.label G.failure.arm.label]))))
  · simp [Guard.items]
  · simp [close]
    omega
  · simp [close]
    omega

theorem At.inside (h : G.At p items n) (hG : G.Fits p ctx t b) (hi : items[k]? = some i)
    (hn : n ≤ k) (hk : k ≤ n + G.close) : i = .tryStart ∧ k = n
      ∨ i = .handlerStart G.type ∨ i = .handlerEnd ∧ k = n + G.close ∨ i.isMark = false := by
  have hmem : ∀ {j m : Nat} {ys : List Item}, slice items j m = ys → j ≤ k → k < m → i ∈ ys := by
    rintro j m ys rfl hj hm
    rw [slice]
    apply List.mem_of_getElem? (i := k - j)
    rw [List.getElem?_take_of_lt (by omega), List.getElem?_drop, ← hi]
    congr 1
    omega
  by_cases h₁ : k = n
  · rw [h₁, h.tryStart] at hi
    exact .inl ⟨(Option.some.inj hi).symm, h₁⟩
  by_cases h₂ : k < n + G.success.items.length + 1
  · exact .inr (.inr (.inr (hG.success.isMark i (hmem h.range (by omega) h₂))))
  by_cases h₃ : k = n + G.success.items.length + 1
  · rw [h₃, h.handlerStart] at hi
    exact .inr (.inl (Option.some.inj hi).symm)
  by_cases h₄ : k = n + G.close
  · rw [h₄, h.handlerEnd] at hi
    exact .inr (.inr (.inl ⟨(Option.some.inj hi).symm, h₄⟩))
  exact .inr (.inr (.inr (hG.failure.isMark i (hmem h.handling (by omega) (by omega)))))

theorem At.label_outside (h : G.At p items n) (hG : G.Fits p ctx t b) {l : Label}
    (hk : items[k]? = some (.label l)) : k < n ∨ n + G.close < k := by
  by_contra hin
  rw [not_or, Nat.not_lt, Nat.not_lt] at hin
  rcases h.inside hG hk hin.1 hin.2 with ⟨hi, -⟩ | hi | ⟨hi, -⟩ | hi <;> cases hi

theorem balanced_exit {mark : BranchArg} {raises : Bool} {e : Exit} (he : e.Fits p t mark raises)
    {opens closes : Item → Bool}
    (ho : ∀ i : Item, i.isMark = false → opens i = false ∧ closes i = false) :
    Balanced opens closes e.items :=
  balanced_of_forall fun i hi => ho i (he.isMark i hi)

theorem At.protects (h : G.At p items n) (hG : G.Fits p ctx t b) :
    Protects items n (n + G.success.items.length + 1) := by
  refine ⟨⟨_, h.tryStart, rfl⟩, ⟨_, h.handlerStart, rfl⟩, by omega, ?_⟩
  rw [h.range]
  apply balanced_exit hG.success
  intro i hi
  cases i <;> first | exact ⟨rfl, rfl⟩ | cases hi

theorem At.handles (h : G.At p items n) (hG : G.Fits p ctx t b) :
    Handles items (n + G.success.items.length + 1) (n + G.close) := by
  refine ⟨⟨_, h.handlerStart, rfl⟩, ⟨_, h.handlerEnd, rfl⟩, by rw [close]; omega, ?_⟩
  rw [h.handling]
  apply balanced_exit hG.failure
  intro i hi
  cases i <;> first | exact ⟨rfl, rfl⟩ | cases hi

theorem At.handler_eq (h : G.At p items n) (hG : G.Fits p ctx t b) {e : Handler}
    (he : HandlerAt items (n + G.close) e) : e = G.handler items n := by
  obtain ⟨start, border, hprotects, hhandles, htype, hts, hte, hhs, hhe⟩ := he
  obtain rfl := hhandles.unique (fun _ => Item.not_isHandlerEnd) (h.handles hG)
  obtain rfl := hprotects.unique (fun _ => Item.not_isHandlerStart) (h.protects hG)
  rw [h.handlerStart] at htype
  obtain ⟨tryStart, tryEnd, handlerStart, handlerEnd, catchType⟩ := e
  simp only [Option.some.injEq, Item.handlerStart.injEq] at htype hts hte hhs hhe
  subst htype hts hte hhs hhe
  rfl

end Positions

end Guard

def Machine.Slot.access (how : Access) : Slot → Instr
  | .local n => ⟨how.localOp, .local n⟩
  | .argument n => ⟨how.argumentOp, .argument n⟩

def Allocation.slot? (a : Allocation) (slots : List (Nat × Nat)) (v : Value) : Option Slot :=
  match a.register? v with
  | some (.argument n _) => some (.argument n)
  | some (.cell n _) => (slots.lookup n).map .local
  | none => none

inductive Graph.Passes (g : Graph) (slot? : Value → Option Slot) (mark : BranchArg)
    (Keeps : Slot → Prop) : BranchArg → List Machine.Instr → Prop where
  | slot {v : Value} {x : Slot} (h : slot? v = some x) :
      Graph.Passes g slot? mark Keeps (.value v) [x.access .load]
  | literal {v : Value} {code : List Machine.Instr} (h : g.HasLiteral v code) :
      Graph.Passes g slot? mark Keeps (.value v) code
  | outcome {x : Slot} (h : Keeps x) : Graph.Passes g slot? mark Keeps mark [x.access .load]

section Emitting

variable {items : List Item} {a : Allocation} {slots : List (Nat × Nat)}
  {instrs : List Machine.Instr} {v : Value} {i j : Machine.Instr} {k n : Nat}

theorem Emits.access_slot (how : Access) (h : Emits items a slots (how.item v) i) :
    ∃ x, a.slot? slots v = some x ∧ i = x.access how := by
  rcases h.access_cases with ⟨n, t, hr, rfl⟩ | ⟨n, t, m, hr, hm, rfl⟩
  · exact ⟨.argument n, by rw [Allocation.slot?, hr], rfl⟩
  · exact ⟨.local m, by rw [Allocation.slot?, hr]; simp [hm], rfl⟩

theorem Emits.op_eq (h : Emits items a slots (.op j) i) (hj : j.Clean) : i = j := by
  generalize hitem : Item.op j = item at h
  cases h with
  | op => exact (Item.op.inj hitem).symm
  | renamed =>
    obtain rfl := Item.op.inj hitem
    exact absurd rfl (hj.2 _)
  | @argument how => cases how <;> cases hitem
  | @cell how => cases how <;> cases hitem
  | _ => cases hitem

theorem Emits.jump_eq {o : Opcode} {l : Label} (h : Emits items a slots (.jump o l) i) :
    ∃ m, OnlyAt items l m ∧ i = ⟨o, .target (address items m)⟩ := by
  generalize hitem : Item.jump o l = item at h
  cases h with
  | jump hm =>
    cases hitem
    exact ⟨_, hm, rfl⟩
  | @argument how => cases how <;> cases hitem
  | @cell how => cases how <;> cases hitem
  | _ => cases hitem

theorem Emits.flow {item : Item} (h : Emits items a slots item i) {raises : Bool}
    (hp : item.Proceeds raises) :
    i.opcode.flow = .next ∨ raises = true ∧ i.opcode.flow = .throw := by
  cases h with
  | @argument how => cases how <;> exact .inl rfl
  | @cell how => cases how <;> exact .inl rfl
  | op | renamed | jump | switch => exact hp.2 _ rfl

end Emitting

section Arguments

variable {ctx : Context} {calls : Opcode → Method → Prop} {entry : Block} {symbols : Symbols}
  {plans : List Plan} {t : Selection} {policy : Policy} {p : Placement} {items : List Item}
  {a : Allocation} {slots : List (Nat × Nat)} {mark : BranchArg} {raises : Bool} {e : Exit}
  {code : List Machine.Instr}

theorem Machine.Slot.storedSlot_load (x : Slot) : (x.access .load).storedSlot = none := by
  cases x <;> rfl

theorem storedSlot_of_isLiteral {j : Machine.Instr} (h : j.opcode.isLiteral = true) :
    j.storedSlot = none := by
  obtain ⟨opcode, operand⟩ := j
  cases opcode <;> first | rfl | cases h

theorem emitted_ops {ops : List Machine.Instr} (hops : ∀ j ∈ ops, j.Clean)
    (h : List.Forall₂ (Emits items a slots) (ops.map .op) code) : code = ops := by
  induction ops generalizing code with
  | nil =>
    cases h
    rfl
  | cons j ops ih =>
    rw [List.forall_mem_cons] at hops
    cases h with
    | cons hj hrest => rw [hj.op_eq hops.1, ih hops.2 hrest]

def Exit.Holds (e : Exit) (slot? : Value → Option Slot) (x : Slot) : Prop :=
  ∃ v, e.outcome = some v ∧ slot? v = some x

theorem passes_fetch (h : Finished ctx calls entry symbols plans t)
    (hp : p = .ofPlans ctx.graph policy plans) (he : e.Fits p t mark raises) {x : BranchArg}
    {v : Value} (hv : v ∈ e.arm.args) (hx : x = .value v ∨ x = mark ∧ e.outcome = some v)
    (hcode : List.Forall₂ (Emits items a slots) (p.fetch v) code) :
    ctx.graph.Passes (a.slot? slots) mark (e.Holds (a.slot? slots)) x code
      ∧ ∀ j ∈ code, j.storedSlot = none := by
  rcases fetch_cases h hp (he.unkept v hv) with hload | ⟨ops, hops, hlit, hclean⟩
  · rw [hload] at hcode
    cases hcode with
    | cons hj hnil =>
      cases hnil
      obtain ⟨y, hy, rfl⟩ := hj.access_slot .load
      refine ⟨?_, List.forall_mem_singleton.mpr y.storedSlot_load⟩
      rcases hx with rfl | ⟨rfl, ho⟩
      · exact .slot hy
      · exact .outcome ⟨v, ho, hy⟩
  · rcases hx with rfl | ⟨-, ho⟩
    · rw [hops] at hcode
      rw [emitted_ops (fun j hj => (hclean j hj).2) hcode]
      exact ⟨.literal hlit, fun j hj => storedSlot_of_isLiteral (hclean j hj).1⟩
    · -- The outcome is no constant, so it is loaded.
      rw [Placement.fetch, if_neg (by simpa using he.unkept v hv), (he.scratch v ho).1] at hops
      cases ops <;> cases hops

theorem passes_args (h : Finished ctx calls entry symbols plans t)
    (hp : p = .ofPlans ctx.graph policy plans) (he : e.Fits p t mark raises) {xs : List BranchArg}
    {vs : List Value} (hvs : ∀ v ∈ vs, v ∈ e.arm.args)
    (hargs : List.Forall₂ (fun x v => x = .value v ∨ x = mark ∧ e.outcome = some v) xs vs)
    (hcode : List.Forall₂ (Emits items a slots) (vs.flatMap p.fetch) code) :
    (∃ codes,
      List.Forall₂ (ctx.graph.Passes (a.slot? slots) mark (e.Holds (a.slot? slots))) xs codes
      ∧ code = codes.flatten) ∧ ∀ j ∈ code, j.storedSlot = none := by
  induction hargs generalizing code with
  | nil =>
    cases hcode
    exact ⟨⟨[], .nil, rfl⟩, by simp⟩
  | cons hx _ ih =>
    rw [List.forall_mem_cons] at hvs
    rw [List.flatMap_cons] at hcode
    obtain ⟨first, rest, rfl, hfirst, hrest⟩ := forall₂_append_left hcode
    obtain ⟨hpass, hstored⟩ := passes_fetch h hp he hvs.1 hx hfirst
    obtain ⟨⟨codes, hcodes, rfl⟩, hstored'⟩ := ih hvs.2 hrest
    refine ⟨⟨first :: codes, .cons hpass hcodes, rfl⟩, ?_⟩
    intro j hj
    rcases List.mem_append.mp hj with hj | hj
    · exact hstored j hj
    · exact hstored' j hj

theorem passes_pushes (h : Finished ctx calls entry symbols plans t)
    (hp : p = .ofPlans ctx.graph policy plans) (he : e.Fits p t mark raises)
    (hcode : List.Forall₂ (Emits items a slots) (e.pushes p) code) :
    (∃ codes m, List.Forall₂ (ctx.graph.Passes (a.slot? slots) mark (e.Holds (a.slot? slots)))
        e.branch.args codes ∧ OnlyAt items e.branch.target m
        ∧ code = codes.flatten ++ [⟨.br, .target (address items m)⟩])
      ∧ ∀ j ∈ code, j.storedSlot = none := by
  obtain ⟨args, last, rfl, hargs, hlast⟩ := forall₂_snoc_left hcode
  obtain ⟨⟨codes, hcodes, rfl⟩, hstored⟩ := passes_args h hp he (fun _ hv => hv) he.args hargs
  obtain ⟨m, hm, rfl⟩ := hlast.jump_eq
  rw [he.target] at hm
  refine ⟨⟨codes, m, hcodes, hm, rfl⟩, ?_⟩
  intro j hj
  rcases List.mem_append.mp hj with hj | hj
  · exact hstored j hj
  · rw [List.mem_singleton.mp hj]
    rfl

end Arguments

namespace Compiled

variable (c : Compiled) (o : Options) (g : Graph) (slots : List (Nat × Nat))

/-- The code from `start` to `stop` ends by storing an outcome in the slot of a scratch value, and
leaving. -/
def Keeps (start stop : Nat) (x : Slot) : Prop :=
  start + 2 ≤ stop ∧ c.body.instrs[stop - 2]? = some (o.shorten (x.access .store))
    ∧ ∃ v type, (v, type) ∈ c.schedule.temporaries ∧ c.allocation.slot? slots v = some x

/-- The code from `start` to `stop` goes straight to its end and leaves to `target`, which lies in
no range. There the arguments of the branch are pushed before it is taken. -/
structure Leaves (mark : BranchArg) (raises : Bool) (branch : Branch) (start stop target : Nat) :
    Prop where
  lt : start < stop
  inner : ∀ k i, start ≤ k → k + 1 < stop → c.body.instrs[k]? = some i →
    i.opcode.flow = .next ∨ raises = true ∧ i.opcode.flow = .throw
  last : c.body.instrs[stop - 1]? = some ⟨.leave, .target target⟩
  outside : ∀ h ∈ c.body.handlers, target < h.tryStart ∨ h.handlerEnd ≤ target
  arm : ∃ codes m, List.Forall₂ (g.Passes (c.allocation.slot? slots) mark
      (c.Keeps o slots start stop)) branch.args codes
    ∧ OnlyAt c.schedule.items branch.target m
    ∧ codes.flatten.map o.shorten ++ [⟨.br, .target (address c.schedule.items m)⟩]
      <+: c.body.instrs.drop target

/-- The entry of a protected instruction. Only that instruction can throw in the range. -/
structure Guards (env : Environment) (symbols : Symbols) (b : Block) (h : Handler) : Prop where
  adjacent : h.tryEnd = h.handlerStart
  caught : symbols.type? h.catchType = some env.caught
  exits : ∃ risky success failure done failed, b.flow = .protect risky success failure
    ∧ c.Leaves o g slots .result risky.operation.raises success h.tryStart h.tryEnd done
    ∧ c.Leaves o g slots .exception false failure h.handlerStart h.handlerEnd failed

/-- Each protected instruction has its entry, in the order of the blocks. The ranges are apart, and
no branch leads behind the start of one. -/
def Structured (setting : Setting) (symbols : Symbols) : Prop :=
  ∃ entry l, g.block? g.entry = some entry
    ∧ c.allocation.locals c.schedule.items c.schedule.temporaries setting.options.extraLocals
      = .ok l
    ∧ List.Forall₂ (c.Guards setting.options g l.slots setting.env symbols)
      ((g.order entry).filter fun b => b.flow.risky?.isSome) c.body.handlers
    ∧ c.body.handlers.Pairwise (fun h h' => h.handlerEnd ≤ h'.tryStart)
    ∧ ∀ i ∈ c.body.instrs, ∀ n ∈ i.operand.branchTargets, ∀ h ∈ c.body.handlers,
      n ≤ h.tryStart ∨ h.handlerEnd ≤ n

end Compiled

theorem Graph.Passes.mono {g : Graph} {slot? : Value → Option Slot} {mark x : BranchArg}
    {P Q : Slot → Prop} {code : List Machine.Instr} (hPQ : ∀ x, P x → Q x)
    (h : g.Passes slot? mark P x code) : g.Passes slot? mark Q x code := by
  cases h with
  | slot h => exact .slot h
  | literal h => exact .literal h
  | outcome h => exact .outcome (hPQ _ h)

section Exits

variable {items : List Item} {a : Allocation} {slots : List (Nat × Nat)} {body : Body}
  {p : Placement} {t : Selection} {mark : BranchArg} {raises : Bool} {e : Exit} {k n m : Nat}

theorem Machine.Slot.loadedSlot_store (x : Slot) : (x.access .store).loadedSlot = none := by
  cases x <;> rfl

theorem emitted_exit
    (h : List.Forall₂ (Emits items a slots) (items.filter fun i => !i.isMark) body.instrs)
    (he : e.Fits p t mark raises) (hrange : slice items k n = e.items) (hkn : k ≤ n)
    (hlabel : items[m]? = some (.label e.arm.label)) :
    ∃ code, List.Forall₂ (Emits items a slots) e.code code
      ∧ address items n = address items k + code.length + 1
      ∧ code ++ [⟨.leave, .target (address items m)⟩] <+: body.instrs.drop (address items k) := by
  obtain ⟨hlen, all, hall, hpre⟩ := emitted_slice h hrange hkn he.isMark
  obtain ⟨code, last, rfl, hcode, hlast⟩ := forall₂_snoc_left hall
  obtain ⟨q, hq, rfl⟩ := hlast.jump_eq
  obtain rfl := hq.2 m hlabel
  refine ⟨code, hcode, ?_, hpre⟩
  rw [hlen, Exit.items, List.length_append, hcode.length_eq]
  rfl

theorem flow_of_exit {o : Options} {code : List Machine.Instr} {last : Machine.Instr}
    (he : e.Fits p t mark raises) (hcode : List.Forall₂ (Emits items a slots) e.code code)
    (hpre : code ++ [last] <+: body.instrs.drop k) {i : Machine.Instr} (hk : k ≤ n)
    (hn : n < k + code.length) (hi : (Compile.improve o body).instrs[n]? = some i) :
    i.opcode.flow = .next ∨ raises = true ∧ i.opcode.flow = .throw := by
  obtain ⟨j, hj, hflow⟩ := flow_of_improve hi
  obtain ⟨q, rfl⟩ := Nat.exists_eq_add_of_le hk
  have hq : q < code.length := by omega
  have hq' : q < e.code.length := hcode.length_eq ▸ hq
  have hjq := getElem?_of_isPrefix_drop hpre
    (by rw [List.getElem?_append_left hq]; exact List.getElem?_eq_getElem hq)
  rw [hj] at hjq
  obtain rfl := Option.some.inj hjq
  have hemits := forall₂_getElem? hcode (List.getElem?_eq_getElem hq') (List.getElem?_eq_getElem hq)
  rw [hflow]
  exact hemits.flow (he.code _ (List.getElem_mem hq'))

theorem improve_exit {o : Options} {code : List Machine.Instr} {target : Nat}
    (hpre : code ++ [⟨.leave, .target target⟩] <+: body.instrs.drop k)
    (hstop : k + code.length + 1 ∈ body.entryPoints) :
    (Compile.improve o body).instrs[k + code.length]? = some ⟨.leave, .target target⟩
      ∧ ∀ front (x : Slot), code = front ++ [x.access .store] →
        (Compile.improve o body).instrs[k + front.length]?
          = some (o.shorten (x.access .store)) := by
  have hleave : body.instrs[k + code.length]? = some ⟨.leave, .target target⟩ :=
    getElem?_of_isPrefix_drop hpre (by simp)
  -- The leave loads nothing, so a store before it stays where it is.
  have hnot : ¬ body.Between (k + code.length) := not_between_of_loadedSlot hleave rfl
  constructor
  · rw [improve_getElem? hleave hnot (not_between_of_entry hstop),
      Options.shorten_of_flow (by simp [Opcode.flow])]
  · rintro front x rfl
    have hstore : body.instrs[k + front.length]? = some (x.access .store) :=
      getElem?_of_isPrefix_drop hpre (by simp)
    apply improve_getElem? hstore (not_between_of_loadedSlot hstore x.loadedSlot_store)
    rw [List.length_append] at hnot
    exact hnot

end Exits

section Methods

variable {ctx : Context} {calls : Opcode → Method → Prop} {entry : Block} {symbols : Symbols}
  {plans : List Plan} {t : Selection} {policy : Policy} {p : Placement} {c : Compiled} {o : Options}
  {slots : List (Nat × Nat)} {body : Body}

structure Compiled.Stems (c : Compiled) (o : Options) (t : Selection) (slots : List (Nat × Nat))
    (body : Body) : Prop where
  scratch : ∀ e ∈ t.temporaries, e.1 ∈ c.schedule.items.filterMap Item.register? →
    e ∈ c.schedule.temporaries
  emits : List.Forall₂ (Emits c.schedule.items c.allocation slots)
    (c.schedule.items.filter fun i => !i.isMark) body.instrs
  instrs : c.body.instrs = (Compile.improve o body).instrs
  handlers : c.body.handlers = body.handlers

theorem mem_of_slice {items : List Item} {j k : Nat} {i : Item} (h : i ∈ slice items j k) :
    i ∈ items :=
  List.mem_of_mem_drop (List.mem_of_mem_take h)

section Ways

variable {mark : BranchArg} {raises : Bool} {e : Exit} {k n m : Nat}

theorem keeps_exit (hc : c.Stems o t slots body) (he : e.Fits p t mark raises)
    {code : List Machine.Instr} {target : Nat}
    (hcode : List.Forall₂ (Emits c.schedule.items c.allocation slots) e.code code)
    (hitems : ∀ i ∈ e.code, i ∈ c.schedule.items)
    (hpre : code ++ [⟨.leave, .target target⟩] <+: body.instrs.drop k)
    (hstop : k + code.length + 1 ∈ body.entryPoints) {x : Slot}
    (hx : e.Holds (c.allocation.slot? slots) x) : c.Keeps o slots k (k + code.length + 1) x := by
  obtain ⟨v, hv, hslot⟩ := hx
  obtain ⟨front, hfront⟩ := he.kept v hv
  obtain ⟨-, type, htype⟩ := he.scratch v hv
  rw [hfront] at hcode hitems
  obtain ⟨first, last, rfl, -, hlast⟩ := forall₂_snoc_left hcode
  obtain ⟨y, hy, rfl⟩ := hlast.access_slot .store
  rw [hslot] at hy
  obtain rfl := Option.some.inj hy
  have hlength : (first ++ [x.access .store]).length = first.length + 1 := List.length_append
  have hstore := (improve_exit (o := o) hpre hstop).2 first x rfl
  have hmem : v ∈ c.schedule.items.filterMap Item.register? :=
    List.mem_filterMap.mpr ⟨.store v, hitems _ (List.mem_append_right _ List.mem_cons_self), rfl⟩
  refine ⟨by omega, ?_, v, type, hc.scratch _ htype hmem, hslot⟩
  rw [hc.instrs, ← hstore, hlength]
  congr 1

theorem passes_arm (h : Finished ctx calls entry symbols plans t)
    (hp : p = .ofPlans ctx.graph policy plans) (hc : c.Stems o t slots body)
    (he : e.Fits p t mark raises) (hlabel : c.schedule.items[m]? = some (.label e.arm.label))
    (hpushes : slice c.schedule.items (m + 1) (m + 1 + (e.pushes p).length) = e.pushes p)
    (hentry : address c.schedule.items m ∈ body.entryPoints) :
    ∃ codes q, List.Forall₂ (ctx.graph.Passes (c.allocation.slot? slots) mark
        (e.Holds (c.allocation.slot? slots))) e.branch.args codes
      ∧ OnlyAt c.schedule.items e.branch.target q
      ∧ codes.flatten.map o.shorten ++ [⟨.br, .target (address c.schedule.items q)⟩]
        <+: c.body.instrs.drop (address c.schedule.items m) := by
  obtain ⟨-, pushed, hpushed, hpre⟩ :=
    emitted_slice hc.emits hpushes (by omega) (isMark_pushes h hp)
  obtain ⟨⟨codes, q, hcodes, hq, rfl⟩, hstored⟩ := passes_pushes h hp he hpushed
  have haddress : address c.schedule.items (m + 1) = address c.schedule.items m :=
    address_succ hlabel
  rw [haddress] at hpre
  have himproved := isPrefix_improve (o := o) hpre hstored (not_between_of_entry hentry)
  rw [List.map_append, List.map_singleton, Options.shorten_of_flow (by simp [Opcode.flow]),
    ← hc.instrs] at himproved
  exact ⟨codes, q, hcodes, hq, himproved⟩

theorem leaves_exit (h : Finished ctx calls entry symbols plans t)
    (hp : p = .ofPlans ctx.graph policy plans) (hc : c.Stems o t slots body)
    (he : e.Fits p t mark raises) (hrange : slice c.schedule.items k n = e.items) (hkn : k ≤ n)
    (hlabel : c.schedule.items[m]? = some (.label e.arm.label))
    (hpushes : slice c.schedule.items (m + 1) (m + 1 + (e.pushes p).length) = e.pushes p)
    (hstop : address c.schedule.items n ∈ body.entryPoints)
    (hout : ∀ h ∈ c.body.handlers, address c.schedule.items m < h.tryStart
      ∨ h.handlerEnd ≤ address c.schedule.items m) :
    c.Leaves o ctx.graph slots mark raises e.branch (address c.schedule.items k)
      (address c.schedule.items n) (address c.schedule.items m) := by
  obtain ⟨code, hcode, hlen, hpre⟩ := emitted_exit hc.emits he hrange hkn hlabel
  have hitems : ∀ i ∈ e.code, i ∈ c.schedule.items := by
    intro i hi
    apply mem_of_slice (j := k) (k := n)
    rw [hrange]
    exact List.mem_append_left _ hi
  have hleave : ⟨.leave, .target (address c.schedule.items m)⟩ ∈ body.instrs :=
    List.mem_of_mem_drop (hpre.subset (List.mem_append_right _ List.mem_cons_self))
  -- The leave makes its target an entry point, so nothing is fused across the label.
  have hentry : address c.schedule.items m ∈ body.entryPoints :=
    List.mem_append_left _ (List.mem_flatMap.mpr ⟨_, hleave, List.mem_cons_self⟩)
  rw [hlen] at hstop ⊢
  refine ⟨by omega, ?_, ?_, hout, ?_⟩
  · intro q i hkq hq hi
    rw [hc.instrs] at hi
    exact flow_of_exit he hcode hpre hkq (by omega) hi
  · rw [hc.instrs, Nat.add_sub_cancel]
    exact (improve_exit hpre hstop).1
  · obtain ⟨codes, q, hcodes, hq, harm⟩ := passes_arm h hp hc he hlabel hpushes hentry
    refine ⟨codes, q, hcodes.imp ?_, hq, harm⟩
    intro _ _ hpass
    apply hpass.mono
    intro x hx
    exact keeps_exit hc he hcode hitems hpre hstop hx

end Ways

theorem mem_entryPoints {h : Handler} {n : Nat} (hh : h ∈ body.handlers) (hn : n ∈ h.bounds) :
    n ∈ body.entryPoints :=
  List.mem_append_right _ (List.mem_flatMap.mpr ⟨h, hh, hn⟩)

section Tables

variable {items : List Item} {bs : List Block} {Gs : List (Guard × Nat)}

theorem Guarding.exists_fits (h : Guarding ctx p t bs items Gs) {e : Guard × Nat} (he : e ∈ Gs) :
    ∃ b, e.1.Fits p ctx t b := by
  obtain ⟨b, -, hb⟩ := forall_of_forall₂ h.fits.flip he
  exact ⟨b, hb⟩

theorem Guarding.handlers (h : Guarding ctx p t bs items Gs) {hs : List Handler}
    (hhs : List.Forall₂ (HandlerAt items) (handlerEnds items items.length) hs) :
    hs = Gs.map fun e => e.1.handler items e.2 := by
  rw [h.ends, List.forall₂_map_left_iff] at hhs
  have heq : List.Forall₂ (· = ·) (Gs.map fun e => e.1.handler items e.2) hs := by
    rw [List.forall₂_map_left_iff]
    apply forall₂_imp_mem hhs
    intro e he H hH
    obtain ⟨b, hfits⟩ := h.exists_fits he
    exact ((h.starts e he).handler_eq hfits hH).symm
  rw [List.forall₂_eq_eq_eq] at heq
  exact heq.symm

theorem Guarding.pairwise (h : Guarding ctx p t bs items Gs) :
    (Gs.map fun e => e.1.handler items e.2).Pairwise fun h h' => h.handlerEnd ≤ h'.tryStart := by
  have hends : (Gs.map fun e => e.2 + e.1.close).Pairwise (· < ·) := by
    rw [← h.ends, handlerEnds]
    exact List.pairwise_lt_range.filter _
  rw [List.pairwise_map] at hends ⊢
  apply hends.imp_of_mem
  intro e f he hf hlt
  apply address_mono
  by_contra hnot
  -- Otherwise the end of the first handler is a mark inside the second guard.
  obtain ⟨b, hfits⟩ := h.exists_fits hf
  rcases (h.starts f hf).inside hfits (h.starts e he).handlerEnd (by omega) (by omega)
    with ⟨hi, -⟩ | hi | ⟨-, hk⟩ | hi
  · cases hi
  · cases hi
  · omega
  · cases hi

theorem Guarding.label_outside (h : Guarding ctx p t bs items Gs) {l : Label} {m : Nat}
    (hl : items[m]? = some (.label l)) :
    ∀ H ∈ Gs.map fun e => e.1.handler items e.2,
      address items m ≤ H.tryStart ∨ H.handlerEnd ≤ address items m := by
  intro H hH
  obtain ⟨e, he, rfl⟩ := List.mem_map.mp hH
  obtain ⟨b, hfits⟩ := h.exists_fits he
  rcases (h.starts e he).label_outside hfits hl with hlt | hlt
  · exact .inl (address_mono items (by omega))
  · exact .inr (address_mono items (by omega))

theorem Guarding.code_outside (h : Guarding ctx p t bs items Gs) {l : Label} {m : Nat} {i : Item}
    (hl : items[m]? = some (.label l)) (hi : items[m + 1]? = some i) (hm : i.isMark = false) :
    ∀ H ∈ Gs.map fun e => e.1.handler items e.2,
      address items m < H.tryStart ∨ H.handlerEnd ≤ address items m := by
  intro H hH
  obtain ⟨e, he, rfl⟩ := List.mem_map.mp hH
  obtain ⟨b, hfits⟩ := h.exists_fits he
  rcases (h.starts e he).label_outside hfits hl with hlt | hlt
  · exact .inl (address_lt hi hm (h.starts e he).tryStart rfl hlt)
  · exact .inr (address_mono items (by omega))

end Tables

theorem exists_of_slice {items piece : List Item} {k n : Nat} (h : slice items k n = piece)
    (hne : piece ≠ []) : ∃ i ∈ piece, items[k]? = some i := by
  obtain ⟨i, rest, rfl⟩ := List.exists_cons_of_ne_nil hne
  refine ⟨i, List.mem_cons_self, ?_⟩
  rw [← List.head?_drop]
  have hhead := congrArg List.head? h
  rw [slice, List.head?_take] at hhead
  split at hhead
  · cases hhead
  · exact hhead

theorem Exit.pushes_ne_nil (e : Exit) (p : Placement) : e.pushes p ≠ [] := by
  simp [Exit.pushes, Placement.chunk, Chunk.jump]

theorem guards_of_fits (h : Finished ctx calls entry symbols plans t)
    (hp : p = .ofPlans ctx.graph policy plans) (hc : c.Stems o t slots body) {bs : List Block}
    {Gs : List (Guard × Nat)} (hGs : Guarding ctx p t bs c.schedule.items Gs)
    (hhs : c.body.handlers = Gs.map fun e => e.1.handler c.schedule.items e.2) {b : Block}
    {e : Guard × Nat} (he : e ∈ Gs) (hfits : e.1.Fits p ctx t b) :
    c.Guards o ctx.graph slots ctx.env t.symbols b (e.1.handler c.schedule.items e.2) := by
  have hat := hGs.starts e he
  have hmem : e.1.handler c.schedule.items e.2 ∈ body.handlers := by
    rw [← hc.handlers, hhs]
    exact List.mem_map_of_mem he
  have hout : ∀ {x : Exit} {m : Nat} {l : Label}, c.schedule.items[m]? = some (.label l) →
      slice c.schedule.items (m + 1) (m + 1 + (x.pushes p).length) = x.pushes p →
      ∀ H ∈ c.body.handlers, address c.schedule.items m < H.tryStart
        ∨ H.handlerEnd ≤ address c.schedule.items m := by
    intro x m l hl hpushes
    obtain ⟨i, hi, hget⟩ := exists_of_slice hpushes (x.pushes_ne_nil p)
    rw [hhs]
    exact hGs.code_outside hl hget (isMark_pushes h hp i hi)
  have hdone := leaves_exit h hp hc hfits.success hat.range (by omega) hat.success_label
    hat.success_pushes (mem_entryPoints hmem (by simp [Handler.bounds, Guard.handler]))
    (hout hat.success_label hat.success_pushes)
  have hfailed := leaves_exit h hp hc hfits.failure hat.handling (by rw [Guard.close]; omega)
    hat.failure_label hat.failure_pushes
    (mem_entryPoints hmem (by simp [Handler.bounds, Guard.handler]))
    (hout hat.failure_label hat.failure_pushes)
  rw [address_succ hat.tryStart] at hdone
  rw [address_succ hat.handlerStart] at hfailed
  exact ⟨rfl, hfits.type, _, _, _, _, _, hfits.flow, hdone, hfailed⟩

end Methods

theorem Select.holds_stream {ctx : Context} {policy : Policy} {symbols : Symbols}
    (hg : ctx.graph.Valid) :
    Holds ctx.graph.Wide (schedule ctx policy) (.start ctx.graph symbols) fun s t =>
      ∃ entry plans, Finished ctx (fun _ _ => True) entry symbols plans t
        ∧ s.items = ctx.graph.preheader entry
          ++ plans.flatMap ((Placement.ofPlans ctx.graph policy plans).block ctx.graph)
        ∧ s.WellFormed
        ∧ ∀ e ∈ t.temporaries, e.1 ∈ s.items.filterMap Item.register? → e ∈ s.temporaries := by
  have hcalls : ctx.graph.Calls ctx.env fun _ _ => True := ⟨fun _ _ _ _ => trivial, trivial⟩
  exact holds_wellFormed hg hcalls fun S => ⟨_, S.shaped⟩

/-- Protected ranges are structured in whatever is compiled. -/
theorem regions_structured {setting : Setting} {g : Graph} (hb : g.Built) (hf : g.fault? = none)
    {w w' : Workspace} {c : Compiled} (h : Compile.graph setting g w = (.ok c, w')) :
    c.Structured g setting w'.symbols := by
  have hg := hb.valid hf
  obtain ⟨t, body, hschedule, hsymbols, hemit, hinstrs, hhandlers⟩ := Compile.graph_run hf h
  obtain ⟨entry, plans, hfin, hitems, hw, hscratch⟩ := (Select.holds_stream hg).of_run hschedule
  obtain ⟨l, hl, -, hemits⟩ := emit_instrs hemit
  have hp : Placement.ofPlans g setting.policy plans = .ofPlans g setting.policy plans := rfl
  obtain ⟨Gs, hGs⟩ := guarding_stream hg hfin t.symbols.shaped hp
  rw [← hitems] at hGs
  rw [improve_handlers] at hhandlers
  have hc : c.Stems setting.options t l.slots body := ⟨hscratch, hemits, hinstrs, hhandlers⟩
  have htable := hhandlers.trans (hGs.handlers (emit_handlers hemit))
  refine ⟨entry, l, hfin.start, hl, ?_, ?_, ?_⟩
  · rw [htable, hsymbols, List.forall₂_map_right_iff]
    apply List.Forall₂.flip
    apply forall₂_imp_mem hGs.fits.flip
    intro e he b hfits
    exact guards_of_fits hfin hp hc hGs htable he hfits
  · rw [htable]
    exact hGs.pairwise
  · intro i hi n hn
    rw [hinstrs] at hi
    obtain ⟨j, hj, hn⟩ := targets_of_improve hi hn
    obtain ⟨item, hitem, hemitted⟩ := forall_of_forall₂ hemits.flip hj
    have hmem := (List.mem_filter.mp hitem).1
    -- A target is the address of a label, and no label stands in a guard.
    obtain ⟨label, -, q, hq, rfl⟩ := hemitted.targets (fun k hk => hw.clean k (hk ▸ hmem)) n hn
    rw [htable]
    exact hGs.label_outside hq.1

def twiceSteps : List BuildStep :=
  let int : Ty := .int ⟨32, true⟩
  let run : Operation := .call ⟨.object "Task", "run", [int], int, true⟩ .static
  [.block "again", .block "start", .block "done", .block "failed",
    .parameter ⟨0⟩ none int, .parameter ⟨1⟩ none int, .parameter ⟨2⟩ none int,
    .parameter ⟨3⟩ none (.object "Captured"),
    .instr ⟨1⟩ none ⟨.const (.int 1) int, []⟩,
    .flow ⟨0⟩ (.protect ⟨run, [⟨0⟩]⟩ ⟨⟨2⟩, [.result]⟩ ⟨⟨3⟩, [.exception]⟩),
    .flow ⟨1⟩ (.protect ⟨run, [⟨1⟩]⟩ ⟨⟨0⟩, [.result]⟩ ⟨⟨0⟩, [.value ⟨4⟩]⟩),
    .flow ⟨2⟩ (.ret (some ⟨2⟩)),
    .flow ⟨3⟩ (.jump ⟨⟨0⟩, [.value ⟨1⟩]⟩),
    .entry ⟨1⟩]

def twice : Graph := .ofSteps twiceSteps

theorem twice_structured : ∃ c w, Compile.graph {} twice {} = (.ok c, w)
    ∧ c.body.handlers.length = 2 ∧ c.Structured twice {} w.symbols := by
  have hbuilt : twice.Built := by
    have h : (Builder.run? {} twiceSteps).isSome = true := by decide +kernel
    exact built_ofSteps h
  have hf : twice.fault? = none := by decide +kernel
  have htwo : (Compile.graph {} twice {}).1.toOption.map (·.body.handlers.length) = some 2 := by
    decide +kernel
  obtain ⟨c, w, hr, htwo⟩ := run_of_toOption htwo
  exact ⟨c, w, hr, htwo, regions_structured hbuilt hf hr⟩

end StackCode
