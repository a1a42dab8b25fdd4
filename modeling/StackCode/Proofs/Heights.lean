import StackCode.Proofs.Lists
import StackCode.Proofs.Plans
import StackCode.Proofs.Residence
import StackCode.Schedule.Basic

/-!
Heights of the stack in a stream. Each label has a height of its own, a range starts with nothing
and a handler with the exception alone, and behind an item that ends the flow nothing is known until
the next of these. The stream of a graph fits together, with the number of its parameters as the
height of a block.
-/

namespace StackCode

open Machine (Opcode)

section Levels

variable (shape : Machine.Instr → Option (Nat × Nat)) (labels : Label → Nat)

def Item.exchangeAt (d : Nat) : Item → Option (Nat × Nat)
  | .op i =>
    match i.opcode.effect with
    | .fixed pops pushes => some (pops, pushes)
    | .call | .newObject => shape i
    | .ret => if d ≤ 1 then some (d, 0) else none
    | .leave => some (d, 0)
  | .jump o _ =>
    match o.effect with
    | .fixed pops pushes => some (pops, pushes)
    | .leave => some (d, 0)
    | _ => none
  | .switch _ => some (1, 0)
  | .load _ | .address _ => some (0, 1)
  | .store _ => some (1, 0)
  | .label _ | .tryStart | .handlerStart _ | .handlerEnd => some (0, 0)

def Item.next (level : Option Nat) : Item → Option Nat
  | .label l => some (labels l)
  | .tryStart => some 0
  | .handlerStart _ => some 1
  | i =>
    if i.fallsThrough then
      level.bind fun d => (i.exchangeAt shape d).map fun e => d - e.1 + e.2
    else none

def Item.Fits (level : Option Nat) : Item → Prop
  | .label l => ∀ d, level = some d → d = labels l
  | .tryStart => ∀ d, level = some d → d = 0
  | .handlerStart _ | .handlerEnd => level = none
  | i => ∀ d, level = some d → ∃ pops pushes, i.exchangeAt shape d = some (pops, pushes)
    ∧ pops ≤ d ∧ ∀ l ∈ i.targets, labels l = d - pops + pushes

def Leads : List Item → Option Nat → Option Nat → Prop
  | [], level, last => level = last
  | i :: rest, level, last =>
    i.Fits shape labels level ∧ Leads rest (i.next shape labels level) last

def Goes (code : List Item) (d e : Nat) : Prop :=
  ∀ level, level = none ∨ level = some d →
    ∃ last, (last = none ∨ last = some e) ∧ Leads shape labels code level last

def Closes (code : List Item) (d : Nat) : Prop :=
  ∀ level, level = none ∨ level = some d → Leads shape labels code level none

variable {shape labels}

theorem leads_append {xs ys : List Item} {level last : Option Nat} :
    Leads shape labels (xs ++ ys) level last ↔
      ∃ mid, Leads shape labels xs level mid ∧ Leads shape labels ys mid last := by
  induction xs generalizing level with
  | nil => simp [Leads]
  | cons i xs ih => simp only [List.cons_append, Leads, ih, ← exists_and_left, and_assoc]

theorem Goes.append {xs ys : List Item} {d e f : Nat} (hx : Goes shape labels xs d e)
    (hy : Goes shape labels ys e f) : Goes shape labels (xs ++ ys) d f := by
  intro level hl
  obtain ⟨mid, hm, hxm⟩ := hx level hl
  obtain ⟨last, hlast, hym⟩ := hy mid hm
  exact ⟨last, hlast, leads_append.mpr ⟨mid, hxm, hym⟩⟩

theorem Goes.closes {xs ys : List Item} {d e : Nat} (hx : Goes shape labels xs d e)
    (hy : Closes shape labels ys e) : Closes shape labels (xs ++ ys) d := by
  intro level hl
  obtain ⟨mid, hm, hxm⟩ := hx level hl
  exact leads_append.mpr ⟨mid, hxm, hy mid hm⟩

theorem goes_nil (d : Nat) : Goes shape labels [] d d := fun level hl => ⟨level, hl, rfl⟩

theorem Closes.append {xs ys : List Item} {d : Nat} (hx : Closes shape labels xs d)
    (hy : Leads shape labels ys none none) : Closes shape labels (xs ++ ys) d :=
  fun level hl => leads_append.mpr ⟨none, hx level hl, hy⟩

theorem Closes.leads {code : List Item} {d : Nat} (h : Closes shape labels code d) :
    Leads shape labels code none none := h none (.inl rfl)

theorem flow_of_call {o : Opcode} (h : o.effect = .call ∨ o.effect = .newObject) :
    o.flow = .next := by
  cases o <;> simp_all [Opcode.effect, Opcode.flow]

theorem Item.exchangeAt_of_exchange? {i : Item} {e : Nat × Nat} (h : i.exchange? shape = some e)
    (d : Nat) : i.exchangeAt shape d = some e := by
  cases i with
  | op j =>
    cases he : j.opcode.effect with
    | fixed pops pushes =>
      simp only [exchange?, he] at h
      split at h
      · simpa only [exchangeAt, he] using h
      · cases h
    | call => simpa only [exchangeAt, exchange?, he] using h
    | newObject => simpa only [exchangeAt, exchange?, he] using h
    | ret => simp [exchange?, he] at h
    | leave => simp [exchange?, he] at h
  | load v => exact h
  | store v => exact h
  | address v => exact h
  | _ => cases h

theorem Item.fallsThrough_of_exchange? {i : Item} {e : Nat × Nat}
    (h : i.exchange? shape = some e) : i.fallsThrough = true := by
  cases i with
  | op j =>
    have hflow : j.opcode.flow = .next := by
      cases he : j.opcode.effect with
      | fixed pops pushes =>
        simp only [exchange?, he] at h
        split at h
        · assumption
        · cases h
      | call => exact flow_of_call (.inl he)
      | newObject => exact flow_of_call (.inr he)
      | ret => simp [exchange?, he] at h
      | leave => simp [exchange?, he] at h
    simp [fallsThrough, opcode?, Opcode.endsFlow, hflow]
  | load v => rfl
  | store v => rfl
  | address v => rfl
  | _ => cases h

theorem Item.passed {i : Item} {pops pushes : Nat} (h : i.exchange? shape = some (pops, pushes))
    (labels : Label → Nat) (level : Option Nat) (hl : ∀ d, level = some d → pops ≤ d) :
    i.Fits shape labels level
      ∧ i.next shape labels level = level.map fun d => d - pops + pushes := by
  have hx := exchangeAt_of_exchange? h
  have hf := fallsThrough_of_exchange? h
  have hmap : (level.bind fun d => (i.exchangeAt shape d).map fun e => d - e.1 + e.2)
      = level.map fun d => d - pops + pushes := by
    cases level with
    | none => rfl
    | some d => simp [hx]
  have hfits : i.targets = [] → ∀ d, level = some d → ∃ pops pushes,
      i.exchangeAt shape d = some (pops, pushes) ∧ pops ≤ d
        ∧ ∀ l ∈ i.targets, labels l = d - pops + pushes := by
    intro ht d hd
    exact ⟨pops, pushes, hx d, hl d hd, by simp [ht]⟩
  cases i with
  | op j => exact ⟨hfits rfl, by simp only [next, hf, if_true, hmap]⟩
  | load v => exact ⟨hfits rfl, by simp only [next, hf, if_true, hmap]⟩
  | store v => exact ⟨hfits rfl, by simp only [next, hf, if_true, hmap]⟩
  | address v => exact ⟨hfits rfl, by simp only [next, hf, if_true, hmap]⟩
  | _ => cases h

theorem leads_of_height (labels : Label → Nat) {code : List Item} {d e : Nat}
    (h : height shape code d = some e) (n : Nat) :
    Leads shape labels code none none ∧ Leads shape labels code (some (n + d)) (some (n + e)) := by
  induction code generalizing d with
  | nil =>
    obtain rfl := Option.some.inj h
    exact ⟨rfl, rfl⟩
  | cons i code ih =>
    rw [height] at h
    split at h
    · rename_i pops pushes hi
      split at h
      · rename_i hle
        obtain ⟨hnone, hsome⟩ := ih h
        obtain ⟨hf, hn⟩ := Item.passed hi labels none (by simp)
        obtain ⟨hf', hn'⟩ := Item.passed hi labels (some (n + d)) (by simp; omega)
        refine ⟨⟨hf, ?_⟩, hf', ?_⟩
        · rw [hn]
          exact hnone
        · rw [hn', Option.map_some]
          rwa [show n + d - pops + pushes = n + (d - pops + pushes) by omega]
      · cases h
    · cases h

theorem goes_of_height (labels : Label → Nat) {code : List Item} {d e : Nat}
    (h : height shape code d = some e) (n : Nat) :
    Goes shape labels code (n + d) (n + e) := by
  obtain ⟨hnone, hsome⟩ := leads_of_height labels h n
  rintro level (rfl | rfl)
  · exact ⟨none, .inl rfl, hnone⟩
  · exact ⟨_, .inr rfl, hsome⟩

end Levels

def Graph.Declared (g : Graph) (env : Environment) : Prop :=
  ∀ i ∈ g.instrs, ∀ b, i.operation.leaves env = some b → i.operation.resultType.isVoid = !b

section Chunks

variable {shape : Machine.Instr → Option (Nat × Nat)} {labels : Label → Nat}

theorem goes_never {o : Opcode} {n : Nat} (hf : o.flow = .throw) (he : o.effect = .fixed n 0)
    (m e : Nat) : Goes shape labels [.plain o, .plain .dup] (m + n) e := by
  have hends : (Item.plain o).fallsThrough = false := by
    simp [Item.fallsThrough, Item.opcode?, Opcode.endsFlow, hf]
  intro level hl
  refine ⟨none, .inl rfl, ?_, ?_⟩
  · intro d hd
    refine ⟨n, 0, by simp [Item.exchangeAt, he], ?_, by simp [Item.targets]⟩
    rcases hl with rfl | rfl
    · cases hd
    · have := Option.some.inj hd
      omega
  · have hnext : (Item.plain o).next shape labels level = none := by simp [Item.next, hends]
    rw [hnext]
    exact ⟨by simp [Item.Fits], by simp [Leads, Item.next]⟩

theorem goes_pop (n : Nat) : Goes shape labels [.plain .pop] (n + 1) n :=
  goes_of_height labels (d := 1) (e := 0) rfl n

theorem goes_store (v : Value) (n : Nat) : Goes shape labels [.store v] (n + 1) n :=
  goes_of_height labels (d := 1) (e := 0) rfl n

theorem goes_load (v : Value) (n : Nat) : Goes shape labels [.load v] n (n + 1) :=
  goes_of_height labels (d := 0) (e := 1) rfl n

theorem Placement.goes_settle (p : Placement) (v : Value) (n : Nat) :
    Goes shape labels [p.settle v] (n + 1) n := by
  rw [Placement.settle]
  split
  · exact goes_store v n
  · exact goes_pop n

theorem Placement.goes_result (p : Placement) {type : Ty} {v : Value}
    (h : type.isVoid = true → p.kept.contains v = false) (n : Nat) :
    Goes shape labels
      (match some type with
        | none | some .void => []
        | some _ => if p.kept.contains v then [] else [p.settle v])
      (n + (!type.isVoid).toNat) (n + (p.kept.contains v).toNat) := by
  cases type with
  | void =>
    rw [h rfl]
    exact goes_nil n
  | _ =>
    cases p.kept.contains v
    · exact p.goes_settle v n
    · exact goes_nil (n + 1)

end Chunks

section Placed

variable {ctx : Context} {calls : Opcode → Method → Prop} {entry : Block} {symbols : Symbols}
  {plans : List Plan} {t : Selection} {policy : Policy}
  {shape : Machine.Instr → Option (Nat × Nat)} (labels : Label → Nat)

theorem repeated_cases {g : Graph} {p : Placement} (hp : p = .ofPlans g policy plans) {v : Value}
    {code : List Item} (h : p.repeated.lookup v = some code) :
    v ∉ p.kept ∧ ∃ q ∈ plans, ∃ c i, (v, c) ∈ q.instrs ∧ c.code = code ∧ c.deps = []
      ∧ g.instr? v = some i ∧ i.operation.isConstant = true
      ∧ ∀ x ∈ code, x.register? = none := by
  subst hp
  obtain ⟨⟨w, c⟩, hm, hc⟩ := List.mem_filterMap.mp (mem_of_lookup h)
  obtain ⟨q, hq, hlive⟩ := List.mem_flatMap.mp hm
  dsimp only at hc
  split at hc
  · rename_i i hi
    split at hc
    · rename_i hcond
      obtain ⟨rfl, rfl⟩ := Prod.mk.inj (Option.some.inj hc)
      simp only [Bool.and_eq_true, Bool.not_eq_true', List.contains_eq_mem, decide_eq_false_iff_not,
        List.isEmpty_iff] at hcond
      refine ⟨hcond.1.1.1.1, q, hq, c, i, List.mem_of_mem_filter hlive, rfl, hcond.1.1.1.2, hi,
        hcond.1.2, ?_⟩
      intro x hx
      exact Option.isNone_iff_eq_none.mp (List.all_eq_true.mp hcond.1.1.2 x hx)
    · cases hc
  · cases hc

theorem leaves_of_isConstant {op : Operation} (env : Environment) (h : op.isConstant = true) :
    op.leaves env = some true := by
  cases op <;> first | rfl | cases h

theorem deps_of_isConstant {i : Instr} {c : Chunk} {leaves : Option Bool} {s' t' : Selection}
    (hv : i.Valid ctx.graph) (hl : Lowered ctx.graph calls leaves i.operands s' c t')
    (h : i.operation.isConstant = true) : c.deps = [] := by
  have hops : i.operands = [] := by
    have := hv.arity
    cases ho : i.operation <;> simp_all [Operation.isConstant, Operation.arity]
  rw [List.eq_nil_iff_forall_not_mem]
  intro w hw
  rcases hl.feeds w hw with hw | ⟨x, hx, -⟩
  · rw [hops] at hw
    cases hw
  · rw [hops] at hx
    cases hx

theorem goes_fetch (h : Finished ctx calls entry symbols plans t)
    (hs : Shaped calls shape t.symbols) {p : Placement} (hp : p = .ofPlans ctx.graph policy plans)
    {v : Value} (hv : v ∉ p.kept) (n : Nat) : Goes shape labels (p.fetch v) n (n + 1) := by
  rw [Placement.fetch, if_neg (by simpa using hv)]
  split
  · rename_i code hcode
    obtain ⟨-, q, hq, c, i, he, rfl, hd, hi, hconst, -⟩ := repeated_cases hp hcode
    obtain ⟨-, s', t', ⟨-, j, hj, -, -, hl, -⟩, -, ht⟩ := h.instr hq he
    rw [hi] at hj
    obtain rfl := Option.some.inj hj
    have hleaves := hl.leaves
    rw [leaves_of_isConstant _ hconst] at hleaves
    cases hleaves with
    | entries hh =>
      have := hh shape (hs.mono ht)
      rw [hd] at this
      exact goes_of_height labels this n
  · exact goes_load v n

theorem goes_fetches (h : Finished ctx calls entry symbols plans t)
    (hs : Shaped calls shape t.symbols) {p : Placement} (hp : p = .ofPlans ctx.graph policy plans)
    {deps : List Value} (hd : ∀ v ∈ deps, v ∉ p.kept) (n : Nat) :
    Goes shape labels (deps.flatMap p.fetch) n (n + deps.length) := by
  induction deps generalizing n with
  | nil => exact goes_nil n
  | cons v deps ih =>
    rw [List.forall_mem_cons] at hd
    rw [List.flatMap_cons, List.length_cons, Nat.add_comm deps.length, ← Nat.add_assoc]
    exact (goes_fetch labels h hs hp hd.1 n).append (ih hd.2 (n + 1))

theorem goes_deps (h : Finished ctx calls entry symbols plans t)
    (hs : Shaped calls shape t.symbols) {p : Placement} (hp : p = .ofPlans ctx.graph policy plans)
    {stack deps rest : List Value} {alone : Bool} (ht : Takes p.kept stack deps rest alone) :
    Goes shape labels (deps.flatMap p.fetch) stack.length (rest.length + deps.length) := by
  have hfirst : (deps.takeWhile p.kept.contains).flatMap p.fetch = [] := by
    rw [List.flatMap_eq_nil_iff]
    intro v hv
    rw [Placement.fetch, if_pos (List.mem_takeWhile_imp hv)]
  have hsplit := List.takeWhile_append_dropWhile (p := p.kept.contains) (l := deps)
  have hlen : rest.length + deps.length
      = stack.length + (deps.dropWhile p.kept.contains).length := by
    have := congrArg List.length hsplit
    rw [List.length_append] at this
    rw [ht.stack, List.length_append]
    omega
  rw [hlen, ← hsplit, List.flatMap_append, hfirst, List.nil_append, hsplit]
  exact goes_fetches labels h hs hp ht.others stack.length

theorem nonvoid_of_kept {p : Placement} (hp : p = .ofPlans ctx.graph policy plans) {v : Value}
    {i : Instr} (hv : v ∈ p.kept) (hi : ctx.graph.instr? v = some i) :
    i.operation.resultType.isVoid = false := by
  subst hp
  obtain ⟨q, -, hc⟩ := candidate_of_kept hv
  have hcand := (List.mem_filter.mp hc).2
  rw [hi] at hcand
  simp only [Bool.and_eq_true, Bool.not_eq_true'] at hcand
  exact hcand.1.1.2

theorem Graph.Valid.type_of_listed {g : Graph} (hg : g.Valid) {b : Block} {v : Value} {i : Instr}
    (hb : b ∈ g.blocks.toList) (hv : v ∈ b.instructions) (hi : g.instr? v = some i) :
    g.type? v = some i.operation.resultType := by
  obtain ⟨n, hn, rfl⟩ := List.mem_iff_getElem.mp hb
  have hc := hg.coherent n _ (by rw [← Array.getElem?_toList, List.getElem?_eq_getElem hn])
  obtain ⟨name, j, hj⟩ := hc.instructions v hv
  rw [instr?, info?, hj] at hi
  obtain rfl := Option.some.inj hi
  rw [type?, info?, hj]
  rfl

theorem goes_code {c : Chunk} {leaves : Option Bool} (hc : c.Leaves calls t.symbols leaves)
    (hs : Shaped calls shape t.symbols) {b : Bool} (hb : ∀ x, leaves = some x → x = b) (n : Nat) :
    Goes shape labels c.code (n + c.deps.length) (n + b.toNat) := by
  cases hc with
  | entries hh =>
    obtain rfl := hb _ rfl
    exact goes_of_height labels (hh shape hs) n
  | never hcode hf he =>
    rw [hcode]
    exact goes_never hf he n _

theorem goes_instr (hg : ctx.graph.Valid) (hd : ctx.graph.Declared ctx.env)
    (h : Finished ctx calls entry symbols plans t) (hs : Shaped calls shape t.symbols)
    {p : Placement} (hp : p = .ofPlans ctx.graph policy plans) {q : Plan} (hq : q ∈ plans)
    {v : Value} {c : Chunk} (he : (v, c) ∈ q.instrs) (hlive : p.usage.isDead v = false)
    {stack rest : List Value} (ht : Takes p.kept stack c.deps rest c.isBarrier) :
    Goes shape labels (p.instr ctx.graph (v, c)) stack.length
      (if p.kept.contains v then rest ++ [v] else rest).length := by
  obtain ⟨hvb, s', t', ⟨-, i, hi, hval, hhas, hl, -⟩, -, htt⟩ := h.instr hq he
  have htype := hg.type_of_listed (h.mem_blocks hq) hvb hi
  rw [Placement.instr, hlive, Bool.false_or]
  split
  · -- A repeated constant has no dependencies, and its code stands elsewhere.
    rename_i hr
    obtain ⟨code, hcode⟩ := Option.isSome_iff_exists.mp hr
    obtain ⟨hnk, -, -, -, j, -, -, -, hj, hconst, -⟩ := repeated_cases hp hcode
    rw [hi] at hj
    obtain rfl := Option.some.inj hj
    have hdeps : c.deps = [] := deps_of_isConstant hval hl hconst
    have hstack : stack = rest := by simpa [hdeps] using ht.stack
    rw [if_neg (by simpa using hnk), hstack]
    exact goes_nil _
  · have hdeps := goes_deps labels h hs hp ht
    have hcode := goes_code labels (b := !i.operation.resultType.isVoid) hl.leaves
      (hs.mono htt) (fun x hx => by simp [hd i hhas x hx]) rest.length
    have hkept : i.operation.resultType.isVoid = true → p.kept.contains v = false := by
      intro hv
      rw [Bool.eq_false_iff, ne_eq, List.contains_iff_mem]
      intro hk
      rw [nonvoid_of_kept hp hk hi] at hv
      cases hv
    have hlen : (if p.kept.contains v then rest ++ [v] else rest).length
        = rest.length + (p.kept.contains v).toNat := by
      cases p.kept.contains v <;> simp
    rw [hlen, Placement.chunk, htype]
    exact (hdeps.append hcode).append (p.goes_result hkept rest.length)

theorem goes_instrs (hg : ctx.graph.Valid) (hd : ctx.graph.Declared ctx.env)
    (h : Finished ctx calls entry symbols plans t) (hs : Shaped calls shape t.symbols)
    {p : Placement} (hp : p = .ofPlans ctx.graph policy plans) {q : Plan} (hq : q ∈ plans)
    {es : List (Value × Chunk)} (he : ∀ e ∈ es, e ∈ q.instrs) {stack out : List Value}
    (hf : Plan.followInstrs p.kept stack (es.filter fun e => !p.usage.isDead e.1) = .ok out) :
    Goes shape labels (es.flatMap (p.instr ctx.graph)) stack.length out.length := by
  induction es generalizing stack with
  | nil =>
    obtain rfl := Except.ok.inj hf
    exact goes_nil _
  | cons e es ih =>
    obtain ⟨v, c⟩ := e
    rw [List.forall_mem_cons] at he
    rw [List.flatMap_cons]
    cases hdead : p.usage.isDead v
    · rw [List.filter_cons_of_pos (by simp [hdead])] at hf
      obtain ⟨rest, htake, hrest⟩ := followInstrs_cons.mp hf
      exact (goes_instr labels hg hd h hs hp hq he.1 hdead (takes_of_takeDeps htake)).append
        (ih he.2 hrest)
    · rw [List.filter_cons_of_neg (by simp [hdead])] at hf
      rw [Placement.instr, hdead]
      exact ih he.2 hf

end Placed

def Graph.level (g : Graph) (l : Label) : Nat :=
  if l = g.entry ∧ (g.predecessors g.entry).isEmpty then 0
  else
    match g.block? l with
    | some b => b.parameters.length
    | none => 0

section Transfers

variable {shape : Machine.Instr → Option (Nat × Nat)} {labels : Label → Nat}

theorem closes_ret {d : Nat} (hd : d ≤ 1) : Closes shape labels [.plain .ret] d := by
  rintro level (rfl | rfl)
  · exact ⟨by simp [Item.Fits], rfl⟩
  · refine ⟨?_, rfl⟩
    rintro e ⟨⟩
    exact ⟨d, 0, by simp [Item.exchangeAt, Opcode.effect, hd],
      Nat.le_refl _, by simp [Item.targets]⟩

theorem closes_throw (d : Nat) : Closes shape labels [.plain .ldnull, .plain .throw] d := by
  rintro level (rfl | rfl)
  · exact ⟨by simp [Item.Fits], by simp [Item.Fits, Item.next], rfl⟩
  · refine ⟨?_, ?_, rfl⟩
    · rintro e ⟨⟩
      exact ⟨0, 1, rfl, Nat.zero_le _, by simp [Item.targets]⟩
    · rintro e ⟨⟩
      exact ⟨1, 0, rfl, by simp, by simp [Item.targets]⟩

theorem closes_jump (l : Label) : Closes shape labels [.jump .br l] (labels l) := by
  rintro level (rfl | rfl)
  · exact ⟨by simp [Item.Fits], rfl⟩
  · refine ⟨?_, rfl⟩
    rintro e ⟨⟩
    exact ⟨0, 0, rfl, Nat.zero_le _, by simp [Item.targets]⟩

theorem closes_leave {l : Label} (hl : labels l = 0) (d : Nat) :
    Closes shape labels [.jump .leave l] d := by
  rintro level (rfl | rfl)
  · exact ⟨by simp [Item.Fits], rfl⟩
  · refine ⟨?_, rfl⟩
    rintro e ⟨⟩
    exact ⟨d, 0, rfl, Nat.le_refl _, by simp [Item.targets, hl]⟩

theorem goes_label (l : Label) : Goes shape labels [.label l] (labels l) (labels l) := by
  rintro level (rfl | rfl)
  · exact ⟨_, .inr rfl, by simp [Item.Fits], rfl⟩
  · exact ⟨_, .inr rfl, by simp [Item.Fits], rfl⟩

theorem goes_tryStart : Goes shape labels [.tryStart] 0 0 := by
  rintro level (rfl | rfl)
  · exact ⟨some 0, .inr rfl, by simp [Item.Fits], rfl⟩
  · exact ⟨some 0, .inr rfl, by simp [Item.Fits], rfl⟩

theorem goes_branch {o : Opcode} {l : Label} {d : Nat} (hf : o.flow = .conditional)
    (he : o.effect = .fixed d 0) (hl : labels l = 0) : Goes shape labels [.jump o l] d 0 := by
  have hfalls : (Item.jump o l).fallsThrough = true := by
    simp [Item.fallsThrough, Item.opcode?, Opcode.endsFlow, hf]
  rintro level (rfl | rfl)
  · exact ⟨none, .inl rfl, by simp [Item.Fits], by simp [Leads, Item.next]⟩
  · refine ⟨some 0, .inr rfl, ?_, ?_⟩
    · rintro e ⟨⟩
      exact ⟨d, 0, by simp [Item.exchangeAt, he], Nat.le_refl _, by simp [Item.targets, hl]⟩
    · simp [Leads, Item.next, hfalls, Item.exchangeAt, he]

theorem goes_switch {ls : List Label} (hl : ∀ l ∈ ls, labels l = 0) :
    Goes shape labels [.switch ls] 1 0 := by
  rintro level (rfl | rfl)
  · exact ⟨none, .inl rfl, by simp [Item.Fits], rfl⟩
  · refine ⟨some 0, .inr rfl, ?_, rfl⟩
    rintro e ⟨⟩
    exact ⟨1, 0, rfl, Nat.le_refl _, hl⟩

theorem goes_tests {ok : Label → Prop} (hok : ∀ l, ok l → labels l = 0) {code : List Item} {d : Nat}
    (h : Tests shape ok code d) : Goes shape labels code d 0 := by
  induction code generalizing d with
  | nil =>
    obtain rfl : d = 0 := h
    exact goes_nil 0
  | cons i code ih =>
    have hpassed : (∃ pops pushes, i.exchange? shape = some (pops, pushes) ∧ pops ≤ d
        ∧ Tests shape ok code (d - pops + pushes)) → Goes shape labels (i :: code) d 0 := by
      rintro ⟨pops, pushes, hx, hle, hrest⟩
      have hi : height shape [i] d = some (d - pops + pushes) := by simp [height, hx, hle]
      have hgo := goes_of_height labels hi 0
      simp only [Nat.zero_add] at hgo
      exact hgo.append (ih hrest)
    cases i with
    | jump o l =>
      obtain ⟨hf, he, hl, hrest⟩ := h
      exact (goes_branch hf he (hok l hl)).append (ih hrest)
    | switch ls =>
      obtain ⟨rfl, hl, hrest⟩ := h
      exact (goes_switch fun l hm => hok l (hl l hm)).append (ih hrest)
    | _ => exact hpassed h

end Transfers

section BlockLevels

variable {g : Graph} {b : Block} {l : Label}

theorem predecessors_ne_nil (hb : b ∈ g.blocks.toList) {br : Branch} (hbr : br ∈ b.flow.branches)
    (ht : br.target = l) : (g.predecessors l).isEmpty = false := by
  have hmem : b.label ∈ g.predecessors l := by
    refine List.mem_map.mpr ⟨b, List.mem_filter.mpr ⟨hb, ?_⟩, rfl⟩
    exact List.any_eq_true.mpr ⟨br, hbr, by simpa using ht⟩
  rw [List.isEmpty_eq_false_iff]
  exact List.ne_nil_of_mem hmem

theorem level_of_target (hb : b ∈ g.blocks.toList) {br : Branch} (hbr : br ∈ b.flow.branches)
    {t : Block} (ht : g.block? br.target = some t) : g.level br.target = t.parameters.length := by
  rw [Graph.level, if_neg, ht]
  rintro ⟨he, hp⟩
  rw [predecessors_ne_nil hb hbr he] at hp
  cases hp

theorem Block.Sends.level {result caught : Option Value} {args : List Value}
    (h : b.Sends g result caught l args) (hb : b ∈ g.blocks.toList) : g.level l = args.length := by
  obtain ⟨br, hbr, t, ht, rfl, -, hl⟩ := h
  rw [level_of_target hb hbr ht, hl]

theorem Block.Reaches.level (h : b.Reaches g l) (hb : b ∈ g.blocks.toList) : g.level l = 0 := by
  obtain ⟨br, hbr, t, ht, rfl, hp⟩ := h
  rw [level_of_target hb hbr ht, hp, List.length_nil]

theorem level_of_fresh (h : g.blocks.size ≤ l.id) : g.level l = 0 := by
  rw [Graph.level]
  split
  · rfl
  · rw [Graph.block?, Array.getElem?_eq_none h]

end BlockLevels

section FlowLevels

variable {ctx : Context} {calls : Opcode → Method → Prop} {entry : Block} {symbols : Symbols}
  {plans : List Plan} {t : Selection} {policy : Policy}
  {shape : Machine.Instr → Option (Nat × Nat)} {p : Placement} {b : Block} {stack : List Value}
  {alone : Bool}

theorem Takes.rest_nil {kept deps rest : List Value} (h : Takes kept [] deps rest alone) :
    rest = [] :=
  (List.append_eq_nil_iff.mp h.stack.symm).1

theorem goes_deps_alone (h : Finished ctx calls entry symbols plans t)
    (hs : Shaped calls shape t.symbols) (hp : p = .ofPlans ctx.graph policy plans)
    {deps : List Value} (ht : Takes p.kept stack deps [] alone) :
    Goes shape ctx.graph.level (deps.flatMap p.fetch) stack.length deps.length := by
  have := goes_deps ctx.graph.level h hs hp ht
  rwa [List.length_nil, Nat.zero_add] at this

theorem closes_chunkJump (h : Finished ctx calls entry symbols plans t)
    (hs : Shaped calls shape t.symbols) (hp : p = .ofPlans ctx.graph policy plans)
    (hb : b ∈ ctx.graph.blocks.toList) {result caught : Option Value} {target : Label}
    {args : List Value} (hsend : b.Sends ctx.graph result caught target args)
    (ht : Takes p.kept stack args [] alone) :
    Closes shape ctx.graph.level (p.chunk (.jump target args)) stack.length := by
  have hj : Closes shape ctx.graph.level _ _ := closes_jump target
  rw [hsend.level hb] at hj
  exact (goes_deps_alone h hs hp ht).closes hj

theorem closes_arms (h : Finished ctx calls entry symbols plans t)
    (hs : Shaped calls shape t.symbols) (hp : p = .ofPlans ctx.graph policy plans)
    (hb : b ∈ ctx.graph.blocks.toList) {result caught : Option Value} {arms : List Arm}
    (hsend : ∀ a ∈ arms, b.Sends ctx.graph result caught a.target a.args)
    (hfresh : ∀ a ∈ arms, ctx.graph.blocks.size ≤ a.label.id)
    (hf : Plan.followFlow p.kept [] false (arms.flatMap Arm.chunks) = .ok []) :
    Leads shape ctx.graph.level ((arms.flatMap Arm.chunks).flatMap p.chunk) none none
      ∧ (arms ≠ [] →
        Closes shape ctx.graph.level ((arms.flatMap Arm.chunks).flatMap p.chunk) 0) := by
  induction arms with
  | nil => exact ⟨rfl, fun h => absurd rfl h⟩
  | cons a arms ih =>
    rw [List.forall_mem_cons] at hsend hfresh
    rw [List.flatMap_cons, Arm.chunks] at hf ⊢
    obtain ⟨r₁, ht₁, hf⟩ := followFlow_cons.mp hf
    obtain rfl := (takes_of_takeDeps ht₁).rest_nil
    obtain ⟨r₂, ht₂, hf⟩ := followFlow_cons.mp hf
    obtain rfl := (takes_of_takeDeps ht₂).rest_nil
    have hrest := (ih hsend.2 hfresh.2 hf).1
    have hlabel : Goes shape ctx.graph.level _ _ _ := goes_label a.label
    rw [level_of_fresh hfresh.1] at hlabel
    have hjump := closes_chunkJump h hs hp hb hsend.1 (takes_of_takeDeps ht₂)
    have hclose : Closes shape ctx.graph.level
        (([Chunk.label a.label, Chunk.jump a.target a.args] ++ arms.flatMap Arm.chunks).flatMap
          p.chunk) 0 := by
      rw [List.flatMap_append, List.flatMap_cons, List.flatMap_singleton]
      exact (hlabel.closes hjump).append hrest
    exact ⟨hclose.leads, fun _ => hclose⟩

theorem goes_keep {labels : Label → Nat} (v : Option Value) :
    Goes shape labels [Select.keep v] 1 0 := by
  cases v with
  | none => exact goes_pop 0
  | some v => exact goes_store v 0

theorem leads_handler {labels : Label → Nat} {capture : List Item} {caught : Option Value}
    {type : Machine.Ref} {failed : Label} (hc : height shape capture 1 = some 1)
    (hl : labels failed = 0) :
    Leads shape labels (.handlerStart type :: capture
      ++ [Select.keep caught, .jump .leave failed, .handlerEnd]) none none := by
  refine ⟨rfl, ?_⟩
  have hcode : Closes shape labels (capture ++ ([Select.keep caught] ++ [.jump .leave failed])) 1 :=
    (goes_of_height labels hc 0).closes ((goes_keep caught).closes (closes_leave hl 0))
  have hend : Leads shape labels [.handlerEnd] none none := ⟨rfl, rfl⟩
  have := (hcode.append hend) (some 1) (.inr rfl)
  rwa [List.append_assoc, List.append_assoc] at this

theorem closes_flow (hd : ctx.graph.Declared ctx.env) (henv : ctx.env.captured.isVoid = false)
    (h : Finished ctx calls entry symbols plans t) (hs : Shaped calls shape t.symbols)
    (hp : p = .ofPlans ctx.graph policy plans) (hb : b ∈ ctx.graph.blocks.toList)
    {s' t' : Selection} {cs : List Chunk} (hflow : Flowed ctx calls b s' cs t')
    (hsize : ctx.graph.blocks.size ≤ s'.nextLabel) (htt : t'.Grows t)
    (hf : Plan.followFlow p.kept stack true cs = .ok []) :
    Closes shape ctx.graph.level (cs.flatMap p.chunk) stack.length := by
  cases hflow with
  | @ret v hret =>
    obtain ⟨rest, ht, -⟩ := followFlow_cons.mp hf
    obtain rfl := (takes_of_takeDeps ht).alone rfl
    rw [List.flatMap_singleton]
    refine (goes_deps_alone h hs hp (takes_of_takeDeps ht)).closes (closes_ret ?_)
    cases v <;> simp
  | stop hstop =>
    obtain ⟨rest, ht, -⟩ := followFlow_cons.mp hf
    obtain rfl := (takes_of_takeDeps ht).alone rfl
    rw [List.flatMap_singleton]
    exact (goes_deps_alone h hs hp (takes_of_takeDeps ht)).closes (closes_throw _)
  | jump hsend =>
    obtain ⟨rest, ht, -⟩ := followFlow_cons.mp hf
    obtain rfl := (takes_of_takeDeps ht).alone rfl
    rw [List.flatMap_singleton]
    exact closes_chunkJump h hs hp hb hsend (takes_of_takeDeps ht)
  | @test arms v cases fallback code direct _ hswitch hg hw htests hdirect harms =>
    obtain ⟨rest, ht, hf⟩ := followFlow_cons.mp hf
    obtain rfl := (takes_of_takeDeps ht).alone rfl
    -- Nothing lies on the stack at a new label, nor at a block that a test goes to directly.
    have hok : ∀ l, b.Open ctx.graph arms l → ctx.graph.level l = 0 := by
      rintro l (⟨a, ha, rfl⟩ | hr)
      · exact level_of_fresh (Nat.le_trans hsize (harms.fresh a ha).1)
      · exact hr.level hb
    rw [List.flatMap_cons, List.flatMap_append]
    refine ((goes_deps_alone h hs hp (takes_of_takeDeps ht)).append
      (goes_tests hok (htests shape))).closes ?_
    have hfresh : ∀ a ∈ arms, ctx.graph.blocks.size ≤ a.label.id := fun a ha =>
      Nat.le_trans hsize (harms.fresh a ha).1
    rcases hdirect with ⟨rfl, hne⟩ | ⟨target, args, rfl, hsend⟩
    · exact (closes_arms h hs hp hb harms.sends hfresh hf).2 hne
    · obtain ⟨rest, ht, hf⟩ := followFlow_cons.mp hf
      obtain rfl := (takes_of_takeDeps ht).rest_nil
      rw [List.flatMap_singleton]
      exact (closes_chunkJump h hs hp hb hsend (takes_of_takeDeps ht)).append
        (closes_arms h hs hp hb harms.sends hfresh hf).1
  | @protect risky success failure result caught chunk type capture done failed s₁ s₂ s₃ s₄ _ hprot
      hr hc hl harms hk hv hh =>
    have hfresh : ∀ a ∈ [done, failed], ctx.graph.blocks.size ≤ a.label.id := fun a ha =>
      Nat.le_trans hsize (Nat.le_trans (hr.1.trans hc.1).nextLabel (harms.fresh a ha).1)
    have hlevel : ∀ a ∈ [done, failed], ctx.graph.level a.label = 0 := fun a ha =>
      level_of_fresh (hfresh a ha)
    obtain ⟨hlast, -, hheight⟩ := capture_cases hh
    have hcapture : height shape capture 1 = some 1 :=
      hheight shape (hs.mono htt) fun _ => capture_left henv
    have hgrow : s₄.Grows t := hlast.trans htt
    -- The range starts with nothing on the stack.
    simp only [guardedChunks, List.cons_append, List.nil_append] at hf
    obtain ⟨r₁, ht₁, hf₁⟩ := followFlow_cons.mp hf
    obtain rfl := (takes_of_takeDeps ht₁).alone rfl
    obtain rfl : stack = [] := by simpa using (takes_of_takeDeps ht₁).stack
    obtain ⟨r₂, ht₂, hf₂⟩ := followFlow_cons.mp hf₁
    obtain rfl := (takes_of_takeDeps ht₂).rest_nil
    obtain ⟨r₃, ht₃, hf₃⟩ := followFlow_cons.mp hf₂
    obtain rfl := (takes_of_takeDeps ht₃).rest_nil
    have hrisky : Closes shape ctx.graph.level (chunk.deps.flatMap p.fetch
        ++ (chunk.code ++ (if risky.operation.resultType.isVoid then [] else [Select.keep result])
          ++ [.jump .leave done.label])) 0 := by
      refine (goes_deps_alone h hs hp (takes_of_takeDeps ht₂)).closes ?_
      have hcode := goes_code ctx.graph.level (b := !risky.operation.resultType.isVoid) hk.leaves
        (hs.mono hgrow) (fun x hx => by simp [hd risky
          (mem_instrs_of_protected hb (by rw [hprot]; rfl)) x hx]) 0
      rw [Nat.zero_add, Nat.zero_add] at hcode
      refine (hcode.append ?_).closes (closes_leave (hlevel done (by simp)) 0)
      cases risky.operation.resultType.isVoid
      · exact goes_keep result
      · exact goes_nil 0
    have harm := (closes_arms h hs hp hb harms.sends hfresh hf₃).1
    rw [List.flatMap_append]
    refine Closes.append ?_ harm
    rw [guardedChunks, List.flatMap_cons, List.flatMap_cons, List.flatMap_singleton]
    refine (goes_tryStart.closes hrisky).append ?_
    exact leads_handler hcapture (hlevel failed (by simp))

end FlowLevels

section Streams

variable {ctx : Context} {calls : Opcode → Method → Prop} {entry : Block} {symbols : Symbols}
  {plans : List Plan} {t : Selection} {policy : Policy}
  {shape : Machine.Instr → Option (Nat × Nat)} {p : Placement}

theorem Graph.Valid.block?_label {g : Graph} (hg : g.Valid) {b : Block}
    (hb : b ∈ g.blocks.toList) : g.block? b.label = some b :=
  hg.coherent.block?_label hb

theorem goes_stores {labels : Label → Nat} {items : List Item} (n : Nat)
    (h : ∀ i ∈ items, ∀ n, Goes shape labels [i] (n + 1) n) :
    Goes shape labels items (n + items.length) n := by
  induction items generalizing n with
  | nil => exact goes_nil n
  | cons i items ih =>
    rw [List.forall_mem_cons] at h
    have hi := h.1 (n + items.length)
    rw [Nat.add_assoc, ← List.length_cons (a := i)] at hi
    exact hi.append (ih n h.2)

theorem goes_arrivals (hg : ctx.graph.Valid) {b : Block} (hb : b ∈ ctx.graph.blocks.toList) :
    Goes shape ctx.graph.level (p.arrivals ctx.graph b) (ctx.graph.level b.label) 0 := by
  rw [Placement.arrivals, Graph.level, hg.block?_label hb]
  by_cases he : b.label = ctx.graph.entry ∧ (ctx.graph.predecessors ctx.graph.entry).isEmpty
  · rw [if_pos he, if_pos (by simpa using he)]
    exact goes_nil 0
  · rw [if_neg he, if_neg (by simpa using he)]
    have hlen : ∀ f : Parameter → Item, b.parameters.length
        = 0 + (b.parameters.reverse.map f).length := by simp
    dsimp only
    rw [hlen]
    refine goes_stores 0 ?_
    intro i hi n
    obtain ⟨q, -, rfl⟩ := List.mem_map.mp hi
    split
    · exact goes_store q.value n
    · exact p.goes_settle q.value n

theorem closes_block (hg : ctx.graph.Valid) (hd : ctx.graph.Declared ctx.env)
    (henv : ctx.env.captured.isVoid = false) (h : Finished ctx calls entry symbols plans t)
    (hs : Shaped calls shape t.symbols) (hp : p = .ofPlans ctx.graph policy plans) {q : Plan}
    (hq : q ∈ plans) :
    Closes shape ctx.graph.level (p.block ctx.graph q) (ctx.graph.level q.block.label) := by
  have hb := h.mem_blocks hq
  obtain ⟨s', t', hflow, hs', ht'⟩ := h.flow hq
  have hkept : p.kept = keptValues ctx.graph policy p.usage plans := by
    rw [hp]
    rfl
  obtain ⟨stack, hinstrs, hfollow⟩ : ∃ stack,
      Plan.followInstrs p.kept [] (q.live p.usage) = .ok stack
        ∧ Plan.followFlow p.kept stack true q.flow = .ok [] := by
    rw [hkept]
    exact follow_keptValues hq
  have hlabel : Goes shape ctx.graph.level _ _ _ := goes_label q.block.label
  have hcode := goes_instrs ctx.graph.level hg hd h hs hp hq (fun e he => he) hinstrs
  have hclose := closes_flow hd henv h hs hp hb hflow hs'.nextLabel ht' hfollow
  exact ((hlabel.append (goes_arrivals hg hb)).append hcode).closes hclose

theorem goes_loads {labels : Label → Nat} (vs : List Value) (n : Nat) :
    Goes shape labels (vs.map .load) n (n + vs.length) := by
  induction vs generalizing n with
  | nil => exact goes_nil n
  | cons v vs ih =>
    rw [List.length_cons, Nat.add_comm vs.length, ← Nat.add_assoc]
    exact (goes_load v n).append (ih (n + 1))

theorem Graph.Valid.entry_label {g : Graph} (hg : g.Valid) {entry : Block}
    (he : g.block? g.entry = some entry) : entry.label = g.entry :=
  (hg.coherent g.entry.id entry he).label

theorem goes_preheader (hg : ctx.graph.Valid) (he : ctx.graph.block? ctx.graph.entry = some entry) :
    Goes shape ctx.graph.level (ctx.graph.preheader entry) 0 (ctx.graph.level entry.label) := by
  rw [Graph.preheader, Graph.level, hg.entry_label he, he]
  split
  · rename_i hp
    rw [if_pos ⟨rfl, hp⟩]
    exact goes_nil 0
  · rename_i hp
    rw [if_neg fun h => hp h.2]
    have hloads : Goes shape ctx.graph.level _ _ _ :=
      goes_loads (entry.parameters.map Parameter.value) 0
    rwa [List.map_map, List.length_map, Nat.zero_add] at hloads

theorem leads_closed {labels : Label → Nat} {parts : List (List Item)}
    (h : ∀ x ∈ parts, Leads shape labels x none none) :
    Leads shape labels parts.flatten none none := by
  induction parts with
  | nil => rfl
  | cons x parts ih =>
    rw [List.forall_mem_cons] at h
    exact leads_append.mpr ⟨none, h.1, ih h.2⟩

theorem leads_stream (hg : ctx.graph.Valid) (hd : ctx.graph.Declared ctx.env)
    (henv : ctx.env.captured.isVoid = false) (h : Finished ctx calls entry symbols plans t)
    (hs : Shaped calls shape t.symbols) (hp : p = .ofPlans ctx.graph policy plans) :
    Leads shape ctx.graph.level (ctx.graph.preheader entry ++ plans.flatMap (p.block ctx.graph))
      (some 0) none := by
  have hblock := fun q (hq : q ∈ plans) => closes_block hg hd henv h hs hp hq
  obtain ⟨q, qs, hplans, hq⟩ := h.head
  rw [hplans, List.forall_mem_cons, hq] at hblock
  rw [hplans, List.flatMap_cons]
  refine ((goes_preheader hg h.start).closes (hblock.1.append ?_)) (some 0) (.inr rfl)
  refine leads_closed ?_
  intro x hx
  obtain ⟨q', hq', rfl⟩ := List.mem_map.mp hx
  exact (hblock.2 q' hq').leads

end Streams

end StackCode
