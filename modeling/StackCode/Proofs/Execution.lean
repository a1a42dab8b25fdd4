import Mathlib.Logic.Function.Basic
import Mathlib.Logic.Relation
import StackCode.Proofs.Heights
import StackCode.Proofs.Paths

/-!
Executions of a stream, over words of any kind. Beside the stack and the cells, a state remembers
the current value of each value of the graph. Notes between the items say where these change and
where the own code of a chunk starts. They are not part of the stream and have no effect on it.
-/

namespace StackCode

open Machine (Opcode)

/-- Where the own code of a chunk starts, with the chunks behind it in its block, where the topmost
entry becomes the value of `v`, where `v` is whatever the code of a constant pushes, and where the
parameters of a block get the values of the arguments, all at once. -/
inductive Note where
  | chunk (c : Chunk) (alone : Bool) (later : List Chunk)
  | produce (v : Value)
  | constant (v : Value) (code : List Item)
  | pass (parameters args : List Value)

inductive Event where
  | item (i : Item)
  | note (n : Note)

def Event.item? : Event → Option Item
  | .item i => some i
  | .note _ => none

def itemsOf (es : List Event) : List Item := es.filterMap Event.item?

def Graph.parametersOf (g : Graph) (l : Label) : List Value :=
  match g.block? l with
  | some b => b.parameters.map Parameter.value
  | none => []

/-- An item of the own code of a chunk. It gives values to the scratch values that it stores, and an
unconditional jump passes the arguments of its leg to the parameters of a block. -/
def Item.events (g : Graph) (leg : Option Leg) (i : Item) : List Event :=
  match i, leg with
  | .store v, _ => [.note (.produce v), .item i]
  | .jump .br _, some (l, args) => [.note (.pass (g.parametersOf l) args), .item i]
  | _, _ => [.item i]

def Chunk.events (g : Graph) (c : Chunk) (leg : Option Leg) : List Event :=
  c.code.flatMap (Item.events g leg)

def Chunk.stored? (c : Chunk) : Option Value :=
  c.code.findSome? fun
    | .store v => some v
    | _ => none

/-- Where the branches of the graph go that are taken at the jumps of a plan, and what they pass.
The outcome of a protected instruction is what its chunk stores, and an exception what the handler
stores. -/
def Plan.legs (q : Plan) : List Leg :=
  match q.block.flow, q.flow with
  | .protect _ success failure, _ :: range :: handler :: _ =>
    [(success.target, Select.boundArgs range.stored? none success),
      (failure.target, Select.boundArgs none handler.stored? failure)]
  | flow, _ => flow.legs.map Branch.passes

def withLegs (legs : List Leg) :
    List Chunk → List (Chunk × Option Leg)
  | [] => []
  | c :: cs =>
    if c.leg?.isSome then (c, legs.head?) :: withLegs legs.tail cs
    else (c, none) :: withLegs legs cs

namespace Placement

variable (p : Placement) (g : Graph)

def chunkEvents (c : Chunk) (leg : Option Leg) (alone : Bool)
    (later : List Chunk) : List Event :=
  (c.deps.flatMap p.fetch).map .item ++ .note (.chunk c alone later) :: c.events g leg

def resultEvents (v : Value) : List Event :=
  match g.type? v with
  | none | some .void => []
  | some _ => .note (.produce v) :: if p.kept.contains v then [] else [.item (p.settle v)]

def instrEvents (e : Value × Chunk) (later : List Chunk) : List Event :=
  if p.usage.isDead e.1 then []
  else
    match p.repeated.lookup e.1 with
    | some code => [.note (.constant e.1 code)]
    | none => p.chunkEvents g e.2 none e.2.isBarrier later ++ p.resultEvents g e.1

def instrsEvents (flow : List Chunk) : List (Value × Chunk) → List Event
  | [] => []
  | e :: es =>
    p.instrEvents g e ((es.filter fun e => !p.usage.isDead e.1).map Prod.snd ++ flow)
      ++ instrsEvents flow es

def flowEvents (first : Bool) : List (Chunk × Option Leg) → List Event
  | [] => []
  | (c, leg) :: cs =>
    p.chunkEvents g c leg (first || c.isBarrier) (cs.map Prod.fst) ++ flowEvents false cs

def blockEvents (q : Plan) : List Event :=
  .item (.label q.block.label) :: (p.arrivals g q.block).map .item
    ++ p.instrsEvents g q.flow q.instrs ++ p.flowEvents g true (withLegs q.legs q.flow)

def events (entry : Block) (plans : List Plan) : List Event :=
  (g.preheader entry).map .item ++ plans.flatMap (p.blockEvents g)

end Placement

section Items

variable {p : Placement} {g : Graph}

@[simp] theorem itemsOf_nil : itemsOf [] = [] := rfl

@[simp] theorem itemsOf_item (i : Item) (es : List Event) :
    itemsOf (.item i :: es) = i :: itemsOf es := rfl

@[simp] theorem itemsOf_note (n : Note) (es : List Event) :
    itemsOf (.note n :: es) = itemsOf es := rfl

@[simp] theorem itemsOf_append (xs ys : List Event) :
    itemsOf (xs ++ ys) = itemsOf xs ++ itemsOf ys := List.filterMap_append ..

@[simp] theorem itemsOf_map (items : List Item) : itemsOf (items.map .item) = items := by
  induction items with
  | nil => rfl
  | cons i items ih => rw [List.map_cons, itemsOf_item, ih]

theorem Item.itemsOf_events (leg : Option Leg) (i : Item) :
    itemsOf (i.events g leg) = [i] := by
  unfold Item.events
  split <;> rfl

theorem itemsOf_code (leg : Option Leg) (code : List Item) :
    itemsOf (code.flatMap (Item.events g leg)) = code := by
  induction code with
  | nil => rfl
  | cons i code ih =>
    rw [List.flatMap_cons, itemsOf_append, ih, i.itemsOf_events, List.singleton_append]

@[simp] theorem itemsOf_chunk (c : Chunk) (leg : Option Leg) :
    itemsOf (c.events g leg) = c.code :=
  itemsOf_code leg c.code

theorem Item.events_of_ne {leg : Option Leg} {i : Item} (hs : ∀ v, i ≠ .store v)
    (hj : ∀ l, i ≠ .jump .br l) : i.events g leg = [.item i] := by
  unfold Item.events
  split
  · exact absurd rfl (hs _)
  · exact absurd rfl (hj _)
  · rfl

theorem events_straight {leg : Option Leg} {code : List Item}
    (hs : ∀ v, .store v ∉ code) (ht : ∀ i ∈ code, i.targets = []) :
    code.flatMap (Item.events g leg) = code.map .item := by
  induction code with
  | nil => rfl
  | cons i code ih =>
    rw [List.forall_mem_cons] at ht
    rw [List.flatMap_cons, ih (fun v hv => hs v (by simp [hv])) ht.2, List.map_cons,
      Item.events_of_ne, List.singleton_append]
    · rintro v rfl
      exact hs v List.mem_cons_self
    · rintro l rfl
      cases ht.1

@[simp] theorem itemsOf_chunkEvents (c : Chunk) (leg : Option Leg) (alone : Bool)
    (later : List Chunk) : itemsOf (p.chunkEvents g c leg alone later) = p.chunk c := by
  simp [Placement.chunkEvents, Placement.chunk]

theorem itemsOf_resultEvents (v : Value) : itemsOf (p.resultEvents g v) =
    match g.type? v with
    | none | some .void => []
    | some _ => if p.kept.contains v then [] else [p.settle v] := by
  rw [Placement.resultEvents]
  cases g.type? v with
  | none => rfl
  | some type => cases type <;> first | rfl | (cases p.kept.contains v <;> rfl)

theorem resultEvents_void {type : Ty} {v : Value} (h : g.type? v = some type)
    (hv : type.isVoid = true) : p.resultEvents g v = [] := by
  rw [Placement.resultEvents, h]
  cases type <;> first | rfl | cases hv

theorem resultEvents_value {type : Ty} {v : Value} (h : g.type? v = some type)
    (hv : type.isVoid = false) : p.resultEvents g v
      = .note (.produce v) :: if p.kept.contains v then [] else [.item (p.settle v)] := by
  rw [Placement.resultEvents, h]
  cases type <;> first | rfl | cases hv

theorem instrEvents_dead {v : Value} (h : p.usage.isDead v = true) (c : Chunk)
    (later : List Chunk) : p.instrEvents g (v, c) later = [] := by
  rw [Placement.instrEvents, if_pos h]

theorem instrEvents_repeated {v : Value} {code : List Item} (h : p.usage.isDead v = false)
    (hr : p.repeated.lookup v = some code) (c : Chunk) (later : List Chunk) :
    p.instrEvents g (v, c) later = [.note (.constant v code)] := by
  simp [Placement.instrEvents, h, hr]

theorem instrEvents_placed {v : Value} (h : p.usage.isDead v = false)
    (hr : p.repeated.lookup v = none) (c : Chunk) (later : List Chunk) :
    p.instrEvents g (v, c) later
      = p.chunkEvents g c none c.isBarrier later ++ p.resultEvents g v := by
  simp [Placement.instrEvents, h, hr]

theorem itemsOf_instrEvents (e : Value × Chunk) (later : List Chunk) :
    itemsOf (p.instrEvents g e later) = p.instr g e := by
  rw [Placement.instrEvents, Placement.instr]
  by_cases hd : p.usage.isDead e.1 = true
  · simp [hd]
  · cases hr : p.repeated.lookup e.1 with
    | some code => simp [hd]
    | none =>
      rw [if_neg hd, if_neg (by simpa using hd), itemsOf_append, itemsOf_chunkEvents]
      exact congrArg (p.chunk e.2 ++ ·) (itemsOf_resultEvents e.1)

theorem itemsOf_instrsEvents (flow : List Chunk) (es : List (Value × Chunk)) :
    itemsOf (p.instrsEvents g flow es) = es.flatMap (p.instr g) := by
  induction es with
  | nil => rfl
  | cons e es ih =>
    rw [Placement.instrsEvents, itemsOf_append, itemsOf_instrEvents, ih, List.flatMap_cons]

theorem itemsOf_flowEvents (first : Bool) (cs : List (Chunk × Option Leg)) :
    itemsOf (p.flowEvents g first cs) = (cs.map Prod.fst).flatMap p.chunk := by
  induction cs generalizing first with
  | nil => rfl
  | cons c cs ih =>
    rw [Placement.flowEvents, itemsOf_append, itemsOf_chunkEvents, ih, List.map_cons,
      List.flatMap_cons]

theorem map_withLegs (legs : List Leg) (cs : List Chunk) :
    (withLegs legs cs).map Prod.fst = cs := by
  induction cs generalizing legs with
  | nil => rfl
  | cons c cs ih =>
    rw [withLegs]
    split <;> rw [List.map_cons, ih]

theorem itemsOf_blockEvents (q : Plan) : itemsOf (p.blockEvents g q) = p.block g q := by
  simp [Placement.blockEvents, Placement.block, itemsOf_instrsEvents, itemsOf_flowEvents,
    map_withLegs]

theorem itemsOf_plans (plans : List Plan) :
    itemsOf (plans.flatMap (p.blockEvents g)) = plans.flatMap (p.block g) := by
  induction plans with
  | nil => rfl
  | cons q plans ih => simp [itemsOf_blockEvents, ih]

theorem itemsOf_events (entry : Block) (plans : List Plan) :
    itemsOf (p.events g entry plans) = g.preheader entry ++ plans.flatMap (p.block g) := by
  rw [Placement.events, itemsOf_append, itemsOf_map, itemsOf_plans]

end Items

def leading : List Event → List Note
  | .note n :: es => n :: leading es
  | _ => []

def arrival : List Event → Nat → List Event
  | es, 0 => es
  | [], _ => []
  | .item _ :: es, n + 1 => arrival es n
  | .note _ :: es, n + 1 => arrival es (n + 1)

namespace Execution

structure State (W : Type) where
  stack : List W
  cells : Value → W
  current : Value → Option W
  thrown : Option W

/-- What the machine leaves open. -/
structure Meaning (W : Type) where
  shape : Machine.Instr → Option (Nat × Nat)
  literal : Machine.Instr → List W → W
  exposed : Value → Prop

variable {W : Type}

def literals (literal : Machine.Instr → List W → W) : List Item → List W → List W
  | .op j :: code, stack =>
    match j.opcode.effect with
    | .fixed pops _ =>
      literals literal code (stack.take (stack.length - pops)
        ++ [literal j (stack.drop (stack.length - pops))])
    | _ => literals literal code stack
  | _ :: code, stack => literals literal code stack
  | [], stack => stack

variable (m : Meaning W)

def State.note (σ : State W) : Note → State W
  | .chunk _ _ _ => σ
  | .produce v => { σ with current := Function.update σ.current v σ.stack.getLast? }
  | .constant v code =>
    { σ with current := Function.update σ.current v (literals m.literal code []).getLast? }
  | .pass parameters args =>
    { σ with current := fun v =>
        match (parameters.zip args).lookup v with
        | some a => σ.current a
        | none => σ.current v }

def State.noted (σ : State W) (notes : List Note) : State W := notes.foldl (State.note m) σ

def State.throw (σ : State W) (e : W) : State W := { σ with stack := [e], thrown := some e }

def Yields (i : Item) (σ : State W) (taken results : List W) : Prop :=
  match i with
  | .load v => results = [σ.cells v]
  | .op j => j.opcode.isLiteral = true → results = [m.literal j taken]
  | _ => True

def Writes (i : Item) (σ τ : State W) : Prop :=
  match i with
  | .store v => τ.cells = Function.update σ.cells v (σ.stack.getLast?.getD (σ.cells v))
  | .op _ => ∀ v, τ.cells v = σ.cells v ∨ m.exposed v
  | _ => τ.cells = σ.cells

/-- An item runs. It never gets stuck. Where the stack is too short, all of it is taken. -/
structure Acts (i : Item) (σ τ : State W) : Prop where
  stack : ∃ pops pushes results,
    (i.exchangeAt m.shape σ.stack.length).getD (0, 0) = (pops, pushes)
      ∧ results.length = pushes
      ∧ Yields m i σ (σ.stack.drop (σ.stack.length - pops)) results
      ∧ τ.stack = σ.stack.take (σ.stack.length - pops) ++ results
  cells : Writes m i σ τ
  current : τ.current = σ.current
  thrown : τ.thrown = none

inductive Moves (items : List Item) : Nat → State W → Nat → State W → Prop where
  | run {n k : Nat} {i : Item} {σ τ : State W} (hi : items[n]? = some i) (hf : Follows items n k)
      (ha : Acts m i σ τ) : Moves items n σ k τ
  | throwBefore {n h : Nat} {σ : State W} (e : W) (ht : Throws items n h) :
      Moves items n σ h (σ.throw e)
  | throwAfter {n h : Nat} {i : Item} {σ τ : State W} (e : W) (hi : items[n]? = some i)
      (ht : Throws items n h) (ha : Acts m i σ τ) : Moves items n σ h (τ.throw e)

def Step (events : List Event) (a b : Nat × State W) : Prop :=
  Moves m (itemsOf events) a.1 (a.2.noted m (leading (arrival events a.1))) b.1 b.2

section Stepping

theorem effect_of_isLiteral {o : Opcode} (h : o.isLiteral = true) :
    ∃ pops, o.effect = .fixed pops 1 ∧ o.flow = .next := by
  cases o <;> first | exact ⟨_, rfl, rfl⟩ | cases h

theorem exists_yields [Nonempty W] (i : Item) (σ : State W) (pops pushes : Nat)
    (taken : List W) (hx : (i.exchangeAt m.shape σ.stack.length).getD (0, 0) = (pops, pushes)) :
    ∃ results : List W, results.length = pushes ∧ Yields m i σ taken results := by
  obtain ⟨w⟩ := ‹Nonempty W›
  cases i with
  | load v =>
    obtain ⟨-, rfl⟩ := Prod.mk.inj hx
    exact ⟨[σ.cells v], rfl, rfl⟩
  | op j =>
    cases hj : j.opcode.isLiteral with
    | true =>
      obtain ⟨n, he, -⟩ := effect_of_isLiteral hj
      simp only [Item.exchangeAt, he, Option.getD_some] at hx
      obtain ⟨-, rfl⟩ := Prod.mk.inj hx
      exact ⟨[m.literal j taken], rfl, fun _ => rfl⟩
    | false =>
      refine ⟨List.replicate pushes w, List.length_replicate, fun h => ?_⟩
      rw [hj] at h
      cases h
  | _ => exact ⟨List.replicate pushes w, List.length_replicate, trivial⟩

theorem exists_acts [Nonempty W] (i : Item) (σ : State W) : ∃ τ, Acts m i σ τ := by
  obtain ⟨pops, pushes, hx⟩ : ∃ pops pushes,
      (i.exchangeAt m.shape σ.stack.length).getD (0, 0) = (pops, pushes) := ⟨_, _, rfl⟩
  obtain ⟨results, hr, hy⟩ := exists_yields m i σ pops pushes
    (σ.stack.drop (σ.stack.length - pops)) hx
  have hcells : ∃ cells, ∀ τ : State W, τ.cells = cells → Writes m i σ τ := by
    cases i with
    | store v => exact ⟨_, fun τ h => h⟩
    | op j => exact ⟨σ.cells, fun τ h v => .inl (by rw [h])⟩
    | _ => exact ⟨σ.cells, fun τ h => h⟩
  obtain ⟨cells, hcells⟩ := hcells
  exact ⟨⟨_, cells, σ.current, none⟩, ⟨pops, pushes, results, hx, hr, hy, rfl⟩, hcells _ rfl, rfl,
    rfl⟩

theorem exists_step [Nonempty W] {events : List Event} {n k : Nat}
    (h : Follows (itemsOf events) n k ∨ Throws (itemsOf events) n k) (σ : State W) :
    ∃ τ, Step m events (n, σ) (k, τ) := by
  rcases h with h | h
  · obtain ⟨i, hi⟩ : ∃ i, (itemsOf events)[n]? = some i := by
      cases h with
      | next hi => exact ⟨_, hi⟩
      | jump hi => exact ⟨_, hi⟩
    obtain ⟨τ, hτ⟩ := exists_acts m i (σ.noted m (leading (arrival events n)))
    exact ⟨τ, .run hi h hτ⟩
  · obtain ⟨w⟩ := ‹Nonempty W›
    exact ⟨_, .throwBefore w h⟩

end Stepping

end Execution

end StackCode
