import StackCode.Schedule.Kept

/-!
Schedules: one stream for all blocks of a method, with the values it reads and writes by name.
Parameters of a block arrive on the stack and are stored at once, the last one first. Those of the
entry are the arguments of the method. If control can come back to the entry, they are pushed before
it, like the arguments of a branch.
-/

namespace StackCode

open Machine (Opcode)

structure Schedule where
  items : List Item
  parameters : List (Value × Ty)
  pooled : List (Value × Ty)
  temporaries : List (Value × Ty)
deriving DecidableEq

namespace Schedule

def accesses (s : Schedule) : Nat :=
  s.items.countP fun i => i.register?.isSome

def lines (s : Schedule) : List String :=
  s.items.map Item.text

end Schedule

structure Placement where
  usage : Usage
  kept : List Value
  repeated : List (Value × List Item)
deriving DecidableEq

def repeatable (g : Graph) (policy : Policy) (u : Usage) (kept : List Value) (plans : List Plan) :
    List (Value × List Item) :=
  (plans.flatMap (Plan.live u)).filterMap fun (v, c) =>
    match g.instr? v with
    | some i =>
      if !kept.contains v && c.deps.isEmpty && c.code.all (·.register?.isNone)
          && i.operation.isConstant && !policy i then some (v, c.code)
      else none
    | none => none

def Placement.ofPlans (g : Graph) (policy : Policy) (plans : List Plan) : Placement :=
  let usage := Usage.settle g plans
  let kept := keptValues g policy usage plans
  ⟨usage, kept, repeatable g policy usage kept plans⟩

namespace Placement

variable (p : Placement)

def fetch (v : Value) : List Item :=
  if p.kept.contains v then []
  else
    match p.repeated.lookup v with
    | some code => code
    | none => [.load v]

def chunk (c : Chunk) : List Item :=
  c.deps.flatMap p.fetch ++ c.code

def settle (v : Value) : Item :=
  if 0 < p.usage.count v then .store v else .plain .pop

def instr (g : Graph) (e : Value × Chunk) : List Item :=
  if p.usage.isDead e.1 || (p.repeated.lookup e.1).isSome then []
  else
    p.chunk e.2 ++
      match g.type? e.1 with
      | none | some .void => []
      | some _ => if p.kept.contains e.1 then [] else [p.settle e.1]

def arrivals (g : Graph) (b : Block) : List Item :=
  let isEntry := b.label = g.entry
  if isEntry && (g.predecessors g.entry).isEmpty then []
  else b.parameters.reverse.map fun q => if isEntry then .store q.value else p.settle q.value

def block (g : Graph) (plan : Plan) : List Item :=
  .label plan.block.label :: p.arrivals g plan.block
    ++ plan.instrs.flatMap (p.instr g) ++ plan.flow.flatMap p.chunk

end Placement

def Graph.preheader (g : Graph) (entry : Block) : List Item :=
  if (g.predecessors g.entry).isEmpty then []
  else entry.parameters.map fun q => .load q.value

def pooledValues (g : Graph) (excluded : List Value) :
    List Value → Except CompileError (List (Value × Ty))
  | [] => .ok []
  | v :: vs =>
    if excluded.contains v then pooledValues g excluded vs
    else
      match g.type? v with
      | none => .error (.internal (.untypedRegister v))
      | some t =>
        match pooledValues g (v :: excluded) vs with
        | .error e => .error e
        | .ok rest => .ok ((v, t) :: rest)

namespace Schedule

def ofPlans (g : Graph) (policy : Policy) (entry : Block) (plans : List Plan)
    (temporaries : List (Value × Ty)) : Except CompileError Schedule :=
  let p := Placement.ofPlans g policy plans
  let items := g.preheader entry ++ plans.flatMap (p.block g)
  let accessed := items.filterMap Item.register?
  let parameters := entry.parameters.map fun q => (q.value, q.type)
  let temporaries := temporaries.filter fun t => accessed.contains t.1
  match pooledValues g ((parameters ++ temporaries).map Prod.fst) accessed with
  | .error e => .error e
  | .ok pooled => .ok ⟨items, parameters, pooled, temporaries⟩

end Schedule

namespace Select

def schedule (ctx : Context) (policy : Policy) : Select Schedule := do
  match ctx.graph.block? ctx.graph.entry with
  | none => throw (.crash .missingEntry)
  | some entry =>
    let plans ← plans ctx entry
    ofExcept (Schedule.ofPlans ctx.graph policy entry plans (← get).temporaries)

end Select

end StackCode
