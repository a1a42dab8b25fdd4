import StackCode.Schedule.Unused

/-!
Values that stay on the stack between the chunk that computes them and the only chunk that reads
them. The stack of each block is followed with all candidates kept. Those that do not lie where
their reader needs them are stored instead, and the blocks are followed again.
-/

namespace StackCode

variable (g : Graph) (policy : Policy) (u : Usage)

namespace Plan

def live (p : Plan) : List (Value × Chunk) :=
  p.instrs.filter fun e => !u.isDead e.1

def readsEarly (p : Plan) (v : Value) : Bool :=
  ((p.live u).map Prod.snd ++ p.flow.take 1).any (·.deps.contains v)

def candidates (p : Plan) : List Value :=
  (p.live u).map Prod.fst |>.filter fun v =>
    match g.instr? v with
    | some i =>
      u.count v = 1 && !i.operation.resultType.isVoid && !policy i && p.readsEarly u v
    | none => false

end Plan

/-- Takes the kept values among `deps` from the stack, whose top is its last entry. They have to be
the first of `deps` and to lie on top in their order; with `alone`, nothing may lie below them.
Otherwise, gives the values that are in the way. -/
def takeDeps (kept : List Value) (stack deps : List Value) (alone : Bool) :
    Except (List Value) (List Value) :=
  let first := deps.takeWhile kept.contains
  let late := (deps.dropWhile kept.contains).filter kept.contains
  let rest := stack.length - first.length
  if late ≠ [] then .error late
  else if stack.length < first.length || stack.drop rest ≠ first then .error first
  else if alone && 0 < rest then .error (stack.take rest)
  else .ok (stack.take rest)

namespace Plan

def followInstrs (kept : List Value) (stack : List Value) :
    List (Value × Chunk) → Except (List Value) (List Value)
  | [] => .ok stack
  | (v, c) :: rest =>
    match takeDeps kept stack c.deps c.isBarrier with
    | .error vs => .error vs
    | .ok stack => followInstrs kept (if kept.contains v then stack ++ [v] else stack) rest

def followFlow (kept : List Value) (stack : List Value) (first : Bool) :
    List Chunk → Except (List Value) (List Value)
  | [] => .ok stack
  | c :: rest =>
    match takeDeps kept stack c.deps (first || c.isBarrier) with
    | .error vs => .error vs
    | .ok stack => followFlow kept stack false rest

def misfits (p : Plan) (kept : List Value) : List Value :=
  match followInstrs kept [] (p.live u) with
  | .error vs => vs
  | .ok stack =>
    match followFlow kept stack true p.flow with
    | .error vs => vs
    | .ok stack => stack

end Plan

def firstMisfits (kept : List Value) : List Plan → List Value
  | [] => []
  | p :: ps =>
    match p.misfits u kept with
    | [] => firstMisfits kept ps
    | vs => vs

def withoutMisfits (plans : List Plan) (kept : List Value) : List Value :=
  let misfits := firstMisfits u kept plans
  kept.filter fun v => !misfits.contains v

def demote (plans : List Plan) (kept : List Value) : List Value :=
  let fewer := withoutMisfits u plans kept
  if fewer.length < kept.length then demote plans fewer else kept
termination_by kept.length

def keptValues (plans : List Plan) : List Value :=
  demote u plans (plans.flatMap (Plan.candidates g policy u))

end StackCode
