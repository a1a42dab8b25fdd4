import StackCode.Schedule.Plan
import StackCode.Weight

namespace StackCode

abbrev Counts := List (Value × Nat)

namespace Counts

def get (c : Counts) (v : Value) : Nat :=
  (c.lookup v).getD 0

def update (v : Value) (f : Nat → Nat) : Counts → Counts
  | [] => [(v, f 0)]
  | (w, n) :: c => if w = v then (w, f n) :: c else (w, n) :: update v f c

def add (c : Counts) (vs : List Value) : Counts :=
  vs.foldl (fun c v => c.update v (· + 1)) c

def remove (c : Counts) (vs : List Value) : Counts :=
  vs.foldl (fun c v => c.update v (· - 1)) c

end Counts

structure Usage where
  counts : Counts
  dead : List Value
deriving DecidableEq

namespace Usage

def count (u : Usage) (v : Value) : Nat := u.counts.get v

def isDead (u : Usage) (v : Value) : Bool := u.dead.contains v

def ofPlans (plans : List Plan) : Usage :=
  ⟨Counts.add [] (plans.flatMap fun p => p.chunks.flatMap Chunk.deps), []⟩

def drop (u : Usage) (v : Value) (deps : List Value) : Usage :=
  ⟨u.counts.remove deps, v :: u.dead⟩

def removable (canGo : Value → Bool) (u : Usage) (v : Value) : Bool :=
  u.count v = 0 && !u.isDead v && canGo v

def cost (u : Usage) (e : Value × Chunk) : Nat :=
  if u.isDead e.1 then 0 else e.2.deps.length + 1

theorem cost_drop_le (u : Usage) (v : Value) (deps : List Value) (e : Value × Chunk) :
    (u.drop v deps).cost e ≤ u.cost e := by
  by_cases h : e.1 ∈ u.dead
  · simp [cost, isDead, drop, h]
  · by_cases hv : e.1 = v <;> simp_all [cost, isDead, drop]

theorem cost_drop_self (u : Usage) (v : Value) (c : Chunk) :
    (u.drop v c.deps).cost (v, c) = 0 := by
  simp [cost, isDead, drop]

end Usage

def sweep (instrs : List (Value × Chunk)) (canGo : Value → Bool) (u : Usage) :
    List Value → Usage
  | [] => u
  | v :: pending =>
    match _h : instrs.find? (·.1 = v) with
    | none => sweep instrs canGo u pending
    | some e =>
      if _hr : u.removable canGo v then
        sweep instrs canGo (u.drop e.1 e.2.deps) (e.2.deps.reverse ++ pending)
      else sweep instrs canGo u pending
termination_by pending => weight u.cost instrs + pending.length
decreasing_by
  · simp
  · have hv : e.1 = v := by simpa using List.find?_some _h
    have he := List.mem_of_find?_eq_some _h
    have hw := weight_add_le (a := e) (fun a _ => u.cost_drop_le e.1 e.2.deps a) he
    rw [u.cost_drop_self e.1 e.2] at hw
    have hc : u.cost e = e.2.deps.length + 1 := by
      simp only [Usage.removable, Bool.and_eq_true, Bool.not_eq_true'] at _hr
      simp [Usage.cost, hv, _hr.1.2]
    simp
    omega
  · simp

def Graph.pureAt (g : Graph) (v : Value) : Bool :=
  match g.instr? v with
  | some i => i.operation.isPure
  | none => false

def Usage.settle (g : Graph) (plans : List Plan) : Usage :=
  let instrs := plans.flatMap Plan.instrs
  sweep instrs g.pureAt (.ofPlans plans) (instrs.map Prod.fst)

end StackCode
