import StackCode.Schedule.Basic
import StackCode.Stream.Liveness

namespace StackCode

inductive Register where
  | argument (index : Nat) (type : Ty)
  | cell (id : Nat) (type : Ty)
deriving DecidableEq

namespace Register

def cellId? : Register → Option Nat
  | .cell id _ => some id
  | .argument _ _ => none

def text : Register → String
  | .argument index t => "arg" ++ natText index ++ ": " ++ t.text
  | .cell id t => "v" ++ natText id ++ ": " ++ t.text

end Register

structure Allocation where
  /-- The registers of values; of two entries for a value, the first one counts. -/
  mapping : List (Value × Register)
  registers : List Register
  recycled : Nat
deriving DecidableEq

namespace Allocation

def register? (a : Allocation) (v : Value) : Option Register :=
  a.mapping.lookup v

def register (a : Allocation) (v : Value) : Except CompileError Register :=
  match a.register? v with
  | some r => .ok r
  | none => .error (.internal (.noRegister v))

def values (a : Allocation) : List Value :=
  (a.mapping.map Prod.fst).mergeSort (fun v w => v.id ≤ w.id) |>.eraseReps

def occupants (a : Allocation) (id : Nat) : List Value :=
  a.values.filter fun v => (a.register? v).bind Register.cellId? = some id

end Allocation

structure Pool where
  type : Ty
  occupants : List Value
deriving DecidableEq

namespace Pool

def admits (l : Liveness) (p : Pool) (v : Value) (t : Ty) : Bool :=
  p.type = t && p.occupants.all fun w => !l.interferes w v

def add (p : Pool) (v : Value) : Pool :=
  { p with occupants := p.occupants ++ [v] }

end Pool

structure Pooling where
  pools : List Pool := []
  placed : List (Value × Nat) := []
  recycled : Nat := 0
deriving DecidableEq

namespace Pooling

def place (l : Liveness) (s : Pooling) (e : Value × Ty) : Pooling :=
  match s.pools.findIdx? (·.admits l e.1 e.2) with
  | some n => ⟨s.pools.modify n (·.add e.1), (e.1, n) :: s.placed, s.recycled + 1⟩
  | none => ⟨s.pools ++ [⟨e.2, [e.1]⟩], (e.1, s.pools.length) :: s.placed, s.recycled⟩

def ofValues (l : Liveness) (values : List (Value × Ty)) : Pooling :=
  values.foldl (place l) {}

def types (s : Pooling) : List Ty :=
  s.pools.map Pool.type

def mapping (s : Pooling) : List (Value × Register) :=
  s.placed.filterMap fun (v, n) => s.types[n]?.map fun t => (v, .cell n t)

end Pooling

def maxParameters : Nat := 65536

namespace Allocation

def ofPooling (parameters : List (Value × Ty)) (s : Pooling) (temporaries : List (Value × Ty)) :
    Allocation :=
  let arguments := parameters.zipIdx.map fun ((v, t), n) => (v, Register.argument n t)
  let scratch := (temporaries.zipIdx s.pools.length).map fun ((v, t), n) =>
    (v, Register.cell n t)
  { mapping := scratch.reverse ++ s.mapping ++ arguments.reverse
    registers := (s.types ++ temporaries.map Prod.snd).zipIdx.map fun (t, n) => .cell n t
    recycled := s.recycled }

def ofSchedule (s : Schedule) : Except CompileError Allocation :=
  if maxParameters < s.parameters.length then .error (.unsupported .tooManyParameters)
  else
    match liveness s.items (s.pooled.map Prod.fst) with
    | .error e => .error e
    | .ok l => .ok (ofPooling s.parameters (.ofValues l s.pooled) s.temporaries)

end Allocation

end StackCode
