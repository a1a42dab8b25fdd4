import StackCode.Stream.Allocation

/-!
Finished bodies. Every item but the marks becomes one instruction, and a mark stands for the address
of the next instruction. Cells are numbered by how often they are accessed, the most frequent
first. The locals asked for by the caller come after them, and those of scratch values last.
-/

namespace StackCode

open Machine (Handler Ref Body)

structure Marks where
  labels : List (Label × Nat) := []
  tries : List Nat := []
  opened : List (Nat × Nat × Ref) := []
  handlers : List Handler := []
deriving DecidableEq

namespace Marks

def add (m : Marks) (address : Nat) : Item → Except InternalFault Marks
  | .label l =>
    if (m.labels.lookup l).isSome then .error (.placedTwice l)
    else .ok { m with labels := (l, address) :: m.labels }
  | .tryStart => .ok { m with tries := address :: m.tries }
  | .handlerStart caught =>
    match m.tries with
    | [] => .error .handlerWithoutTry
    | start :: tries => .ok { m with tries, opened := (start, address, caught) :: m.opened }
  | .handlerEnd =>
    match m.opened with
    | [] => .error .endWithoutHandler
    | (start, handler, caught) :: opened =>
      .ok { m with opened, handlers := m.handlers ++ [⟨start, handler, handler, address, caught⟩] }
  | _ => .ok m

end Marks

def maxSlot : Nat := 65535

inductive Access where
  | load | store | address
deriving DecidableEq

namespace Access

def argumentOp : Access → Machine.Opcode
  | .load => .ldarg
  | .store => .starg
  | .address => .ldarga

def localOp : Access → Machine.Opcode
  | .load => .ldloc
  | .store => .stloc
  | .address => .ldloca

end Access

namespace Allocation

variable (a : Allocation)

/-- The access to the register of a value. A cell is still named by its own number. -/
def access (how : Access) (v : Value) : Except CompileError Machine.Instr :=
  match a.register v with
  | .error e => .error e
  | .ok (.argument n _) => .ok ⟨how.argumentOp, .argument n⟩
  | .ok (.cell n _) =>
    if maxSlot < n then .error (.unsupported .tooManyLocals) else .ok ⟨how.localOp, .local n⟩

def address? (labels : List (Label × Nat)) (l : Label) : Except CompileError Nat :=
  match labels.lookup l with
  | some n => .ok n
  | none => .error (.internal (.unplacedTarget l))

def instr? (labels : List (Label × Nat)) : Item → Except CompileError (Option Machine.Instr)
  | .op i => .ok (some i)
  | .jump opcode l => return some ⟨opcode, .target (← address? labels l)⟩
  | .switch ls => return some ⟨.switch, .targets (← ls.mapM (address? labels))⟩
  | .load v => return some (← a.access .load v)
  | .store v => return some (← a.access .store v)
  | .address v => return some (← a.access .address v)
  | .label _ | .tryStart | .handlerStart _ | .handlerEnd => .ok none

def checkAccess : Item → Except CompileError Unit
  | .load v | .store v | .address v => do discard (a.access .load v)
  | _ => .ok ()

/-- Collects the marks from an address on. A fault among marks shows at the next instruction, unless
that has a fault of its own. -/
def marksFrom (m : Except InternalFault Marks) (address : Nat) :
    List Item → Except CompileError Marks
  | [] => m.mapError .internal
  | i :: rest =>
    if i.isMark then
      marksFrom (match m with
        | .ok m => m.add address i
        | .error e => .error e) address rest
    else
      match a.checkAccess i, m with
      | .error e, _ => .error e
      | .ok _, .error e => .error (.internal e)
      | .ok _, .ok m => marksFrom (.ok m) (address + 1) rest

def marks (items : List Item) : Except CompileError Marks :=
  match a.marksFrom (.ok {}) 0 items with
  | .error e => .error e
  | .ok m =>
    if m.tries.isEmpty && m.opened.isEmpty then .ok m else .error (.internal .openRegion)

def accesses (items : List Item) (id : Nat) : Nat :=
  items.countP fun i => (i.register?.bind a.register?).bind Register.cellId? = some id

end Allocation

structure Locals where
  types : List Ty
  slots : List (Nat × Nat)
deriving DecidableEq

namespace Locals

def arrange (pooled : List (Nat × Ty)) (extra : List Ty) (scratch : List (Nat × Ty)) :
    Except CompileError Locals :=
  let slots := pooled.zipIdx ++ scratch.zipIdx (pooled.length + extra.length)
  if slots.any fun e => maxSlot < e.2 then .error (.unsupported .tooManyLocals)
  else .ok {
    types := pooled.map Prod.snd ++ extra ++ scratch.map Prod.snd
    slots := (slots.map fun e => (e.1.1, e.2)).reverse }

def renumber (l : Locals) (i : Machine.Instr) : Except CompileError Machine.Instr :=
  match i.opcode, i.operand with
  | .ldloc, .local n | .stloc, .local n | .ldloca, .local n =>
    match l.slots.lookup n with
    | some slot => .ok { i with operand := .local slot }
    | none => .error (.internal (.noSlot n))
  | _, _ => .ok i

end Locals

namespace Allocation

variable (a : Allocation)

def cells : List (Nat × Ty) :=
  a.registers.filterMap fun
    | .cell id t => some (id, t)
    | .argument _ _ => none

def before (items : List Item) (v w : Nat × Ty) : Bool :=
  let m := a.accesses items v.1
  let n := a.accesses items w.1
  n < m || (n = m && v.1 ≤ w.1)

def locals (items : List Item) (temporaries : List (Value × Ty)) (extra : List Ty) :
    Except CompileError Locals := do
  let registers ← temporaries.mapM fun t => a.register t.1
  let ids := registers.filterMap Register.cellId?
  let pooled := a.cells.filter fun v => !ids.contains v.1
  let scratch := a.cells.filter fun v => ids.contains v.1
  Locals.arrange (pooled.mergeSort (a.before items)) extra scratch

end Allocation

def emit (s : Schedule) (a : Allocation) (extra : List Ty) : Except CompileError Body := do
  let marks ← a.marks s.items
  let code ← s.items.mapM (a.instr? marks.labels)
  let locals ← a.locals s.items s.temporaries extra
  let instrs ← (code.filterMap id).mapM locals.renumber
  return { instrs, handlers := marks.handlers, locals := locals.types, maxStack := 0 }

end StackCode
