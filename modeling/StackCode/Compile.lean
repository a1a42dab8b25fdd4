import StackCode.Graph.Contract
import StackCode.Machine.Peephole
import StackCode.Session
import StackCode.Stream.Emission

namespace StackCode

open Machine (Body)

structure Options where
  peephole : Bool := true
  compact : Bool := true
  verify : Bool := true
  extraLocals : List Ty := []
deriving DecidableEq

structure Setting where
  env : Environment := {}
  options : Options := {}
  policy : Policy := .default

structure Compiled where
  body : Body
  schedule : Schedule
  allocation : Allocation
deriving DecidableEq

structure Workspace where
  symbols : Symbols := {}
  session : Session := {}
deriving DecidableEq

abbrev Compile := ExceptT CompileError (StateM Workspace)

namespace Compile

variable {α : Type}

def ofExcept (x : Except CompileError α) : Compile α :=
  match x with
  | .ok a => pure a
  | .error e => throw e

def record (f : Session → Session) : Compile Unit :=
  modify fun w => { w with session := f w.session }

def select (g : Graph) (x : Select α) : Compile α :=
  fun w =>
    let (r, s) := x (.start g w.symbols)
    (r, { w with symbols := s.symbols })

def improve (o : Options) (b : Body) : Body :=
  if o.peephole then (b.optimize o.compact).1
  else if o.compact then b.compact.1
  else b

def graph (setting : Setting) (g : Graph) : Compile Compiled := do
  if setting.options.verify then
    if let some fault := g.fault? then throw (.malformed fault)
  let schedule ← select g (Select.schedule ⟨g, setting.env⟩ setting.policy)
  let allocation ← ofExcept (Allocation.ofSchedule schedule)
  record (·.addRegisters allocation.registers.length allocation.recycled)
  let emitted ← ofExcept (emit schedule allocation setting.options.extraLocals)
  record (·.addHandlers emitted.handlers.length)
  let body := improve setting.options emitted
  match body.depths with
  | .error fault => throw (.internal (.depth fault))
  | .ok depths =>
    record fun s => body.instrs.foldl (fun s i => s.emit i.opcode.text) s
    return ⟨{ body with maxStack := depths.maxStack }, schedule, allocation⟩

end Compile

namespace Setting

variable (setting : Setting)

def compile (m : NamedGraph) (w : Workspace) : Except CompileError Compiled × Workspace :=
  let (r, w) := Compile.graph setting m.graph { w with session := w.session.start m.name }
  match r with
  | .ok c => (.ok c, { w with session := w.session.succeed m.name c.body.instrs.length })
  | .error e => (.error e, { w with session := w.session.fail })

/-- Compiles methods in their order, also past those that fail. A crash leaves nothing of the
methods before it. -/
def compileAll (w : Workspace) :
    List NamedGraph → Except Crash (List (Except CompileError Compiled) × Workspace)
  | [] => return ([], w)
  | m :: ms => do
    let (r, w) := setting.compile m w
    let r ← uncrashed r
    let (rs, w) ← compileAll w ms
    return (r :: rs, w)

end Setting

end StackCode
