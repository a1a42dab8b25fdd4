import StackCode.Error
import StackCode.Stream.Item
import StackCode.Symbol

namespace StackCode

open Machine (Opcode Ref)

/-- Code and the values that lie on the stack before it runs, the last one on top. -/
structure Chunk where
  code : List Item
  deps : List Value
deriving DecidableEq

def Chunk.isBarrier (c : Chunk) : Bool :=
  c.code.any fun i => i = .tryStart || i.opcode? = some .localloc

structure Context where
  graph : Graph
  env : Environment

structure Selection where
  symbols : Symbols
  nextValue : Nat
  nextLabel : Nat
  temporaries : List (Value × Ty) := []
deriving DecidableEq

def Selection.start (g : Graph) (symbols : Symbols) : Selection :=
  { symbols, nextValue := g.values.size, nextLabel := g.blocks.size }

/-- Lowering steps. What a failed step has added stays. -/
abbrev Select := ExceptT CompileError (StateM Selection)

namespace Select

variable {α : Type}

def refuse (cause : Unsupported) : Select α :=
  throw (.unsupported cause)

def reject (fault : ContractFault) : Select α :=
  throw (.malformed fault)

def ofExcept (x : Except CompileError α) : Select α :=
  match x with
  | .ok a => pure a
  | .error e => throw e

def typeRef (t : Ty) : Select Ref :=
  modifyGet fun s =>
    let (symbols, r) := s.symbols.addType t
    (r, { s with symbols })

def fieldRef (f : Field) : Select Ref :=
  modifyGet fun s =>
    let (symbols, r) := s.symbols.addField f
    (r, { s with symbols })

def methodRef (m : Method) : Select Ref :=
  modifyGet fun s =>
    let (symbols, r) := s.symbols.addMethod m
    (r, { s with symbols })

def temporary (t : Ty) : Select Value :=
  modifyGet fun s =>
    let v : Value := ⟨s.nextValue⟩
    (v, { s with nextValue := s.nextValue + 1, temporaries := s.temporaries ++ [(v, t)] })

def label : Select Label :=
  modifyGet fun s => (⟨s.nextLabel⟩, { s with nextLabel := s.nextLabel + 1 })

def valueType (ctx : Context) (v : Value) : Select Ty := do
  match ctx.graph.type? v with
  | some t => return t
  | none =>
    match (← get).temporaries.lookup v with
    | some t => return t
    | none => reject (.unknownValue v)

def typeOp (opcode : Opcode) (t : Ty) : Select Item :=
  return .op ⟨opcode, .type (← typeRef t)⟩

def fieldOp (opcode : Opcode) (f : Field) : Select Item :=
  return .op ⟨opcode, .field (← fieldRef f)⟩

/-- The arguments that an opcode takes for a method, and whether it leaves a result. Argument counts
have 16 bits. -/
def callShape (opcode : Opcode) (m : Method) : Nat × Bool :=
  match opcode with
  | .newobj => (m.parameters.length % 65536, true)
  | .call | .callvirt => (m.arity % 65536, !m.returns.isVoid)
  | _ => (0, false)

def methodOp (opcode : Opcode) (m : Method) : Select Item := do
  let (arguments, returns) := callShape opcode m
  return .op ⟨opcode, .method (← methodRef m) arguments returns⟩

end Select

def Graph.isDefaultValue (g : Graph) (v : Value) : Bool :=
  match g.instr? v with
  | some i => i.operation.isDefault
  | none => false

end StackCode
