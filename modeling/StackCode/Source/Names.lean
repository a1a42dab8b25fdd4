import StackCode.Graph.Builder
import StackCode.Source.Error
import StackCode.Source.Tree

namespace StackCode.Source

structure Defined where
  name : Option String
  type : Ty
  line : Nat
deriving DecidableEq

namespace BlockTree

def defined (b : BlockTree) : List Defined :=
  b.parameters.map (fun (name, t) => ⟨some name, t, b.line⟩)
    ++ b.statements.map fun s => ⟨s.name, s.op.operation.resultType, s.op.line⟩

end BlockTree

structure Scope where
  blocks : List (String × Label)
  values : List (String × Value × Ty)
deriving DecidableEq

def blockScope (method : String) (n : Nat) (scope : List (String × Label)) :
    List BlockTree → Except ParseError (List (String × Label))
  | [] => .ok scope
  | b :: bs =>
    if (scope.lookup b.name).isSome then .error ⟨b.line, .repeatedBlock b.name method⟩
    else blockScope method (n + 1) (scope ++ [(b.name, ⟨n⟩)]) bs

def valueScope (n : Nat) (scope : List (String × Value × Ty)) :
    List Defined → Except ParseError (List (String × Value × Ty))
  | [] => .ok scope
  | ⟨none, _, _⟩ :: ds => valueScope (n + 1) scope ds
  | ⟨some name, t, line⟩ :: ds =>
    if (scope.lookup name).isSome then .error ⟨line, .repeatedValue name⟩
    else valueScope (n + 1) (scope ++ [(name, ⟨n⟩, t)]) ds

namespace Scope

variable (s : Scope)

def entry (line : Nat) (name : String) : Except ParseError (Value × Ty) :=
  match s.values.lookup name with
  | some e => .ok e
  | none => .error ⟨line, .undefinedValue name⟩

def value (line : Nat) (name : String) : Except ParseError Value :=
  (s.entry line name).map Prod.fst

def instr (op : OpTree) : Except ParseError Instr := do
  let operands ← op.operands.mapM (s.entry op.line)
  let operation :=
    match op.operation with
    | .intrinsic name t _ => .intrinsic name t (operands.map Prod.snd)
    | o => o
  return ⟨operation, operands.map Prod.fst⟩

def arg (line : Nat) : ArgTree → Except ParseError BranchArg
  | .value name => return .value (← s.value line name)
  | .result => .ok .result
  | .exception => .ok .exception

def branch (b : BranchTree) : Except ParseError Branch :=
  match s.blocks.lookup b.target with
  | none => .error ⟨b.line, .undefinedBlock b.target⟩
  | some target => return ⟨target, ← b.args.mapM (s.arg b.line)⟩

def case (c : CaseTree) : Except ParseError Case :=
  return ⟨c.constants, ← s.branch c.branch⟩

def flow (line : Nat) : FlowTree → Except ParseError Flow
  | .ret none => .ok (.ret none)
  | .ret (some name) => return .ret (some (← s.value line name))
  | .jump b => return .jump (← s.branch b)
  | .switch name cases fallback =>
    return .switch (← s.value line name) (← cases.mapM s.case) (← s.branch fallback)
  | .protect risky success failure =>
    return .protect (← s.instr risky) (← s.branch success) (← s.branch failure)
  | .unreachable => .ok .unreachable

end Scope

structure Resolved where
  label : Label
  parameters : List (String × Ty)
  instrs : List (Option String × Instr)
  flow : Flow
deriving DecidableEq

def Scope.block (s : Scope) (b : BlockTree) (n : Nat) : Except ParseError Resolved := do
  let instrs ← b.statements.mapM fun st => return (st.name, ← s.instr st.op)
  return ⟨⟨n⟩, b.parameters, instrs, ← s.flow b.line b.flow⟩

def Resolved.fill (b : Builder) (r : Resolved) : Builder :=
  let b := r.parameters.foldl (fun b (name, t) => (b.addParameter r.label (some name) t).1) b
  let b := r.instrs.foldl (fun b (name, i) => (b.addInstr r.label name i).1) b
  b.setFlow r.label r.flow

namespace MethodTree

def scope (m : MethodTree) : Except ParseError Scope := do
  let blocks ← blockScope m.name 0 [] m.blocks
  let values ← valueScope 0 [] (m.blocks.flatMap BlockTree.defined)
  return ⟨blocks, values⟩

def graph (m : MethodTree) : Except ParseError Graph := do
  let scope ← m.scope
  let resolved ← m.blocks.zipIdx.mapM fun (b, n) => scope.block b n
  let empty := m.blocks.foldl (fun b t => (b.addBlock t.name).1) ({} : Builder)
  return (resolved.foldl Resolved.fill empty).finish

end MethodTree

end StackCode.Source
