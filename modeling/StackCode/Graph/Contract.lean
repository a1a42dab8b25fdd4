import StackCode.Error

/-!
The contract between a graph and its lowering. Values are defined once, instructions have all their
operands, branches pass an argument for each parameter of an existing block, and the marks for the
outcome of a protected instruction stand only on the edge that has it.
-/

namespace StackCode

abbrev MarkScope := Option Mark

def redefinition? (seen : List Value) : List (Value × String) → Option ContractFault
  | [] => none
  | (v, block) :: rest =>
    if seen.contains v then some (.redefined v block) else redefinition? (v :: seen) rest

namespace Block

def definitions (b : Block) : List Value :=
  b.parameters.map Parameter.value ++ b.instructions

end Block

namespace Graph

def definitions (g : Graph) : List (Value × String) :=
  g.blocks.toList.flatMap fun b => b.definitions.map (·, b.name)

variable (g : Graph) (defined : List Value) (b : Block)

def useFault? (v : Value) : Option ContractFault :=
  if defined.contains v then none else some (.undefinedValue b.name (g.valueText v))

def instrFault? (i : Instr) : Option ContractFault :=
  if i.operands.length ≠ i.operation.arity then
    some (.operandCount i.operation.kind b.name i.operation.arity i.operands.length)
  else i.operands.findSome? (g.useFault? defined b)

def argFault? (scope : MarkScope) : BranchArg → Option ContractFault
  | .value v => g.useFault? defined b v
  | .result => if scope = some .result then none else some (.misplacedMark .result b.name)
  | .exception => if scope = some .exception then none else some (.misplacedMark .exception b.name)

def branchFault? (scope : MarkScope) (branch : Branch) : Option ContractFault :=
  match g.block? branch.target with
  | none => some (.unknownTarget b.name branch.target)
  | some target =>
    if branch.args.length ≠ target.parameters.length then
      some (.branchArity b.name target.name branch.args.length target.parameters.length)
    else branch.args.findSome? (g.argFault? defined b scope)

def flowFault? : Option ContractFault :=
  match b.flow with
  | .ret value => value.toList.findSome? (g.useFault? defined b)
  | .unreachable => none
  | .jump branch => g.branchFault? defined b none branch
  | .switch value cases fallback =>
    g.useFault? defined b value
      <|> (cases.map Case.branch ++ [fallback]).findSome? (g.branchFault? defined b none)
  | .protect risky success failure =>
    g.instrFault? defined b risky
      <|> g.branchFault? defined b (some .result) success
      <|> g.branchFault? defined b (some .exception) failure

def listedFault? (v : Value) : Option ContractFault :=
  match g.instr? v with
  | none => some (.notInstruction (g.valueText v) b.name)
  | some i => g.instrFault? defined b i

def blockFault? : Option ContractFault :=
  b.instructions.findSome? (g.listedFault? defined b) <|> g.flowFault? defined b

def fault? : Option ContractFault :=
  match g.block? g.entry with
  | none => some .noEntry
  | some _ =>
    redefinition? [] g.definitions
      <|> g.blocks.toList.findSome? (g.blockFault? (g.definitions.map Prod.fst))

end Graph

end StackCode
