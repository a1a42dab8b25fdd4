import StackCode.Member
import StackCode.Intrinsic
import StackCode.Text.Quoted

namespace StackCode

structure Value where
  id : Nat
deriving DecidableEq

structure Label where
  id : Nat
deriving DecidableEq

def Value.text (v : Value) : String := "%" ++ natText v.id

def Label.text (l : Label) : String := "B" ++ natText l.id

inductive Constant where
  | int (v : Int)
  | float32 (x : Binary32)
  | float64 (x : Binary64)
  | null
  | default
  | string (s : String)
deriving DecidableEq

namespace Constant

def int? : Constant → Option Int
  | .int v => some v
  | _ => none

def text : Constant → String
  | .int v => intText v
  | .float32 x => x.literalText ++ "f"
  | .float64 x => x.literalText
  | .null => "null"
  | .default => "default"
  | .string s => Text.quote s

end Constant

inductive Lookup where
  | static
  | virtual
  | constrained (t : Ty)
deriving DecidableEq

structure MemoryFlags where
  volatile : Bool
  alignment : Option Nat
deriving DecidableEq

inductive Operation where
  | const (value : Constant) (type : Ty)
  | copy (type : Ty)
  | reinterpret (type : Ty)
  | dynamicCast (type : Ty)
  | box (element : Ty)
  | unbox (element : Ty)
  | fieldAddress (field : Field)
  | staticFieldAddress (field : Field)
  | alloca (element : Ty)
  | allocaArray (element : Ty)
  | load (type : Ty) (flags : MemoryFlags)
  | store (type : Ty) (flags : MemoryFlags)
  | storeField (field : Field)
  | call (callee : Method) (lookup : Lookup)
  | new (constructor : Method)
  | newDelegate (type : Ty) (callee : Method) (hasReceiver : Bool) (lookup : Lookup)
  | sizeOf (measured : Ty) (type : Ty)
  | intrinsic (name : String) (type : Ty) (parameters : List Ty)
deriving DecidableEq

namespace Operation

def resultType : Operation → Ty
  | .const _ t | .copy t | .reinterpret t | .dynamicCast t => t
  | .box t => .pointer .boxed t
  | .unbox t => .pointer .reference t
  | .fieldAddress f | .staticFieldAddress f => .pointer .reference f.type
  | .alloca t | .allocaArray t => .pointer .transient t
  | .load t _ => t
  | .store _ _ | .storeField _ => .void
  | .call m _ => m.returns
  | .new m => m.owner
  | .newDelegate t _ _ _ => t
  | .sizeOf _ t => t
  | .intrinsic _ t _ => t

def arity : Operation → Nat
  | .const _ _ | .staticFieldAddress _ | .alloca _ | .sizeOf _ _ => 0
  | .copy _ | .reinterpret _ | .dynamicCast _ | .box _ | .unbox _ | .fieldAddress _
  | .allocaArray _ | .load _ _ => 1
  | .store _ _ => 2
  | .storeField f => if f.isStatic then 1 else 2
  | .call m _ => m.arity
  | .new m => m.parameters.length
  | .newDelegate _ _ hasReceiver _ => if hasReceiver then 1 else 0
  | .intrinsic _ _ parameters => parameters.length

def kind : Operation → String
  | .const _ _ => "const"
  | .copy _ => "copy"
  | .reinterpret _ => "reinterpret"
  | .dynamicCast _ => "dyncast"
  | .box _ => "box"
  | .unbox _ => "unbox"
  | .fieldAddress _ => "field_addr"
  | .staticFieldAddress _ => "static_field_addr"
  | .alloca _ => "alloca"
  | .allocaArray _ => "alloca_array"
  | .load _ _ => "load"
  | .store _ _ => "store"
  | .storeField _ => "store_field"
  | .call _ _ => "call"
  | .new _ => "new"
  | .newDelegate _ _ _ _ => "new_delegate"
  | .sizeOf _ _ => "sizeof"
  | .intrinsic _ _ _ => "intrinsic"

/-- Whether leaving an unused result out goes unnoticed. -/
def isPure : Operation → Bool
  | .const _ _ | .copy _ | .reinterpret _ | .dynamicCast _ | .box _ | .fieldAddress _
  | .staticFieldAddress _ | .sizeOf _ _ => true
  | .intrinsic name _ _ =>
    match Intrinsic.ofName name with
    | .ok i => i.isPure
    | .error _ => false
  | _ => false

def isDefault : Operation → Bool
  | .const .default _ => true
  | _ => false

def isConstant : Operation → Bool
  | .const _ _ => true
  | _ => false

end Operation

structure Instr where
  operation : Operation
  operands : List Value
deriving DecidableEq

inductive BranchArg where
  | value (v : Value)
  | result
  | exception
deriving DecidableEq

def BranchArg.value? : BranchArg → Option Value
  | .value v => some v
  | _ => none

structure Branch where
  target : Label
  args : List BranchArg
deriving DecidableEq

def Branch.values (b : Branch) : List Value :=
  b.args.filterMap BranchArg.value?

structure Case where
  constants : List Constant
  branch : Branch
deriving DecidableEq

inductive Flow where
  | ret (value : Option Value)
  | jump (branch : Branch)
  | switch (value : Value) (cases : List Case) (fallback : Branch)
  | protect (risky : Instr) (success : Branch) (failure : Branch)
  | unreachable
deriving DecidableEq

namespace Flow

def branches : Flow → List Branch
  | .ret _ | .unreachable => []
  | .jump b => [b]
  | .switch _ cases fallback => cases.map Case.branch ++ [fallback]
  | .protect _ success failure => [success, failure]

def ownReads : Flow → List Value
  | .ret value => value.toList
  | .switch value _ _ => [value]
  | .protect risky _ _ => risky.operands
  | _ => []

def reads (f : Flow) : List Value :=
  f.ownReads ++ f.branches.flatMap Branch.values

end Flow

structure Parameter where
  value : Value
  type : Ty
deriving DecidableEq

structure Block where
  label : Label
  name : String
  parameters : List Parameter
  instructions : List Value
  flow : Flow
deriving DecidableEq

inductive Definition where
  | parameter (block : Label) (index : Nat)
  | instruction (block : Label) (instr : Instr)
deriving DecidableEq

def Definition.block : Definition → Label
  | .parameter b _ | .instruction b _ => b

structure ValueInfo where
  name : Option String
  type : Ty
  definition : Definition
deriving DecidableEq

structure Graph where
  entry : Label
  blocks : Array Block
  values : Array ValueInfo
deriving DecidableEq

namespace Graph

def block? (g : Graph) (l : Label) : Option Block :=
  g.blocks[l.id]?

def info? (g : Graph) (v : Value) : Option ValueInfo :=
  g.values[v.id]?

def instr? (g : Graph) (v : Value) : Option Instr :=
  match g.info? v with
  | some ⟨_, _, .instruction _ i⟩ => some i
  | _ => none

def type? (g : Graph) (v : Value) : Option Ty :=
  (g.info? v).map ValueInfo.type

def predecessors (g : Graph) (l : Label) : List Label :=
  (g.blocks.toList.filter fun b => b.flow.branches.any (·.target = l)).map Block.label

def valueName (g : Graph) (v : Value) : String :=
  match g.info? v with
  | some ⟨some name, _, _⟩ => name
  | _ => natText v.id

def valueText (g : Graph) (v : Value) : String :=
  "%" ++ g.valueName v

end Graph

structure NamedGraph where
  name : String
  graph : Graph
deriving DecidableEq

end StackCode
