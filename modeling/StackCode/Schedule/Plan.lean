import StackCode.Chunk.Flow

namespace StackCode

structure Plan where
  block : Block
  instrs : List (Value × Chunk)
  flow : List Chunk
deriving DecidableEq

namespace Plan

def chunks (p : Plan) : List Chunk :=
  p.instrs.map Prod.snd ++ p.flow

end Plan

abbrev Policy := Instr → Bool

namespace Policy

def default : Policy := fun i =>
  match i.operation with
  | .alloca _ | .allocaArray _ => true
  | _ => false

def never : Policy := fun _ => false

end Policy

def Graph.order (g : Graph) (entry : Block) : List Block :=
  entry :: g.blocks.toList.filter (·.label ≠ g.entry)

namespace Select

variable (ctx : Context)

def listed (b : Block) (v : Value) : Select (Value × Chunk) := do
  match ctx.graph.instr? v with
  | none => throw (.internal (.undefinedInstruction b.name v))
  | some i => return (v, ← instr ctx i)

def plan (b : Block) : Select Plan :=
  return ⟨b, ← b.instructions.mapM (listed ctx b), ← flow ctx b⟩

def plans (entry : Block) : Select (List Plan) :=
  (ctx.graph.order entry).mapM (plan ctx)

end Select

end StackCode
