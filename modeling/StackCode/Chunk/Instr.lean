import StackCode.Chunk.Basic
import StackCode.Code.Numeric

namespace StackCode

open Machine (Opcode)
open Select

namespace Select

def pushDefault (t : Ty) : Select (List Item) := do
  match t with
  | .word signed => return [.op (ldcI4 0), .op (toWord signed)]
  | .pointer .transient _ | .pointer .reference _ => return [.op (ldcI4 0), .op (toWord false)]
  | .int _ => return (← ofExcept (pushInt 0 t)).map .op
  | .float32 => return [.op (ldcR4 .zero)]
  | .float64 => return [.op (ldcR8 .zero)]
  | .record _ =>
    let scratch ← temporary t
    return [.address scratch, ← typeOp .initobj t, .load scratch]
  | .pointer .boxed _ | .object _ | .array _ => return [.plain .ldnull]
  | .void => refuse (.noDefault t)

def pushConstant (c : Constant) (t : Ty) : Select (List Item) := do
  match c with
  | .int v => return (← ofExcept (pushInt v t)).map .op
  | .float32 x => return [.op (if t = .float64 then ldcR8 x.convert else ldcR4 x)]
  | .float64 x => return [.op (if t = .float32 then ldcR4 x.convert else ldcR8 x)]
  | .null => return [.plain .ldnull]
  | .string s => return [.op ⟨.ldstr, .string s⟩]
  | .default => pushDefault t

end Select

def MemoryFlags.modifiers (f : MemoryFlags) : List Item :=
  (match f.alignment with
    | some n => if n = 1 ∨ n = 2 ∨ n = 4 then [.op ⟨.unaligned, .int32 (Int32.ofNat n)⟩] else []
    | none => [])
    ++ if f.volatile then [.plain .volatile] else []

inductive Place where
  | field (f : Field) (base : List Value)
  | static (f : Field)
  | memory
deriving DecidableEq

def Graph.place (g : Graph) (pointer : Value) : Place :=
  match g.instr? pointer with
  | some ⟨.fieldAddress f, base⟩ => .field f base
  | some ⟨.staticFieldAddress f, _⟩ => .static f
  | _ => .memory

namespace Select

def access (t : Ty) (whole : Opcode) (single : Machine.MemKind → Opcode) : Select Item := do
  match t with
  | .record _ => typeOp whole t
  | _ => return .plain (single (← ofExcept t.memKind))

variable (ctx : Context)

def load (t : Ty) (flags : MemoryFlags) (pointer : Value) : Select Chunk := do
  match ctx.graph.place pointer with
  | .field f base => return ⟨flags.modifiers ++ [← fieldOp .ldfld f], base⟩
  | .static f => return ⟨flags.modifiers ++ [← fieldOp .ldsfld f], []⟩
  | .memory => return ⟨flags.modifiers ++ [← access t .ldobj .ldind], [pointer]⟩

def clear (t : Ty) (pointer : Value) : Select Chunk := do
  match ctx.graph.place pointer with
  | .field f base => return ⟨[← fieldOp .ldflda f, ← typeOp .initobj t], base⟩
  | .static f => return ⟨[← fieldOp .ldsflda f, ← typeOp .initobj t], []⟩
  | .memory => return ⟨[← typeOp .initobj t], [pointer]⟩

def store (t : Ty) (flags : MemoryFlags) (pointer value : Value) : Select Chunk := do
  if ctx.graph.isDefaultValue value then clear ctx t pointer
  else
    match ctx.graph.place pointer with
    | .field f base => return ⟨flags.modifiers ++ [← fieldOp .stfld f], base ++ [value]⟩
    | .static f => return ⟨flags.modifiers ++ [← fieldOp .stsfld f], [value]⟩
    | .memory =>
      return ⟨flags.modifiers ++ [← access t .stobj (.stind ·.forStore)], [pointer, value]⟩

def storeField (f : Field) (base : List Value) (value : Value) : Select Chunk := do
  if ctx.graph.isDefaultValue value then
    return ⟨[← fieldOp (if f.isStatic then .ldsflda else .ldflda) f, ← typeOp .initobj f.type],
      base⟩
  else return ⟨[← fieldOp (if f.isStatic then .stsfld else .stfld) f], base ++ [value]⟩

def call (m : Method) (lookup : Lookup) : Select (List Item) := do
  match lookup with
  | .static => return [← methodOp .call m]
  | .virtual => return [← methodOp .callvirt m]
  | .constrained t => return [← typeOp .constrained t, ← methodOp .callvirt m]

def newDelegate (t : Ty) (m : Method) (hasReceiver : Bool) (lookup : Lookup) :
    Select (List Item) := do
  let function ←
    if !hasReceiver then do pure [.plain .ldnull, ← methodOp .ldftn m]
    else if lookup = .virtual then do pure [.plain .dup, ← methodOp .ldvirtftn m]
    else do pure [← methodOp .ldftn m]
  return function ++ [← methodOp .newobj (ctx.env.delegateConstructor t)]

def element (t : Ty) : Select Ty :=
  match t with
  | .array t => pure t
  | _ => reject (.notArray t)

def array (op : ArrayOp) (type operand : Ty) (operands : List Value) : Select Chunk := do
  match op with
  | .new => return ⟨[← typeOp .newarr (← element type)], operands⟩
  | .length =>
    let code ← ofExcept (conversion (.word false) type false)
    return ⟨.plain .ldlen :: code.map .op, operands⟩
  | .load => return ⟨[← typeOp .ldelem (← element operand)], operands⟩
  | .address => return ⟨[← typeOp .ldelema (← element operand)], operands⟩
  | .store =>
    let t ← element operand
    match operands with
    | [base, index, value] =>
      if ctx.graph.isDefaultValue value then
        return ⟨[← typeOp .ldelema t, ← typeOp .initobj t], [base, index]⟩
      else return ⟨[← typeOp .stelem t], operands⟩
    | _ => return ⟨[← typeOp .stelem t], operands⟩

/-- An intrinsic with result type `type` on operands of types `parameters`. What follows a throw is
never reached, and stands for its result. -/
def intrinsic (name : String) (type : Ty) (parameters : List Ty) (operands : List Value) :
    Select Chunk := do
  match Intrinsic.ofName name with
  | .error fault => refuse (.intrinsicName fault)
  | .ok i =>
    if operands.length ≠ i.arity ∨ parameters.length ≠ i.arity then
      reject (.intrinsicArity name i.arity)
    else
      let operand := parameters.headD .void
      match i with
      | .arith op checked =>
        return ⟨(← ofExcept (arithCode op checked operand type)).map .op, operands⟩
      | .exception .throw => return ⟨[.plain .throw, .plain .dup], operands⟩
      | .exception .rethrow => return ⟨[.plain .rethrow, .plain .dup], []⟩
      | .exception .capture => return ⟨[← methodOp .call ctx.env.capture], operands⟩
      | .exception .capturedSource =>
        return ⟨[← methodOp .callvirt ctx.env.capturedSource], operands⟩
      | .object .same => return ⟨[.plain (.binary .ceq)], operands⟩
      | .object .isNull => return ⟨[.plain .ldnull, .plain (.binary .ceq)], operands⟩
      | .memory .copyBlock => return ⟨[.plain .cpblk], operands⟩
      | .memory .initBlock => return ⟨[.plain .initblk], operands⟩
      | .array op => array ctx op type operand operands

def operation (op : Operation) (operands : List Value) : Select Chunk := do
  match op, operands with
  | .const c t, _ => return ⟨← pushConstant c t, []⟩
  | .copy _, _ | .reinterpret _, _ => return ⟨[], operands⟩
  | .dynamicCast t, _ => return ⟨[← typeOp .isinst t], operands⟩
  | .box t, _ => return ⟨[← typeOp .box t], operands⟩
  | .unbox t, _ => return ⟨[← typeOp .unbox t], operands⟩
  | .fieldAddress f, _ => return ⟨[← fieldOp .ldflda f], operands⟩
  | .staticFieldAddress f, _ => return ⟨[← fieldOp .ldsflda f], []⟩
  | .alloca t, _ => return ⟨[← typeOp .sizeof t, .plain .localloc], []⟩
  | .allocaArray t, [count] =>
    let widen := if (← valueType ctx count).isWord then [] else [.plain (.conv .u)]
    return ⟨widen ++ [← typeOp .sizeof t, .plain (.binary .mul), .plain .localloc], operands⟩
  | .load t flags, [pointer] => load ctx t flags pointer
  | .store t flags, [pointer, value] => store ctx t flags pointer value
  | .storeField f, [value] => storeField ctx f [] value
  | .storeField f, [base, value] => storeField ctx f [base] value
  | .call m lookup, _ => return ⟨← call m lookup, operands⟩
  | .new m, _ => return ⟨[← methodOp .newobj m], operands⟩
  | .newDelegate t m hasReceiver lookup, _ =>
    return ⟨← newDelegate ctx t m hasReceiver lookup, operands⟩
  | .sizeOf measured t, _ =>
    let size ← typeOp .sizeof measured
    return ⟨size :: (← ofExcept (conversion (.unsigned 32) t false)).map .op, []⟩
  | .intrinsic name type parameters, _ => intrinsic ctx name type parameters operands
  | _, _ => reject (.selectedCount op.kind op.arity operands.length)

def instr (i : Instr) : Select Chunk :=
  if i.operands.length ≠ i.operation.arity then
    reject (.selectedCount i.operation.kind i.operation.arity i.operands.length)
  else operation ctx i.operation i.operands

end Select

end StackCode
