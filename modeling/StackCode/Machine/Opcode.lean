import StackCode.Numeral.Layout

namespace StackCode.Machine

inductive NumKind where
  | i1 | i2 | i4 | i8 | u1 | u2 | u4 | u8 | i | u | r4 | r8
deriving DecidableEq

def NumKind.text : NumKind → String
  | .i1 => "i1"
  | .i2 => "i2"
  | .i4 => "i4"
  | .i8 => "i8"
  | .u1 => "u1"
  | .u2 => "u2"
  | .u4 => "u4"
  | .u8 => "u8"
  | .i => "i"
  | .u => "u"
  | .r4 => "r4"
  | .r8 => "r8"

inductive MemKind where
  | i1 | u1 | i2 | u2 | i4 | u4 | i8 | i | r4 | r8 | ref
deriving DecidableEq

namespace MemKind

def forStore : MemKind → MemKind
  | .u1 => .i1
  | .u2 => .i2
  | .u4 => .i4
  | k => k

def text : MemKind → String
  | .i1 => "i1"
  | .u1 => "u1"
  | .i2 => "i2"
  | .u2 => "u2"
  | .i4 => "i4"
  | .u4 => "u4"
  | .i8 => "i8"
  | .i => "i"
  | .r4 => "r4"
  | .r8 => "r8"
  | .ref => "ref"

end MemKind

inductive BinaryOp where
  | add | addOvf | addOvfUn
  | sub | subOvf | subOvfUn
  | mul | mulOvf | mulOvfUn
  | div | divUn | rem | remUn
  | and | or | xor | shl | shr | shrUn
  | ceq | cgt | cgtUn | clt | cltUn
deriving DecidableEq

def BinaryOp.text : BinaryOp → String
  | .add => "add"
  | .addOvf => "add.ovf"
  | .addOvfUn => "add.ovf.un"
  | .sub => "sub"
  | .subOvf => "sub.ovf"
  | .subOvfUn => "sub.ovf.un"
  | .mul => "mul"
  | .mulOvf => "mul.ovf"
  | .mulOvfUn => "mul.ovf.un"
  | .div => "div"
  | .divUn => "div.un"
  | .rem => "rem"
  | .remUn => "rem.un"
  | .and => "and"
  | .or => "or"
  | .xor => "xor"
  | .shl => "shl"
  | .shr => "shr"
  | .shrUn => "shr.un"
  | .ceq => "ceq"
  | .cgt => "cgt"
  | .cgtUn => "cgt.un"
  | .clt => "clt"
  | .cltUn => "clt.un"

/-- Opcodes. A slot access has a long form, a short form, and for loads and local stores a form of
its own for each of the first four slots. -/
inductive Opcode where
  | nop | dup | pop | ret
  | br | brtrue | brfalse | beq | bneUn | leave | switch
  | throw | rethrow
  | ldarg | ldargS | ldargAt (slot : Fin 4)
  | starg | stargS
  | ldarga | ldargaS
  | ldloc | ldlocS | ldlocAt (slot : Fin 4)
  | stloc | stlocS | stlocAt (slot : Fin 4)
  | ldloca | ldlocaS
  | ldcI4 | ldcI4S | ldcI4M1 | ldcI4Of (n : UInt8)
  | ldcI8 | ldcR4 | ldcR8 | ldnull | ldstr
  | binary (op : BinaryOp)
  | not | neg
  | conv (k : NumKind) | convOvf (k : NumKind) | convOvfUn (k : NumKind) | convRUn
  | ldind (k : MemKind) | stind (k : MemKind)
  | ldobj | stobj | initobj | cpblk | initblk
  | ldfld | ldflda | stfld | ldsfld | ldsflda | stsfld
  | call | callvirt | constrained | newobj | ldftn | ldvirtftn
  | box | unbox | unboxAny | castclass | isinst
  | newarr | ldlen | ldelem | ldelema | stelem
  | sizeof | localloc | volatile | unaligned
deriving DecidableEq

inductive StackEffect where
  | fixed (pops pushes : Nat)
  | call
  | newObject
  | ret
  | leave
deriving DecidableEq

inductive FlowKind where
  | next | branch | conditional | ret | throw
deriving DecidableEq

namespace Opcode

def effect : Opcode → StackEffect
  | .nop | .br | .rethrow | .constrained | .volatile | .unaligned => .fixed 0 0
  | .dup => .fixed 1 2
  | .pop | .brtrue | .brfalse | .switch | .throw => .fixed 1 0
  | .beq | .bneUn => .fixed 2 0
  | .ret => .ret
  | .leave => .leave
  | .ldarg | .ldargS | .ldargAt _ | .ldarga | .ldargaS => .fixed 0 1
  | .ldloc | .ldlocS | .ldlocAt _ | .ldloca | .ldlocaS => .fixed 0 1
  | .starg | .stargS | .stloc | .stlocS | .stlocAt _ => .fixed 1 0
  | .ldcI4 | .ldcI4S | .ldcI4M1 | .ldcI4Of _ | .ldcI8 | .ldcR4 | .ldcR8 | .ldnull | .ldstr =>
    .fixed 0 1
  | .binary _ => .fixed 2 1
  | .not | .neg | .conv _ | .convOvf _ | .convOvfUn _ | .convRUn => .fixed 1 1
  | .ldind _ | .ldobj => .fixed 1 1
  | .stind _ | .stobj => .fixed 2 0
  | .initobj => .fixed 1 0
  | .cpblk | .initblk => .fixed 3 0
  | .ldfld | .ldflda => .fixed 1 1
  | .stfld => .fixed 2 0
  | .ldsfld | .ldsflda => .fixed 0 1
  | .stsfld => .fixed 1 0
  | .call | .callvirt => .call
  | .newobj => .newObject
  | .ldftn | .sizeof => .fixed 0 1
  | .ldvirtftn => .fixed 1 1
  | .box | .unbox | .unboxAny | .castclass | .isinst | .newarr | .ldlen | .localloc => .fixed 1 1
  | .ldelem | .ldelema => .fixed 2 1
  | .stelem => .fixed 3 0

def flow : Opcode → FlowKind
  | .br | .leave => .branch
  | .brtrue | .brfalse | .beq | .bneUn | .switch => .conditional
  | .ret => .ret
  | .throw | .rethrow => .throw
  | _ => .next

def endsFlow (op : Opcode) : Bool :=
  match op.flow with
  | .branch | .ret | .throw => true
  | .next | .conditional => false

def modifiesNext : Opcode → Bool
  | .constrained | .volatile | .unaligned => true
  | _ => false

def text : Opcode → String
  | .nop => "nop"
  | .dup => "dup"
  | .pop => "pop"
  | .ret => "ret"
  | .br => "br"
  | .brtrue => "brtrue"
  | .brfalse => "brfalse"
  | .beq => "beq"
  | .bneUn => "bne.un"
  | .leave => "leave"
  | .switch => "switch"
  | .throw => "throw"
  | .rethrow => "rethrow"
  | .ldarg => "ldarg"
  | .ldargS => "ldarg.s"
  | .ldargAt n => "ldarg." ++ natText n
  | .starg => "starg"
  | .stargS => "starg.s"
  | .ldarga => "ldarga"
  | .ldargaS => "ldarga.s"
  | .ldloc => "ldloc"
  | .ldlocS => "ldloc.s"
  | .ldlocAt n => "ldloc." ++ natText n
  | .stloc => "stloc"
  | .stlocS => "stloc.s"
  | .stlocAt n => "stloc." ++ natText n
  | .ldloca => "ldloca"
  | .ldlocaS => "ldloca.s"
  | .ldcI4 => "ldc.i4"
  | .ldcI4S => "ldc.i4.s"
  | .ldcI4M1 => "ldc.i4.m1"
  | .ldcI4Of n => "ldc.i4." ++ natText n.toNat
  | .ldcI8 => "ldc.i8"
  | .ldcR4 => "ldc.r4"
  | .ldcR8 => "ldc.r8"
  | .ldnull => "ldnull"
  | .ldstr => "ldstr"
  | .binary op => op.text
  | .not => "not"
  | .neg => "neg"
  | .conv k => "conv." ++ k.text
  | .convOvf k => "conv.ovf." ++ k.text
  | .convOvfUn k => "conv.ovf." ++ k.text ++ ".un"
  | .convRUn => "conv.r.un"
  | .ldind k => "ldind." ++ k.text
  | .stind k => "stind." ++ k.forStore.text
  | .ldobj => "ldobj"
  | .stobj => "stobj"
  | .initobj => "initobj"
  | .cpblk => "cpblk"
  | .initblk => "initblk"
  | .ldfld => "ldfld"
  | .ldflda => "ldflda"
  | .stfld => "stfld"
  | .ldsfld => "ldsfld"
  | .ldsflda => "ldsflda"
  | .stsfld => "stsfld"
  | .call => "call"
  | .callvirt => "callvirt"
  | .constrained => "constrained."
  | .newobj => "newobj"
  | .ldftn => "ldftn"
  | .ldvirtftn => "ldvirtftn"
  | .box => "box"
  | .unbox => "unbox"
  | .unboxAny => "unbox.any"
  | .castclass => "castclass"
  | .isinst => "isinst"
  | .newarr => "newarr"
  | .ldlen => "ldlen"
  | .ldelem => "ldelem"
  | .ldelema => "ldelema"
  | .stelem => "stelem"
  | .sizeof => "sizeof"
  | .localloc => "localloc"
  | .volatile => "volatile."
  | .unaligned => "unaligned."

end Opcode

end StackCode.Machine
