import StackCode.Machine.Opcode

namespace StackCode.Machine

def NumKind.all : List NumKind :=
  [.i1, .i2, .i4, .i8, .u1, .u2, .u4, .u8, .i, .u, .r4, .r8]

def MemKind.all : List MemKind :=
  [.i1, .u1, .i2, .u2, .i4, .u4, .i8, .i, .r4, .r8, .ref]

def BinaryOp.all : List BinaryOp :=
  [.add, .addOvf, .addOvfUn, .sub, .subOvf, .subOvfUn, .mul, .mulOvf, .mulOvfUn, .div, .divUn,
    .rem, .remUn, .and, .or, .xor, .shl, .shr, .shrUn, .ceq, .cgt, .cgtUn, .clt, .cltUn]

namespace Opcode

def plain : List Opcode :=
  [.nop, .dup, .pop, .ret, .br, .brtrue, .brfalse, .beq, .bneUn, .leave, .switch, .throw, .rethrow,
    .ldarg, .ldargS, .starg, .stargS, .ldarga, .ldargaS, .ldloc, .ldlocS, .stloc, .stlocS, .ldloca,
    .ldlocaS, .ldcI4, .ldcI4S, .ldcI4M1, .ldcI8, .ldcR4, .ldcR8, .ldnull, .ldstr, .not, .neg,
    .convRUn, .ldobj, .stobj, .initobj, .cpblk, .initblk, .ldfld, .ldflda, .stfld, .ldsfld,
    .ldsflda, .stsfld, .call, .callvirt, .constrained, .newobj, .ldftn, .ldvirtftn, .box, .unbox,
    .unboxAny,
    .castclass, .isinst, .newarr, .ldlen, .ldelem, .ldelema, .stelem, .sizeof, .localloc, .volatile,
    .unaligned]

def named : List (String × Opcode) :=
  plain.map (fun op => (op.text, op))
    ++ BinaryOp.all.map (fun op => (op.text, .binary op))
    ++ NumKind.all.flatMap (fun k =>
      [(text (.conv k), .conv k), (text (.convOvf k), .convOvf k),
        (text (.convOvfUn k), .convOvfUn k)])
    ++ MemKind.all.flatMap (fun k =>
      [(text (.ldind k), .ldind k), ("stind." ++ k.text, .stind k)])
    ++ (List.finRange 4).flatMap (fun n =>
      [(text (.ldargAt n), .ldargAt n), (text (.ldlocAt n), .ldlocAt n),
        (text (.stlocAt n), .stlocAt n)])
    ++ (List.range 256).map (fun n => ("ldc.i4." ++ natText n, .ldcI4Of n.toUInt8))

def ofMnemonic? (mnemonic : String) : Option Opcode :=
  named.lookup mnemonic

end Opcode

end StackCode.Machine
