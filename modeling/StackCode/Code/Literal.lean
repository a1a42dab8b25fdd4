import StackCode.Error

namespace StackCode

open Machine

def ldcI4 (v : Int) : Machine.Instr := ⟨.ldcI4, .int32 (Int32.ofInt v)⟩

def ldcI8 (v : Int) : Machine.Instr := ⟨.ldcI8, .int64 (Int64.ofInt v)⟩

def ldcR4 (x : Binary32) : Machine.Instr := ⟨.ldcR4, .float32 x⟩

def ldcR8 (x : Binary64) : Machine.Instr := ⟨.ldcR8, .float64 x⟩

def toWord (signed : Bool) : Machine.Instr :=
  ⟨.conv (if signed then .i else .u), .none⟩

def pushWord (signed : Bool) (v : Int) (t : Ty) : Except CompileError (List Machine.Instr) :=
  if (IntShape.mk 32 signed).holds v then .ok [ldcI4 v, toWord signed]
  else if (IntShape.mk 64 signed).holds v then .ok [ldcI8 v, toWord signed]
  else .error (.unrepresentable v t)

def pushInt (v : Int) : Ty → Except CompileError (List Machine.Instr)
  | .int s =>
    if 64 < s.bits || !s.holds v then .error (.unrepresentable v (.int s))
    else if s.bits ≤ 32 then .ok [ldcI4 v]
    else .ok [ldcI8 v]
  | .word signed => pushWord signed v (.word signed)
  | .pointer .transient t => pushWord false v (.pointer .transient t)
  | .float32 => .ok [ldcR4 (.ofInt v)]
  | .float64 => .ok [ldcR8 (.ofInt v)]
  | t => .error (.unsupported (.literalType t))

def IntShape.memKind? : IntShape → Option MemKind
  | ⟨1, _⟩ | ⟨8, false⟩ => some .u1
  | ⟨8, true⟩ => some .i1
  | ⟨16, true⟩ => some .i2
  | ⟨16, false⟩ => some .u2
  | ⟨32, true⟩ => some .i4
  | ⟨32, false⟩ => some .u4
  | ⟨64, _⟩ => some .i8
  | _ => none

def Ty.memKind (t : Ty) : Except CompileError MemKind :=
  match t with
  | .int s =>
    match s.memKind? with
    | some k => .ok k
    | none => .error (.unsupported (.accessWidth s.bits))
  | .word _ => .ok .i
  | .float32 => .ok .r4
  | .float64 => .ok .r8
  | .pointer .boxed _ | .object _ | .array _ => .ok .ref
  | .pointer _ _ => .ok .i
  | .void | .record _ => .error (.unsupported (.noAccess t))

end StackCode
