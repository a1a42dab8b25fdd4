import StackCode.Code.Literal

/-!
Code for conversions and arithmetic. Integers below 32 bits lie on the stack as whole words,
extended by their sign. A result that may have left its range is brought back into it, and a
conversion between words that agree has no code at all.
-/

namespace StackCode

open Machine

inductive Numeric where
  | int (shape : IntShape)
  | word (signed : Bool)
  | float32
  | float64
deriving DecidableEq

namespace Numeric

def of? : Ty → Option Numeric
  | .int s => some (.int s)
  | .word signed => some (.word signed)
  | .pointer .boxed _ => none
  | .pointer _ _ => some (.word false)
  | .float32 => some .float32
  | .float64 => some .float64
  | _ => none

def of (t : Ty) (use : NumericUse) : Except CompileError Numeric :=
  match of? t with
  | some n => .ok n
  | none => .error (.unsupported (.nonNumeric use t))

def isSigned : Numeric → Bool
  | .int s => s.signed
  | .word signed => signed
  | .float32 | .float64 => true

def isFloat : Numeric → Bool
  | .float32 | .float64 => true
  | _ => false

def range? : Numeric → Option IntShape
  | .int s => some s
  | .word signed => some ⟨64, signed⟩
  | _ => none

def isWide : Numeric → Bool
  | .int s => 32 < s.bits
  | .word _ => true
  | _ => false

def kind : Numeric → Except CompileError NumKind
  | .word true => .ok .i
  | .word false => .ok .u
  | .int ⟨8, true⟩ => .ok .i1
  | .int ⟨8, false⟩ => .ok .u1
  | .int ⟨16, true⟩ => .ok .i2
  | .int ⟨16, false⟩ => .ok .u2
  | .int ⟨32, true⟩ => .ok .i4
  | .int ⟨32, false⟩ => .ok .u4
  | .int ⟨64, true⟩ => .ok .i8
  | .int ⟨64, false⟩ => .ok .u8
  | .int s => .error (.unsupported (.conversionWidth s.bits))
  | .float32 => .ok .r4
  | .float64 => .ok .r8

end Numeric

abbrev plain (opcode : Opcode) : Machine.Instr := ⟨opcode, .none⟩

abbrev binary (op : BinaryOp) : Machine.Instr := plain (.binary op)

def maskToBool (source : Numeric) : List Machine.Instr :=
  (if source.isWide then [plain (.conv .u4)] else []) ++ [ldcI4 1, binary .and]

def differsFrom (zero : Machine.Instr) : List Machine.Instr :=
  [zero, binary .ceq, ldcI4 0, binary .ceq]

/-- Traps unless the value is 0 or 1: a byte above 1 is no byte any more when 254 is added. -/
def checkedToBool (source : Numeric) : List Machine.Instr :=
  [ plain (if source.isSigned then .convOvf .u1 else .convOvfUn .u1),
    ldcI4 254, binary .add, plain (.convOvf .u1), ldcI4 254, binary .sub ]

def toBool (source : Numeric) (checked : Bool) : List Machine.Instr :=
  match source with
  | .int ⟨1, _⟩ => []
  | _ =>
    if checked then checkedToBool source
    else
      match source with
      | .float32 => differsFrom (ldcR4 .zero)
      | .float64 => differsFrom (ldcR8 .zero)
      | _ => maskToBool source

def toFloat (source target : Numeric) (k : NumKind) : List Machine.Instr :=
  if source = target then []
  else if source.isSigned then [plain (.conv k)]
  else [plain .convRUn, plain (.conv k)]

def extend (source target : Numeric) (r s : IntShape) (k : NumKind) : List Machine.Instr :=
  match target with
  | .word _ =>
    match source with
    | .word _ => []
    | _ => [plain (.conv (if source.isSigned then .i else .u))]
  | .int ⟨bits, _⟩ =>
    if 32 < bits then
      let widen := [plain (.conv (if source.isSigned then .i8 else .u8))]
      match source with
      | .int ⟨n, _⟩ => if 32 < n then [] else widen
      | _ => widen
    else if source.isWide then [plain (.conv k)]
    else if bits = 32 || r.within s then []
    else [plain (.conv k)]
  | _ => []

def toInteger (source target : Numeric) (checked : Bool) :
    Except CompileError (List Machine.Instr) :=
  match target.kind with
  | .error e => .error e
  | .ok k =>
    match source.range?, target.range? with
    | some r, some s =>
      if checked && !r.within s then
        .ok [plain (if source.isSigned then .convOvf k else .convOvfUn k)]
      else .ok (extend source target r s k)
    | _, _ => .ok [plain (if checked then .convOvf k else .conv k)]

def convertNumeric (source target : Numeric) (checked : Bool) :
    Except CompileError (List Machine.Instr) :=
  match target with
  | .float32 => .ok (toFloat source target .r4)
  | .float64 => .ok (toFloat source target .r8)
  | .int ⟨1, _⟩ => .ok (toBool source checked)
  | _ => toInteger source target checked

def conversion (source target : Ty) (checked : Bool) :
    Except CompileError (List Machine.Instr) := do
  convertNumeric (← Numeric.of source .conversion) (← Numeric.of target .conversion) checked

def checkedOp (n : Numeric) (checked : Bool) (free signed unsigned : BinaryOp) :
    List Machine.Instr :=
  [binary (if !checked || n.isFloat then free else if n.isSigned then signed else unsigned)]

def signedOp (n : Numeric) (signed unsigned : BinaryOp) : List Machine.Instr :=
  [binary (if n.isSigned then signed else unsigned)]

/-- The opposite of a comparison. Floats take the comparison that holds of unordered numbers, so
that its opposite does not. -/
def negatedOp (n : Numeric) (signed unsigned : BinaryOp) : List Machine.Instr :=
  [binary (if n.isSigned && !n.isFloat then signed else unsigned), ldcI4 0, binary .ceq]

def complement : Numeric → Except CompileError (List Machine.Instr)
  | .int s =>
    if s.bits = 1 then .ok [ldcI4 0, binary .ceq]
    else if s.signed || 32 ≤ s.bits then .ok [plain .not]
    else .ok [ldcI4 (.ofNat (twoPow s.bits - 1)), binary .xor]
  | .word _ => .ok [plain .not]
  | .float32 | .float64 => .error (.unsupported .floatComplement)

/-- A checked negation of a signed integer is a checked product with -1. -/
def negation (n : Numeric) (checked : Bool) : List Machine.Instr :=
  if checked && n.isSigned && !n.isFloat then
    match n with
    | .word _ => [ldcI8 (-1), plain (.conv .i), binary .mulOvf]
    | _ => [if n.isWide then ldcI8 (-1) else ldcI4 (-1), binary .mulOvf]
  else [plain .neg]

def operatorCode (op : ArithOp) (checked : Bool) (n : Numeric) :
    Except CompileError (List Machine.Instr) :=
  match op with
  | .add => .ok (checkedOp n checked .add .addOvf .addOvfUn)
  | .sub => .ok (checkedOp n checked .sub .subOvf .subOvfUn)
  | .mul => .ok (checkedOp n checked .mul .mulOvf .mulOvfUn)
  | .div => .ok (signedOp n .div .divUn)
  | .rem => .ok (signedOp n .rem .remUn)
  | .and => .ok [binary .and]
  | .or => .ok [binary .or]
  | .xor => .ok [binary .xor]
  | .shl => .ok [binary .shl]
  | .shr => .ok (signedOp n .shr .shrUn)
  | .eq => .ok [binary .ceq]
  | .ne => .ok [binary .ceq, ldcI4 0, binary .ceq]
  | .lt => .ok (signedOp n .clt .cltUn)
  | .gt => .ok (signedOp n .cgt .cgtUn)
  | .le => .ok (negatedOp n .cgt .cgtUn)
  | .ge => .ok (negatedOp n .clt .cltUn)
  | .not => complement n
  | .neg => .ok (negation n checked)
  | .convert => .ok []

def ArithOp.mayLeaveRange : ArithOp → Bool
  | .add | .sub | .mul | .div | .shl | .neg => true
  | _ => false

def narrow (result : Numeric) (checked : Bool) : Except CompileError (List Machine.Instr) :=
  match result with
  | .int s =>
    if s.bits = 1 then .ok (maskToBool result)
    else if s.bits < 32 then do
      let k ← result.kind
      return [plain (if checked then .convOvf k else .conv k)]
    else .ok []
  | _ => .ok []

def arithCode (op : ArithOp) (checked : Bool) (operand result : Ty) :
    Except CompileError (List Machine.Instr) :=
  if op = .convert then conversion operand result checked
  else if (op = .eq || op = .ne) && (Numeric.of? operand).isNone then
    operatorCode op false (.word false)
  else do
    let code ← operatorCode op checked (← Numeric.of operand .arithmetic)
    match op.mayLeaveRange, Numeric.of? result with
    | true, some r => return code ++ (← narrow r checked)
    | _, _ => return code

end StackCode
