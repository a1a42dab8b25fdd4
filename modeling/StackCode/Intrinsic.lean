namespace StackCode

inductive ArithOp where
  | add | sub | mul | div | rem
  | and | or | xor | shl | shr
  | not | neg
  | eq | ne | lt | le | gt | ge
  | convert
deriving DecidableEq

namespace ArithOp

def ofName? : String → Option ArithOp
  | "add" => some .add
  | "sub" => some .sub
  | "mul" => some .mul
  | "div" => some .div
  | "rem" => some .rem
  | "and" => some .and
  | "or" => some .or
  | "xor" => some .xor
  | "shl" => some .shl
  | "shr" => some .shr
  | "not" => some .not
  | "neg" => some .neg
  | "eq" => some .eq
  | "ne" => some .ne
  | "lt" => some .lt
  | "le" => some .le
  | "gt" => some .gt
  | "ge" => some .ge
  | "convert" => some .convert
  | _ => none

def isUnary : ArithOp → Bool
  | .not | .neg | .convert => true
  | _ => false

def isComparison : ArithOp → Bool
  | .eq | .ne | .lt | .le | .gt | .ge => true
  | _ => false

end ArithOp

inductive ExceptionOp where
  | throw | rethrow | capture | capturedSource
deriving DecidableEq

inductive ObjectOp where
  | same | isNull
deriving DecidableEq

inductive MemoryOp where
  | copyBlock | initBlock
deriving DecidableEq

inductive ArrayOp where
  | new | length | load | store | address
deriving DecidableEq

inductive Intrinsic where
  | arith (op : ArithOp) (checked : Bool)
  | exception (op : ExceptionOp)
  | object (op : ObjectOp)
  | memory (op : MemoryOp)
  | array (op : ArrayOp)
deriving DecidableEq

inductive IntrinsicFault where
  | noNamespace (name : String)
  | unknownOperator (name : String)
  | unknownNamespace (space : String)
deriving DecidableEq

def IntrinsicFault.message : IntrinsicFault → String
  | .noNamespace name => "'" ++ name ++ "' has no namespace"
  | .unknownOperator name => "unknown operator '" ++ name ++ "'"
  | .unknownNamespace space => "unknown namespace '" ++ space ++ "'"

def splitAtPoint (cs : List Char) : Option (List Char × List Char) :=
  match cs.dropWhile (· ≠ '.') with
  | [] => none
  | _ :: rest => some (cs.takeWhile (· ≠ '.'), rest)

namespace Intrinsic

def lookup (space op : String) : Option (Option Intrinsic) :=
  match space with
  | "arith" => some ((ArithOp.ofName? op).map (.arith · false))
  | "checked_arith" => some ((ArithOp.ofName? op).map (.arith · true))
  | "exception" => some <|
    match op with
    | "throw" => some (.exception .throw)
    | "rethrow" => some (.exception .rethrow)
    | "capture" => some (.exception .capture)
    | "get_captured_exception" => some (.exception .capturedSource)
    | _ => none
  | "object" => some <|
    match op with
    | "ref_eq" => some (.object .same)
    | "is_null" => some (.object .isNull)
    | _ => none
  | "memory" => some <|
    match op with
    | "copy_block" => some (.memory .copyBlock)
    | "init_block" => some (.memory .initBlock)
    | _ => none
  | "array" => some <|
    match op with
    | "new_array" => some (.array .new)
    | "get_length" => some (.array .length)
    | "load_element" => some (.array .load)
    | "store_element" => some (.array .store)
    | "get_element_pointer" => some (.array .address)
    | _ => none
  | _ => none

def ofName (name : String) : Except IntrinsicFault Intrinsic :=
  match splitAtPoint name.toList with
  | none => .error (.noNamespace name)
  | some (space, op) =>
    match lookup (String.ofList space) (String.ofList op) with
    | none => .error (.unknownNamespace (String.ofList space))
    | some none => .error (.unknownOperator name)
    | some (some i) => .ok i

def arity : Intrinsic → Nat
  | .arith op _ => if op.isUnary then 1 else 2
  | .exception .rethrow => 0
  | .exception _ => 1
  | .object .same => 2
  | .object .isNull => 1
  | .memory _ => 3
  | .array .new | .array .length => 1
  | .array .load | .array .address => 2
  | .array .store => 3

def isPure : Intrinsic → Bool
  | .arith .div false | .arith .rem false => false
  | .arith _ checked => !checked
  | _ => false

end Intrinsic

end StackCode
