import StackCode.Numeral.Layout

namespace StackCode

structure IntShape where
  bits : Nat
  signed : Bool
deriving DecidableEq

namespace IntShape

def constantMin : Int := -twoPow 127

def constantMax : Int := twoPow 127 - 1

def least (s : IntShape) : Int :=
  if !s.signed || s.bits = 0 then 0
  else if 128 ≤ s.bits then constantMin
  else -twoPow (s.bits - 1)

def greatest (s : IntShape) : Int :=
  if s.bits = 0 then 0
  else if s.signed then
    if 128 ≤ s.bits then constantMax else twoPow (s.bits - 1) - 1
  else
    if 127 ≤ s.bits then constantMax else twoPow s.bits - 1

def holds (s : IntShape) (v : Int) : Bool :=
  s.least ≤ v && v ≤ s.greatest

def within (s t : IntShape) : Bool :=
  t.least ≤ s.least && s.greatest ≤ t.greatest

end IntShape

inductive PointerKind where
  | transient
  | reference
  | boxed
deriving DecidableEq

inductive Ty where
  | void
  | int (shape : IntShape)
  | word (signed : Bool)
  | float32
  | float64
  | pointer (kind : PointerKind) (target : Ty)
  | record (name : String)
  | object (name : String)
  | array (element : Ty)
deriving DecidableEq

namespace Ty

abbrev signed (bits : Nat) : Ty := .int ⟨bits, true⟩

abbrev unsigned (bits : Nat) : Ty := .int ⟨bits, false⟩

abbrev bool : Ty := unsigned 1

abbrev char : Ty := unsigned 16

def isVoid : Ty → Bool
  | .void => true
  | _ => false

def shape? : Ty → Option IntShape
  | .int s => some s
  | _ => none

def isBool : Ty → Bool
  | .int ⟨1, _⟩ => true
  | _ => false

def isFloat : Ty → Bool
  | .float32 | .float64 => true
  | _ => false

def isReference : Ty → Bool
  | .object _ | .array _ | .pointer .boxed _ => true
  | _ => false

def isWord : Ty → Bool
  | .word _ | .pointer .transient _ | .pointer .reference _ => true
  | _ => false

def isWide (t : Ty) : Bool :=
  t.isWord || match t.shape? with
    | some s => decide (32 < s.bits)
    | none => false

def isPrimitive (t : Ty) : Bool :=
  t.isWord || t.isFloat || t.shape?.isSome

def isSigned : Ty → Bool
  | .int s => s.signed
  | .word signed => signed
  | .float32 | .float64 => true
  | _ => false

def isSwitchable (t : Ty) : Bool :=
  t.shape?.isSome || t.isWord

def text : Ty → String
  | .void => "void"
  | .int ⟨1, false⟩ => "bool"
  | .int ⟨16, false⟩ => "char"
  | .int ⟨bits, true⟩ => "i" ++ natText bits
  | .int ⟨bits, false⟩ => "u" ++ natText bits
  | .word true => "isize"
  | .word false => "usize"
  | .float32 => "f32"
  | .float64 => "f64"
  | .pointer .transient t => "*" ++ t.text
  | .pointer .reference t => "&" ++ t.text
  | .pointer .boxed t => "box " ++ t.text
  | .record name => "struct " ++ name
  | .object name => "class " ++ name
  | .array t => "[" ++ t.text ++ "]"

end Ty

instance : ToString Ty := ⟨Ty.text⟩

structure Environment where
  object : Ty := .object "System.Object"
  caught : Ty := .object "System.Exception"
  captured : Ty := .object "System.Runtime.ExceptionServices.ExceptionDispatchInfo"
deriving DecidableEq

end StackCode
