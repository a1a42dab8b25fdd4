import StackCode.Ty

namespace StackCode

structure Field where
  owner : Ty
  name : String
  type : Ty
  isStatic : Bool
deriving DecidableEq

structure Method where
  owner : Ty
  name : String
  parameters : List Ty
  returns : Ty
  isStatic : Bool
deriving DecidableEq

def Method.arity (m : Method) : Nat :=
  m.parameters.length + if m.isStatic then 0 else 1

def Ty.ownerName : Ty → String
  | .record name | .object name => name
  | t => t.text

def Field.qualifiedName (f : Field) : String :=
  f.owner.ownerName ++ "::" ++ f.name

def Method.qualifiedName (m : Method) : String :=
  m.owner.ownerName ++ "::" ++ m.name

namespace Environment

def capture (env : Environment) : Method :=
  ⟨env.captured, "Capture", [env.caught], env.captured, true⟩

def capturedSource (env : Environment) : Method :=
  ⟨env.captured, "get_SourceException", [], env.caught, false⟩

def delegateConstructor (env : Environment) (delegate : Ty) : Method :=
  ⟨delegate, ".ctor", [env.object, .word true], .void, false⟩

end Environment

end StackCode
