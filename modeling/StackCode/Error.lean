import StackCode.Graph.Basic
import StackCode.Machine.Depth

namespace StackCode

inductive NumericUse where
  | conversion
  | arithmetic
deriving DecidableEq

def NumericUse.text : NumericUse → String
  | .conversion => "conversion"
  | .arithmetic => "arithmetic"

inductive Unsupported where
  | intrinsicName (fault : IntrinsicFault)
  | nonNumeric (use : NumericUse) (type : Ty)
  | floatComplement
  | conversionWidth (bits : Nat)
  | literalType (type : Ty)
  | noDefault (type : Ty)
  | accessWidth (bits : Nat)
  | noAccess (type : Ty)
  | switchType (block : String) (type : Ty)
  | switchConstant (block : String) (constant : Constant)
  | switchEmpty (block : String)
  | switchSparse (block : String) (cases : Nat) (span : Int)
  | tooManyParameters
  | tooManyLocals
deriving DecidableEq

namespace Unsupported

def construct : Unsupported → String
  | .intrinsicName _ | .nonNumeric _ _ | .floatComplement => "intrinsic"
  | .conversionWidth _ => "conversion"
  | .literalType _ | .noDefault _ => "constant"
  | .accessWidth _ | .noAccess _ => "load/store"
  | .switchType _ _ | .switchConstant _ _ | .switchEmpty _ | .switchSparse _ _ _ => "switch"
  | .tooManyParameters | .tooManyLocals => "method"

def reason : Unsupported → String
  | .intrinsicName fault => fault.message
  | .nonNumeric use t => use.text ++ " on non-numeric type " ++ t.text
  | .floatComplement => "bitwise not on floats"
  | .conversionWidth bits => "no conversion to " ++ natText bits ++ "-bit integers"
  | .literalType t => "integer literal of type " ++ t.text
  | .noDefault t => "no default value for " ++ t.text
  | .accessWidth bits => natText bits ++ "-bit integers"
  | .noAccess t => "no indirect access for " ++ t.text
  | .switchType block t => "block '" ++ block ++ "' switches on a value of type " ++ t.text
  | .switchConstant block c =>
    "block '" ++ block ++ "' switches on non-integer constant " ++ c.text
  | .switchEmpty block => "block '" ++ block ++ "' has cases without values"
  | .switchSparse block cases span =>
    "block '" ++ block ++ "' has " ++ natText cases ++ " cases spanning " ++ intText span
      ++ " values, neither if/else nor dense"
  | .tooManyParameters => "more than 65535 parameters"
  | .tooManyLocals => "too many locals"

end Unsupported

inductive Mark where
  | result
  | exception
deriving DecidableEq

def Mark.text : Mark → String
  | .result => "#result"
  | .exception => "#exception"

def Mark.edge : Mark → String
  | .result => "success"
  | .exception => "exception"

inductive ContractFault where
  | noEntry
  | redefined (v : Value) (block : String)
  | notInstruction (value block : String)
  | operandCount (kind block : String) (expected given : Nat)
  | undefinedValue (block value : String)
  | unknownTarget (block : String) (target : Label)
  | branchArity (source target : String) (given takes : Nat)
  | misplacedMark (mark : Mark) (block : String)
  | unknownValue (v : Value)
  | selectedCount (kind : String) (expected given : Nat)
  | argumentCount (block : String) (given : Nat) (target : String) (takes : Nat)
  | strayMark (target : Label) (block : String)
  | repeatedCase (block : String) (value : Int)
  | wrongEdge (mark : Mark) (block : String)
  | voidResult (block : String)
  | notArray (type : Ty)
  | intrinsicArity (name : String) (arity : Nat)
deriving DecidableEq

def ContractFault.message : ContractFault → String
  | .noEntry => "flow graph has no entry block"
  | .redefined v block =>
    "value " ++ v.text ++ " is defined more than once (again in block '" ++ block ++ "')"
  | .notInstruction value block => value ++ " in block '" ++ block ++ "' is not an instruction"
  | .operandCount kind block expected given =>
    kind ++ " instruction in block '" ++ block ++ "' takes " ++ natText expected
      ++ " operands but was given " ++ natText given
  | .undefinedValue block value => "block '" ++ block ++ "' uses undefined value " ++ value
  | .unknownTarget block target =>
    "block '" ++ block ++ "' branches to unknown block " ++ target.text
  | .branchArity source target given takes =>
    "branch from '" ++ source ++ "' to '" ++ target ++ "' passes " ++ natText given
      ++ " arguments but the target takes " ++ natText takes
  | .misplacedMark mark block =>
    mark.text ++ " used outside a Try " ++ mark.edge ++ " branch in block '" ++ block ++ "'"
  | .unknownValue v => "unknown value " ++ v.text
  | .selectedCount kind expected given =>
    kind ++ " takes " ++ natText expected ++ " operands but was given " ++ natText given
  | .argumentCount block given target takes =>
    "block '" ++ block ++ "' passes " ++ natText given ++ " arguments to '" ++ target
      ++ "', which takes " ++ natText takes
  | .strayMark target block =>
    "Try placeholder passed to " ++ target.text ++ " outside a Try flow in block '" ++ block ++ "'"
  | .repeatedCase block value =>
    "switch in block '" ++ block ++ "' matches " ++ intText value ++ " more than once"
  | .wrongEdge mark block =>
    mark.text ++ " used on the wrong Try edge in block '" ++ block ++ "'"
  | .voidResult block => "#result of a void Try instruction used in block '" ++ block ++ "'"
  | .notArray t => "array intrinsic applied to non-array type " ++ t.text
  | .intrinsicArity name arity =>
    "intrinsic '" ++ name ++ "' takes " ++ natText arity ++ " operands"

inductive InternalFault where
  | undefinedInstruction (block : String) (v : Value)
  | untypedRegister (v : Value)
  | orphanHandler
  | openTry
  | unplacedTarget (l : Label)
  | placedTwice (l : Label)
  | handlerWithoutTry
  | endWithoutHandler
  | openRegion
  | noRegister (v : Value)
  | noSlot (index : Nat)
  | depth (fault : Machine.DepthFault)
deriving DecidableEq

def InternalFault.message : InternalFault → String
  | .undefinedInstruction block v =>
    "block '" ++ block ++ "' lists undefined instruction " ++ v.text
  | .untypedRegister v => "register operand " ++ v.text ++ " has no type"
  | .orphanHandler => "handler without a protected region"
  | .openTry => "protected region without a handler"
  | .unplacedTarget l => "branch to unplaced block " ++ l.text
  | .placedTwice l => "block " ++ l.text ++ " placed twice"
  | .handlerWithoutTry => "handler start without a try start"
  | .endWithoutHandler => "handler end without a handler start"
  | .openRegion => "unterminated exception region"
  | .noRegister v => "no register assigned to " ++ v.text
  | .noSlot n => "local " ++ natText n ++ " has no slot"
  | .depth fault => fault.message

/-- Why a run breaks off without an answer, also for the methods that would have come later. -/
inductive Crash where
  | missingEntry
  | keySpan
deriving DecidableEq

def Crash.message : Crash → String
  | .missingEntry => "Graph without its entry block"
  | .keySpan => "Overflow at the keys of a switch"

inductive CompileError where
  | unsupported (cause : Unsupported)
  | malformed (fault : ContractFault)
  | unrepresentable (value : Int) (type : Ty)
  | internal (fault : InternalFault)
  | crash (cause : Crash)
deriving DecidableEq

def CompileError.message : CompileError → String
  | .unsupported cause => "Unsupported " ++ cause.construct ++ ": " ++ cause.reason
  | .malformed fault => "Malformed IR: " ++ fault.message
  | .unrepresentable v t => "Constant " ++ intText v ++ " cannot be represented as " ++ t.text
  | .internal fault => "Internal code generation error: " ++ fault.message
  | .crash cause => cause.message

def uncrashed {α : Type} : Except CompileError α → Except Crash (Except CompileError α)
  | .error (.crash c) => .error c
  | r => .ok r

end StackCode
