import StackCode.Machine.Opcode
import StackCode.Member
import StackCode.Text.Quoted

namespace StackCode.Machine

inductive Table where
  | type | field | method
deriving DecidableEq

def Table.text : Table → String
  | .type => "type"
  | .field => "field"
  | .method => "method"

structure Ref where
  table : Table
  index : Nat
deriving DecidableEq

def Ref.text (r : Ref) : String :=
  r.table.text ++ "#" ++ natText r.index

inductive Operand where
  | none
  | int32 (v : Int32)
  | int64 (v : Int64)
  | float32 (x : Binary32)
  | float64 (x : Binary64)
  | string (s : String)
  | type (r : Ref)
  | field (r : Ref)
  | method (r : Ref) (arguments : Nat) (returns : Bool)
  | argument (index : Nat)
  | local (index : Nat)
  | target (position : Nat)
  | targets (positions : List Nat)
deriving DecidableEq

def positionLabel (position : Nat) : String :=
  let ds := decimalDigits position
  String.ofList ('I' :: 'L' :: '_' :: List.replicate (4 - ds.length) '0' ++ ds)

namespace Operand

def branchTargets : Operand → List Nat
  | .target p => [p]
  | .targets ps => ps
  | _ => []

def render (names : Ref → String) : Operand → String
  | .none => ""
  | .int32 v => intText v.toInt
  | .int64 v => intText v.toInt
  | .float32 x => x.literalText
  | .float64 x => x.literalText
  | .string s => Text.quote s
  | .type r | .field r | .method r _ _ => names r
  | .argument n | .local n => natText n
  | .target p => positionLabel p
  | .targets ps => "(" ++ ", ".intercalate (ps.map positionLabel) ++ ")"

end Operand

structure Instr where
  opcode : Opcode
  operand : Operand := .none
deriving DecidableEq

namespace Instr

def render (names : Ref → String) (i : Instr) : String :=
  let operand := i.operand.render names
  if operand = "" then i.opcode.text else i.opcode.text ++ " " ++ operand

def text (i : Instr) : String :=
  i.render Ref.text

end Instr

/-- A protected range and the handler for it. Ends are exclusive. -/
structure Handler where
  tryStart : Nat
  tryEnd : Nat
  handlerStart : Nat
  handlerEnd : Nat
  catchType : Ref
deriving DecidableEq

structure Body where
  instrs : List Instr
  handlers : List Handler
  locals : List Ty
  maxStack : Nat
deriving DecidableEq

namespace Body

private def localsLine (locals : List Ty) : String :=
  ".locals init ("
    ++ ", ".intercalate (locals.zipIdx.map fun (t, n) => "[" ++ natText n ++ "] " ++ t.text)
    ++ ")"

private def handlerLine (names : Ref → String) (h : Handler) : String :=
  ".try " ++ positionLabel h.tryStart ++ " to " ++ positionLabel h.tryEnd ++ " catch "
    ++ names h.catchType ++ " handler " ++ positionLabel h.handlerStart ++ " to "
    ++ positionLabel h.handlerEnd

def listing (names : Ref → String) (b : Body) : List String :=
  (".maxstack " ++ natText b.maxStack)
    :: (if b.locals.isEmpty then [] else [localsLine b.locals])
    ++ b.instrs.zipIdx.map (fun (i, n) => positionLabel n ++ ": " ++ i.render names)
    ++ b.handlers.map (handlerLine names)

end Body

end StackCode.Machine
