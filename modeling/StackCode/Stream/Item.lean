import StackCode.Graph.Basic
import StackCode.Machine.Body

namespace StackCode

open Machine (Opcode Ref)

inductive Item where
  | op (i : Machine.Instr)
  | jump (opcode : Opcode) (target : Label)
  | switch (targets : List Label)
  | load (v : Value)
  | store (v : Value)
  | address (v : Value)
  | label (l : Label)
  | tryStart
  | handlerStart (caught : Ref)
  | handlerEnd
deriving DecidableEq

namespace Item

abbrev plain (opcode : Opcode) : Item := .op ⟨opcode, .none⟩

def opcode? : Item → Option Opcode
  | .op i => some i.opcode
  | .jump opcode _ => some opcode
  | .switch _ => some .switch
  | _ => none

def register? : Item → Option Value
  | .load v | .store v | .address v => some v
  | _ => none

def isMark : Item → Bool
  | .label _ | .tryStart | .handlerStart _ | .handlerEnd => true
  | _ => false

def targets : Item → List Label
  | .jump _ l => [l]
  | .switch ls => ls
  | _ => []

def fallsThrough (i : Item) : Bool :=
  match i.opcode? with
  | some opcode => !opcode.endsFlow
  | none => true

def transfers : Item → Bool
  | .op i => i.opcode.endsFlow
  | .jump _ _ | .switch _ => true
  | _ => false

def text : Item → String
  | .op i => "  " ++ i.text
  | .jump opcode target => "  " ++ opcode.text ++ " " ++ target.text
  | .switch ls => "  switch (" ++ ", ".intercalate (ls.map Label.text) ++ ")"
  | .load v => "  load " ++ v.text
  | .store v => "  store " ++ v.text
  | .address v => "  address " ++ v.text
  | .label l => l.text ++ ":"
  | .tryStart => "  .try \x7b"
  | .handlerStart caught => "  \x7d catch " ++ caught.text ++ " \x7b"
  | .handlerEnd => "  \x7d"

end Item

end StackCode
