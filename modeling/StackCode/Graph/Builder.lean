import StackCode.Graph.Basic

namespace StackCode

structure Builder where
  entry : Option Label := none
  blocks : Array Block := #[]
  values : Array ValueInfo := #[]

namespace Builder

def hasBlock (b : Builder) (l : Label) : Bool :=
  l.id < b.blocks.size

def addBlock (b : Builder) (name : String) : Builder × Label :=
  let l : Label := ⟨b.blocks.size⟩
  ({ b with
      entry := some (b.entry.getD l)
      blocks := b.blocks.push ⟨l, name, [], [], .unreachable⟩ }, l)

def setEntry (b : Builder) (l : Label) : Builder :=
  { b with entry := some l }

def modifyBlock (b : Builder) (l : Label) (f : Block → Block) : Builder :=
  { b with blocks := b.blocks.modify l.id f }

def parameterCount (b : Builder) (l : Label) : Nat :=
  match b.blocks[l.id]? with
  | some block => block.parameters.length
  | none => 0

def addParameter (b : Builder) (l : Label) (name : Option String) (type : Ty) : Builder × Value :=
  let v : Value := ⟨b.values.size⟩
  let info : ValueInfo := ⟨name, type, .parameter l (b.parameterCount l)⟩
  ({ b with values := b.values.push info }.modifyBlock l
    fun block => { block with parameters := block.parameters ++ [(⟨v, type⟩ : Parameter)] }, v)

def addInstr (b : Builder) (l : Label) (name : Option String) (i : Instr) : Builder × Value :=
  let v : Value := ⟨b.values.size⟩
  let info : ValueInfo := ⟨name, i.operation.resultType, .instruction l i⟩
  ({ b with values := b.values.push info }.modifyBlock l
    fun block => { block with instructions := block.instructions ++ [v] }, v)

def setFlow (b : Builder) (l : Label) (f : Flow) : Builder :=
  b.modifyBlock l fun block => { block with flow := f }

def finish (b : Builder) : Graph :=
  ⟨b.entry.getD ⟨0⟩, b.blocks, b.values⟩

end Builder

inductive BuildStep where
  | block (name : String)
  | entry (l : Label)
  | parameter (l : Label) (name : Option String) (type : Ty)
  | instr (l : Label) (name : Option String) (i : Instr)
  | flow (l : Label) (f : Flow)

inductive BuildAnswer where
  | none
  | block (l : Label)
  | parameter (v : Value) (count : Nat)
  | value (v : Value)

namespace Builder

def step? (b : Builder) : BuildStep → Option (Builder × BuildAnswer)
  | .block name =>
    let (b, l) := b.addBlock name
    some (b, .block l)
  | .entry l => some (b.setEntry l, .none)
  | .parameter l name type =>
    if b.hasBlock l then
      let (b, v) := b.addParameter l name type
      some (b, .parameter v (b.parameterCount l))
    else none
  | .instr l name i =>
    if b.hasBlock l then
      let (b, v) := b.addInstr l name i
      some (b, .value v)
    else none
  | .flow l f => if b.hasBlock l then some (b.setFlow l f, .none) else none

def run? (b : Builder) : List BuildStep → Option (Builder × List BuildAnswer)
  | [] => some (b, [])
  | s :: steps =>
    match b.step? s with
    | none => none
    | some (b, answer) =>
      match b.run? steps with
      | none => none
      | some (b, answers) => some (b, answer :: answers)

end Builder

end StackCode
