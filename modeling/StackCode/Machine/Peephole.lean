import StackCode.Machine.Body

/-!
Small improvements of finished code, none of which moves an instruction to another position. A store
followed by a load of the same slot becomes a duplication followed by the store. Slot accesses and
small constants take their short forms.
-/

namespace StackCode.Machine

inductive Slot where
  | local (index : Nat)
  | argument (index : Nat)
deriving DecidableEq

namespace Instr

def storedSlot (i : Instr) : Option Slot :=
  match i.opcode, i.operand with
  | .stloc, .local n | .stlocS, .local n => some (.local n)
  | .stlocAt n, _ => some (.local n)
  | .starg, .argument n | .stargS, .argument n => some (.argument n)
  | _, _ => none

def loadedSlot (i : Instr) : Option Slot :=
  match i.opcode, i.operand with
  | .ldloc, .local n | .ldlocS, .local n => some (.local n)
  | .ldlocAt n, _ => some (.local n)
  | .ldarg, .argument n | .ldargS, .argument n => some (.argument n)
  | .ldargAt n, _ => some (.argument n)
  | _, _ => none

def fusable (store load : Instr) : Bool :=
  match store.storedSlot with
  | some slot => load.loadedSlot = some slot
  | none => false

end Instr

def Handler.bounds (h : Handler) : List Nat :=
  [h.tryStart, h.tryEnd, h.handlerStart, h.handlerEnd]

/-- Positions that control can reach other than from the instruction before. -/
def Body.entryPoints (b : Body) : List Nat :=
  b.instrs.flatMap (·.operand.branchTargets) ++ b.handlers.flatMap Handler.bounds

/-- Fuses pairs from the left, `a` standing at `position` before the rest. A store that has moved
can be fused again with the next load. -/
def fuseFrom (entered : Nat → Bool) (position : Nat) (a : Instr) : List Instr → List Instr × Nat
  | [] => ([a], 0)
  | b :: rest =>
    if !entered (position + 1) && a.fusable b then
      let (code, count) := fuseFrom entered (position + 1) a rest
      (⟨.dup, .none⟩ :: code, count + 1)
    else
      let (code, count) := fuseFrom entered (position + 1) b rest
      (a :: code, count)

def byteSized (n : Nat) : Bool := n ≤ 255

def Instr.shortForm? (i : Instr) : Option Instr :=
  match i.opcode, i.operand with
  | .ldcI4, .int32 v =>
    let n := v.toInt
    if n = -1 then some ⟨.ldcI4M1, .none⟩
    else if 0 ≤ n ∧ n ≤ 8 then some ⟨.ldcI4Of n.toNat.toUInt8, .none⟩
    else if -128 ≤ n ∧ n ≤ 127 then some ⟨.ldcI4S, .int32 v⟩
    else none
  | .ldloc, .local n =>
    if h : n < 4 then some ⟨.ldlocAt ⟨n, h⟩, .none⟩
    else if byteSized n then some ⟨.ldlocS, .local n⟩ else none
  | .stloc, .local n =>
    if h : n < 4 then some ⟨.stlocAt ⟨n, h⟩, .none⟩
    else if byteSized n then some ⟨.stlocS, .local n⟩ else none
  | .ldarg, .argument n =>
    if h : n < 4 then some ⟨.ldargAt ⟨n, h⟩, .none⟩
    else if byteSized n then some ⟨.ldargS, .argument n⟩ else none
  | .ldloca, .local n => if byteSized n then some ⟨.ldlocaS, .local n⟩ else none
  | .ldarga, .argument n => if byteSized n then some ⟨.ldargaS, .argument n⟩ else none
  | .starg, .argument n => if byteSized n then some ⟨.stargS, .argument n⟩ else none
  | _, _ => none

namespace Body

def fuse (b : Body) : Body × Nat :=
  match b.instrs with
  | [] => (b, 0)
  | first :: rest =>
    let points := b.entryPoints
    let (code, count) := fuseFrom points.contains 0 first rest
    ({ b with instrs := code }, count)

def compact (b : Body) : Body × Nat :=
  ({ b with instrs := b.instrs.map fun i => i.shortForm?.getD i },
    b.instrs.countP fun i => i.shortForm?.isSome)

def optimize (b : Body) (compaction : Bool) : Body × Nat :=
  let (b, fused) := b.fuse
  if compaction then
    let (b, compacted) := b.compact
    (b, fused + compacted)
  else (b, fused)

end Body

end StackCode.Machine
