import StackCode.Machine.Body
import StackCode.Weight

namespace StackCode.Machine

inductive DepthFault where
  | fallsOff (position : Nat)
  | mismatch (position known depth : Nat)
  | noMethod (position : Nat)
  | surplus (position depth : Nat)
  | underflow (position : Nat) (opcode : Opcode) (pops depth : Nat)
  | occupiedTry (position depth : Nat)
deriving DecidableEq

def DepthFault.message : DepthFault → String
  | .fallsOff p => "control falls off the end of the method at " ++ positionLabel p
  | .mismatch p known depth =>
    "stack depth mismatch at " ++ positionLabel p ++ ": " ++ natText known ++ " vs "
      ++ natText depth
  | .noMethod p => "call at " ++ positionLabel p ++ " has no method operand"
  | .surplus p depth =>
    "ret at " ++ positionLabel p ++ " leaves " ++ natText depth ++ " values on the stack"
  | .underflow p op pops depth =>
    "stack underflow at " ++ positionLabel p ++ ": " ++ op.text ++ " pops " ++ natText pops
      ++ " with depth " ++ natText depth
  | .occupiedTry p depth =>
    "try region at " ++ positionLabel p ++ " entered with " ++ natText depth
      ++ " values on the stack"

namespace Instr

def exchange (i : Instr) (position depth : Nat) : Except DepthFault (Nat × Nat) :=
  match i.opcode.effect with
  | .fixed pops pushes => .ok (pops, pushes)
  | .call =>
    match i.operand with
    | .method _ arguments returns => .ok (arguments, returns.toNat)
    | _ => .error (.noMethod position)
  | .newObject =>
    match i.operand with
    | .method _ arguments _ => .ok (arguments, 1)
    | _ => .error (.noMethod position)
  | .ret => if 1 < depth then .error (.surplus position depth) else .ok (depth, 0)
  | .leave => .ok (depth, 0)

def depthAfter (i : Instr) (position depth : Nat) : Except DepthFault Nat :=
  match i.exchange position depth with
  | .error e => .error e
  | .ok (pops, pushes) =>
    if depth < pops then .error (.underflow position i.opcode pops depth)
    else .ok (depth - pops + pushes)

def successors (i : Instr) (position : Nat) : List Nat :=
  (if i.opcode.endsFlow then [] else [position + 1]) ++ i.operand.branchTargets.reverse

end Instr

structure Site where
  instr : Instr
  depth : Option Nat
deriving DecidableEq

def Site.weight (s : Site) : Nat :=
  match s.depth with
  | some _ => 0
  | none => s.instr.operand.branchTargets.length + 2

theorem Instr.length_successors_lt (i : Instr) (position : Nat) :
    (i.successors position).length < i.operand.branchTargets.length + 2 := by
  unfold Instr.successors
  split <;> simp

def explore (sites : Array Site) : List (Nat × Nat) → Except DepthFault (Array Site)
  | [] => .ok sites
  | (p, d) :: pending =>
    match _h : sites[p]? with
    | none => .error (.fallsOff p)
    | some ⟨_, some known⟩ =>
      if known = d then explore sites pending else .error (.mismatch p known d)
    | some ⟨i, none⟩ =>
      match i.depthAfter p d with
      | .error e => .error e
      | .ok after =>
        explore (sites.setIfInBounds p ⟨i, some d⟩)
          ((i.successors p).map (·, after) ++ pending)
termination_by pending => weight Site.weight sites.toList + pending.length
decreasing_by
  · simp
  · have hs := weight_set Site.weight sites.toList p ⟨i, none⟩ ⟨i, some d⟩
      (by simpa using _h)
    have hl := i.length_successors_lt p
    simp [Site.weight] at hs ⊢
    omega

def Body.starts (b : Body) : List (Nat × Nat) :=
  (b.handlers.map fun h => (h.handlerStart, 1)).reverse ++ if b.instrs.isEmpty then [] else [(0, 0)]

structure Depths where
  depths : List (Option Nat)
  maxStack : Nat
deriving DecidableEq

def Site.peak (s : Site) (position : Nat) : Nat :=
  match s.depth with
  | none => 0
  | some d =>
    match s.instr.depthAfter position d with
    | .ok after => max d after
    | .error _ => d

def occupiedTry? (sites : Array Site) (h : Handler) : Option DepthFault :=
  match sites[h.tryStart]? with
  | some ⟨_, some (d + 1)⟩ => some (.occupiedTry h.tryStart (d + 1))
  | _ => none

/-- The depths of a body. Protected ranges are entered with an empty stack. -/
def Body.depths (b : Body) : Except DepthFault Depths :=
  match explore (b.instrs.map fun i => ⟨i, none⟩).toArray b.starts with
  | .error e => .error e
  | .ok sites =>
    match b.handlers.findSome? (occupiedTry? sites) with
    | some e => .error e
    | none =>
      .ok ⟨sites.toList.map Site.depth,
        (sites.toList.zipIdx.map fun (s, p) => s.peak p).foldl max 0⟩

end StackCode.Machine
