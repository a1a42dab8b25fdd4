import StackCode.Error
import StackCode.Stream.Item

namespace StackCode

structure Region where
  start : Nat
  handler : Nat
deriving DecidableEq

def Region.covers (r : Region) (position : Nat) : Bool :=
  r.start ≤ position && position < r.handler

def labelPositions (items : List Item) : List (Label × Nat) :=
  (items.zipIdx.filterMap fun
    | (.label l, n) => some (l, n)
    | _ => none).reverse

/-- The regions of the items from `position` on. A handler belongs to the last of the open `tries`.
Branches have to go to labels that stand somewhere. -/
def regionsFrom (labels : List (Label × Nat)) (tries : List Nat) (position : Nat) :
    List Item → Except InternalFault (List Region)
  | [] => if tries.isEmpty then .ok [] else .error .openTry
  | .tryStart :: rest => regionsFrom labels (position :: tries) (position + 1) rest
  | .handlerStart _ :: rest =>
    match tries with
    | [] => .error .orphanHandler
    | start :: tries =>
      match regionsFrom labels tries (position + 1) rest with
      | .error e => .error e
      | .ok regions => .ok (⟨start, position⟩ :: regions)
  | i :: rest =>
    match i.targets.find? fun l => (labels.lookup l).isNone with
    | some l => .error (.unplacedTarget l)
    | none => regionsFrom labels tries (position + 1) rest

structure Control where
  items : List Item
  labels : List (Label × Nat)
  regions : List Region
deriving DecidableEq

namespace Control

def ofItems (items : List Item) : Except InternalFault Control :=
  let labels := labelPositions items
  match regionsFrom labels [] 0 items with
  | .error e => .error e
  | .ok regions => .ok ⟨items, labels, regions⟩

def successors (c : Control) (position : Nat) (i : Item) : List Nat :=
  i.targets.filterMap (fun l => c.labels.lookup l)
    ++ if i.fallsThrough && position + 1 < c.items.length then [position + 1] else []

def handlers (c : Control) (position : Nat) : List Nat :=
  (c.regions.filter (·.covers position)).map Region.handler

end Control

structure Segment where
  start : Nat
  stop : Nat
deriving DecidableEq

/-- The segments of the items from `position` on, the first of which begins at `start` already. A
segment ends before each mark and behind each transfer. -/
def segmentsFrom (start position : Nat) : List Item → List Segment
  | [] => if start < position then [⟨start, position⟩] else []
  | i :: rest =>
    if i.isMark && start < position then
      ⟨start, position⟩ :: segmentsFrom position (position + 1) rest
    else if i.transfers then
      ⟨start, position + 1⟩ :: segmentsFrom (position + 1) (position + 1) rest
    else segmentsFrom start (position + 1) rest

def sources (size : Nat) (edges : List (Nat × Nat)) : List (List Nat) :=
  (List.range size).map fun n => (edges.filter (·.2 = n)).map Prod.fst

/-- The code of each segment, and by their numbers the segments where control goes on behind it,
where its exceptions are handled, and where control comes from. -/
structure Layout where
  code : List (List Item)
  successors : List (List Nat)
  handlers : List (List Nat)
  predecessors : List (List Nat)
deriving DecidableEq

def Control.layout (c : Control) : Layout :=
  let segments := segmentsFrom 0 0 c.items
  let numbers (positions : List Nat) : List Nat :=
    positions.filterMap fun p => segments.findIdx? (·.start = p)
  let next (s : Segment) : List Nat := c.items[s.stop - 1]?.elim [] (c.successors (s.stop - 1))
  let successors := segments.map fun s => numbers (c.handlers s.start ++ next s)
  { code := segments.map fun s => (c.items.drop s.start).take (s.stop - s.start)
    successors
    handlers := segments.map fun s => numbers (c.handlers s.start)
    predecessors := sources segments.length
      (successors.zipIdx.flatMap fun (ns, n) => ns.map (n, ·)) }

end StackCode
