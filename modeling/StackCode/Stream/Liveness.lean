import StackCode.Stream.Control

/-!
Which registers hold values that are read later, and which pairs of them must not share storage.
What is live before a segment follows from what is live before its successors, so segments are
walked backwards, again and again, until nothing changes any more.
-/

namespace StackCode

def Item.access? : Item → Option (Value × Bool)
  | .store v => some (v, true)
  | .load v | .address v => some (v, false)
  | _ => none

section Sets

variable {α : Type} [DecidableEq α]

def insertAll (set more : List α) : List α :=
  more.foldl (fun s a => s.insert a) set

def sameEntries (xs ys : List α) : Bool :=
  xs.all (ys.contains ·) && ys.all (xs.contains ·)

end Sets

/-- What is live before some code, and each tracked value that it stores with what is live right
after that. -/
structure Walk where
  live : List Value
  stored : List (Value × List Value)
deriving DecidableEq

def Walk.step (tracked always : List Value) (i : Item) (w : Walk) : Walk :=
  match i.access? with
  | none => w
  | some (v, stores) =>
    if tracked.contains v then
      if stores then ⟨insertAll (w.live.filter (· ≠ v)) always, (v, w.live) :: w.stored⟩
      else ⟨insertAll (w.live.insert v) always, w.stored⟩
    else w

def walk (tracked always out : List Value) (code : List Item) : Walk :=
  code.foldr (Walk.step tracked always) ⟨insertAll out always, []⟩

def gather (sets : List (List Value)) (ns : List Nat) : List Value :=
  ns.foldl (fun s n => insertAll s (sets.getD n [])) []

def Layout.walk (l : Layout) (tracked : List Value) (liveIn : List (List Value)) (n : Nat) : Walk :=
  StackCode.walk tracked (gather liveIn (l.handlers.getD n []))
    (gather liveIn (l.successors.getD n [])) (l.code.getD n [])

structure Dataflow where
  liveIn : List (List Value)
  queue : List Nat
  queued : List Bool
deriving DecidableEq

namespace Dataflow

def start (size : Nat) : Dataflow :=
  ⟨List.replicate size [], List.range size, List.replicate size true⟩

def enqueue (d : Dataflow) (n : Nat) : Dataflow :=
  if d.queued.getD n true then d
  else { d with queue := n :: d.queue, queued := d.queued.set n true }

def round (l : Layout) (tracked : List Value) (d : Dataflow) : Dataflow :=
  match d.queue with
  | [] => d
  | n :: queue =>
    let d := { d with queue, queued := d.queued.set n false }
    let live := (l.walk tracked d.liveIn n).live
    if sameEntries live (d.liveIn.getD n []) then d
    else (l.predecessors.getD n []).foldl enqueue { d with liveIn := d.liveIn.set n live }

def run (l : Layout) (tracked : List Value) : Nat → Dataflow → Dataflow
  | 0, d => d
  | k + 1, d => if d.queue.isEmpty then d else run l tracked k (d.round l tracked)

end Dataflow

/-- As many rounds as there can be: a value becomes live before a segment once, and then each
segment is queued once at most. -/
def Layout.rounds (l : Layout) (tracked : List Value) : Nat :=
  l.code.length * tracked.length * (l.code.length + 1) + l.code.length

structure Liveness where
  interference : List (Value × Value)
  liveIn : List (List Value)
deriving DecidableEq

def ordered (v w : Value) : Value × Value :=
  if v.id < w.id then (v, w) else (w, v)

namespace Liveness

def interferes (l : Liveness) (v w : Value) : Bool :=
  v ≠ w && l.interference.contains (ordered v w)

def atEntry (l : Liveness) : List Value :=
  l.liveIn.headD []

end Liveness

def liveness (items : List Item) (tracked : List Value) : Except CompileError Liveness :=
  match Control.ofItems items with
  | .error e => .error (.internal e)
  | .ok c =>
    let l := c.layout
    let liveIn := (Dataflow.run l tracked (l.rounds tracked) (.start l.code.length)).liveIn
    let stored := (List.range l.code.length).flatMap fun n => (l.walk tracked liveIn n).stored
    .ok ⟨insertAll [] (stored.flatMap fun (v, live) => (live.filter (· ≠ v)).map (ordered v)),
      liveIn⟩

end StackCode
