import StackCode.Numeral.Layout

namespace StackCode

structure Stats where
  compiled : Nat := 0
  failed : Nat := 0
  emitted : Nat := 0
  opcodes : List (String × Nat) := []
  largestName : String := ""
  largestSize : Nat := 0
  allocated : Nat := 0
  recycled : Nat := 0
  handlers : Nat := 0
deriving DecidableEq

def tally (name : String) : List (String × Nat) → List (String × Nat)
  | [] => [(name, 1)]
  | (n, count) :: rest =>
    if n = name then (n, count + 1) :: rest else (n, count) :: tally name rest

namespace Stats

def byName (s : Stats) : List (String × Nat) :=
  s.opcodes.mergeSort fun a b => a.1 ≤ b.1

def byCount (s : Stats) : List (String × Nat) :=
  s.byName.mergeSort fun a b => b.2 ≤ a.2

def lines (s : Stats) : List String :=
  [ "Compilation Session Statistics:",
    "  Methods compiled: " ++ natText s.compiled,
    "  Methods failed: " ++ natText s.failed,
    "  Instructions emitted: " ++ natText s.emitted,
    "  Registers allocated: " ++ natText s.allocated,
    "  Registers recycled: " ++ natText s.recycled,
    "  Exception handlers: " ++ natText s.handlers ]
    ++ (if s.largestName = "" then []
      else ["  Largest method: " ++ s.largestName ++ " (" ++ natText s.largestSize
        ++ " instructions)"])
    ++ (if s.opcodes.isEmpty then []
      else "  Opcode breakdown:"
        :: (s.byCount.take 10).map fun (name, count) => "    " ++ name ++ ": " ++ natText count)

end Stats

structure Session where
  stats : Stats := {}
  current : Option String := none
deriving DecidableEq

namespace Session

def start (s : Session) (name : String) : Session :=
  { s with current := some name }

/-- Ends a method. The first one, and one larger than all before, is the largest. -/
def succeed (s : Session) (name : String) (size : Nat) : Session :=
  let grows := s.stats.largestSize < size || s.stats.largestName = ""
  { stats := { s.stats with
      compiled := s.stats.compiled + 1
      largestName := if grows then name else s.stats.largestName
      largestSize := if grows then size else s.stats.largestSize }
    current := none }

def fail (s : Session) : Session :=
  { stats := { s.stats with failed := s.stats.failed + 1 }, current := none }

def emit (s : Session) (mnemonic : String) : Session :=
  { s with stats := { s.stats with
      emitted := s.stats.emitted + 1
      opcodes := tally mnemonic s.stats.opcodes } }

def addRegisters (s : Session) (allocated recycled : Nat) : Session :=
  { s with stats := { s.stats with
      allocated := s.stats.allocated + allocated
      recycled := s.stats.recycled + recycled } }

def addHandlers (s : Session) (count : Nat) : Session :=
  { s with stats := { s.stats with handlers := s.stats.handlers + count } }

end Session

end StackCode
