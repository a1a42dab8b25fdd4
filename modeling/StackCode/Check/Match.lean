import StackCode.Check.Spec
import StackCode.Numeral.Layout

namespace StackCode.Check

inductive Mismatch where
  | notFound (isLabel : Bool) (pattern : String)
  | noLine (pattern : String)
  | otherLine (pattern line : String)
  | notBlank (line : String)
  | present (pattern line : String)
deriving DecidableEq

def searchWord (isLabel : Bool) : String :=
  if isLabel then "CHECK-LABEL" else "CHECK"

def Mismatch.message : Mismatch → String
  | .notFound isLabel p => searchWord isLabel ++ ": pattern '" ++ p ++ "' not found"
  | .noLine p => "CHECK-NEXT: no more lines, expected '" ++ p ++ "'"
  | .otherLine p l => "CHECK-NEXT: expected '" ++ p ++ "' but got '" ++ l ++ "'"
  | .notBlank l => "CHECK-EMPTY: expected empty line but got '" ++ l ++ "'"
  | .present p l => "CHECK-NOT: pattern '" ++ p ++ "' found in '" ++ l ++ "'"

def occurs (pattern line : String) : Bool :=
  Text.occursIn pattern.toList line.toList

structure Progress where
  position : Nat := 0
  forbidden : List String := []
deriving DecidableEq

def present? (forbidden lines : List String) : Option Mismatch :=
  forbidden.findSome? fun p => (lines.find? (occurs p)).map (.present p)

def pass (s : Progress) (skipped : List String) (position : Nat) : Except Mismatch Progress :=
  match present? s.forbidden skipped with
  | some m => .error m
  | none => .ok ⟨position, []⟩

def search (lines : List String) (s : Progress) (isLabel : Bool) (pattern : String) :
    Except Mismatch Progress :=
  let rest := lines.drop s.position
  match rest.findIdx? (occurs pattern) with
  | none => .error (.notFound isLabel pattern)
  | some n => pass s (rest.take n) (s.position + n + 1)

def step (lines : List String) (s : Progress) : Directive → Except Mismatch Progress
  | .comment _ => .ok s
  | .absent p => .ok { s with forbidden := s.forbidden ++ [p] }
  | .check p => search lines s false p
  | .label p => search lines s true p
  | .next p =>
    match lines[s.position]? with
    | none => .error (.noLine p)
    | some l => if occurs p l then .ok ⟨s.position + 1, []⟩ else .error (.otherLine p l)
  | .blank =>
    match lines[s.position]? with
    | none => .ok ⟨s.position, []⟩
    | some l =>
      if (Text.trim l.toList).isEmpty then .ok ⟨s.position + 1, []⟩ else .error (.notBlank l)

def steps (lines : List String) (s : Progress) : List Directive → Except Mismatch Progress
  | [] => .ok s
  | d :: ds =>
    match step lines s d with
    | .error m => .error m
    | .ok s => steps lines s ds

def validate (output : String) (directives : List Directive) : Except Mismatch Unit :=
  let lines := Text.lines output
  match steps lines {} directives with
  | .error m => .error m
  | .ok s =>
    match present? s.forbidden (lines.drop s.position) with
    | some m => .error m
    | none => .ok ()

def report (position : Nat) : Directive → List String
  | .check p => [searchWord false ++ ": '" ++ p ++ "' found at line " ++ natText (position - 1)]
  | .label p => [searchWord true ++ ": '" ++ p ++ "' found at line " ++ natText (position - 1)]
  | .next p => ["CHECK-NEXT: '" ++ p ++ "' matches at line " ++ natText (position - 1)]
  | _ => []

def reports (lines : List String) (s : Progress) : List Directive → List String
  | [] => []
  | d :: ds =>
    match step lines s d with
    | .error _ => []
    | .ok s => report s.position d ++ reports lines s ds

end StackCode.Check
