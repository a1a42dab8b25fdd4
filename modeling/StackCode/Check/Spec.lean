import StackCode.Text.Blank
import StackCode.Text.Lines

namespace StackCode.Check

inductive Directive where
  | check (pattern : String)
  | label (pattern : String)
  | next (pattern : String)
  | absent (pattern : String)
  | blank
  | comment (text : String)
deriving DecidableEq

structure Run where
  command : String
  args : List String
deriving DecidableEq

structure Spec where
  runs : List Run
  directives : List Directive
  source : String
deriving DecidableEq

inductive Line where
  | run (r : Option Run)
  | directive (d : Directive)
  | source
deriving DecidableEq

def after? (mark : String) (line : List Char) : Option (List Char) :=
  if mark.toList.isPrefixOf line then some (Text.trim (line.drop mark.toList.length)) else none

def Run.ofWords? : List (List Char) → Option Run
  | [] => none
  | w :: ws => some ⟨String.ofList w, ws.map String.ofList⟩

def Line.ofTrimmed (line : List Char) : Line :=
  if let some rest := after? "; RUN:" line then .run (Run.ofWords? (Text.words rest))
  else if let some rest := after? "; CHECK-LABEL:" line then
    .directive (.label (String.ofList rest))
  else if let some rest := after? "; CHECK-NEXT:" line then .directive (.next (String.ofList rest))
  else if let some rest := after? "; CHECK-NOT:" line then
    .directive (.absent (String.ofList rest))
  else if (after? "; CHECK-EMPTY" line).isSome then .directive .blank
  else if let some rest := after? "; CHECK:" line then .directive (.check (String.ofList rest))
  else if let some rest := after? "; COM:" line then .directive (.comment (String.ofList rest))
  else .source

def Line.of (line : List Char) : Line :=
  Line.ofTrimmed (Text.trim line)

namespace Line

def run? : Line → Option Run
  | .run r => r
  | _ => none

def directive? : Line → Option Directive
  | .directive d => some d
  | _ => none

end Line

def sourceLine (line : List Char) : List Char :=
  if Line.of line = .source then line else []

def joinLines : List (List Char) → List Char
  | [] => []
  | [l] => l
  | l :: ls => l ++ '\n' :: joinLines ls

def Spec.parse (content : String) : Spec :=
  let ls := Text.lineList content.toList
  { runs := ls.filterMap fun l => (Line.of l).run?
    directives := ls.filterMap fun l => (Line.of l).directive?
    source := String.ofList (joinLines (ls.map sourceLine)) }

end StackCode.Check
