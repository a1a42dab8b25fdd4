import StackCode.Check.Match
import StackCode.Compile
import StackCode.Source.Parser
import StackCode.Source.Printer

namespace StackCode.Check

inductive Error where
  | parse (e : Source.ParseError)
  | unknownCommand (name : String)
  | unknownOption (name : String)
  | mismatch (m : Mismatch)
  | crash (c : Crash)
deriving DecidableEq

def Error.message : Error → String
  | .parse e => e.message
  | .unknownCommand name => "unknown RUN command '" ++ name ++ "'"
  | .unknownOption name => "unknown RUN option '" ++ name ++ "'"
  | .mismatch m => m.message
  | .crash c => c.message

structure RunOptions where
  compile : Options := {}
  printGraph : Bool := false
  printSchedule : Bool := false
deriving DecidableEq

namespace RunOptions

def add (o : RunOptions) : String → Except Error RunOptions
  | "%s" => .ok o
  | "--no-peephole" => .ok { o with compile := { o.compile with peephole := false } }
  | "--no-compact" => .ok { o with compile := { o.compile with compact := false } }
  | "--no-verify" => .ok { o with compile := { o.compile with verify := false } }
  | "--print-ir" => .ok { o with printGraph := true }
  | "--print-schedule" => .ok { o with printSchedule := true }
  | other => .error (.unknownOption other)

def ofRun (r : Run) : Except Error RunOptions :=
  if r.command ≠ "%stackgen" then .error (.unknownCommand r.command)
  else r.args.foldlM add {}

end RunOptions

def trimEnd (s : String) : String :=
  String.ofList (Text.trimRight s.toList)

def parts (o : RunOptions) (m : NamedGraph) (r : Except CompileError Compiled)
    (symbols : Symbols) : List String :=
  ["method " ++ m.name]
    ++ (if o.printGraph then [trimEnd (Source.print m)] else [])
    ++ (match r with
      | .error e => ["error: " ++ e.message]
      | .ok c =>
        (if o.printSchedule then
          ["schedule " ++ m.name, trimEnd (Text.unlines c.schedule.lines)] else [])
          ++ [trimEnd (Text.unlines (c.body.listing symbols.display))])
    ++ [""]

def allParts (o : RunOptions) (w : Workspace) : List NamedGraph → Except Error (List String)
  | [] => .ok []
  | m :: ms =>
    match Setting.compile { options := o.compile } m w with
    | (.error (.crash c), _) => .error (.crash c)
    | (r, w) => (allParts o w ms).map (parts o m r w.symbols ++ ·)

def execute (source : String) (r : Run) : Except Error String :=
  match RunOptions.ofRun r with
  | .error e => .error e
  | .ok o =>
    match Source.parse source with
    | .error e => .error (.parse e)
    | .ok ms => (allParts o {} ms).map ("\n".intercalate ·)

def runAll (source : String) (directives : List Directive) :
    List Run → List String × Except Error Unit
  | [] => ([], .ok ())
  | r :: rs =>
    match execute source r with
    | .error e => ([], .error e)
    | .ok output =>
      let lines := output :: reports (Text.lines output) {} directives
      match validate output directives with
      | .error m => (lines, .error (.mismatch m))
      | .ok _ =>
        let (more, result) := runAll source directives rs
        (lines ++ more, result)

def Spec.run (s : Spec) : List String × Except Error Unit :=
  runAll s.source s.directives s.runs

end StackCode.Check
