import StackCode.Check.Run

namespace StackCode.CommandLine

structure Options where
  input : String := "-"
  compile : StackCode.Options := {}
  printGraph : Bool := false
  printSchedule : Bool := false
  check : Bool := false
  stats : Bool := false
  verbose : Nat := 0
deriving DecidableEq

namespace Options

def add (o : Options) (arg : String) : Except String Options :=
  match arg with
  | "--no-peephole" => .ok { o with compile := { o.compile with peephole := false } }
  | "--no-compact" => .ok { o with compile := { o.compile with compact := false } }
  | "--no-verify" => .ok { o with compile := { o.compile with verify := false } }
  | "--print-ir" => .ok { o with printGraph := true }
  | "--print-schedule" => .ok { o with printSchedule := true }
  | "--check" => .ok { o with check := true }
  | "--stats" => .ok { o with stats := true }
  | "--verbose" => .ok { o with verbose := o.verbose + 1 }
  | "-" => .ok { o with input := "-" }
  | _ =>
    match arg.toList with
    | '-' :: cs =>
      if cs.all (· = 'v') then .ok { o with verbose := o.verbose + cs.length }
      else .error ("unexpected argument '" ++ arg ++ "' found")
    | _ => .ok { o with input := arg }

def parse (args : List String) : Except String Options :=
  args.foldlM add {}

end Options

structure Outcome where
  exit : Nat
  stdout : String
  stderr : String
deriving DecidableEq

def Outcome.failure (stdout message : String) : Outcome :=
  ⟨1, stdout, "error: " ++ message ++ "\n"⟩

def Outcome.crashed (stdout : String) (c : Crash) : Outcome :=
  ⟨101, stdout, c.message ++ "\n"⟩

def check (o : Options) (text : String) : Outcome :=
  let (lines, result) := (Check.Spec.parse text).run
  let printed := if 0 < o.verbose then Text.unlines lines else ""
  match result with
  | .error (.crash c) => .crashed printed c
  | .error e => .failure printed (o.input ++ ": " ++ e.message)
  | .ok _ => ⟨0, printed ++ "PASS: " ++ o.input ++ "\n", ""⟩

def headText (o : Options) (m : NamedGraph) : String :=
  "method " ++ m.name ++ "\n" ++ if o.printGraph then Source.print m else ""

def resultText (o : Options) (m : NamedGraph) (r : Except CompileError Compiled)
    (symbols : Symbols) : String :=
  (match r with
    | .error _ => ""
    | .ok c =>
      (if o.printSchedule then
        "schedule " ++ m.name ++ "\n" ++ Text.unlines c.schedule.lines else "")
        ++ Text.unlines (c.body.listing symbols.display))
    ++ "\n"

def compileAll (o : Options) (w : Workspace) :
    List NamedGraph → String × Except Crash (Bool × Stats)
  | [] => ("", .ok (true, w.session.stats))
  | m :: ms =>
    match Setting.compile { options := o.compile } m w with
    | (.error (.crash c), _) => (headText o m, .error c)
    | (r, w) =>
      let (text, result) := compileAll o w ms
      (headText o m ++ resultText o m r w.symbols ++ text,
        result.map fun (ok, stats) => (r.isOk && ok, stats))

def compile (o : Options) (text : String) : Outcome :=
  match Source.parse text with
  | .error e => .failure "" (o.input ++ ": " ++ e.message)
  | .ok ms =>
    match compileAll o {} ms with
    | (stdout, .error c) => .crashed stdout c
    | (stdout, .ok (ok, stats)) =>
      ⟨if ok then 0 else 1, stdout, if o.stats then Text.unlines stats.lines else ""⟩

def Options.run (o : Options) (text : String) : Outcome :=
  if o.check then CommandLine.check o text else CommandLine.compile o text

end StackCode.CommandLine
