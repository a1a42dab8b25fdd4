import StackCode.CommandLine

namespace StackCode

def readAll (h : IO.FS.Stream) : IO String := do
  let mut text := ""
  repeat
    let line ← h.getLine
    if line.isEmpty then break
    text := text ++ line
  return text

def readInput (name : String) : IO String := do
  if name = "-" then readAll (← IO.getStdin) else IO.FS.readFile name

end StackCode

open StackCode in
def main (args : List String) : IO UInt32 := do
  match CommandLine.Options.parse args with
  | .error message =>
    IO.eprintln ("error: " ++ message)
    return 2
  | .ok o =>
    try
      let text ← readInput o.input
      let r := o.run text
      IO.print r.stdout
      IO.eprint r.stderr
      return r.exit.toUInt32
    catch e =>
      IO.eprintln ("error: cannot read " ++ o.input ++ ": " ++ e.toString)
      return 1
