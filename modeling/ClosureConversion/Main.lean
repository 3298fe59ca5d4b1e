import ClosureConversion.Command.Line

/-!
# The program

Runs the command line on the files of the current directory and prints the result. With `-v` and
more, the events of the classification go to the standard error output first.
-/

namespace ClosureConversion

/-- Access to the files of the machine. -/
def diskFiles : Files IO where
  read path := do
    try
      return String.fromUTF8? (← IO.FS.readBinFile path)
    catch _ => return none
  isFile path := do
    try
      let _ ← IO.FS.readBinFile path
      return true
    catch _ => return false
  write path text := do
    try
      IO.FS.writeFile path text
      return true
    catch _ => return false

/-- How often `-v` has to be given for a level to be shown. -/
def LogLevel.verbosity : LogLevel → Nat
  | .info => 1
  | .debug => 2
  | .trace => 3

end ClosureConversion

open ClosureConversion in
/-- Run the program on its arguments. -/
def main (args : List String) : IO UInt32 := do
  let terminal ← (← IO.getStdout).isTty
  let exit ← runProgram diskFiles terminal args
  for e in exit.events do
    if e.level.verbosity ≤ exit.verbosity then IO.eprintln e.line
  IO.print exit.out
  IO.eprint exit.err
  return exit.code
