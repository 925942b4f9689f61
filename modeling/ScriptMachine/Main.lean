import ScriptMachine.CommandLine

/-!
The command: carries out its command line and writes what it leaves.
-/

open ScriptMachine

def main (arguments : List String) : IO UInt32 := do
  let outcome := commandLine arguments
  (← IO.getStdout).putStr outcome.out
  (← IO.getStderr).putStr outcome.err
  return outcome.status.toUInt32
