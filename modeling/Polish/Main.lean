/-
The program: its arguments in, two texts and an exit status out.
-/

import Polish.CommandLine

set_option relaxedAutoImplicit false
set_option autoImplicit false

/-- Runs the command line on the arguments of the process, under the name of its executable. -/
def main (args : List String) : IO UInt32 := do
  let path ← IO.appPath
  let a := Polish.answer (path.fileName.getD path.toString) args
  (← IO.getStdout).putStr a.stdout
  (← IO.getStderr).putStr a.stderr
  return UInt32.ofNat a.status
