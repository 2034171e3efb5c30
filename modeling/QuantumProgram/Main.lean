/-
  QuantumProgram — the program.

  The command line is run on the files of the system.
-/
import QuantumProgram.CommandLine.Run

namespace QuantumProgram

/-- The files of the system. -/
def systemFiles : Files IO where
  read path := do
    try
      return .ok (← IO.FS.readFile path)
    catch
      | .noFileOrDirectory .. => return .error .missing
      | e => return .error (.failed (toString e))
  write path contents := do
    try
      IO.FS.writeFile path contents
      return .ok ()
    catch e => return .error (toString e)

end QuantumProgram

open QuantumProgram in
def main (args : List String) : IO UInt32 := do
  let deep ← IO.getEnv "MOMENTA_DEEP"
  let threads ← IO.getEnv "MOMENTA_THREADS"
  let env : Environment := fun name =>
    if name = "MOMENTA_DEEP" then deep else if name = "MOMENTA_THREADS" then threads else none
  let finish ← runCommandLine systemFiles env args
  (← IO.getStdout).putStr finish.printed
  (← IO.getStderr).putStr finish.complaint
  return finish.code
