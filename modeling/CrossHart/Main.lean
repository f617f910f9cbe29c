import CrossHart.Userland.Command

/-!
# The executable

The outer layer of the command: it reads the variables and the one file that the command needs, and
writes what the command reports.
-/

namespace CrossHart.Userland

/-- The reason for which the system did not read a file. -/
def FileError.ofSystem : IO.Error → FileError
  | .inappropriateType _ 21 _ => .isDirectory
  | .inappropriateType .. => .notDirectory
  | .invalidArgument _ 36 _ => .nameTooLong
  | _ => .missing

/-- The contents of a file. -/
def readProgram (path : String) : IO (Except FileError ByteArray) := do
  try
    return .ok (← IO.FS.readBinFile path)
  catch e =>
    return .error (FileError.ofSystem e)

/-- The engine's variables that are set. -/
def environment : IO (List (String × String)) := do
  let mut env := []
  for name in Config.variableNames do
    match ← IO.getEnv name with
    | some value => env := (name, value) :: env
    | none => pure ()
  return env

/-- Writing a report, which gives the exit status. -/
def Report.write (r : Report) : IO UInt32 := do
  (← IO.getStdout).write r.out
  (← IO.getStderr).write r.err
  return UInt32.ofNat r.status

end CrossHart.Userland

open CrossHart.Userland in
/-- Running a program with the given arguments. -/
def main (args : List String) : IO UInt32 := do
  let env ← environment
  match Options.ofArgs args with
  | .error r => (Report.refused r).write
  | .ok o =>
    let data ← readProgram (o.program.getD "")
    (command args env fun _ => data).write
