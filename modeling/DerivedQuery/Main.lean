import DerivedQuery.Cli.Program

/-!
# Entry point

Looks around for the program, and writes what the program says.
-/

namespace DerivedQuery.Cli

/-- What a path leads to on this machine. The system's number for a directory may be negated. -/
def entryAt (path : String) : IO Entry := do
  try
    return .file (← IO.FS.readBinFile path)
  catch
    | .inappropriateType _ code _ =>
      return if code = 21 ∨ code = 0 - 21 then .directory else .notDirectory
    | .permissionDenied .. => return .forbidden
    | _ => return .missing

/-- What the program finds around it on this machine. -/
def lookAround (arguments : List String) : IO World := do
  let known ← variableNames.mapM fun name => do return (name, ← IO.getEnv name)
  let blank : World :=
    { var? := fun name => (known.lookup name).join
      entry := fun _ => .missing
      stdin := ByteArray.empty
      isTerminal := ← (← IO.getStdout).isTty }
  let entries ← (blank.paths arguments).mapM fun path => do return (path, ← entryAt path)
  let stdin ← if readsStdin arguments then (← IO.getStdin).readBinToEnd else pure ByteArray.empty
  return { blank with entry := fun path => (entries.lookup path).getD .missing, stdin }

end DerivedQuery.Cli

def main (arguments : List String) : IO UInt32 := do
  let output := (← DerivedQuery.Cli.lookAround arguments).run arguments
  (← IO.getStderr).putStr output.stderr
  (← IO.getStdout).putStr output.stdout
  return output.exit.toUInt32
