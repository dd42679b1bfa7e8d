import StructuralTypes.CommandLine.Run
import StructuralTypes.Yaml.Value

/-! The command line program: files are read from disk, and the outcome is written to
the standard streams. -/

open StructuralTypes

/-- The text of a file, or why there is none. -/
def fileText (name : String) : IO (Except CommandLine.FileFault String) := do
  try
    return .ok (← IO.FS.readFile name)
  catch
    | .noFileOrDirectory .. => return .error .missing
    | e => return .error (.unreadable (toString e))

/-- The texts of all files that arguments can name. -/
def filesNamed (args : List String) : IO CommandLine.Files := do
  let names := args.flatMap fun arg => [arg, (CommandLine.splitAttached arg).2.getD arg]
  let texts ← names.mapM fun name => do
    let name := CommandLine.tidyName name
    return (name, ← fileText name)
  return fun name => ((texts.find? (·.1 == name)).map (·.2)).getD (.error .missing)

def main (args : List String) : IO UInt32 := do
  let env := { files := ← filesNamed args, standard := none, load := Yaml.loader }
  match CommandLine.run env args with
  | .ok outcome =>
    for record in outcome.log do
      IO.eprintln (record.level ++ " | " ++ record.logger ++ " | " ++ record.message)
    IO.print outcome.output
    IO.eprint outcome.diagnostics
    return UInt32.ofNat outcome.exitCode
  | .error fault =>
    IO.eprintln fault.message
    return 1
