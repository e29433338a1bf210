import InstSelect.CommandLine.Run

/-!
# The program

Lowers stored modules from the command line.
-/

namespace InstSelect.CommandLine

/-- The files of the file system. -/
def diskFiles : Files IO where
  read path := do
    try
      let text ← IO.FS.readFile path
      pure (some text)
    catch _ => pure none
  write path text := do
    try
      IO.FS.writeFile path text
      pure true
    catch _ => pure false

end InstSelect.CommandLine

/-- Entry point. -/
def main (args : List String) : IO UInt32 := do
  let report ← InstSelect.CommandLine.run InstSelect.CommandLine.diskFiles args
  IO.print report.stdout
  IO.eprint report.stderr
  pure report.exitCode.toUInt32
