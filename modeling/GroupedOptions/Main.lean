import GroupedOptions.CommandLine

/-!
# The program

Carries out the report of a command line. A script goes into a temporary file,
whose path is printed for a shell to source.
-/

namespace GroupedOptions

/-- Writes a script to a new temporary file and prints its path. -/
def writeScript (script : String) : IO Unit := do
  let (handle, path) ← IO.FS.createTempFile
  handle.putStr script
  handle.flush
  IO.println path.toString

def Report.perform : Report → IO Unit
  | .usage => IO.eprintln "usage: gopt [--debug] parse|match|split ..."
  | .printed text => IO.print text
  | .sourced script => writeScript script
  | .failed done message cause => do
      IO.print done
      IO.eprintln ("Error: " ++ message)
      IO.eprint ((cause.map Report.causeLines).getD "")
  | .overflow => IO.eprintln (Halt.message .overflow)

end GroupedOptions

def main (args : List String) : IO UInt32 := do
  let report := GroupedOptions.CommandLine.run args
  report.perform
  return UInt32.ofNat report.exitCode
