import Sketchwright.CommandLine

/-! The program, run by the system that it was started on. -/

namespace Sketchwright

def fileError : IO.Error → FileError
  | .noFileOrDirectory .. => .notFound
  | .inappropriateType _ code _ => if code = 21 then .isDirectory else .notDirectory
  | error => .other (toString error)

def attempted {α : Type} (step : IO α) : IO (Except FileError α) := do
  try
    return .ok (← step)
  catch error => return .error (fileError error)

def hostSystem : CommandLine.System IO where
  readFile path := attempted (IO.FS.readBinFile path)
  readInput := attempted do (← IO.getStdin).readBinToEnd
  writeFile path content := attempted (IO.FS.writeBinFile path content)
  print := IO.print
  printError := IO.eprint

end Sketchwright

def main (args : List String) : IO UInt32 :=
  Sketchwright.CommandLine.start Sketchwright.hostSystem Sketchwright.CommandLine.readYaml args
