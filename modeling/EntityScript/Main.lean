import EntityScript.Program

/-!
The command line: reads files, prints the report or what went wrong.
-/

namespace EntityScript

/-- The number of a system error, which comes with either sign. -/
def errorNumber (code : UInt32) : Nat := min code.toNat (UInt32.size - code.toNat)

def fileErrorOf : IO.Error → FileError
  | .noFileOrDirectory .. => .notFound
  | .inappropriateType _ code _ => if errorNumber code = 20 then .notDirectory else .isDirectory
  | .invalidArgument _ code text => if errorNumber code = 36 then .nameTooLong else .other text
  | e => .other (toString e)

def readFile (path : String) : IO (Except FileError ByteArray) := do
  try
    return .ok (← IO.FS.readBinFile path)
  catch e =>
    return .error (fileErrorOf e)

def freshSeed : IO Nat := do
  let bytes ← IO.getRandomBytes 8
  return bytes.toList.foldl (fun n b => 256 * n + b.toNat) 0

end EntityScript

open EntityScript in
def main (arguments : List String) : IO UInt32 := do
  match ← program readFile (← freshSeed) arguments with
  | .ok report =>
    IO.println report.toJson.toText
    return 0
  | .error e =>
    IO.eprintln s!"Error: {e.message}"
    return 1
