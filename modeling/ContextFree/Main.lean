import ContextFree.Command.Run

/-!
# The program

Reads the file that the arguments name, runs, and writes the corpus.
-/

namespace ContextFree.Command

/-- The code of a failure stands for an error number. Some calls give the number negated. -/
def isErrorNumber (number code : UInt32) : Bool := code == number || code == 0 - number

/-- The file error for a failure of the operating system. -/
def fileErrorOf (error : IO.Error) : FileError :=
  match error with
  | .noFileOrDirectory _ _ _ => .missing
  | .inappropriateType _ code _ => if isErrorNumber 21 code then .directory else .belowFile
  | .invalidArgument _ code _ =>
    if isErrorNumber 36 code then .nameTooLong else ⟨.other, toString error⟩
  | .permissionDenied _ _ _ => ⟨.permissionDenied, "Permission denied (os error 13)"⟩
  | _ => ⟨.other, toString error⟩

/-- The text of a file. -/
def readText (path : String) : IO (Except FileError String) := do
  try
    let bytes ← IO.FS.readBinFile path
    return match String.fromUTF8? bytes with
      | some text => .ok text
      | none => .error .notText
  catch error => return .error (fileErrorOf error)

/-- Writes a text to a file. -/
def writeText (path text : String) : IO (Except FileError Unit) := do
  try
    IO.FS.writeFile path text
    return .ok ()
  catch error => return .error (fileErrorOf error)

/-- A seed that differs from run to run. -/
def freshSeed : IO UInt64 := do
  let bytes ← IO.getRandomBytes 8
  return bytes.toList.foldl (fun seed byte => seed * 256 + byte.toUInt64) 0

/-- Processes a file and writes the corpus to where the options say. -/
def serve (file : String) (options : Options) : IO UInt32 := do
  match process file options (← readText file) (← freshSeed) with
  | .error text =>
    IO.eprint text
    return 1
  | .ok result =>
    IO.eprint result.log
    match options.output with
    | none =>
      IO.print result.corpus
      return 0
    | some path =>
      match ← writeText path result.corpus with
      | .ok _ => return 0
      | .error error =>
        IO.eprint (options.writeFailure error)
        return 1

end ContextFree.Command

open ContextFree Command in
/-- The entry of the program. -/
def main (arguments : List String) : IO UInt32 := do
  match readArguments arguments with
  | .error error =>
    IO.eprint error.text
    return UInt32.ofNat usageExitCode
  | .ok .version =>
    IO.print versionText
    return 0
  | .ok .help =>
    IO.print helpText
    return 0
  | .ok (.run file options) => serve file options
