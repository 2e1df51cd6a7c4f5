import CanonicalAbi.Text.Utf8
import CanonicalAbi.Tool.Browser
import CanonicalAbi.Tool.Command

/-!
# The program

Reads the file that the command line names, runs the command and prints its outcome.
-/

open CanonicalAbi
open CanonicalAbi.Tool

namespace CanonicalAbi.Tool

def ReadFailure.ofError : IO.Error → ReadFailure
  | .inappropriateType _ code _ => if code = 21 then .isFolder else .notFolder
  | .invalidArgument _ code _ => if code = 36 then .tooLong else .invalid
  | _ => .missing

def readContents (path : String) : IO (Except ReadFailure (List Char)) := do
  if path.isEmpty then return .ok []
  try
    let bytes ← IO.FS.readBinFile path
    return .ok (Text.Utf8.decode bytes.toList)
  catch e => return .error (.ofError e)

def keysOfLine (line : String) : List Key :=
  if line.isEmpty then [.enter]
  else match Key.ofName? line with
    | some k => [k]
    | none => line.toList.map .char

def pressAll (b : Browser) : List Key → Browser × Bool
  | [] => (b, false)
  | k :: ks =>
    match b.press k with
    | (b, true) => (b, true)
    | (b, false) => pressAll b ks

partial def browseLoop (b : Browser) : IO Unit := do
  let stdin ← IO.getStdin
  for line in b.view do
    IO.println line
  let line ← stdin.getLine
  if line.isEmpty then return
  let (b, quit) := pressAll b (keysOfLine (line.trimAsciiEnd).toString)
  if !quit then browseLoop b

end CanonicalAbi.Tool

def main (args : List String) : IO UInt32 := do
  let options := (Options.ofArguments args).toOption.getD {}
  let contents ← readContents options.file
  if options.interactive then
    match options.functions fun _ => contents with
    | .error message =>
      IO.eprintln ("Error: " ++ message)
      return 1
    | .ok functions =>
      browseLoop (.ofFunctions functions options.realloc)
      return 0
  else
    let outcome := command args fun _ => contents
    IO.print outcome.out
    IO.eprint outcome.err
    return outcome.exitCode.toUInt32
