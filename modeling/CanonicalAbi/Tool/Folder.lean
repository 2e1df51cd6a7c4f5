/-!
# Files

The command names files by paths, and a path leads from folder to folder to a file.
-/

namespace CanonicalAbi.Tool

/-- Why there are no contents at a path. -/
inductive ReadFailure where
  | missing
  | notFolder
  | isFolder
  | tooLong
  | invalid
  deriving DecidableEq, Repr

/-- What is said of a path that gives no contents. A folder can be opened and then not be read. -/
def ReadFailure.message (path : String) : ReadFailure → String
  | missing => "open " ++ path ++ ": no such file or directory"
  | notFolder => "open " ++ path ++ ": not a directory"
  | isFolder => "read " ++ path ++ ": is a directory"
  | tooLong => "open " ++ path ++ ": file name too long"
  | invalid => "open " ++ path ++ ": invalid argument"

/-- Files by path. -/
structure Folder where
  files : List (List String × List Char)

namespace Folder

def maxPath : Nat := 4095

def maxName : Nat := 255

def ofPaths (files : List (String × List Char)) : Folder :=
  ⟨files.map fun (path, contents) =>
    ((path.splitOn "/").filter fun name => name ≠ "" ∧ name ≠ ".", contents)⟩

def file? (f : Folder) (names : List String) : Option (List Char) := f.files.lookup names

def hasFolder (f : Folder) (names : List String) : Bool :=
  f.files.any fun (path, _) => names.isPrefixOf path && names.length < path.length

def walk (f : Folder) (place : Option (List String)) :
    List String → Except ReadFailure (List Char)
  | [] => .error .isFolder
  | "" :: names | "." :: names => f.walk place names
  | ".." :: names => f.walk (place.bind fun p => if p.isEmpty then none else some p.dropLast) names
  | name :: names =>
    if maxName < name.utf8ByteSize then .error .tooLong
    else match place with
      | none => .error .missing
      | some p =>
        match f.file? (p ++ [name]) with
        | some contents => if names.isEmpty then .ok contents else .error .notFolder
        | none =>
          if f.hasFolder (p ++ [name]) then f.walk (some (p ++ [name])) names
          else .error .missing

/-- The contents of the file at a path. A path that begins with a slash does not begin in the
folder. -/
def read (f : Folder) (path : String) : Except ReadFailure (List Char) :=
  if path.isEmpty then .error .missing
  else if path.toList.any (fun c => c.toNat == 0) then .error .invalid
  else if maxPath < path.utf8ByteSize then .error .tooLong
  else f.walk (if path.toList.head? = some '/' then none else some []) (path.splitOn "/")

end Folder

end CanonicalAbi.Tool
