/-!
Files as commands see them: a name leads to bytes, or to the reason why there are none.

`Files` is a directory that is given by the files below it, so that commands can be followed without
a disk.
-/
namespace Scriptlet

inductive FileError where
  | missing
  | denied
  | isDirectory
  | notDirectory
  | other (reason : String)
  deriving DecidableEq, Repr

def FileError.message : FileError → String
  | missing => "No such file or directory (os error 2)"
  | denied => "Permission denied (os error 13)"
  | isDirectory => "Is a directory (os error 21)"
  | notDirectory => "Not a directory (os error 20)"
  | other reason => reason

/-- The files of a directory and of those below it, by path. -/
abbrev Files := List (String × List UInt8)

namespace Files

/-- The steps of a path, without those that lead nowhere. -/
def steps (path : String) : List String :=
  (path.splitOn "/").filter fun step => step != "" && step != "."

/-- Whether a path can only lead to a directory. -/
def endsInDirectory (path : String) : Bool :=
  match (path.splitOn "/").getLast? with
  | some step => step == "" || step == "."
  | none => true

/-- The bytes of the file that a path leads to. -/
def read (fs : Files) (path : String) : Except FileError (List UInt8) :=
  let target := steps path
  let entries := fs.map fun (name, bytes) => (steps name, bytes)
  match entries.find? (·.1 == target) with
  | some (_, bytes) => if endsInDirectory path then .error .notDirectory else .ok bytes
  | none =>
    if target.all (· == "..") then .error .isDirectory
    else if entries.any (target.isPrefixOf ·.1) then .error .isDirectory
    else if entries.any (fun e => e.1.isPrefixOf target) then .error .notDirectory
    else .error .missing

end Files
end Scriptlet
