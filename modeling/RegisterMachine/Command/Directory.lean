import RegisterMachine.Command.Argument

/-!
# A directory of files

The command line reads program texts from files. A directory here is a list of files without any
directories inside it, seen from within. A path is walked part by part: empty parts and `.` stay
where they are, `..` leads out of the directory, and outside of it no file is known.

* `ReadFault` — why a file cannot be read.
* `Directory.walk` — where the parts of a path lead.
* `Directory.read` — the content of the file that a path names.

The whole path is measured before it is walked, and a name when the walk comes to it, so the first
part that leads nowhere decides what is reported.
-/

set_option autoImplicit false

namespace RegisterMachine.Command

/-- Why a file cannot be read. -/
inductive ReadFault where
  | notFound
  | notADirectory
  | isADirectory
  /-- A path or a name in it has more bytes than it may have. -/
  | nameTooLong
  | permissionDenied
  | notText
  | other (reason : String)
  deriving DecidableEq, Repr

/-- The report of a file that cannot be read, with the system's number for the reason. -/
def ReadFault.message : ReadFault → String
  | notFound => "No such file or directory (os error 2)"
  | notADirectory => "Not a directory (os error 20)"
  | isADirectory => "Is a directory (os error 21)"
  | nameTooLong => "File name too long (os error 36)"
  | permissionDenied => "Permission denied (os error 13)"
  | notText => "stream did not contain valid UTF-8"
  | other reason => reason

def maxNameBytes : Nat := 255

def maxPathBytes : Nat := 4095

structure Directory where
  files : List (String × String)
  deriving DecidableEq, Repr

namespace Directory

/-- Where a walk along a path has come to: the directory itself, or one above it. -/
inductive Place where
  | inside
  | outside
  deriving DecidableEq, Repr

def entry? (d : Directory) : Place → String → Option String
  | .inside, name => d.files.lookup name
  | .outside, _ => none

/-- Follows the parts of a path from a place. A part after the name of a file, even an empty one,
asks for a directory there. -/
def walk (d : Directory) (place : Place) : List String → Except ReadFault String
  | [] => .error .isADirectory
  | part :: more =>
      if part = "" ∨ part = "." then d.walk place more
      else if part = ".." then d.walk .outside more
      else if maxNameBytes < part.utf8ByteSize then .error .nameTooLong
      else
        match d.entry? place part with
        | none => .error .notFound
        | some content => if more.isEmpty then .ok content else .error .notADirectory

/-- The content of the file that a path names. A path that begins with a slash starts outside. -/
def read (d : Directory) (path : String) : Except ReadFault String :=
  if path = "" then .error .notFound
  else if maxPathBytes < path.utf8ByteSize then .error .nameTooLong
  else d.walk (if (parts path).head? = some "" then .outside else .inside) (parts path)

end Directory

end RegisterMachine.Command
