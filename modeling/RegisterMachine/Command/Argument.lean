import RegisterMachine.Numeral

/-!
# What arguments on the command line mean

* `input?` — an input of a run: digits after at most one `+`, for a number below `2 ^ 64`.
* `number?` — a number of any size: digits after at most one `+`, with `_` anywhere but first.
* `parts`, `components` — the parts of a path between slashes, and those of them that count.
* `extension?` — the extension of the file that a path names.
-/

set_option autoImplicit false

namespace RegisterMachine.Command

/-- The largest input of a run, `2 ^ 64 - 1`. -/
def maxInput : Nat := 18446744073709551615

def dropPlus : List Char → List Char
  | '+' :: cs => cs
  | cs => cs

def isNumeral (cs : List Char) : Bool := !cs.isEmpty && cs.all Char.isDigit

def input? (arg : String) : Option Nat :=
  let cs := dropPlus arg.toList
  if isNumeral cs then Numeral.ofDigits? maxInput cs else none

def number? (arg : String) : Option Nat :=
  let cs := dropPlus arg.toList
  let digits := cs.filter (· != '_')
  if cs.head? ≠ some '_' ∧ isNumeral digits then some (Numeral.ofDigits digits) else none

/-- The parts of a path between slashes, of which there is always one. -/
def parts (path : String) : List String := (path.toList.splitOn '/').map String.ofList

/-- The parts of a path that count. Empty parts never do, and a `.` only at the start. -/
def components (path : String) : List String :=
  match parts path with
  | [] => []
  | first :: more =>
      let kept := more.filter fun part => part ≠ "" ∧ part ≠ "."
      if first = "" then kept else first :: kept

/-- The extension of a file name: what is after its last dot, if there is something before that
dot. -/
def nameExtension? (name : String) : Option String :=
  let reversed := name.toList.reverse
  match reversed.dropWhile (· != '.') with
  | [] | [_] => none
  | _ :: _ => some (String.ofList (reversed.takeWhile (· != '.')).reverse)

/-- The extension of the file that a path names. A path that ends in `.` or `..` names no file. -/
def extension? (path : String) : Option String := do
  let name ← (components path).getLast?
  if name = "." ∨ name = ".." then none else nameExtension? name

end RegisterMachine.Command
