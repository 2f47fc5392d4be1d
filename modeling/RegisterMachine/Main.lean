import RegisterMachine.Command

/-!
# The program

Reads the file that the command line names, answers, and writes the answer. A run has no bound, so
the budget is doubled until the run ends.
-/

set_option autoImplicit false

namespace RegisterMachine.Main

open RegisterMachine.Command

def firstBudget : Nat := 1000000000000000000

/-- Answers under larger and larger budgets. -/
partial def settle (attempt : Nat → Option Outcome) (budget : Nat) : IO Outcome :=
  match attempt budget with
  | some outcome => return outcome
  | none => settle attempt (2 * budget)

def readFault : IO.Error → ReadFault
  | .noFileOrDirectory .. => .notFound
  | .inappropriateType _ code _ => if code = 21 then .isADirectory else .notADirectory
  | .permissionDenied .. => .permissionDenied
  | .invalidArgument .. => .nameTooLong
  | .userError _ => .notText
  | e => .other (toString e)

def readSource (path : String) : IO (Except ReadFault String) := do
  try
    return .ok (← IO.FS.readFile path)
  catch e =>
    return .error (readFault e)

end RegisterMachine.Main

open RegisterMachine RegisterMachine.Main in
def main (args : List String) : IO UInt32 := do
  let source ← match Command.wantedFile? args with
    | none => pure (.error .notFound)
    | some path => readSource path
  let outcome ← settle (fun budget => Command.answer budget (fun _ => source) args) firstBudget
  IO.print outcome.stdout
  IO.eprint outcome.stderr
  return UInt32.ofNat outcome.exit
