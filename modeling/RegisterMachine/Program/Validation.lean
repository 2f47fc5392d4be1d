import RegisterMachine.Event
import RegisterMachine.Program

/-!
# Checking a program before it is run or encoded

With `n` instructions added by callers, every branch target must lie in `1 … n + 1`, and there may
be one stop at most. A program without a stop gets one of its own: under the terminal label `n + 1`
if that label is free, else right after the last slot. That stop is remembered and does not count
towards `n`, so checking twice gives one answer.

* `ValidationError` — what is wrong with a program; the first stray jump is reported before any
  stops.
* `Program.verdict` — the terminal label, or what is wrong.
* `Program.withStop` — the program with its one stop.
* `Program.validate` — both together, with the reports that the check makes. A program that fails
  the check stays as it is and nothing is reported.
-/

set_option autoImplicit false

namespace RegisterMachine

/-- What is wrong with a program as a whole. -/
inductive ValidationError where
  /-- The instruction `label` may jump to `target`, which is not in `1 … max`. -/
  | branchTarget (label target max : Nat)
  | multipleStops (labels : List Nat)
  deriving DecidableEq, Repr

def ValidationError.message : ValidationError → String
  | branchTarget label target max =>
      s!"instruction {label} branches to label {target}, valid targets are 1..={max}"
  | multipleStops labels =>
      let count := labels.length
      let list := Numeral.listed labels
      s!"program has {count} stop instructions (labels {list}), exactly one is allowed"

/-- A program that passed its check. -/
structure Validated where
  /-- The program, which now has exactly one stop. -/
  program : Program
  /-- The label that ends a run when it is jumped to. -/
  terminal : Nat
  events : List Event
  deriving Repr

namespace Program

/-- Every jump that some branch may take, as its label and its target, in slot order. -/
def jumps (p : Program) : List (Nat × Nat) :=
  p.instructions.flatMap fun i => i.op.targets.map fun t => (i.label, t)

/-- The first jump that leaves the program and does not go to the terminal label. -/
def strayJump? (p : Program) : Option (Nat × Nat) :=
  let top := p.terminalLabel
  p.jumps.find? fun jump => jump.2 == 0 || top < jump.2

def stopLabels (p : Program) : List Nat :=
  (p.instructions.filter Instruction.isStop).map Instruction.label

/-- The terminal label of a program in order, or the first thing that is wrong with it. -/
def verdict (p : Program) : Except ValidationError Nat :=
  match p.strayJump? with
  | some (label, target) => .error (.branchTarget label target p.terminalLabel)
  | none =>
      if 2 ≤ p.stopLabels.length then .error (.multipleStops p.stopLabels)
      else .ok p.terminalLabel

/-- Where a program without a stop gets one. -/
def stopPlace (p : Program) : Nat :=
  if (p.get? p.terminalLabel).isNone then p.terminalLabel else p.slots.size + 1

/-- The program itself if it has a stop, else the program with one of its own. -/
def withStop (p : Program) : Program :=
  if p.stopLabels.isEmpty then
    { p.add ⟨p.stopPlace, .stop⟩ with implicitStop := some p.stopPlace }
  else p

def validationEvents (p : Program) : List Event :=
  let appended := if p.stopLabels.isEmpty then [Event.stopAppended p.stopPlace p.size] else []
  let closed := p.withStop
  appended ++ [.validated closed.size closed.slots.size p.terminalLabel]

def validate (p : Program) : Except ValidationError Validated := do
  let terminal ← p.verdict
  return ⟨p.withStop, terminal, p.validationEvents⟩

end Program

end RegisterMachine
