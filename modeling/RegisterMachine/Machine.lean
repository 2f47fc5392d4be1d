import RegisterMachine.Execution
import RegisterMachine.Program.Validation

/-!
# Machines that run programs

A machine keeps the registers and the step count of its last run. Every run checks the program first
and then resets the machine, so nothing of an earlier run shows.

* `Machine` — the state between runs; `Machine.reset` — made ready for a run.
* `Machine.run` — checks and runs a program on inputs, within a budget of turns.
* `Run` — what a run leaves: the program with its stop, the machine, the reports.
* `Run.output`, `Run.line` — its result, and the line that is written for it.
-/

set_option autoImplicit false

namespace RegisterMachine

/-- A machine between two runs. -/
structure Machine where
  registers : Registers
  /-- The turns of the last run. -/
  steps : Nat
  /-- Does the machine report every instruction that it executes? -/
  traced : Bool
  deriving DecidableEq, Repr

structure Run where
  program : Program
  machine : Machine
  events : List Event
  deriving Repr

/-- The result of a run is in `x1`. -/
def Run.output (r : Run) : Nat := r.machine.registers.output

def Run.line (r : Run) : String := Nat.repr r.output ++ "\n"

namespace Machine

def new (traced : Bool) : Machine := ⟨.empty, 0, traced⟩

/-- Puts the inputs into fresh registers and sets the step count back. -/
def reset (m : Machine) (inputs : List Nat) : Machine :=
  { m with registers := .ofInputs inputs, steps := 0 }

/-- Where a run begins: in the first slot, with the registers and the steps of the machine. -/
def start (m : Machine) : Config := ⟨0, m.registers, m.steps⟩

/-- A machine that was reset starts on the inputs, whatever it did before. -/
@[simp] theorem start_reset (m : Machine) (inputs : List Nat) :
    (m.reset inputs).start = .start inputs := rfl

@[simp] theorem traced_reset (m : Machine) (inputs : List Nat) :
    (m.reset inputs).traced = m.traced := rfl

/-- Runs a program that passed its check. The result is `none` if the budget is too small. -/
def execute (budget : Nat) (m : Machine) (v : Validated) (inputs : List Nat) : Option Run := do
  let m := m.reset inputs
  let (c, log) ← exec v.program.slots v.terminal m.traced budget m.start []
  let machine := { m with registers := c.registers, steps := c.steps }
  let started := Event.runStarted inputs v.program.size v.terminal
  let finished := Event.runFinished machine.registers.output machine.steps
  return ⟨v.program, machine, v.events ++ started :: log.reverse ++ [finished]⟩

/-- Checks `p` and runs it on `inputs`. A program that fails its check is not run; a run that takes
more turns than `budget` gives `none`. -/
def run (budget : Nat) (m : Machine) (p : Program) (inputs : List Nat) :
    Except ValidationError (Option Run) := do
  let v ← p.validate
  return m.execute budget v inputs

/-- **Nothing of an earlier run shows in the next one.** All that counts of a machine is whether it
traces. -/
theorem run_eq_of_traced {m m' : Machine} (h : m.traced = m'.traced) (budget : Nat) (p : Program)
    (inputs : List Nat) : m.run budget p inputs = m'.run budget p inputs := by
  have hreset : m.reset inputs = m'.reset inputs := by
    rw [reset, reset, h]
  unfold run execute
  rw [hreset]

end Machine

end RegisterMachine
