import RegisterMachine.Event
import RegisterMachine.Registers

/-!
# Execution, one turn at a time

A run walks over the slots of a program. An empty slot only costs a step. A jump to the terminal
label ends the run whatever its slot holds, and so does reaching a stop or walking past the last
slot.

* `Op.apply` — what an operation does to the registers; `Op.flow` — where control goes after it.
* `Config` — slot, registers and steps so far; `Config.turn` — one turn of the machine.
* `exec` — turns until the run ends, within a budget of turns.

`exec` is `none` exactly when the budget is too small.
-/

set_option autoImplicit false

namespace RegisterMachine

inductive Flow where
  | next
  | jump (label : Nat)
  | halt
  deriving DecidableEq, Repr

namespace Op

def apply (op : Op) (r : Registers) : Registers :=
  match op with
  | set register value => r.set register value
  | increment register => r.increment register
  | decrement register => r.decrement register
  | copy dest source => r.set dest (r.get source)
  | branch .. => r
  | stop => r

/-- Where control goes, as the registers are before the operation. -/
def flow (op : Op) (r : Registers) : Flow :=
  match op with
  | branch register ifZero otherwise => .jump (if r.isZero register then ifZero else otherwise)
  | stop => .halt
  | _ => .next

end Op

/-- A run between two turns. -/
structure Config where
  /-- The slot to look at next, counted from 0. -/
  pc : Nat
  registers : Registers
  /-- The turns taken so far, empty slots included. -/
  steps : Nat
  deriving DecidableEq, Repr

inductive Turn where
  | next (c : Config)
  | done (c : Config)
  deriving DecidableEq, Repr

namespace Config

def start (inputs : List Nat) : Config := ⟨0, .ofInputs inputs, 0⟩

/-- One turn. Past the last slot the run is over, and finding that out is no step. -/
def turn (slots : Array (Option Instruction)) (terminal : Nat) (c : Config) : Turn :=
  match slots[c.pc]? with
  | none => .done c
  | some none => .next ⟨c.pc + 1, c.registers, c.steps + 1⟩
  | some (some i) =>
      let flow := i.op.flow c.registers
      let registers := i.op.apply c.registers
      match flow with
      | .next => .next ⟨c.pc + 1, registers, c.steps + 1⟩
      | .jump label =>
          if label = terminal then .done ⟨c.pc, registers, c.steps + 1⟩
          else .next ⟨label - 1, registers, c.steps + 1⟩
      | .halt => .done ⟨c.pc, registers, c.steps + 1⟩

/-- The report on the turn that comes next; an empty slot makes none. -/
def observe (slots : Array (Option Instruction)) (c : Config) : Option Event :=
  match slots[c.pc]? with
  | some (some i) => some (.step c.pc i c.registers.cells)
  | _ => none

end Config

/-- Takes turns until the run ends. The reports on its turns are put before `log`, the latest first,
if `traced`. The result is `none` if `budget` turns are not enough. -/
def exec (slots : Array (Option Instruction)) (terminal : Nat) (traced : Bool) :
    (budget : Nat) → (c : Config) → (log : List Event) → Option (Config × List Event)
  | 0, _, _ => none
  | budget + 1, c, log =>
      let log := if traced then (c.observe slots).toList ++ log else log
      match c.turn slots terminal with
      | .done c => some (c, log)
      | .next c => exec slots terminal traced budget c log

end RegisterMachine
