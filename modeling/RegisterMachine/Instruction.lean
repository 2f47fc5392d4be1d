import RegisterMachine.Opcode

/-!
# Instructions of an unbounded register machine

Registers `x1, x2, …` hold natural numbers. An instruction is an operation under a label; labels and
registers count from 1.

* `Op`, `Instruction` — the six operations, and an operation with its label.
* `Op.targets` — where a branch may go.
* `Op.text`, `Instruction.text` — the written form, as in `3. x2 = x2 + 1`.
* `Instruction.WellFormed` — every label and register is at least 1.
-/

set_option autoImplicit false

namespace RegisterMachine

inductive Op where
  | set (register value : Nat)
  | increment (register : Nat)
  /-- `xR = xR - 1`, which leaves zero at zero. -/
  | decrement (register : Nat)
  | copy (dest source : Nat)
  /-- `if xR == 0 goto T else goto F`; control never falls through. -/
  | branch (register ifZero otherwise : Nat)
  | stop
  deriving DecidableEq, Repr

namespace Op

def opcode : Op → Opcode
  | set .. => .set
  | increment .. => .increment
  | decrement .. => .decrement
  | copy .. => .copy
  | branch .. => .branch
  | stop => .stop

/-- The labels that the operation may jump to: the target for zero first. -/
def targets : Op → List Nat
  | branch _ ifZero otherwise => [ifZero, otherwise]
  | _ => []

def registers : Op → List Nat
  | set register _ | increment register | decrement register | branch register _ _ => [register]
  | copy dest source => [dest, source]
  | stop => []

def text : Op → String
  | set register value => s!"x{register} = {value}"
  | increment register => s!"x{register} = x{register} + 1"
  | decrement register => s!"x{register} = x{register} - 1"
  | copy dest source => s!"x{dest} = x{source}"
  | branch register ifZero otherwise =>
      s!"if x{register} == 0 goto {ifZero} else goto {otherwise}"
  | stop => "stop"

end Op

/-- An operation under its label. -/
structure Instruction where
  label : Nat
  op : Op
  deriving DecidableEq, Repr

namespace Instruction

def isStop (i : Instruction) : Bool := i.op == .stop

def text (i : Instruction) : String := s!"{i.label}. {i.op.text}"

/-- Labels, targets and registers count from 1. -/
structure WellFormed (i : Instruction) : Prop where
  label_pos : 1 ≤ i.label
  targets_pos : ∀ t ∈ i.op.targets, 1 ≤ t
  registers_pos : ∀ r ∈ i.op.registers, 1 ≤ r

theorem isStop_iff {i : Instruction} : i.isStop = true ↔ i.op = .stop := by
  simp [isStop]

end Instruction

end RegisterMachine
