import RegisterMachine.Goedel.Instruction
import RegisterMachine.Program.Validation

/-!
# Number sequences for programs

A program is encoded by the numbers of its instructions in slot order. Encoding checks the program
first, so the sequence has exactly one stop; decoding checks nothing.

* `encodeProgram` — the sequence of a program, which is checked first.
* `decodeProgram` — the program of a sequence; of instructions with one label, the last.
-/

set_option autoImplicit false

namespace RegisterMachine.Goedel

structure Encoded where
  numbers : List Nat
  /-- The program, with its stop. -/
  program : Program
  events : List Event
  deriving Repr

def encodingEvent (i : Instruction) (n : Nat) : Event := .instructionEncoded i (bitLength n)

/-- Checks a program and encodes its instructions in slot order. -/
def encodeProgram (p : Program) : Except ValidationError Encoded := do
  let v ← p.validate
  let numbers := v.program.instructions.map encodeInstruction
  let events := List.zipWith encodingEvent v.program.instructions numbers
  return ⟨numbers, v.program, v.events ++ events ++ [.programEncoded numbers.length]⟩

/-- Decodes numbers one after another and adds the instructions to `p`. The reports on those decoded
before a failure are kept. -/
def decodeOnto (p : Program) (log : List Event) :
    List Nat → Except DecodeError Program × List Event
  | [] => (.ok p, (.programDecoded p.size :: log).reverse)
  | n :: ns =>
      match decodeInstruction n with
      | .error e => (.error e, log.reverse)
      | .ok i => decodeOnto (p.add i) (.instructionDecoded i :: log) ns

/-- The program of a sequence, with the reports made on the way. -/
def decodeReporting (numbers : List Nat) : Except DecodeError Program × List Event :=
  decodeOnto .empty [] numbers

def decodeProgram (numbers : List Nat) : Except DecodeError Program := (decodeReporting numbers).1

end RegisterMachine.Goedel
