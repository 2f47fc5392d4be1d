import RegisterMachine.Instruction
import RegisterMachine.Numeral

/-!
# What is reported while programs are checked, run, encoded and decoded

Events are plain data. Each has a level, a message and named fields in text form.

* `Event` — the nine kinds of report.
* `Event.level`, `Event.message`, `Event.fields` — how a report is written.
-/

set_option autoImplicit false

namespace RegisterMachine

/-- How detailed a report is. -/
inductive Level where
  | debug
  | trace
  deriving DecidableEq, Repr

def Level.text : Level → String
  | debug => "DEBUG"
  | trace => "TRACE"

inductive Event where
  /-- A program without a stop is about to get one at `label`; it has `instructions` so far. -/
  | stopAppended (label instructions : Nat)
  | validated (instructions slots terminal : Nat)
  | runStarted (inputs : List Nat) (instructions terminal : Nat)
  /-- The instruction in slot `pc` is about to be executed on registers that hold `cells`. -/
  | step (pc : Nat) (instruction : Instruction) (cells : Array Nat)
  | runFinished (result steps : Nat)
  | instructionEncoded (instruction : Instruction) (bits : Nat)
  | instructionDecoded (instruction : Instruction)
  | programEncoded (instructions : Nat)
  | programDecoded (instructions : Nat)
  deriving DecidableEq, Repr

namespace Event

/-- Reports on single instructions are traces, the others are for debugging. -/
def level : Event → Level
  | step .. | instructionEncoded .. | instructionDecoded .. => .trace
  | _ => .debug

def message : Event → String
  | stopAppended .. => "appending implicit stop"
  | validated .. => "program validated"
  | runStarted .. => "run started"
  | step .. => "step"
  | runFinished .. => "run finished"
  | instructionEncoded .. => "encoded instruction"
  | instructionDecoded .. => "decoded instruction"
  | programEncoded .. => "encoded program"
  | programDecoded .. => "decoded program"

def fields : Event → List (String × String)
  | stopAppended label instructions =>
      [("label", Nat.repr label), ("instructions", Nat.repr instructions)]
  | validated instructions slots terminal =>
      [("instructions", Nat.repr instructions), ("slots", Nat.repr slots),
        ("terminal", Nat.repr terminal)]
  | runStarted inputs instructions terminal =>
      [("inputs", Numeral.listed inputs), ("instructions", Nat.repr instructions),
        ("terminal", Nat.repr terminal)]
  | step pc instruction cells =>
      [("pc", Nat.repr pc), ("instruction", instruction.text),
        ("registers", Numeral.listed cells.toList)]
  | runFinished result steps => [("result", Nat.repr result), ("steps", Nat.repr steps)]
  | instructionEncoded instruction bits =>
      [("instruction", instruction.text), ("bits", Nat.repr bits)]
  | instructionDecoded instruction => [("instruction", instruction.text)]
  | programEncoded instructions => [("instructions", Nat.repr instructions)]
  | programDecoded instructions => [("instructions", Nat.repr instructions)]

def isStep : Event → Bool
  | step .. => true
  | _ => false

end Event

end RegisterMachine
