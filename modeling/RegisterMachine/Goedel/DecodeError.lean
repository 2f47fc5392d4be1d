import RegisterMachine.Draft

/-!
# Why a number stands for no instruction

* `DecodeError` — the causes, for numbers and for the vectors that they stand for.
* `DecodeError.message` — the report of a cause.
-/

set_option autoImplicit false

namespace RegisterMachine.Goedel

/-- Why a number stands for no vector, or a vector for no instruction. -/
inductive DecodeError where
  | zero
  /-- A prime does not divide the number, and a later one does. -/
  | missingPrimeFactor (position prime : Nat)
  | empty
  | unknownOpcode (tag : Nat)
  | wrongArity (opcode : Opcode) (found : Nat)
  | fieldOverflow (field : Nat)
  | illegal (cause : InstructionError)
  deriving DecidableEq, Repr

def DecodeError.message : DecodeError → String
  | zero => "0 is not a Gödel number"
  | missingPrimeFactor position prime =>
      s!"prime {prime} (position {position}) does not divide the number"
  | empty => "empty field vector has no opcode"
  | unknownOpcode tag => s!"unknown opcode {tag}"
  | wrongArity opcode found =>
      let name := opcode.name
      let arity := opcode.arity
      s!"{name} takes {arity} fields, found {found}"
  | fieldOverflow field => s!"decoded field does not fit an instruction: {field}"
  | illegal cause => cause.message

end RegisterMachine.Goedel
