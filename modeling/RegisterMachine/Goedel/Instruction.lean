import RegisterMachine.Goedel.Vector
import RegisterMachine.Numeral

/-!
# Numbers for instructions

The fields of an instruction are the tag of its operation, its label, and the numbers of the
operation. The number of an instruction is that of its fields.

* `fields` — the vector of an instruction; `ofFields` — the instruction of a vector.
* `encodeInstruction`, `decodeInstruction` — numbers for instructions and back.

A vector is checked for a tag, its length, fields that are too large, and last for what a draft
needs.
-/

set_option autoImplicit false

namespace RegisterMachine.Goedel

/-- The fields of an instruction, tag first and label second. -/
def fields (i : Instruction) : List Nat :=
  i.op.opcode.tag :: i.label ::
    match i.op with
    | .set register value => [register, value]
    | .increment register => [register]
    | .decrement register => [register]
    | .branch register ifZero otherwise => [register, ifZero, otherwise]
    | .stop => []
    | .copy dest source => [dest, source]

/-- The draft with the fields after the tag, if there are as many as the operation takes. -/
def draft? (opcode : Opcode) (payload : List Nat) : Option Draft :=
  match opcode, payload with
  | .set, [label, register, value] => some (.set label register value)
  | .increment, [label, register] => some (.increment label register)
  | .decrement, [label, register] => some (.decrement label register)
  | .branch, [label, register, ifZero, otherwise] => some (.branch label register ifZero otherwise)
  | .stop, [label] => some (.stop label)
  | .copy, [label, dest, source] => some (.copy label dest source)
  | _, _ => none

def ofFields (vector : List Nat) : Except DecodeError Instruction :=
  match vector with
  | [] => .error .empty
  | tag :: payload =>
      match Opcode.ofTag? tag with
      | none => .error (.unknownOpcode tag)
      | some opcode =>
          match draft? opcode payload with
          | none => .error (.wrongArity opcode vector.length)
          | some draft =>
              match payload.find? (Numeral.maxWord < ·) with
              | some field => .error (.fieldOverflow field)
              | none => draft.build.mapError .illegal

def encodeInstruction (i : Instruction) : Nat := encode (fields i)

def decodeInstruction (n : Nat) : Except DecodeError Instruction := do
  ofFields (← decode n)

end RegisterMachine.Goedel
