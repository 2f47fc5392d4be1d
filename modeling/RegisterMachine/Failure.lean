import RegisterMachine.Bytes.Varint
import RegisterMachine.Goedel.DecodeError
import RegisterMachine.Program.Validation
import RegisterMachine.Source.Token

/-!
# Failures of any stage

Where several stages follow one another, a report names the stage that failed.

* `Failure` — the cause, by stage.
* `Failure.detail` — the report of the stage itself; `Failure.message` — with the stage in front.
-/

set_option autoImplicit false

namespace RegisterMachine

/-- What went wrong, by stage. -/
inductive Failure where
  | instruction (cause : InstructionError)
  | validation (cause : ValidationError)
  | parse (cause : Source.ParseError)
  | decode (cause : Goedel.DecodeError)
  | serialization (cause : Bytes.ByteError)
  /-- The result was too long for where it had to go. -/
  | output
  deriving DecidableEq, Repr

namespace Failure

def stage : Failure → String
  | instruction _ => "instruction"
  | validation _ => "validation"
  | parse _ => "parse"
  | decode _ => "decode"
  | serialization _ => "serialization"
  | output => "output"

def detail : Failure → String
  | instruction cause => cause.message
  | validation cause => cause.message
  | parse cause => cause.message
  | decode cause => cause.message
  | serialization cause => cause.message
  | output => "failed to write whole buffer"

/-- The report with the stage in front. -/
def message (f : Failure) : String :=
  let stage := f.stage
  let detail := f.detail
  s!"{stage} error: {detail}"

end Failure

end RegisterMachine
