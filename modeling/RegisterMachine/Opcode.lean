/-!
# The six operation codes

An instruction written as a vector of numbers starts with the tag of its operation.

* `Opcode.tag` — the tag, from 1 to 6.
* `Opcode.ofTag?` — the operation with a given tag, if there is one.
* `Opcode.arity` — how many numbers such a vector has, tag and label included.
* `Opcode.name` — the word that messages use.
-/

set_option autoImplicit false

namespace RegisterMachine

inductive Opcode where
  | set
  | increment
  | decrement
  | branch
  | stop
  | copy
  deriving DecidableEq, Repr

namespace Opcode

def tag : Opcode → Nat
  | set => 1
  | increment => 2
  | decrement => 3
  | branch => 4
  | stop => 5
  | copy => 6

/-- The operation with tag `n`; tags outside 1 to 6 mean nothing. -/
def ofTag? (n : Nat) : Option Opcode :=
  match n with
  | 1 => some set
  | 2 => some increment
  | 3 => some decrement
  | 4 => some branch
  | 5 => some stop
  | 6 => some copy
  | _ => none

/-- The length of the field vector, tag and label included. -/
def arity : Opcode → Nat
  | set => 4
  | increment => 3
  | decrement => 3
  | branch => 5
  | stop => 2
  | copy => 4

def name : Opcode → String
  | set => "set"
  | increment => "increment"
  | decrement => "decrement"
  | branch => "branch"
  | stop => "stop"
  | copy => "copy"

@[simp] theorem ofTag?_tag (o : Opcode) : ofTag? o.tag = some o := by
  cases o <;> rfl

/-- A tag is read as `o` exactly when it is the tag of `o`. -/
theorem ofTag?_eq_some_iff {n : Nat} {o : Opcode} : ofTag? n = some o ↔ n = o.tag := by
  constructor
  · intro h
    unfold ofTag? at h
    split at h <;> cases h <;> rfl
  · rintro rfl
    exact ofTag?_tag o

end Opcode

end RegisterMachine
