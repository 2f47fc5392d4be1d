import RegisterMachine.Cells

/-!
# Register files

A file of registers `x1, x2, …`, all of them zero until they are written. It remembers how far it
was ever written: reading and testing never lengthen it.

* `Registers.get`, `Registers.isZero` — reading.
* `Registers.set`, `Registers.increment`, `Registers.decrement` — writing.
* `Registers.ofInputs` — the file that a run starts from.
* `Registers.output` — `x1`, where a run leaves its result.

Principal result: `get_update` — a write changes the register that it names and no other.
-/

set_option autoImplicit false

namespace RegisterMachine

/-- The values of `x1` up to the highest register written so far. -/
structure Registers where
  cells : Array Nat
  deriving DecidableEq, Repr

namespace Registers

def empty : Registers := ⟨#[]⟩

/-- `x1 = 0`, and the inputs from `x2` on. -/
def ofInputs (inputs : List Nat) : Registers := ⟨(0 :: inputs).toArray⟩

/-- The value of a register; one that was never written, or `x0`, reads as zero. -/
def get (r : Registers) (register : Nat) : Nat :=
  if register = 0 then 0 else (r.cells[register - 1]?).getD 0

def isZero (r : Registers) (register : Nat) : Bool := r.get register == 0

def update (r : Registers) (register : Nat) (f : Nat → Nat) : Registers :=
  ⟨Cells.update 0 r.cells (register - 1) f⟩

def set (r : Registers) (register value : Nat) : Registers := r.update register fun _ => value

def increment (r : Registers) (register : Nat) : Registers := r.update register (· + 1)

/-- Takes one away; zero stays zero. -/
def decrement (r : Registers) (register : Nat) : Registers := r.update register (· - 1)

def output (r : Registers) : Nat := r.get 1

/-- The number of registers that the file shows. -/
def size (r : Registers) : Nat := r.cells.size

@[simp] theorem size_update (r : Registers) {register : Nat} (h : 1 ≤ register) (f : Nat → Nat) :
    (r.update register f).size = max r.size register := by
  simp [update, size]
  omega

/-- A write changes the register that it names and no other. -/
theorem get_update (r : Registers) {register : Nat} (h : 1 ≤ register) (f : Nat → Nat) (q : Nat) :
    (r.update register f).get q = if q = register then f (r.get q) else r.get q := by
  unfold get update
  by_cases hq : q = 0
  · simp [hq]
    omega
  · simp only [hq, if_false, Cells.getD_update]
    grind

/-- Registers past the end of the file hold zero. -/
theorem get_of_size_lt (r : Registers) {register : Nat} (h : r.size < register) :
    r.get register = 0 := by
  unfold get
  unfold size at h
  split
  · rfl
  · rw [Array.getElem?_eq_none (by omega)]
    rfl

end Registers

end RegisterMachine
