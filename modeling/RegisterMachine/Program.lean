import RegisterMachine.Cells
import RegisterMachine.Instruction

/-!
# Programs: instructions stored by label

Slot `k` holds the instruction with label `k + 1`. Labels that nobody used leave an empty slot,
which a run steps over. A program also remembers where checking it put a stop of its own.

* `Program.add` — stores an instruction, in place of an earlier one with its label.
* `Program.addAll`, `Program.addEach`, `Program.ofList` — the same for many.
* `Program.get?` — the instruction with a label.
* `Program.instructions` — the stored instructions in slot order.
* `Program.terminalLabel` — the label one past the number of instructions that callers added.
* `Program.text` — one instruction a line.

Two programs are equal (`==`) when their slots are, wherever their stops came from.

Principal result: `get?_add` — adding an instruction changes what one label means.
-/

set_option autoImplicit false

namespace RegisterMachine

/-- Instructions by label. -/
structure Program where
  slots : Array (Option Instruction)
  /-- The label of the stop that was not added by a caller, if there is one. -/
  implicitStop : Option Nat
  deriving Repr

namespace Program

def empty : Program := ⟨#[], none⟩

instance : BEq Program := ⟨fun p q => p.slots == q.slots⟩

theorem beq_iff {p q : Program} : (p == q) = true ↔ p.slots = q.slots := by
  show (p.slots == q.slots) = true ↔ _
  exact beq_iff_eq

/-- Stores `i` under its label. A stop of the program's own in that place is forgotten. -/
def add (p : Program) (i : Instruction) : Program where
  slots := Cells.update none p.slots (i.label - 1) fun _ => some i
  implicitStop := if p.implicitStop = some i.label then none else p.implicitStop

def addAll (p : Program) (is : List Instruction) : Program := is.foldl add p

/-- Reads things as instructions and stores them one after another, up to the first that cannot be
read. What was stored before that stays. -/
def addEach {α ε : Type} (read : α → Except ε Instruction) (p : Program) :
    List α → Program × Option ε
  | [] => (p, none)
  | x :: xs =>
      match read x with
      | .error e => (p, some e)
      | .ok i => addEach read (p.add i) xs

/-- The program with the given instructions; of those with one label, the last. -/
def ofList (is : List Instruction) : Program := empty.addAll is

def get? (p : Program) (label : Nat) : Option Instruction :=
  if label = 0 then none else (p.slots[label - 1]?).join

def instructions (p : Program) : List Instruction := p.slots.toList.reduceOption

def size (p : Program) : Nat := p.instructions.length

/-- One more than the number of instructions that callers added. A jump there ends a run. -/
def terminalLabel (p : Program) : Nat :=
  p.size - (if p.implicitStop.isSome then 1 else 0) + 1

def text (p : Program) : String := "\n".intercalate (p.instructions.map Instruction.text)

/-- An added instruction is found under its label, and every other label keeps what it had. -/
theorem get?_add (p : Program) {i : Instruction} (h : 1 ≤ i.label) (label : Nat) :
    (p.add i).get? label = if label = i.label then some i else p.get? label := by
  have join_eq (x : Option (Option Instruction)) : x.join = x.getD none := by cases x <;> rfl
  unfold get? add
  by_cases h0 : label = 0
  · have hne : ¬ 0 = i.label := by omega
    simp [h0, hne]
  · simp only [h0, if_false, join_eq, Cells.getD_update]
    by_cases hl : label = i.label
    · simp [hl]
    · have : ¬ i.label - 1 = label - 1 := by omega
      simp [hl, this]

end Program

end RegisterMachine
