import RegisterMachine.Instruction

/-!
# Drafts: instructions whose numbers are still unchecked

A draft holds the numbers of an instruction as somebody gave them, so they may be zero or negative.
Building it checks them from left to right: the label, the registers, then the value or the targets.

* `Draft` — the six shapes with integer arguments.
* `InstructionError` — why a draft is no instruction.
* `Draft.build` — the instruction that a draft describes, or the first number that is out of range.
* `Instruction.draft` — the draft that describes a given instruction.

Principal results: `Draft.build_eq_ok_iff` — a draft builds an instruction exactly when it is the
draft of that instruction and the instruction is well-formed, so building loses nothing.
-/

set_option autoImplicit false

namespace RegisterMachine

/-- Why the numbers of a draft make no instruction. -/
inductive InstructionError where
  | label (found : Int)
  | register (found : Int)
  | value (found : Int)
  deriving DecidableEq, Repr

def InstructionError.message : InstructionError → String
  | label found => s!"invalid label {found}: labels start at 1"
  | register found => s!"invalid register index x{found}: registers start at x1"
  | value found => s!"invalid initialization value {found}: registers hold natural numbers"

/-- An instruction as given, before its numbers are checked. -/
inductive Draft where
  | set (label register value : Int)
  | increment (label register : Int)
  | decrement (label register : Int)
  | copy (label dest source : Int)
  | branch (label register ifZero otherwise : Int)
  | stop (label : Int)
  deriving DecidableEq, Repr

namespace Draft

/-- Labels and branch targets count from 1. -/
def checkLabel (n : Int) : Except InstructionError Nat :=
  if 1 ≤ n then .ok n.toNat else .error (.label n)

def checkRegister (n : Int) : Except InstructionError Nat :=
  if 1 ≤ n then .ok n.toNat else .error (.register n)

def checkValue (n : Int) : Except InstructionError Nat :=
  if 0 ≤ n then .ok n.toNat else .error (.value n)

/-- The instruction that a draft describes. The leftmost unusable number is the one reported. -/
def build : Draft → Except InstructionError Instruction
  | set label register value => do
      return ⟨← checkLabel label, .set (← checkRegister register) (← checkValue value)⟩
  | increment label register => do
      return ⟨← checkLabel label, .increment (← checkRegister register)⟩
  | decrement label register => do
      return ⟨← checkLabel label, .decrement (← checkRegister register)⟩
  | copy label dest source => do
      return ⟨← checkLabel label, .copy (← checkRegister dest) (← checkRegister source)⟩
  | branch label register ifZero otherwise => do
      return ⟨← checkLabel label,
        .branch (← checkRegister register) (← checkLabel ifZero) (← checkLabel otherwise)⟩
  | stop label => do
      return ⟨← checkLabel label, .stop⟩

theorem checkLabel_eq_ok_iff {n : Int} {k : Nat} :
    checkLabel n = .ok k ↔ 1 ≤ k ∧ n = k := by
  unfold checkLabel
  split <;> simp <;> omega

theorem checkRegister_eq_ok_iff {n : Int} {k : Nat} :
    checkRegister n = .ok k ↔ 1 ≤ k ∧ n = k := by
  unfold checkRegister
  split <;> simp <;> omega

theorem checkValue_eq_ok_iff {n : Int} {k : Nat} : checkValue n = .ok k ↔ n = k := by
  unfold checkValue
  split <;> simp <;> omega

end Draft

/-- Checks in a row succeed together. -/
theorem bind_eq_ok_iff {α β ε : Type} {x : Except ε α} {f : α → Except ε β} {b : β} :
    (x >>= f) = .ok b ↔ ∃ a, x = .ok a ∧ f a = .ok b := by
  cases x with
  | error e => simp [bind, Except.bind]
  | ok a => simp [bind, Except.bind]

def Instruction.draft (i : Instruction) : Draft :=
  match i.op with
  | .set register value => .set i.label register value
  | .increment register => .increment i.label register
  | .decrement register => .decrement i.label register
  | .copy dest source => .copy i.label dest source
  | .branch register ifZero otherwise => .branch i.label register ifZero otherwise
  | .stop => .stop i.label

namespace Draft

/-- The numbers of a well-formed instruction pass every check. -/
theorem build_draft {i : Instruction} (h : i.WellFormed) : i.draft.build = .ok i := by
  obtain ⟨label, op⟩ := i
  obtain ⟨hl, ht, hr⟩ := h
  have hlabel : checkLabel label = .ok label := checkLabel_eq_ok_iff.2 ⟨hl, rfl⟩
  have htarget (t : Nat) (h : t ∈ op.targets) : checkLabel t = .ok t :=
    checkLabel_eq_ok_iff.2 ⟨ht t h, rfl⟩
  have hregister (r : Nat) (h : r ∈ op.registers) : checkRegister r = .ok r :=
    checkRegister_eq_ok_iff.2 ⟨hr r h, rfl⟩
  have hvalue (n : Nat) : checkValue n = .ok n := checkValue_eq_ok_iff.2 rfl
  cases op with
  | set register value =>
    have hr := hregister register (by simp [Op.registers])
    simp only [Instruction.draft, build, hlabel, hr, hvalue]
    rfl
  | increment register =>
    have hr := hregister register (by simp [Op.registers])
    simp only [Instruction.draft, build, hlabel, hr]
    rfl
  | decrement register =>
    have hr := hregister register (by simp [Op.registers])
    simp only [Instruction.draft, build, hlabel, hr]
    rfl
  | copy dest source =>
    have hd := hregister dest (by simp [Op.registers])
    have hs := hregister source (by simp [Op.registers])
    simp only [Instruction.draft, build, hlabel, hd, hs]
    rfl
  | branch register ifZero otherwise =>
    have hr := hregister register (by simp [Op.registers])
    have hz := htarget ifZero (by simp [Op.targets])
    have ho := htarget otherwise (by simp [Op.targets])
    simp only [Instruction.draft, build, hlabel, hr, hz, ho]
    rfl
  | stop =>
    simp only [Instruction.draft, build, hlabel]
    rfl

/-- Every number of a built instruction is the number of its draft. -/
theorem eq_draft_of_build {d : Draft} {i : Instruction} (h : d.build = .ok i) :
    d = i.draft ∧ i.WellFormed := by
  cases d with
  | set label register value =>
    simp only [build, bind_eq_ok_iff, checkLabel_eq_ok_iff, checkRegister_eq_ok_iff,
      checkValue_eq_ok_iff] at h
    obtain ⟨l, ⟨hl, rfl⟩, r, ⟨hr, rfl⟩, v, rfl, ⟨⟩⟩ := h
    exact ⟨rfl, hl, by simp [Op.targets], by simp [Op.registers, hr]⟩
  | increment label register =>
    simp only [build, bind_eq_ok_iff, checkLabel_eq_ok_iff, checkRegister_eq_ok_iff] at h
    obtain ⟨l, ⟨hl, rfl⟩, r, ⟨hr, rfl⟩, ⟨⟩⟩ := h
    exact ⟨rfl, hl, by simp [Op.targets], by simp [Op.registers, hr]⟩
  | decrement label register =>
    simp only [build, bind_eq_ok_iff, checkLabel_eq_ok_iff, checkRegister_eq_ok_iff] at h
    obtain ⟨l, ⟨hl, rfl⟩, r, ⟨hr, rfl⟩, ⟨⟩⟩ := h
    exact ⟨rfl, hl, by simp [Op.targets], by simp [Op.registers, hr]⟩
  | copy label dest source =>
    simp only [build, bind_eq_ok_iff, checkLabel_eq_ok_iff, checkRegister_eq_ok_iff] at h
    obtain ⟨l, ⟨hl, rfl⟩, d, ⟨hd, rfl⟩, s, ⟨hs, rfl⟩, ⟨⟩⟩ := h
    exact ⟨rfl, hl, by simp [Op.targets], by simp [Op.registers, hd, hs]⟩
  | branch label register ifZero otherwise =>
    simp only [build, bind_eq_ok_iff, checkLabel_eq_ok_iff, checkRegister_eq_ok_iff] at h
    obtain ⟨l, ⟨hl, rfl⟩, r, ⟨hr, rfl⟩, z, ⟨hz, rfl⟩, o, ⟨ho, rfl⟩, ⟨⟩⟩ := h
    exact ⟨rfl, hl, by simp [Op.targets, hz, ho], by simp [Op.registers, hr]⟩
  | stop label =>
    simp only [build, bind_eq_ok_iff, checkLabel_eq_ok_iff] at h
    obtain ⟨l, ⟨hl, rfl⟩, ⟨⟩⟩ := h
    exact ⟨rfl, hl, by simp [Op.targets], by simp [Op.registers]⟩

/-- A draft builds exactly the well-formed instruction that it is the draft of. -/
theorem build_eq_ok_iff {d : Draft} {i : Instruction} :
    d.build = .ok i ↔ d = i.draft ∧ i.WellFormed :=
  ⟨eq_draft_of_build, fun h => h.1 ▸ build_draft h.2⟩

end Draft

end RegisterMachine
