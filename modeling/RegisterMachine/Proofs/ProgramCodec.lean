import RegisterMachine.Proofs.History
import RegisterMachine.Proofs.InstructionCodec

/-!
# Programs come back from their numbers

A sequence of numbers holds the instructions of a program in slot order.  Gaps and the number of
slots come back from the labels alone, since every slot holds its own label and the last one is in
use.  Where a stop came from does not come back.

* `Program.restored` — the program with the same instructions, all of them added by a caller.
* `Tidy.slots_restored` — it has the same slots; `Tidy.terminalLabel_restored` — a remembered stop
  counts.
* `decode_encodeProgram` — decoding an encoded program restores it; `eq_restored_of_decodeProgram` —
  nothing else can come out, however large the labels are.
* `Built.validate_restored` — a restored program passes its check as it is.

Principal result: `program_round_trip` — numbers come back from their bytes, the slots come back
from the numbers, and encoding again gives the same numbers.
-/

set_option autoImplicit false

namespace RegisterMachine

variable {p : Program} {is : List Instruction} {i : Instruction}

namespace Program

/-- The program with the same instructions, all of them added by a caller. -/
def restored (p : Program) : Program := ofList p.instructions

@[simp] theorem implicitStop_restored (p : Program) : p.restored.implicitStop = none :=
  implicitStop_ofList _

theorem Tidy.slots_restored (h : p.Tidy) : p.restored.slots = p.slots :=
  h.slots_ofList_instructions

theorem Tidy.instructions_restored (h : p.Tidy) : p.restored.instructions = p.instructions := by
  rw [instructions, h.slots_restored, instructions]

theorem Tidy.stopLabels_restored (h : p.Tidy) : p.restored.stopLabels = p.stopLabels := by
  rw [stopLabels, h.instructions_restored, stopLabels]

theorem Tidy.terminalLabel_restored (h : p.Tidy) : p.restored.terminalLabel = p.size + 1 := by
  rw [terminalLabel, implicitStop_restored, size, h.instructions_restored]
  rfl

/-- A remembered stop that counts only gives jumps more room. -/
theorem Tidy.passes_restored (h : p.Tidy) (hp : p.Passes) : p.restored.Passes := by
  constructor
  · intro i hi t ht
    rw [h.instructions_restored] at hi
    have hle := p.terminalLabel_le
    have hmem := hp.targets i hi t ht
    rw [h.terminalLabel_restored]
    omega
  · rw [h.stopLabels_restored]
    exact hp.stops

/-- **A restored program passes its check as it is.** -/
theorem Built.validate_restored (h : p.Built is) (hp : p.Passes) :
    p.withStop.restored.validate =
      .ok ⟨p.withStop.restored, p.withStop.size + 1, p.withStop.restored.validationEvents⟩ := by
  have ht := h.tidy.withStop
  obtain ⟨label, hs⟩ := h.tidy.stopLabels_withStop hp
  have hmem : label ∈ p.withStop.restored.stopLabels := by
    rw [ht.stopLabels_restored, hs]
    exact List.mem_singleton.2 rfl
  rw [← ht.terminalLabel_restored]
  exact validate_of_stop (ht.passes_restored (h.passes_withStop hp)) hmem

theorem Built.constructible (h : p.Built is) (hc : ∀ i ∈ is, i.Constructible)
    (hs : p.slots.size ≤ Numeral.maxWord) : ∀ i ∈ p.instructions, i.Constructible := by
  intro i hi
  rcases h.follows.mem_instructions hi with his | ⟨_, hop⟩
  · exact hc i his
  · refine Instruction.constructible_iff.2 ⟨h.mem_wellFormed hi, fun n hn => ?_⟩
    -- the stop of the check carries no number but its label, which is the number of a slot
    have hle := le_size_of_get? (h.tidy.mem_instructions_iff.1 hi)
    rw [Goedel.fields, hop, List.tail_cons, List.mem_singleton] at hn
    omega

end Program

namespace Goedel

/-- Encoding checks the program, and succeeds if the check does. -/
theorem encodeProgram_eq_ok {e : Encoded} (h : encodeProgram p = .ok e) :
    p.Passes ∧ e.program = p.withStop ∧
      e.numbers = p.withStop.instructions.map encodeInstruction := by
  obtain ⟨v, hv, he⟩ := bind_eq_ok_iff.1 h
  obtain ⟨hp, rfl⟩ := Program.validate_eq_ok_iff.1 hv
  cases he
  exact ⟨hp, rfl, rfl⟩

theorem encodeProgram_of_validate {v : Validated} (hv : p.validate = .ok v) :
    ∃ e, encodeProgram p = .ok e ∧ e.program = v.program ∧
      e.numbers = v.program.instructions.map encodeInstruction := by
  rw [encodeProgram, hv]
  exact ⟨_, rfl, rfl, rfl⟩

/-- **Decoding the numbers of instructions adds them in order.** -/
theorem decodeProgram_map_encodeInstruction (h : ∀ i ∈ is, i.Constructible) :
    decodeProgram (is.map encodeInstruction) = .ok (.ofList is) := by
  have hall : (is.map encodeInstruction).mapM decodeInstruction = .ok is := by
    rw [mapM_eq_ok_iff, List.forall₂_map_left_iff, List.forall₂_same]
    exact fun i hi => decode_encodeInstruction (h i hi)
  rw [decodeProgram_eq, hall]
  rfl

/-- If anything is decoded from the numbers of a program, then the restored program. -/
theorem eq_restored_of_decodeProgram (hp : p.Built is) {e : Encoded} (he : encodeProgram p = .ok e)
    {q : Program} (hq : decodeProgram e.numbers = .ok q) : q = p.withStop.restored := by
  obtain ⟨hpass, _, hn⟩ := encodeProgram_eq_ok he
  rw [decodeProgram_eq, hn] at hq
  cases hall : (p.withStop.instructions.map encodeInstruction).mapM decodeInstruction with
  | error cause =>
    rw [hall] at hq
    cases hq
  | ok js =>
    rw [hall] at hq
    rw [mapM_eq_ok_iff, List.forall₂_map_left_iff] at hall
    have hwf : ∀ i ∈ p.withStop.instructions, i.WellFormed :=
      fun i hi => (hp.withStop hpass).mem_wellFormed hi
    have heq : p.withStop.instructions = js := by
      rw [← List.forall₂_eq_eq_eq]
      refine ((List.forall₂_and_left _ _).2 ⟨hwf, hall⟩).imp fun i j h => ?_
      exact (eq_of_decode_encodeInstruction h.1 h.2).symm
    cases hq
    rw [Program.restored, heq]

/-- The instructions of an encoded program have 64-bit numbers. -/
theorem constructible_of_encodeProgram (hp : p.Built is) (hc : ∀ i ∈ is, i.Constructible)
    (hs : p.slots.size < Numeral.maxWord) (hpass : p.Passes) :
    ∀ i ∈ p.withStop.instructions, i.Constructible := by
  have hle := p.size_slots_withStop_le
  exact (hp.withStop hpass).constructible hc (by omega)

/-- Decoding an encoded program restores it. -/
theorem decode_encodeProgram (hp : p.Built is) (hc : ∀ i ∈ is, i.Constructible)
    (hs : p.slots.size < Numeral.maxWord) {e : Encoded} (he : encodeProgram p = .ok e) :
    decodeProgram e.numbers = .ok p.withStop.restored := by
  obtain ⟨hpass, _, hn⟩ := encodeProgram_eq_ok he
  rw [hn]
  exact decodeProgram_map_encodeInstruction (constructible_of_encodeProgram hp hc hs hpass)

/-- The bytes of an encoded program hold its numbers. -/
theorem read_write_encodeProgram (hp : p.Built is) (hc : ∀ i ∈ is, i.Constructible)
    (hs : p.slots.size < Numeral.maxWord) {e : Encoded} (he : encodeProgram p = .ok e) :
    Bytes.read (Bytes.write e.numbers) = .ok e.numbers := by
  obtain ⟨hpass, _, hn⟩ := encodeProgram_eq_ok he
  have hall := constructible_of_encodeProgram hp hc hs hpass
  have hlen : e.numbers.length < 2 ^ 64 := by
    have h₁ := p.withStop.size_le_slots
    have h₂ := p.size_slots_withStop_le
    have h₃ : Numeral.maxWord < 2 ^ 64 - 1 := by decide
    rw [hn, List.length_map, ← Program.size]
    omega
  have hdigits : ∀ n ∈ e.numbers, (Bytes.digits n).length < 2 ^ 64 := by
    intro n hmem
    rw [hn] at hmem
    obtain ⟨i, hi, rfl⟩ := List.mem_map.1 hmem
    exact length_digits_encodeInstruction (hall i hi)
  have hread := Bytes.read_write_append hlen hdigits []
  rwa [List.append_nil] at hread

/-- **Programs come back from their numbers, and numbers from their bytes.**  The program that is
decoded has the slots of the program that was encoded, and is encoded by the same numbers without a
change to its slots. -/
theorem program_round_trip (hp : p.Built is) (hc : ∀ i ∈ is, i.Constructible)
    (hs : p.slots.size < Numeral.maxWord) {e : Encoded} (he : encodeProgram p = .ok e) :
    Bytes.read (Bytes.write e.numbers) = .ok e.numbers ∧
    ∃ q, decodeProgram e.numbers = .ok q ∧ (q == e.program) = true ∧ q.slots = e.program.slots ∧
      ∃ e', encodeProgram q = .ok e' ∧ e'.numbers = e.numbers ∧ e'.program.slots = q.slots := by
  obtain ⟨hpass, hprog, hn⟩ := encodeProgram_eq_ok he
  have ht := hp.tidy.withStop
  have hslots : p.withStop.restored.slots = e.program.slots := by
    rw [hprog]
    exact ht.slots_restored
  obtain ⟨e', he', hprog', hn'⟩ := encodeProgram_of_validate (hp.validate_restored hpass)
  refine ⟨read_write_encodeProgram hp hc hs he, p.withStop.restored,
    decode_encodeProgram hp hc hs he, Program.beq_iff.2 hslots, hslots, e', he', ?_, ?_⟩
  · rw [hn', hn]
    exact congrArg (List.map encodeInstruction) ht.instructions_restored
  · rw [hprog']

/-- Two gaps, and a stop that the check puts into the first of them. -/
theorem sparse_program_round_trip :
    ∃ e, encodeProgram (.ofList [⟨5, .branch 2 4 1⟩, ⟨1, .set 1 7⟩, ⟨2, .copy 3 1⟩]) = .ok e ∧
      e.program.slots.size = 5 ∧ e.program.get? 3 = none ∧ e.program.get? 4 = some ⟨4, .stop⟩ ∧
      Bytes.read (Bytes.write e.numbers) = .ok e.numbers ∧
      ∃ q, decodeProgram e.numbers = .ok q ∧ q.slots = e.program.slots := by
  have hp : Program.Built _ [⟨5, .branch 2 4 1⟩, ⟨1, .set 1 7⟩, ⟨2, .copy 3 1⟩] :=
    .ofList (by decide)
  obtain ⟨hread, q, hq, _, hslots, _⟩ :=
    program_round_trip hp (by decide) (by decide) (e := ⟨_, _, _⟩) rfl
  exact ⟨_, rfl, rfl, rfl, rfl, hread, q, hq, hslots⟩

end Goedel

end RegisterMachine
