import RegisterMachine.Proofs.Admission
import RegisterMachine.Proofs.ByteFormat
import RegisterMachine.Proofs.VectorCodec

/-!
# Instructions come back from their numbers

* `draft?_fields`, `eq_fields_of_draft?` — the fields of an instruction make its draft again, and no
  others do.
* `ofFields_fields` — they make the instruction, if they are small enough to be read;
  `ofFields_eq_ok_iff` — a vector makes an instruction exactly if it holds its fields and these are
  numbers of 64 bits.
* `decode_encodeInstruction` — decoding undoes encoding, for every instruction of 64-bit numbers.
* `eq_of_decode_encodeInstruction` — no other instruction can come out.
* `encodeInstruction_lt` — the number of an instruction has fewer than `2 ^ 64` digits, so its bytes
  can be read.  The bound is far from tight.

Principal result: `instruction_codec_exact` — encoding is a bijection from the instructions of
64-bit numbers to the numbers that decoding accepts, and decoding is its inverse.
-/

set_option autoImplicit false

namespace RegisterMachine

theorem Opcode.tag_le (o : Opcode) : o.tag ≤ 6 := by
  cases o <;> decide

namespace Goedel

variable {i : Instruction}

theorem fields_eq_cons (i : Instruction) : fields i = i.op.opcode.tag :: (fields i).tail := rfl

theorem length_fields_le (i : Instruction) : (fields i).length ≤ 5 := by
  obtain ⟨label, op⟩ := i
  cases op <;> simp [fields]

theorem draft?_fields (i : Instruction) : draft? i.op.opcode (fields i).tail = some i.draft := by
  obtain ⟨label, op⟩ := i
  cases op <;> rfl

/-- Of all checks, only the one for large fields can fail. -/
theorem ofFields_fields (h : i.WellFormed) : ofFields (fields i) =
    match (fields i).tail.find? (Numeral.maxWord < ·) with
    | some field => .error (.fieldOverflow field)
    | none => .ok i := by
  rw [fields_eq_cons, ofFields.eq_def]
  dsimp only
  rw [Opcode.ofTag?_tag]
  dsimp only
  rw [draft?_fields, List.tail_cons]
  dsimp only
  rw [Draft.build_draft h]
  rfl

/-- The draft of an instruction is made by its own fields only. -/
theorem eq_fields_of_draft? {opcode : Opcode} {payload : List Nat}
    (h : draft? opcode payload = some i.draft) : fields i = opcode.tag :: payload := by
  obtain ⟨label, op⟩ := i
  unfold draft? at h
  split at h <;> cases op <;> cases h <;> rfl

theorem find?_maxWord_eq_none_iff {payload : List Nat} :
    payload.find? (Numeral.maxWord < ·) = none ↔ ∀ n ∈ payload, n ≤ Numeral.maxWord := by
  simp

/-- **The vectors of instructions.** -/
theorem ofFields_eq_ok_iff {fs : List Nat} :
    ofFields fs = .ok i ↔ i.Constructible ∧ fields i = fs := by
  rw [Instruction.constructible_iff]
  constructor
  · intro h
    obtain ⟨opcode, payload, draft, rfl, hdraft, hfind, hb⟩ := ofFields_eq_ok h
    obtain ⟨rfl, hw⟩ := Draft.build_eq_ok_iff.1 hb
    have hfields := eq_fields_of_draft? hdraft
    rw [hfields, List.tail_cons]
    exact ⟨⟨hw, find?_maxWord_eq_none_iff.1 hfind⟩, rfl⟩
  · rintro ⟨⟨hw, hn⟩, rfl⟩
    rw [ofFields_fields hw, find?_maxWord_eq_none_iff.2 hn]

/-- **Numbers and instructions.**  No number is accepted but that of an instruction of 64-bit
numbers. -/
theorem decodeInstruction_eq_ok_iff {n : Nat} :
    decodeInstruction n = .ok i ↔ i.Constructible ∧ encodeInstruction i = n := by
  unfold decodeInstruction encodeInstruction
  simp only [bind_eq_ok_iff, decode_eq_ok_iff, ofFields_eq_ok_iff]
  constructor
  · rintro ⟨fs, hn, hc, rfl⟩
    exact ⟨hc, hn⟩
  · rintro ⟨hc, hn⟩
    exact ⟨fields i, hn, hc, rfl⟩

/-- Decoding undoes encoding. -/
theorem decode_encodeInstruction (h : i.Constructible) :
    decodeInstruction (encodeInstruction i) = .ok i :=
  decodeInstruction_eq_ok_iff.2 ⟨h, rfl⟩

/-- **Instructions and the numbers that are accepted are in bijection.**  A number is decoded to an
instruction exactly if that instruction is built from 64-bit numbers and encoded by it.  So distinct
instructions have distinct numbers, and whatever is accepted is encoded by the number that it came
from.  The instructions that are built from 64-bit numbers are those with labels, registers and
targets from 1 on and no field beyond the largest of these numbers. -/
theorem instruction_codec_exact :
    (∀ n i, decodeInstruction n = .ok i ↔ i.Constructible ∧ encodeInstruction i = n) ∧
    Set.BijOn encodeInstruction {i | i.Constructible} {n | ∃ i, decodeInstruction n = .ok i} ∧
    ∀ i : Instruction, i.Constructible ↔
      i.WellFormed ∧ ∀ n ∈ (fields i).tail, n ≤ Numeral.maxWord := by
  refine ⟨fun n i => decodeInstruction_eq_ok_iff, ⟨?_, ?_, ?_⟩,
    fun i => Instruction.constructible_iff⟩
  · intro i hi
    exact ⟨i, decode_encodeInstruction hi⟩
  · intro i hi j hj h
    have hback := decode_encodeInstruction hi
    rw [h, decode_encodeInstruction hj] at hback
    exact (Except.ok.inj hback).symm
  · rintro n ⟨i, hn⟩
    exact ⟨i, decodeInstruction_eq_ok_iff.1 hn⟩

/-- The largest value, and the first that no 64-bit number is. -/
example : Instruction.Constructible ⟨1, .set 1 (2 ^ 63 - 1)⟩ ∧
    ¬ Instruction.Constructible ⟨1, .set 1 (2 ^ 63)⟩ := by
  decide

/-- What is decoded from the number of an instruction is that instruction, however large its fields
are. -/
theorem eq_of_decode_encodeInstruction (h : i.WellFormed) {j : Instruction}
    (hd : decodeInstruction (encodeInstruction i) = .ok j) : j = i := by
  rw [decodeInstruction, encodeInstruction, decode_encode] at hd
  have hd : ofFields (fields i) = .ok j := hd
  rw [ofFields_fields h] at hd
  split at hd
  · cases hd
  · exact (Except.ok.inj hd).symm

theorem fields_le (h : i.Constructible) : ∀ n ∈ fields i, n ≤ Numeral.maxWord := by
  intro n hn
  rw [fields_eq_cons] at hn
  rcases List.mem_cons.1 hn with rfl | hn
  · exact Nat.le_trans i.op.opcode.tag_le (by decide)
  · exact (Instruction.constructible_iff.1 h).2 n hn

/-- The first five primes have four binary digits at most, so a field needs `4 * 2 ^ 63` of them. -/
theorem encodeInstruction_lt (h : i.Constructible) :
    encodeInstruction i < Bytes.base ^ (2 ^ 64 - 1) := by
  have hprime : ∀ j, j < 0 + (fields i).length → Nat.nth Nat.Prime j ≤ 2 ^ 4 := by
    intro j hj
    have hlen := length_fields_le i
    have hle : Nat.nth Nat.Prime j ≤ Nat.nth Nat.Prime 4 := nth_prime_le (by omega)
    rw [Nat.nth_prime_four_eq_eleven] at hle
    omega
  have hle := encodeFrom_le hprime (fields_le h)
  have hexp : (fields i).length * (Numeral.maxWord + 1) ≤ 5 * 2 ^ 63 :=
    Nat.mul_le_mul (length_fields_le i) (by decide)
  -- the exponents stay names, lest the powers are computed
  obtain ⟨E, hE⟩ : ∃ E, E = 5 * 2 ^ 63 := ⟨_, rfl⟩
  obtain ⟨L, hL⟩ : ∃ L, L = 2 ^ 64 - 1 := ⟨_, rfl⟩
  rw [← hE] at hexp
  rw [← hL]
  calc encodeInstruction i ≤ (2 ^ 4) ^ ((fields i).length * (Numeral.maxWord + 1)) := hle
    _ ≤ (2 ^ 4) ^ E := Nat.pow_le_pow_right (by decide) hexp
    _ = 2 ^ (4 * E) := (Nat.pow_mul 2 4 E).symm
    _ < 2 ^ (32 * L) := Nat.pow_lt_pow_right (by decide) (by omega)
    _ = (2 ^ 32) ^ L := Nat.pow_mul 2 32 L

/-- The digits of an instruction's number can be counted with 64 bits. -/
theorem length_digits_encodeInstruction (h : i.Constructible) :
    (Bytes.digits (encodeInstruction i)).length < 2 ^ 64 := by
  have hle : (Bytes.digits (encodeInstruction i)).length ≤ 2 ^ 64 - 1 := by
    rw [Bytes.digits_eq]
    exact (Nat.digits_length_le_iff (by decide) _).2 (encodeInstruction_lt h)
  omega

end Goedel

end RegisterMachine
