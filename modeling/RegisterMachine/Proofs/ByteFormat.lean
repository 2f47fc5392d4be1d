import Mathlib.Data.Nat.Digits.Lemmas
import RegisterMachine.Bytes.Sequence

/-!
# Bytes are read back as they were written

Every reader gets on with the bytes after what it read, so the statements are about what was written
with more bytes behind it.

* `Varint.read_cons` — a reader and its next byte; `Varint.write_of_lt`, `Varint.write_of_le` — the
  bytes of a number; `Varint.read_write` — numbers that fit the bits of the reader.
* `readMany_flatMap`, `readList_writeList` — lists, given what reads their elements.
* `digits_eq`, `ofDigits_eq` — the digits are those of the library, in base `2 ^ 32`.

Principal result: `read_write_append` — a sequence of numbers, with anything behind it.
-/

set_option autoImplicit false

namespace RegisterMachine.Bytes

variable {α : Type}

/-! ## Groups of seven bits -/

/-- What a reader does with one byte. -/
theorem Varint.read_cons (bits : Nat) (b : UInt8) (rest : List UInt8) :
    Varint.read bits (b :: rest) =
      if bits ≤ 7 then
        if b.toNat < 2 ^ bits then .ok (b.toNat, rest) else .error .unterminated
      else if b.toNat < 128 then .ok (b.toNat, rest)
      else (Varint.read (bits - 7) rest).map fun high => (b.toNat - 128 + 128 * high.1, high.2) :=
  rfl

/-- A small number is written as one byte. -/
theorem Varint.write_of_lt {n : Nat} (h : n < 128) : Varint.write n = [UInt8.ofNat n] := by
  rw [Varint.write, if_pos h]

/-- **A large number is written as a byte with its high bit set and the other groups,** and that
byte is read before them. -/
theorem Varint.write_of_le {bits n : Nat} (hn : 128 ≤ n) (h : n < 2 ^ bits) :
    ∃ b, Varint.write n = b :: Varint.write (n / 128) ∧ n / 128 < 2 ^ (bits - 7) ∧
      ∀ rest, Varint.read bits (b :: rest) =
        (Varint.read (bits - 7) rest).map fun high => (n % 128 + 128 * high.1, high.2) := by
  have hbits : ¬ bits ≤ 7 := by
    intro hle
    have : 2 ^ bits ≤ 2 ^ 7 := Nat.pow_le_pow_right (by decide) hle
    omega
  have hhigh : n / 128 < 2 ^ (bits - 7) := by
    rw [Nat.div_lt_iff_lt_mul (by decide)]
    have : 2 ^ bits = 2 ^ (bits - 7) * 2 ^ 7 := by rw [← Nat.pow_add]; congr 1; omega
    omega
  refine ⟨UInt8.ofNat (128 + n % 128), ?_, hhigh, fun rest => ?_⟩
  · rw [Varint.write, if_neg (by omega)]
  · have hb := UInt8.toNat_ofNat_of_lt' (show 128 + n % 128 < 256 by omega)
    rw [Varint.read_cons, hb, if_neg hbits, if_neg (by omega), Nat.add_sub_cancel_left]

theorem Varint.read_write {bits n : Nat} (h : n < 2 ^ bits) (rest : List UInt8) :
    Varint.read bits (Varint.write n ++ rest) = .ok (n, rest) := by
  induction n using Nat.strongRecOn generalizing bits with
  | ind n ih =>
    by_cases hn : n < 128
    · have hb := UInt8.toNat_ofNat_of_lt' (show n < 256 by omega)
      rw [Varint.write_of_lt hn, List.singleton_append, Varint.read_cons, hb, if_pos h, if_pos hn]
      split <;> rfl
    · obtain ⟨b, hwrite, hhigh, hread⟩ := Varint.write_of_le (by omega) h
      rw [hwrite, List.cons_append, hread, ih (n / 128) (by omega) hhigh]
      exact congrArg (fun m => Except.ok (m, rest)) (Nat.mod_add_div n 128)

/-! ## Lists -/

section Lists

variable {write : α → List UInt8} {read : List UInt8 → Except ByteError (α × List UInt8)}
  {xs : List α}

theorem readMany_flatMap (h : ∀ x ∈ xs, ∀ rest, read (write x ++ rest) = .ok (x, rest))
    (rest : List UInt8) : readMany read xs.length (xs.flatMap write ++ rest) = .ok (xs, rest) := by
  induction xs with
  | nil => rfl
  | cons x xs ih =>
    have hx := h x List.mem_cons_self (xs.flatMap write ++ rest)
    have hxs := ih fun y hy => h y (List.mem_cons_of_mem x hy)
    rw [List.flatMap_cons, List.append_assoc, List.length_cons, readMany, hx]
    show (readMany read xs.length (xs.flatMap write ++ rest) >>= fun y => .ok (x :: y.1, y.2)) = _
    rw [hxs]
    rfl

/-- **A list whose elements are read back is read back.** -/
theorem readList_writeList (h : ∀ x ∈ xs, ∀ rest, read (write x ++ rest) = .ok (x, rest))
    (hlen : xs.length < 2 ^ 64) (rest : List UInt8) :
    readList read (writeList write xs ++ rest) = .ok (xs, rest) := by
  rw [writeList, List.append_assoc, readList, Varint.read_write hlen]
  exact readMany_flatMap h rest

end Lists

/-! ## Digits -/

theorem digits_eq (n : Nat) : digits n = Nat.digits base n := by
  fun_induction digits n with
  | case1 => exact (Nat.digits_zero base).symm
  | case2 n h ih => rw [Nat.digits_def' (by decide) (Nat.pos_of_ne_zero h), ih]

theorem ofDigits_eq (ds : List Nat) : ofDigits ds = Nat.ofDigits base ds :=
  (Nat.ofDigits_eq_foldr base ds).symm

theorem lt_of_mem_digits {n d : Nat} (h : d ∈ digits n) : d < 2 ^ 32 := by
  rw [digits_eq] at h
  exact Nat.digits_lt_base (by decide) h

/-! ## Sequences -/

theorem readNumber_writeNumber {n : Nat} (h : (digits n).length < 2 ^ 64) (rest : List UInt8) :
    readNumber (writeNumber n ++ rest) = .ok (n, rest) := by
  have hd : readList (Varint.read 32) (writeNumber n ++ rest) = .ok (digits n, rest) :=
    readList_writeList (fun d hd rest => Varint.read_write (lt_of_mem_digits hd) rest) h rest
  have hback : ofDigits (digits n) = n := by
    rw [ofDigits_eq, digits_eq, Nat.ofDigits_digits]
  rw [readNumber, hd]
  exact congrArg (fun m => Except.ok (m, rest)) hback

/-- **A sequence of numbers is read back,** whatever stands behind it. -/
theorem read_write_append {numbers : List Nat} (hlen : numbers.length < 2 ^ 64)
    (h : ∀ n ∈ numbers, (digits n).length < 2 ^ 64) (rest : List UInt8) :
    read (write numbers ++ rest) = .ok numbers := by
  have hl := readList_writeList (fun n hn rest => readNumber_writeNumber (h n hn) rest) hlen rest
  rw [read, write, hl]
  rfl

end RegisterMachine.Bytes
