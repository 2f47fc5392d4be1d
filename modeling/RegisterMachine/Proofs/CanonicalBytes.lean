import RegisterMachine.Proofs.Admission
import RegisterMachine.Proofs.PrefixCode

/-!
# Reading bytes brings them into shortest form

Readers take more than writers make: numbers with empty groups of bits at the end, digits that are
zero at the most significant end, and bytes behind everything.  All of that costs bytes.

* `Pads bytes w` — `bytes` are `w`, or there are more of them than in `w`.
* `Reads read write P` — what `read` finds satisfies `P`, and stands in bytes that pad what `write`
  makes of it.
* `Varint.reads` — numbers of so many bits; `Reads.readMany`, `Reads.readList` — lists, given what
  reads their elements.
* `digits_ofDigits` — the digits of a number are the first of those that it was read from;
  `pads_writeList` — so leaving out the others saves bytes, also in the count of digits.
* `reads_number`, `pads_of_read` — numbers of any size, and sequences of them.

Principal result: `reading_canonicalizes` — the bytes of what was read are read as the same, and are
the shortest.
-/

set_option autoImplicit false

namespace RegisterMachine.Bytes

variable {α : Type} {bytes rest u v w : List UInt8}

/-! ## Bytes with padding -/

/-- `bytes` are `w`, or there are more of them than in `w`. -/
def Pads (bytes w : List UInt8) : Prop := bytes = w ∨ w.length < bytes.length

theorem Pads.length_le (h : Pads bytes w) : w.length ≤ bytes.length := by
  rcases h with rfl | h
  · exact Nat.le_refl _
  · exact Nat.le_of_lt h

theorem Pads.trans (h : Pads u v) (h' : Pads v w) : Pads u w := by
  rcases h with rfl | h
  · exact h'
  · exact .inr (Nat.lt_of_le_of_lt h'.length_le h)

theorem Pads.append_left (h : Pads v w) (u : List UInt8) : Pads (u ++ v) (u ++ w) := by
  rcases h with rfl | h
  · exact .inl rfl
  · right
    simp only [List.length_append]
    omega

theorem Pads.append_right (h : Pads v w) (u : List UInt8) : Pads (v ++ u) (w ++ u) := by
  rcases h with rfl | h
  · exact .inl rfl
  · right
    simp only [List.length_append]
    omega

theorem pads_append (w rest : List UInt8) : Pads (w ++ rest) w := by
  cases rest with
  | nil => exact .inl (List.append_nil w)
  | cons b rest =>
    right
    simp only [List.length_append, List.length_cons]
    omega

/-- Whatever `read` finds satisfies `P` and stands in bytes that pad what `write` makes of it. -/
def Reads (read : List UInt8 → Except ByteError (α × List UInt8)) (write : α → List UInt8)
    (P : α → Prop) : Prop :=
  ∀ bytes x rest, read bytes = .ok (x, rest) → P x ∧ Pads bytes (write x ++ rest)

/-! ## Numbers of so many bits -/

namespace Varint

theorem length_write_of_le {n : Nat} (h : 128 ≤ n) :
    (write n).length = (write (n / 128)).length + 1 := by
  rw [write, if_neg (by omega), List.length_cons]

theorem length_write_pos (n : Nat) : 0 < (write n).length := by
  rw [write]
  split
  · exact Nat.one_pos
  · exact Nat.succ_pos _

/-- A larger number has no fewer bytes. -/
theorem length_write_mono {m n : Nat} (h : m ≤ n) : (write m).length ≤ (write n).length := by
  induction n using Nat.strongRecOn generalizing m with
  | ind n ih =>
    by_cases hm : m < 128
    · rw [write_of_lt hm]
      exact length_write_pos n
    · rw [length_write_of_le (show 128 ≤ m by omega), length_write_of_le (show 128 ≤ n by omega)]
      exact Nat.succ_le_succ (ih (n / 128) (by omega) (Nat.div_le_div_right h))

/-- A byte below 128 is how its number is written. -/
theorem write_toNat {b : UInt8} (h : b.toNat < 128) : write b.toNat = [b] := by
  rw [write_of_lt h, UInt8.ofNat_toNat]

/-- A byte with its high bit set, before the groups of a number, pads the number that it makes with
them. -/
theorem pads_cons {b : UInt8} {high : Nat} (hb : 128 ≤ b.toNat)
    (h : Pads bytes (write high ++ rest)) :
    Pads (b :: bytes) (write (b.toNat - 128 + 128 * high) ++ rest) := by
  have hlt := b.toNat_lt
  by_cases hn : b.toNat - 128 + 128 * high < 128
  · -- there are no further bits, so one byte is enough where two or more were read
    right
    have hle := h.length_le
    have hpos := length_write_pos high
    rw [write_of_lt hn]
    simp only [List.length_append, List.length_cons, List.length_nil] at hle ⊢
    omega
  · have hdiv : (b.toNat - 128 + 128 * high) / 128 = high := by omega
    have hmod : 128 + (b.toNat - 128 + 128 * high) % 128 = b.toNat := by omega
    rw [write, if_neg hn, hdiv, hmod, UInt8.ofNat_toNat]
    exact h.append_left [b]

theorem reads (bits : Nat) : Reads (read bits) write (· < 2 ^ bits) := by
  intro bytes n rest h
  induction bytes generalizing bits n with
  | nil => cases h
  | cons b bytes ih =>
    rw [read_cons] at h
    split at h
    · rename_i hbits
      split at h
      · rename_i hlt
        cases h
        have : 2 ^ bits ≤ 2 ^ 7 := Nat.pow_le_pow_right (by decide) hbits
        rw [write_toNat (by omega)]
        exact ⟨hlt, .inl rfl⟩
      · cases h
    · rename_i hbits
      have hpow : 2 ^ bits = 2 ^ (bits - 7) * 2 ^ 7 := by rw [← Nat.pow_add]; congr 1; omega
      have hpos : 0 < 2 ^ (bits - 7) := Nat.two_pow_pos _
      split at h
      · rename_i hlt
        cases h
        rw [write_toNat hlt]
        exact ⟨by omega, .inl rfl⟩
      · rename_i hge
        cases hr : read (bits - 7) bytes with
        | error e => rw [hr] at h; cases h
        | ok high =>
          rw [hr] at h
          cases h
          obtain ⟨hhigh, hpads⟩ := ih (bits - 7) high.1 hr
          have := b.toNat_lt
          exact ⟨by omega, pads_cons (by omega) hpads⟩

end Varint

/-! ## Lists -/

section Lists

variable {read : List UInt8 → Except ByteError (α × List UInt8)} {write : α → List UInt8}
  {P : α → Prop}

theorem Reads.readMany (h : Reads read write P) (count : Nat) :
    Reads (readMany read count) (List.flatMap write)
      fun xs => xs.length = count ∧ ∀ x ∈ xs, P x := by
  induction count with
  | zero =>
    intro bytes xs rest hr
    cases hr
    exact ⟨⟨rfl, fun x hx => by cases hx⟩, .inl rfl⟩
  | succ count ih =>
    intro bytes xs rest hr
    rw [Bytes.readMany] at hr
    obtain ⟨⟨y, bytes'⟩, hy, hr⟩ := bind_eq_ok_iff.1 hr
    obtain ⟨⟨ys, rest'⟩, hys, hr⟩ := bind_eq_ok_iff.1 hr
    cases hr
    obtain ⟨hPy, hpad⟩ := h _ _ _ hy
    obtain ⟨⟨hlen, hPys⟩, hpads⟩ := ih _ _ _ hys
    refine ⟨⟨congrArg (· + 1) hlen, List.forall_mem_cons.2 ⟨hPy, hPys⟩⟩, ?_⟩
    rw [List.flatMap_cons, List.append_assoc]
    exact hpad.trans (hpads.append_left (write y))

theorem Reads.readList (h : Reads read write P) :
    Reads (readList read) (writeList write) fun xs => xs.length < 2 ^ 64 ∧ ∀ x ∈ xs, P x := by
  intro bytes xs rest hr
  rw [Bytes.readList] at hr
  obtain ⟨⟨count, bytes'⟩, hcount, hr⟩ := bind_eq_ok_iff.1 hr
  obtain ⟨hlt, hpad⟩ := Varint.reads 64 _ _ _ hcount
  obtain ⟨⟨rfl, hP⟩, hpads⟩ := h.readMany count _ _ _ hr
  refine ⟨⟨hlt, hP⟩, ?_⟩
  rw [writeList, List.append_assoc]
  exact hpad.trans (hpads.append_left _)

end Lists

/-! ## Digits -/

/-- **The digits of a number are the first of any that stand for it:** what is missing are zeros at
the end. -/
theorem digits_ofDigits {ds : List Nat} (h : ∀ d ∈ ds, d < 2 ^ 32) :
    digits (ofDigits ds) <+: ds := by
  induction ds with
  | nil => simp [ofDigits, digits_eq]
  | cons d ds ih =>
    obtain ⟨hd, hds⟩ := List.forall_mem_cons.1 h
    have hd : d < base := hd
    have hcons : ofDigits (d :: ds) = d + base * ofDigits ds := rfl
    by_cases h0 : ofDigits (d :: ds) = 0
    · rw [h0, digits_eq, Nat.digits_zero]
      exact List.nil_prefix
    · have hmod : ofDigits (d :: ds) % base = d := by
        rw [hcons, Nat.add_mul_mod_self_left, Nat.mod_eq_of_lt hd]
      have hdiv : ofDigits (d :: ds) / base = ofDigits ds := by
        rw [hcons, Nat.add_mul_div_left _ _ (by decide), Nat.div_eq_of_lt hd, Nat.zero_add]
      rw [digits_eq, Nat.digits_def' (by decide) (Nat.pos_of_ne_zero h0), hmod, hdiv, ← digits_eq]
      exact List.cons_prefix_cons.2 ⟨rfl, ih hds⟩

/-- A list pads its beginnings: fewer elements are fewer bytes, and their count has no more. -/
theorem pads_writeList {ds es : List Nat} (h : es <+: ds) :
    Pads (writeList Varint.write ds) (writeList Varint.write es) := by
  obtain ⟨fs, rfl⟩ := h
  cases fs with
  | nil => exact .inl (by rw [List.append_nil])
  | cons f fs =>
    right
    have hcount := Varint.length_write_mono (show es.length ≤ (es ++ f :: fs).length by simp)
    have hf := Varint.length_write_pos f
    simp only [writeList, List.length_append, List.flatMap_append, List.flatMap_cons] at hcount ⊢
    omega

/-! ## Sequences -/

theorem reads_number : Reads readNumber writeNumber fun n => (digits n).length < 2 ^ 64 := by
  intro bytes n rest hr
  rw [readNumber] at hr
  obtain ⟨⟨ds, rest'⟩, hds, hr⟩ := bind_eq_ok_iff.1 hr
  cases hr
  obtain ⟨⟨hlen, hlt⟩, hpads⟩ := (Varint.reads 32).readList _ _ _ hds
  have hdigits := digits_ofDigits hlt
  exact ⟨Nat.lt_of_le_of_lt hdigits.length_le hlen,
    hpads.trans ((pads_writeList hdigits).append_right rest)⟩

variable {numbers : List Nat}

/-- Bytes that are read hold counts of 64 bits only, and pad the bytes of what is read. -/
theorem pads_of_read (h : read bytes = .ok numbers) :
    Countable numbers ∧ Pads bytes (write numbers) := by
  rw [read] at h
  obtain ⟨⟨ns, rest⟩, hns, h⟩ := bind_eq_ok_iff.1 h
  cases h
  obtain ⟨⟨hlen, hdigits⟩, hpads⟩ := reads_number.readList _ _ _ hns
  exact ⟨⟨hlen, hdigits⟩, hpads.trans (pads_append _ rest)⟩

/-- **Reading brings bytes into shortest form.**  If bytes are read as a sequence, then so are those
that are written for it, and these are no longer.  No bytes at all that are read as that sequence
are shorter, and none but these are as short. -/
theorem reading_canonicalizes (h : read bytes = .ok numbers) :
    read (write numbers) = .ok numbers ∧ (write numbers).length ≤ bytes.length ∧
    ∀ other, read other = .ok numbers → (write numbers).length ≤ other.length ∧
      (other.length = (write numbers).length → other = write numbers) := by
  obtain ⟨hcount, hpads⟩ := pads_of_read h
  refine ⟨?_, hpads.length_le, fun other ho => ?_⟩
  · have hread := read_write_append hcount.length_lt hcount.digits_lt []
    rwa [List.append_nil] at hread
  · obtain ⟨_, hother⟩ := pads_of_read ho
    exact ⟨hother.length_le, fun he => hother.resolve_right (by omega)⟩

/-- Every count and digit has an empty group at its end, the number has two digits that are zero,
and a byte follows: eleven bytes for what is written in three. -/
theorem padded_bytes_are_canonicalized :
    read [129, 0, 131, 0, 133, 0, 128, 0, 128, 0, 255] = .ok [5] ∧ read [1, 1, 5] = .ok [5] ∧
    ∀ other, read other = .ok [5] → 3 ≤ other.length ∧ (other.length = 3 → other = [1, 1, 5]) := by
  have h : read [129, 0, 131, 0, 133, 0, 128, 0, 128, 0, 255] = .ok [5] := by decide +kernel
  have hwrite : write [5] = [1, 1, 5] := by decide +kernel
  obtain ⟨hread, _, hother⟩ := reading_canonicalizes h
  rw [hwrite] at hread hother
  exact ⟨h, hread, hother⟩

end RegisterMachine.Bytes
