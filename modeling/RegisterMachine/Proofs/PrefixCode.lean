import RegisterMachine.Proofs.ByteFormat

/-!
# Bytes that are cut short are never misread

A reader knows from the bytes themselves how many of them it needs.  So it reads what was written
whatever stands behind it, and notices when a part of it is missing, wherever the cut is.

* `NoticesCut read w` — a reader complains of every beginning of `w` that is not all of it.
* `Varint.noticesCut_read` — readers of numbers of so many bits.
* `NoticesCut.bind`, `NoticesCut.map` — readers that go on with another reader, or change what was
  read.
* `noticesCut_readMany`, `noticesCut_readList` — lists, given what reads their elements.
* `Countable numbers` — every count that is written for `numbers` has 64 bits.

Principal result: `bytes_are_prefix_free` — a sequence is read whatever stands behind its bytes, no
beginning of them is read as anything, and they are no beginning of the bytes of another sequence.
-/

set_option autoImplicit false

namespace RegisterMachine.Bytes

variable {α β : Type} {w w₁ w₂ u v : List UInt8}

/-- `read` complains of a missing end if it is given a part of `w` instead of `w`. -/
def NoticesCut (read : List UInt8 → Except ByteError α) (w : List UInt8) : Prop :=
  ∀ u v, v ≠ [] → w = u ++ v → read u = .error .endOfBuffer

/-! ## Numbers -/

theorem Varint.noticesCut_read {bits n : Nat} (h : n < 2 ^ bits) :
    NoticesCut (Varint.read bits) (Varint.write n) := by
  induction n using Nat.strongRecOn generalizing bits with
  | ind n ih =>
    intro u v hv hw
    cases u with
    | nil => rfl
    | cons c u =>
      by_cases hn : n < 128
      · -- a single byte is there or not
        rw [Varint.write_of_lt hn, List.cons_append] at hw
        have hnil := (List.cons.inj hw).2
        exact absurd (List.append_eq_nil_iff.1 hnil.symm).2 hv
      · obtain ⟨b, hwrite, hhigh, hread⟩ := Varint.write_of_le (by omega) h
        rw [hwrite, List.cons_append] at hw
        obtain ⟨rfl, htail⟩ := List.cons.inj hw
        rw [hread, ih (n / 128) (by omega) hhigh u v hv htail]
        rfl

/-! ## Readers after one another -/

/-- A beginning of two parts ends in the first, or has all of the first and ends in the second. -/
theorem cut_append (h : w₁ ++ w₂ = u ++ v) :
    (∃ v', v' ≠ [] ∧ w₁ = u ++ v') ∨ ∃ u', u = w₁ ++ u' ∧ w₂ = u' ++ v := by
  rcases List.append_eq_append_iff.1 h with ⟨u', hu, hw₂⟩ | ⟨v', hw₁, hv'⟩
  · exact .inr ⟨u', hu, hw₂⟩
  · cases v' with
    | nil => exact .inr ⟨[], by simpa using hw₁.symm, by simpa using hv'.symm⟩
    | cons b v' => exact .inl ⟨b :: v', List.cons_ne_nil b v', hw₁⟩

section Readers

variable {read : List UInt8 → Except ByteError (α × List UInt8)}

/-- **Two readers, one behind the other,** if the first reads its part as `x` and goes on. -/
theorem NoticesCut.bind {k : α → List UInt8 → Except ByteError β} {x : α} (h₁ : NoticesCut read w₁)
    (hread : ∀ rest, read (w₁ ++ rest) = .ok (x, rest)) (h₂ : NoticesCut (k x) w₂) :
    NoticesCut (fun bytes => read bytes >>= fun y => k y.1 y.2) (w₁ ++ w₂) := by
  intro u v hv hw
  dsimp only
  rcases cut_append hw with ⟨v', hv', hw₁⟩ | ⟨u', rfl, hw₂⟩
  · rw [h₁ u v' hv' hw₁]
    rfl
  · rw [hread]
    exact h₂ u' v hv hw₂

theorem NoticesCut.map {f : List UInt8 → Except ByteError α} (h : NoticesCut f w) (g : α → β) :
    NoticesCut (fun bytes => f bytes >>= fun x => .ok (g x)) w := by
  intro u v hv hw
  dsimp only
  rw [h u v hv hw]
  rfl

/-! ## Lists -/

variable {write : α → List UInt8} {xs : List α}

theorem noticesCut_readMany (hread : ∀ x ∈ xs, ∀ rest, read (write x ++ rest) = .ok (x, rest))
    (hcut : ∀ x ∈ xs, NoticesCut read (write x)) :
    NoticesCut (readMany read xs.length) (xs.flatMap write) := by
  induction xs with
  | nil =>
    intro u v hv hw
    exact absurd (List.append_eq_nil_iff.1 hw.symm).2 hv
  | cons x xs ih =>
    have hx := hcut x List.mem_cons_self
    have hxs := ih (fun y hy => hread y (List.mem_cons_of_mem x hy))
      fun y hy => hcut y (List.mem_cons_of_mem x hy)
    rw [List.flatMap_cons]
    -- the next element, and then the others
    exact hx.bind
      (k := fun y bytes => readMany read xs.length bytes >>= fun ys => .ok (y :: ys.1, ys.2))
      (hread x List.mem_cons_self) (hxs.map fun ys => (x :: ys.1, ys.2))

/-- **A list whose elements notice a cut notices a cut.** -/
theorem noticesCut_readList (hread : ∀ x ∈ xs, ∀ rest, read (write x ++ rest) = .ok (x, rest))
    (hcut : ∀ x ∈ xs, NoticesCut read (write x)) (hlen : xs.length < 2 ^ 64) :
    NoticesCut (readList read) (writeList write xs) :=
  (Varint.noticesCut_read hlen).bind (k := readMany read) (Varint.read_write hlen)
    (noticesCut_readMany hread hcut)

end Readers

/-! ## Sequences -/

theorem noticesCut_readNumber {n : Nat} (h : (digits n).length < 2 ^ 64) :
    NoticesCut readNumber (writeNumber n) :=
  (noticesCut_readList (fun _ hd => Varint.read_write (lt_of_mem_digits hd))
    (fun _ hd => Varint.noticesCut_read (lt_of_mem_digits hd)) h).map fun ds =>
      (ofDigits ds.1, ds.2)

/-- Every count that is written for the numbers has 64 bits. -/
structure Countable (numbers : List Nat) : Prop where
  length_lt : numbers.length < 2 ^ 64
  digits_lt : ∀ n ∈ numbers, (digits n).length < 2 ^ 64

variable {numbers others : List Nat}

theorem Countable.noticesCut_read (h : Countable numbers) : NoticesCut read (write numbers) :=
  (noticesCut_readList (fun n hn => readNumber_writeNumber (h.digits_lt n hn))
    (fun n hn => noticesCut_readNumber (h.digits_lt n hn)) h.length_lt).map Prod.fst

/-- The bytes of a sequence are no beginning of those of another one. -/
theorem Countable.eq_of_isPrefix (h : Countable numbers) (ho : Countable others)
    (hp : write numbers <+: write others) : numbers = others := by
  obtain ⟨rest, hrest⟩ := hp
  have hread := read_write_append h.length_lt h.digits_lt rest
  have hother := read_write_append ho.length_lt ho.digits_lt []
  rw [hrest] at hread
  rw [List.append_nil, hread] at hother
  exact Except.ok.inj hother

/-- **The bytes of sequences are a prefix-free code.**  A sequence is read from its bytes whatever
stands behind them; wherever they are cut, the end is missed and nothing is read; and they do not
begin the bytes of another sequence. -/
theorem bytes_are_prefix_free (h : Countable numbers) :
    (∀ rest, read (write numbers ++ rest) = .ok numbers) ∧
    (∀ u, u <+: write numbers → u ≠ write numbers → read u = .error .endOfBuffer) ∧
    ∀ others, Countable others → write numbers <+: write others → numbers = others := by
  refine ⟨read_write_append h.length_lt h.digits_lt, ?_, fun others => h.eq_of_isPrefix⟩
  rintro u ⟨v, hv⟩ hne
  refine h.noticesCut_read u v ?_ hv.symm
  rintro rfl
  exact hne (by simpa using hv)

/-- Zero, a number of three digits, and cuts between numbers, between digits and inside a digit. -/
theorem bytes_of_large_number_are_prefix_free :
    write [0, 18446744073709551916] = [2, 0, 3, 172, 2, 0, 1] ∧
    read [2, 0, 3, 172, 2, 0, 1, 255, 255] = .ok [0, 18446744073709551916] ∧
    ∀ u ∈ [[], [2], [2, 0], [2, 0, 3, 172], [2, 0, 3, 172, 2]], read u = .error .endOfBuffer := by
  have hwrite : write [0, 18446744073709551916] = [2, 0, 3, 172, 2, 0, 1] := by decide +kernel
  have hlt : ∀ n ∈ [0, 18446744073709551916], n < base ^ 3 := by decide
  have h : Countable [0, 18446744073709551916] := by
    refine ⟨by decide, fun n hn => ?_⟩
    have hle : (digits n).length ≤ 3 := by
      rw [digits_eq]
      exact (Nat.digits_length_le_iff (by decide) n).2 (hlt n hn)
    omega
  have hparts : ∀ u ∈ [[], [2], [2, 0], [2, 0, 3, 172], [2, 0, 3, 172, 2]],
      u <+: [2, 0, 3, 172, 2, 0, 1] ∧ u ≠ ([2, 0, 3, 172, 2, 0, 1] : List UInt8) := by decide
  obtain ⟨hread, hcut, _⟩ := bytes_are_prefix_free h
  rw [hwrite] at hread hcut
  exact ⟨hwrite, hread [255, 255], fun u hu => hcut u (hparts u hu).1 (hparts u hu).2⟩

end RegisterMachine.Bytes
