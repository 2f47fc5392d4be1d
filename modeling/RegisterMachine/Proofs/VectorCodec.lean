import RegisterMachine.Goedel.Vector
import RegisterMachine.Proofs.PrimeTables

/-!
# Vectors come back from their numbers

* `divideOut_pow_mul` — dividing out a prime power leaves exactly the other factor.
* `not_dvd_encodeFrom` — a prime before those of a vector does not divide its number.
* `decodeFrom_encodeFrom` — decoding goes through the primes in the order in which encoding did, so
  `decode_encode` — decoding undoes encoding, for vectors of any length.
* `divideOut_mul_pow` — dividing out loses nothing, so `encodeFrom_of_decodeFrom` — what is decoded
  has the number that it was decoded from.
* `decode_eq_ok_iff` — so a number is decoded to a vector exactly if it is its number.
* `encodeFrom_eq_prod` — the number of a vector is the product of its prime powers;
  `two_pow_le_encodeFrom`, `succ_lt_bitLength` — so no field is larger than the number has binary
  digits.
* `encodeFrom_le` — how large the number of a vector gets.

Principal result: `vector_codec_exact` — decoding is the exact inverse of the product of prime
powers.
-/

set_option autoImplicit false

namespace RegisterMachine.Goedel

open PrimeTable (first first_next)

theorem encodeFrom_cons (k n : Nat) (ns : List Nat) :
    encodeFrom (first k) (n :: ns) =
      Nat.nth Nat.Prime k ^ (n + 1) * encodeFrom (first (k + 1)) ns := by
  show (first k).next.1 ^ (n + 1) * encodeFrom (first k).next.2 ns = _
  rw [first_next]

/-- What is left has no factor `p`, and the power of `p` is counted. -/
theorem divideOut_pow_mul {p m : Nat} (hp : 2 ≤ p) (hm : ¬ p ∣ m) (e count : Nat) :
    divideOut p (p ^ e * m) count = (count + e, m) := by
  induction e generalizing count with
  | zero =>
    have hmod : ¬ m % p = 0 := fun h => hm (Nat.dvd_of_mod_eq_zero h)
    rw [pow_zero, Nat.one_mul, divideOut, if_neg (fun h => hmod h.2.2)]
    rfl
  | succ e ih =>
    have hpos : 0 < p := by omega
    have hm0 : m ≠ 0 := fun h => hm (h ▸ Nat.dvd_zero p)
    have heq : p ^ (e + 1) * m = p * (p ^ e * m) := by ring
    have hne : p * (p ^ e * m) ≠ 0 :=
      Nat.mul_ne_zero hpos.ne' (Nat.mul_ne_zero (pow_ne_zero e hpos.ne') hm0)
    rw [heq, divideOut, if_pos ⟨hp, hne, Nat.mul_mod_right p _⟩, Nat.mul_div_cancel_left _ hpos, ih]
    congr 1
    omega

/-- A prime before those of a vector does not divide its number. -/
theorem not_dvd_encodeFrom {j k : Nat} (hj : j < k) (ns : List Nat) :
    ¬ Nat.nth Nat.Prime j ∣ encodeFrom (first k) ns := by
  have hprime := Nat.prime_nth_prime j
  induction ns generalizing k with
  | nil => exact fun h => hprime.one_lt.ne' (Nat.dvd_one.1 h)
  | cons n ns ih =>
    rw [encodeFrom_cons, hprime.dvd_mul, not_or]
    refine ⟨fun h => ?_, ih (Nat.lt_succ_of_lt hj)⟩
    have he :=
      (Nat.prime_dvd_prime_iff_eq hprime (Nat.prime_nth_prime k)).1 (hprime.dvd_of_dvd_pow h)
    have := nth_prime_lt_iff.2 hj
    omega

theorem encodeFrom_pos (k : Nat) (ns : List Nat) : 0 < encodeFrom (first k) ns := by
  induction ns generalizing k with
  | nil => exact Nat.one_pos
  | cons n ns ih =>
    rw [encodeFrom_cons]
    exact Nat.mul_pos (Nat.pow_pos (Nat.prime_nth_prime k).pos) (ih (k + 1))

theorem encodeFrom_cons_ne_one (k n : Nat) (ns : List Nat) :
    encodeFrom (first k) (n :: ns) ≠ 1 := by
  rw [encodeFrom_cons]
  intro h
  have hone := Nat.eq_one_of_mul_eq_one_right h
  exact absurd hone (Nat.one_lt_pow (Nat.succ_ne_zero n) (Nat.prime_nth_prime k).one_lt).ne'

/-- One field is read off by dividing out its prime. -/
theorem decodeFrom_of_divideOut {k position rest exponent left : Nat} (h1 : rest ≠ 1)
    (h : divideOut (Nat.nth Nat.Prime k) rest 0 = (exponent + 1, left)) :
    decodeFrom (first k) position rest =
      (decodeFrom (first (k + 1)) (position + 1) left).map (exponent :: ·) := by
  rw [decodeFrom, if_neg h1, first_next]
  dsimp only
  split
  · rename_i he
    rw [h] at he
    cases he
  · rename_i he
    rw [h] at he
    cases he
    cases decodeFrom (first (k + 1)) (position + 1) left <;> rfl

/-- Decoding goes through the primes in the order in which encoding did. -/
theorem decodeFrom_encodeFrom (k position : Nat) (ns : List Nat) :
    decodeFrom (first k) position (encodeFrom (first k) ns) = .ok ns := by
  induction ns generalizing k position with
  | nil =>
    show decodeFrom (first k) position 1 = _
    rw [decodeFrom]
    rfl
  | cons n ns ih =>
    have hd : divideOut (Nat.nth Nat.Prime k) (encodeFrom (first k) (n :: ns)) 0 =
        (n + 1, encodeFrom (first (k + 1)) ns) := by
      rw [encodeFrom_cons, divideOut_pow_mul (Nat.prime_nth_prime k).two_le
        (not_dvd_encodeFrom (Nat.lt_succ_self k) ns), Nat.zero_add]
    rw [decodeFrom_of_divideOut (encodeFrom_cons_ne_one k n ns) hd, ih]
    rfl

/-- **Decoding undoes encoding.** -/
theorem decode_encode (fs : List Nat) : decode (encode fs) = .ok fs := by
  have hne : encode fs ≠ 0 := (encodeFrom_pos 0 fs).ne'
  rw [decode, if_neg hne]
  exact decodeFrom_encodeFrom 0 1 fs

/-! ## What is decoded has the number that it was decoded from -/

/-- Dividing moves factors `p` from the number to the count and loses nothing. -/
theorem divideOut_mul_pow (p n count : Nat) :
    (divideOut p n count).2 * p ^ (divideOut p n count).1 = n * p ^ count := by
  fun_induction divideOut p n count with
  | case1 n count h ih =>
    have hdvd : p ∣ n := Nat.dvd_of_mod_eq_zero h.2.2
    rw [ih, pow_succ', ← Nat.mul_assoc, Nat.div_mul_cancel hdvd]
  | case2 n count h => rfl

/-- This needs no primes: it holds for every table. -/
theorem encodeFrom_of_decodeFrom {t : PrimeTable} {position rest : Nat} {fs : List Nat}
    (h : decodeFrom t position rest = .ok fs) : encodeFrom t fs = rest := by
  fun_induction decodeFrom t position rest generalizing fs with
  | case1 t position =>
    cases h
    rfl
  | case2 => cases h
  | case3 t position rest _ p t' ht exponent left hd ih =>
    cases hothers : decodeFrom t' (position + 1) left with
    | error cause =>
      rw [hothers] at h
      cases h
    | ok others =>
      rw [hothers] at h
      cases h
      have hpow := divideOut_mul_pow p rest 0
      rw [hd, pow_zero, Nat.mul_one] at hpow
      show t.next.1 ^ (exponent + 1) * encodeFrom t.next.2 others = rest
      rw [ht]
      show p ^ (exponent + 1) * encodeFrom t' others = rest
      rw [ih hothers, Nat.mul_comm]
      exact hpow

/-- **A number is decoded to a vector exactly if it is the number of that vector.** -/
theorem decode_eq_ok_iff {n : Nat} {fs : List Nat} : decode n = .ok fs ↔ encode fs = n := by
  constructor
  · intro h
    unfold decode at h
    split at h
    · cases h
    · exact encodeFrom_of_decodeFrom h
  · rintro rfl
    exact decode_encode fs

/-! ## Prime powers -/

/-- The number of a vector, field by field. -/
theorem encodeFrom_eq_prod (k : Nat) (ns : List Nat) :
    encodeFrom (first k) ns =
      ((ns.zipIdx k).map fun field => Nat.nth Nat.Prime field.2 ^ (field.1 + 1)).prod := by
  induction ns generalizing k with
  | nil => rfl
  | cons n ns ih => rw [encodeFrom_cons, ih, List.zipIdx_cons, List.map_cons, List.prod_cons]

theorem two_pow_le_encodeFrom {k f : Nat} {ns : List Nat} (hf : f ∈ ns) :
    2 ^ (f + 1) ≤ encodeFrom (first k) ns := by
  induction ns generalizing k with
  | nil => cases hf
  | cons n ns ih =>
    rw [encodeFrom_cons]
    have hprime := Nat.prime_nth_prime k
    rcases List.mem_cons.1 hf with rfl | hf
    · calc 2 ^ (f + 1) ≤ Nat.nth Nat.Prime k ^ (f + 1) := Nat.pow_le_pow_left hprime.two_le _
        _ ≤ Nat.nth Nat.Prime k ^ (f + 1) * encodeFrom (first (k + 1)) ns :=
          Nat.le_mul_of_pos_right _ (encodeFrom_pos _ _)
    · calc 2 ^ (f + 1) ≤ encodeFrom (first (k + 1)) ns := ih hf
        _ ≤ Nat.nth Nat.Prime k ^ (n + 1) * encodeFrom (first (k + 1)) ns :=
          Nat.le_mul_of_pos_left _ (Nat.pow_pos hprime.pos)

/-- The exponent of a field is smaller than the number of binary digits. -/
theorem succ_lt_bitLength {n f : Nat} {fs : List Nat} (hn : encode fs = n) (hf : f ∈ fs) :
    f + 1 < bitLength n := by
  have hle : 2 ^ (f + 1) ≤ n := hn ▸ two_pow_le_encodeFrom (k := 0) hf
  have hne : n ≠ 0 := hn ▸ (encodeFrom_pos 0 fs).ne'
  have hlog := (Nat.le_log2 hne).2 hle
  unfold bitLength
  omega

/-- **Vectors and the numbers that are accepted.**  A number is decoded to a vector exactly if it is
the number of that vector.  So decoding undoes encoding for vectors of any length, different vectors
have different numbers, and what is accepted is encoded by the number that it came from.  The number
of a vector is the product of the first primes, each with its field and one as exponent.  These
exponents are smaller than the number of binary digits, so they can be counted with 64 bits if the
digits can. -/
theorem vector_codec_exact :
    (∀ n fs, decode n = .ok fs ↔ encode fs = n) ∧
    (∀ fs, decode (encode fs) = .ok fs) ∧
    Function.Injective encode ∧
    (∀ n fs, decode n = .ok fs →
      encode fs = n ∧ (bitLength n < 2 ^ 64 → ∀ f ∈ fs, f < 2 ^ 64 - 1)) ∧
    ∀ fs,
      encode fs = (fs.zipIdx.map fun field => Nat.nth Nat.Prime field.2 ^ (field.1 + 1)).prod := by
  refine ⟨fun n fs => decode_eq_ok_iff, decode_encode, ?_, ?_, encodeFrom_eq_prod 0⟩
  · intro fs gs h
    have hback := decode_encode fs
    rw [h, decode_encode gs] at hback
    exact (Except.ok.inj hback).symm
  · intro n fs h
    have hn := decode_eq_ok_iff.1 h
    refine ⟨hn, fun hlen f hf => ?_⟩
    have hlt := succ_lt_bitLength hn hf
    omega

/-- Four fields, of which one is zero, and the number of the empty vector. -/
theorem vector_codec_exact_at_four_fields :
    decode 13829760 = .ok [6, 1, 0, 3] ∧ (∀ f ∈ [6, 1, 0, 3], f < 2 ^ 64 - 1) ∧
      decode 1 = .ok [] := by
  obtain ⟨hiff, _, _, hback, hprod⟩ := vector_codec_exact
  have hnumber : encode [6, 1, 0, 3] = 13829760 := by
    rw [hprod]
    simp [List.zipIdx]
  have hdecode := (hiff _ _).2 hnumber
  exact ⟨hdecode, (hback _ _ hdecode).2 (by decide), (hiff _ _).2 rfl⟩

/-! ## Size -/

/-- With primes up to `B` and fields up to `M`, no factor is larger than `B ^ (M + 1)`. -/
theorem encodeFrom_le {B M k : Nat} {ns : List Nat}
    (hB : ∀ j, j < k + ns.length → Nat.nth Nat.Prime j ≤ B) (hM : ∀ n ∈ ns, n ≤ M) :
    encodeFrom (first k) ns ≤ B ^ (ns.length * (M + 1)) := by
  induction ns generalizing k with
  | nil => exact Nat.le_of_eq (by rw [List.length_nil, Nat.zero_mul]; rfl)
  | cons n ns ih =>
    have hk : Nat.nth Nat.Prime k ≤ B := hB k (by simp)
    have hpos : 0 < B := Nat.lt_of_lt_of_le (Nat.prime_nth_prime k).pos hk
    have hhead : Nat.nth Nat.Prime k ^ (n + 1) ≤ B ^ (M + 1) :=
      calc Nat.nth Nat.Prime k ^ (n + 1) ≤ B ^ (n + 1) := Nat.pow_le_pow_left hk _
        _ ≤ B ^ (M + 1) := Nat.pow_le_pow_right hpos (by have := hM n (by simp); omega)
    have htail := ih (k := k + 1) (fun j hj => hB j (by simp only [List.length_cons]; omega))
      (fun m hm => hM m (List.mem_cons_of_mem n hm))
    calc encodeFrom (first k) (n :: ns)
        = Nat.nth Nat.Prime k ^ (n + 1) * encodeFrom (first (k + 1)) ns := encodeFrom_cons k n ns
      _ ≤ B ^ (M + 1) * B ^ (ns.length * (M + 1)) := Nat.mul_le_mul hhead htail
      _ = B ^ ((n :: ns).length * (M + 1)) := by rw [← pow_add, List.length_cons]; congr 1; ring

end RegisterMachine.Goedel
