import Mathlib.Data.Nat.PrimeFin
import RegisterMachine.Proofs.VectorCodec

/-!
# Numbers that stand for no vector

The primes that divide the number of a vector are the first ones, without a hole.  Decoding goes
through the primes in order, so it notices the first hole, and whatever it accepts has none.

* `FirstHole n k p` — `p` is prime number `k`, counted from 1, and the first one that does not
  divide `n`; a later one does.  `FirstHole.unique` — a number has one such place at most.
* `decodeFrom_of_not_dvd` — a prime that does not divide what is left is reported.
* `Divided k rest` — what is left of a positive number when the first `k` primes are divided out;
  `Divided.next` — one more of them.
* `Divided.of_decodeFrom_ok`, `Divided.of_decodeFrom_error` — the primes that divide what is
  accepted, and the prime that is reported.
* `dvd_iff_of_decode`, `card_primeFactors_of_decode` — the first primes divide a number that is
  accepted, and there are as many of them as fields; `firstHole_of_decode` — a positive number is
  refused because of its first hole.

Principal result: `decoding_outcomes` — which of the three outcomes a number has, for every number.
-/

set_option autoImplicit false

namespace RegisterMachine.Goedel

open PrimeTable (first first_next)

variable {n k p rest : Nat}

/-- Prime number `k` is `p`, and it is the first that does not divide `n` although a later one
does. -/
structure FirstHole (n k p : Nat) : Prop where
  one_le : 1 ≤ k
  prime : p = Nat.nth Nat.Prime (k - 1)
  before : ∀ j, j < k - 1 → Nat.nth Nat.Prime j ∣ n
  missing : ¬ p ∣ n
  later : ∃ q, q.Prime ∧ p < q ∧ q ∣ n

/-- A number has one first hole at most. -/
theorem FirstHole.unique {k' p' : Nat} (h : FirstHole n k p) (h' : FirstHole n k' p') :
    k = k' ∧ p = p' := by
  have hk : ¬ k - 1 < k' - 1 := fun hlt => h.missing (h.prime ▸ h'.before _ hlt)
  have hk' : ¬ k' - 1 < k - 1 := fun hlt => h'.missing (h'.prime ▸ h.before _ hlt)
  have heq : k - 1 = k' - 1 := by omega
  have h1 := h.one_le
  have h1' := h'.one_le
  refine ⟨by omega, ?_⟩
  rw [h.prime, h'.prime, heq]

/-! ## One prime -/

theorem divideOut_of_not_dvd (h : ¬ p ∣ n) : divideOut p n 0 = (0, n) := by
  rw [divideOut, if_neg fun hdiv => h (Nat.dvd_of_mod_eq_zero hdiv.2.2)]

/-- A prime that does not divide what is left is reported. -/
theorem decodeFrom_of_not_dvd {position : Nat} (h1 : rest ≠ 1) (h : ¬ Nat.nth Nat.Prime k ∣ rest) :
    decodeFrom (first k) position rest =
      .error (.missingPrimeFactor position (Nat.nth Nat.Prime k)) := by
  rw [decodeFrom, if_neg h1, first_next]
  dsimp only
  split
  · rfl
  · rename_i he
    rw [divideOut_of_not_dvd h] at he
    cases he

/-- What is left of a positive number when the first `k` primes are divided out. -/
structure Divided (k rest : Nat) : Prop where
  ne_zero : rest ≠ 0
  not_dvd : ∀ j, j < k → ¬ Nat.nth Nat.Prime j ∣ rest

namespace Divided

/-- The primes that are left come later. -/
theorem le_of_dvd (h : Divided k rest) {j : Nat} (hj : Nat.nth Nat.Prime j ∣ rest) : k ≤ j := by
  by_contra hlt
  exact h.not_dvd j (by omega) hj

/-- A prime that divides what is left can be divided out, and what is left then has the other
primes. -/
theorem next (h : Divided k rest) (hd : Nat.nth Nat.Prime k ∣ rest) :
    ∃ exponent left, divideOut (Nat.nth Nat.Prime k) rest 0 = (exponent + 1, left) ∧ left < rest ∧
      Divided (k + 1) left ∧
      ∀ j, Nat.nth Nat.Prime j ∣ rest ↔ j = k ∨ Nat.nth Nat.Prime j ∣ left := by
  have hk := Nat.prime_nth_prime k
  obtain ⟨e, left, hleft, hrest⟩ := Nat.exists_eq_pow_mul_and_not_dvd h.ne_zero _ hk.ne_one
  have hdiv : divideOut (Nat.nth Nat.Prime k) rest 0 = (e, left) := by
    rw [hrest, divideOut_pow_mul hk.two_le hleft, Nat.zero_add]
  -- the power is at least the first one, for the prime divides
  obtain ⟨exponent, rfl⟩ : ∃ exponent, e = exponent + 1 := by
    refine Nat.exists_eq_succ_of_ne_zero ?_
    rintro rfl
    rw [pow_zero, Nat.one_mul] at hrest
    exact hleft (hrest ▸ hd)
  have hiff (j : Nat) : Nat.nth Nat.Prime j ∣ rest ↔ j = k ∨ Nat.nth Nat.Prime j ∣ left := by
    have hj := Nat.prime_nth_prime j
    rw [hrest, hj.dvd_mul]
    refine or_congr_left ⟨fun hpow => ?_, fun he => he ▸ dvd_pow_self _ (Nat.succ_ne_zero exponent)⟩
    have heq := (Nat.prime_dvd_prime_iff_eq hj hk).1 (hj.dvd_of_dvd_pow hpow)
    exact Nat.nth_injective Nat.infinite_setOfPred_prime heq
  refine ⟨exponent, left, hdiv, lt_of_divideOut hdiv, ⟨?_, fun j hj hdvd => ?_⟩, hiff⟩
  · rintro rfl
    exact hleft (Nat.dvd_zero _)
  · rcases Nat.lt_succ_iff_lt_or_eq.1 hj with hlt | rfl
    · exact h.not_dvd j hlt ((hiff j).2 (.inr hdvd))
    · exact hleft hdvd

/-! ## All primes in order -/

/-- What is accepted is divided by as many primes as it has fields, and they follow one another. -/
theorem of_decodeFrom_ok {position : Nat} {fs : List Nat} (h : Divided k rest)
    (hok : decodeFrom (first k) position rest = .ok fs) (j : Nat) :
    Nat.nth Nat.Prime j ∣ rest ↔ k ≤ j ∧ j < k + fs.length := by
  induction rest using Nat.strongRecOn generalizing k position fs with
  | ind rest ih =>
    by_cases h1 : rest = 1
    · subst h1
      rw [decodeFrom, if_pos rfl] at hok
      cases hok
      simp only [Nat.dvd_one, (Nat.prime_nth_prime j).ne_one, List.length_nil, false_iff]
      omega
    · by_cases hd : Nat.nth Nat.Prime k ∣ rest
      · obtain ⟨exponent, left, hdiv, hlt, hleft, hiff⟩ := h.next hd
        rw [decodeFrom_of_divideOut h1 hdiv] at hok
        cases hothers : decodeFrom (first (k + 1)) (position + 1) left with
        | error e => rw [hothers] at hok; cases hok
        | ok others =>
          rw [hothers] at hok
          cases hok
          rw [hiff, ih left hlt hleft hothers, List.length_cons]
          omega
      · rw [decodeFrom_of_not_dvd h1 hd] at hok
        cases hok

/-- What is reported is the first prime that does not divide, with its number, and a later one
divides. -/
theorem of_decodeFrom_error {e : DecodeError} (h : Divided k rest)
    (herror : decodeFrom (first k) (k + 1) rest = .error e) :
    ∃ i, k ≤ i ∧ e = .missingPrimeFactor (i + 1) (Nat.nth Nat.Prime i) ∧
      (∀ j, k ≤ j → j < i → Nat.nth Nat.Prime j ∣ rest) ∧ ¬ Nat.nth Nat.Prime i ∣ rest ∧
      ∃ j, i < j ∧ Nat.nth Nat.Prime j ∣ rest := by
  induction rest using Nat.strongRecOn generalizing k with
  | ind rest ih =>
    have h1 : rest ≠ 1 := by
      rintro rfl
      rw [decodeFrom, if_pos rfl] at herror
      cases herror
    by_cases hd : Nat.nth Nat.Prime k ∣ rest
    · obtain ⟨exponent, left, hdiv, hlt, hleft, hiff⟩ := h.next hd
      rw [decodeFrom_of_divideOut h1 hdiv] at herror
      cases hothers : decodeFrom (first (k + 1)) (k + 1 + 1) left with
      | ok others => rw [hothers] at herror; cases herror
      | error e' =>
        rw [hothers] at herror
        cases herror
        obtain ⟨i, hki, he, hbefore, hmissing, j, hij, hj⟩ := ih left hlt hleft hothers
        refine ⟨i, by omega, he, fun m hkm hmi => (hiff m).2 ?_, fun hdvd => ?_,
          j, hij, (hiff j).2 (.inr hj)⟩
        · rcases Nat.eq_or_lt_of_le hkm with rfl | hkm
          · exact .inl rfl
          · exact .inr (hbefore m hkm hmi)
        · rcases (hiff i).1 hdvd with rfl | hdvd
          · omega
          · exact hmissing hdvd
    · rw [decodeFrom_of_not_dvd h1 hd] at herror
      cases herror
      -- what is left is not 1, so it has a prime, which can be neither an earlier one nor this one
      obtain ⟨j, hj⟩ := exists_nth_prime (Nat.minFac_prime h1)
      have hdvd : Nat.nth Nat.Prime j ∣ rest := hj ▸ Nat.minFac_dvd rest
      have hkj := h.le_of_dvd hdvd
      have hne : j ≠ k := fun he => hd (he ▸ hdvd)
      exact ⟨k, Nat.le_refl k, rfl, fun m hkm hmk => absurd hmk (by omega), hd, j, by omega, hdvd⟩

end Divided

/-! ## Numbers -/

theorem divided_zero (hn : n ≠ 0) : Divided 0 n := ⟨hn, fun j hj => absurd hj (Nat.not_lt_zero j)⟩

theorem decode_of_ne_zero (hn : n ≠ 0) : decode n = decodeFrom (first 0) 1 n := if_neg hn

theorem ne_zero_of_decode {fs : List Nat} (h : decode n = .ok fs) : n ≠ 0 := by
  rintro rfl
  cases h

/-- **The primes of a number that is accepted are the first ones,** as many as there are fields. -/
theorem dvd_iff_of_decode {fs : List Nat} (h : decode n = .ok fs) (j : Nat) :
    Nat.nth Nat.Prime j ∣ n ↔ j < fs.length := by
  have hn := ne_zero_of_decode h
  rw [decode_of_ne_zero hn] at h
  rw [(divided_zero hn).of_decodeFrom_ok h]
  omega

/-- **What is reported about a positive number is its first hole.** -/
theorem firstHole_of_decode {e : DecodeError} (hn : n ≠ 0) (h : decode n = .error e) :
    ∃ k p, e = .missingPrimeFactor k p ∧ FirstHole n k p := by
  rw [decode_of_ne_zero hn] at h
  obtain ⟨i, _, he, hbefore, hmissing, j, hij, hj⟩ := (divided_zero hn).of_decodeFrom_error h
  refine ⟨i + 1, Nat.nth Nat.Prime i, he, ⟨by omega, rfl, fun m hm => ?_, hmissing, ?_⟩⟩
  · exact hbefore m (Nat.zero_le m) hm
  · exact ⟨_, Nat.prime_nth_prime j, nth_prime_lt_iff.2 hij, hj⟩

/-- A number with a hole is not accepted. -/
theorem FirstHole.decode_ne_ok {fs : List Nat} (h : FirstHole n k p) : decode n ≠ .ok fs := by
  intro hok
  have hiff := dvd_iff_of_decode hok
  obtain ⟨q, hq, hpq, hdvd⟩ := h.later
  obtain ⟨j, rfl⟩ := exists_nth_prime hq
  rw [h.prime, nth_prime_lt_iff] at hpq
  have hj := (hiff j).1 hdvd
  exact h.missing (h.prime ▸ (hiff (k - 1)).2 (by omega))

/-- **There are as many fields as primes that divide the number.** -/
theorem card_primeFactors_of_decode {fs : List Nat} (h : decode n = .ok fs) :
    fs.length = n.primeFactors.card := by
  have hn := ne_zero_of_decode h
  have himage : n.primeFactors = (Finset.range fs.length).image (Nat.nth Nat.Prime) := by
    ext q
    rw [Nat.mem_primeFactors_of_ne_zero hn, Finset.mem_image]
    constructor
    · rintro ⟨hq, hdvd⟩
      obtain ⟨j, rfl⟩ := exists_nth_prime hq
      exact ⟨j, Finset.mem_range.2 ((dvd_iff_of_decode h j).1 hdvd), rfl⟩
    · rintro ⟨j, hj, rfl⟩
      exact ⟨Nat.prime_nth_prime j, (dvd_iff_of_decode h j).2 (Finset.mem_range.1 hj)⟩
  rw [himage, Finset.card_image_of_injective _ (Nat.nth_injective Nat.infinite_setOfPred_prime),
    Finset.card_range]

/-- **The outcomes of decoding.**  Every number has one of three.  Zero is refused as such.  Another
number is refused exactly if its primes have a hole, and then because of the first one, by the
missing prime and its number.  All other numbers are accepted, and have as many fields as different
primes divide them. -/
theorem decoding_outcomes (n : Nat) :
    (decode n = .error .zero ↔ n = 0) ∧
    (∀ k p, decode n = .error (.missingPrimeFactor k p) ↔ 0 < n ∧ FirstHole n k p) ∧
    (n ≠ 0 → (¬ ∃ k p, FirstHole n k p) →
      ∃ fs, decode n = .ok fs ∧ fs.length = n.primeFactors.card) := by
  refine ⟨⟨fun h => ?_, fun h => if_pos h⟩, fun k p => ⟨fun h => ?_, fun ⟨hpos, hole⟩ => ?_⟩,
    fun hn hnone => ?_⟩
  · by_contra hn
    obtain ⟨k, p, he, _⟩ := firstHole_of_decode hn h
    cases he
  · have hn : n ≠ 0 := by
      rintro rfl
      cases h
    obtain ⟨k', p', he, hole⟩ := firstHole_of_decode hn h
    cases he
    exact ⟨Nat.pos_of_ne_zero hn, hole⟩
  · cases hdecode : decode n with
    | ok fs => exact absurd hdecode hole.decode_ne_ok
    | error e =>
      obtain ⟨k', p', rfl, hole'⟩ := firstHole_of_decode hpos.ne' hdecode
      obtain ⟨rfl, rfl⟩ := hole.unique hole'
      rfl
  · cases hdecode : decode n with
    | ok fs => exact ⟨fs, rfl, card_primeFactors_of_decode hdecode⟩
    | error e =>
      obtain ⟨k, p, _, hole⟩ := firstHole_of_decode hn hdecode
      exact absurd ⟨k, p, hole⟩ hnone

/-- `1960 = 2 ^ 3 * 5 * 7 ^ 2` lacks prime number 2, and `360 = 2 ^ 3 * 3 ^ 2 * 5` lacks none of its
three. -/
theorem decoding_outcomes_with_and_without_hole :
    decode 1960 = .error (.missingPrimeFactor 2 3) ∧
    (¬ ∃ k p, FirstHole 360 k p) ∧
      ∃ fs, decode 360 = .ok fs ∧ fs.length = (360 : Nat).primeFactors.card := by
  have hole : FirstHole 1960 2 3 := by
    refine ⟨by decide, Nat.nth_prime_one_eq_three.symm, fun j hj => ?_, by decide, 7, by decide,
      by decide, by decide⟩
    obtain rfl : j = 0 := by omega
    rw [Nat.nth_prime_zero_eq_two]
    decide
  have hnone : ¬ ∃ k p, FirstHole 360 k p := by
    rintro ⟨k, p, hole⟩
    obtain ⟨q, hq, hpq, hdvd⟩ := hole.later
    have hp : p.Prime := hole.prime ▸ Nat.prime_nth_prime (k - 1)
    have hle : q ≤ 5 := by
      have hprod : q ∣ 2 ^ 3 * 3 ^ 2 * 5 := hdvd
      rw [hq.dvd_mul, hq.dvd_mul] at hprod
      rcases hprod with (h | h) | h
      · have := Nat.le_of_dvd (by decide) (hq.dvd_of_dvd_pow h)
        omega
      · have := Nat.le_of_dvd (by decide) (hq.dvd_of_dvd_pow h)
        omega
      · exact Nat.le_of_dvd (by decide) h
    have h2 := hp.two_le
    have hcases : p = 2 ∨ p = 3 ∨ p = 4 := by omega
    rcases hcases with rfl | rfl | rfl
    · exact hole.missing (by decide)
    · exact hole.missing (by decide)
    · exact hole.missing (by decide)
  exact ⟨((decoding_outcomes 1960).2.1 2 3).2 ⟨by decide, hole⟩, hnone,
    (decoding_outcomes 360).2.2 (by decide) hnone⟩

end RegisterMachine.Goedel
