import Mathlib.NumberTheory.Bertrand
import Mathlib.NumberTheory.PrimeCounting
import RegisterMachine.Goedel.Primes

/-!
# The table of primes is exact

The primes are numbered from zero, as `Nat.nth Nat.Prime`.

* `PrimeTable.Exact` — the table holds the first primes, each in its place.
* `Exact.clears_iff` — up to the next prime, trial division by such a table is a test for primes.
* `PrimeTable.search_eq` — a search ends at the first number that the table clears.
* `Exact.search_eq` — the candidates start right, and by Bertrand's postulate the budget suffices,
  so the search finds the next prime.

Principal result: `first_next` — the table of the first `k` primes goes on with prime number `k`.
-/

set_option autoImplicit false

namespace RegisterMachine.Goedel

theorem nth_prime_lt_iff {i j : Nat} : Nat.nth Nat.Prime i < Nat.nth Nat.Prime j ↔ i < j :=
  Nat.nth_lt_nth Nat.infinite_setOfPred_prime

theorem nth_prime_le {i j : Nat} (h : i ≤ j) : Nat.nth Nat.Prime i ≤ Nat.nth Nat.Prime j :=
  Nat.nth_monotone Nat.infinite_setOfPred_prime h

/-- Every prime has a number. -/
theorem exists_nth_prime {p : Nat} (h : p.Prime) : ∃ i, Nat.nth Nat.Prime i = p :=
  ⟨_, Nat.nth_count h⟩

/-- No prime lies between two neighbours. -/
theorem not_prime_between {k n : Nat} (hl : Nat.nth Nat.Prime k < n)
    (hu : n < Nat.nth Nat.Prime (k + 1)) : ¬ n.Prime := by
  intro hn
  have := Nat.le_nth_of_lt_nth_succ hu hn
  omega

/-- Primes from number 1 on are odd. -/
theorem nth_prime_odd (k : Nat) : Nat.nth Nat.Prime (k + 1) % 2 = 1 := by
  have hlt : Nat.nth Nat.Prime 0 < Nat.nth Nat.Prime (k + 1) := nth_prime_lt_iff.2 (Nat.succ_pos k)
  rw [Nat.nth_prime_zero_eq_two] at hlt
  rcases (Nat.prime_nth_prime (k + 1)).eq_two_or_odd with h | h
  · omega
  · exact h

/-- **The next prime is at most twice as large.** -/
theorem nth_prime_succ_le (k : Nat) : Nat.nth Nat.Prime (k + 1) ≤ 2 * Nat.nth Nat.Prime k := by
  have hpos : Nat.nth Nat.Prime k ≠ 0 := (Nat.prime_nth_prime k).ne_zero
  obtain ⟨q, hq, hlt, hle⟩ := Nat.exists_prime_lt_and_le_two_mul _ hpos
  obtain ⟨i, rfl⟩ := exists_nth_prime hq
  have hki : k + 1 ≤ i := nth_prime_lt_iff.1 hlt
  exact Nat.le_trans (nth_prime_le hki) hle

namespace PrimeTable

variable {t : PrimeTable}

/-- The table holds the first primes, each in its place. -/
def Exact (t : PrimeTable) : Prop :=
  ∀ i (h : i < t.found.size), t.found[i] = Nat.nth Nat.Prime i

/-! ## Trial division -/

/-- Places behind a prime whose square is too large have larger squares. -/
theorem Exact.clearsFrom_iff (h : t.Exact) (n i : Nat) :
    t.clearsFrom n i = true ↔
      ∀ j, i ≤ j → j < t.found.size → Nat.nth Nat.Prime j * Nat.nth Nat.Prime j ≤ n →
        ¬ Nat.nth Nat.Prime j ∣ n := by
  fun_induction clearsFrom t n i with
  | case1 i hi p hsq =>
    refine ⟨fun _ j hij hj hle => ?_, fun _ => rfl⟩
    have hp : p = Nat.nth Nat.Prime i := h i hi
    have hmono : p ≤ Nat.nth Nat.Prime j := by
      rw [hp]
      exact nth_prime_le hij
    have := Nat.mul_le_mul hmono hmono
    omega
  | case2 i hi p hsq hdvd =>
    have hp : p = Nat.nth Nat.Prime i := h i hi
    constructor
    · intro he
      cases he
    · intro hall
      exact absurd (hp ▸ Nat.dvd_of_mod_eq_zero hdvd)
        (hall i (Nat.le_refl i) hi (by rw [← hp]; omega))
  | case3 i hi p hsq hdvd ih =>
    have hp : p = Nat.nth Nat.Prime i := h i hi
    rw [ih]
    constructor
    · intro hall j hij hj hle
      rcases Nat.eq_or_lt_of_le hij with rfl | hij
      · intro hd
        exact hdvd (Nat.mod_eq_zero_of_dvd (hp ▸ hd))
      · exact hall j hij hj hle
    · intro hall j hij
      exact hall j (by omega)
  | case4 i hi => exact ⟨fun _ j hij hj => absurd hj (by omega), fun _ => rfl⟩

/-- **Trial division tells primes, up to the next one.** -/
theorem Exact.clears_iff (h : t.Exact) {n : Nat} (hn : 2 ≤ n)
    (hle : n ≤ Nat.nth Nat.Prime t.found.size) : t.clears n = true ↔ n.Prime := by
  rw [clears, h.clearsFrom_iff]
  constructor
  · intro hall
    by_contra hnp
    -- the least factor of a composite number is in the table, and its square is small enough to
    -- be tried
    have hmin : n.minFac.Prime := Nat.minFac_prime (by omega)
    have hsq : n.minFac ^ 2 ≤ n := Nat.minFac_sq_le_self (by omega) hnp
    obtain ⟨j, hj⟩ := exists_nth_prime hmin
    have hlt : n.minFac < n := (Nat.not_prime_iff_minFac_lt hn).1 hnp
    have hjs : j < t.found.size := nth_prime_lt_iff.1 (by omega)
    refine hall j (Nat.zero_le j) hjs ?_ ?_
    · rw [hj, ← pow_two]
      exact hsq
    · rw [hj]
      exact Nat.minFac_dvd n
  · intro hp j _ _ hsq hd
    have hj := Nat.prime_nth_prime j
    have he : Nat.nth Nat.Prime j = n := (Nat.prime_dvd_prime_iff_eq hj hp).1 hd
    rw [he] at hsq
    have := Nat.mul_le_mul_right n hn
    omega

/-! ## The search -/

/-- A search ends at the first number that the table clears, if it is within the budget. -/
theorem search_eq {d budget n : Nat} (hd : d < budget) (hc : t.clears (n + 2 * d) = true)
    (hno : ∀ e, e < d → t.clears (n + 2 * e) = false) : t.search budget n = some (n + 2 * d) := by
  induction d generalizing budget n with
  | zero =>
    obtain ⟨budget, rfl⟩ : ∃ b, budget = b + 1 := ⟨budget - 1, by omega⟩
    exact if_pos hc
  | succ d ih =>
    obtain ⟨budget, rfl⟩ : ∃ b, budget = b + 1 := ⟨budget - 1, by omega⟩
    have h0 : t.clears n = false := hno 0 (Nat.succ_pos d)
    rw [search, h0, if_neg Bool.false_ne_true]
    have hnext : n + 2 * (d + 1) = n + 2 + 2 * d := by omega
    rw [hnext] at hc ⊢
    refine ih (by omega) hc fun e he => ?_
    have := hno (e + 1) (by omega)
    rwa [show n + 2 * (e + 1) = n + 2 + 2 * e by omega] at this

theorem candidate_of_back? {p : Nat} (h : t.found.back? = some p) (hp : p ≠ 2) :
    t.candidate = p + 2 := by
  unfold candidate
  rw [h]
  split
  · rename_i he; cases he
  · rename_i he; cases he; exact absurd rfl hp
  · rename_i he; cases he; rfl

theorem Exact.back? (h : t.Exact) {k : Nat} (hk : t.found.size = k + 1) :
    t.found.back? = some (Nat.nth Nat.Prime k) := by
  rw [Array.back?_eq_getElem?, hk, Nat.add_sub_cancel, ← h k (by omega)]
  exact Array.getElem?_eq_getElem (by omega)

/-- Candidates go up to the next prime in steps of two, and not too often. -/
theorem Exact.candidate_steps (h : t.Exact) :
    2 ≤ t.candidate ∧ ∃ d, d ≤ t.candidate ∧ Nat.nth Nat.Prime t.found.size = t.candidate + 2 * d ∧
      ∀ e, e < d → ¬ (t.candidate + 2 * e).Prime := by
  match hs : t.found.size with
  | 0 =>
    have hc : t.candidate = 2 := by
      unfold candidate
      rw [Array.back?_eq_none_iff.2 (Array.eq_empty_of_size_eq_zero hs)]
    rw [hc, Nat.nth_prime_zero_eq_two]
    exact ⟨by omega, 0, by omega, rfl, fun e he => absurd he (Nat.not_lt_zero e)⟩
  | 1 =>
    have hb := h.back? hs
    rw [Nat.nth_prime_zero_eq_two] at hb
    have hc : t.candidate = 3 := by
      unfold candidate
      rw [hb]
      rfl
    rw [hc, Nat.nth_prime_one_eq_three]
    exact ⟨by omega, 0, by omega, rfl, fun e he => absurd he (Nat.not_lt_zero e)⟩
  | k + 2 =>
    -- both primes are odd, so steps of two lead from one to the other
    have hp := nth_prime_odd k
    have hq : Nat.nth Nat.Prime (k + 2) % 2 = 1 := nth_prime_odd (k + 1)
    have hlt : Nat.nth Nat.Prime (k + 1) < Nat.nth Nat.Prime (k + 2) :=
      nth_prime_lt_iff.2 (by omega)
    have hle : Nat.nth Nat.Prime (k + 2) ≤ 2 * Nat.nth Nat.Prime (k + 1) :=
      nth_prime_succ_le (k + 1)
    rw [candidate_of_back? (h.back? hs) (by omega)]
    obtain ⟨d, hd⟩ : ∃ d, Nat.nth Nat.Prime (k + 2) = Nat.nth Nat.Prime (k + 1) + 2 + 2 * d :=
      ⟨(Nat.nth Nat.Prime (k + 2) - Nat.nth Nat.Prime (k + 1) - 2) / 2, by omega⟩
    refine ⟨by omega, d, by omega, hd, fun e he => not_prime_between (k := k + 1) (by omega) ?_⟩
    show _ < Nat.nth Nat.Prime (k + 2)
    omega

/-- **The search finds the prime that the table lacks.** -/
theorem Exact.search_eq (h : t.Exact) :
    t.search (t.candidate + 1) t.candidate = some (Nat.nth Nat.Prime t.found.size) := by
  obtain ⟨h2, d, hd, hq, hno⟩ := h.candidate_steps
  rw [hq]
  refine PrimeTable.search_eq (by omega) ((h.clears_iff (by omega) (by omega)).2 ?_) fun e he => ?_
  · rw [← hq]
    exact Nat.prime_nth_prime _
  · rw [← Bool.not_eq_true, h.clears_iff (by omega) (by omega)]
    exact hno e he

theorem Exact.nextPrime_eq (h : t.Exact) : t.nextPrime = Nat.nth Nat.Prime t.found.size := by
  rw [nextPrime, h.search_eq, Option.getD_some]

/-! ## Growing tables -/

theorem exact_empty : empty.Exact := fun i h => absurd h (Nat.not_lt_zero i)

theorem Exact.next (h : t.Exact) : t.next.2.Exact := by
  intro i hi
  have hi : i < (t.found.push t.nextPrime).size := hi
  show (t.found.push t.nextPrime)[i] = _
  rw [Array.getElem_push]
  rw [Array.size_push] at hi
  split
  · exact h i ‹_›
  · obtain rfl : i = t.found.size := by omega
    exact h.nextPrime_eq

theorem exact_first (k : Nat) : (first k).Exact := by
  induction k with
  | zero => exact exact_empty
  | succ k ih => exact ih.next

/-- **Taking one more prime from a table.** -/
theorem first_next (k : Nat) : (first k).next = (Nat.nth Nat.Prime k, first (k + 1)) := by
  refine Prod.ext ?_ (first_succ k).symm
  have h := (exact_first k).nextPrime_eq
  rw [size_first] at h
  exact h

end PrimeTable

end RegisterMachine.Goedel
