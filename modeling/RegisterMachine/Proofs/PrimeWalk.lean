import RegisterMachine.Proofs.PrimeTables

/-!
# Taking primes one after another

The search for the next prime is a loop without a bound, and it computes with numbers of 64 bits.
Here the loop is taken as it is, and every number that is formed is checked.

* `PrimeTable.calls k` — what the first `k` calls of `next` give, and the table after them.
* `PrimeTable.Tries t n ns` — the loop that starts at `n` tries the numbers `ns`, in this order, and
  ends at the last of them; `Tries.unique` — there is one way to do that; `Exact.tries` — from the
  candidate of an exact table it ends at the next prime, after steps of two.
* `word?` — a number, if 64 bits are enough for it; `wordClears?`, `wordCandidate?`, `wordSearch?`,
  `wordNext?` and `wordCalls?` — the same computations, given up where a product or a sum needs
  more.
* `wordClearsFrom?_eq` — trial division by primes below `2 ^ 32` stays within words;
  `Tries.wordSearch?_eq` — and so does a search that tries no number above `2 ^ 32`.

Principal result: `prime_iterator_is_exact` — the calls give the first primes and keep them, every
search ends, and as long as no candidate is above `2 ^ 32` nothing overflows.
-/

set_option autoImplicit false

namespace RegisterMachine.Goedel

/-- The first `k` primes in increasing order. -/
noncomputable def firstPrimes (k : Nat) : List Nat := (List.range k).map (Nat.nth Nat.Prime)

/-- The number, if 64 bits are enough for it. -/
def word? (n : Nat) : Option Nat := if n < 2 ^ 64 then some n else none

theorem word?_eq {n : Nat} (h : n < 2 ^ 64) : word? n = some n := if_pos h

namespace PrimeTable

variable {t : PrimeTable} {n : Nat} {ns ms : List Nat}

/-! ## Calls -/

/-- What the first `k` calls of `next` give, and the table that they leave. -/
def calls : Nat → List Nat × PrimeTable
  | 0 => ([], empty)
  | k + 1 => ((calls k).1 ++ [(calls k).2.next.1], (calls k).2.next.2)

theorem calls_eq (k : Nat) : calls k = (firstPrimes k, first k) := by
  induction k with
  | zero => rfl
  | succ k ih =>
    rw [calls, ih, first_next, firstPrimes, firstPrimes, List.range_succ, List.map_append]
    rfl

theorem found_first (k : Nat) : (first k).found = (firstPrimes k).toArray := by
  apply Array.ext
  · simp [firstPrimes]
  · intro i hi _
    rw [exact_first k i hi]
    simp [firstPrimes]

/-! ## The search as a loop -/

/-- The loop that starts at `n` tries `ns`, in this order, and ends at the last of them. -/
inductive Tries (t : PrimeTable) : Nat → List Nat → Prop
  | last {n : Nat} (h : t.clears n = true) : Tries t n [n]
  | more {n : Nat} {ns : List Nat} (h : t.clears n = false) (rest : Tries t (n + 2) ns) :
      Tries t n (n :: ns)

theorem Tries.unique (h : Tries t n ns) (h' : Tries t n ms) : ns = ms := by
  induction h generalizing ms with
  | last hc =>
    cases h' with
    | last _ => rfl
    | more hc' _ => rw [hc] at hc'; cases hc'
  | more hc _ ih =>
    cases h' with
    | last hc' => rw [hc] at hc'; cases hc'
    | more _ rest' => rw [ih rest']

/-- A loop that comes to a number which the table clears ends at the first of them. -/
theorem tries_of_clears {d : Nat} (hc : t.clears (n + 2 * d) = true)
    (hno : ∀ e, e < d → t.clears (n + 2 * e) = false) :
    Tries t n ((List.range (d + 1)).map fun e => n + 2 * e) := by
  induction d generalizing n with
  | zero => exact .last hc
  | succ d ih =>
    have hshift (e : Nat) : n + 2 * (e + 1) = n + 2 + 2 * e := by omega
    rw [List.range_succ_eq_map, List.map_cons, List.map_map]
    refine .more (hno 0 (Nat.succ_pos d)) ?_
    have hrest : Tries t (n + 2) ((List.range (d + 1)).map fun e => n + 2 + 2 * e) := by
      refine ih (hshift d ▸ hc) fun e he => ?_
      rw [← hshift]
      exact hno (e + 1) (by omega)
    simpa only [Function.comp_def, Nat.succ_eq_add_one, hshift] using hrest

/-- **The search ends at the next prime.**  It comes there in steps of two, and not too many of
them. -/
theorem Exact.tries (h : t.Exact) : ∃ d, d ≤ t.candidate ∧
    Nat.nth Nat.Prime t.found.size = t.candidate + 2 * d ∧
    Tries t t.candidate ((List.range (d + 1)).map fun e => t.candidate + 2 * e) := by
  obtain ⟨h2, d, hd, hq, hno⟩ := h.candidate_steps
  refine ⟨d, hd, hq, tries_of_clears ?_ fun e he => ?_⟩
  · rw [h.clears_iff (by omega) (by omega), ← hq]
    exact Nat.prime_nth_prime _
  · rw [← Bool.not_eq_true, h.clears_iff (by omega) (by omega)]
    exact hno e he

/-- Wherever the search ends, that is the next prime, and none of the numbers before it is
larger. -/
theorem Exact.of_tries (h : t.Exact) (hns : Tries t t.candidate ns) :
    ns.getLast? = some (Nat.nth Nat.Prime t.found.size) ∧ ns.length ≤ t.candidate + 1 ∧
      ∀ n ∈ ns, t.candidate ≤ n ∧ n ≤ Nat.nth Nat.Prime t.found.size := by
  obtain ⟨d, hd, hq, htries⟩ := h.tries
  rw [hns.unique htries, hq]
  refine ⟨?_, ?_, fun n hn => ?_⟩
  · simp [List.getLast?_range]
  · simpa using hd
  · obtain ⟨e, he, rfl⟩ := List.mem_map.1 hn
    rw [List.mem_range] at he
    omega

theorem tries_first (k : Nat) :
    ∃ ns, Tries (first k) (first k).candidate ns ∧ ns.getLast? = some (Nat.nth Nat.Prime k) := by
  obtain ⟨d, _, _, htries⟩ := (exact_first k).tries
  have hlast := ((exact_first k).of_tries htries).1
  rw [size_first] at hlast
  exact ⟨_, htries, hlast⟩

/-- The first number that is tried is one or two behind the last prime. -/
theorem Exact.candidate_bounds (h : t.Exact) {k : Nat} (hk : t.found.size = k + 1) :
    Nat.nth Nat.Prime k < t.candidate ∧ t.candidate ≤ Nat.nth Nat.Prime k + 2 := by
  have hback := h.back? hk
  by_cases h2 : Nat.nth Nat.Prime k = 2
  · rw [h2] at hback ⊢
    have hc : t.candidate = 3 := by
      unfold candidate
      rw [hback]
      rfl
    omega
  · rw [candidate_of_back? hback h2]
    omega

theorem Exact.lt_candidate (h : t.Exact) {i : Nat} (hi : i < t.found.size) :
    t.found[i] < t.candidate := by
  obtain ⟨k, hk⟩ : ∃ k, t.found.size = k + 1 := ⟨t.found.size - 1, by omega⟩
  rw [h i hi]
  exact Nat.lt_of_le_of_lt (nth_prime_le (by omega)) (h.candidate_bounds hk).1

/-! ## Words -/

/-- Trial division from place `i` on, given up where a square does not fit into a word. -/
def wordClearsFrom? (t : PrimeTable) (n i : Nat) : Option Bool :=
  if h : i < t.found.size then do
    let p := t.found[i]
    let square ← word? (p * p)
    if n < square then some true
    else if n % p = 0 then some false
    else t.wordClearsFrom? n (i + 1)
  else some true
termination_by t.found.size - i

/-- `clears` in words. -/
def wordClears? (t : PrimeTable) (n : Nat) : Option Bool := t.wordClearsFrom? n 0

/-- `candidate` in words. -/
def wordCandidate? (t : PrimeTable) : Option Nat :=
  match t.found.back? with
  | none => some 2
  | some 2 => some 3
  | some p => word? (p + 2)

/-- The search in words.  It is given up as well where `budget` tries are not enough. -/
def wordSearch? (t : PrimeTable) : (budget : Nat) → (n : Nat) → Option Nat
  | 0, _ => none
  | budget + 1, n => do
      if ← t.wordClears? n then return n
      t.wordSearch? budget (← word? (n + 2))

/-- `next` in words. -/
def wordNext? (t : PrimeTable) : Option (Nat × PrimeTable) := do
  let n ← t.wordCandidate?
  let p ← t.wordSearch? (n + 1) n
  return (p, ⟨t.found.push p⟩)

/-- `calls` in words. -/
def wordCalls? : Nat → Option (List Nat × PrimeTable)
  | 0 => some ([], empty)
  | k + 1 => do
      let (ps, t) ← wordCalls? k
      let (p, t) ← t.wordNext?
      return (ps ++ [p], t)

/-- **Squares of numbers below `2 ^ 32` fit into words.** -/
theorem wordClearsFrom?_eq (h : ∀ i (hi : i < t.found.size), t.found[i] < 2 ^ 32) (n i : Nat) :
    t.wordClearsFrom? n i = some (t.clearsFrom n i) := by
  have step {i : Nat} (hi : i < t.found.size) : t.wordClearsFrom? n i =
      if n < t.found[i] * t.found[i] then some true
      else if n % t.found[i] = 0 then some false else t.wordClearsFrom? n (i + 1) := by
    have hsquare : t.found[i] * t.found[i] < 2 ^ 64 :=
      calc t.found[i] * t.found[i] < 2 ^ 32 * 2 ^ 32 := Nat.mul_lt_mul'' (h i hi) (h i hi)
        _ = 2 ^ 64 := by norm_num
    rw [wordClearsFrom?, dif_pos hi]
    simp only [word?_eq hsquare]
    rfl
  fun_induction clearsFrom t n i with
  | case1 i hi p hlt => rw [step hi, if_pos hlt]
  | case2 i hi p hlt hdvd => rw [step hi, if_neg hlt, if_pos hdvd]
  | case3 i hi p hlt hdvd ih => rw [step hi, if_neg hlt, if_neg hdvd, ih]
  | case4 i hi => rw [wordClearsFrom?, dif_neg hi]

theorem Exact.wordClears?_eq (h : t.Exact) (hle : t.candidate ≤ 2 ^ 32) (n : Nat) :
    t.wordClears? n = some (t.clears n) :=
  wordClearsFrom?_eq (fun _ hi => Nat.lt_of_lt_of_le (h.lt_candidate hi) hle) n 0

theorem wordCandidate?_eq (h : t.candidate < 2 ^ 64) : t.wordCandidate? = some t.candidate := by
  unfold wordCandidate?
  split
  · rename_i hback
    rw [candidate, hback]
  · rename_i hback
    rw [candidate, hback]
    rfl
  · rename_i p hp hback
    rw [candidate_of_back? hback hp] at h ⊢
    exact word?_eq h

/-- **A search that tries no number above `2 ^ 32` stays within words.** -/
theorem Tries.wordSearch?_eq (hns : Tries t n ns)
    (hclears : ∀ m, t.wordClears? m = some (t.clears m)) (hle : ∀ m ∈ ns, m ≤ 2 ^ 32)
    {budget : Nat} (hb : ns.length ≤ budget) :
    t.wordSearch? budget n = ns.getLast? := by
  induction hns generalizing budget with
  | @last n hc =>
    obtain ⟨budget, rfl⟩ : ∃ b, budget = b + 1 := ⟨budget - 1, by simp at hb; omega⟩
    simp [wordSearch?, hclears, hc]
  | @more n ns hc rest ih =>
    obtain ⟨budget, rfl⟩ : ∃ b, budget = b + 1 := ⟨budget - 1, by simp at hb; omega⟩
    have hn : n ≤ 2 ^ 32 := hle n List.mem_cons_self
    have hword : word? (n + 2) = some (n + 2) := word?_eq (by omega)
    have hrest := ih (fun m hm => hle m (List.mem_cons_of_mem n hm)) (Nat.le_of_succ_le_succ hb)
    have hne : ns ≠ [] := by cases rest <;> simp
    simp [wordSearch?, hclears, hc, hword, hrest, List.getLast?_cons_of_ne_nil hne]

/-- **One call stays within words** if the prime that it gives is at most `2 ^ 32`. -/
theorem Exact.wordNext?_eq (h : t.Exact) (hle : Nat.nth Nat.Prime t.found.size ≤ 2 ^ 32) :
    t.wordNext? = some t.next := by
  obtain ⟨d, hd, hq, htries⟩ := h.tries
  obtain ⟨hlast, hlength, hbetween⟩ := h.of_tries htries
  have hcandidate := wordCandidate?_eq (t := t) (by omega)
  have hsearch := htries.wordSearch?_eq (h.wordClears?_eq (by omega))
    (fun m hm => Nat.le_trans (hbetween m hm).2 hle) hlength
  rw [hlast, ← h.nextPrime_eq] at hsearch
  simp [wordNext?, hcandidate, hsearch, PrimeTable.next]

theorem wordCalls?_eq {k : Nat} (hle : ∀ j < k, Nat.nth Nat.Prime j ≤ 2 ^ 32) :
    wordCalls? k = some (calls k) := by
  induction k with
  | zero => rfl
  | succ k ih =>
    have hcalls := ih fun j hj => hle j (by omega)
    have hnext : (first k).wordNext? = some (first k).next := by
      apply (exact_first k).wordNext?_eq
      rw [size_first]
      exact hle k (Nat.lt_succ_self k)
    rw [wordCalls?, hcalls, calls, calls_eq]
    simp [hnext]

/-- **The iterator of primes is exact.**  The first `k` calls give the first `k` primes, none left
out and none besides, and these are in the table afterwards.  The search of each of these calls
ends, at the prime that the call gives.  As long as none of the numbers that are tried is above
`2 ^ 32`, the same calls succeed with 64-bit numbers: no product and no sum overflows.  That holds
for every single number up to `2 ^ 32` that is tried, also in the call after these, whatever is
tried later. -/
theorem prime_iterator_is_exact (k : Nat) :
    calls k = (firstPrimes k, ⟨(firstPrimes k).toArray⟩) ∧
    (∀ j < k, ∃ ns, Tries (calls j).2 (calls j).2.candidate ns ∧
      ns.getLast? = some (Nat.nth Nat.Prime j)) ∧
    ((∀ j < k, ∀ ns, Tries (calls j).2 (calls j).2.candidate ns → ∀ n ∈ ns, n ≤ 2 ^ 32) →
      wordCalls? k = some (calls k)) ∧
    ((∀ p ∈ firstPrimes k, p ≤ 2 ^ 32) →
      (calls k).2.wordCandidate? = some (calls k).2.candidate ∧
      ∀ ns, Tries (calls k).2 (calls k).2.candidate ns → ∀ n ∈ ns, n ≤ 2 ^ 32 →
        (calls k).2.wordClears? n = some ((calls k).2.clears n) ∧
          word? (n + 2) = some (n + 2)) := by
  have hstate (j : Nat) : (calls j).2 = first j := by rw [calls_eq]
  simp only [hstate]
  refine ⟨?_, fun j _ => tries_first j, fun hle => ?_, fun hle => ⟨?_, fun ns hns n hn hn' => ?_⟩⟩
  · rw [calls_eq, ← found_first]
  · refine wordCalls?_eq fun j hj => ?_
    obtain ⟨ns, htries, hlast⟩ := tries_first j
    exact hle j hj _ htries _ (List.mem_of_getLast? hlast)
  · apply wordCandidate?_eq
    cases k with
    | zero => decide
    | succ k =>
      have hbound := ((exact_first (k + 1)).candidate_bounds (size_first (k + 1))).2
      have hprime : Nat.nth Nat.Prime k ≤ 2 ^ 32 :=
        hle _ (List.mem_map_of_mem (List.mem_range.2 (Nat.lt_succ_self k)))
      omega
  · have hlow := (((exact_first k).of_tries hns).2.2 n hn).1
    exact ⟨(exact_first k).wordClears?_eq (Nat.le_trans hlow hn') n, word?_eq (by omega)⟩

/-- Five calls, none of which tries a number above eleven. -/
theorem first_five_primes_in_words :
    wordCalls? 5 = some ([2, 3, 5, 7, 11], ⟨#[2, 3, 5, 7, 11]⟩) := by
  obtain ⟨hcalls, _, hword, _⟩ := prime_iterator_is_exact 5
  have hprimes : firstPrimes 5 = [2, 3, 5, 7, 11] := by
    simp [firstPrimes, List.range_succ]
  rw [hword, hcalls, hprimes]
  intro j hj ns hns n hn
  rw [calls_eq] at hns
  have hle := (((exact_first j).of_tries hns).2.2 n hn).2
  rw [size_first] at hle
  have hlast : Nat.nth Nat.Prime j ≤ Nat.nth Nat.Prime 4 := nth_prime_le (by omega)
  rw [Nat.nth_prime_four_eq_eleven] at hlast
  omega

end PrimeTable

end RegisterMachine.Goedel
