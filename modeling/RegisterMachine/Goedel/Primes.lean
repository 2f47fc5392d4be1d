/-!
# The primes in increasing order

A table holds the first primes. The next one is found by trial division: candidates go up in steps
of two and are divided by the primes of the table up to their square root.

* `PrimeTable` — the primes found so far.
* `PrimeTable.clears` — no prime of the table up to the square root divides a number.
* `PrimeTable.search` — the first of every second number that the table clears, within a budget of
  tries.
* `PrimeTable.next` — the prime after those of the table, and the table with it.
* `PrimeTable.first` — the table of the first `k` primes; `PrimeTable.slice` — some of them.

Between `p` and `2 * p` lies another prime for every prime `p`, so one try more than the first
candidate counts is enough.
-/

set_option autoImplicit false

namespace RegisterMachine.Goedel

/-- The primes found so far, in increasing order. -/
structure PrimeTable where
  found : Array Nat
  deriving DecidableEq, Repr

namespace PrimeTable

def empty : PrimeTable := ⟨#[]⟩

/-- Tries the primes of the table from place `i` on. -/
def clearsFrom (t : PrimeTable) (n i : Nat) : Bool :=
  if h : i < t.found.size then
    let p := t.found[i]
    if n < p * p then true
    else if n % p = 0 then false
    else t.clearsFrom n (i + 1)
  else true
termination_by t.found.size - i

/-- No prime of the table up to the square root of `n` divides `n`. -/
def clears (t : PrimeTable) (n : Nat) : Bool := t.clearsFrom n 0

/-- The first number that may be the next prime: even numbers after 2 are passed over. -/
def candidate (t : PrimeTable) : Nat :=
  match t.found.back? with
  | none => 2
  | some 2 => 3
  | some p => p + 2

/-- The first of `n`, `n + 2`, … that the table clears. The result is `none` if `budget` tries are
not enough. -/
def search (t : PrimeTable) : (budget : Nat) → (n : Nat) → Option Nat
  | 0, _ => none
  | budget + 1, n => if t.clears n then some n else t.search budget (n + 2)

/-- What the search from the first candidate finds. A table of the first primes never gets the
zero. -/
def nextPrime (t : PrimeTable) : Nat := (t.search (t.candidate + 1) t.candidate).getD 0

def next (t : PrimeTable) : Nat × PrimeTable :=
  let p := t.nextPrime
  (p, ⟨t.found.push p⟩)

/-- The table of the first `k` primes. -/
def first (k : Nat) : PrimeTable := Nat.repeat (fun t => t.next.2) k empty

/-- The `count` primes that follow the first `skipped` ones. Where none are asked for, none are
looked for. -/
def slice (skipped count : Nat) : List Nat :=
  if count = 0 then [] else (first (skipped + count)).found.toList.drop skipped

@[simp] theorem first_zero : first 0 = empty := rfl

theorem first_succ (k : Nat) : first (k + 1) = (first k).next.2 := rfl

@[simp] theorem size_first (k : Nat) : (first k).found.size = k := by
  induction k with
  | zero => rfl
  | succ k ih => simp [first_succ, next, ih]

@[simp] theorem length_slice (skipped count : Nat) : (slice skipped count).length = count := by
  unfold slice
  split
  · simp_all
  · simp

end PrimeTable

end RegisterMachine.Goedel
