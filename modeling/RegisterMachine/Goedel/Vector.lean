import RegisterMachine.Goedel.DecodeError
import RegisterMachine.Goedel.Primes

/-!
# Numbers for vectors of numbers

The vector `n₁, …, nₖ` is encoded by `2 ^ (n₁ + 1) * 3 ^ (n₂ + 1) * ⋯` with the first `k` primes. As
every exponent is at least 1, the length of the vector can be read off the number, and decoding is
exact.

* `encode` — the number of a vector.
* `decode` — the vector of a number, or why it has none.
* `divideOut` — how often a prime divides a number, and what is left without it.
* `bitLength` — the number of binary digits.
-/

set_option autoImplicit false

namespace RegisterMachine.Goedel

/-- The product over a vector, beginning with the prime after those of `t`. -/
def encodeFrom (t : PrimeTable) : List Nat → Nat
  | [] => 1
  | n :: ns =>
      let (p, t) := t.next
      p ^ (n + 1) * encodeFrom t ns

/-- The number of a vector; the empty vector has number 1. -/
def encode (fields : List Nat) : Nat := encodeFrom .empty fields

/-- Divides `n` by `p` as often as that goes. The result is how often, on top of `count`, and what
is left. -/
def divideOut (p n count : Nat) : Nat × Nat :=
  if 2 ≤ p ∧ n ≠ 0 ∧ n % p = 0 then divideOut p (n / p) (count + 1) else (count, n)
termination_by n
decreasing_by
  rename_i h
  exact Nat.div_lt_self (Nat.pos_of_ne_zero h.2.1) h.1

/-- Dividing leaves a smaller number, or was not possible even once. -/
theorem divideOut_lt (p n count : Nat) :
    divideOut p n count = (count, n) ∨ (divideOut p n count).2 < n := by
  fun_induction divideOut p n count with
  | case1 n count h ih =>
    have hlt : n / p < n := Nat.div_lt_self (Nat.pos_of_ne_zero h.2.1) h.1
    right
    rcases ih with ih | ih
    · rw [ih]
      exact hlt
    · exact Nat.lt_trans ih hlt
  | case2 n count h => exact .inl rfl

/-- What is left after at least one division is smaller. -/
theorem lt_of_divideOut {p n count left : Nat} (h : divideOut p n 0 = (count + 1, left)) :
    left < n := by
  rcases divideOut_lt p n 0 with h0 | hlt
  · rw [h] at h0
    cases h0
  · simpa [h] using hlt

/-- The exponents, less one, of what is left of a number, beginning with the prime at `position`,
the one after those of `t`. -/
def decodeFrom (t : PrimeTable) (position rest : Nat) : Except DecodeError (List Nat) :=
  if rest = 1 then .ok []
  else
    let (p, t) := t.next
    match _h : divideOut p rest 0 with
    | (0, _) => .error (.missingPrimeFactor position p)
    | (exponent + 1, left) => do
        let others ← decodeFrom t (position + 1) left
        return exponent :: others
termination_by rest
decreasing_by exact lt_of_divideOut _h

def decode (n : Nat) : Except DecodeError (List Nat) :=
  if n = 0 then .error .zero else decodeFrom .empty 1 n

/-- The number of binary digits of a positive number. -/
def bitLength (n : Nat) : Nat := n.log2 + 1

end RegisterMachine.Goedel
