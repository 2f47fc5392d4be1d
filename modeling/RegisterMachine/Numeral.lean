/-!
# Numbers in text

* `Numeral.ofDigits` — the value of a run of decimal digits.
* `Numeral.ofDigits?` — the same for values up to a bound.
* `Numeral.padded` — a number written with leading zeros up to a width.
* `Numeral.listed` — numbers in square brackets, as in `[1, 3]`.
* `Numeral.maxWord` — the largest number that an instruction can carry in text or in a field vector.
-/

set_option autoImplicit false

namespace RegisterMachine.Numeral

/-- The largest number that instructions are read with, `2 ^ 63 - 1`. -/
def maxWord : Nat := 9223372036854775807

/-- The value of decimal digits, most significant first. Leading zeros do not count. -/
def ofDigits (digits : List Char) : Nat := Nat.ofDigitChars 10 digits 0

def appendDigit (n : Nat) (c : Char) : Nat := 10 * n + (c.toNat - '0'.toNat)

def appendDigit? (bound n : Nat) (c : Char) : Option Nat :=
  if appendDigit n c ≤ bound then some (appendDigit n c) else none

/-- The value of decimal digits if it is at most `bound`. Reading ends where the value gets
larger. -/
def ofDigits? (bound : Nat) (digits : List Char) : Option Nat :=
  digits.foldlM (appendDigit? bound) 0

/-- `n` in decimal, with zeros in front up to `width` characters. -/
def padded (width n : Nat) : String :=
  let digits := Nat.repr n
  String.ofList (List.replicate (width - digits.length) '0') ++ digits

/-- The numbers between brackets, parted by a comma and a blank. -/
def listed (ns : List Nat) : String := "[" ++ ", ".intercalate (ns.map Nat.repr) ++ "]"

@[simp] theorem ofDigits_toDigits (n : Nat) : ofDigits (Nat.toDigits 10 n) = n :=
  Nat.ofDigitChars_toDigits (by decide) (by decide)

/-- More digits never make a number smaller. -/
theorem le_foldl_appendDigit (digits : List Char) (n : Nat) : n ≤ digits.foldl appendDigit n := by
  induction digits generalizing n with
  | nil => exact Nat.le_refl n
  | cons c cs ih =>
    have step := ih (appendDigit n c)
    rw [List.foldl_cons]
    unfold appendDigit at step ⊢
    omega

/-- Reading up to a bound gives the value of the digits exactly when the bound allows it. -/
theorem ofDigits?_eq (bound : Nat) (digits : List Char) :
    ofDigits? bound digits = if ofDigits digits ≤ bound then some (ofDigits digits) else none := by
  have general (n : Nat) (hn : n ≤ bound) :
      digits.foldlM (appendDigit? bound) n =
        if digits.foldl appendDigit n ≤ bound then some (digits.foldl appendDigit n) else none := by
    induction digits generalizing n with
    | nil => simp [hn]
    | cons c cs ih =>
      rw [List.foldlM_cons, List.foldl_cons]
      by_cases h : appendDigit n c ≤ bound
      · rw [appendDigit?, if_pos h]
        exact ih _ h
      · have larger := le_foldl_appendDigit cs (appendDigit n c)
        rw [appendDigit?, if_neg h, if_neg (by omega)]
        rfl
  exact general 0 (Nat.zero_le bound)

end RegisterMachine.Numeral
