import RegisterMachine.Bytes.Varint

/-!
# Number sequences as bytes

A list is written as its length and then its elements. A number of any size is the list of its
digits in base `2 ^ 32`, the least significant first; zero has no digits. A program's numbers are a
list of those.

* `digits`, `ofDigits` — a number and its digits.
* `writeList`, `readList` — lists of things that can be written and read.
* `write`, `read` — sequences of numbers. Bytes after a sequence do not matter, nor do digits that
  are zero at the most significant end.
-/

set_option autoImplicit false

namespace RegisterMachine.Bytes

variable {α : Type}

/-- The base of digits, `2 ^ 32`. -/
def base : Nat := 4294967296

/-- The digits of `n`, least significant first, without a zero at the end. -/
def digits (n : Nat) : List Nat :=
  if n = 0 then [] else n % base :: digits (n / base)
termination_by n
decreasing_by
  rename_i h
  exact Nat.div_lt_self (Nat.pos_of_ne_zero h) (by decide)

def ofDigits (ds : List Nat) : Nat := ds.foldr (fun d n => d + base * n) 0

/-- The length, then the elements. -/
def writeList (write : α → List UInt8) (xs : List α) : List UInt8 :=
  Varint.write xs.length ++ xs.flatMap write

def readMany (read : List UInt8 → Except ByteError (α × List UInt8)) :
    (count : Nat) → (bytes : List UInt8) → Except ByteError (List α × List UInt8)
  | 0, bytes => .ok ([], bytes)
  | count + 1, bytes => do
      let (x, bytes) ← read bytes
      let (xs, bytes) ← readMany read count bytes
      return (x :: xs, bytes)

/-- Reads a length of at most 64 bits and as many elements. -/
def readList (read : List UInt8 → Except ByteError (α × List UInt8)) (bytes : List UInt8) :
    Except ByteError (List α × List UInt8) := do
  let (count, bytes) ← Varint.read 64 bytes
  readMany read count bytes

def writeNumber (n : Nat) : List UInt8 := writeList Varint.write (digits n)

/-- Reads the digits of a number, of 32 bits each. -/
def readNumber (bytes : List UInt8) : Except ByteError (Nat × List UInt8) := do
  let (ds, bytes) ← readList (Varint.read 32) bytes
  return (ofDigits ds, bytes)

def write (numbers : List Nat) : List UInt8 := writeList writeNumber numbers

/-- The sequence of numbers at the start of a byte string. -/
def read (bytes : List UInt8) : Except ByteError (List Nat) := do
  let (numbers, _) ← readList readNumber bytes
  return numbers

end RegisterMachine.Bytes
