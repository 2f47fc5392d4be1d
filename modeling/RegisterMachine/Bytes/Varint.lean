/-!
# Natural numbers as bytes, seven bits at a time

Low groups come first, and every byte but the last has its high bit set. A reader knows how many
bits a number may have; a byte with bits beyond those, or one that goes on after them, is refused.
Zero groups at the end are read although they are never written.

* `Varint.write` — the shortest form of a number.
* `Varint.read` — the number of so many bits at the start of a byte string, and the bytes after it.
* `ByteError` — why bytes cannot be read.
-/

set_option autoImplicit false

namespace RegisterMachine.Bytes

/-- Why bytes cannot be read. -/
inductive ByteError where
  /-- A number has more bits than it may have. -/
  | unterminated
  | endOfBuffer
  deriving DecidableEq, Repr

def ByteError.message : ByteError → String
  | unterminated => "Found a varint that didn't terminate. Is the usize too big for this platform?"
  | endOfBuffer => "Hit the end of buffer, expected more data"

namespace Varint

/-- The shortest form of `n`. -/
def write (n : Nat) : List UInt8 :=
  if n < 128 then [UInt8.ofNat n] else UInt8.ofNat (128 + n % 128) :: write (n / 128)
termination_by n
decreasing_by omega

/-- Reads a number of at most `bits` bits. -/
def read (bits : Nat) (bytes : List UInt8) : Except ByteError (Nat × List UInt8) :=
  match bytes with
  | [] => .error .endOfBuffer
  | b :: rest =>
      if bits ≤ 7 then
        if b.toNat < 2 ^ bits then .ok (b.toNat, rest) else .error .unterminated
      else if b.toNat < 128 then .ok (b.toNat, rest)
      else do
        let (high, rest) ← read (bits - 7) rest
        return (b.toNat - 128 + 128 * high, rest)

end Varint

end RegisterMachine.Bytes
