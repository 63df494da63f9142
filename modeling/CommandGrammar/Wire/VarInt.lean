/-!
# Variable-length integers

A number is written in base 128, least significant digit first, one digit a byte, and every byte
but the last has its high bit set. An `Int32` is written as the number of its 32 bits, which has at
most five such digits; a negative one always has five.
-/

namespace CommandGrammar.VarInt

/-- The most bytes that may have their high bit set. -/
def maxContinued : Nat := 4

/-- The bytes of a number of at most `more + 1` digits. -/
@[simp] def digits : (more n : Nat) → List UInt8
  | 0, n => [UInt8.ofNat n]
  | more + 1, n =>
    if n < 128 then [UInt8.ofNat n] else UInt8.ofNat (n % 128 + 128) :: digits more (n / 128)

/-- How many bytes a number of at most `more + 1` digits has. -/
@[simp] def digitCount : (more n : Nat) → Nat
  | 0, _ => 1
  | more + 1, n => if n < 128 then 1 else digitCount more (n / 128) + 1

/-- The 32 bits of an integer as a number. -/
def bits (v : Int32) : Nat :=
  v.toUInt32.toNat

/-- The bytes of an integer. -/
def encode (v : Int32) : List UInt8 :=
  digits maxContinued (bits v)

/-- How many bytes an integer has. -/
def size (v : Int32) : Nat :=
  digitCount maxContinued (bits v)

end CommandGrammar.VarInt
