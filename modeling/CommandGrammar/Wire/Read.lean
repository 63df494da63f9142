import CommandGrammar.Error.Malformed
import CommandGrammar.Wire.VarInt

/-!
# Reading

A reading step takes bytes from the front of those that are left. It keeps what is left also when
it fails, so that reading can go on from there: a step that finds too few bytes takes none, a
composed step has taken what the steps before the failing one took. A variable-length integer is
composed of its bytes, a text of its length and its body, and neither gives back what it took.
-/

namespace CommandGrammar

/-- A step that reads a value, or fails, and leaves the bytes it did not take. -/
abbrev Reading := EStateM Malformed (List UInt8)

namespace Reading

/-- One byte. -/
def byte : Reading UInt8
  | [] => .error .endOfInput []
  | b :: rest => .ok b rest

/-- The next `n` bytes. -/
def bytes (n : Nat) : Reading (List UInt8)
  | left => if n ≤ left.length then .ok (left.take n) (left.drop n) else .error .endOfInput left

/-- A number in base 128, of which `more` bytes may have their high bit set. -/
def digits : (more : Nat) → Reading Nat
  | 0 => do
    let b ← byte
    if b.toNat < 128 then return b.toNat else throw .varIntTooLong
  | more + 1 => do
    let b ← byte
    if b.toNat < 128 then return b.toNat else return b.toNat % 128 + 128 * (← digits more)

/-- A variable-length integer: the low 32 bits of a number in base 128. -/
def varInt : Reading Int32 := do
  return Int32.ofNat (← digits VarInt.maxContinued)

/-- The number that bytes make up, most significant first. -/
def bigEndian (bs : List UInt8) : Nat :=
  bs.foldl (fun n b => n * 256 + b.toNat) 0

/-- Four bytes, most significant first. -/
def int32 : Reading Int32 := do
  return Int32.ofNat (bigEndian (← bytes 4))

/-- A length or an index. -/
def length : Reading Nat := do
  let v ← varInt
  if v < 0 then throw (.negativeLength v) else return v.toInt.toNat

/-- A text after its length in bytes. -/
def text : Reading String := do
  match Utf8.decode (← bytes (← length)) with
  | .ok s => return s
  | .error fault => throw (.notUtf8 fault)

/-- As many values as said, one after another. -/
@[simp] def replicate {α : Type} (n : Nat) (r : Reading α) : Reading (List α) :=
  match n with
  | 0 => return []
  | n + 1 => do
    let a ← r
    let as ← replicate n r
    return a :: as

end Reading

end CommandGrammar
