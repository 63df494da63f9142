import CommandGrammar.Error.Inconsistency
import CommandGrammar.Text.Utf8
import CommandGrammar.Wire.VarInt

/-!
# Writing

The bytes of each kind of field. A length, and with it a text, can be written only if it fits in an
`Int32`; every other value can.
-/

namespace CommandGrammar.Write

/-- The largest length that can be written. -/
def maxLength : Nat := 0x7FFFFFFF

/-- Four bytes, most significant first. -/
def int32 (v : Int32) : List UInt8 :=
  [0x1000000, 0x10000, 0x100, 1].map fun weight => UInt8.ofNat (VarInt.bits v / weight)

/-- A length or an index. -/
def length (n : Nat) : Except Inconsistency (List UInt8) :=
  if n ≤ maxLength then .ok (VarInt.encode (Int32.ofNat n)) else .error .lengthTooLarge

/-- The number of bytes of a text, then these bytes. -/
def text (s : String) : Except Inconsistency (List UInt8) := do
  let body := Utf8.encode s
  return (← length body.length) ++ body

end CommandGrammar.Write
