import CommandGrammar.Wire.Read
import CommandGrammar.Wire.Write

/-!
# Fields

A field is a value with the way it is written. Nothing in the bytes of a field says of what kind it
is, nor where it ends: a reader has to know the kinds of the fields in their order.
-/

namespace CommandGrammar

/-- A value with the way it is written. -/
inductive Item
  | byte (b : UInt8)
  | int32 (v : Int32)
  | varInt (v : Int32)
  | length (n : Nat)
  | text (s : String)
  | bytes (bs : List UInt8)
  deriving DecidableEq, Repr

/-- What a reader has to know of a field. -/
inductive Item.Kind
  | byte | int32 | varInt | length | text
  | bytes (count : Nat)
  deriving DecidableEq, Repr

namespace Item

/-- The kind of a field. -/
def kind : Item → Kind
  | byte _ => .byte
  | int32 _ => .int32
  | varInt _ => .varInt
  | length _ => .length
  | text _ => .text
  | bytes bs => .bytes bs.length

/-- The bytes of a field. -/
def encode : Item → Except Inconsistency (List UInt8)
  | byte b => .ok [b]
  | int32 v => .ok (Write.int32 v)
  | varInt v => .ok (VarInt.encode v)
  | length n => Write.length n
  | text s => Write.text s
  | bytes bs => .ok bs

/-- Reads a field of this kind. -/
def Kind.read : Kind → Reading Item
  | .byte => Item.byte <$> Reading.byte
  | .int32 => Item.int32 <$> Reading.int32
  | .varInt => Item.varInt <$> Reading.varInt
  | .length => Item.length <$> Reading.length
  | .text => Item.text <$> Reading.text
  | .bytes count => Item.bytes <$> Reading.bytes count

/-- The bytes with a field after them, and unchanged if the field cannot be written. -/
def append (written : List UInt8) (i : Item) : List UInt8 :=
  match i.encode with
  | .ok bs => written ++ bs
  | .error _ => written

end Item

end CommandGrammar
