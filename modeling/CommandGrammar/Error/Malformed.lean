import CommandGrammar.Text.Decimal
import CommandGrammar.Text.Utf8

/-!
# Malformed bytes

Why bytes cannot be read as a payload or as a part of one.
-/

namespace CommandGrammar

/-- What is wrong with the bytes. -/
inductive Malformed
  /-- The bytes end too early. -/
  | endOfInput
  /-- A variable-length integer does not end with its fifth byte. -/
  | varIntTooLong
  /-- A length or an index is negative. -/
  | negativeLength (value : Int32)
  /-- A text is not UTF-8. -/
  | notUtf8 (fault : Utf8.Fault)
  /-- The type bits of a record's flags name no type of node. -/
  | unknownNodeType (flags : UInt8)
  /-- No parser has this identifier, so the length of its properties is unknown. -/
  | unknownParser (identifier : String)
  /-- Bytes follow the payload. -/
  | trailingBytes (count : Nat)
  /-- A child, a redirect or the root is none of the records. -/
  | indexOutOfRange
  /-- A reason that a caller puts in its own words. -/
  | other (text : String)
  deriving DecidableEq, Repr

namespace Malformed

/-- A byte as two hexadecimal digits. -/
def hexByte (b : UInt8) : String :=
  String.ofList [Nat.digitChar (b.toNat / 16), Nat.digitChar (b.toNat % 16)]

/-- What is wrong, in words. -/
def text : Malformed → String
  | endOfInput => "unexpected end of input"
  | varIntTooLong => "VarInt is too big"
  | negativeLength value => "negative length " ++ Decimal.write value.toInt
  | notUtf8 fault => fault.text
  | unknownNodeType flags => "unknown node type in flags 0x" ++ hexByte flags
  | unknownParser identifier => s!"unknown parser '{identifier}'"
  | trailingBytes count => s!"{count} trailing bytes after graph"
  | indexOutOfRange => "node index out of range"
  | other text => text

end Malformed

end CommandGrammar
