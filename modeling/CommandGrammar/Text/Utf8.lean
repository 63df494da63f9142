/-!
# UTF-8

`Utf8.decode` reads bytes as text, or tells where and how they stop being well-formed. A character
takes one to four bytes; its first byte fixes how many, and for some first bytes narrows what the
second may be, which rules out overlong forms, surrogates and numbers past U+10FFFF. A byte that
may not stand where it does ends the ill-formed sequence before it.
-/

namespace CommandGrammar.Utf8

/-- The bytes of a text. -/
def encode (s : String) : List UInt8 :=
  s.toList.flatMap String.utf8EncodeChar

/-- Why bytes are not UTF-8. `index` is the length of the longest well-formed beginning. -/
inductive Fault
  /-- The next `length` bytes begin a character that the byte after them does not continue; one
  byte that begins nothing counts too. -/
  | illFormed (length index : Nat)
  /-- The bytes end inside a character. -/
  | cutShort (index : Nat)
  deriving DecidableEq, Repr

/-- The fault in words. -/
def Fault.text : Fault → String
  | .illFormed length index => s!"invalid utf-8 sequence of {length} bytes from index {index}"
  | .cutShort index => s!"incomplete utf-8 byte sequence from index {index}"

/-- What the next byte has to be. -/
inductive State
  /-- The first byte of a character. -/
  | start
  /-- A byte from `low` to `high` of a character of which `seen` bytes with the number `bits` have
  been read and `more` are to follow the next one. -/
  | inside (low high more seen bits : Nat)
  deriving DecidableEq, Repr

/-- The state after a first byte of `0x80` or more, if such a byte begins a character. -/
def State.afterLead (b : Nat) : Option State :=
  if 0xC2 ≤ b ∧ b ≤ 0xDF then some (.inside 0x80 0xBF 0 1 (b - 0xC0))
  else if b = 0xE0 then some (.inside 0xA0 0xBF 1 1 0)
  else if b = 0xED then some (.inside 0x80 0x9F 1 1 (b - 0xE0))
  else if 0xE1 ≤ b ∧ b ≤ 0xEF then some (.inside 0x80 0xBF 1 1 (b - 0xE0))
  else if b = 0xF0 then some (.inside 0x90 0xBF 2 1 0)
  else if b = 0xF4 then some (.inside 0x80 0x8F 2 1 (b - 0xF0))
  else if 0xF1 ≤ b ∧ b ≤ 0xF3 then some (.inside 0x80 0xBF 2 1 (b - 0xF0))
  else none

/-- Reads on from a state. The character being read begins at `index`. -/
def decodeFrom (index : Nat) : State → List UInt8 → Except Fault (List Char)
  | .start, [] => .ok []
  | .inside .., [] => .error (.cutShort index)
  | .start, b :: bs =>
    if b.toNat < 0x80 then
      (Char.ofNat b.toNat :: ·) <$> decodeFrom (index + 1) .start bs
    else
      match State.afterLead b.toNat with
      | some state => decodeFrom index state bs
      | none => .error (.illFormed 1 index)
  | .inside low high more seen bits, b :: bs =>
    if low ≤ b.toNat ∧ b.toNat ≤ high then
      match more with
      | 0 =>
        (Char.ofNat (bits * 64 + b.toNat % 64) :: ·) <$> decodeFrom (index + seen + 1) .start bs
      | more + 1 =>
        decodeFrom index (.inside 0x80 0xBF more (seen + 1) (bits * 64 + b.toNat % 64)) bs
    else
      .error (.illFormed seen index)

/-- The text of the bytes, or the first fault. -/
def decode (bytes : List UInt8) : Except Fault String :=
  String.ofList <$> decodeFrom 0 .start bytes

end CommandGrammar.Utf8
