import CommandGrammar.Wire.Write

/-!
# Parser hints

A hint tells the client how it should read an argument, so that it can colour and complete a line
before it is sent. On the wire it is the identifier of one of the client's parsers, then bytes that
only this parser understands.
-/

namespace CommandGrammar

/-- How much of the line the client's parser of texts takes. -/
inductive TextMode
  /-- One word. -/
  | word
  /-- One word, or a phrase in quotes. -/
  | phrase
  /-- The rest of the line. -/
  | greedy
  deriving DecidableEq, Repr

/-- The mode's number. -/
def TextMode.tag : TextMode → Int32
  | word => 0
  | phrase => 1
  | greedy => 2

/-- What a client is told about an argument. -/
inductive Hint
  | text (mode : TextMode)
  | boolean
  | integer (min max : Option Int32)
  deriving DecidableEq, Repr

namespace Hint

/-- The client's parser of texts. Its property is the number of the mode. -/
def textParser : String := "brigadier:string"

/-- The client's parser of booleans. It has no properties. -/
def booleanParser : String := "brigadier:bool"

/-- The client's parser of integers. Its properties are flags that say which bounds there are, then
those bounds. -/
def integerParser : String := "brigadier:integer"

/-- The flag of a lower bound. -/
def minFlag : Nat := 1

/-- The flag of an upper bound. -/
def maxFlag : Nat := 2

/-- The parser's identifier. -/
def identifier : Hint → String
  | text _ => textParser
  | boolean => booleanParser
  | integer _ _ => integerParser

/-- The parser's properties. -/
def properties : Hint → List UInt8
  | text mode => VarInt.encode mode.tag
  | boolean => []
  | integer min max =>
    let flags := (if min.isSome then minFlag else 0) + (if max.isSome then maxFlag else 0)
    UInt8.ofNat flags :: (min.toList ++ max.toList).flatMap Write.int32

end Hint

end CommandGrammar
