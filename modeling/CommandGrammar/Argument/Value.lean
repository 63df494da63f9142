import CommandGrammar.Text.Decimal

/-!
# Values

What an argument makes of the text that was typed for it.
-/

namespace CommandGrammar

/-- The value of an argument. -/
inductive Value
  | literal (text : String)
  | word (text : String)
  | phrase (text : String)
  | boolean (b : Bool)
  | integer (v : Int32)
  deriving DecidableEq, Repr

namespace Value

/-- The value in words. -/
def render : Value → String
  | literal text | word text | phrase text => text
  | boolean b => if b then "true" else "false"
  | integer v => Decimal.write v.toInt

/-- The text of a literal, a word or a phrase. -/
def text? : Value → Option String
  | literal text | word text | phrase text => some text
  | boolean _ | integer _ => none

/-- The truth value of a boolean. -/
def boolean? : Value → Option Bool
  | boolean b => some b
  | _ => none

/-- The integer of a number. -/
def integer? : Value → Option Int32
  | integer v => some v
  | _ => none

end Value

end CommandGrammar
