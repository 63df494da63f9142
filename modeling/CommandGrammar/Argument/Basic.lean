import CommandGrammar.Argument.Number
import CommandGrammar.Argument.Phrase
import CommandGrammar.Argument.Value
import CommandGrammar.Argument.Word

/-!
# Arguments

An argument is one position of a usage. It says how much of the line it takes (`Argument.span`),
what it makes of that text (`Argument.read`), and which nodes declare it to a client
(`Argument.contributions`).

Words are compared by their choices alone (`Argument.alike`): a program may put one restricted word
under several ids and still see that it is the same. Everything else is compared in full.
-/

namespace CommandGrammar

/-- One position of a usage. -/
inductive Argument
  /-- A fixed word, which is its own id. -/
  | literal (name : String)
  | word (w : Word)
  | phrase (p : Phrase)
  | boolean (id : String)
  | number (n : Number)

namespace Argument

/-- The name under which the value is found. -/
def id : Argument → String
  | literal name => name
  | word w => w.id
  | phrase p => p.id
  | boolean id => id
  | number n => n.id

/-- How much of the line goes to the argument. -/
def span : Argument → Span
  | phrase p => p.span
  | literal _ | word _ | boolean _ | number _ => .single

/-- The text, if it is the fixed word. -/
def readLiteral (name text : String) : Except Reason String :=
  if text = name then .ok text else .error (.notLiteral name)

/-- The truth value that the text names, in any case. -/
def readBoolean (text : String) : Except Reason Bool :=
  if eqIgnoreCase text "true" then .ok true
  else if eqIgnoreCase text "false" then .ok false
  else .error .notBoolean

/-- The value of the text, or why it has none. -/
def value (a : Argument) (text : String) : Except Reason Value :=
  match a with
  | literal name => Value.literal <$> readLiteral name text
  | word w => Value.word <$> w.read text
  | phrase p => Value.phrase <$> p.read text
  | boolean _ => Value.boolean <$> readBoolean text
  | number n => Value.integer <$> n.read text

/-- The value of the text, or its rejection. -/
def read (a : Argument) (text : String) : Except Rejection Value :=
  (a.value text).mapError fun reason => ⟨reason, text⟩

/-- The nodes that declare the argument, `executable` if a command may end with it. -/
def contributions (a : Argument) (executable : Bool) : List Contribution :=
  match a with
  | literal name => [.literal name executable]
  | word w => w.contributions executable
  | phrase p => [.argument p.id p.hint executable]
  | boolean id => [.argument id .boolean executable]
  | number n => [.argument n.id n.hint executable]

/-- How many choices a word has, if it was given choices. -/
def choiceCount? : Argument → Option Nat
  | word w => w.choices.map List.length
  | _ => none

/-! ## Comparing arguments -/

/-- What counts when arguments are compared. -/
inductive Key
  | literal (name : String)
  | word (choices : Option (List String))
  | phrase (p : Phrase)
  | boolean (id : String)
  | number (id : String) (min max : Option Int32)
  deriving DecidableEq, Repr

/-- What counts of this argument. -/
def key : Argument → Key
  | literal name => .literal name
  | word w => .word w.choices
  | phrase p => .phrase p
  | boolean id => .boolean id
  | number n => .number n.id n.bounds.min n.bounds.max

/-- The arguments agree in what counts. -/
def alike (a b : Argument) : Bool :=
  a.key == b.key

end Argument

end CommandGrammar
