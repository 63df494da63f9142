import CommandGrammar.Text.Decimal

/-!
# Rejections

A rejection says that a piece of a command line is not what the grammar asks for there. It is an
answer to whoever typed the line, not a failure of the program: while usages are tried one after
another, it only means that one of them does not match.

What was wrong is a `Reason`. A reason belongs to a `Family` of arguments, or to the command line
as a whole, and has a code that is unique within the family, so family and code together identify
it (`Rejection.is`).
-/

namespace CommandGrammar

/-- What kind of argument rejects; `command` is the line as a whole. -/
inductive Family
  | literal | word | phrase | boolean | integer | command
  deriving DecidableEq, Repr

/-- The family's name. -/
def Family.name : Family → String
  | .literal => "literal"
  | .word => "word"
  | .phrase => "phrase"
  | .boolean => "boolean"
  | .integer => "integer"
  | .command => "command"

/-- Why a piece of a command line is rejected. -/
inductive Reason
  /-- A literal stands here, and this is not it. -/
  | notLiteral (expected : String)
  /-- A word has no space. -/
  | spaceInWord
  /-- A word that is restricted is one of its choices. -/
  | notAChoice
  /-- A phrase that begins with a quote ends with another. -/
  | quoteNotClosed
  /-- A backslash is followed by a quote or a backslash. -/
  | badEscape
  /-- A quote inside a phrase is escaped. -/
  | quoteInside
  /-- A phrase with a space is quoted. -/
  | quotesMissing
  | notBoolean
  | notNumber
  | tooLow (min : Int32)
  | tooHigh (max : Int32)
  /-- The line begins with no command name. -/
  | emptyLine
  | unknownCommand
  /-- Something follows a command that has no usages. -/
  | takesNoArguments
  /-- Something follows the last argument. -/
  | trailingInput
  /-- Nothing follows a command that needs arguments. -/
  | missingArguments
  /-- The line ends before this argument. -/
  | missingArgument (id : String)
  /-- A reason that a caller puts in its own words. -/
  | other (family : Family) (code : Nat) (text : String)
  deriving DecidableEq, Repr

namespace Reason

/-- Who rejects. -/
def family : Reason → Family
  | notLiteral _ => .literal
  | spaceInWord | notAChoice => .word
  | quoteNotClosed | badEscape | quoteInside | quotesMissing => .phrase
  | notBoolean => .boolean
  | notNumber | tooLow _ | tooHigh _ => .integer
  | emptyLine | unknownCommand | takesNoArguments | trailingInput | missingArguments
  | missingArgument _ => .command
  | other family _ _ => family

/-- The number of the reason within its family. -/
def code : Reason → Nat
  | notLiteral _ | spaceInWord | notBoolean | notNumber | emptyLine => 1
  | quoteNotClosed | quoteInside | quotesMissing => 1
  | notAChoice | badEscape | tooLow _ | unknownCommand => 2
  | tooHigh _ | takesNoArguments | trailingInput => 3
  | missingArguments | missingArgument _ => 4
  | other _ code _ => code

/-- The reason in words. -/
def text : Reason → String
  | notLiteral expected => s!"Expected literal '{expected}'"
  | spaceInWord => "Word cannot contain space character"
  | notAChoice => "Word needs to be in the restriction list"
  | quoteNotClosed => "Phrase is missing a closing quote"
  | badEscape => "Invalid escape sequence"
  | quoteInside => "Unexpected quote inside phrase"
  | quotesMissing => "Phrases with spaces must be quoted"
  | notBoolean => "Not a boolean"
  | notNumber => "Input is not a number"
  | tooLow min => "Value must be at least " ++ Decimal.write min.toInt
  | tooHigh max => "Value must be at most " ++ Decimal.write max.toInt
  | emptyLine => "Empty command"
  | unknownCommand => "Unknown command"
  | takesNoArguments => "Command takes no arguments"
  | trailingInput => "Unexpected trailing input"
  | missingArguments => "Missing arguments"
  | missingArgument id => s!"Missing argument '{id}'"
  | other _ _ text => text

end Reason

/-- A piece of a command line, verbatim, and why it is rejected. -/
structure Rejection where
  reason : Reason
  token : String
  deriving DecidableEq, Repr

namespace Rejection

/-- The rejection has this family and code. -/
def is (r : Rejection) (family : Family) (code : Nat) : Bool :=
  r.reason.family == family && r.reason.code == code

/-- The rejection in words. -/
def message (r : Rejection) : String :=
  let text := r.reason.text
  let token := r.token
  let family := r.reason.family.name
  let code := r.reason.code
  s!"{text}: '{token}' ({family} error {code})"

end Rejection

end CommandGrammar
