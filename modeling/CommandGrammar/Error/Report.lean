import CommandGrammar.Error.Inconsistency
import CommandGrammar.Error.Malformed
import CommandGrammar.Error.Misconfiguration
import CommandGrammar.Error.Omission
import CommandGrammar.Error.Rejection

/-!
# Reports

A report is any of the library's failures with the place in the definitions where it arose, if that
is known.
-/

namespace CommandGrammar

/-- Any failure. -/
inductive Failure
  | rejection (r : Rejection)
  | misconfiguration (m : Misconfiguration)
  | omission (o : Omission)
  | malformed (m : Malformed)
  | inconsistency (i : Inconsistency)
  deriving DecidableEq, Repr

namespace Failure

/-- The failure in words. -/
def message : Failure → String
  | rejection r => r.message
  | misconfiguration m => m.message
  | omission o => o.message
  | malformed m => "malformed wire data: " ++ m.text
  | inconsistency i => "internal error: " ++ i.text

/-- The rejection, if the failure is one. -/
def asRejection? : Failure → Option Rejection
  | rejection r => some r
  | _ => none

/-- The misconfiguration, if the failure is one. -/
def asMisconfiguration? : Failure → Option Misconfiguration
  | misconfiguration m => some m
  | _ => none

end Failure

/-- A place in the definitions. -/
structure Place where
  command : Option String := none
  argument : Option String := none
  deriving DecidableEq, Repr

/-- The place in words; nowhere in particular is the empty text. -/
def Place.text : Place → String
  | ⟨some command, some argument⟩ => s!"in command '{command}' at argument '{argument}'"
  | ⟨some command, none⟩ => s!"in command '{command}'"
  | ⟨none, some argument⟩ => s!"at argument '{argument}'"
  | ⟨none, none⟩ => ""

/-- A failure and where it arose. -/
structure Report where
  failure : Failure
  place : Option Place := none
  deriving DecidableEq, Repr

end CommandGrammar
