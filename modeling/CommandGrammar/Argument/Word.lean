import CommandGrammar.Error.Misconfiguration
import CommandGrammar.Error.Rejection
import CommandGrammar.Node.Label
import CommandGrammar.Text.CaseFold
import CommandGrammar.Text.Token

/-!
# Words

A word is one token. It may be restricted to a list of choices, which are matched without regard to
case; an empty list restricts nothing. A client is told of every choice as a node of its own, so
long lists make large graphs.
-/

namespace CommandGrammar

/-- One token, perhaps one of a list of choices. -/
structure Word where
  id : String
  choices : Option (List String) := none
  /-- Who suggests words to the client. -/
  provider : Option String := none
  areTokens : ∀ cs ∈ choices, ∀ c ∈ cs, IsToken c := by simp

namespace Word

/-- The first choice that no token can be, `index` being the place of the first one. -/
@[simp] def choiceFault? (id : String) (index : Nat) : List String → Option Misconfiguration
  | [] => none
  | c :: cs =>
    if c = "" then some (.emptyChoice id index)
    else if HasSpace c then some (.spaceInChoice id c)
    else choiceFault? id (index + 1) cs

@[simp] theorem choiceFault?_eq_none_iff (id : String) :
    ∀ {index : Nat} {cs : List String}, choiceFault? id index cs = none ↔ ∀ c ∈ cs, IsToken c
  | _, [] => by simp
  | index, c :: cs => by
    by_cases he : c = ""
    · simp [he, IsToken]
    · by_cases hs : HasSpace c
      · simp [he, hs, IsToken]
      · simp [he, hs, IsToken, choiceFault?_eq_none_iff id]

/-- The word with these choices in place of any that it had. -/
def restrict (w : Word) (choices : List String) : Except Misconfiguration Word :=
  match h : choiceFault? w.id 0 choices with
  | some fault => .error fault
  | none =>
    .ok { w with
      choices := some choices
      areTokens := by simpa using (choiceFault?_eq_none_iff w.id).mp h }

/-- The word with this provider of suggestions. -/
def suggest (w : Word) (provider : String) : Word :=
  { w with provider := some provider }

/-- The choices, of which there are none if the word is not restricted. -/
def choiceList (w : Word) : List String :=
  w.choices.getD []

/-- Only some words are accepted. -/
def isRestricted (w : Word) : Bool :=
  !w.choiceList.isEmpty

/-- The token, in the case in which it was typed. -/
def read (w : Word) (token : String) : Except Reason String :=
  if HasSpace token then .error .spaceInWord
  else if w.isRestricted && !w.choiceList.any (eqIgnoreCase token) then .error .notAChoice
  else .ok token

/-- A node for every choice, or one for all words. -/
def contributions (w : Word) (executable : Bool) : List Contribution :=
  match w.choiceList with
  | [] => [{ Contribution.argument w.id (.text .word) executable with provider := w.provider }]
  | c :: cs => (c :: cs).map fun name => { label := ⟨.choice (c :: cs), name, executable⟩ }

end Word

end CommandGrammar
