import CommandGrammar.Text.CaseTable

/-!
# Comparing text without regard to case

Two characters match if they are equal, if their capitals are equal, or if the small letters of
their capitals are. Whatever the two mappings are, this holds exactly when the characters have one
*fold*, the small letter of the capital (`CaseMap.sameChar_iff`), so two texts match exactly when
their folds are one text (`CaseMap.sameText_iff`). Mappings take one character to one character,
hence texts of different lengths never match: `ß` is not `SS`.

Names of commands are compared by the ASCII letters alone (`eqIgnoreAsciiCase`).
-/

namespace CommandGrammar

/-- One-to-one case mappings. -/
structure CaseMap where
  upper : Char → Char
  lower : Char → Char

namespace CaseMap

/-- The mappings of the Unicode character database. -/
def unicode : CaseMap where
  upper c := Char.ofNat (CaseRun.applyAll CaseRun.upperRuns c.toNat)
  lower c := Char.ofNat (CaseRun.applyAll CaseRun.lowerRuns c.toNat)

/-- The small letter of the capital. -/
def fold (m : CaseMap) (c : Char) : Char :=
  m.lower (m.upper c)

/-- Characters match if they, their capitals or their folds are equal. -/
def sameChar (m : CaseMap) (a b : Char) : Bool :=
  a == b || m.upper a == m.upper b || m.fold a == m.fold b

/-- Texts match if they have as many characters and match one by one. -/
@[simp] def sameText (m : CaseMap) : List Char → List Char → Bool
  | [], [] => true
  | a :: as, b :: bs => m.sameChar a b && m.sameText as bs
  | _, _ => false

@[simp] theorem sameChar_iff (m : CaseMap) {a b : Char} : m.sameChar a b ↔ m.fold a = m.fold b := by
  simp only [sameChar, Bool.or_eq_true, beq_iff_eq]
  constructor
  · rintro ((rfl | h) | h)
    · rfl
    · rw [fold, h, ← fold]
    · exact h
  · exact Or.inr

@[simp] theorem sameText_iff (m : CaseMap) :
    ∀ {a b : List Char}, m.sameText a b ↔ a.map m.fold = b.map m.fold
  | [], [] => by simp
  | [], _ :: _ => by simp
  | _ :: _, [] => by simp
  | a :: as, b :: bs => by simp [sameText_iff m (a := as) (b := bs)]

end CaseMap

/-- Texts match under the Unicode mappings. -/
def eqIgnoreCase (a b : String) : Bool :=
  CaseMap.unicode.sameText a.toList b.toList

/-- Texts are equal but for the case of ASCII letters. -/
def eqIgnoreAsciiCase (a b : String) : Bool :=
  a.toList.map Char.toLower == b.toList.map Char.toLower

end CommandGrammar
