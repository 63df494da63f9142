import CommandGrammar.Proofs.Argument.Hint

/-!
# Texts that differ in case

Two texts match if character by character one of three comparisons succeeds. As this comes to one
comparison of folds, whatever the case mappings are, matching is an equivalence, and a word cannot
tell two matching tokens apart, no matter which of its choices matches which of them and how; nor
can a truth value (`CaseMap.same_equivalence_respected_by_read`). On ASCII texts, mappings that are
those of ASCII there compare like `eqIgnoreAsciiCase`.

The readers match under the mappings of the Unicode character database; `Word.readUnder` and
`Argument.readBooleanUnder` are the same readers under any mappings.
-/

namespace CommandGrammar

/-- All characters are ASCII characters. -/
def IsAscii (s : String) : Prop :=
  ∀ c ∈ s.toList, c.toNat < 128

instance (s : String) : Decidable (IsAscii s) :=
  List.decidableBAll (fun c : Char => c.toNat < 128) s.toList

/-- If all runs but the first begin further on, the first is the one to look at. -/
theorem CaseRun.applyAll_take {runs : List CaseRun} {k n : Nat}
    (h : ∀ r ∈ runs.drop 1, k ≤ r.first) (hn : n < k) :
    applyAll runs n = applyAll (runs.take 1) n := by
  have hnone : (runs.drop 1).find? (·.covers n) = none := by
    refine List.find?_eq_none.mpr fun r hr => ?_
    simp [covers, Nat.not_le.mpr (Nat.lt_of_lt_of_le hn (h r hr))]
  have hfind : runs.find? (·.covers n) = (runs.take 1).find? (·.covers n) := by
    rw [← List.take_append_drop 1 runs, List.find?_append, List.take_append_drop, hnone,
      Option.or_none]
  rw [applyAll, hfind]
  rfl

namespace CaseMap

/-- Texts match under these mappings. -/
def same (m : CaseMap) (a b : String) : Bool :=
  m.sameText a.toList b.toList

/-- On ASCII characters the mappings are those of ASCII. -/
def ExtendsAscii (m : CaseMap) : Prop :=
  ∀ c : Char, c.toNat < 128 → m.upper c = c.toUpper ∧ m.lower c = c.toLower

variable {m : CaseMap} {a b : String}

theorem same_iff : m.same a b ↔ a.toList.map m.fold = b.toList.map m.fold :=
  m.sameText_iff

/-- Being the same is an equivalence, as being equal after folding is. -/
theorem same_equivalence (m : CaseMap) : Equivalence fun a b : String => m.same a b where
  refl _ := same_iff.mpr rfl
  symm h := same_iff.mpr (same_iff.mp h).symm
  trans h h' := same_iff.mpr ((same_iff.mp h).trans (same_iff.mp h'))

/-- Texts match if they have as many characters, and the small letters of the capitals agree. -/
theorem same_iff_getElem : m.same a b ↔ a.toList.length = b.toList.length ∧
    ∀ (i : Nat) (ha : i < a.toList.length) (hb : i < b.toList.length),
      m.lower (m.upper a.toList[i]) = m.lower (m.upper b.toList[i]) := by
  rw [same_iff, List.ext_getElem_iff]
  simp only [List.length_map, List.getElem_map, fold]

/-- A property of ASCII characters, checked one by one. -/
@[elab_as_elim]
theorem forall_ascii {p : Char → Prop} (c : Char) (hc : c.toNat < 128)
    (h : ∀ i : Fin 128, p (Char.ofNat i)) : p c := by
  simpa using h ⟨c.toNat, hc⟩

/-- ASCII letters fold to small ones. -/
theorem ExtendsAscii.fold_eq (h : m.ExtendsAscii) {c : Char} (hc : c.toNat < 128) :
    m.fold c = c.toLower := by
  have hupper : c.toUpper.toNat < 128 ∧ c.toUpper.toLower = c.toLower :=
    forall_ascii c hc (by decide +kernel)
  rw [fold, (h c hc).1, (h _ hupper.1).2, hupper.2]

/-- Of ASCII texts, any such mapping says the same as the comparison of ASCII. -/
theorem ExtendsAscii.same_eq (h : m.ExtendsAscii) (ha : IsAscii a) (hb : IsAscii b) :
    m.same a b = eqIgnoreAsciiCase a b := by
  have hfold : ∀ {s : String}, IsAscii s → s.toList.map m.fold = s.toList.map Char.toLower :=
    fun hs => List.map_congr_left fun c hc => h.fold_eq (hs c hc)
  rw [Bool.eq_iff_iff, same_iff, hfold ha, hfold hb, eqIgnoreAsciiCase, beq_iff_eq]

/-- The first runs of the tables are those of the ASCII letters. -/
theorem extendsAscii_unicode : unicode.ExtendsAscii := fun c hc => by
  have hupper : ∀ r ∈ CaseRun.upperRuns.drop 1, 128 ≤ r.first := by decide +kernel
  have hlower : ∀ r ∈ CaseRun.lowerRuns.drop 1, 128 ≤ r.first := by decide +kernel
  show Char.ofNat (CaseRun.applyAll CaseRun.upperRuns c.toNat) = c.toUpper ∧
    Char.ofNat (CaseRun.applyAll CaseRun.lowerRuns c.toNat) = c.toLower
  rw [CaseRun.applyAll_take hupper hc, CaseRun.applyAll_take hlower hc]
  exact forall_ascii c hc (by decide +kernel)

end CaseMap

/-! ## Readers -/

/-- The token, in the case in which it was typed, if it matches a choice under these mappings. -/
def Word.readUnder (m : CaseMap) (w : Word) (token : String) : Except Reason String :=
  if HasSpace token then .error .spaceInWord
  else if w.isRestricted && !w.choiceList.any (m.same token) then .error .notAChoice
  else .ok token

namespace Argument

/-- The truth value that the text names under these mappings. -/
def readBooleanUnder (m : CaseMap) (text : String) : Except Reason Bool :=
  if m.same text "true" then .ok true
  else if m.same text "false" then .ok false
  else .error .notBoolean

/-- The value of the text, or its rejection, where texts match under these mappings. -/
def readUnder (m : CaseMap) (a : Argument) (text : String) : Except Rejection Value :=
  match a with
  | word w => (Value.word <$> w.readUnder m text).mapError fun reason => ⟨reason, text⟩
  | boolean _ => (Value.boolean <$> readBooleanUnder m text).mapError fun reason => ⟨reason, text⟩
  | literal name => (literal name).read text
  | phrase p => (phrase p).read text
  | number n => (number n).read text

theorem readUnder_unicode (a : Argument) : a.readUnder .unicode = a.read := by
  funext text
  cases a <;> rfl

end Argument

namespace CaseMap

variable {m : CaseMap} {a b : String}

/-- Matching texts match the same texts. -/
theorem same_congr (h : m.same a b) (c : String) : m.same a c = m.same b c := by
  have hequiv := m.same_equivalence
  rw [Bool.eq_iff_iff]
  exact ⟨hequiv.trans (hequiv.symm h), hequiv.trans h⟩

/-- So a word takes both of two matching tokens, or neither. -/
theorem word_of_same (h : m.same a b) (ha : ¬HasSpace a) (hb : ¬HasSpace b) (w : Word) :
    (w.readUnder m a = .ok a ∧ w.readUnder m b = .ok b) ∨
      w.readUnder m a = .error .notAChoice ∧ w.readUnder m b = .error .notAChoice := by
  have hany : w.choiceList.any (m.same a) = w.choiceList.any (m.same b) :=
    congrArg w.choiceList.any (funext (same_congr h))
  rw [Word.readUnder, Word.readUnder, if_neg ha, if_neg hb, hany]
  split
  · exact .inr ⟨rfl, rfl⟩
  · exact .inl ⟨rfl, rfl⟩

/-- A choice matches itself. -/
theorem word_choice (m : CaseMap) {w : Word} (h : a ∈ w.choiceList) : w.readUnder m a = .ok a := by
  have hmatch : w.choiceList.any (m.same a) = true :=
    List.any_eq_true.mpr ⟨a, h, m.same_equivalence.refl a⟩
  rw [Word.readUnder, if_neg (w.isToken_of_mem h).2, hmatch, Bool.not_true, Bool.and_false,
    if_neg Bool.false_ne_true]

/-- Texts that are the same are the same truth value, or both none. -/
theorem boolean_of_same (h : m.same a b) :
    Argument.readBooleanUnder m a = Argument.readBooleanUnder m b := by
  rw [Argument.readBooleanUnder, Argument.readBooleanUnder, same_congr h, same_congr h]

theorem boolean_or (m : CaseMap) (a : String) :
    (∃ v, Argument.readBooleanUnder m a = .ok v) ∨
      Argument.readBooleanUnder m a = .error .notBoolean := by
  unfold Argument.readBooleanUnder
  split
  · exact .inl ⟨_, rfl⟩
  · split
    · exact .inl ⟨_, rfl⟩
    · exact .inr rfl

/-- Whatever the case mappings are, matching is an equivalence, told by the small letters of the
capitals, one by one, and on ASCII texts by those of ASCII, if the mappings are those of ASCII
there. A word accepts both of two matching tokens, each as it was typed, or neither, and accepts its
choices. A truth value is the same for both, or there is none for either. The arguments of a command
read under the Unicode mappings, of which all this is true. -/
theorem same_equivalence_respected_by_read (m : CaseMap) :
    Equivalence (fun a b : String => m.same a b) ∧
    (∀ a b : String, m.same a b ↔ a.toList.length = b.toList.length ∧
      ∀ (i : Nat) (ha : i < a.toList.length) (hb : i < b.toList.length),
        m.lower (m.upper a.toList[i]) = m.lower (m.upper b.toList[i])) ∧
    (m.ExtendsAscii → ∀ a b, IsAscii a → IsAscii b → m.same a b = eqIgnoreAsciiCase a b) ∧
    (∀ (w : Word) (a b : String), ¬HasSpace a → ¬HasSpace b → m.same a b →
      ((Argument.word w).readUnder m a = .ok (.word a) ∧
        (Argument.word w).readUnder m b = .ok (.word b)) ∨
      (Argument.word w).readUnder m a = .error ⟨.notAChoice, a⟩ ∧
        (Argument.word w).readUnder m b = .error ⟨.notAChoice, b⟩) ∧
    (∀ (w : Word), ∀ c ∈ w.choiceList, (Argument.word w).readUnder m c = .ok (.word c)) ∧
    (∀ (id a b : String), m.same a b →
      (∃ v, (Argument.boolean id).readUnder m a = .ok (.boolean v) ∧
        (Argument.boolean id).readUnder m b = .ok (.boolean v)) ∨
      (Argument.boolean id).readUnder m a = .error ⟨.notBoolean, a⟩ ∧
        (Argument.boolean id).readUnder m b = .error ⟨.notBoolean, b⟩) ∧
    eqIgnoreCase = unicode.same ∧ unicode.ExtendsAscii ∧
    ∀ a : Argument, a.read = a.readUnder .unicode := by
  refine ⟨m.same_equivalence, fun a b => same_iff_getElem, fun h a b => h.same_eq,
    fun w a b ha hb h => ?_, fun w c hc => ?_, fun id a b h => ?_, rfl, extendsAscii_unicode,
    fun a => a.readUnder_unicode.symm⟩
  · rw [Argument.readUnder, Argument.readUnder]
    rcases word_of_same h ha hb w with ⟨ha, hb⟩ | ⟨ha, hb⟩ <;> rw [ha, hb]
    · exact .inl ⟨rfl, rfl⟩
    · exact .inr ⟨rfl, rfl⟩
  · rw [Argument.readUnder, word_choice m hc]
    rfl
  · rw [Argument.readUnder, Argument.readUnder, ← boolean_of_same h]
    rcases m.boolean_or a with ⟨v, ha⟩ | ha <;> rw [ha]
    · exact .inl ⟨v, rfl, rfl⟩
    · exact .inr ⟨rfl, rfl⟩

/-- A token that is a choice but for its case, with a letter beyond ASCII, and two spellings of a
truth value. -/
theorem same_equivalence_mood : ∃ w : Word, "Ärger" ∈ w.choiceList ∧
    unicode.same "äRGER" "Ärger" ∧ ¬HasSpace "äRGER" ∧ ¬HasSpace "Ärger" ∧
    (Argument.word w).readUnder unicode "Ärger" = .ok (.word "Ärger") ∧
    (Argument.word w).readUnder unicode "äRGER" = .ok (.word "äRGER") ∧
    unicode.ExtendsAscii ∧ IsAscii "tRue" ∧ IsAscii "TRUE" ∧ eqIgnoreAsciiCase "tRue" "TRUE" ∧
    unicode.same "tRue" "TRUE" ∧ ∃ v,
      (Argument.boolean "loud").readUnder unicode "tRue" = .ok (.boolean v) ∧
      (Argument.boolean "loud").readUnder unicode "TRUE" = .ok (.boolean v) := by
  obtain ⟨w, hw⟩ : ∃ w : Word, w.choiceList = ["Ärger"] :=
    ⟨⟨"mood", some ["Ärger"], none, fun cs h => by cases h; decide⟩, rfl⟩
  obtain ⟨-, -, ascii, words, choices, booleans, -, hextends, -⟩ :=
    same_equivalence_respected_by_read unicode
  have hmem : "Ärger" ∈ w.choiceList := by simp [hw]
  have hmatch : unicode.same "äRGER" "Ärger" := by decide +kernel
  have hspace : ¬HasSpace "äRGER" ∧ ¬HasSpace "Ärger" := by decide
  have hascii : IsAscii "tRue" ∧ IsAscii "TRUE" := by decide
  have htrue : eqIgnoreAsciiCase "tRue" "TRUE" := by decide +kernel
  have hsame : unicode.same "tRue" "TRUE" := (ascii hextends _ _ hascii.1 hascii.2).trans htrue
  have hchoice := choices w "Ärger" hmem
  refine ⟨w, hmem, hmatch, hspace.1, hspace.2, hchoice, ?_, hextends, hascii.1, hascii.2, htrue,
    hsame, ?_⟩
  · rcases words w _ _ hspace.1 hspace.2 hmatch with ⟨haccept, -⟩ | ⟨-, hreject⟩
    · exact haccept
    · rw [hchoice] at hreject
      cases hreject
  · rcases booleans "loud" _ _ hsame with hread | ⟨hreject, -⟩
    · exact hread
    · have hread : (Argument.boolean "loud").readUnder unicode "tRue" = .ok (.boolean true) := by
        decide +kernel
      rw [hread] at hreject
      cases hreject

end CaseMap

end CommandGrammar
