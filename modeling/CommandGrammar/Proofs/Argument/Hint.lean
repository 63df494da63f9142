import CommandGrammar.Payload.Record
import CommandGrammar.Proofs.Argument.Text
import CommandGrammar.Proofs.Wire.RoundTrip

/-!
# What a hint admits

A client knows of an argument only the parser's identifier and the bytes of its properties.
`Hint.Admits` is what these two say that may be typed, and `Argument.reads_of_admits` is that the
argument reads all of it: what a contributed node admits is cut off whole, where it ends, and is
accepted.
-/

namespace CommandGrammar

/-! ## Bounds in properties -/

namespace Reading

/-- A value that may be absent is read back, if its flag says whether it is there. -/
theorem flagged_append {α : Type} {r : Reading α} {write : α → List UInt8}
    (h : ∀ v, Reads r (write v) v) (v : Option α) :
    Reads (flagged v.isSome r) (v.toList.flatMap write) v := by
  cases v with
  | none => exact reads_pure none
  | some v => simpa [flagged] using (h v).map some

end Reading

namespace Hint

/-- The bounds that the properties of an integer tell. -/
def readBounds : Reading (Option Int32 × Option Int32) := do
  let flags ← Reading.byte
  let min ← Reading.flagged (flags.toNat.testBit 0) Reading.int32
  let max ← Reading.flagged (flags.toNat.testBit 1) Reading.int32
  return (min, max)

theorem testBit_flags (low high : Bool) :
    let flags := UInt8.ofNat ((if low then minFlag else 0) + (if high then maxFlag else 0))
    flags.toNat.testBit 0 = low ∧ flags.toNat.testBit 1 = high := by
  cases low <;> cases high <;> decide

/-- A client reads the bounds that are declared, and nothing is left over. -/
@[simp] theorem readBounds_properties (min max : Option Int32) :
    readBounds (integer min max).properties = .ok (min, max) [] := by
  obtain ⟨hmin, hmax⟩ := testBit_flags min.isSome max.isSome
  refine EStateM.bind_eq_ok.mpr ⟨_, _, rfl, EStateM.bind_eq_ok.mpr
    ⟨min, max.toList.flatMap Write.int32, ?_, EStateM.bind_eq_ok.mpr ⟨max, [], ?_, rfl⟩⟩⟩
  · rw [hmin, List.flatMap_append]
    exact Reading.flagged_append Reading.reads_int32 min _
  · rw [hmax]
    simpa using Reading.flagged_append Reading.reads_int32 max []

@[simp] theorem varInt_tag (mode : TextMode) :
    Reading.varInt (VarInt.encode mode.tag) = .ok mode.tag [] := by
  cases mode <;> rfl

/-! ## What may be typed -/

/-- What the client's parser of texts takes, by the number of its mode: a token, a token or a text
in quotes, or any text. -/
def AdmitsText (mode : Int32) (text : String) : Prop :=
  mode = 0 ∧ IsToken text ∨
    mode = 1 ∧ (IsToken text ∧ text.toList.head? ≠ some quote ∨
      ∃ cs, text = String.ofList (Phrase.quoted cs)) ∨
    mode = 2 ∧ text ≠ ""

/-- What may be typed where a client was told of a parser with these properties: a truth value in
any ASCII case, the numeral of an integer within the bounds, or a text that suits the mode. -/
inductive Admits (parser : String) (properties : List UInt8) (text : String) : Prop
  | boolean : parser = booleanParser →
      eqIgnoreAsciiCase text "true" ∨ eqIgnoreAsciiCase text "false" → Admits parser properties text
  | integer {min max : Option Int32} {v : Int32} : parser = integerParser →
      readBounds properties = .ok (min, max) [] → (∀ low ∈ min, low ≤ v) →
      (∀ high ∈ max, v ≤ high) → text = Decimal.write v.toInt → Admits parser properties text
  | text {mode : Int32} : parser = textParser → Reading.varInt properties = .ok mode [] →
      AdmitsText mode text → Admits parser properties text

section

variable {s : String}

/-- Where a text is declared, what may be typed suits its mode. -/
theorem admits_text (mode : TextMode)
    (h : Admits (text mode).identifier (text mode).properties s) : AdmitsText mode.tag s := by
  cases h with
  | boolean hp => exact absurd (show textParser = booleanParser from hp) (by decide)
  | integer hp => exact absurd (show textParser = integerParser from hp) (by decide)
  | text _ hv hs =>
    obtain ⟨rfl, -⟩ := EStateM.Result.ok.inj ((varInt_tag mode).symm.trans hv)
    exact hs

theorem admits_boolean (h : Admits boolean.identifier boolean.properties s) :
    eqIgnoreAsciiCase s "true" ∨ eqIgnoreAsciiCase s "false" := by
  cases h with
  | boolean _ hs => exact hs
  | integer hp => exact absurd (show booleanParser = integerParser from hp) (by decide)
  | text hp => exact absurd (show booleanParser = textParser from hp) (by decide)

/-- Where an integer is declared, the numerals within its bounds may be typed. -/
theorem admits_integer {min max : Option Int32}
    (h : Admits (integer min max).identifier (integer min max).properties s) :
    ∃ v, (∀ low ∈ min, low ≤ v) ∧ (∀ high ∈ max, v ≤ high) ∧ s = Decimal.write v.toInt := by
  cases h with
  | boolean hp => exact absurd (show integerParser = booleanParser from hp) (by decide)
  | integer _ hb hlow hhigh hs =>
    obtain ⟨hb, -⟩ := EStateM.Result.ok.inj ((readBounds_properties min max).symm.trans hb)
    obtain ⟨rfl, rfl⟩ := Prod.mk.inj hb
    exact ⟨_, hlow, hhigh, hs⟩
  | text hp => exact absurd (show integerParser = textParser from hp) (by decide)

end

end Hint

/-- What may be typed where a client was told of a node with this label. -/
def Label.Admits (l : Label) (text : String) : Prop :=
  match l.shape with
  | .literal | .choice _ => text = l.name
  | .argument hint => Hint.Admits hint.identifier hint.properties text

/-! ## What is read -/

/-- The bounds let every integer pass that keeps to them. -/
theorem Bounds.check_eq_ok {b : Bounds} {v : Int32} (hmin : ∀ low ∈ b.min, low ≤ v)
    (hmax : ∀ high ∈ b.max, v ≤ high) : b.check v = .ok v := by
  have low : b.min.filter (v < ·) = none := by
    refine Option.filter_eq_none_iff.mpr fun low h => ?_
    simpa using Int32.not_lt.mpr (hmin low h)
  have high : b.max.filter (· < v) = none := by
    refine Option.filter_eq_none_iff.mpr fun high h => ?_
    simpa using Int32.not_lt.mpr (hmax high h)
  rw [check, low, high]

/-- Every choice of a word can be typed as one token. -/
theorem Word.isToken_of_mem (w : Word) {name : String} (h : name ∈ w.choiceList) :
    IsToken name := by
  unfold choiceList at h
  cases hc : w.choices with
  | none => simp [hc] at h
  | some cs => exact w.areTokens cs hc name (by rwa [hc] at h)

namespace Argument

/-- The argument takes the whole text, if it ends there, and accepts it. -/
structure Takes (a : Argument) (text : String) : Prop where
  nonempty : text ≠ ""
  cut : ∀ {tail : List Char}, Span.Ends tail → (a.span = .rest → tail = []) →
    a.span.cut (text.toList ++ tail) = (text.toList, tail)
  read : ∃ v, a.read text = .ok v

theorem read_of_value {a : Argument} {text : String} {v : Value} (h : a.value text = .ok v) :
    a.read text = .ok v := by
  rw [read, h]
  rfl

theorem value_of_read {a : Argument} {text : String} {v : Value} (h : a.read text = .ok v) :
    a.value text = .ok v := by
  unfold read at h
  cases hv : a.value text with
  | error reason => simp [hv, Except.mapError] at h
  | ok v' => simpa [hv, Except.mapError] using h

/-- An argument rejects a text with the reason that its type gives, and repeats the text. -/
theorem read_eq_error {a : Argument} {text : String} {r : Rejection} :
    a.read text = .error r ↔ a.value text = .error r.reason ∧ r.token = text := by
  unfold read
  cases hv : a.value text with
  | ok v => simp [Except.mapError]
  | error reason =>
    simp only [Except.mapError, Except.error.injEq]
    constructor
    · rintro rfl
      exact ⟨rfl, rfl⟩
    · rintro ⟨rfl, rfl⟩
      rfl

/-- A single argument takes each token that it accepts. -/
theorem takes_of_isToken {a : Argument} {text : String} {v : Value} (hspan : a.span = .single)
    (ht : IsToken text) (hv : a.value text = .ok v) : a.Takes text where
  nonempty := ht.1
  cut htail _ := by
    rw [hspan]
    exact Span.cutToken_append ht.2 htail
  read := ⟨v, read_of_value hv⟩

theorem takes_literal {name : String} (hname : IsToken name) : (literal name).Takes name :=
  takes_of_isToken rfl hname (v := .literal name) (by rw [value, readLiteral, if_pos rfl]; rfl)

theorem takes_boolean {id text : String}
    (h : eqIgnoreAsciiCase text "true" ∨ eqIgnoreAsciiCase text "false") :
    (boolean id).Takes text := by
  obtain ⟨b, hb⟩ := readBoolean_of_ascii h
  refine takes_of_isToken rfl ?_ (v := .boolean b) (by rw [value, hb]; rfl)
  exact h.elim (isToken_of_ascii · (by decide)) (isToken_of_ascii · (by decide))

/-- The numeral of an integer is taken if it keeps to the bounds. -/
theorem takes_number {n : Number} {v : Int32} (hmin : ∀ low ∈ n.bounds.min, low ≤ v)
    (hmax : ∀ high ∈ n.bounds.max, v ≤ high) : (number n).Takes (Decimal.write v.toInt) := by
  refine takes_of_isToken rfl (Decimal.isToken_write _) (v := .integer v) ?_
  rw [value, Number.read, Decimal.read?_write]
  simp only [Bounds.check_eq_ok hmin hmax]
  rfl

/-- A word takes any token, or those of its choices if it has some. -/
theorem takes_word {w : Word} {text : String} (ht : IsToken text)
    (hw : w.choiceList = [] ∨ text ∈ w.choiceList) : (word w).Takes text := by
  refine takes_of_isToken rfl ht (v := .word text) ?_
  have known : ¬(w.isRestricted && !w.choiceList.any (eqIgnoreCase text)) = true := by
    rcases hw with hw | hw
    · simp [Word.isRestricted, hw]
    · simpa using fun _ => ⟨text, hw, eqIgnoreCase_refl text⟩
  rw [value, Word.read, if_neg ht.2, if_neg known]
  rfl

/-- A word takes what any of its nodes admits, literals included. -/
theorem takes_of_word_admits {w : Word} {executable : Bool} {c : Contribution} {text : String}
    (hc : c ∈ w.contributions executable) (h : c.label.Admits text) : (word w).Takes text := by
  unfold Word.contributions at hc
  split at hc
  · next hw =>
    obtain rfl := List.mem_singleton.mp hc
    rcases Hint.admits_text .word h with ⟨-, ht⟩ | ⟨hm, -⟩ | ⟨hm, -⟩
    · exact takes_word ht (.inl hw)
    · exact absurd hm (by decide)
    · exact absurd hm (by decide)
  · next d ds hw =>
    obtain ⟨name, hname, rfl⟩ := List.mem_map.mp hc
    obtain rfl : text = name := h
    rw [← hw] at hname
    exact takes_word (w.isToken_of_mem hname) (.inr hname)

theorem takes_phrase {p : Phrase} {text : String}
    (h : Hint.Admits p.hint.identifier p.hint.properties text) : (phrase p).Takes text := by
  obtain ⟨id, mode⟩ := p
  cases mode with
  | quotable =>
    rcases Hint.admits_text .phrase h with ⟨hm, -⟩ | ⟨-, ⟨ht, hq⟩ | ⟨cs, rfl⟩⟩ | ⟨hm, -⟩
    · exact absurd hm (by decide)
    · refine ⟨ht.1, fun htail _ => ?_, .phrase text, read_of_value ?_⟩
      · exact Span.cut_quoted_of_token (by simpa using ht.1) hq ht.2 htail
      · simp only [value, Phrase.read, Phrase.readQuotable_of_token hq ht.2]
        exact congrArg (fun s => Except.ok (Value.phrase s)) String.ofList_toList
    · refine ⟨?_, fun _ _ => ?_, .phrase (String.ofList cs), read_of_value ?_⟩
      · simp [Phrase.quoted]
      · rw [String.toList_ofList]
        exact Span.cut_quoted _ _
      · simp only [value, Phrase.read, String.toList_ofList, Phrase.readQuotable_quoted]
        rfl
    · exact absurd hm (by decide)
  | greedy =>
    rcases Hint.admits_text .greedy h with ⟨hm, -⟩ | ⟨hm, -⟩ | ⟨-, ht⟩
    · exact absurd hm (by decide)
    · exact absurd hm (by decide)
    · refine ⟨ht, fun _ htail => ?_, .phrase text, read_of_value rfl⟩
      rw [htail rfl, List.append_nil]
      rfl

/-- An argument takes all that the nodes it contributes admit. -/
theorem takes_of_admits {a : Argument} (hid : IsToken a.id) {executable : Bool} {c : Contribution}
    (hc : c ∈ a.contributions executable) {text : String} (h : c.label.Admits text) :
    a.Takes text := by
  cases a with
  | literal name =>
    obtain rfl := List.mem_singleton.mp hc
    obtain rfl : text = name := h
    exact takes_literal hid
  | word w => exact takes_of_word_admits hc h
  | phrase p =>
    obtain rfl := List.mem_singleton.mp hc
    exact takes_phrase h
  | boolean id =>
    obtain rfl := List.mem_singleton.mp hc
    exact takes_boolean (Hint.admits_boolean h)
  | number n =>
    obtain rfl := List.mem_singleton.mp hc
    obtain ⟨v, hmin, hmax, rfl⟩ := Hint.admits_integer h
    exact takes_number hmin hmax

end Argument

end CommandGrammar
