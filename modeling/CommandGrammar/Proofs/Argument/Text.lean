import CommandGrammar.Argument.Basic

/-!
# Texts that read back

What is written for a value reads back as that value: the numeral of an integer
(`Decimal.read?_write`), a truth value in any ASCII case (`Argument.readBoolean_of_ascii`), and any
text between quotes, with a backslash before every quote and backslash
(`Phrase.readQuotable_quoted`).

A piece of a line is cut off where it ends if it is a token, or such a phrase, and if a space or the
end of the line follows (`Span.cutToken_append`, `Span.cut_quoted`).
-/

namespace CommandGrammar

/-! ## Numerals -/

namespace Decimal

theorem digit?_of_isDigit {c : Char} (h : c.isDigit) : digit? c = some (c.toNat - '0'.toNat) := by
  refine if_pos ?_
  simpa [Char.isDigit, Char.le_def] using h

/-- Digits are read as the number they write, after the ones before. -/
theorem digitsFrom_of_isDigit :
    ∀ {cs : List Char} {n : Nat}, (∀ c ∈ cs, c.isDigit) →
      digitsFrom n cs = some (Nat.ofDigitChars 10 cs n)
  | [], n, _ => by simp
  | c :: cs, n, h => by
    obtain ⟨hc, hcs⟩ := List.forall_mem_cons.mp h
    rw [digitsFrom, digit?_of_isDigit hc, Nat.ofDigitChars_cons, Nat.mul_comm 10]
    exact digitsFrom_of_isDigit hcs

/-- A natural number is read back from its digits. -/
@[simp] theorem natural?_toDigits (n : Nat) : natural? (Nat.toDigits 10 n) = some n := by
  have digits : ∀ c ∈ Nat.toDigits 10 n, c.isDigit := fun c hc =>
    Nat.isDigit_of_mem_toDigits (by decide) (by decide) hc
  have := digitsFrom_of_isDigit (n := 0) digits
  rw [Nat.ofDigitChars_ten_toDigits] at this
  cases h : Nat.toDigits 10 n with
  | nil => exact absurd h Nat.toDigits_ne_nil
  | cons c cs => rwa [natural?, ← h]

/-- A sign is no digit. -/
theorem integer?_of_isDigit {c : Char} {cs : List Char} (h : c.isDigit) :
    integer? (c :: cs) = (natural? (c :: cs)).map fun n => (n : Int) := by
  unfold integer?
  split
  · next he => exact absurd h (by rw [(List.cons.inj he).1]; decide)
  · next he => exact absurd h (by rw [(List.cons.inj he).1]; decide)
  · rfl

/-- An integer is read back from its numeral. -/
@[simp] theorem integer?_write (n : Int) : integer? (write n).toList = some n := by
  cases n with
  | ofNat n =>
    rw [write, String.toList_ofList]
    cases h : Nat.toDigits 10 n with
    | nil => exact absurd h Nat.toDigits_ne_nil
    | cons c cs =>
      have hc : c.isDigit :=
        Nat.isDigit_of_mem_toDigits (by decide) (by decide) (h ▸ List.mem_cons_self)
      rw [integer?_of_isDigit hc, ← h, natural?_toDigits]
      rfl
  | negSucc n =>
    rw [write, String.toList_ofList, integer?, natural?_toDigits]
    rfl

/-- The numeral of an integer is read as this integer. -/
@[simp] theorem read?_write (v : Int32) : read? (write v.toInt) = some v := by
  have hlow := v.le_toInt
  have hhigh := v.toInt_lt
  rw [read?, integer?_write]
  show int32? v.toInt = some v
  rw [int32?, if_pos (by omega), Int32.ofInt_toInt]

theorem isToken_ofList {cs : List Char} (hne : cs ≠ []) (hs : space ∉ cs) :
    IsToken (String.ofList cs) := by
  refine ⟨fun h => hne ?_, by rwa [HasSpace, String.toList_ofList]⟩
  rw [← String.toList_ofList (l := cs), h]
  rfl

/-- A numeral is a token. -/
theorem isToken_write (n : Int) : IsToken (write n) := by
  have digits : ∀ m, space ∉ Nat.toDigits 10 m := fun m h =>
    absurd (Nat.isDigit_of_mem_toDigits (by decide) (by decide) h) (by decide)
  cases n with
  | ofNat n => exact isToken_ofList Nat.toDigits_ne_nil (digits n)
  | negSucc n =>
    refine isToken_ofList (by simp) fun h => ?_
    rcases List.mem_cons.mp h with h | h
    · exact absurd h (by decide)
    · exact digits _ h

end Decimal

/-! ## Truth values -/

theorem toLower_of_not_upper {c : Char} (h : ¬(c.val ≥ 'A'.val ∧ c.val ≤ 'Z'.val)) :
    c.toLower = c :=
  dif_neg h

theorem val_toLower_of_upper {c : Char} (h : c.val ≥ 'A'.val ∧ c.val ≤ 'Z'.val) :
    c.toLower.val = c.val + ('a'.val - 'A'.val) :=
  congrArg Char.val (dif_pos h)

/-- A capital and a small ASCII letter have one fold. -/
theorem CaseMap.fold_toLower (c : Char) : unicode.fold c.toLower = unicode.fold c := by
  have letters : ∀ i : Fin 26, unicode.fold (Char.ofNat (65 + i)).toLower =
      unicode.fold (Char.ofNat (65 + i)) := by decide +kernel
  by_cases hc : c.val ≥ 'A'.val ∧ c.val ≤ 'Z'.val
  · obtain ⟨hlow, hhigh⟩ := hc
    have hlow : 65 ≤ c.toNat := hlow
    have hhigh : c.toNat ≤ 90 := hhigh
    have := letters ⟨c.toNat - 65, by omega⟩
    rwa [Nat.add_sub_cancel' hlow, Char.ofNat_toNat] at this
  · rw [toLower_of_not_upper hc]

/-- Texts that are equal but for the case of ASCII letters match. -/
theorem eqIgnoreCase_of_ascii {a b : String} (h : eqIgnoreAsciiCase a b) : eqIgnoreCase a b := by
  have fold : ∀ cs : List Char,
      (cs.map Char.toLower).map CaseMap.unicode.fold = cs.map CaseMap.unicode.fold := fun cs => by
    rw [List.map_map]
    exact List.map_congr_left fun c _ => CaseMap.fold_toLower c
  have h : a.toList.map Char.toLower = b.toList.map Char.toLower := beq_iff_eq.mp h
  exact (CaseMap.sameText_iff _).mpr (by rw [← fold, h, fold])

theorem eqIgnoreCase_refl (a : String) : eqIgnoreCase a a :=
  (CaseMap.sameText_iff _).mpr rfl

theorem eq_space_of_toLower {c : Char} (h : c.toLower = space) : c = space := by
  by_cases hc : c.val ≥ 'A'.val ∧ c.val ≤ 'Z'.val
  · have hlow : 65 ≤ c.val.toNat := hc.1
    have hhigh : c.val.toNat ≤ 90 := hc.2
    have hval : c.toLower.val.toNat = 32 := by
      rw [h]
      rfl
    rw [val_toLower_of_upper hc, UInt32.toNat_add] at hval
    have : ('a'.val - 'A'.val : UInt32).toNat = 32 := rfl
    omega
  · rwa [toLower_of_not_upper hc] at h

/-- The case of ASCII letters does not matter to being a token. -/
theorem isToken_of_ascii {a b : String} (h : eqIgnoreAsciiCase a b) (hb : IsToken b) :
    IsToken a := by
  have h : a.toList.map Char.toLower = b.toList.map Char.toLower := beq_iff_eq.mp h
  refine ⟨?_, fun hs => hb.2 ?_⟩
  · rintro rfl
    exact hb.1 (String.toList_eq_nil_iff.mp (List.map_eq_nil_iff.mp h.symm))
  · have hmem : space ∈ b.toList.map Char.toLower := h ▸ List.mem_map_of_mem (f := Char.toLower) hs
    obtain ⟨c, hc, he⟩ := List.mem_map.mp hmem
    obtain rfl := eq_space_of_toLower he
    exact hc

namespace Argument

theorem readBoolean_of_ascii {text : String}
    (h : eqIgnoreAsciiCase text "true" ∨ eqIgnoreAsciiCase text "false") :
    ∃ b, readBoolean text = .ok b := by
  unfold readBoolean
  split
  · exact ⟨true, rfl⟩
  · next hne =>
    have hf := h.resolve_left fun ht => hne (eqIgnoreCase_of_ascii ht)
    exact ⟨false, if_pos (eqIgnoreCase_of_ascii hf)⟩

end Argument

/-! ## Phrases in quotes -/

namespace Phrase

/-- The text with a backslash before every quote and backslash. -/
@[simp] def escaped : List Char → List Char
  | [] => []
  | c :: cs => if c = quote ∨ c = escape then escape :: c :: escaped cs else c :: escaped cs

/-- The text between quotes, with escapes. -/
def quoted (cs : List Char) : List Char :=
  quote :: (escaped cs ++ [quote])

/-- Undoing escapes gives the text that was escaped. -/
theorem unescape_escaped : ∀ cs : List Char, unescape (escaped cs) = .ok cs
  | [] => rfl
  | c :: cs => by
    by_cases hc : c = quote ∨ c = escape
    · rw [escaped, if_pos hc, unescape, if_pos rfl]
      simp only [if_pos hc, unescape_escaped cs]
      rfl
    · obtain ⟨hq, he⟩ := not_or.mp hc
      rw [escaped, if_neg hc, unescape.eq_def]
      simp only [if_neg hq, if_neg he, unescape_escaped cs]
      rfl

/-- A quoted text is read without its quotes. -/
@[simp] theorem readQuotable_quoted (cs : List Char) : readQuotable (quoted cs) = .ok cs := by
  rw [quoted, readQuotable, if_pos rfl, unquote, if_pos (by simp), List.dropLast_concat,
    unescape_escaped]

/-- A text without quotes is read as it is. -/
theorem readQuotable_of_token {cs : List Char} (hq : cs.head? ≠ some quote) (hs : space ∉ cs) :
    readQuotable cs = .ok cs := by
  cases cs with
  | nil => rfl
  | cons c cs => rw [readQuotable, if_neg fun h => hq (congrArg some h), if_neg hs]

end Phrase

/-! ## Cutting off -/

namespace Span

/-- Nothing follows, or a space does. -/
def Ends (tail : List Char) : Prop :=
  ∀ c ∈ tail.head?, c = space

/-- A text without spaces is cut off whole, where it ends. -/
theorem cutToken_append {cs tail : List Char} (hs : space ∉ cs) (htail : Ends tail) :
    cutToken (cs ++ tail) = (cs, tail) := by
  have hcs : ∀ c ∈ cs, decide (c ≠ space) = true := fun c hc =>
    decide_eq_true fun h => hs (h ▸ hc)
  have stop : tail.takeWhile (· ≠ space) = [] ∧ tail.dropWhile (· ≠ space) = tail := by
    cases tail with
    | nil => exact ⟨rfl, rfl⟩
    | cons c tail => simp [htail c rfl]
  rw [cutToken, List.takeWhile_append_of_pos hcs, List.dropWhile_append_of_pos hcs, stop.1, stop.2,
    List.append_nil]

/-- No escaped quote ends a phrase, so it is cut off at the closing one. -/
theorem cutPhrase_escaped (tail : List Char) :
    ∀ cs : List Char, cutPhrase false (Phrase.escaped cs ++ quote :: tail) =
      (Phrase.escaped cs ++ [quote], tail)
  | [] => by simp
  | c :: cs => by
    have ih := cutPhrase_escaped tail cs
    by_cases hc : c = quote ∨ c = escape
    · have hne : escape ≠ quote := by decide
      simp [hc, hne, ih]
    · obtain ⟨hq, he⟩ := not_or.mp hc
      simp [hq, he, ih]

/-- A phrase in quotes is cut off at its closing quote, whatever follows. -/
theorem cut_quoted (cs tail : List Char) :
    quoted.cut (Phrase.quoted cs ++ tail) = (Phrase.quoted cs, tail) := by
  rw [Phrase.quoted, List.cons_append, cut, if_pos rfl, List.append_assoc, List.singleton_append,
    cutPhrase_escaped]

/-- Where no quote opens, a token is cut off. -/
theorem cut_quoted_of_token {cs tail : List Char} (hne : cs ≠ []) (hq : cs.head? ≠ some quote)
    (hs : space ∉ cs) (htail : Ends tail) : quoted.cut (cs ++ tail) = (cs, tail) := by
  cases cs with
  | nil => exact absurd rfl hne
  | cons c cs =>
    rw [List.cons_append, cut, if_neg fun h => hq (congrArg some h), ← List.cons_append,
      cutToken_append hs htail]

end Span

end CommandGrammar
