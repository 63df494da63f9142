import CommandGrammar.Proofs.Argument.Hint
import Mathlib.Data.List.Induction

/-!
# Bounds of numbers

The bounds of a number are set one call after another, each call replacing one of them or both, and
are there in three forms: as fields, as bytes that a client is told, and as comparisons with what is
read. The three agree after any calls (`Number.enforces_of_setAll`): the bounds in force are those
set last, some integer keeps to them, a client reads just these, and of the numerals of an integer
(`Decimal.Numeral`), those are read whose value keeps to them.
-/

namespace CommandGrammar

/-! ## Numerals -/

namespace Decimal

/-- One or more ASCII digits. -/
def AreDigits (cs : List Char) : Prop :=
  cs ≠ [] ∧ ∀ c ∈ cs, c.isDigit

/-- Digits after an optional sign, and their value. -/
inductive Numeral : List Char → Int → Prop
  | plain {cs : List Char} : AreDigits cs → Numeral cs (Nat.ofDigitChars 10 cs 0)
  | plus {cs : List Char} : AreDigits cs → Numeral ('+' :: cs) (Nat.ofDigitChars 10 cs 0)
  | minus {cs : List Char} : AreDigits cs → Numeral ('-' :: cs) (-Nat.ofDigitChars 10 cs 0)

theorem isDigit_of_digit? {c : Char} {n : Nat} (h : digit? c = some n) : c.isDigit := by
  unfold digit? at h
  split at h
  · next hc => simpa [Char.isDigit, Char.le_def] using hc
  · cases h

theorem isDigit_of_digitsFrom {cs : List Char} {n m : Nat} (h : digitsFrom n cs = some m) :
    ∀ c ∈ cs, c.isDigit := by
  induction cs generalizing n with
  | nil => exact List.forall_mem_nil _
  | cons c cs ih =>
    rw [digitsFrom, Option.bind_eq_bind, Option.bind_eq_some_iff] at h
    obtain ⟨d, hd, h⟩ := h
    exact List.forall_mem_cons.mpr ⟨isDigit_of_digit? hd, ih h⟩

/-- Natural numbers are read from digits only, and from all of them. -/
@[simp] theorem natural?_eq_some {cs : List Char} {n : Nat} :
    natural? cs = some n ↔ AreDigits cs ∧ n = Nat.ofDigitChars 10 cs 0 := by
  cases cs with
  | nil => simp [natural?, AreDigits]
  | cons c cs =>
    rw [natural?]
    constructor
    · intro h
      have hdigits := isDigit_of_digitsFrom h
      rw [digitsFrom_of_isDigit hdigits] at h
      exact ⟨⟨List.cons_ne_nil c cs, hdigits⟩, (Option.some.inj h).symm⟩
    · rintro ⟨⟨-, hdigits⟩, rfl⟩
      exact digitsFrom_of_isDigit hdigits

/-- Integers are read from numerals only, and all numerals are read. -/
theorem integer?_eq_some {cs : List Char} {n : Int} : integer? cs = some n ↔ Numeral cs n := by
  constructor
  · intro h
    unfold integer? at h
    split at h
    all_goals
      obtain ⟨m, hm, rfl⟩ := Option.map_eq_some_iff.mp h
      obtain ⟨k, hk, hkm⟩ := Option.bind_eq_some_iff.mp hm
      obtain rfl := Option.some.inj hkm
      obtain ⟨hdigits, rfl⟩ := natural?_eq_some.mp hk
    · exact .minus hdigits
    · exact .plus hdigits
    · exact .plain hdigits
  · rintro (hdigits | hdigits | hdigits)
    · have hn := natural?_eq_some.mpr ⟨hdigits, rfl⟩
      cases cs with
      | nil => exact absurd rfl hdigits.1
      | cons c cs => rw [integer?_of_isDigit (hdigits.2 c List.mem_cons_self), hn]; rfl
    · rw [integer?, natural?_eq_some.mpr ⟨hdigits, rfl⟩]; rfl
    · rw [integer?, natural?_eq_some.mpr ⟨hdigits, rfl⟩]; rfl

theorem int32?_eq_some {n : Int} {v : Int32} : int32? n = some v ↔ v.toInt = n := by
  unfold int32?
  constructor
  · intro h
    split at h
    · next hn =>
      obtain rfl := Option.some.inj h
      exact Int32.toInt_ofInt_of_le hn.1 hn.2
    · cases h
  · rintro rfl
    have hlow := v.le_toInt
    have hhigh := v.toInt_lt
    rw [if_pos (by omega), Int32.ofInt_toInt]

/-- The texts that are read are the numerals of an integer that fits. -/
theorem read?_eq_some {s : String} {v : Int32} : read? s = some v ↔ Numeral s.toList v.toInt := by
  rw [read?, Option.bind_eq_bind, Option.bind_eq_some_iff]
  simp only [integer?_eq_some, int32?_eq_some]
  constructor
  · rintro ⟨n, hn, rfl⟩
    exact hn
  · exact fun h => ⟨_, h, rfl⟩

end Decimal

/-! ## Ranges -/

/-- The integer keeps to the bounds, either of which may be absent. -/
def KeepsTo (min max : Option Int32) (v : Int32) : Prop :=
  (∀ low ∈ min, low ≤ v) ∧ ∀ high ∈ max, v ≤ high

/-- Some integer keeps to the bounds if the lower one is not above the upper one. -/
theorem exists_keepsTo_iff {min max : Option Int32} :
    (∃ v, KeepsTo min max v) ↔ ∀ low ∈ min, ∀ high ∈ max, low ≤ high := by
  constructor
  · rintro ⟨v, hmin, hmax⟩ low hlow high hhigh
    exact Int32.le_trans (hmin low hlow) (hmax high hhigh)
  · intro h
    cases min with
    | some low => exact ⟨low, by simp, by simpa using h low rfl⟩
    | none =>
      cases max with
      | some high => exact ⟨high, by simp, by simp⟩
      | none => exact ⟨0, by simp, by simp⟩

namespace Bounds

theorem ordered_none :
    ∀ low ∈ (none : Option Int32), ∀ high ∈ (none : Option Int32), low ≤ high :=
  fun _ h => absurd h (Option.not_mem_none _)

@[simp] theorem of_eq_ok {id : String} {min max : Option Int32} {b : Bounds} :
    of id min max = .ok b ↔ b.min = min ∧ b.max = max := by
  constructor
  · intro h
    unfold of at h
    split at h
    · split at h
      · obtain rfl := Except.ok.inj h
        exact ⟨rfl, rfl⟩
      · cases h
    all_goals
      obtain rfl := Except.ok.inj h
      exact ⟨rfl, rfl⟩
  · obtain ⟨min, max, ordered⟩ := b
    rintro ⟨rfl, rfl⟩
    cases min with
    | none => cases max <;> rfl
    | some low =>
      cases max with
      | none => rfl
      | some high => exact dif_pos (ordered low rfl high rfl)

theorem of_eq_error {id : String} {min max : Option Int32} {fault : Misconfiguration} :
    of id min max = .error fault ↔
      ∃ low ∈ min, ∃ high ∈ max, high < low ∧ fault = .emptyRange id low high := by
  cases min with
  | none => cases max <;> simp [of]
  | some low =>
    cases max with
    | none => simp [of]
    | some high =>
      by_cases h : low ≤ high
      · simp [of, h, Int32.not_lt.mpr h]
      · simp [of, h, Int32.not_le.mp h, eq_comm]

/-- What passes keeps to the bounds, and is not changed. -/
theorem keepsTo_of_check {b : Bounds} {v w : Int32} (h : b.check v = .ok w) :
    w = v ∧ KeepsTo b.min b.max v := by
  unfold check at h
  split at h
  · cases h
  · cases h
  · next hmin hmax =>
    refine ⟨(Except.ok.inj h).symm, fun low hlow => ?_, fun high hhigh => ?_⟩
    · simpa using Option.filter_eq_none_iff.mp hmin low hlow
    · simpa using Option.filter_eq_none_iff.mp hmax high hhigh

theorem check_of_lt {b : Bounds} {low v : Int32} (hlow : low ∈ b.min) (h : v < low) :
    b.check v = .error (.tooLow low) := by
  have hsome : b.min.filter (v < ·) = some low :=
    Option.filter_eq_some_iff.mpr ⟨hlow, by simpa using h⟩
  rw [check, hsome]

/-- What is above the upper bound is not below the lower one. -/
theorem check_of_gt {b : Bounds} {high v : Int32} (hhigh : high ∈ b.max) (h : high < v) :
    b.check v = .error (.tooHigh high) := by
  have hnone : b.min.filter (v < ·) = none := by
    refine Option.filter_eq_none_iff.mpr fun low hlow => ?_
    have hle : low ≤ v := Int32.le_of_lt (Int32.lt_of_le_of_lt (b.ordered low hlow high hhigh) h)
    simpa using hle
  have hsome : b.max.filter (· < v) = some high :=
    Option.filter_eq_some_iff.mpr ⟨hhigh, by simpa using h⟩
  rw [check, hnone, hsome]

end Bounds

/-! ## Calls that set bounds -/

namespace Number

/-- A number without bounds. -/
def unbounded (id : String) : Number :=
  { id, bounds := { ordered := Bounds.ordered_none } }

/-- A call that sets bounds. -/
inductive Setting
  | between (low high : Int32)
  | atLeast (low : Int32)
  | atMost (high : Int32)

/-- The lower bound that is set. -/
def Setting.low? : Setting → Option Int32
  | between low _ | atLeast low => some low
  | atMost _ => none

/-- The upper bound that is set. -/
def Setting.high? : Setting → Option Int32
  | between _ high | atMost high => some high
  | atLeast _ => none

/-- The number after a call. -/
def set (n : Number) : Setting → Except Misconfiguration Number
  | .between low high => n.between low high
  | .atLeast low => n.atLeast low
  | .atMost high => n.atMost high

/-- The number after calls, unless one of them fails. -/
def setAll (n : Number) (ss : List Setting) : Except Misconfiguration Number :=
  ss.foldlM set n

/-- The lower bound that was set last. -/
def lastLow (ss : List Setting) : Option Int32 :=
  (ss.filterMap Setting.low?).getLast?

/-- The upper bound that was set last. -/
def lastHigh (ss : List Setting) : Option Int32 :=
  (ss.filterMap Setting.high?).getLast?

/-- A call replaces the bounds that it names, and leaves the others. -/
theorem set_eq (n : Number) (s : Setting) :
    n.set s = (fun b => { n with bounds := b }) <$>
      Bounds.of n.id (s.low?.or n.bounds.min) (s.high?.or n.bounds.max) := by
  cases s <;> rfl

/-- A call fails for the bounds that would be in force after it. -/
theorem set_eq_error {n : Number} {s : Setting} {fault : Misconfiguration} :
    n.set s = .error fault ↔ ∃ low ∈ s.low?.or n.bounds.min, ∃ high ∈ s.high?.or n.bounds.max,
      high < low ∧ fault = .emptyRange n.id low high := by
  simp [set_eq, Bounds.of_eq_error]

/-- A call fails exactly if it would leave no integer that keeps to the bounds. -/
theorem exists_set_error_iff {n : Number} {s : Setting} : (∃ fault, n.set s = .error fault) ↔
    ¬∃ v, KeepsTo (s.low?.or n.bounds.min) (s.high?.or n.bounds.max) v := by
  simp only [set_eq_error, exists_keepsTo_iff]
  constructor
  · rintro ⟨_, low, hlow, high, hhigh, hlt, -⟩ hle
    exact Int32.not_le.mpr hlt (hle low hlow high hhigh)
  · intro hle
    simp only [not_forall, Int32.not_le] at hle
    obtain ⟨low, hlow, high, hhigh, hlt⟩ := hle
    exact ⟨_, low, hlow, high, hhigh, hlt, rfl⟩

/-- The call made last decides, if it sets the lower bound. -/
@[simp] theorem lastLow_concat (ss : List Setting) (s : Setting) :
    lastLow (ss ++ [s]) = s.low?.or (lastLow ss) := by
  cases h : s.low? <;> simp [lastLow, h]

@[simp] theorem lastHigh_concat (ss : List Setting) (s : Setting) :
    lastHigh (ss ++ [s]) = s.high?.or (lastHigh ss) := by
  cases h : s.high? <;> simp [lastHigh, h]

/-- After calls, the bounds are those that were set last. -/
theorem bounds_of_setAll {id : String} {ss : List Setting} {n : Number}
    (h : setAll (unbounded id) ss = .ok n) :
    n.id = id ∧ n.bounds.min = lastLow ss ∧ n.bounds.max = lastHigh ss := by
  induction ss using List.reverseRecOn generalizing n with
  | nil =>
    obtain rfl := Except.ok.inj h
    exact ⟨rfl, rfl, rfl⟩
  | append_singleton ss s ih =>
    rw [setAll, List.foldlM_append, Except.bind_eq_ok] at h
    obtain ⟨n₁, h₁, h⟩ := h
    obtain ⟨rfl, hmin, hmax⟩ := ih h₁
    rw [List.foldlM_cons, Except.bind_eq_ok] at h
    obtain ⟨n₂, h₂, h⟩ := h
    obtain rfl := Except.ok.inj h
    rw [set_eq, Except.map_eq_ok] at h₂
    obtain ⟨b, hb, rfl⟩ := h₂
    rw [lastLow_concat, lastHigh_concat, ← hmin, ← hmax]
    exact ⟨rfl, Bounds.of_eq_ok.mp hb⟩

/-! ## Bounds in force -/

/-- These bounds are the ones that are kept, told to a client, and compared with what is read. -/
structure Enforces (n : Number) (min max : Option Int32) : Prop where
  kept : n.bounds.min = min ∧ n.bounds.max = max
  satisfiable : ∃ v, KeepsTo min max v
  /-- One node, with properties that are the flags and the bounds and nothing else. -/
  declared : ∀ executable, ∃ hint,
    (Argument.number n).contributions executable = [.argument n.id hint executable] ∧
      hint.identifier = Hint.integerParser ∧ Hint.readBounds hint.properties = .ok (min, max) [] ∧
        ∀ flags ∈ hint.properties.head?, flags.toNat < 4
  accepts : ∀ text value, (Argument.number n).read text = .ok value ↔
    ∃ v, value = .integer v ∧ Decimal.Numeral text.toList v.toInt ∧ KeepsTo min max v
  tooLow : ∀ {text v low}, Decimal.Numeral text.toList v.toInt → low ∈ min → v < low →
    ∃ r, (Argument.number n).read text = .error r ∧ r.reason = .tooLow low ∧ r.is .integer 2
  tooHigh : ∀ {text v high}, Decimal.Numeral text.toList v.toInt → high ∈ max → high < v →
    ∃ r, (Argument.number n).read text = .error r ∧ r.reason = .tooHigh high ∧ r.is .integer 3
  notNumber : ∀ {text}, (¬∃ v : Int32, Decimal.Numeral text.toList v.toInt) →
    ∃ r, (Argument.number n).read text = .error r ∧ r.reason = .notNumber ∧ r.is .integer 1

variable {n : Number} {text : String}

/-- A numeral is read as its value, which is then compared with the bounds. -/
theorem read_of_numeral {v : Int32} (h : Decimal.Numeral text.toList v.toInt) :
    n.read text = n.bounds.check v := by
  rw [read, Decimal.read?_eq_some.mpr h]

/-- What is no numeral of 32 bits is no number. -/
theorem read_of_not_numeral (h : ¬∃ v : Int32, Decimal.Numeral text.toList v.toInt) :
    n.read text = .error .notNumber := by
  have hnone : Decimal.read? text = none :=
    Option.eq_none_iff_forall_ne_some.mpr fun v hv => h ⟨v, Decimal.read?_eq_some.mp hv⟩
  rw [read, hnone]

theorem argument_read_of_error {reason : Reason} (h : n.read text = .error reason) :
    (Argument.number n).read text = .error ⟨reason, text⟩ := by
  rw [Argument.read_eq_error, Argument.value, Except.map_eq_error]
  exact ⟨h, rfl⟩

/-- The numerals that are read are those whose value keeps to the bounds. -/
theorem read_eq_ok {value : Value} : (Argument.number n).read text = .ok value ↔
    ∃ v, value = .integer v ∧ Decimal.Numeral text.toList v.toInt ∧
      KeepsTo n.bounds.min n.bounds.max v := by
  constructor
  · intro h
    obtain ⟨v, hread, rfl⟩ := Except.map_eq_ok.mp (Argument.value_of_read h)
    by_cases hnumeral : ∃ w : Int32, Decimal.Numeral text.toList w.toInt
    · obtain ⟨w, hw⟩ := hnumeral
      rw [read_of_numeral hw] at hread
      obtain ⟨rfl, hkeeps⟩ := Bounds.keepsTo_of_check hread
      exact ⟨v, rfl, hw, hkeeps⟩
    · rw [read_of_not_numeral hnumeral] at hread
      cases hread
  · rintro ⟨v, rfl, hv, hkeeps⟩
    refine Argument.read_of_value ?_
    rw [Argument.value, read_of_numeral hv, Bounds.check_eq_ok hkeeps.1 hkeeps.2]
    rfl

/-- A number enforces the bounds it has as fields. -/
theorem enforces_bounds (n : Number) : n.Enforces n.bounds.min n.bounds.max where
  kept := ⟨rfl, rfl⟩
  satisfiable := exists_keepsTo_iff.mpr n.bounds.ordered
  declared executable := by
    refine ⟨n.hint, rfl, rfl, Hint.readBounds_properties .., fun flags hflags => ?_⟩
    obtain rfl := Option.some.inj hflags
    cases n.bounds.min.isSome <;> cases n.bounds.max.isSome <;> decide
  accepts _ _ := read_eq_ok
  tooLow hnumeral hlow h := by
    have hread := (read_of_numeral hnumeral).trans (Bounds.check_of_lt hlow h)
    exact ⟨_, argument_read_of_error hread, rfl, rfl⟩
  tooHigh hnumeral hhigh h := by
    have hread := (read_of_numeral hnumeral).trans (Bounds.check_of_gt hhigh h)
    exact ⟨_, argument_read_of_error hread, rfl, rfl⟩
  notNumber h := ⟨_, argument_read_of_error (read_of_not_numeral h), rfl, rfl⟩

/-- After calls that succeed, the bounds in force are those that were set last. Some integer keeps
to them, and one more call fails exactly if none would. The node that declares the number tells
them, and a text is read exactly if it is a numeral of an integer that keeps to them; so every such
integer, written out, is read back. -/
theorem enforces_of_setAll {id : String} {ss : List Setting} {n : Number}
    (h : setAll (unbounded id) ss = .ok n) :
    n.Enforces (lastLow ss) (lastHigh ss) ∧
    (∀ s, ((∃ fault, n.set s = .error fault) ↔
        ¬∃ v, KeepsTo (lastLow (ss ++ [s])) (lastHigh (ss ++ [s])) v) ∧
      ∀ fault, n.set s = .error fault → ∃ low ∈ lastLow (ss ++ [s]),
        ∃ high ∈ lastHigh (ss ++ [s]), fault = .emptyRange id low high) ∧
    ∀ v, KeepsTo (lastLow ss) (lastHigh ss) v →
      (Argument.number n).read (Value.integer v).render = .ok (.integer v) := by
  obtain ⟨rfl, hmin, hmax⟩ := bounds_of_setAll h
  have henforces := n.enforces_bounds
  rw [hmin, hmax] at henforces
  refine ⟨henforces, fun s => ?_, fun v hv => ?_⟩
  · rw [lastLow_concat, lastHigh_concat, ← hmin, ← hmax]
    refine ⟨exists_set_error_iff, fun fault hfault => ?_⟩
    obtain ⟨low, hlow, high, hhigh, -, rfl⟩ := set_eq_error.mp hfault
    exact ⟨low, hlow, high, hhigh, rfl⟩
  · exact (henforces.accepts _ _).mpr
      ⟨v, rfl, Decimal.integer?_eq_some.mp (Decimal.integer?_write v.toInt), hv⟩

/-- The second call moves the lower bound up to the upper one, and a call that went past it would
fail. A numeral is read with its sign and its zeros, and not if it does not fit. -/
theorem enforces_levels : ∃ n, setAll (unbounded "levels") [.between (-5) 7, .atLeast 7] = .ok n ∧
    n.Enforces (some 7) (some 7) ∧
    (Argument.number n).read "+007" = .ok (.integer 7) ∧
    (∃ r, (Argument.number n).read "-5" = .error r ∧ r.reason = .tooLow 7 ∧ r.is .integer 2) ∧
    (∃ r, (Argument.number n).read "2147483648" = .error r ∧ r.reason = .notNumber ∧
      r.is .integer 1) ∧
    ∃ fault, n.set (.atLeast 8) = .error fault := by
  obtain ⟨n, hset⟩ :
      ∃ n, setAll (unbounded "levels") [.between (-5) 7, .atLeast 7] = .ok n := ⟨_, rfl⟩
  obtain ⟨henforces, hcall, -⟩ := enforces_of_setAll hset
  have hplus : Decimal.Numeral "+007".toList (7 : Int32).toInt :=
    Decimal.read?_eq_some.mp (by decide)
  have hminus : Decimal.Numeral "-5".toList (-5 : Int32).toInt :=
    Decimal.read?_eq_some.mp (by decide)
  have hnone : ¬∃ v : Int32, Decimal.Numeral "2147483648".toList v.toInt := by
    rintro ⟨v, hv⟩
    have hread : Decimal.read? "2147483648" = none := by decide
    exact absurd (hread.symm.trans (Decimal.read?_eq_some.mpr hv)) (Option.some_ne_none v).symm
  refine ⟨n, hset, henforces, ?_, ?_, henforces.notNumber hnone, ?_⟩
  · refine (henforces.accepts _ _).mpr ⟨7, rfl, hplus, fun low hlow => ?_, fun high hhigh => ?_⟩
    · exact Option.some.inj hlow ▸ Int32.le_refl 7
    · exact Option.some.inj hhigh ▸ Int32.le_refl 7
  · exact henforces.tooLow hminus rfl (by decide)
  · refine (hcall (.atLeast 8)).1.mpr fun hkeeps => ?_
    exact absurd (exists_keepsTo_iff.mp hkeeps 8 rfl 7 rfl) (by decide)

end Number

end CommandGrammar
