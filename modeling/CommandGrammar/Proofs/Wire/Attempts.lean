import CommandGrammar.Proofs.Wire.VarInt

/-!
# Reading on after failures

A field that cannot be read leaves the reader somewhere, and the next field is tried from there
(`Item.attempts`). How much a failed reading takes depends on the kind of field
(`Item.Kind.Fails`) : nothing if it only asks for bytes that are not there, all bytes of an integer
or of a length that is read in vain, and also the body of a text that is no UTF-8. It is never more
than there is, so the reader goes forward within the bytes whatever is tried
(`Item.exists_positions`), and what it reads does not depend on what comes later
(`Item.attempts_advance_and_fail_exactly`).
-/

namespace CommandGrammar.Item

open Reading CommandGrammar.EStateM

/-- Tries fields of these kinds one after another, each from where the one before it left the bytes,
whatever came of it. -/
@[simp] def attempts : List Kind → List UInt8 → List (EStateM.Result Malformed (List UInt8) Item)
  | [], _ => []
  | k :: ks, left => k.read left :: attempts ks (Result.state (k.read left))

/-- So many of the bytes lie before those that are left. -/
def StandsAt (bytes : List UInt8) (position : Nat) (left : List UInt8) : Prop :=
  position ≤ bytes.length ∧ left = bytes.drop position

namespace Kind

/-- What a reading that fails takes and leaves, and why it fails. -/
inductive Fails : Kind → (taken left : List UInt8) → Malformed → Prop
  | byte : Fails .byte [] [] .endOfInput
  | int32 {left : List UInt8} : left.length < 4 → Fails .int32 [] left .endOfInput
  | bytes {count : Nat} {left : List UInt8} : left.length < count →
      Fails (.bytes count) [] left .endOfInput
  /-- All bytes have their high bit set, and there are five, or nothing is left. -/
  | varInt {taken left : List UInt8} : taken.length = min 5 (taken ++ left).length →
      (∀ b ∈ taken, 128 ≤ b.toNat) →
      Fails .varInt taken left (if taken.length < 5 then .endOfInput else .varIntTooLong)
  | length {taken left : List UInt8} {e : Malformed} : Fails .varInt taken left e →
      Fails .length taken left e
  | negative {taken left : List UInt8} {v : Int32} : Reads Reading.varInt taken v → v < 0 →
      Fails .length taken left (.negativeLength v)
  | text {taken left : List UInt8} {e : Malformed} : Fails .length taken left e →
      Fails .text taken left e
  /-- The body is shorter than the length before it says. -/
  | body {size left : List UInt8} {count : Nat} : Reads Reading.length size count →
      left.length < count → Fails .text size left .endOfInput
  | notUtf8 {size body left : List UInt8} {fault : Utf8.Fault} :
      Reads Reading.length size body.length → Utf8.decode body = .error fault →
      Fails .text (size ++ body) left (.notUtf8 fault)

variable {left left' : List UInt8} {e : Malformed}

/-- Bytes are refused if there are too few, and then none is taken. -/
theorem bytes_eq_error {n : Nat} :
    Reading.bytes n left = .error e left' ↔ left.length < n ∧ e = .endOfInput ∧ left = left' := by
  rw [Reading.bytes]
  split
  · next h => simp [Nat.not_lt.mpr h]
  · next h => simp [Nat.lt_of_not_le h, eq_comm]

/-- A number fails after the bytes that it had to look at. -/
theorem fails_varInt_iff :
    Reading.varInt left = .error e left' ↔ ∃ taken, left = taken ++ left' ∧
      Fails .varInt taken left' e := by
  rw [varInt_eq_error]
  constructor
  · rintro ⟨hall, rfl, rfl⟩
    have hlength : (left.take 5).length = min 5 left.length := List.length_take
    have hlt : left.length < 5 ↔ (left.take 5).length < 5 := by omega
    refine ⟨left.take 5, (List.take_append_drop 5 left).symm, ?_⟩
    simp only [hlt]
    exact .varInt (by rw [List.take_append_drop, hlength]) hall
  · rintro ⟨taken, rfl, h⟩
    cases h with
    | varInt hlength hall =>
      rw [List.length_append] at hlength
      rcases Nat.lt_or_ge taken.length 5 with hlt | hge
      · obtain rfl : left' = [] := List.eq_nil_of_length_eq_zero (by omega)
        rw [List.append_nil, List.take_of_length_le (by omega), List.drop_of_length_le (by omega)]
        exact ⟨hall, rfl, rfl⟩
      · have hfive : taken.length = 5 := by omega
        rw [List.take_left' hfive, List.drop_left' hfive, if_neg (by omega),
          if_neg (by rw [List.length_append]; omega)]
        exact ⟨hall, rfl, rfl⟩

/-- A length fails as a number, or if it is negative. -/
theorem fails_length_iff :
    Reading.length left = .error e left' ↔ ∃ taken, left = taken ++ left' ∧
      Fails .length taken left' e := by
  rw [Reading.length, bind_eq_error, fails_varInt_iff]
  simp only [isLocal_varInt.eq_ok_iff]
  constructor
  · rintro (⟨taken, rfl, h⟩ | ⟨v, rest, ⟨taken, rfl, hv⟩, h⟩)
    · exact ⟨taken, rfl, .length h⟩
    · split at h
      · next hneg =>
        obtain ⟨rfl, rfl⟩ := EStateM.Result.error.inj h
        exact ⟨taken, rfl, .negative hv hneg⟩
      · cases h
  · rintro ⟨taken, rfl, h⟩
    cases h with
    | length h => exact .inl ⟨taken, rfl, h⟩
    | negative hv hneg => exact .inr ⟨_, left', ⟨taken, rfl, hv⟩, by rw [if_pos hneg]; rfl⟩

/-- A text fails at its length, for want of bytes, or if it is not UTF-8. -/
theorem fails_text_iff :
    Reading.text left = .error e left' ↔ ∃ taken, left = taken ++ left' ∧
      Fails .text taken left' e := by
  rw [Reading.text, bind_eq_error, fails_length_iff]
  simp only [bind_eq_error, isLocal_length.eq_ok_iff, (isLocal_bytes _).eq_ok_iff, reads_bytes_iff,
    bytes_eq_error]
  constructor
  · rintro (⟨taken, rfl, h⟩ | ⟨n, rest, ⟨size, rfl, hn⟩, ⟨hlt, rfl, rfl⟩ |
      ⟨_, rest', ⟨body, rfl, rfl, rfl⟩, h⟩⟩)
    · exact ⟨taken, rfl, .text h⟩
    · exact ⟨size, rfl, .body hn hlt⟩
    · cases hdecode : Utf8.decode body with
      | ok s =>
        rw [hdecode] at h
        cases h
      | error fault =>
        rw [hdecode] at h
        obtain ⟨rfl, rfl⟩ := EStateM.Result.error.inj h
        exact ⟨size ++ body, (List.append_assoc ..).symm, .notUtf8 hn hdecode⟩
  · rintro ⟨taken, rfl, h⟩
    cases h with
    | text h => exact .inl ⟨taken, rfl, h⟩
    | body hn hlt => exact .inr ⟨_, left', ⟨taken, rfl, hn⟩, .inl ⟨hlt, rfl, rfl⟩⟩
    | @notUtf8 size body _ fault hn hfault =>
      refine .inr ⟨_, body ++ left', ⟨size, List.append_assoc .., hn⟩,
        .inr ⟨body, left', ⟨body, rfl, rfl, rfl⟩, ?_⟩⟩
      rw [hfault]
      rfl

/-- A field cannot be read exactly if its reading fails in one of these ways. -/
theorem read_eq_error_iff {k : Kind} :
    k.read left = .error e left' ↔ ∃ taken, left = taken ++ left' ∧ k.Fails taken left' e := by
  cases k with
  | byte =>
    rw [read, map_eq_error]
    constructor
    · intro h
      cases left with
      | nil =>
        obtain ⟨rfl, rfl⟩ := EStateM.Result.error.inj h
        exact ⟨[], rfl, .byte⟩
      | cons b left => cases h
    · rintro ⟨taken, rfl, h⟩
      cases h
      rfl
  | int32 =>
    rw [read, map_eq_error, Reading.int32, bind_eq_error, bytes_eq_error]
    constructor
    · rintro (⟨hlt, rfl, rfl⟩ | ⟨_, _, -, h⟩)
      · exact ⟨[], rfl, .int32 hlt⟩
      · cases h
    · rintro ⟨taken, rfl, h⟩
      cases h with
      | int32 hlt => exact .inl ⟨hlt, rfl, rfl⟩
  | varInt => simp [read, fails_varInt_iff]
  | length => simp [read, fails_length_iff]
  | text => simp [read, fails_text_iff]
  | bytes count =>
    rw [read, map_eq_error, bytes_eq_error]
    constructor
    · rintro ⟨hlt, rfl, rfl⟩
      exact ⟨[], rfl, .bytes hlt⟩
    · rintro ⟨taken, rfl, h⟩
      cases h with
      | bytes hlt => exact ⟨hlt, rfl, rfl⟩

theorem isLocal_read : ∀ k : Kind, IsLocal k.read
  | .byte => isLocal_byte.map _
  | .int32 => isLocal_int32.map _
  | .varInt => isLocal_varInt.map _
  | .length => isLocal_length.map _
  | .text => isLocal_text.map _
  | .bytes count => (isLocal_bytes count).map _

/-- Whatever comes of it, a reading takes bytes from the front. -/
theorem exists_taken (k : Kind) (left : List UInt8) :
    ∃ taken, left = taken ++ Result.state (k.read left) := by
  cases h : k.read left with
  | ok i left' =>
    obtain ⟨taken, htaken, -⟩ := (isLocal_read k).eq_ok_iff.mp h
    exact ⟨taken, htaken⟩
  | error e left' =>
    obtain ⟨taken, htaken, -⟩ := read_eq_error_iff.mp h
    exact ⟨taken, htaken⟩

end Kind

/-- After a reading the reader stands further on, or where it stood. -/
theorem StandsAt.exists_read {bytes left : List UInt8} {p : Nat} (h : StandsAt bytes p left)
    (k : Kind) : ∃ q, p ≤ q ∧ StandsAt bytes q (Result.state (k.read left)) := by
  obtain ⟨taken, htaken⟩ := k.exists_taken left
  obtain ⟨hp, hleft⟩ := h
  have hlength := congrArg List.length htaken
  rw [hleft, List.length_drop, List.length_append] at hlength
  refine ⟨p + taken.length, Nat.le_add_right .., by omega, ?_⟩
  rw [← List.drop_drop, ← hleft]
  exact (List.drop_left' rfl ▸ congrArg (List.drop taken.length) htaken).symm

/-- After each of several readings the reader stands somewhere in the bytes, and never before where
it stood. -/
theorem exists_positions {bytes : List UInt8} : ∀ {ks : List Kind} {left : List UInt8} {p : Nat},
    StandsAt bytes p left → ∃ ps, List.Forall₂ (StandsAt bytes) ps ((attempts ks left).map
      Result.state) ∧ (p :: ps).Pairwise (· ≤ ·)
  | [], _, _, _ => ⟨[], .nil, List.pairwise_singleton _ _⟩
  | k :: ks, left, p, h => by
    obtain ⟨q, hpq, hq⟩ := h.exists_read k
    obtain ⟨ps, hps, hmono⟩ := exists_positions hq
    refine ⟨q :: ps, .cons hq hps, List.pairwise_cons.mpr ⟨fun x hx => ?_, hmono⟩⟩
    rcases List.mem_cons.mp hx with rfl | hx
    · exact hpq
    · exact Nat.le_trans hpq ((List.pairwise_cons.mp hmono).1 x hx)

/-- Whatever fields are tried, the reader goes forward within the bytes. A reading fails exactly in
the ways that there are for its kind of field, and then takes no more and no less than is said
there. One that does not fail has the same result, and takes the same bytes, whatever follows
them. -/
theorem attempts_advance_and_fail_exactly (bytes : List UInt8) (ks : List Kind) :
    (∃ positions, List.Forall₂ (StandsAt bytes) positions ((attempts ks bytes).map Result.state) ∧
      (0 :: positions).Pairwise (· ≤ ·)) ∧
    (∀ (k : Kind) (left left' : List UInt8) (e : Malformed), k.read left = .error e left' ↔
      ∃ taken, left = taken ++ left' ∧ k.Fails taken left' e) ∧
    ∀ (k : Kind) (left left' : List UInt8) (i : Item), k.read left = .ok i left' →
      ∃ taken, left = taken ++ left' ∧ ∀ more, k.read (taken ++ more) = .ok i more := by
  refine ⟨exists_positions ⟨Nat.zero_le _, rfl⟩, fun k left left' e => Kind.read_eq_error_iff,
    fun k left left' i h => ?_⟩
  obtain ⟨taken, hleft, hreads⟩ := k.isLocal_read.eq_ok_iff.mp h
  exact ⟨taken, hleft, hreads⟩

/-- A text that is no UTF-8, more bytes than there are anywhere, an integer that is cut short, and
nothing after it. The first length is read whatever follows. -/
theorem attempts_advance_spoilt :
    attempts [.text, .bytes 18446744073709551615, .varInt, .byte] [0x02, 0xFF, 0xFF, 0x80] =
        [.error (.notUtf8 (.illFormed 1 0)) [0x80], .error .endOfInput [0x80],
          .error .endOfInput [], .error .endOfInput []] ∧
      (∃ positions, List.Forall₂ (StandsAt [0x02, 0xFF, 0xFF, 0x80]) positions
        [[0x80], [0x80], [], []] ∧ (0 :: positions).Pairwise (· ≤ ·)) ∧
      Kind.length.read [0x02, 0xFF, 0xFF, 0x80] = .ok (.length 2) [0xFF, 0xFF, 0x80] ∧
      ∃ taken, [0x02, 0xFF, 0xFF, 0x80] = taken ++ [0xFF, 0xFF, 0x80] ∧
        ∀ more, Kind.length.read (taken ++ more) = .ok (.length 2) more := by
  obtain ⟨positions, -, reads⟩ := attempts_advance_and_fail_exactly [0x02, 0xFF, 0xFF, 0x80]
    [.text, .bytes 18446744073709551615, .varInt, .byte]
  have hread : Kind.length.read [0x02, 0xFF, 0xFF, 0x80] = .ok (.length 2) [0xFF, 0xFF, 0x80] := rfl
  exact ⟨rfl, positions, hread, reads _ _ _ _ hread⟩

end CommandGrammar.Item
