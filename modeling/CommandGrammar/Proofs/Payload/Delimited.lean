import CommandGrammar.Payload.Record
import CommandGrammar.Proofs.Wire.Local

/-!
# Payloads delimit themselves

Nothing says at the front of a payload how long it is, and nothing at its end that it is over; the
counts and flags on the way decide which field is the next and which is the last. Every step of the
reader is local, down to the properties of a parser, so whoever reads a payload has read all of its
bytes (`Payload.decode_eq_ok`), with any part of them would have asked for more, and leaves whatever
follows (`Payload.decode_delimited`).
-/

namespace CommandGrammar

open Reading

/-! ## The steps of the reader -/

theorem Reading.IsLocal.flagged {α : Type} {r : Reading α} (h : IsLocal r) (flag : Bool) :
    IsLocal (flagged flag r) :=
  (h.map some).ite (isLocal_pure none)

/-- The parser says which properties follow. -/
theorem Hint.isLocal_readProperties (parser : String) : IsLocal (readProperties parser) :=
  (isLocal_varInt.map _).ite <| (isLocal_pure _).ite <| IsLocal.ite
    (isLocal_byte.bind fun _ => (isLocal_int32.flagged _).bind fun _ =>
      (isLocal_int32.flagged _).bind_pure _)
    (isLocal_throw _)

/-- The flags say which fields follow. -/
theorem Body.isLocal_read (kind : NodeKind) (hasProvider : Bool) :
    IsLocal (read kind hasProvider) := by
  cases kind with
  | root => exact isLocal_pure _
  | literal => exact isLocal_text.map _
  | argument =>
    exact isLocal_text.bind fun _ => isLocal_text.bind fun parser =>
      (Hint.isLocal_readProperties parser).bind fun _ => (isLocal_text.flagged _).bind_pure _

theorem Record.isLocal_read : IsLocal read :=
  isLocal_byte.bind fun flags => by
    cases NodeKind.ofTag? (flags.toNat % 4) with
    | none => exact isLocal_throw _
    | some kind =>
      exact isLocal_length.bind fun count => (isLocal_length.replicate count).bind fun _ =>
        (isLocal_length.flagged _).bind fun _ => (Body.isLocal_read kind _).bind_pure _

namespace Payload

/-- A payload ends after the place of its root. -/
theorem isLocal_read : IsLocal read :=
  isLocal_length.bind fun count => (Record.isLocal_read.replicate count).bind fun _ =>
    isLocal_length.bind_pure _

/-! ## Payloads -/

variable {bytes : List UInt8} {p : Payload}

/-- Bytes are a payload if it is read from all of them and refers to nothing else. -/
theorem decode_eq_ok : decode bytes = .ok p ↔ Reads read bytes p ∧ p.inRange = true := by
  rw [isLocal_read.reads_iff]
  constructor
  · intro h
    rw [decode, show read.run bytes = read bytes from rfl] at h
    split at h
    · cases h
    · next p' hrun =>
      split at h
      · next hrange =>
        obtain rfl := Except.ok.inj h
        exact ⟨hrun, hrange⟩
      · cases h
    · cases h
  · rintro ⟨hrun, hrange⟩
    rw [decode, show read.run bytes = .ok p [] from hrun]
    exact if_pos hrange

/-- A payload cut short is found to end too early, wherever it is cut, and one with something after
it is found to go on too long. -/
theorem decode_delimited (h : decode bytes = .ok p) :
    (∀ pre, pre <+: bytes → pre ≠ bytes → decode pre = .error .endOfInput) ∧
      ∀ more, more ≠ [] → decode (bytes ++ more) = .error (.trailingBytes more.length) := by
  obtain ⟨hreads, -⟩ := decode_eq_ok.mp h
  constructor
  · rintro pre ⟨suf, rfl⟩ hne
    have hsuf : suf ≠ [] := fun hnil => hne (by rw [hnil, List.append_nil])
    obtain ⟨left, hleft⟩ := isLocal_read.short hreads rfl hsuf
    rw [decode, show read.run pre = .error .endOfInput left from hleft]
  · intro more hmore
    obtain ⟨b, rest, rfl⟩ := List.exists_cons_of_ne_nil hmore
    rw [decode, show read.run (bytes ++ b :: rest) = .ok p (b :: rest) from hreads _]

/-- A root with an argument for a number of at least five. -/
def sampleBytes : List UInt8 :=
  [2, 0, 1, 1, 6, 0, 1, 0x6E, 17] ++ Utf8.encode Hint.integerParser ++ [1, 0, 0, 0, 5, 0]

/-- The payload that these bytes are. -/
def sample : Payload where
  records := [⟨false, [1], none, .root⟩,
    ⟨true, [], none, .argument "n" Hint.integerParser [1, 0, 0, 0, 5] none⟩]
  root := 0

theorem sample_delimited : decode sampleBytes = .ok sample ∧
    decode (sampleBytes.take 9) = .error .endOfInput ∧
    decode (sampleBytes ++ [0, 0]) = .error (.trailingBytes 2) := by
  have h : decode sampleBytes = .ok sample := by decide +kernel
  obtain ⟨hshort, hlong⟩ := decode_delimited h
  exact ⟨h, hshort _ (List.take_prefix 9 _) (by decide +kernel), hlong [0, 0] (by decide)⟩

end Payload

end CommandGrammar
