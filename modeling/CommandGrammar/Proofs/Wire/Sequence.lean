import CommandGrammar.Proofs.Wire.RoundTrip
import CommandGrammar.Wire.Item

/-!
# Fields in a row

Nothing tells where a field ends, so fields are read by their kinds, in the order in which they were
written. Then they come back as they were, and no byte is left (`Item.readAll_writeAll`). A length
or a text that is too large to be written leaves no bytes, and those after it are read as if it had
not been there.
-/

namespace CommandGrammar.Item

open Reading

/-- The field can be written, as all can but lengths and texts that are too large. -/
def Fits : Item → Prop
  | length n => n ≤ Write.maxLength
  | text s => Write.Fits s
  | byte _ | int32 _ | varInt _ | bytes _ => True

instance : DecidablePred Fits
  | length n => inferInstanceAs (Decidable (n ≤ Write.maxLength))
  | text s => inferInstanceAs (Decidable (Write.Fits s))
  | byte _ | int32 _ | varInt _ | bytes _ => .isTrue trivial

/-- The bytes of fields that are written one after another. -/
def writeAll (items : List Item) : List UInt8 :=
  items.foldl append []

/-- Reads fields of these kinds one after another. -/
def readAll (kinds : List Kind) : Reading (List Item) :=
  kinds.mapM Kind.read

/-! ## One field -/

/-- All but texts that are too long can be encoded. -/
theorem exists_encode_iff {i : Item} : (∃ bs, i.encode = .ok bs) ↔ i.Fits := by
  cases i with
  | byte b => exact ⟨fun _ => trivial, fun _ => ⟨_, rfl⟩⟩
  | int32 v => exact ⟨fun _ => trivial, fun _ => ⟨_, rfl⟩⟩
  | varInt v => exact ⟨fun _ => trivial, fun _ => ⟨_, rfl⟩⟩
  | bytes bs => exact ⟨fun _ => trivial, fun _ => ⟨_, rfl⟩⟩
  | length n =>
    exact ⟨fun ⟨_, h⟩ => (Write.length_eq_ok.mp h).1, fun h => ⟨_, Write.length_eq_ok.mpr ⟨h, rfl⟩⟩⟩
  | text s => exact Write.exists_text_iff

/-- A field is read back from its bytes, whatever follows them. -/
theorem reads_of_encode {i : Item} {bs : List UInt8} (h : i.encode = .ok bs) :
    Reads i.kind.read bs i := by
  cases i with
  | byte b =>
    obtain rfl := Except.ok.inj h
    exact (reads_byte b).map byte
  | int32 v =>
    obtain rfl := Except.ok.inj h
    exact (reads_int32 v).map int32
  | varInt v =>
    obtain rfl := Except.ok.inj h
    exact (reads_varInt v).map varInt
  | length n => exact (reads_length h).map length
  | text s => exact (reads_text h).map text
  | bytes bs' =>
    obtain rfl := Except.ok.inj h
    exact (reads_bytes bs').map bytes

theorem append_of_encode {i : Item} {bs : List UInt8} (h : i.encode = .ok bs)
    (written : List UInt8) : append written i = written ++ bs := by
  rw [append, h]

/-- A field that cannot be written adds nothing. -/
theorem append_of_not_fits {i : Item} (h : ¬i.Fits) (written : List UInt8) :
    append written i = written := by
  cases hi : i.encode with
  | ok bs => exact absurd (exists_encode_iff.mp ⟨bs, hi⟩) h
  | error fault => rw [append, hi]

/-! ## Several fields -/

/-- Writing goes on after what was written, whatever that is. -/
theorem foldl_append : ∀ (items : List Item) (written : List UInt8),
    items.foldl append written = written ++ writeAll items
  | [], written => (List.append_nil written).symm
  | i :: items, written => by
    have ih := foldl_append items
    rw [writeAll, List.foldl_cons, List.foldl_cons, ih, ih (append [] i)]
    by_cases hi : i.Fits
    · obtain ⟨bs, hbs⟩ := exists_encode_iff.mpr hi
      rw [append_of_encode hbs, append_of_encode hbs, List.append_assoc, List.nil_append]
    · rw [append_of_not_fits hi, append_of_not_fits hi, List.nil_append]

@[simp] theorem writeAll_cons (i : Item) (items : List Item) :
    writeAll (i :: items) = append [] i ++ writeAll items :=
  foldl_append items _

/-- Fields are read back by their kinds, whatever follows the last. -/
theorem reads_writeAll : ∀ items : List Item,
    Reads (readAll ((items.filter Fits).map kind)) (writeAll items) (items.filter Fits)
  | [] => by
    rw [List.filter_nil, List.map_nil, readAll, List.mapM_nil]
    exact reads_pure []
  | i :: items => by
    have ih := reads_writeAll items
    rw [writeAll_cons]
    by_cases hi : i.Fits
    · obtain ⟨bs, hbs⟩ := exists_encode_iff.mpr hi
      rw [append_of_encode hbs, List.nil_append, List.filter_cons_of_pos (by simpa using hi),
        List.map_cons, readAll, List.mapM_cons]
      exact (reads_of_encode hbs).bind (ih.bind_pure (reads_pure _))
    · rw [append_of_not_fits hi, List.nil_append, List.filter_cons_of_neg (by simpa using hi)]
      exact ih

/-- Whatever is written, what could be written is read back by its kinds and nothing is left; and
all but lengths and texts that are too large can be written. -/
theorem readAll_writeAll (items : List Item) :
    (∀ i ∈ items, i.Fits ↔ ∃ bs, i.encode = .ok bs) ∧
      readAll ((items.filter Fits).map kind) (writeAll items) = .ok (items.filter Fits) [] := by
  refine ⟨fun i _ => exists_encode_iff.symm, ?_⟩
  have h := reads_writeAll items []
  rwa [List.append_nil] at h

end CommandGrammar.Item
