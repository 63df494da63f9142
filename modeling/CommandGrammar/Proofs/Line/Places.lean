import CommandGrammar.Proofs.Wire.Size
import CommandGrammar.Line.Cursor
import Mathlib.Data.String.Basic

/-!
# Places in a line

A cursor scans characters and counts bytes. The two stay in step: what lies before the cursor has as
many bytes as it counts, and is followed by the text that it has left (`Cursor.StandsAfter`). One
take moves it past a text and the separator there, if there is one (`StandsAfter.take`), so after
any number of takes it stands between two characters of the line or at one of its ends, and what it
handed out, with the separators, is the line up to there (`Cursor.takes_cover`).

What is said of bytes is said of the UTF-8 form of strings: `String.Pos.Raw.IsValid` for the places
between characters, `slice` for the text between two places, `separatorAt` for the separator at one.
-/

namespace CommandGrammar

@[simp] theorem byteSize_append (cs ds : List Char) :
    byteSize (cs ++ ds) = byteSize cs + byteSize ds := by
  rw [byteSize, List.map_append, List.sum_append]
  rfl

theorem byteSize_eq_utf8Len : ∀ cs : List Char, byteSize cs = String.utf8Len cs
  | [] => rfl
  | c :: cs => by
    rw [String.utf8Len_cons, ← byteSize_eq_utf8Len cs, Nat.add_comm]
    rfl

theorem byteSize_toList (s : String) : byteSize s.toList = s.utf8ByteSize := by
  rw [byteSize_eq_utf8Len, ← String.utf8ByteSize_ofList, String.ofList_toList]

/-- The text of a line between two bytes. -/
def slice (line : String) (first last : Nat) : String :=
  String.Pos.Raw.extract line ⟨first⟩ ⟨last⟩

/-- The separator that stands in a line at this byte, if one does. -/
def separatorAt (line : String) (place : Nat) : String :=
  if String.Pos.Raw.get? line ⟨place⟩ = some space then " " else ""

namespace Cursor

/-- Where a take leaves the cursor: after the piece, or where it was if there is none. -/
def after (c : Cursor) (s : Span) : Cursor :=
  match c.take? s with
  | none => c
  | some (_, d) => d

/-- Where takes of these spans, one after another, lead from the start of a line. -/
def reached (line : String) (spans : List Span) : Cursor :=
  spans.foldl after (start line)

/-- The texts that takes of these spans hand out, each with the byte at which it begins. -/
def handedOut : List Span → Cursor → List (Nat × String)
  | [], _ => []
  | s :: ss, c =>
    match c.take? s with
    | none => handedOut ss c
    | some (text, d) => (c.position, text) :: handedOut ss d

/-- Texts one after another, each with the separator that follows it in the line. -/
def covered (line : String) (texts : List (Nat × String)) : String :=
  String.join (texts.map fun t => t.2 ++ separatorAt line (t.1 + t.2.utf8ByteSize))

/-- The cursor stands in the line after this text. -/
def StandsAfter (line : String) (front : List Char) (c : Cursor) : Prop :=
  line.toList = front ++ c.rest ∧ c.position = byteSize front

theorem standsAfter_start (line : String) : StandsAfter line [] (start line) :=
  ⟨rfl, rfl⟩

/-- What is left after a piece is the separator at its front, if there is one, and what the cursor
has left after it. -/
theorem advance_eq (c : Cursor) (text left : List Char) :
    ∃ sep, left = sep ++ (c.advance text left).rest ∧
      sep = (if left.head? = some space then [space] else []) ∧
      (c.advance text left).position = c.position + byteSize (text ++ sep) := by
  cases left with
  | nil => exact ⟨[], rfl, rfl, by rw [List.append_nil]; rfl⟩
  | cons x left =>
    by_cases hx : x = space
    · refine ⟨[space], ?_, by simp [hx], ?_⟩
      · rw [advance, if_pos hx, hx]
        rfl
      · rw [advance, if_pos hx, byteSize_append, Nat.add_assoc]
        rfl
    · refine ⟨[], ?_, by simp [hx], ?_⟩
      · rw [advance, if_neg hx]
        rfl
      · rw [advance, if_neg hx, List.append_nil]

namespace StandsAfter

variable {line text : String} {front mid : List Char} {c d : Cursor} {s : Span}

/-- What is before the cursor and what is left make up the line. -/
theorem line_eq (h : StandsAfter line front c) : line = String.ofList (front ++ c.rest) := by
  rw [← h.1, String.ofList_toList]

theorem isValid (h : StandsAfter line front c) : String.Pos.Raw.IsValid line ⟨c.position⟩ := by
  refine String.Pos.Raw.isValid_iff_exists_append.mpr
    ⟨String.ofList front, String.ofList c.rest, ?_, ?_⟩
  · rw [← String.ofList_append, h.line_eq]
  · rw [String.rawEndPos_ofList, h.2, byteSize_eq_utf8Len]

theorem utf8ByteSize_eq (h : StandsAfter line front c) :
    line.utf8ByteSize = c.position + byteSize c.rest := by
  rw [← byteSize_toList, h.1, byteSize_append, h.2]

theorem position_eq_iff (h : StandsAfter line front c) :
    c.position = line.utf8ByteSize ↔ c.rest = [] := by
  rw [h.utf8ByteSize_eq, byteSize_eq_utf8Len, ← String.utf8Len_eq_zero]
  omega

/-- The text between two cursors. -/
theorem slice_eq (h : StandsAfter line front c) (hd : StandsAfter line (front ++ mid) d) :
    slice line c.position d.position = String.ofList mid := by
  rw [slice, h.2, hd.2, byteSize_append, byteSize_eq_utf8Len, byteSize_eq_utf8Len, hd.line_eq]
  exact String.extract_of_valid front mid d.rest

/-- What is left is the line from the position on. -/
theorem remaining_eq (h : StandsAfter line front c) :
    c.remaining = slice line c.position line.utf8ByteSize := by
  have hend : StandsAfter line (front ++ c.rest) ⟨line.utf8ByteSize, []⟩ :=
    ⟨by rw [h.1, List.append_nil], by simp [h.utf8ByteSize_eq, h.2]⟩
  exact (h.slice_eq hend).symm

/-- After a text, one space is skipped if there is one. -/
theorem separatorAt_eq {left : List Char} (h : StandsAfter line front c)
    (hrest : c.rest = text.toList ++ left) :
    (separatorAt line (c.position + text.utf8ByteSize)).toList =
      if left.head? = some space then [space] else [] := by
  have hget : String.Pos.Raw.get? line ⟨c.position + text.utf8ByteSize⟩ = left.head? := by
    rw [h.2, ← byteSize_toList, ← byteSize_append, byteSize_eq_utf8Len, h.line_eq, hrest,
      ← List.append_assoc]
    exact String.get?_of_valid (front ++ text.toList) left
  rw [separatorAt, hget]
  split <;> rfl

/-- A take moves the cursor past its text and the separator there. -/
theorem take (h : StandsAfter line front c) (htake : c.take? s = some (text, d)) :
    StandsAfter line
      (front ++ (text ++ separatorAt line (c.position + text.utf8ByteSize)).toList) d := by
  rw [take?_of_ne_nil (ne_nil_of_take? htake)] at htake
  obtain ⟨rfl, rfl⟩ := Prod.mk.inj (Option.some.inj htake)
  have hcut : c.rest = (String.ofList (s.cut c.rest).1).toList ++ (s.cut c.rest).2 := by
    simp
  obtain ⟨sep, hleft, hsep, hposition⟩ := c.advance_eq (s.cut c.rest).1 (s.cut c.rest).2
  rw [String.toList_append, h.separatorAt_eq hcut, ← hsep, String.toList_ofList]
  refine ⟨?_, ?_⟩
  · simp [h.1, ← hleft]
  · rw [hposition, h.2, byteSize_append front]

/-- Text lies between the two. -/
theorem position_lt (h : StandsAfter line front c) (hd : StandsAfter line (front ++ mid) d)
    (hlt : d.rest.length < c.rest.length) : c.position < d.position := by
  have hne : byteSize mid ≠ 0 := by
    rw [byteSize_eq_utf8Len, Ne, String.utf8Len_eq_zero]
    rintro rfl
    have hrest : front ++ c.rest = front ++ d.rest := by
      rw [← h.1, hd.1, List.append_nil]
    rw [List.append_cancel_left hrest] at hlt
    exact Nat.lt_irrefl _ hlt
  rw [h.2, hd.2, byteSize_append]
  omega

/-- After several takes, what was handed out and passed lies before the cursor. -/
theorem foldl_after (h : StandsAfter line front c) (spans : List Span) :
    StandsAfter line (front ++ (covered line (handedOut spans c)).toList)
      (spans.foldl after c) := by
  induction spans generalizing front c with
  | nil => rwa [show covered line (handedOut [] c) = "" from rfl, String.toList_empty,
      List.append_nil]
  | cons s spans ih =>
    rw [List.foldl_cons, after, handedOut]
    cases htake : c.take? s with
    | none => exact ih h
    | some taken =>
      obtain ⟨text, d⟩ := taken
      have hd := ih (h.take htake)
      rwa [List.append_assoc, ← String.toList_append, covered, ← String.join_cons] at hd

end StandsAfter

/-- Wherever takes of any spans have led the cursor, it stands between two characters of the line or
at one of its ends, with the rest of the line after it, and what it handed out makes up the line
before it, each text being followed by the separator there, if there is one. One more take hands out
nothing exactly at the end of the line, and leaves the cursor where it is. Elsewhere it goes forward
past the text and the separator after it, and if the span is the rest, to the end of the line. -/
theorem takes_cover {line : String} {spans : List Span} {c : Cursor}
    (h : reached line spans = c) :
    String.Pos.Raw.IsValid line ⟨c.position⟩ ∧ c.position ≤ line.utf8ByteSize ∧
    c.remaining = slice line c.position line.utf8ByteSize ∧
    (c.isDone ↔ c.position = line.utf8ByteSize) ∧
    slice line 0 c.position = covered line (handedOut spans (start line)) ∧
    (∀ s, c.take? s = none ↔ c.position = line.utf8ByteSize) ∧
    (∀ s, c.take? s = none → reached line (spans ++ [s]) = c) ∧
    (∀ s text d, c.take? s = some (text, d) → reached line (spans ++ [s]) = d ∧
      c.position < d.position ∧ slice line c.position d.position =
        text ++ separatorAt line (c.position + text.utf8ByteSize)) ∧
    (reached line (spans ++ [.rest])).position = line.utf8ByteSize := by
  have hc := (standsAfter_start line).foldl_after spans
  rw [List.nil_append, show spans.foldl after (start line) = c from h] at hc
  have hnext : ∀ s, reached line (spans ++ [s]) = c.after s := fun s => by
    rw [← h, reached, List.foldl_concat]
    rfl
  have hnone : ∀ s, c.take? s = none ↔ c.position = line.utf8ByteSize := fun s => by
    simp [hc.position_eq_iff]
  have hsize := hc.utf8ByteSize_eq
  refine ⟨hc.isValid, by omega, hc.remaining_eq, ?_, ?_, hnone, fun s hn => ?_,
    fun s text d htake => ?_, ?_⟩
  · rw [hc.position_eq_iff]
    exact List.isEmpty_iff
  · have hslice := (standsAfter_start line).slice_eq (by rwa [List.nil_append])
    rwa [String.ofList_toList] at hslice
  · rw [hnext, after, hn]
  · have hd := hc.take htake
    refine ⟨by rw [hnext, after, htake], hc.position_lt hd (length_rest_lt_of_take? htake), ?_⟩
    rw [hc.slice_eq hd, String.ofList_toList]
  · rw [hnext, after]
    cases htake : c.take? .rest with
    | none => exact (hnone .rest).mp htake
    | some taken =>
      obtain ⟨text, d⟩ := taken
      have hd := hc.take htake
      refine hd.position_eq_iff.mpr ?_
      rw [take?_of_ne_nil (ne_nil_of_take? htake)] at htake
      obtain ⟨-, rfl⟩ := Prod.mk.inj (Option.some.inj htake)
      rfl

/-- After a letter of two bytes and a phrase in quotes, to which the next text is glued. -/
theorem takes_cover_glued :
    reached "é \"ü\"x  z" [.single, .quoted] = ⟨7, "x  z".toList⟩ ∧
      String.Pos.Raw.IsValid "é \"ü\"x  z" ⟨7⟩ ∧
      slice "é \"ü\"x  z" 0 7 = covered "é \"ü\"x  z" [(0, "é"), (3, "\"ü\"")] ∧
      (Cursor.mk 7 "x  z".toList).take? .single = some ("x", ⟨9, " z".toList⟩) ∧
      slice "é \"ü\"x  z" 7 9 = "x" ++ separatorAt "é \"ü\"x  z" 8 ∧
      (reached "é \"ü\"x  z" [.single, .quoted, .rest]).position = 11 := by
  have hreached : reached "é \"ü\"x  z" [.single, .quoted] = ⟨7, "x  z".toList⟩ := by
    decide +kernel
  have hgave : handedOut [.single, .quoted] (start "é \"ü\"x  z") =
      [(0, "é"), (3, "\"ü\"")] := by decide +kernel
  have htake : (Cursor.mk 7 "x  z".toList).take? .single = some ("x", ⟨9, " z".toList⟩) := by
    decide +kernel
  obtain ⟨hvalid, -, -, -, hcovered, -, -, htakes, hrest⟩ := takes_cover hreached
  exact ⟨hreached, hvalid, hgave ▸ hcovered, htake, (htakes _ _ _ htake).2.2, hrest⟩

end Cursor

end CommandGrammar
