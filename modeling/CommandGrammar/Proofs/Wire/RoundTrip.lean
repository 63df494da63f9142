import CommandGrammar.Wire.Read
import CommandGrammar.Wire.Write
import CommandGrammar.Proofs.Steps
import CommandGrammar.Proofs.Text.Utf8
import CommandGrammar.Proofs.Wire.Size

/-!
# Round trip of fields

`Reading.Reads` says of a reading step, some bytes and a value that the step reads the value from
the bytes, whatever follows them, and leaves what follows. It is handed on by composed steps
(`Reading.Reads.bind`, `Reading.reads_replicate`), so a reader is treated field by field. Every
field reads what was written of its value: numbers, lengths (`Reading.reads_length`) and texts
(`Reading.reads_text`).
-/

namespace CommandGrammar

namespace Reading

/-- Whatever follows the bytes, the step reads the value from them and leaves what follows. -/
def Reads {α : Type} (r : Reading α) (bs : List UInt8) (v : α) : Prop :=
  ∀ left, r (bs ++ left) = .ok v left

/-! ## Composed steps -/

section

variable {α β : Type} {r : Reading α} {bs bs' : List UInt8} {v : α}

theorem reads_pure (v : α) : Reads (pure v) [] v :=
  fun _ => rfl

/-- What two steps read is read by both in a row. -/
theorem Reads.bind {next : α → Reading β} {w : β} (h : Reads r bs v)
    (hnext : Reads (next v) bs' w) : Reads (r >>= next) (bs ++ bs') w := fun left => by
  rw [List.append_assoc, EStateM.bind_eq_ok]
  exact ⟨v, bs' ++ left, h _, hnext left⟩

theorem Reads.map (f : α → β) (h : Reads r bs v) : Reads (f <$> r) bs (f v) :=
  fun left => EStateM.map_eq_ok.mpr ⟨v, h left, rfl⟩

/-- A last step that takes no bytes. -/
theorem Reads.bind_pure {next : α → Reading β} {w : β} (h : Reads r bs v)
    (hnext : Reads (next v) [] w) : Reads (r >>= next) bs w := by
  simpa using h.bind hnext

/-- As many values as there are, one after another. -/
theorem reads_replicate {bss : List (List UInt8)} {vs : List α}
    (h : List.Forall₂ (Reads r) bss vs) : Reads (replicate vs.length r) bss.flatten vs := by
  induction h with
  | nil => exact reads_pure []
  | cons h _ ih => exact h.bind (ih.bind_pure (reads_pure _))

end

/-! ## Fields -/

theorem reads_byte (b : UInt8) : Reads byte [b] b :=
  fun _ => rfl

theorem reads_bytes (bs : List UInt8) : Reads (bytes bs.length) bs bs := fun left => by
  rw [bytes, if_pos (by simp), List.take_left, List.drop_left]

/-- A number is read back if its digits are no more than may be written. -/
theorem reads_digits :
    ∀ {more n : Nat}, n < Nat.pow 128 (more + 1) → Reads (digits more) (VarInt.digits more n) n
  | 0, n, h => by
    have hn : n < 128 := h
    have hb : (UInt8.ofNat n).toNat = n := UInt8.toNat_ofNat_of_lt' (show n < 256 by omega)
    rw [digits]
    refine (reads_byte _).bind_pure ?_
    rw [hb, if_pos hn]
    exact reads_pure n
  | more + 1, n, h => by
    rw [digits, VarInt.digits]
    split
    · next hn =>
      have hb : (UInt8.ofNat n).toNat = n := UInt8.toNat_ofNat_of_lt' (show n < 256 by omega)
      refine (reads_byte _).bind_pure ?_
      rw [hb, if_pos hn]
      exact reads_pure n
    · have hb : (UInt8.ofNat (n % 128 + 128)).toNat = n % 128 + 128 :=
        UInt8.toNat_ofNat_of_lt' (show n % 128 + 128 < 256 by omega)
      have hdiv : n / 128 < Nat.pow 128 (more + 1) := Nat.div_lt_of_lt_mul (by
        rw [Nat.mul_comm]
        exact h)
      refine (reads_byte _).bind ?_
      rw [hb, if_neg (by omega)]
      refine (reads_digits hdiv).bind_pure ?_
      rw [show (n % 128 + 128) % 128 + 128 * (n / 128) = n by omega]
      exact reads_pure n

/-- A number is read back from its digits, negative ones too. -/
theorem reads_varInt (v : Int32) : Reads varInt (VarInt.encode v) v := by
  have hlt : VarInt.bits v < 0x100000000 := v.toUInt32.toNat_lt
  have hpow : Nat.pow 128 (VarInt.maxContinued + 1) = 0x800000000 := by decide
  refine (reads_digits (by omega)).bind_pure ?_
  rw [show Int32.ofNat (VarInt.bits v) = v from Int32.ofNat_bitVecToNat v.toBitVec]
  exact reads_pure v

@[simp] theorem bigEndian_int32 (v : Int32) : bigEndian (Write.int32 v) = VarInt.bits v := by
  have : VarInt.bits v < 0x100000000 := v.toUInt32.toNat_lt
  simp only [Write.int32, bigEndian, List.map_cons, List.map_nil, List.foldl_cons, List.foldl_nil,
    UInt8.toNat_ofNat']
  omega

theorem reads_int32 (v : Int32) : Reads int32 (Write.int32 v) v := by
  refine (reads_bytes (Write.int32 v)).bind_pure ?_
  rw [bigEndian_int32, show Int32.ofNat (VarInt.bits v) = v from Int32.ofNat_bitVecToNat v.toBitVec]
  exact reads_pure v

/-- A length is read back, as none that is written is negative. -/
theorem reads_length {n : Nat} {bs : List UInt8} (h : Write.length n = .ok bs) :
    Reads length bs n := by
  obtain ⟨hn, rfl⟩ := Write.length_eq_ok.mp h
  have hv : (Int32.ofNat n).toInt = n := Int32.toInt_ofNat_of_lt (Nat.lt_succ_of_le hn)
  refine (reads_varInt _).bind_pure ?_
  rw [if_neg (by rw [Int32.lt_iff_toInt_lt, hv]; exact Int.not_lt.mpr (Int.natCast_nonneg n)), hv]
  exact reads_pure n

/-- A text is read back, as what was written of it is UTF-8. -/
theorem reads_text {s : String} {bs : List UInt8} (h : Write.text s = .ok bs) :
    Reads text bs s := by
  obtain ⟨size, hsize, hbs⟩ := Except.bind_eq_ok.mp h
  obtain rfl := Except.ok.inj hbs
  refine (reads_length hsize).bind ((reads_bytes _).bind_pure ?_)
  rw [Utf8.decode_encode]
  exact reads_pure s

end Reading

end CommandGrammar
