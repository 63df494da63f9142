import CommandGrammar.Proofs.Wire.Local
import CommandGrammar.Wire.Item

/-!
# Variable-length integers on the wire

An integer is read up to the first byte whose high bit is clear, if this is one of the next five,
and is then what the low bits of these bytes make up (`Reading.varInt_eq_ok`). Otherwise the reading
fails, with or without five bytes behind it (`Reading.varInt_eq_error`).

What is written is as long as its size says: one byte to five, always five if the integer is
negative, no fewer if it is larger, and no more than any bytes from which the integer is read
(`VarInt.written_and_read_exactly`).
-/

namespace CommandGrammar

namespace VarInt

/-! ## Sizes -/

theorem digitCount_le : ∀ more n : Nat, digitCount more n ≤ more + 1
  | 0, _ => Nat.le_refl 1
  | more + 1, n => by
    have := digitCount_le more (n / 128)
    rw [digitCount]
    split <;> omega

theorem size_le (v : Int32) : size v ≤ 5 :=
  digitCount_le maxContinued _

/-- A number too large for fewer digits has all that it may have. -/
theorem digitCount_eq : ∀ {more n : Nat}, Nat.pow 128 more ≤ n → digitCount more n = more + 1
  | 0, _, _ => rfl
  | more + 1, n, h => by
    have hpow : Nat.pow 128 (more + 1) = Nat.pow 128 more * 128 := rfl
    have hpos : 0 < Nat.pow 128 more := Nat.pow_pos (by decide)
    have hdiv : Nat.pow 128 more ≤ n / 128 := (Nat.le_div_iff_mul_le (by decide)).mpr (hpow ▸ h)
    simp [show ¬n < 128 by omega, digitCount_eq hdiv]

/-- The bits of an integer are those of a number, less all that 32 bits hold if it is negative. -/
theorem toInt_eq (v : Int32) :
    v.toInt = if bits v < 0x80000000 then (bits v : Int) else bits v - 0x100000000 := by
  have h := BitVec.toInt_eq_toNat_cond v.toBitVec
  have hbits : v.toBitVec.toNat = bits v := rfl
  rw [hbits] at h
  rw [show v.toInt = v.toBitVec.toInt from rfl, h]
  split <;> split <;> omega

/-- A negative number takes all five bytes, its highest bit being set. -/
theorem size_of_neg {v : Int32} (h : v < 0) : size v = 5 := by
  have hneg : v.toInt < 0 := Int32.lt_iff_toInt_lt.mp h
  rw [toInt_eq] at hneg
  have hpow : Nat.pow 128 maxContinued = 0x10000000 := by decide
  refine digitCount_eq ?_
  split at hneg <;> omega

/-- Of two numbers that are not negative, the smaller takes no more bytes. -/
theorem size_mono {v w : Int32} (h : 0 ≤ v) (hle : v ≤ w) : size v ≤ size w := by
  have h : 0 ≤ v.toInt := Int32.le_iff_toInt_le.mp h
  have hle : v.toInt ≤ w.toInt := Int32.le_iff_toInt_le.mp hle
  have : bits v < 0x100000000 := v.toUInt32.toNat_lt
  rw [toInt_eq] at h hle
  rw [toInt_eq] at hle
  refine digitCount_mono ?_
  split at hle <;> split at hle <;> omega

/-! ## What bytes make up -/

/-- The sum of the low seven bits of bytes, those of byte `i` having the weight `2 ^ (7 * i)`. -/
def groupSum (bs : List UInt8) : Nat :=
  (bs.mapIdx fun i b => b.toNat % 128 * Nat.pow 2 (7 * i)).sum

@[simp] theorem groupSum_cons (b : UInt8) (bs : List UInt8) :
    groupSum (b :: bs) = b.toNat % 128 + 128 * groupSum bs := by
  have hshift : (bs.mapIdx fun i b => b.toNat % 128 * Nat.pow 2 (7 * (i + 1))) =
      (bs.mapIdx fun i b => b.toNat % 128 * Nat.pow 2 (7 * i)).map (128 * ·) := by
    refine List.ext_getElem? fun i => ?_
    simp only [List.getElem?_map, List.getElem?_mapIdx, Option.map_map]
    congr 1
    funext b
    have hpow : Nat.pow 2 (7 * (i + 1)) = Nat.pow 2 (7 * i) * 128 := Nat.pow_add 2 (7 * i) 7
    simp only [hpow, Function.comp_apply]
    rw [← Nat.mul_assoc, Nat.mul_comm]
  rw [groupSum, List.mapIdx_cons, List.sum_cons, hshift, List.sum_map_mul_left, List.map_id',
    groupSum]
  exact congrArg (· + _) (Nat.mul_one _)

/-- The bytes of one number: all but the last have their high bit set, and these are `more` at
most. -/
inductive Frame : (more : Nat) → List UInt8 → Prop
  | last {more : Nat} {b : UInt8} : b.toNat < 128 → Frame more [b]
  | cons {more : Nat} {b : UInt8} {bs : List UInt8} : 128 ≤ b.toNat → Frame more bs →
      Frame (more + 1) (b :: bs)

/-- There are the bytes of a number, or its bytes do not end in time. -/
theorem frame_or_forall : ∀ (more : Nat) (bytes : List UInt8),
    (∃ bs left, bytes = bs ++ left ∧ Frame more bs) ∨
      ∀ b ∈ bytes.take (more + 1), 128 ≤ b.toNat
  | _, [] => .inr (by simp)
  | more, b :: bytes => by
    rcases Nat.lt_or_ge b.toNat 128 with hb | hb
    · exact .inl ⟨[b], bytes, rfl, .last hb⟩
    · cases more with
      | zero => exact .inr (by simpa using hb)
      | succ more =>
        rcases frame_or_forall more bytes with ⟨bs, left, rfl, hbs⟩ | h
        · exact .inl ⟨b :: bs, left, rfl, .cons hb hbs⟩
        · exact .inr (List.forall_mem_cons.mpr ⟨hb, h⟩)

/-- A frame is some high bytes and then a low one. -/
theorem frame_iff {more : Nat} {bs : List UInt8} :
    Frame more bs ↔ ∃ front last, bs = front ++ [last] ∧ front.length ≤ more ∧
      (∀ b ∈ front, 128 ≤ b.toNat) ∧ last.toNat < 128 := by
  constructor
  · intro h
    induction h with
    | @last more b hb => exact ⟨[], b, rfl, Nat.zero_le more, by simp, hb⟩
    | cons hb _ ih =>
      obtain ⟨front, last, rfl, hlength, hfront, hlast⟩ := ih
      exact ⟨_ :: front, last, rfl, Nat.succ_le_succ hlength,
        List.forall_mem_cons.mpr ⟨hb, hfront⟩, hlast⟩
  · rintro ⟨front, last, rfl, hlength, hfront, hlast⟩
    induction front generalizing more with
    | nil => exact .last hlast
    | cons b front ih =>
      obtain ⟨hb, hfront⟩ := List.forall_mem_cons.mp hfront
      cases more with
      | zero => exact absurd hlength (Nat.not_succ_le_zero _)
      | succ more => exact .cons hb (ih (Nat.le_of_succ_le_succ hlength) hfront)

theorem Frame.exists_mem {more : Nat} {bs : List UInt8} (h : Frame more bs) :
    ∃ b ∈ bs.take (more + 1), b.toNat < 128 := by
  induction h with
  | last hb => exact ⟨_, List.mem_cons_self, hb⟩
  | cons _ _ ih =>
    obtain ⟨b, hmem, hb⟩ := ih
    exact ⟨b, List.mem_cons_of_mem _ hmem, hb⟩

end VarInt

/-! ## Reading -/

namespace Reading

open VarInt

variable {more : Nat} {b : UInt8} {bs bytes left : List UInt8}

theorem digits_cons_of_lt (h : b.toNat < 128) : digits more (b :: bytes) = .ok b.toNat bytes := by
  cases more with
  | zero =>
    rw [digits, EStateM.bind_eq_ok]
    exact ⟨b, bytes, rfl, by rw [if_pos h]; rfl⟩
  | succ more =>
    rw [digits, EStateM.bind_eq_ok]
    exact ⟨b, bytes, rfl, by rw [if_pos h]; rfl⟩

theorem digits_zero_of_le (h : 128 ≤ b.toNat) :
    digits 0 (b :: bytes) = .error .varIntTooLong bytes := by
  rw [digits, EStateM.bind_eq_error]
  exact .inr ⟨b, bytes, rfl, by rw [if_neg (Nat.not_lt.mpr h)]; rfl⟩

/-- A high byte is a digit, and the digits after it count 128 times as much. -/
theorem digits_succ_of_le (h : 128 ≤ b.toNat) :
    digits (more + 1) (b :: bytes) = ((b.toNat % 128 + 128 * ·) <$> digits more) bytes := by
  rw [map_eq_bind, digits]
  show (if b.toNat < 128 then _ else _ : Reading Nat) bytes = _
  rw [if_neg (Nat.not_lt.mpr h)]

/-- A frame is read as the sum of its groups, and up to its end. -/
theorem reads_of_frame (h : Frame more bs) : Reads (digits more) bs (groupSum bs) := by
  induction h with
  | @last more b hb =>
    intro left
    rw [groupSum_cons, show groupSum [] = 0 from rfl, Nat.mul_zero, Nat.add_zero,
      Nat.mod_eq_of_lt hb]
    exact digits_cons_of_lt hb
  | @cons more b bs hb _ ih =>
    intro left
    rw [List.cons_append, digits_succ_of_le hb, groupSum_cons]
    exact ih.map _ left

/-- Without a low byte, all bytes that may be taken are, and then reading fails. -/
theorem digits_of_forall : ∀ {more : Nat} {bytes : List UInt8},
    (∀ b ∈ bytes.take (more + 1), 128 ≤ b.toNat) →
      digits more bytes =
        .error (if bytes.length < more + 1 then .endOfInput else .varIntTooLong)
          (bytes.drop (more + 1))
  | 0, [], _ => rfl
  | _ + 1, [], _ => rfl
  | 0, b :: bytes, h => by
    rw [digits_zero_of_le (h b (by simp)), if_neg (by simp)]
    rfl
  | more + 1, b :: bytes, h => by
    obtain ⟨hb, hbytes⟩ := List.forall_mem_cons.mp h
    rw [digits_succ_of_le hb, EStateM.map_eq_error, digits_of_forall hbytes, List.length_cons,
      List.drop_succ_cons]
    simp only [Nat.add_lt_add_iff_right]

/-- Frames are all that is read, and each as the sum of its groups. -/
@[simp] theorem reads_digits_iff {n : Nat} :
    Reads (digits more) bs n ↔ Frame more bs ∧ n = groupSum bs := by
  constructor
  · intro h
    rcases frame_or_forall more bs with ⟨bs', left, rfl, hframe⟩ | hall
    · have hrun := (isLocal_digits more).reads_iff.mp h
      rw [reads_of_frame hframe left] at hrun
      obtain ⟨rfl, rfl⟩ := EStateM.Result.ok.inj hrun
      rw [List.append_nil]
      exact ⟨hframe, rfl⟩
    · have hrun := (isLocal_digits more).reads_iff.mp h
      rw [digits_of_forall hall] at hrun
      cases hrun
  · rintro ⟨hframe, rfl⟩
    exact reads_of_frame hframe

/-- An integer is read from the bytes of one number, and is the low 32 bits of what they make up,
in two's complement. -/
theorem varInt_eq_ok {v : Int32} :
    varInt bytes = .ok v left ↔ ∃ bs, bytes = bs ++ left ∧ Frame maxContinued bs ∧
      v.toInt = Int.bmod (groupSum bs) 0x100000000 := by
  have hv : ∀ n, Int32.ofNat n = v ↔ v.toInt = Int.bmod n 0x100000000 := fun n => by
    rw [← Int32.toInt_inj, Int32.toInt_ofNat', eq_comm]
  rw [isLocal_varInt.eq_ok_iff]
  refine exists_congr fun bs => and_congr_right fun _ => ?_
  rw [varInt, (isLocal_digits _).reads_bind_pure]
  simp only [reads_digits_iff, hv]
  constructor
  · rintro ⟨n, ⟨hframe, rfl⟩, hn⟩
    exact ⟨hframe, hn⟩
  · rintro ⟨hframe, hn⟩
    exact ⟨_, ⟨hframe, rfl⟩, hn⟩

/-- Without a low byte among the first five, reading fails after these. -/
theorem varInt_of_forall (h : ∀ b ∈ bytes.take 5, 128 ≤ b.toNat) :
    varInt bytes =
      .error (if bytes.length < 5 then .endOfInput else .varIntTooLong) (bytes.drop 5) :=
  EStateM.bind_eq_error.mpr (.inl (digits_of_forall h))

/-- No integer is read if none of five bytes has its high bit clear, be there five or not. -/
theorem varInt_eq_error {e : Malformed} :
    varInt bytes = .error e left ↔ (∀ b ∈ bytes.take 5, 128 ≤ b.toNat) ∧
      e = (if bytes.length < 5 then .endOfInput else .varIntTooLong) ∧ left = bytes.drop 5 := by
  constructor
  · intro h
    rcases frame_or_forall maxContinued bytes with ⟨bs, left, rfl, hframe⟩ | hall
    · rw [varInt_eq_ok.mpr ⟨bs, rfl, hframe, Int32.toInt_ofNat'⟩] at h
      cases h
    · rw [varInt_of_forall hall] at h
      obtain ⟨rfl, rfl⟩ := EStateM.Result.error.inj h
      exact ⟨hall, rfl, rfl⟩
  · rintro ⟨hall, rfl, rfl⟩
    exact varInt_of_forall hall

theorem exists_varInt_iff :
    (∃ v left, varInt bytes = .ok v left) ↔ ∃ b ∈ bytes.take 5, b.toNat < 128 := by
  constructor
  · rintro ⟨v, left, h⟩
    obtain ⟨bs, rfl, hframe, -⟩ := varInt_eq_ok.mp h
    obtain ⟨b, hmem, hb⟩ := hframe.exists_mem
    rw [List.take_append]
    exact ⟨b, List.mem_append_left _ hmem, hb⟩
  · rintro ⟨b, hmem, hb⟩
    cases h : varInt bytes with
    | ok v left => exact ⟨v, left, rfl⟩
    | error e left => exact absurd hb (Nat.not_lt.mpr ((varInt_eq_error.mp h).1 b hmem))

end Reading

/-- An integer is written in as many bytes as its size says, five if it is negative. It is read
exactly if one of the next five bytes has its high bit clear, up to that byte, and is then what the
low bits make up in 32 bits; otherwise the reading fails for the end of the bytes or for the length
of the number. No bytes from which an integer is read are fewer than its size, and it has no fewer
than a smaller one that is not negative. -/
theorem VarInt.written_and_read_exactly :
    (∀ (v : Int32) (written : List UInt8),
      Item.append written (.varInt v) = written ++ encode v ∧ (encode v).length = size v ∧
        1 ≤ size v ∧ size v ≤ 5 ∧ (v < 0 → size v = 5)) ∧
    (∀ bytes : List UInt8,
      (∃ v left, Reading.varInt bytes = .ok v left) ↔ ∃ b ∈ bytes.take 5, b.toNat < 128) ∧
    (∀ (bytes left : List UInt8) (v : Int32), Reading.varInt bytes = .ok v left ↔
      ∃ front last, bytes = front ++ last :: left ∧ front.length < 5 ∧
        (∀ b ∈ front, 128 ≤ b.toNat) ∧ last.toNat < 128 ∧
        v.toInt = Int.bmod (groupSum (front ++ [last])) 0x100000000) ∧
    (∀ (bytes left : List UInt8) (e : Malformed), Reading.varInt bytes = .error e left ↔
      (∀ b ∈ bytes.take 5, 128 ≤ b.toNat) ∧
        e = (if bytes.length < 5 then .endOfInput else .varIntTooLong) ∧ left = bytes.drop 5) ∧
    (∀ (bytes : List UInt8) (v : Int32), Reading.varInt bytes = .ok v [] →
      size v ≤ bytes.length) ∧
    ∀ v w : Int32, 0 ≤ v → v ≤ w → size v ≤ size w := by
  refine ⟨fun v written => ⟨rfl, length_encode v, size_pos v, size_le v, size_of_neg⟩,
    fun bytes => Reading.exists_varInt_iff, fun bytes left v => ?_,
    fun bytes left e => Reading.varInt_eq_error, fun bytes v h => ?_, fun v w => size_mono⟩
  · simp only [Reading.varInt_eq_ok, frame_iff]
    constructor
    · rintro ⟨_, rfl, ⟨front, last, rfl, hlength, hfront, hlast⟩, hv⟩
      exact ⟨front, last, by simp, Nat.lt_succ_of_le hlength, hfront, hlast, hv⟩
    · rintro ⟨front, last, rfl, hlength, hfront, hlast, hv⟩
      exact ⟨front ++ [last], by simp,
        ⟨front, last, rfl, Nat.le_of_lt_succ hlength, hfront, hlast⟩, hv⟩
  · exact Reading.size_le_of_reads (Reading.isLocal_varInt.reads_iff.mpr h)

/-- The longest integer; one byte that is one more than needed; and three of different sizes. -/
theorem VarInt.written_and_read_overlong :
    (-1 : Int32) < 0 ∧ size (-1) = 5 ∧
      Reading.varInt [0x80, 0x00] = .ok 0 [] ∧ size 0 ≤ [(0x80 : UInt8), 0x00].length ∧
      (0 : Int32) ≤ 127 ∧ (127 : Int32) ≤ 128 ∧ size 127 ≤ size 128 := by
  obtain ⟨written, -, -, -, least, mono⟩ := VarInt.written_and_read_exactly
  have hread : Reading.varInt [0x80, 0x00] = .ok 0 [] := rfl
  exact ⟨by decide, (written (-1) []).2.2.2.2 (by decide), hread, least _ _ hread, by decide,
    by decide, mono 127 128 (by decide) (by decide)⟩

end CommandGrammar
