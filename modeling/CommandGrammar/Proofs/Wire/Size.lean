import CommandGrammar.Proofs.Steps
import CommandGrammar.Wire.Write
import CommandGrammar.Text.Size
import Mathlib.Algebra.BigOperators.Ring.List
import Mathlib.Algebra.Order.BigOperators.Group.List
import Mathlib.Algebra.Order.Ring.Nat
import Mathlib.Data.List.Perm.Subperm

/-!
# Sizes of fields

A variable-length integer has as many bytes as its size says, and a larger length or index has no
fewer of them (`lengthSize_mono`). Up to 127 it is one byte (`lengthSize_eq_one`).
-/

namespace CommandGrammar

/-! ## Sums -/

section

variable {α β : Type}

/-- What is counted of the items of all lists is counted list by list. -/
theorem sum_map_flatMap {f : β → Nat} {g : α → List β} (as : List α) :
    ((as.flatMap g).map f).sum = (as.map fun a => ((g a).map f).sum).sum := by
  rw [List.map_flatMap, List.flatMap_def, List.sum_flatten, List.map_map]
  rfl

/-- What is counted of ids that are all different is counted of all ids there are. -/
theorem sum_map_le_of_subset {f : α → Nat} {as bs : List α} (hnd : as.Nodup) (h : as ⊆ bs) :
    (as.map f).sum ≤ (bs.map f).sum := by
  obtain ⟨cs, hperm, hsub⟩ := hnd.subperm h
  rw [← (hperm.map f).sum_eq]
  exact (hsub.map f).sum_le_sum fun _ _ => Nat.zero_le _

end

/-! ## Variable-length integers -/

namespace VarInt

/-- As many bytes are written as there are digits. -/
@[simp] theorem length_digits : ∀ more n : Nat, (digits more n).length = digitCount more n
  | 0, n => rfl
  | more + 1, n => by
    rw [digits, digitCount]
    split
    · rfl
    · rw [List.length_cons, length_digits more]

/-- A number takes the bytes that its size says. -/
@[simp] theorem length_encode (v : Int32) : (encode v).length = size v :=
  length_digits _ _

@[simp] theorem size_pos (v : Int32) : 0 < size v := by
  rw [size, maxContinued, digitCount]
  split <;> omega

theorem digitCount_mono : ∀ {more m n : Nat}, m ≤ n → digitCount more m ≤ digitCount more n
  | 0, _, _, _ => Nat.le_refl _
  | more + 1, m, n, h => by
    have := @digitCount_mono more (m / 128) (n / 128) (Nat.div_le_div_right h)
    rw [digitCount, digitCount]
    split
    · split <;> omega
    · rw [if_neg (by omega)]
      omega

theorem bits_ofNat {n : Nat} (h : n ≤ Write.maxLength) : bits (Int32.ofNat n) = n := by
  have : n ≤ 0x7FFFFFFF := h
  rw [bits, Int32.toUInt32_ofNat', UInt32.toNat_ofNat']
  omega

end VarInt

/-- How many bytes a length or an index has. -/
def lengthSize (n : Nat) : Nat :=
  VarInt.size (Int32.ofNat n)

@[simp] theorem lengthSize_pos (n : Nat) : 0 < lengthSize n :=
  VarInt.size_pos _

theorem lengthSize_mono {m n : Nat} (h : m ≤ n) (hn : n ≤ Write.maxLength) :
    lengthSize m ≤ lengthSize n := by
  rw [lengthSize, lengthSize, VarInt.size, VarInt.size, VarInt.bits_ofNat hn,
    VarInt.bits_ofNat (Nat.le_trans h hn)]
  exact VarInt.digitCount_mono h

theorem lengthSize_eq_one {n : Nat} (h : n ≤ 127) : lengthSize n = 1 := by
  rw [lengthSize, VarInt.size, VarInt.bits_ofNat (Nat.le_trans h (by decide))]
  exact if_pos (Nat.lt_succ_of_le h)

namespace Write

/-- The length of the text can be written. -/
def Fits (s : String) : Prop :=
  (Utf8.encode s).length ≤ maxLength

instance : DecidablePred Fits := fun s =>
  inferInstanceAs (Decidable ((Utf8.encode s).length ≤ maxLength))

/-- Lengths up to the greatest are written, and no others. -/
@[simp] theorem length_eq_ok {n : Nat} {bs : List UInt8} :
    length n = .ok bs ↔ n ≤ maxLength ∧ bs = VarInt.encode (Int32.ofNat n) := by
  unfold length
  split
  · next h => simp [h, eq_comm]
  · next h => simp [h]

/-- A text is written if its length can be. -/
@[simp] theorem exists_text_iff {s : String} : (∃ bs, text s = .ok bs) ↔ Fits s := by
  constructor
  · rintro ⟨bs, h⟩
    obtain ⟨size, hsize, -⟩ := Except.bind_eq_ok.mp h
    exact (length_eq_ok.mp hsize).1
  · exact fun h => ⟨_, Except.bind_eq_ok.mpr ⟨_, length_eq_ok.mpr ⟨h, rfl⟩, rfl⟩⟩

/-- A length takes the bytes that its size says. -/
theorem size_of_length {n : Nat} {bs : List UInt8} (h : length n = .ok bs) :
    bs.length = lengthSize n := by
  obtain ⟨-, rfl⟩ := length_eq_ok.mp h
  exact VarInt.length_encode _

end Write

end CommandGrammar
