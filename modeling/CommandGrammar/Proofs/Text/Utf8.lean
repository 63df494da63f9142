import CommandGrammar.Text.Utf8

/-!
# UTF-8 round trip

The bytes of a text are read as this text (`Utf8.decode_encode`), and no other bytes are
(`Utf8.decode_eq_ok`). One character is at stake: its first byte says how many are to follow and
what the second may be, and every later byte adds its six bits (`Utf8.decodeFrom_last`,
`Utf8.decodeFrom_more`). The bounds on the second byte leave out just what would not be written so:
longer forms than needed, surrogates and numbers past the last character (`Utf8.of_afterLead`).
-/

namespace CommandGrammar.Utf8

/-- The last byte of the character `v`. -/
theorem decodeFrom_last {index low high seen bits n v : Nat} {bs : List UInt8} (hlow : low ≤ n)
    (hhigh : n ≤ high) (hn : n < 256) (hv : bits * 64 + n % 64 = v) :
    decodeFrom index (.inside low high 0 seen bits) (UInt8.ofNat n :: bs) =
      (Char.ofNat v :: ·) <$> decodeFrom (index + seen + 1) .start bs := by
  have : (UInt8.ofNat n).toNat = n := UInt8.toNat_ofNat_of_lt' hn
  rw [decodeFrom, this, if_pos ⟨hlow, hhigh⟩, hv]

/-- A byte of a character that is neither the first nor the last. -/
theorem decodeFrom_more {index low high more seen bits n : Nat} {bs : List UInt8} (hlow : low ≤ n)
    (hhigh : n ≤ high) (hn : n < 256) :
    decodeFrom index (.inside low high (more + 1) seen bits) (UInt8.ofNat n :: bs) =
      decodeFrom index (.inside 0x80 0xBF more (seen + 1) (bits * 64 + n % 64)) bs := by
  have : (UInt8.ofNat n).toNat = n := UInt8.toNat_ofNat_of_lt' hn
  rw [decodeFrom, this, if_pos ⟨hlow, hhigh⟩]

/-- The first byte of a character of several bytes. -/
theorem decodeFrom_lead {index n : Nat} {state : State} {bs : List UInt8} (hn : 0x80 ≤ n)
    (hlt : n < 256) (h : State.afterLead n = some state) :
    decodeFrom index .start (UInt8.ofNat n :: bs) = decodeFrom index state bs := by
  have : (UInt8.ofNat n).toNat = n := UInt8.toNat_ofNat_of_lt' hlt
  rw [decodeFrom, this, if_neg (Nat.not_lt_of_le hn), h]

theorem afterLead_two {n : Nat} (hle : 0xC2 ≤ n) (hlt : n ≤ 0xDF) :
    State.afterLead n = some (.inside 0x80 0xBF 0 1 (n - 0xC0)) :=
  if_pos ⟨hle, hlt⟩

theorem inside_congr {low high more seen bits bits' : Nat} (h : bits = bits') :
    some (State.inside low high more seen bits) = some (.inside low high more seen bits') := by
  rw [h]

/-- A first byte of three admits the second byte of every character but the surrogates. -/
theorem afterLead_three {v : Nat} (hle : 0x800 ≤ v) (hlt : v < 0x10000)
    (hsurrogate : v < 0xD800 ∨ 0xDFFF < v) : ∃ low high,
      State.afterLead (v / 4096 + 224) = some (.inside low high 1 1 (v / 4096)) ∧
        low ≤ v / 64 % 64 + 128 ∧ v / 64 % 64 + 128 ≤ high := by
  unfold State.afterLead
  rw [if_neg (by omega)]
  split
  · exact ⟨_, _, inside_congr (by omega), by omega, by omega⟩
  split
  · exact ⟨_, _, inside_congr (by omega), by omega, by omega⟩
  rw [if_pos (by omega)]
  exact ⟨_, _, inside_congr (by omega), by omega, by omega⟩

/-- A first byte of four admits the second byte of every character there is. -/
theorem afterLead_four {v : Nat} (hle : 0x10000 ≤ v) (hlt : v < 0x110000) : ∃ low high,
    State.afterLead (v / 262144 + 240) = some (.inside low high 2 1 (v / 262144)) ∧
      low ≤ v / 4096 % 64 + 128 ∧ v / 4096 % 64 + 128 ≤ high := by
  unfold State.afterLead
  rw [if_neg (by omega), if_neg (by omega), if_neg (by omega), if_neg (by omega)]
  split
  · exact ⟨_, _, inside_congr (by omega), by omega, by omega⟩
  split
  · exact ⟨_, _, inside_congr (by omega), by omega, by omega⟩
  rw [if_pos (by omega)]
  exact ⟨_, _, inside_congr (by omega), by omega, by omega⟩

/-- The bytes of a character are read as this character. -/
theorem decodeFrom_utf8EncodeChar (c : Char) (index : Nat) (bs : List UInt8) : ∃ index',
    decodeFrom index .start (String.utf8EncodeChar c ++ bs) =
      (c :: ·) <$> decodeFrom index' .start bs := by
  have hc : Char.ofNat c.val.toNat = c := Char.ofNat_toNat c
  have hvalid : c.val.toNat < 0xD800 ∨ 0xDFFF < c.val.toNat ∧ c.val.toNat < 0x110000 := c.valid
  simp only [String.utf8EncodeChar]
  generalize c.val.toNat = v at hc hvalid
  subst hc
  split
  · next h =>
    have hv : (UInt8.ofNat v).toNat = v := UInt8.toNat_ofNat_of_lt' (show v < 256 by omega)
    exact ⟨index + 1, by rw [List.singleton_append, decodeFrom, hv, if_pos (by omega)]⟩
  split
  · next h =>
    have hlead := afterLead_two (n := v / 64 % 32 + 192) (by omega) (by omega)
    simp only [List.cons_append, List.nil_append]
    rw [decodeFrom_lead (by omega) (by omega) hlead,
      decodeFrom_last (v := v) (by omega) (by omega) (by omega) (by omega)]
    exact ⟨_, rfl⟩
  split
  · next h =>
    obtain ⟨low, high, hlead, hlow, hhigh⟩ := afterLead_three (v := v) (by omega) (by omega)
      (by omega)
    rw [show v / 4096 % 16 = v / 4096 by omega]
    simp only [List.cons_append, List.nil_append]
    rw [decodeFrom_lead (by omega) (by omega) hlead, decodeFrom_more hlow hhigh (by omega),
      decodeFrom_last (v := v) (by omega) (by omega) (by omega) (by omega)]
    exact ⟨_, rfl⟩
  · next h =>
    obtain ⟨low, high, hlead, hlow, hhigh⟩ := afterLead_four (v := v) (by omega) (by omega)
    rw [show v / 262144 % 8 = v / 262144 by omega]
    simp only [List.cons_append, List.nil_append]
    rw [decodeFrom_lead (by omega) (by omega) hlead, decodeFrom_more hlow hhigh (by omega),
      decodeFrom_more (by omega) (by omega) (by omega),
      decodeFrom_last (v := v) (by omega) (by omega) (by omega) (by omega)]
    exact ⟨_, rfl⟩

theorem decodeFrom_flatMap (index : Nat) :
    ∀ cs : List Char, decodeFrom index .start (cs.flatMap String.utf8EncodeChar) = .ok cs
  | [] => rfl
  | c :: cs => by
    obtain ⟨index', h⟩ :=
      decodeFrom_utf8EncodeChar c index (cs.flatMap String.utf8EncodeChar)
    rw [List.flatMap_cons, h, decodeFrom_flatMap index' cs]
    rfl

/-- The bytes of a text are read as this text. -/
@[simp] theorem decode_encode (s : String) : decode (encode s) = .ok s := by
  rw [decode, encode, decodeFrom_flatMap]
  exact congrArg Except.ok String.ofList_toList

/-! ## From bytes to a text and back -/

/-- The state after a first byte, and the bounds on the second byte that rule out what is no
character or has a shorter form. -/
theorem of_afterLead {n : Nat} {state : State} (h : State.afterLead n = some state) :
    ∃ low high more bits, state = .inside low high more 1 bits ∧ 0x80 ≤ low ∧ high ≤ 0xBF ∧
      (more = 0 ∧ n = bits + 0xC0 ∧ 2 ≤ bits ∧ bits < 0x20 ∨
        more = 1 ∧ n = bits + 0xE0 ∧ bits < 0x10 ∧ 0x800 ≤ bits * 0x1000 + (low - 0x80) * 0x40 ∧
          (bits = 0xD → high < 0xA0) ∨
        more = 2 ∧ n = bits + 0xF0 ∧ 0x10 ≤ bits * 0x40 + (low - 0x80) ∧
          bits * 0x40 + (high - 0x80) < 0x110) := by
  unfold State.afterLead at h
  split at h
  · exact ⟨_, _, _, _, (Option.some.inj h).symm, by decide, by decide, .inl ⟨rfl, by omega⟩⟩
  split at h
  · exact ⟨_, _, _, _, (Option.some.inj h).symm, by decide, by decide, .inr (.inl ⟨rfl, by omega⟩)⟩
  split at h
  · exact ⟨_, _, _, _, (Option.some.inj h).symm, by decide, by decide, .inr (.inl ⟨rfl, by omega⟩)⟩
  split at h
  · exact ⟨_, _, _, _, (Option.some.inj h).symm, by decide, by decide, .inr (.inl ⟨rfl, by omega⟩)⟩
  split at h
  · exact ⟨_, _, _, _, (Option.some.inj h).symm, by decide, by decide, .inr (.inr ⟨rfl, by omega⟩)⟩
  split at h
  · exact ⟨_, _, _, _, (Option.some.inj h).symm, by decide, by decide, .inr (.inr ⟨rfl, by omega⟩)⟩
  split at h
  · exact ⟨_, _, _, _, (Option.some.inj h).symm, by decide, by decide, .inr (.inr ⟨rfl, by omega⟩)⟩
  · cases h

theorem of_decodeFrom_last {index low high seen bits : Nat} {bs : List UInt8} {cs : List Char}
    (h : decodeFrom index (.inside low high 0 seen bits) bs = .ok cs) :
    ∃ n rest index' cs', low ≤ n ∧ n ≤ high ∧ bs = UInt8.ofNat n :: rest ∧
      cs = Char.ofNat (bits * 64 + n % 64) :: cs' ∧ decodeFrom index' .start rest = .ok cs' := by
  cases bs with
  | nil => cases h
  | cons b rest =>
    rw [decodeFrom] at h
    split at h
    · next hb =>
      cases hrest : decodeFrom (index + seen + 1) .start rest with
      | error fault => rw [hrest] at h; cases h
      | ok cs' =>
        rw [hrest] at h
        exact ⟨b.toNat, rest, _, cs', hb.1, hb.2, by rw [UInt8.ofNat_toNat],
          (Except.ok.inj h).symm, hrest⟩
    · cases h

theorem of_decodeFrom_more {index low high more seen bits : Nat} {bs : List UInt8} {cs : List Char}
    (h : decodeFrom index (.inside low high (more + 1) seen bits) bs = .ok cs) :
    ∃ n rest, low ≤ n ∧ n ≤ high ∧ bs = UInt8.ofNat n :: rest ∧
      decodeFrom index (.inside 0x80 0xBF more (seen + 1) (bits * 64 + n % 64)) rest = .ok cs := by
  cases bs with
  | nil => cases h
  | cons b rest =>
    rw [decodeFrom] at h
    split at h
    · next hb => exact ⟨b.toNat, rest, hb.1, hb.2, by rw [UInt8.ofNat_toNat], h⟩
    · cases h

theorem val_ofNat {v : Nat} (h : v < 0xD800 ∨ 0xDFFF < v ∧ v < 0x110000) :
    (Char.ofNat v).val.toNat = v := by
  rw [Char.ofNat, dif_pos h]
  rfl

/-- The bytes of a character of two bytes, with the bits of each byte. -/
theorem utf8EncodeChar_two {x y : Nat} (hx : 2 ≤ x) (hx' : x < 0x20) (hy : y < 0x40) :
    String.utf8EncodeChar (Char.ofNat (x * 64 + y)) =
      [UInt8.ofNat (x + 0xC0), UInt8.ofNat (y + 0x80)] := by
  have hv := val_ofNat (v := x * 64 + y) (by omega)
  simp only [String.utf8EncodeChar, hv]
  rw [if_neg (by omega), if_pos (by omega), show (x * 64 + y) / 64 % 32 = x by omega,
    show (x * 64 + y) % 64 = y by omega]

theorem utf8EncodeChar_three {x y z : Nat} (hle : 0x800 ≤ x * 0x1000 + y * 64) (hx : x < 0x10)
    (hy : y < 0x40) (hz : z < 0x40) (hsurrogate : x = 0xD → y < 0x20) :
    String.utf8EncodeChar (Char.ofNat ((x * 64 + y) * 64 + z)) =
      [UInt8.ofNat (x + 0xE0), UInt8.ofNat (y + 0x80), UInt8.ofNat (z + 0x80)] := by
  have hv := val_ofNat (v := (x * 64 + y) * 64 + z) (by omega)
  simp only [String.utf8EncodeChar, hv]
  rw [if_neg (by omega), if_neg (by omega), if_pos (by omega),
    show ((x * 64 + y) * 64 + z) / 4096 % 16 = x by omega,
    show ((x * 64 + y) * 64 + z) / 64 % 64 = y by omega,
    show ((x * 64 + y) * 64 + z) % 64 = z by omega]

theorem utf8EncodeChar_four {w x y z : Nat} (hle : 0x10 ≤ w * 64 + x) (hlt : w * 64 + x < 0x110)
    (hx : x < 0x40) (hy : y < 0x40) (hz : z < 0x40) :
    String.utf8EncodeChar (Char.ofNat (((w * 64 + x) * 64 + y) * 64 + z)) =
      [UInt8.ofNat (w + 0xF0), UInt8.ofNat (x + 0x80), UInt8.ofNat (y + 0x80),
        UInt8.ofNat (z + 0x80)] := by
  have hv := val_ofNat (v := ((w * 64 + x) * 64 + y) * 64 + z) (by omega)
  simp only [String.utf8EncodeChar, hv]
  rw [if_neg (by omega), if_neg (by omega), if_neg (by omega),
    show (((w * 64 + x) * 64 + y) * 64 + z) / 262144 % 8 = w by omega,
    show (((w * 64 + x) * 64 + y) * 64 + z) / 4096 % 64 = x by omega,
    show (((w * 64 + x) * 64 + y) * 64 + z) / 64 % 64 = y by omega,
    show (((w * 64 + x) * 64 + y) * 64 + z) % 64 = z by omega]

/-- What is read after a first byte begins with the other bytes of a character. -/
theorem of_decodeFrom_lead {index n : Nat} {state : State} {bs : List UInt8} {cs : List Char}
    (hstate : State.afterLead n = some state) (h : decodeFrom index state bs = .ok cs) :
    ∃ c rest index' cs', UInt8.ofNat n :: bs = String.utf8EncodeChar c ++ rest ∧ cs = c :: cs' ∧
      decodeFrom index' .start rest = .ok cs' := by
  obtain ⟨low, high, more, bits, rfl, hlow, hhigh, hcases⟩ := of_afterLead hstate
  rcases hcases with ⟨rfl, rfl, hcase⟩ | ⟨rfl, rfl, hcase⟩ | ⟨rfl, rfl, hcase⟩
  · obtain ⟨n₁, rest, index', cs', hle₁, hlt₁, rfl, rfl, h₁⟩ := of_decodeFrom_last h
    refine ⟨_, rest, index', cs', ?_, rfl, h₁⟩
    rw [utf8EncodeChar_two (by omega) (by omega) (by omega), show n₁ % 64 + 0x80 = n₁ by omega]
    rfl
  · obtain ⟨n₁, rest, hle₁, hlt₁, rfl, h₁⟩ := of_decodeFrom_more h
    obtain ⟨n₂, rest, index', cs', hle₂, hlt₂, rfl, rfl, h₂⟩ := of_decodeFrom_last h₁
    refine ⟨_, rest, index', cs', ?_, rfl, h₂⟩
    rw [utf8EncodeChar_three (by omega) (by omega) (by omega) (by omega) (by omega),
      show n₁ % 64 + 0x80 = n₁ by omega, show n₂ % 64 + 0x80 = n₂ by omega]
    rfl
  · obtain ⟨n₁, rest, hle₁, hlt₁, rfl, h₁⟩ := of_decodeFrom_more h
    obtain ⟨n₂, rest, hle₂, hlt₂, rfl, h₂⟩ := of_decodeFrom_more h₁
    obtain ⟨n₃, rest, index', cs', hle₃, hlt₃, rfl, rfl, h₃⟩ := of_decodeFrom_last h₂
    refine ⟨_, rest, index', cs', ?_, rfl, h₃⟩
    rw [utf8EncodeChar_four (by omega) (by omega) (by omega) (by omega) (by omega),
      show n₁ % 64 + 0x80 = n₁ by omega, show n₂ % 64 + 0x80 = n₂ by omega,
      show n₃ % 64 + 0x80 = n₃ by omega]
    rfl

/-- Bytes that are read as a text begin with the bytes of its first character. -/
theorem of_decodeFrom_start {index : Nat} {b : UInt8} {bs : List UInt8} {cs : List Char}
    (h : decodeFrom index .start (b :: bs) = .ok cs) : ∃ c rest index' cs',
      b :: bs = String.utf8EncodeChar c ++ rest ∧ cs = c :: cs' ∧
        decodeFrom index' .start rest = .ok cs' := by
  rw [decodeFrom] at h
  split at h
  · next hb =>
    cases hbs : decodeFrom (index + 1) .start bs with
    | error fault => rw [hbs] at h; cases h
    | ok cs' =>
      rw [hbs] at h
      have hv := val_ofNat (v := b.toNat) (by omega)
      refine ⟨_, bs, _, cs', ?_, (Except.ok.inj h).symm, hbs⟩
      simp only [String.utf8EncodeChar, hv]
      rw [if_pos (by omega), UInt8.ofNat_toNat, List.singleton_append]
  split at h
  · next state hstate =>
    have hlead := of_decodeFrom_lead hstate h
    rwa [UInt8.ofNat_toNat] at hlead
  · cases h

theorem flatMap_of_decodeFrom :
    ∀ {cs : List Char} {index : Nat} {bs : List UInt8}, decodeFrom index .start bs = .ok cs →
      bs = cs.flatMap String.utf8EncodeChar
  | cs, index, [], h => by
    obtain rfl := Except.ok.inj h
    rfl
  | [], index, b :: bs, h => by
    obtain ⟨c, rest, index', cs', -, hcs, -⟩ := of_decodeFrom_start h
    cases hcs
  | c :: cs, index, b :: bs, h => by
    obtain ⟨c, rest, index', cs', hbytes, hcs, h⟩ := of_decodeFrom_start h
    obtain ⟨rfl, rfl⟩ := List.cons.inj hcs
    rw [List.flatMap_cons, ← flatMap_of_decodeFrom h, hbytes]

/-- Only the bytes of a text are read as this text. -/
theorem decode_eq_ok {bs : List UInt8} {s : String} : decode bs = .ok s ↔ encode s = bs := by
  constructor
  · intro h
    rw [decode] at h
    cases hcs : decodeFrom 0 .start bs with
    | error fault => rw [hcs] at h; cases h
    | ok cs =>
      rw [hcs] at h
      obtain rfl : String.ofList cs = s := Except.ok.inj h
      rw [encode, String.toList_ofList, flatMap_of_decodeFrom hcs]
  · rintro rfl
    exact decode_encode s

end CommandGrammar.Utf8
