import CommandGrammar.Proofs.Wire.RoundTrip

/-!
# Locality of reading

A step is local if a value that it reads is read from bytes of its own: it reads the value from them
whatever follows, and a part of them is too few, however it is cut (`Reading.IsLocal`,
`Reading.Takes`). Composed steps are local if their parts are, and every field is local. So what a
local step reads falls apart into what its parts read (`Reading.IsLocal.reads_bind`), and bytes are
counted part by part: a number takes no fewer bytes than the shortest way to write it
(`Reading.size_le_of_reads`), a text one byte more than it has itself
(`Reading.size_lt_of_reads_text`).
-/

namespace CommandGrammar

namespace Reading

variable {α β : Type} {r : Reading α} {next : α → Reading β} {bs bs' : List UInt8} {v : α} {w : β}

/-- The step reads the value from the bytes, and needs all of them. -/
structure Takes (r : Reading α) (bs : List UInt8) (v : α) : Prop where
  reads : Reads r bs v
  short : ∀ {pre suf}, bs = pre ++ suf → suf ≠ [] → ∃ left, r pre = .error .endOfInput left

/-- Whatever the step reads, it takes from the front. -/
def IsLocal (r : Reading α) : Prop :=
  ∀ bytes left v, r bytes = .ok v left → ∃ bs, bytes = bs ++ left ∧ Takes r bs v

/-! ## Composed steps -/

theorem takes_pure (v : α) : Takes (pure v) [] v where
  reads := reads_pure v
  short h hsuf := absurd (List.append_eq_nil_iff.mp h.symm).2 hsuf

/-- The bytes end within those of the first step, or after them. -/
theorem Takes.bind (h : Takes r bs v) (hnext : Takes (next v) bs' w) :
    Takes (r >>= next) (bs ++ bs') w where
  reads := h.reads.bind hnext.reads
  short {pre suf} hcut hsuf := by
    have after : ∀ part, bs' = part ++ suf → pre = bs ++ part →
        ∃ left, (r >>= next) pre = .error .endOfInput left := by
      rintro part hpart rfl
      obtain ⟨left, hleft⟩ := hnext.short hpart hsuf
      exact ⟨left, EStateM.bind_eq_error.mpr (.inr ⟨v, part, h.reads part, hleft⟩)⟩
    rcases List.append_eq_append_iff.mp hcut with ⟨part, hpre, hpart⟩ | ⟨part, hbs, hpart⟩
    · exact after part hpart hpre
    · by_cases hnil : part = []
      · subst hnil
        exact after [] hpart.symm (by rw [hbs, List.append_nil, List.append_nil])
      · obtain ⟨left, hleft⟩ := h.short hbs hnil
        exact ⟨left, EStateM.bind_eq_error.mpr (.inl hleft)⟩

theorem isLocal_pure (v : α) : IsLocal (pure v) := fun bytes left w h => by
  obtain ⟨rfl, rfl⟩ := EStateM.pure_eq_ok.mp h
  exact ⟨[], rfl, takes_pure v⟩

theorem isLocal_throw (fault : Malformed) : IsLocal (throw fault : Reading α) :=
  fun _ _ _ h => nomatch h

/-- Readings in a row look at what each of them takes, and no further. -/
theorem IsLocal.bind (h : IsLocal r) (hnext : ∀ v, IsLocal (next v)) : IsLocal (r >>= next) :=
  fun bytes left w hrun => by
    obtain ⟨v, rest, hv, hw⟩ := EStateM.bind_eq_ok.mp hrun
    obtain ⟨bs, rfl, hbs⟩ := h _ _ _ hv
    obtain ⟨bs', rfl, hbs'⟩ := hnext v _ _ _ hw
    exact ⟨bs ++ bs', (List.append_assoc ..).symm, hbs.bind hbs'⟩

/-- A last step that takes no bytes. -/
theorem IsLocal.bind_pure (h : IsLocal r) (f : α → β) : IsLocal (r >>= fun v => pure (f v)) :=
  h.bind fun _ => isLocal_pure _

/-- Making something of a value is a step that reads nothing more. -/
theorem map_eq_bind (f : α → β) : (f <$> r) = r >>= fun v => pure (f v) := by
  funext bytes
  show EStateM.map f r bytes = EStateM.bind r _ bytes
  unfold EStateM.map EStateM.bind
  cases r bytes <;> rfl

theorem IsLocal.map (h : IsLocal r) (f : α → β) : IsLocal (f <$> r) := by
  rw [map_eq_bind]
  exact h.bind_pure f

theorem IsLocal.ite {p : Prop} [Decidable p] {r' : Reading α} (h : IsLocal r) (h' : IsLocal r') :
    IsLocal (if p then r else r') := by
  split
  · exact h
  · exact h'

/-- Reading again and again is local if reading once is. -/
theorem IsLocal.replicate (h : IsLocal r) : ∀ n, IsLocal (replicate n r)
  | 0 => isLocal_pure []
  | n + 1 => h.bind fun _ => (h.replicate n).bind_pure _

/-! ## Fields -/

theorem isLocal_byte : IsLocal byte
  | b :: rest, _, _, h => by
    cases h
    refine ⟨[b], rfl, reads_byte b, fun {pre suf} hcut hsuf => ⟨[], ?_⟩⟩
    rcases List.cons_eq_append_iff.mp hcut with ⟨rfl, -⟩ | ⟨part, -, hpart⟩
    · rfl
    · exact absurd (List.append_eq_nil_iff.mp hpart.symm).2 hsuf

theorem isLocal_bytes (n : Nat) : IsLocal (bytes n) := fun all left bs h => by
  rw [bytes] at h
  split at h
  · next hn =>
    cases h
    have hlen : (all.take n).length = n := List.length_take_of_le hn
    have hreads := reads_bytes (all.take n)
    rw [hlen] at hreads
    refine ⟨_, (List.take_append_drop n all).symm, hreads, fun {pre suf} hcut hsuf => ⟨pre, ?_⟩⟩
    have := congrArg List.length hcut
    have := List.length_pos_of_ne_nil hsuf
    rw [List.length_append] at *
    rw [bytes, if_neg (by omega)]
  · cases h

/-- Digits end with the first low byte, so what follows does not matter. -/
theorem isLocal_digits : ∀ more, IsLocal (digits more)
  | 0 => isLocal_byte.bind fun _ => (isLocal_pure _).ite (isLocal_throw _)
  | more + 1 => isLocal_byte.bind fun _ => (isLocal_pure _).ite ((isLocal_digits more).bind_pure _)

theorem isLocal_varInt : IsLocal varInt :=
  (isLocal_digits _).bind_pure _

theorem isLocal_int32 : IsLocal int32 :=
  (isLocal_bytes 4).bind_pure _

theorem isLocal_length : IsLocal length :=
  isLocal_varInt.bind fun _ => (isLocal_throw _).ite (isLocal_pure _)

/-- A text says first how many bytes it has. -/
theorem isLocal_text : IsLocal text :=
  isLocal_length.bind fun n => (isLocal_bytes n).bind fun body => by
    cases Utf8.decode body with
    | ok s => exact isLocal_pure s
    | error fault => exact isLocal_throw _

/-! ## What the parts of a step read -/

/-- A local step reads what it reads from the bytes that it takes. -/
theorem IsLocal.eq_ok_iff (h : IsLocal r) {bytes left : List UInt8} :
    r bytes = .ok v left ↔ ∃ bs, bytes = bs ++ left ∧ Reads r bs v := by
  constructor
  · intro hrun
    obtain ⟨bs, hbs, htakes⟩ := h _ _ _ hrun
    exact ⟨bs, hbs, htakes.reads⟩
  · rintro ⟨bs, rfl, hreads⟩
    exact hreads left

/-- To read the bytes before anything is to read them alone. -/
theorem IsLocal.reads_iff (h : IsLocal r) : Reads r bs v ↔ r bs = .ok v [] := by
  simp only [h.eq_ok_iff, List.append_nil, exists_eq_left']

/-- Without its last bytes, what is read ends too soon. -/
theorem IsLocal.short (h : IsLocal r) (hreads : Reads r bs v) {pre suf : List UInt8}
    (hcut : bs = pre ++ suf) (hsuf : suf ≠ []) : ∃ left, r pre = .error .endOfInput left := by
  obtain ⟨bs', hbs', htakes⟩ := h _ _ _ (h.reads_iff.mp hreads)
  rw [List.append_nil] at hbs'
  exact htakes.short (hbs' ▸ hcut) hsuf

@[simp] theorem reads_pure_iff {v' : α} : Reads (pure v) bs v' ↔ bs = [] ∧ v = v' := by
  simp [(isLocal_pure v).reads_iff, and_comm]

theorem not_reads_throw {fault : Malformed} : ¬Reads (throw fault : Reading α) bs v :=
  fun h => nomatch h []

/-- What two steps read falls into what each of them does. -/
theorem IsLocal.reads_bind (h : IsLocal r) :
    Reads (r >>= next) bs w ↔
      ∃ v bs₁ bs₂, bs = bs₁ ++ bs₂ ∧ Reads r bs₁ v ∧ Reads (next v) bs₂ w := by
  constructor
  · intro hreads
    obtain ⟨v, rest, hv, -⟩ := EStateM.bind_eq_ok.mp (hreads [])
    rw [List.append_nil] at hv
    obtain ⟨bs₁, rfl, hbs⟩ := h.eq_ok_iff.mp hv
    refine ⟨v, bs₁, rest, rfl, hbs, fun left => ?_⟩
    obtain ⟨v', rest', hv', hw⟩ := EStateM.bind_eq_ok.mp (hreads left)
    rw [List.append_assoc, hbs] at hv'
    obtain ⟨rfl, rfl⟩ := EStateM.Result.ok.inj hv'
    exact hw
  · rintro ⟨v, bs₁, bs₂, rfl, hv, hw⟩
    exact hv.bind hw

theorem IsLocal.reads_bind_pure (h : IsLocal r) {f : α → β} :
    Reads (r >>= fun v => pure (f v)) bs w ↔ ∃ v, Reads r bs v ∧ f v = w := by
  simp only [h.reads_bind, reads_pure_iff]
  constructor
  · rintro ⟨v, bs₁, _, rfl, hv, rfl, hw⟩
    exact ⟨v, by rwa [List.append_nil], hw⟩
  · rintro ⟨v, hv, hw⟩
    exact ⟨v, bs, [], (List.append_nil bs).symm, hv, rfl, hw⟩

/-- Making something of the value changes none of the bytes. -/
theorem IsLocal.reads_map (h : IsLocal r) {f : α → β} :
    Reads (f <$> r) bs w ↔ ∃ v, Reads r bs v ∧ f v = w := by
  rw [map_eq_bind, h.reads_bind_pure]

/-- What is read again and again falls into pieces, one for each time. -/
theorem IsLocal.reads_replicate (h : IsLocal r) : ∀ {n : Nat} {bs : List UInt8} {vs : List α},
    Reads (Reading.replicate n r) bs vs →
      ∃ bss, bs = bss.flatten ∧ vs.length = n ∧ List.Forall₂ (Reads r) bss vs
  | 0, bs, vs, hreads => by
    obtain ⟨rfl, rfl⟩ := reads_pure_iff.mp hreads
    exact ⟨[], rfl, rfl, .nil⟩
  | n + 1, bs, vs, hreads => by
    obtain ⟨v, bs₁, bs₂, rfl, hv, hreads⟩ := h.reads_bind.mp hreads
    obtain ⟨vs, hvs, rfl⟩ := (h.replicate n).reads_bind_pure.mp hreads
    obtain ⟨bss, rfl, rfl, hbss⟩ := h.reads_replicate hvs
    exact ⟨bs₁ :: bss, rfl, rfl, .cons hv hbss⟩

@[simp] theorem reads_byte_iff {b : UInt8} : Reads byte bs b ↔ bs = [b] := by
  constructor
  · intro h
    rcases bs with _ | ⟨b', bs⟩
    · cases h []
    · cases isLocal_byte.reads_iff.mp h
      rfl
  · rintro rfl
    exact reads_byte b

@[simp] theorem reads_bytes_iff {n : Nat} : Reads (bytes n) bs bs' ↔ bs = bs' ∧ bs.length = n := by
  constructor
  · intro h
    have hrun := (isLocal_bytes n).reads_iff.mp h
    rw [bytes] at hrun
    split at hrun
    · next hn =>
      obtain ⟨htake, hdrop⟩ := EStateM.Result.ok.inj hrun
      have hlen : bs.length = n := Nat.le_antisymm (List.drop_eq_nil_iff.mp hdrop) hn
      exact ⟨by rw [← htake, ← hlen, List.take_length], hlen⟩
    · cases hrun
  · rintro ⟨rfl, rfl⟩
    exact reads_bytes bs

/-! ## How many bytes are taken -/

/-- What is read one by one is no larger than the bytes if each part is no larger than its own. -/
theorem IsLocal.sum_le_of_reads (h : IsLocal r) {size : α → Nat}
    (hsize : ∀ {bs v}, Reads r bs v → size v ≤ bs.length) {n : Nat} {bs : List UInt8} {vs : List α}
    (hreads : Reads (Reading.replicate n r) bs vs) : (vs.map size).sum ≤ bs.length := by
  obtain ⟨bss, rfl, -, hbss⟩ := h.reads_replicate hreads
  clear hreads
  induction hbss with
  | nil => exact Nat.le_refl 0
  | cons hv _ ih =>
    rw [List.map_cons, List.sum_cons, List.flatten_cons, List.length_append]
    exact Nat.add_le_add (hsize hv) ih

/-- A number may be written in more digits than it has, but not in fewer. -/
theorem digitCount_le_of_reads : ∀ {more : Nat} {bs : List UInt8} {n : Nat},
    Reads (digits more) bs n → VarInt.digitCount more n ≤ bs.length
  | 0, bs, n, h => by
    obtain ⟨b, bs₁, rest, rfl, hb, -⟩ := isLocal_byte.reads_bind.mp h
    obtain rfl := reads_byte_iff.mp hb
    rw [VarInt.digitCount, List.length_append]
    exact Nat.le_add_right 1 rest.length
  | more + 1, bs, n, h => by
    obtain ⟨b, bs₁, rest, rfl, hb, hrest⟩ := isLocal_byte.reads_bind.mp h
    obtain rfl := reads_byte_iff.mp hb
    rw [VarInt.digitCount, List.singleton_append, List.length_cons]
    split at hrest
    · next hlt =>
      obtain ⟨-, rfl⟩ := reads_pure_iff.mp hrest
      rw [if_pos hlt]
      exact Nat.le_add_left 1 rest.length
    · obtain ⟨high, hhigh, rfl⟩ := (isLocal_digits more).reads_bind_pure.mp hrest
      have := digitCount_le_of_reads hhigh
      rw [show (b.toNat % 128 + 128 * high) / 128 = high by omega]
      split <;> omega

/-- No bytes from which an integer is read are fewer than those written for it. -/
theorem size_le_of_reads {i : Int32} (h : Reads varInt bs i) : VarInt.size i ≤ bs.length := by
  obtain ⟨n, hn, rfl⟩ := (isLocal_digits _).reads_bind_pure.mp h
  have hbits : VarInt.bits (Int32.ofNat n) ≤ n := by
    rw [VarInt.bits, Int32.toUInt32_ofNat', UInt32.toNat_ofNat']
    exact Nat.mod_le _ _
  exact Nat.le_trans (VarInt.digitCount_mono hbits) (digitCount_le_of_reads hn)

theorem length_pos_of_reads {n : Nat} (h : Reads length bs n) : 0 < bs.length := by
  obtain ⟨i, bs₁, rest, rfl, hi, -⟩ := isLocal_varInt.reads_bind.mp h
  rw [List.length_append]
  exact Nat.add_pos_left (Nat.lt_of_lt_of_le (VarInt.size_pos i) (size_le_of_reads hi)) _

/-- A text is read from its length and its own bytes. -/
theorem size_lt_of_reads_text {s : String} (h : Reads text bs s) :
    (Utf8.encode s).length < bs.length := by
  obtain ⟨n, bs₁, rest, rfl, hn, hrest⟩ := isLocal_length.reads_bind.mp h
  obtain ⟨body, bs₂, none, rfl, hbody, hs⟩ := (isLocal_bytes n).reads_bind.mp hrest
  obtain ⟨rfl, -⟩ := reads_bytes_iff.mp hbody
  split at hs
  · next s' hdecode =>
    obtain ⟨rfl, rfl⟩ := reads_pure_iff.mp hs
    have := length_pos_of_reads hn
    rw [Utf8.decode_eq_ok.mp hdecode, List.append_nil, List.length_append]
    omega
  · exact (not_reads_throw hs).elim

end Reading

end CommandGrammar
