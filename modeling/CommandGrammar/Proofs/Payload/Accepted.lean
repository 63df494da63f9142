import CommandGrammar.Proofs.Payload.Delimited

/-!
# What holds of every payload that is accepted

Bytes come from whoever sent them, and the counts and lengths among them promise up to two thousand
million entries. What is made of them can be relied on all the same
(`Payload.wellFormed_of_decode`): each reference is a place of a record, each record has the fields
of its kind, and the properties of a parser are properties of that parser (`Hint.IsProperties`).
Whatever is read is no larger than the bytes it was read from, field by field, so a promise is worth
no more than the bytes that come with it.
-/

namespace CommandGrammar

open Reading

/-! ## Properties of parsers -/

/-- The integer is read from the bytes, and from none that are fewer. -/
def Reading.IsShortest (bs : List UInt8) (i : Int32) : Prop :=
  Reads varInt bs i ∧ ∀ bs', Reads varInt bs' i → bs.length ≤ bs'.length

/-- No fewer bytes are read as a number than are written of it. -/
theorem Reading.isShortest_encode (i : Int32) : IsShortest (VarInt.encode i) i := by
  refine ⟨reads_varInt i, fun bs' h => ?_⟩
  rw [VarInt.length_encode]
  exact size_le_of_reads h

namespace Hint

/-- The bytes are properties of the parser. -/
inductive IsProperties : String → List UInt8 → Prop
  | text {mode : Int32} (h : IsShortest (VarInt.encode mode) mode) :
    IsProperties textParser (VarInt.encode mode)
  | boolean : IsProperties booleanParser []
  | integer {flags : UInt8} {bounds} (h : bounds.length =
      (if flags.toNat.testBit 0 then 4 else 0) + (if flags.toNat.testBit 1 then 4 else 0)) :
    IsProperties integerParser (flags :: bounds)

/-- A bound takes four bytes, and gives four. -/
theorem length_of_reads_bound {flag : Bool} {bs : List UInt8} {bound : Option Int32}
    (h : Reads (flagged flag int32) bs bound) :
    bs.length = (if flag then 4 else 0) ∧
      (bound.toList.flatMap Write.int32).length = if flag then 4 else 0 := by
  cases flag with
  | false =>
    obtain ⟨rfl, rfl⟩ := reads_pure_iff.mp h
    exact ⟨rfl, rfl⟩
  | true =>
    obtain ⟨v, hv, rfl⟩ := isLocal_int32.reads_map.mp h
    obtain ⟨word, hword, rfl⟩ := (isLocal_bytes 4).reads_bind_pure.mp hv
    exact ⟨(reads_bytes_iff.mp hword).2, rfl⟩

/-- Properties that are read belong to their parser, and are no longer than what was read. -/
theorem isProperties_of_reads {parser : String} {bs properties : List UInt8}
    (h : Reads (readProperties parser) bs properties) :
    IsProperties parser properties ∧ properties.length ≤ bs.length := by
  rw [readProperties] at h
  split at h
  · next hparser =>
    obtain ⟨mode, hmode, rfl⟩ := isLocal_varInt.reads_map.mp h
    exact ⟨hparser ▸ .text (isShortest_encode mode), (isShortest_encode mode).2 bs hmode⟩
  split at h
  · next hparser =>
    obtain ⟨rfl, rfl⟩ := reads_pure_iff.mp h
    exact ⟨hparser ▸ .boolean, Nat.le_refl _⟩
  split at h
  · next hparser =>
    obtain ⟨flags, bs₁, bs₂, rfl, hflags, h⟩ := isLocal_byte.reads_bind.mp h
    obtain rfl := reads_byte_iff.mp hflags
    obtain ⟨min, bs₃, bs₄, rfl, hmin, h⟩ := (isLocal_int32.flagged _).reads_bind.mp h
    obtain ⟨max, hmax, rfl⟩ := (isLocal_int32.flagged _).reads_bind_pure.mp h
    obtain ⟨hbs₃, hmin⟩ := length_of_reads_bound hmin
    obtain ⟨hbs₄, hmax⟩ := length_of_reads_bound hmax
    have hbounds := congrArg₂ (· + ·) hmin hmax
    rw [← List.length_append, ← List.flatMap_append] at hbounds
    refine ⟨hparser ▸ .integer hbounds, ?_⟩
    simp only [List.length_cons, List.length_append, hbounds, hbs₃, hbs₄, List.length_nil]
    omega
  · exact (not_reads_throw h).elim

end Hint

/-! ## Bodies -/

namespace Body

/-- The texts of a body. -/
def texts (b : Body) : List String :=
  b.name?.toList ++ b.parser?.toList ++ b.provider?.toList

/-- How many bytes the texts and the properties of a body have. -/
def size (b : Body) : Nat :=
  (b.texts.map fun s => (Utf8.encode s).length).sum + b.properties.length

/-- A body has the fields of its kind. -/
structure WellFormed (b : Body) : Prop where
  name : b.name?.isSome ↔ b.kind ≠ .root
  parser : b.parser?.isSome ↔ b.kind = .argument
  properties : ∀ parser ∈ b.parser?, Hint.IsProperties parser b.properties
  no_properties : b.parser? = none → b.properties = []
  provider : b.provider?.isSome → b.kind = .argument

theorem wellFormed_root : root.WellFormed where
  name := by decide
  parser := by decide
  properties _ h := absurd h (Option.not_mem_none _)
  no_properties _ := rfl
  provider := by decide

theorem wellFormed_literal (name : String) : (literal name).WellFormed where
  name := by simp [name?, kind]
  parser := by simp [parser?, kind]
  properties _ h := absurd h (Option.not_mem_none _)
  no_properties _ := rfl
  provider h := absurd h Bool.false_ne_true

theorem wellFormed_argument {name parser : String} {properties : List UInt8}
    {provider : Option String} (h : Hint.IsProperties parser properties) :
    (argument name parser properties provider).WellFormed where
  name := by simp [name?, kind]
  parser := by simp [parser?, kind]
  properties parser' hparser := by
    obtain rfl := Option.some.inj (Option.mem_def.mp hparser)
    exact h
  no_properties h := absurd h (Option.some_ne_none parser)
  provider _ := rfl

/-- A provider, if there is one, is no longer than the bytes it was read from. -/
theorem size_le_of_reads_provider {flag : Bool} {bs : List UInt8} {provider : Option String}
    (h : Reads (flagged flag text) bs provider) :
    (provider.toList.map fun s => (Utf8.encode s).length).sum ≤ bs.length := by
  cases flag with
  | false =>
    obtain ⟨rfl, rfl⟩ := reads_pure_iff.mp h
    exact Nat.le_refl 0
  | true =>
    obtain ⟨s, hs, rfl⟩ := isLocal_text.reads_map.mp h
    exact Nat.le_of_lt (size_lt_of_reads_text hs)

/-- A body that is read has the fields of its kind, and no more in it than was read. -/
theorem wellFormed_of_reads {kind : NodeKind} {flag : Bool} {bs : List UInt8} {b : Body}
    (h : Reads (read kind flag) bs b) : b.WellFormed ∧ b.size ≤ bs.length := by
  cases kind with
  | root =>
    obtain ⟨rfl, rfl⟩ := reads_pure_iff.mp h
    exact ⟨wellFormed_root, Nat.le_refl 0⟩
  | literal =>
    obtain ⟨name, hname, rfl⟩ := isLocal_text.reads_map.mp h
    refine ⟨wellFormed_literal name, ?_⟩
    have := size_lt_of_reads_text hname
    simp only [size, texts, name?, parser?, provider?, properties, List.sum_cons, List.sum_nil,
      List.map, Option.toList, List.append_nil, List.length_nil]
    omega
  | argument =>
    obtain ⟨name, bs₁, _, rfl, hname, h⟩ := isLocal_text.reads_bind.mp h
    obtain ⟨parser, bs₂, _, rfl, hparser, h⟩ := isLocal_text.reads_bind.mp h
    obtain ⟨properties, bs₃, bs₄, rfl, hproperties, h⟩ :=
      (Hint.isLocal_readProperties parser).reads_bind.mp h
    obtain ⟨provider, hprovider, rfl⟩ := (isLocal_text.flagged _).reads_bind_pure.mp h
    obtain ⟨hfit, hle⟩ := Hint.isProperties_of_reads hproperties
    refine ⟨wellFormed_argument hfit, ?_⟩
    have := size_lt_of_reads_text hname
    have := size_lt_of_reads_text hparser
    have := size_le_of_reads_provider hprovider
    simp only [size, texts, name?, parser?, provider?, Body.properties, List.map_append,
      List.sum_append, List.sum_cons, List.sum_nil, List.map, Option.toList,
      List.length_append] at this ⊢
    omega

end Body

/-! ## Records -/

namespace Record

/-- How much there is of a record: itself, its children, and the size of its body. -/
def size (r : Record) : Nat :=
  1 + r.children.length + r.body.size

/-- A record among `count` ones refers to one of them only, and has the fields of its kind. -/
structure WellFormed (count : Nat) (r : Record) : Prop where
  children : ∀ place ∈ r.children, place < count
  redirect : ∀ place ∈ r.redirect, place < count
  body : r.body.WellFormed

/-- Every entry of a record has bytes of its own. -/
theorem wellFormed_of_reads {bs : List UInt8} {r : Record} (h : Reads read bs r) :
    r.body.WellFormed ∧ r.size ≤ bs.length := by
  obtain ⟨flags, bs₁, bs₂, rfl, hflags, hrest⟩ := isLocal_byte.reads_bind.mp h
  obtain rfl := reads_byte_iff.mp hflags
  split at hrest
  · exact (not_reads_throw hrest).elim
  · next kind _ =>
    obtain ⟨count, bs₃, _, rfl, -, hrest⟩ := isLocal_length.reads_bind.mp hrest
    obtain ⟨children, bs₄, _, rfl, hchildren, hrest⟩ :=
      (isLocal_length.replicate count).reads_bind.mp hrest
    obtain ⟨redirect, bs₅, _, rfl, -, hrest⟩ := (isLocal_length.flagged _).reads_bind.mp hrest
    obtain ⟨body, hbody, rfl⟩ := (Body.isLocal_read kind _).reads_bind_pure.mp hrest
    obtain ⟨hbody, hsize⟩ := Body.wellFormed_of_reads hbody
    have hplaces := isLocal_length.sum_le_of_reads length_pos_of_reads hchildren
    rw [List.map_const', List.sum_replicate_nat, Nat.mul_one] at hplaces
    refine ⟨hbody, ?_⟩
    simp only [size, List.length_append, List.length_singleton]
    omega

end Record

/-! ## Payloads -/

namespace Payload

/-- What may be relied on in a payload. -/
structure WellFormed (p : Payload) : Prop where
  root : p.root < p.records.length
  records : ∀ r ∈ p.records, r.WellFormed p.records.length

variable {bytes : List UInt8} {p : Payload}

/-- The sizes of all records add up to no more than the bytes they were read from. -/
theorem wellFormed_of_reads (h : Reads read bytes p) :
    (∀ r ∈ p.records, r.body.WellFormed) ∧ (p.records.map Record.size).sum ≤ bytes.length := by
  obtain ⟨count, bs₁, _, rfl, -, h⟩ := isLocal_length.reads_bind.mp h
  obtain ⟨records, bs₂, _, rfl, hrecords, h⟩ :=
    (Record.isLocal_read.replicate count).reads_bind.mp h
  obtain ⟨root, -, rfl⟩ := isLocal_length.reads_bind_pure.mp h
  refine ⟨fun r hr => ?_, ?_⟩
  · obtain ⟨bss, -, -, hbss⟩ := Record.isLocal_read.reads_replicate hrecords
    obtain ⟨bs, -, hbs⟩ := exists_left_of_forall₂ hbss r hr
    exact (Record.wellFormed_of_reads hbs).1
  · have := Record.isLocal_read.sum_le_of_reads (fun h => (Record.wellFormed_of_reads h).2) hrecords
    simp only [List.length_append]
    omega

theorem inRange_iff : p.inRange = true ↔ p.root < p.records.length ∧ ∀ r ∈ p.records,
    (∀ place ∈ r.children, place < p.records.length) ∧
      ∀ place ∈ r.redirect, place < p.records.length := by
  simp only [inRange, Bool.and_eq_true, decide_eq_true_iff, List.all_eq_true, List.mem_append,
    Option.mem_toList, Option.mem_def, or_imp, forall_and]

/-- Whatever bytes are accepted, the payload is well formed, and its records, children, texts and
properties together are no more than the bytes. -/
theorem wellFormed_of_decode (h : decode bytes = .ok p) :
    p.WellFormed ∧ p.records.length + (p.records.map (·.children.length)).sum +
      (p.records.map (·.body.size)).sum ≤ bytes.length := by
  obtain ⟨hreads, hrange⟩ := decode_eq_ok.mp h
  obtain ⟨hroot, hplaces⟩ := inRange_iff.mp hrange
  obtain ⟨hbodies, hsize⟩ := wellFormed_of_reads hreads
  refine ⟨⟨hroot, fun r hr => ⟨(hplaces r hr).1, (hplaces r hr).2, hbodies r hr⟩⟩, ?_⟩
  calc p.records.length + (p.records.map (·.children.length)).sum +
        (p.records.map (·.body.size)).sum
      = (p.records.map Record.size).sum := by
        show _ = (p.records.map fun r => 1 + r.children.length + r.body.size).sum
        rw [List.sum_map_add, List.sum_map_add, List.map_const', List.sum_replicate_nat,
          Nat.mul_one]
    _ ≤ bytes.length := hsize

theorem sample_wellFormed : decode sampleBytes = .ok sample ∧ sample.WellFormed ∧
    sample.records.length + (sample.records.map (·.children.length)).sum +
      (sample.records.map (·.body.size)).sum ≤ 32 := by
  have h : decode sampleBytes = .ok sample := by decide +kernel
  obtain ⟨hwell, hsize⟩ := wellFormed_of_decode h
  exact ⟨h, hwell, hsize⟩

end Payload

end CommandGrammar
