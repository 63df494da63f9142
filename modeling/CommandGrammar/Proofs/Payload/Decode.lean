import CommandGrammar.Proofs.Argument.Hint
import CommandGrammar.Proofs.Payload.Size
import CommandGrammar.Proofs.Wire.RoundTrip

/-!
# Reading what was written

A record is read back field by field, its flags telling which fields there are (`Record.reads`), and
the properties of a parser byte by byte, the identifier telling how many there are
(`Hint.reads_properties`). Whatever graph is written, with or without some of its children, a reader
makes of it exactly the records that were written (`Graph.decode_encode`).
-/

namespace CommandGrammar

open Reading

/-- A value that may be absent, if the flag says whether it is there. -/
theorem Reading.reads_flagged {α : Type} {r : Reading α} {o : Option α} {bss : List (List UInt8)}
    (h : List.Forall₂ (Reads r) bss o.toList) : Reads (flagged o.isSome r) bss.flatten o := by
  cases o with
  | none =>
    obtain rfl := List.forall₂_nil_right_iff.mp h
    exact reads_pure none
  | some v =>
    obtain ⟨bs, bss, hbs, hnil, rfl⟩ := List.forall₂_cons_right_iff.mp h
    obtain rfl := List.forall₂_nil_right_iff.mp hnil
    simpa [flagged] using hbs.map some

/-- What was written of each of a list is read back one by one. -/
theorem Reading.reads_of_mapM {α : Type} {r : Reading α}
    {write : α → Except Inconsistency (List UInt8)} {vs : List α} {bss : List (List UInt8)}
    (h : vs.mapM write = .ok bss)
    (hr : ∀ v ∈ vs, ∀ bs, write v = .ok bs → Reads r bs v) : List.Forall₂ (Reads r) bss vs := by
  have := Except.mapM_eq_ok.mp h
  induction this with
  | nil => exact .nil
  | cons hv hvs ih =>
    obtain ⟨hr₁, hr₂⟩ := List.forall_mem_cons.mp hr
    exact .cons (hr₁ _ hv) (ih (Except.mapM_eq_ok.mpr hvs) hr₂)

/-! ## Properties of parsers -/

/-- Properties are read back by the parser that they are of. -/
theorem Hint.reads_properties :
    ∀ h : Hint, Reads (readProperties h.identifier) h.properties h.properties
  | text mode => by
    rw [identifier, readProperties, if_pos rfl]
    exact (reads_varInt mode.tag).map VarInt.encode
  | boolean => by
    rw [identifier, readProperties, if_neg (by decide), if_pos rfl]
    exact reads_pure _
  | integer min max => by
    rw [identifier, readProperties, if_neg (by decide), if_neg (by decide), if_pos rfl, properties]
    obtain ⟨hmin, hmax⟩ := testBit_flags min.isSome max.isSome
    rw [List.flatMap_append]
    refine (reads_byte _).bind (Reads.bind (v := min) ?_ (Reads.bind_pure (v := max) ?_ ?_))
    · rw [hmin]
      exact flagged_append reads_int32 min
    · rw [hmax]
      exact flagged_append reads_int32 max
    · rw [← List.flatMap_append]
      exact reads_pure _

/-! ## Records -/

/-- The body of a node is read back, given its kind and whether it has a provider. -/
theorem Node.reads_body {n : Node} {bs : List UInt8} (h : n.body.encode = .ok bs) :
    Reads (Body.read n.body.kind n.body.provider?.isSome) bs n.body := by
  rcases n with ⟨_ | ⟨_ | choices | hint, name, executable⟩, provider, redirect, children⟩
  · obtain rfl := Except.ok.inj h
    exact reads_pure _
  · exact (reads_text h).map Body.literal
  · exact (reads_text h).map Body.literal
  · simp only [body, Body.encode, Except.bind_eq_ok] at h
    obtain ⟨bsName, hname, bsParser, hparser, bssProvider, hprovider, h⟩ := h
    obtain rfl := Except.ok.inj h
    simp only [body, Body.kind, Body.provider?, Body.read, List.append_assoc]
    refine (reads_text hname).bind ((reads_text hparser).bind ((hint.reads_properties).bind
      ((reads_flagged (reads_of_mapM hprovider fun _ _ _ => reads_text)).bind_pure ?_)))
    exact reads_pure _

namespace Record

/-- The byte of the flags tells the kind of the node and which fields there are. -/
@[simp] theorem flags_toNat (r : Record) : (UInt8.ofNat r.flags).toNat = r.flags := by
  refine UInt8.toNat_ofNat_of_lt' (show r.flags < 256 from ?_)
  have htag : r.body.kind.tag ≤ 2 := by cases r.body.kind <;> decide
  unfold flags
  split <;> split <;> split <;> omega

@[simp] theorem flags_mod (r : Record) : r.flags % 4 = r.body.kind.tag := by
  have htag : r.body.kind.tag ≤ 2 := by cases r.body.kind <;> decide
  unfold flags
  split <;> split <;> split <;> omega

theorem testBit_flags (r : Record) : r.flags.testBit 2 = r.executable ∧
    r.flags.testBit 3 = r.redirect.isSome ∧ r.flags.testBit 4 = r.body.provider?.isSome := by
  unfold flags
  cases r.body.kind <;> cases r.executable <;> cases r.redirect.isSome <;>
    cases r.body.provider?.isSome <;> decide

theorem reads {r : Record} {bs : List UInt8} (h : r.encode = .ok bs)
    (hbody : ∀ bs, r.body.encode = .ok bs →
      Reads (Body.read r.body.kind r.body.provider?.isSome) bs r.body) :
    Reads read bs r := by
  obtain ⟨count, children, redirect, body, hc, hch, hr, hb, rfl⟩ := encode_eq_ok.mp h
  obtain ⟨hexecutable, hredirect, hprovider⟩ := r.testBit_flags
  rw [List.append_assoc, List.append_assoc, ← List.singleton_append]
  refine (reads_byte _).bind ?_
  simp only [r.flags_toNat, r.flags_mod, NodeKind.ofTag?_tag, hexecutable, hredirect, hprovider]
  have lengths : ∀ {vs : List Nat} {bss : List (List UInt8)}, vs.mapM Write.length = .ok bss →
      List.Forall₂ (Reads length) bss vs := fun h => reads_of_mapM h fun _ _ _ => reads_length
  exact (reads_length hc).bind ((reads_replicate (lengths hch)).bind
    ((reads_flagged (lengths hr)).bind ((hbody body hb).bind_pure (reads_pure _))))

end Record

/-! ## Payloads -/

namespace Payload

theorem reads {p : Payload} {bss : List (List UInt8)} {bs : List UInt8}
    (hrecords : List.Forall₂ (Reads Record.read) bss p.records)
    (h : assemble bss p.root = .ok bs) : Reads read bs p := by
  obtain ⟨count, hc, last, hl, rfl⟩ := assemble_eq_ok.mp h
  rw [hrecords.length_eq] at hc
  rw [List.append_assoc]
  exact (reads_length hc).bind ((reads_replicate hrecords).bind
    ((reads_length hl).bind_pure (reads_pure _)))

/-- What is read whole and refers to its own records is decoded. -/
theorem decode_of_reads {p : Payload} {bs : List UInt8} (h : Reads read bs p)
    (hrange : p.inRange = true) : decode bs = .ok p := by
  have hrun := h []
  rw [List.append_nil] at hrun
  rw [decode, show read.run bs = .ok p [] from hrun]
  exact if_pos hrange

end Payload

namespace Graph

variable {g : Graph} {skip : Nat → Bool}

/-- Every reference of a record is the place of an id. -/
theorem inRange_of_payload {order : List Nat} {p : Payload} (h : g.payload order skip = .ok p) :
    p.inRange = true := by
  simp only [payload, Except.bind_eq_ok] at h
  obtain ⟨records, hrecords, place, hplace, h⟩ := h
  obtain rfl := Except.ok.inj h
  have hlen : order.length = records.length := (Except.mapM_eq_ok.mp hrecords).length_eq
  have hlt : ∀ {ids places : List Nat}, ids.mapM (placeOf order) = .ok places →
      ∀ place ∈ places, place < records.length := fun hids place hmem => by
    obtain ⟨id, -, hid⟩ := exists_left_of_forall₂ (Except.mapM_eq_ok.mp hids) place hmem
    exact hlen ▸ lt_of_placeOf hid
  rw [Payload.inRange, Bool.and_eq_true, decide_eq_true_iff, List.all_eq_true]
  refine ⟨hlen ▸ lt_of_placeOf hplace, fun r hr => List.all_eq_true.mpr fun place hmem => ?_⟩
  obtain ⟨id, -, hid⟩ := exists_left_of_forall₂ (Except.mapM_eq_ok.mp hrecords) r hr
  obtain ⟨n, -, hn⟩ := recordOf_eq_ok.mp hid
  obtain ⟨hchildren, hredirect, -⟩ := Node.record_eq_ok.mp hn
  rw [decide_eq_true_iff]
  exact (List.mem_append.mp hmem).elim (hlt hchildren place) (hlt hredirect place)

/-- A reader makes of the bytes of a graph the records that were written. -/
theorem decode_encode {e : Encoded} (h : g.encode skip = .ok e) :
    ∃ p, g.payload e.order skip = .ok p ∧ p.records.length = e.order.length ∧
      Payload.decode e.bytes = .ok p := by
  obtain ⟨-, records, place, hrecords, hplace, hbytes, hassemble⟩ := encode_eq_ok.mp h
  have hpayload : g.payload e.order skip = .ok ⟨records, place⟩ := by
    simp only [payload, Except.bind_eq_ok]
    exact ⟨records, hrecords, place, hplace, rfl⟩
  refine ⟨_, hpayload, (Except.mapM_eq_ok.mp hrecords).length_eq.symm, ?_⟩
  refine Payload.decode_of_reads (Payload.reads ?_ hassemble) (inRange_of_payload hpayload)
  refine reads_of_mapM hbytes fun r hr bs hbs => Record.reads hbs fun body hbody => ?_
  obtain ⟨id, -, hid⟩ := exists_left_of_forall₂ (Except.mapM_eq_ok.mp hrecords) r hr
  obtain ⟨n, -, hn⟩ := recordOf_eq_ok.mp hid
  obtain ⟨-, -, -, hb⟩ := Node.record_eq_ok.mp hn
  rw [hb] at hbody ⊢
  exact Node.reads_body hbody

end Graph

end CommandGrammar
