import CommandGrammar.Proofs.Payload.Encode
import CommandGrammar.Proofs.Wire.Size

/-!
# Sizes of payloads

The size of a record depends on the places of other nodes only by the sizes of these places
(`Node.recordSize`), and the size of a payload is the sum of the sizes of its records, of their
number and of the place of the root (`Graph.length_encode`). As the number of nodes is limited, what
can fail when a graph is written is only a text (`Graph.exists_encode`).
-/

namespace CommandGrammar

theorem exists_placeOf {order : List Nat} {id : Nat} (h : id ∈ order) :
    ∃ place, placeOf order id = .ok place := by
  obtain ⟨place, hplace⟩ := Option.isSome_iff_exists.mp (List.isSome_idxOf?.mpr h)
  exact ⟨place, placeOf_eq_ok.mpr hplace⟩

theorem lt_of_placeOf {order : List Nat} {id place : Nat} (h : placeOf order id = .ok place) :
    place < order.length :=
  (List.idxOf?_eq_some_iff.mp (placeOf_eq_ok.mp h)).1

/-- How many bytes the place of an id has. -/
def placeSizeIn (order : List Nat) (id : Nat) : Nat :=
  lengthSize ((order.idxOf? id).getD 0)

/-- How many bytes there are in a list of places. -/
theorem sum_places {order ids places : List Nat} {bss : List (List UInt8)}
    (hplaces : ids.mapM (placeOf order) = .ok places) (hbss : places.mapM Write.length = .ok bss) :
    (bss.map List.length).sum = (ids.map (placeSizeIn order)).sum := by
  refine congrArg List.sum (Except.map_eq_of_mapM hplaces hbss fun id place bs hplace hbs => ?_)
  rw [placeSizeIn, placeOf_eq_ok.mp hplace, Option.getD_some, Write.size_of_length hbs]

namespace Node

/-- How many bytes of a record are neither flags nor references. -/
def bodySize (n : Node) : Nat :=
  (n.body.encode.toOption.getD []).length

/-- The size of a node's record, if the places of ids have these sizes. -/
def recordSize (n : Node) (skip : Nat → Bool) (placeSize : Nat → Nat) : Nat :=
  1 + lengthSize (n.children.filter (!skip ·)).length +
    ((n.children.filter (!skip ·)).map placeSize).sum +
    (n.redirect.toList.map placeSize).sum + n.bodySize

end Node

/-- A record is its flags, the children after their number, the redirect, and the body. -/
theorem Record.encode_eq_ok {r : Record} {bs : List UInt8} :
    r.encode = .ok bs ↔ ∃ count children redirect body, Write.length r.children.length = .ok count ∧
      r.children.mapM Write.length = .ok children ∧
      r.redirect.toList.mapM Write.length = .ok redirect ∧ r.body.encode = .ok body ∧
      bs = UInt8.ofNat r.flags :: (count ++ children.flatten ++ redirect.flatten ++ body) := by
  simp only [encode, Except.bind_eq_ok, Except.pure_eq_ok, eq_comm (a := bs)]
  constructor
  · rintro ⟨count, hc, children, hch, redirect, hr, body, hb, h⟩
    exact ⟨count, children, redirect, body, hc, hch, hr, hb, h⟩
  · rintro ⟨count, children, redirect, body, hc, hch, hr, hb, h⟩
    exact ⟨count, hc, children, hch, redirect, hr, body, hb, h⟩

/-- A payload is the records after their number, and the place of the root. -/
theorem Payload.assemble_eq_ok {records : List (List UInt8)} {place : Nat} {bs : List UInt8} :
    assemble records place = .ok bs ↔ ∃ count, Write.length records.length = .ok count ∧
      ∃ last, Write.length place = .ok last ∧ bs = count ++ records.flatten ++ last := by
  simp [assemble, eq_comm (a := bs)]

namespace Graph

variable {g : Graph} {skip : Nat → Bool}

/-- The size of the record of an id. -/
def sizeAt (g : Graph) (skip : Nat → Bool) (placeSize : Nat → Nat) (id : Nat) : Nat :=
  ((g.node? id).map (·.recordSize skip placeSize)).getD 0

theorem sizeAt_eq {placeSize : Nat → Nat} {id : Nat} {n : Node} (hn : g.node? id = some n) :
    g.sizeAt skip placeSize id = n.recordSize skip placeSize := by
  rw [sizeAt, hn, Option.map_some, Option.getD_some]

/-- Where there is no node, there is no record. -/
theorem sizeAt_eq_zero {placeSize : Nat → Nat} {id : Nat} (hn : g.node? id = none) :
    g.sizeAt skip placeSize id = 0 := by
  rw [sizeAt, hn, Option.map_none, Option.getD_none]

/-- A record takes the bytes that its size says. -/
theorem length_record {order : List Nat} {id : Nat} {r : Record} {bs : List UInt8}
    (hr : g.recordOf order skip id = .ok r) (hbs : r.encode = .ok bs) :
    bs.length = g.sizeAt skip (placeSizeIn order) id := by
  obtain ⟨n, hn, hr⟩ := recordOf_eq_ok.mp hr
  obtain ⟨hchildren, hredirect, -, hbody⟩ := Node.record_eq_ok.mp hr
  obtain ⟨count, children, redirect, body, hc, hch, hre, hb, rfl⟩ := Record.encode_eq_ok.mp hbs
  have hlen : (n.children.filter (!skip ·)).length = r.children.length :=
    (Except.mapM_eq_ok.mp hchildren).length_eq
  rw [hbody] at hb
  rw [sizeAt_eq hn, Node.recordSize, Node.bodySize, hb, hlen, ← Write.size_of_length hc,
    ← sum_places hchildren hch, ← sum_places hredirect hre]
  simp only [List.length_cons, List.length_append, List.length_flatten, Except.toOption,
    Option.getD_some]
  omega

/-- The size of a payload. -/
theorem length_encode {e : Encoded} (h : g.encode skip = .ok e) :
    e.records.map List.length = e.order.map (g.sizeAt skip e.placeSize) ∧
      e.bytes.length = lengthSize e.order.length +
        (e.order.map (g.sizeAt skip e.placeSize)).sum + e.placeSize root := by
  obtain ⟨-, records, place, hrecords, hplace, hbytes, hassemble⟩ := encode_eq_ok.mp h
  have hsizes : e.records.map List.length = e.order.map (g.sizeAt skip e.placeSize) :=
    Except.map_eq_of_mapM hrecords hbytes fun id r bs hr hbs => length_record hr hbs
  have hcount : e.records.length = e.order.length :=
    ((Except.mapM_eq_ok.mp hrecords).length_eq.trans (Except.mapM_eq_ok.mp hbytes).length_eq).symm
  obtain ⟨count, hc, last, hl, he⟩ := Payload.assemble_eq_ok.mp hassemble
  refine ⟨hsizes, ?_⟩
  rw [he, List.length_append, List.length_append, List.length_flatten, hsizes,
    Write.size_of_length hc, Write.size_of_length hl, hcount, Encoded.placeSize,
    placeOf_eq_ok.mp hplace]
  rfl

/-- Everything that is numbered has a record. -/
theorem exists_recordSize {e : Encoded} (h : g.encode skip = .ok e) {id : Nat}
    (hid : id ∈ e.order) : ∃ size, e.recordSize id = .ok size := by
  obtain ⟨place, hplace⟩ := exists_placeOf hid
  have hlen : e.records.length = e.order.length := by
    simpa using congrArg List.length (length_encode h).1
  have hlt : place < e.records.length := hlen ▸ lt_of_placeOf hplace
  refine ⟨e.records[place].length, Except.bind_eq_ok.mpr ⟨place, hplace, ?_⟩⟩
  rw [List.getElem?_eq_getElem hlt]
  rfl

/-! ## When a graph can be written -/

/-- A node whose successors are all numbered has a record. -/
theorem exists_record {order : List Nat} {n : Node} (h : ∀ q ∈ n.successorsExcept skip, q ∈ order) :
    ∃ r, n.record order skip = .ok r := by
  obtain ⟨children, hc⟩ : ∃ children, (n.children.filter (!skip ·)).mapM (placeOf order) =
      .ok children :=
    Except.exists_mapM_eq_ok fun q hq => exists_placeOf (h q (List.mem_append_left _ hq))
  obtain ⟨redirect, hr⟩ : ∃ redirect, n.redirect.mapM (placeOf order) = .ok redirect := by
    cases hn : n.redirect with
    | none => exact ⟨none, rfl⟩
    | some q =>
      have hq : q ∈ n.successorsExcept skip := List.mem_append_right _ (by simp [hn])
      obtain ⟨place, hplace⟩ := exists_placeOf (h q hq)
      exact ⟨some place, by rw [Option.mapM_some, hplace]; rfl⟩
  exact ⟨⟨n.executable, children, redirect, n.body⟩, Node.record_eq_ok.mpr
    ⟨hc, Except.optionMapM_eq_ok.mp hr, rfl, rfl⟩⟩

theorem exists_places {order ids places : List Nat} (hlen : order.length ≤ Write.maxLength)
    (h : ids.mapM (placeOf order) = .ok places) : ∃ bss, places.mapM Write.length = .ok bss := by
  refine Except.exists_mapM_eq_ok fun place hmem => ?_
  obtain ⟨id, -, hid⟩ := exists_left_of_forall₂ (Except.mapM_eq_ok.mp h) place hmem
  exact ⟨_, Write.length_eq_ok.mpr ⟨Nat.le_trans (Nat.le_of_lt (lt_of_placeOf hid)) hlen, rfl⟩⟩

/-- A record can be written if its text can, as no node has more children than there are places. -/
theorem exists_record_encode {order : List Nat} {n : Node} {r : Record}
    (hlen : order.length ≤ Write.maxLength) (hnd : n.children.Nodup)
    (hsucc : ∀ q ∈ n.successorsExcept skip, q ∈ order) (hbody : ∃ bs, n.body.encode = .ok bs)
    (h : n.record order skip = .ok r) : ∃ bs, r.encode = .ok bs := by
  obtain ⟨hc, hr, -, hb⟩ := Node.record_eq_ok.mp h
  obtain ⟨children, hchildren⟩ := exists_places hlen hc
  obtain ⟨redirect, hredirect⟩ := exists_places hlen hr
  obtain ⟨body, hbody⟩ := hbody
  have hcount : (n.children.filter (!skip ·)).length ≤ order.length :=
    List.Nodup.length_le_of_subset (List.Pairwise.filter _ hnd)
      fun q hq => hsucc q (List.mem_append_left _ hq)
  rw [(Except.mapM_eq_ok.mp hc).length_eq] at hcount
  exact ⟨_, Record.encode_eq_ok.mpr ⟨_, children, redirect, body,
    Write.length_eq_ok.mpr ⟨Nat.le_trans hcount hlen, rfl⟩, hchildren, hredirect, hb ▸ hbody, rfl⟩⟩

/-- Whatever can be numbered can be written, if the texts can. -/
theorem exists_encode {order : List Nat} (hchildren : ∀ id, (g.children id).Nodup)
    (hnumbering : g.numbering skip = .ok order) (hlen : order.length ≤ Write.maxLength)
    (hbody : ∀ {id n}, id ∈ order → g.node? id = some n → ∃ bs, n.body.encode = .ok bs) :
    ∃ e, g.encode skip = .ok e ∧ e.order = order := by
  have hrecord : ∀ id ∈ order, ∃ r, g.recordOf order skip id = .ok r ∧
      ∃ bs, r.encode = .ok bs := fun id hid => by
    obtain ⟨n, hn, hsucc⟩ := node_of_mem_walk hnumbering hid
    obtain ⟨r, hr⟩ := exists_record hsucc
    have hnd : n.children.Nodup := by simpa [children, hn] using hchildren id
    exact ⟨r, recordOf_eq_ok.mpr ⟨n, hn, hr⟩,
      exists_record_encode hlen hnd hsucc (hbody hid hn) hr⟩
  obtain ⟨records, hrecords⟩ : ∃ records, order.mapM (g.recordOf order skip) = .ok records :=
    Except.exists_mapM_eq_ok fun id hid => (hrecord id hid).imp fun _ h => h.1
  obtain ⟨bss, hbss⟩ : ∃ bss, records.mapM Record.encode = .ok bss := by
    refine Except.exists_mapM_eq_ok fun r hr => ?_
    obtain ⟨id, hid, hr⟩ := exists_left_of_forall₂ (Except.mapM_eq_ok.mp hrecords) r hr
    obtain ⟨r', hr', hbs⟩ := hrecord id hid
    obtain rfl := Except.ok.inj (hr.symm.trans hr')
    exact hbs
  obtain ⟨place, hroot⟩ := exists_placeOf (root_mem_numbering hnumbering)
  obtain ⟨bytes, hassemble⟩ : ∃ bytes, Payload.assemble bss place = .ok bytes := by
    have hcount : bss.length = order.length :=
      ((Except.mapM_eq_ok.mp hrecords).length_eq.trans (Except.mapM_eq_ok.mp hbss).length_eq).symm
    exact ⟨_, Payload.assemble_eq_ok.mpr ⟨_, Write.length_eq_ok.mpr ⟨hcount ▸ hlen, rfl⟩, _,
      Write.length_eq_ok.mpr ⟨Nat.le_trans (Nat.le_of_lt (lt_of_placeOf hroot)) hlen, rfl⟩, rfl⟩⟩
  exact ⟨⟨order, bss, bytes⟩, encode_eq_ok.mpr
    ⟨hnumbering, records, place, hrecords, hroot, hbss, hassemble⟩, rfl⟩

end Graph

end CommandGrammar
