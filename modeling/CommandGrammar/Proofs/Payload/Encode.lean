import CommandGrammar.Payload.Serialize
import CommandGrammar.Proofs.Payload.Walk

/-!
# What a payload is made of

A graph is written as bytes by numbering its nodes, making a record of each, and writing these one
after another (`Graph.encode_eq_ok`). None of it looks at an id but to find its place, so a graph
that is another one under other ids is written as the same bytes (`Graph.Part.encode`).
-/

namespace CommandGrammar

/-! ## Places -/

@[simp] theorem placeOf_eq_ok {order : List Nat} {id place : Nat} :
    placeOf order id = .ok place ↔ order.idxOf? id = some place := by
  unfold placeOf
  cases order.idxOf? id with
  | none => simp
  | some p => simp

theorem idxOf?_map {φ : Nat → Nat} {id : Nat} :
    ∀ {ids : List Nat}, (∀ i ∈ ids, φ i = φ id → i = id) →
      (ids.map φ).idxOf? (φ id) = ids.idxOf? id
  | [], _ => rfl
  | i :: ids, h => by
    obtain ⟨hi, hids⟩ := List.forall_mem_cons.mp h
    rw [List.map_cons, List.idxOf?_cons, List.idxOf?_cons, idxOf?_map hids]
    have : (φ i == φ id) = (i == id) := by
      rw [Bool.eq_iff_iff, beq_iff_eq, beq_iff_eq]
      exact ⟨hi, congrArg φ⟩
    rw [this]

namespace Node

/-- A record has the places of the children that are not skipped, and of the redirect. -/
theorem record_eq_ok {n : Node} {order : List Nat} {skip : Nat → Bool} {r : Record} :
    n.record order skip = .ok r ↔
      (n.children.filter (!skip ·)).mapM (placeOf order) = .ok r.children ∧
        n.redirect.toList.mapM (placeOf order) = .ok r.redirect.toList ∧
        r.executable = n.executable ∧ r.body = n.body := by
  simp only [record, Except.bind_eq_ok, Except.optionMapM_eq_ok]
  constructor
  · rintro ⟨children, hc, redirect, hr, h⟩
    obtain rfl := Except.ok.inj h
    exact ⟨hc, hr, rfl, rfl⟩
  · rintro ⟨hc, hr, he, hb⟩
    refine ⟨r.children, hc, r.redirect, hr, congrArg Except.ok ?_⟩
    rw [← he, ← hb]

end Node

namespace Graph

variable {g k : Graph} {skip : Nat → Bool}

theorem recordOf_eq_ok {order : List Nat} {id : Nat} {r : Record} :
    g.recordOf order skip id = .ok r ↔ ∃ n, g.node? id = some n ∧ n.record order skip = .ok r := by
  unfold recordOf
  cases g.node? id with
  | none => simp
  | some n => simp

/-- Encoding numbers the nodes, makes a record of each, writes these, and puts them together. -/
theorem encode_eq_ok {e : Encoded} :
    g.encode skip = .ok e ↔ g.numbering skip = .ok e.order ∧ ∃ records place,
      e.order.mapM (g.recordOf e.order skip) = .ok records ∧ placeOf e.order root = .ok place ∧
        records.mapM Record.encode = .ok e.records ∧
        Payload.assemble e.records place = .ok e.bytes := by
  simp only [encode, payload, Except.bind_eq_ok]
  constructor
  · rintro ⟨order, ho, p, ⟨records, hr, place, hp, h⟩, bss, hb, bytes, ha, h'⟩
    obtain rfl := Except.ok.inj h
    obtain rfl := Except.ok.inj h'
    exact ⟨ho, records, place, hr, hp, hb, ha⟩
  · rintro ⟨ho, records, place, hr, hp, hb, ha⟩
    exact ⟨e.order, ho, _, ⟨records, hr, place, hp, rfl⟩, e.records, hb, e.bytes, ha, rfl⟩

/-! ## What is looked at -/

/-- Of a graph, encoding looks at the nodes only. -/
theorem encode_congr (h : g.nodes = k.nodes) : g.encode skip = k.encode skip := by
  have hnumbering : g.numbering skip = k.numbering skip := walk_congr h
  have hrecord : ∀ order, g.recordOf order skip = k.recordOf order skip := fun order => by
    funext id
    rw [recordOf, node?, h, recordOf, node?]
  simp only [encode, payload, hnumbering, hrecord]

/-- Graphs with the same nodes and groups are serialized alike. -/
theorem serialize_congr (h : g.nodes = k.nodes) (hgroups : g.groups = k.groups) (limit : Nat) :
    g.serialize limit = k.serialize limit := by
  have hshare : ∀ e, g.shareOf e = k.shareOf e := fun e => by
    funext group
    rw [shareOf, walk_congr h, shareOf]
  simp only [serialize, verdicts, encodeWithout, encode_congr h, hshare, hgroups]

/-! ## The same graph under other ids -/

namespace Part

variable {φ : Nat → Nat} (h : Part φ skip k g) {order : List Nat}
  (horder : ∀ i ∈ order, i < k.size)

include h horder

theorem placeOf_map {id : Nat} (hid : id < k.size) {place : Nat} :
    placeOf (order.map φ) (φ id) = .ok place ↔ placeOf order id = .ok place := by
  simp [idxOf?_map fun i hi he => h.injective (horder i hi) hid he]

theorem mapM_placeOf_map {ids places : List Nat} (hids : ∀ i ∈ ids, i < k.size) :
    (ids.map φ).mapM (placeOf (order.map φ)) = .ok places ↔
      ids.mapM (placeOf order) = .ok places := by
  rw [List.mapM_map]
  exact Except.mapM_eq_ok_congr fun i hi place => h.placeOf_map horder (hids i hi)

/-- A renamed node has the record of the node itself. -/
theorem recordOf_map {id : Nat} (hid : id < k.size) {r : Record} :
    g.recordOf (order.map φ) skip (φ id) = .ok r ↔
      k.recordOf order (fun _ => false) id = .ok r := by
  obtain ⟨n, hn⟩ : ∃ n, k.node? id = some n := ⟨_, Array.getElem?_eq_getElem hid⟩
  obtain ⟨m, hm, hbody, hexecutable, hchildren, hredirect⟩ := h.node hn
  have hlt := h.closed hn
  have htargets : m.redirect.toList = n.redirect.toList.map φ := by
    rw [hredirect]
    cases n.redirect <;> rfl
  simp only [recordOf_eq_ok, hn, hm, Option.some.injEq, exists_eq_left', Node.record_eq_ok,
    hchildren, htargets, hbody, hexecutable, Bool.not_false, List.filter_true]
  rw [h.mapM_placeOf_map horder fun q hq => hlt q (List.mem_append_left _ hq),
    h.mapM_placeOf_map horder fun q hq => hlt q (List.mem_append_right _ hq)]

end Part

/-- What is written of the larger graph without what is skipped is written of the smaller graph. -/
theorem Part.encode {φ : Nat → Nat} (h : Part φ skip k g) {e : Encoded}
    (he : g.encode skip = .ok e) : ∃ order, k.encode (fun _ => false) = .ok { e with order } ∧
      e.order = order.map φ := by
  obtain ⟨hnumbering, records, place, hrecords, hplace, hbytes, hassemble⟩ := encode_eq_ok.mp he
  rw [h.numbering_map] at hnumbering
  obtain ⟨order, horder, hmap⟩ := Except.map_eq_ok.mp hnumbering
  have hlt : ∀ i ∈ order, i < k.size := by
    refine walk_forall ?_ horder (by simp) (by simpa using h.root_lt)
    exact fun hn _ q hq => h.closed hn q (Node.successorsExcept_subset _ _ hq)
  rw [← hmap] at hrecords hplace
  rw [List.mapM_map] at hrecords
  have hroot : placeOf (order.map φ) (φ root) = .ok place ↔ _ := h.placeOf_map hlt h.root_lt
  refine ⟨order, encode_eq_ok.mpr ⟨horder, records, place, ?_, ?_, hbytes, hassemble⟩, hmap.symm⟩
  · exact (Except.mapM_eq_ok_congr fun i hi r => h.recordOf_map hlt (hlt i hi)).mp hrecords
  · rw [h.zero, hplace] at hroot
    exact hroot.mp rfl

end Graph

end CommandGrammar
