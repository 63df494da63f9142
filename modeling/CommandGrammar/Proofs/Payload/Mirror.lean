import CommandGrammar.Proofs.Payload.Decode
import CommandGrammar.Proofs.Payload.Total
import Mathlib.Data.Set.Function
import Mathlib.Order.Interval.Set.Defs

/-!
# What a client makes of a payload

The records of a payload are the nodes of the graph under other numbers: the root comes first
(`Graph.idxOf_root`), each node has a place of its own (`Graph.Formed.bijOn_idxOf`), and its record
says of it all that a client needs, in terms of these places (`Payload.Mirrors`). A reader gets such
records of every graph that a builder makes, if nothing has to be left out, and some records
whatever is left out (`Graph.BuiltFrom.decode_serialize`).
-/

namespace CommandGrammar

open Nodes

/-! ## Records and their nodes -/

/-- The record says what the node is, `place` telling where the records of other nodes are. A
literal has none of the fields of an argument. -/
structure Record.Mirrors (r : Record) (place : Nat → Nat) (n : Node) : Prop where
  kind : r.body.kind = n.kind
  executable : r.executable = n.executable
  children : r.children = n.children.map place
  redirect : r.redirect = n.redirect.map place
  name : r.body.name? = n.name?
  argument : n.kind = .argument → ∃ hint, n.hint? = some hint ∧
    r.body.parser? = some hint.identifier ∧ r.body.properties = hint.properties ∧
    r.body.provider? = n.provider
  literal : n.kind = .literal →
    r.body.parser? = none ∧ r.body.properties = [] ∧ r.body.provider? = none

/-- Each node of the graph has one of the records, the root the first one, which alone is without a
name. -/
structure Payload.Mirrors (p : Payload) (g : Graph) (place : Nat → Nat) : Prop where
  root : p.root = 0
  place_root : place Graph.root = 0
  bijOn : Set.BijOn place (Set.Iio g.size) (Set.Iio p.records.length)
  record : ∀ {id : Nat} {n : Node}, g.node? id = some n → ∃ r, p.records[place id]? = some r ∧
    r.Mirrors place n ∧ (r.body.name? = none ↔ id = Graph.root)

namespace Node

@[simp] theorem kind_body (n : Node) : n.body.kind = n.kind := by
  rcases n with ⟨_ | ⟨_ | choices | hint, name, executable⟩, provider, redirect, children⟩ <;> rfl

@[simp] theorem name?_body (n : Node) : n.body.name? = n.name? := by
  rcases n with ⟨_ | ⟨_ | choices | hint, name, executable⟩, provider, redirect, children⟩ <;> rfl

theorem body_of_argument {n : Node} (h : n.kind = .argument) : ∃ hint, n.hint? = some hint ∧
    n.body.parser? = some hint.identifier ∧ n.body.properties = hint.properties ∧
    n.body.provider? = n.provider := by
  rcases n with ⟨_ | ⟨_ | choices | hint, name, executable⟩, provider, redirect, children⟩
  · cases h
  · cases h
  · cases h
  · exact ⟨hint, rfl, rfl, rfl, rfl⟩

/-- The body of a literal has no parser, properties or provider. -/
theorem body_of_literal {n : Node} (h : n.kind = .literal) :
    n.body.parser? = none ∧ n.body.properties = [] ∧ n.body.provider? = none := by
  rcases n with ⟨_ | ⟨_ | choices | hint, name, executable⟩, provider, redirect, children⟩
  · cases h
  · exact ⟨rfl, rfl, rfl⟩
  · exact ⟨rfl, rfl, rfl⟩
  · cases h

end Node

theorem idxOf_of_placeOf {order : List Nat} {id place : Nat} (h : placeOf order id = .ok place) :
    order.idxOf id = place := by
  rw [List.idxOf_eq_getD_idxOf?, placeOf_eq_ok.mp h, Option.getD_some]

/-- The record of a node says what the node is. -/
theorem Node.mirrors_of_record {n : Node} {order : List Nat} {r : Record}
    (h : n.record order (fun _ => false) = .ok r) : r.Mirrors order.idxOf n := by
  obtain ⟨hchildren, hredirect, hexecutable, hbody⟩ := record_eq_ok.mp h
  have places : ∀ {ids places : List Nat}, ids.mapM (placeOf order) = .ok places →
      places = ids.map order.idxOf := fun {ids places} h => by
    have hsame := (Except.mapM_eq_ok.mp h).imp fun _ _ h => (idxOf_of_placeOf h).symm
    rw [← map_eq_of_forall₂ (g := id) hsame, List.map_id]
  exact {
    kind := by simp [hbody]
    executable := hexecutable
    children := by simpa using places hchildren
    redirect := by simpa using congrArg List.head? (places hredirect)
    name := by simp [hbody]
    argument := fun hn => hbody ▸ body_of_argument hn
    literal := fun hn => hbody ▸ body_of_literal hn }

/-! ## Numberings -/

namespace Graph

variable {g : Graph} {skip : Nat → Bool}

theorem idxOf_root {order : List Nat} (h : g.numbering skip = .ok order) :
    order.idxOf root = 0 := by
  obtain ⟨rest, rfl⟩ := List.head?_eq_some_iff.mp (head?_numbering h)
  exact List.idxOf_cons_self

/-- The places in a numbering of all nodes are one for each. -/
theorem Formed.bijOn_idxOf (f : g.Formed) {order : List Nat}
    (h : g.numbering (fun _ => false) = .ok order) :
    Set.BijOn order.idxOf (Set.Iio g.size) (Set.Iio order.length) := by
  have hmem : ∀ {id : Nat}, id ∈ order ↔ id < g.size :=
    (f.order_perm h).mem_iff.trans List.mem_range
  refine ⟨fun id hid => ?_, fun id hid id' hid' he => ?_, fun place hplace => ?_⟩
  · exact List.idxOf_lt_length_iff.mpr (hmem.mpr hid)
  · exact (List.idxOf_inj (hmem.mpr hid)).mp he
  · exact ⟨order.get ⟨place, hplace⟩, hmem.mp (List.getElem_mem hplace),
      (nodup_of_walk h).idxOf_getElem place hplace⟩

/-! ## Reading a whole graph -/

/-- The root alone is without a name. -/
theorem Formed.name?_eq_none_iff (f : g.Formed) {id : Nat} {n : Node} (hn : g.node? id = some n) :
    n.name? = none ↔ id = root := by
  rw [Node.name?, Option.map_eq_none_iff, ← labelOf_eq hn]
  constructor
  · intro h
    refine (Nat.eq_zero_or_pos id).resolve_right fun hpos => ?_
    obtain ⟨l, hl⟩ := f.tree.labelled hpos (Array.getElem?_eq_some_iff.mp hn).1
    exact absurd (hl.symm.trans h) (Option.some_ne_none l)
  · rintro rfl
    exact f.tree.root

/-- The records of all nodes mirror them. -/
theorem Formed.mirrors (f : g.Formed) {order : List Nat} {p : Payload}
    (h : g.numbering (fun _ => false) = .ok order)
    (hp : g.payload order (fun _ => false) = .ok p) : p.Mirrors g order.idxOf := by
  simp only [payload, Except.bind_eq_ok] at hp
  obtain ⟨records, hrecords, place, hplace, hp⟩ := hp
  obtain rfl := Except.ok.inj hp
  have hforall := Except.mapM_eq_ok.mp hrecords
  refine ⟨(idxOf_of_placeOf hplace).symm.trans (idxOf_root h), idxOf_root h,
    hforall.length_eq ▸ f.bijOn_idxOf h, fun {id n} hn => ?_⟩
  have hid : id ∈ order := (f.order_perm h).mem_iff.mpr
    (List.mem_range.mpr (Array.getElem?_eq_some_iff.mp hn).1)
  have hlt := List.idxOf_lt_length_iff.mpr hid
  have hlt' := hforall.length_eq ▸ hlt
  have hrecord := hforall.get hlt hlt'
  rw [List.get_eq_getElem, List.get_eq_getElem, List.getElem_idxOf] at hrecord
  obtain ⟨m, hm, hrecord⟩ := recordOf_eq_ok.mp hrecord
  obtain rfl := Option.some.inj (hn.symm.trans hm)
  have mirrors := Node.mirrors_of_record hrecord
  refine ⟨_, List.getElem?_eq_getElem hlt', mirrors, ?_⟩
  rw [mirrors.name, f.name?_eq_none_iff hn]

/-- A reader gets a record for every node that was written. If no command had to be left out, as is
the case from some size on, these are all nodes, and the records mirror them. No text of the graph
may be too long, and none is if none of the commands is. -/
theorem BuiltFrom.decode_serialize {cs : List Command} (h : g.BuiltFrom cs)
    (hfit : g.TextsFit ∨ ∀ c ∈ cs, c.TextsFit) :
    ∃ size, ∀ limit, ∃ out p, g.serialize limit = .ok out ∧ (size ≤ limit → out.omissions = []) ∧
      Payload.decode out.bytes = .ok p ∧ p.records.length = out.nodeCount ∧
      (out.omissions = [] → out.nodeCount = g.size ∧ ∃ place, p.Mirrors g place) := by
  have f := h.formed
  have hfit := h.textsFit_of_or hfit
  obtain ⟨full, hfull⟩ := f.exists_encode hfit fun _ => false
  refine ⟨full.bytes.length, fun limit => ?_⟩
  obtain ⟨out, hout⟩ := f.exists_serialize hfit limit
  obtain ⟨-, e, he, hbytes, hcount⟩ := encode_of_serialize hout
  obtain ⟨p, hp, hlen, hdecode⟩ := decode_encode he
  refine ⟨out, p, hout, fun hle => ?_, hbytes ▸ hdecode, hlen.trans hcount.symm, fun hnone => ?_⟩
  · obtain rfl := Except.ok.inj ((serialize_of_encode hfull hle).symm.trans hout)
    rfl
  · -- with nothing to skip, this is the whole graph
    rw [List.map_eq_nil_iff.mp hnone] at he hp
    have horder := (encode_eq_ok.mp he).1
    refine ⟨?_, _, f.mirrors horder hp⟩
    rw [hcount, (f.order_perm horder).length_eq, List.length_range]

/-- Two commands, each with an alias that is the name of the other. -/
def crossed : Except Inconsistency Graph :=
  ofCommands true 1 <| [
    Command.define "say" [.otherName "tell", .usage [.literal "to", .boolean "loud"]],
    Command.define "tell" [.otherName "say", .usage [.phrase ⟨"text", .greedy⟩]]
  ].filterMap Except.toOption

/-- Names may repeat: here each literal redirects to the other. -/
theorem crossed_mirrors : ∃ g out p, crossed = .ok g ∧ redirectOf g.nodes 1 = some 4 ∧
    redirectOf g.nodes 4 = some 1 ∧ g.TextsFit ∧ g.serialize 76 = .ok out ∧
    Payload.decode out.bytes = .ok p ∧ p.records.length = 6 ∧ ∃ place, p.Mirrors g place := by
  have facts : crossed.toOption.map (fun g => (redirectOf g.nodes 1, redirectOf g.nodes 4,
      decide g.TextsFit, g.size, (g.serialize 76).toOption.map (·.omissions.isEmpty))) =
        some (some 4, some 1, true, 6, some true) := by
    decide +kernel
  cases hg : crossed with
  | error fault => simp [hg, Except.toOption] at facts
  | ok g =>
    simp only [hg, Except.toOption, Option.map_some, Option.some.injEq, Prod.mk.injEq,
      decide_eq_true_eq] at facts
    obtain ⟨hsay, htell, hfit, hsize, hnone⟩ := facts
    obtain ⟨size, hdecode⟩ := (builtFrom_of_ofCommands hg).decode_serialize (.inl hfit)
    obtain ⟨out, p, hout, -, hp, hlen, hall⟩ := hdecode 76
    rw [hout] at hnone
    obtain ⟨hcount, hmirrors⟩ := hall (List.isEmpty_iff.mp (Option.some.inj hnone))
    exact ⟨g, out, p, rfl, hsay, htell, hfit, hout, hp, hlen.trans (hcount.trans hsize), hmirrors⟩

end Graph

end CommandGrammar
