import CommandGrammar.Proofs.Payload.Accepted
import CommandGrammar.Proofs.Payload.Kept
import CommandGrammar.Proofs.Payload.Total

/-!
# What is looked up is there

A graph is serialized by looking up nodes by their ids, places of ids, and records by their places,
and each of these can fail. A graph that a builder makes never lets it come to that
(`Graph.BuiltFrom.serialize_complete`), also if names repeat and some commands are left out. A
literal that is skipped among the children of the root may then be where another one redirects to,
and gets its place on that way (`Graph.tangled_complete`).
-/

namespace CommandGrammar

open Nodes

/-- All that the record of a node refers to has a place, an argument has a parser, and no length in
it is too large. -/
structure Node.Writable (n : Node) (order : List Nat) (skip : Nat → Bool) : Prop where
  placed : ∀ q ∈ n.successorsExcept skip, ∃ place, placeOf order q = .ok place ∧
    place ≤ Write.maxLength
  count : (n.children.filter (!skip ·)).length ≤ Write.maxLength
  parser : n.kind = .argument → ∃ hint, n.hint? = some hint
  texts : ∀ s ∈ n.body.texts, Write.Fits s

namespace Encoded

/-- Nothing was missing when this was written. -/
structure Complete (e : Encoded) (g : Graph) (skip : Nat → Bool) : Prop where
  count : e.order.length ≤ Write.maxLength
  root : ∃ place, placeOf e.order Graph.root = .ok place
  node : ∀ id ∈ e.order, ∃ n, g.node? id = some n ∧ n.Writable e.order skip
  record : ∀ id ∈ e.order, ∃ size, e.recordSize id = .ok size

/-- Nothing is missing when the share of a group is measured. -/
structure Measures (e : Encoded) (g : Graph) (group : Group) : Prop where
  roots : ∀ id ∈ group.roots, ∃ place, placeOf e.order id = .ok place
  members : ∃ members, g.walk (fun _ => false) [] group.roots = .ok members ∧
    ∀ id ∈ members, (∃ n, g.node? id = some n) ∧ ∃ size, e.recordSize id = .ok size
  share : ∃ share, g.shareOf e group = .ok share

end Encoded

/-! ## Nodes -/

namespace Node

theorem exists_hint {n : Node} (h : n.kind = .argument) : ∃ hint, n.hint? = some hint := by
  rcases n with ⟨_ | ⟨_ | choices | hint, name, executable⟩, provider, redirect, children⟩
  · cases h
  · cases h
  · cases h
  · exact ⟨hint, rfl⟩

theorem fits_body {n : Node} (h : ∀ s ∈ n.texts, Write.Fits s) :
    ∀ s ∈ n.body.texts, Write.Fits s := by
  rcases n with ⟨_ | ⟨_ | choices | hint, name, executable⟩, provider, redirect, children⟩
  · exact List.forall_mem_nil _
  · exact List.forall_mem_singleton.mpr (h name List.mem_cons_self)
  · exact List.forall_mem_singleton.mpr (h name List.mem_cons_self)
  · exact List.forall_mem_cons.mpr ⟨h name List.mem_cons_self,
      List.forall_mem_cons.mpr ⟨hint.fits_identifier, fun s hs => h s (List.mem_cons_of_mem _ hs)⟩⟩

end Node

/-! ## Layouts -/

namespace Graph

variable {g : Graph} {skip : Nat → Bool} {e : Encoded}

namespace Formed

variable (f : g.Formed)

include f

/-- Once numbered and written, nothing is missing: each step had all that it needed. -/
theorem complete (hfit : g.TextsFit) (he : g.encode skip = .ok e) : e.Complete g skip := by
  have hnumbering := (encode_eq_ok.mp he).1
  have hcount : e.order.length ≤ Write.maxLength :=
    Nat.le_trans (length_order_le_size hnumbering) f.size_le
  refine ⟨hcount, exists_placeOf (root_mem_numbering hnumbering), fun id hid => ?_,
    fun id hid => exists_recordSize he hid⟩
  obtain ⟨n, hn, hsucc⟩ := node_of_mem_walk hnumbering hid
  refine ⟨n, hn, fun q hq => ?_, ?_, Node.exists_hint,
    Node.fits_body (hfit n (Array.mem_of_getElem? hn))⟩
  · obtain ⟨place, hplace⟩ := exists_placeOf (hsucc q hq)
    exact ⟨place, hplace, Nat.le_trans (Nat.le_of_lt (lt_of_placeOf hplace)) hcount⟩
  · exact Nat.le_trans (List.length_filter_le ..)
      (Nat.le_trans (f.length_children_le hn) f.size_le)

/-- With nothing left out every node has a record, so the share of every group can be measured. -/
theorem measures (he : g.encode (fun _ => false) = .ok e) {group : Group}
    (hgroup : group ∈ g.groups) : e.Measures g group := by
  have hmem : ∀ {id : Nat}, id < g.size → id ∈ e.order := fun hid =>
    (f.order_perm (encode_eq_ok.mp he).1).mem_iff.mpr (List.mem_range.mpr hid)
  refine ⟨fun id hid => exists_placeOf (hmem (f.root_lt hgroup id hid)),
    ⟨_, f.walk_members hgroup, fun id hid => ?_⟩, f.exists_shareOf he hgroup⟩
  have hlt := f.lt_of_mem_members hgroup id hid
  exact ⟨⟨_, Array.getElem?_eq_getElem hlt⟩, exists_recordSize he (hmem hlt)⟩

end Formed

/-- Whatever the limit, a graph that a builder made is serialized, and neither in the layout of all
nor in the one that is left when groups are left out is anything missing or too long, if none of its
texts is, or none of the commands. -/
theorem BuiltFrom.serialize_complete {cs : List Command} (h : g.BuiltFrom cs)
    (hfit : g.TextsFit ∨ ∀ c ∈ cs, c.TextsFit) (limit : Nat) :
    ∃ out full rest, g.serialize limit = .ok out ∧
      g.encode (fun _ => false) = .ok full ∧ full.Complete g (fun _ => false) ∧
      (∀ group ∈ g.groups, full.Measures g group) ∧
      g.encode (isRootOf (out.omitted.map Verdict.group)) = .ok rest ∧
      rest.Complete g (isRootOf (out.omitted.map Verdict.group)) ∧
      out.bytes = rest.bytes ∧ out.nodeCount = rest.order.length := by
  have f := h.formed
  have hfit := h.textsFit_of_or hfit
  obtain ⟨out, hout⟩ := f.exists_serialize hfit limit
  obtain ⟨full, hfull⟩ := f.exists_encode hfit fun _ => false
  obtain ⟨-, rest, hrest, hbytes, hcount⟩ := encode_of_serialize hout
  exact ⟨out, full, rest, hout, hfull, f.complete hfit hfull, fun _ => f.measures hfull, hrest,
    f.complete hfit hrest, hbytes, hcount⟩

/-- The first command has its own name for an alias, and the second has it, too. -/
def tangled : Except Inconsistency Graph :=
  ofCommands true 1 <| [
    Command.define "b" [.otherName "b", .otherName "x"],
    Command.define "y" [.otherName "b", .usage [.phrase ⟨"text", .greedy⟩]]
  ].filterMap Except.toOption

/-- The second command is left out, and both of its literals with it, which are nodes 3 and 1. They
get places all the same, as node 2 redirects to the one, and this to the other. -/
theorem tangled_complete : ∃ g out full rest, tangled = .ok g ∧ g.TextsFit ∧
    g.serialize 43 = .ok out ∧ out.omitted.map (·.group.roots) = [[3, 1]] ∧
    g.encode (fun _ => false) = .ok full ∧ full.Complete g (fun _ => false) ∧
    (∀ group ∈ g.groups, full.Measures g group) ∧
    g.encode (isRootOf (out.omitted.map Verdict.group)) = .ok rest ∧
    rest.Complete g (isRootOf (out.omitted.map Verdict.group)) ∧ rest.order = [0, 2, 1, 3, 4] := by
  have facts : tangled.toOption.map (fun g => (decide g.TextsFit, (g.serialize 43).toOption.map
      fun out => (out.omitted.map (·.group.roots),
        (g.encode (isRootOf (out.omitted.map Verdict.group))).toOption.map (·.order)))) =
        some (true, some ([[3, 1]], some [0, 2, 1, 3, 4])) := by
    decide +kernel
  obtain ⟨g, hg, facts⟩ := Except.exists_of_map_toOption facts
  obtain ⟨hfit, facts⟩ := Prod.mk.inj facts
  obtain ⟨out', hout', facts⟩ := Except.exists_of_map_toOption facts
  obtain ⟨hroots, facts⟩ := Prod.mk.inj facts
  obtain ⟨rest', hrest', horder⟩ := Except.exists_of_map_toOption facts
  have hfit : g.TextsFit := of_decide_eq_true hfit
  obtain ⟨out, full, rest, hout, hfull, hcomplete, hmeasures, hrest, hrestComplete, -⟩ :=
    (builtFrom_of_ofCommands hg).serialize_complete (.inl hfit) 43
  obtain rfl := Except.ok.inj (hout'.symm.trans hout)
  obtain rfl := Except.ok.inj (hrest'.symm.trans hrest)
  exact ⟨g, out', full, rest', hg, hfit, hout, hroots, hfull, hcomplete, hmeasures, hrest,
    hrestComplete, horder⟩

end Graph

end CommandGrammar
