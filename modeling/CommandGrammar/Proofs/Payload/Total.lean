import CommandGrammar.Proofs.Graph.Texts
import CommandGrammar.Proofs.Payload.Order
import CommandGrammar.Proofs.Payload.Reach
import CommandGrammar.Proofs.Payload.Size

/-!
# Serializing never fails

A formed graph can be numbered whatever is skipped (`Graph.Formed.inBounds`), and if nothing is, all
of its nodes are (`Graph.Formed.order_perm`). If the texts are not too long to be written, the graph
has a payload whatever is skipped (`Graph.Formed.exists_encode`), every group has a share, and
whatever the limit, the graph is serialized (`Graph.Formed.exists_serialize`).
-/

namespace CommandGrammar

open Nodes

/-! ## Texts -/

theorem Hint.fits_identifier (h : Hint) : Write.Fits h.identifier := by
  unfold Write.Fits
  cases h with
  | text mode => exact (by decide +kernel : (Utf8.encode textParser).length ≤ Write.maxLength)
  | boolean => exact (by decide +kernel : (Utf8.encode booleanParser).length ≤ Write.maxLength)
  | integer min max =>
    exact (by decide +kernel : (Utf8.encode integerParser).length ≤ Write.maxLength)

/-- The body of a node is written if its texts are. -/
theorem Node.exists_body {n : Node} (h : ∀ s ∈ n.texts, Write.Fits s) :
    ∃ bs, n.body.encode = .ok bs := by
  rcases n with ⟨_ | ⟨_ | choices | hint, name, executable⟩, provider, redirect, children⟩
  · exact ⟨[], rfl⟩
  · exact Write.exists_text_iff.mpr (h name List.mem_cons_self)
  · exact Write.exists_text_iff.mpr (h name List.mem_cons_self)
  · obtain ⟨bsName, hname⟩ := Write.exists_text_iff.mpr (h name List.mem_cons_self)
    obtain ⟨bsParser, hparser⟩ := Write.exists_text_iff.mpr hint.fits_identifier
    obtain ⟨bssProvider, hprovider⟩ := Except.exists_mapM_eq_ok fun s hs =>
      Write.exists_text_iff.mpr (h s (List.mem_append_right _ hs))
    simp only [body, Body.encode, Except.bind_eq_ok]
    exact ⟨_, bsName, hname, bsParser, hparser, bssProvider, hprovider, rfl⟩

/-- The nodes that the literals of a group lead to. -/
def Graph.members (g : Graph) (group : Group) : List Nat :=
  (g.walk (fun _ => false) [] group.roots).toOption.getD []

namespace Graph.Formed

variable {g : Graph} (f : g.Formed)

include f

/-! ## Walks -/

/-- Nodes lead to nodes, and there are no more than may be numbered. -/
theorem inBounds : g.InBounds where
  root_lt := f.tree.nonempty
  successor_lt hn := f.successors_lt hn
  size_le := f.size_le

/-- The members of a group are met from its literals, and the walk comes to its end. -/
theorem walk_members {group : Group} (hgroup : group ∈ g.groups) :
    g.walk (fun _ => false) [] group.roots = .ok (g.members group) := by
  obtain ⟨ids, h⟩ := f.inBounds.exists_walk (fun _ => false) List.nodup_nil
    (List.forall_mem_nil _) (f.root_lt hgroup)
  rw [members, h]
  rfl

theorem lt_of_mem_members {group : Group} (hgroup : group ∈ g.groups) :
    ∀ id ∈ g.members group, id < g.size :=
  fun _ hid => lt_size_of_mem_walk (f.walk_members hgroup) hid

theorem length_children_le {id : Nat} {n : Node} (hn : g.node? id = some n) :
    n.children.length ≤ g.size :=
  length_le_size (childrenOf_eq hn ▸ f.tree.nodup id)
    fun q hq => f.successors_lt hn q (List.mem_append_left _ hq)

/-- If nothing is skipped, every node is numbered. -/
theorem order_perm {order : List Nat} (h : g.numbering (fun _ => false) = .ok order) :
    order.Perm (List.range g.size) :=
  order_perm_of_isTree f.tree h

/-! ## Payloads -/

variable (hfit : g.TextsFit)

include hfit

/-- Whatever is skipped, encoding goes well. -/
theorem exists_encode (skip : Nat → Bool) : ∃ e, g.encode skip = .ok e := by
  obtain ⟨order, horder⟩ := f.inBounds.exists_numbering skip
  have hlen := Nat.le_trans (length_order_le_size horder) f.size_le
  obtain ⟨e, he, -⟩ := Graph.exists_encode f.tree.nodup horder hlen
    fun _ hn => Node.exists_body (hfit _ (Array.mem_of_getElem? hn))
  exact ⟨e, he⟩

omit hfit in
/-- Every group has a share of the payload of all, as every node has a record there. -/
theorem exists_shareOf {e : Encoded} (he : g.encode (fun _ => false) = .ok e) {group : Group}
    (hgroup : group ∈ g.groups) : ∃ share, g.shareOf e group = .ok share := by
  have hsize : ∀ id ∈ g.members group, ∃ size, e.recordSize id = .ok size := fun id hid =>
    exists_recordSize he ((f.order_perm (encode_eq_ok.mp he).1).mem_iff.mpr
      (List.mem_range.mpr (f.lt_of_mem_members hgroup id hid)))
  obtain ⟨sizes, hsizes⟩ := Except.exists_mapM_eq_ok hsize
  exact ⟨_, Except.bind_eq_ok.mpr ⟨_, f.walk_members hgroup,
    Except.bind_eq_ok.mpr ⟨sizes, hsizes, rfl⟩⟩⟩

omit hfit in
/-- Every group gets a verdict, since each has a share. -/
theorem exists_verdicts (limit : Nat) {e : Encoded} (he : g.encode (fun _ => false) = .ok e) :
    ∃ vs, g.verdicts limit e = .ok vs := by
  obtain ⟨shares, hshares⟩ := Except.exists_mapM_eq_ok fun group hgroup =>
    f.exists_shareOf he hgroup
  exact ⟨_, Except.bind_eq_ok.mpr ⟨shares, hshares, rfl⟩⟩

/-- Whatever the limit, the graph is serialized. -/
theorem exists_serialize (limit : Nat) : ∃ out, g.serialize limit = .ok out := by
  obtain ⟨full, hfull⟩ := f.exists_encode hfit fun _ => false
  rcases Nat.lt_or_ge limit full.bytes.length with hlt | hle
  · obtain ⟨vs, hvs⟩ := f.exists_verdicts limit hfull
    obtain ⟨rest, hrest⟩ : ∃ rest, g.encodeWithout (vs.filter (!·.kept)) = .ok rest :=
      f.exists_encode hfit _
    refine ⟨⟨rest.bytes, rest.order.length, vs.filter (!·.kept), limit⟩,
      Except.bind_eq_ok.mpr ⟨full, hfull, ?_⟩⟩
    rw [if_neg (Nat.not_le_of_lt hlt)]
    exact Except.bind_eq_ok.mpr ⟨vs, hvs, Except.bind_eq_ok.mpr ⟨rest, hrest, rfl⟩⟩
  · exact ⟨_, serialize_of_encode hfull hle⟩

end Graph.Formed

end CommandGrammar
