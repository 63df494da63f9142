import CommandGrammar.Proofs.Graph.Demand
import CommandGrammar.Proofs.Graph.Roots
import CommandGrammar.Proofs.Payload.Bound
import CommandGrammar.Proofs.Payload.Total

/-!
# Commands with literals in common

Commands that a builder takes may have names in common, and what they have in common is measured in
the share of each. The size of the frame, which is what all shares leave of the payload, then comes
out too small, and commands are admitted that take the payload past the bound
(`Graph.repeated_exceeds`). If no name repeats, the bound is kept; whatever the names, the payload
exceeds it by no more than the frame, as long as places are one byte, and every byte that a place
may have beyond that counts once more (`Graph.BuiltFrom.serialize_bounded`).
-/

namespace CommandGrammar

open Nodes

/-! ## What is admitted -/

theorem mem_of_mem_admitGroups {limit : Nat} {v : Verdict} :
    ∀ {size : Nat} {pairs : List (Group × Nat)}, v ∈ admitGroups limit size pairs →
      (v.group, v.share) ∈ pairs
  | _, [], h => absurd h List.not_mem_nil
  | size, (group, share) :: rest, h => by
    rw [admitGroups] at h
    split at h <;>
    · rcases List.mem_cons.mp h with rfl | h
      · exact List.mem_cons_self
      · exact List.mem_cons_of_mem _ (mem_of_mem_admitGroups h)

/-- Shares are admitted as long as there is room for them. -/
theorem sum_kept_le (limit : Nat) :
    ∀ (size : Nat) (pairs : List (Group × Nat)),
      (((admitGroups limit size pairs).filter (·.kept)).map Verdict.share).sum ≤ limit - size
  | _, [] => Nat.zero_le _
  | size, (group, share) :: rest => by
    rw [admitGroups]
    split
    · have := sum_kept_le limit (size + share) rest
      rw [List.filter_cons_of_pos rfl, List.map_cons, List.sum_cons]
      show share + _ ≤ _
      omega
    · rw [List.filter_cons_of_neg Bool.false_ne_true]
      exact sum_kept_le limit size rest

namespace Graph

variable {g : Graph}

/-! ## Groups -/

/-- What a group adds to a payload at most, if the places of ids have these sizes. -/
def groupSize (g : Graph) (placeSize : Nat → Nat) (group : Group) : Nat :=
  (group.roots.map placeSize).sum +
    ((g.members group).map (g.sizeAt (fun _ => false) placeSize)).sum

theorem eq_groupSize_of_shareOf {e : Encoded} (he : g.encode (fun _ => false) = .ok e)
    {group : Group} {share : Nat} (h : g.shareOf e group = .ok share) :
    share = g.groupSize e.placeSize group := by
  obtain ⟨members, hmembers, rfl⟩ := exists_members_of_shareOf he h
  rw [groupSize, Graph.members, hmembers]
  rfl

variable {limit : Nat} {full : Encoded} {vs : List Verdict}

theorem mem_kept_or_omitted (hvs : g.verdicts limit full = .ok vs) : ∀ group ∈ g.groups,
    group ∈ (vs.filter (·.kept)).map Verdict.group ∨
      group ∈ (vs.filter (!·.kept)).map Verdict.group := by
  intro group hgroup
  obtain ⟨v, hv, rfl⟩ := List.mem_map.mp (verdicts_groups hvs ▸ hgroup)
  cases hkept : v.kept with
  | true => exact .inl (List.mem_map_of_mem (List.mem_filter.mpr ⟨hv, hkept⟩))
  | false => exact .inr (List.mem_map_of_mem (List.mem_filter.mpr ⟨hv, by rw [hkept]; rfl⟩))

/-- Whatever the frame is taken for, the groups that are kept are no more than the limit. -/
theorem sum_groupSize_kept_le (hfull : g.encode (fun _ => false) = .ok full)
    (hvs : g.verdicts limit full = .ok vs) :
    (((vs.filter (·.kept)).map Verdict.group).map (g.groupSize full.placeSize)).sum ≤ limit := by
  obtain ⟨shares, hshares, h⟩ := Except.bind_eq_ok.mp hvs
  obtain rfl := Except.ok.inj h
  rw [List.map_map, List.map_congr_left (g := Verdict.share) fun v hv => ?_]
  · exact Nat.le_trans (sum_kept_le limit _ _) (Nat.sub_le ..)
  · have hpair := mem_of_mem_admitGroups (List.mem_of_mem_filter hv)
    exact (eq_groupSize_of_shareOf hfull
      (List.forall₂_zip (Except.mapM_eq_ok.mp hshares) hpair)).symm

/-! ## Sizes in other places -/

section

variable {placeSize placeSize' : Nat → Nat} {k : Nat} (hk : 0 < k)
  (h : ∀ id, placeSize' id ≤ k * placeSize id)

include h

theorem sum_places_le_mul (ids : List Nat) :
    (ids.map placeSize').sum ≤ k * (ids.map placeSize).sum := by
  rw [← List.sum_map_mul_left]
  exact List.sum_le_sum fun id _ => h id

include hk

/-- Of a record only places may grow. -/
theorem sizeAt_le_mul (skip : Nat → Bool) (id : Nat) :
    g.sizeAt skip placeSize' id ≤ k * g.sizeAt skip placeSize id := by
  cases hn : g.node? id with
  | none => simp [sizeAt_eq_zero hn]
  | some n =>
    rw [sizeAt_eq hn, sizeAt_eq hn, Node.recordSize, Node.recordSize]
    have hchildren := sum_places_le_mul h (n.children.filter (!skip ·))
    have hredirect := sum_places_le_mul h n.redirect.toList
    have hrest := Nat.le_mul_of_pos_left
      (1 + lengthSize (n.children.filter (!skip ·)).length + n.bodySize) hk
    simp only [Nat.mul_add] at hrest ⊢
    omega

theorem groupSize_le_mul (group : Group) :
    g.groupSize placeSize' group ≤ k * g.groupSize placeSize group := by
  rw [groupSize, groupSize, Nat.mul_add]
  refine Nat.add_le_add (sum_places_le_mul h _) ?_
  rw [← List.sum_map_mul_left]
  exact List.sum_le_sum fun id _ => sizeAt_le_mul hk h _ id

end

/-! ## Payloads without some groups -/

namespace Formed

variable (f : g.Formed)

include f

/-- Skipping children makes no record larger. -/
theorem sizeAt_skip_le (skip : Nat → Bool) (placeSize : Nat → Nat) (id : Nat) :
    g.sizeAt skip placeSize id ≤ g.sizeAt (fun _ => false) placeSize id := by
  cases hn : g.node? id with
  | none => rw [sizeAt_eq_zero hn, sizeAt_eq_zero hn]
  | some n =>
    have hsub : (n.children.filter (!skip ·)).Sublist (n.children.filter fun _ => !false) := by
      rw [Bool.not_false, List.filter_true]
      exact List.filter_sublist
    have hlen := Nat.le_trans (List.length_filter_le (fun _ => !false) n.children)
      (f.length_children_le hn)
    have hcount := lengthSize_mono hsub.length_le (Nat.le_trans hlen f.size_le)
    have hchildren := (hsub.map placeSize).sum_le_sum fun _ _ => Nat.zero_le _
    rw [sizeAt_eq hn, sizeAt_eq hn, Node.recordSize, Node.recordSize]
    omega

variable (r : g.Rooted) {ks os : List Group}
  (hcover : ∀ group ∈ g.groups, group ∈ ks ∨ group ∈ os)

include r hcover

omit f in
/-- A child of the root is skipped, or is a literal of a group that is kept. -/
theorem children_subset {n : Node} (hn : g.node? root = some n) :
    n.children.filter (!isRootOf os ·) ⊆ ks.flatMap Group.roots := by
  intro q hq
  obtain ⟨hq, hskip⟩ := List.mem_filter.mp hq
  have hchild : q ∈ g.children root := by
    rwa [children, hn, Option.map_some, Option.getD_some]
  obtain ⟨group, hgroup, hroot⟩ := r.child q hchild
  refine List.mem_flatMap.mpr ⟨group, (hcover group hgroup).resolve_right fun ho => ?_, hroot⟩
  rw [Bool.not_eq_true', isRootOf, List.any_eq_false] at hskip
  exact hskip group ho (List.contains_iff_mem.mpr hroot)

theorem sizeAt_root_le {width : Nat} (hwidth : ∀ n ≤ g.size, lengthSize n ≤ width)
    (placeSize : Nat → Nat) : g.sizeAt (isRootOf os) placeSize root ≤
      1 + width + (ks.map fun k => (k.roots.map placeSize).sum).sum := by
  obtain ⟨n, hn⟩ : ∃ n, g.node? root = some n := ⟨_, Array.getElem?_eq_getElem f.tree.nonempty⟩
  have hredirect : n.redirect = none := (redirectOf_eq hn).symm.trans r.redirect
  have hlabel : n.label = none := (labelOf_eq hn).symm.trans f.tree.root
  have hbody : n.bodySize = 0 := by
    rw [Node.bodySize, Node.body, hlabel]
    rfl
  have hcount := hwidth _ (Nat.le_trans (List.length_filter_le (!isRootOf os ·) n.children)
    (f.length_children_le hn))
  have hchildren := sum_map_le_of_subset (f := placeSize)
    ((childrenOf_eq hn ▸ f.tree.nodup root : n.children.Nodup).filter _)
    (children_subset r hcover hn)
  rw [sum_map_flatMap] at hchildren
  rw [sizeAt_eq hn, Node.recordSize, hredirect, hbody]
  show _ + _ + _ + 0 + 0 ≤ _
  omega

variable (hks : ks ⊆ g.groups)

include hks

/-- Without some groups, only the root is numbered and what the others lead to. -/
theorem order_subset {order : List Nat} (h : g.numbering (isRootOf os) = .ok order) :
    order ⊆ root :: ks.flatMap g.members := by
  have hmem : ∀ {id : Nat}, id ∈ root :: ks.flatMap g.members ↔
      id = root ∨ ∃ k ∈ ks, id ∈ g.members k := by
    intro id
    rw [List.mem_cons, List.mem_flatMap]
  refine walk_forall (fun {id n} hn hid q hq => ?_) h (List.forall_mem_nil _)
    (List.forall_mem_singleton.mpr List.mem_cons_self)
  rcases hmem.mp hid with rfl | ⟨k, hk, hid⟩
  · have hredirect : n.redirect = none := (redirectOf_eq hn).symm.trans r.redirect
    rw [Node.successorsExcept, hredirect, Option.toList_none, List.append_nil] at hq
    obtain ⟨k, hk, hroot⟩ := List.mem_flatMap.mp (children_subset r hcover hn hq)
    exact hmem.mpr (.inr ⟨k, hk, (walk_spec (f.walk_members (hks hk))).of_queue q hroot⟩)
  · obtain ⟨n', hn', hsucc⟩ := node_of_mem_walk (f.walk_members (hks hk)) hid
    obtain rfl := Option.some.inj (hn.symm.trans hn')
    refine hmem.mpr (.inr ⟨k, hk, hsucc q ?_⟩)
    rw [Node.successorsExcept, Bool.not_false, List.filter_true]
    exact n.successorsExcept_subset _ hq

/-- Without some groups, the payload has the shares of the others and a frame of four numbers. -/
theorem length_le_groupSize {e : Encoded} (he : g.encode (isRootOf os) = .ok e) {width : Nat}
    (hwidth : ∀ n ≤ g.size, lengthSize n ≤ width) :
    e.bytes.length ≤ 3 * width + 1 + (ks.map (g.groupSize e.placeSize)).sum := by
  have hnumbering := (encode_eq_ok.mp he).1
  have hlen := length_order_le_size hnumbering
  have hnd := nodup_of_walk hnumbering
  have hroot : root ∈ e.order := root_mem_numbering hnumbering
  have hothers : e.order.erase root ⊆ ks.flatMap g.members := fun id hid => by
    obtain ⟨hne, hid⟩ := hnd.mem_erase_iff.mp hid
    exact (List.mem_cons.mp (f.order_subset r hcover hks hnumbering hid)).resolve_left hne
  have hrecords : ((e.order.erase root).map (g.sizeAt (isRootOf os) e.placeSize)).sum ≤
      (ks.map fun k => ((g.members k).map (g.sizeAt (fun _ => false) e.placeSize)).sum).sum := by
    rw [← sum_map_flatMap]
    exact Nat.le_trans (List.sum_le_sum fun id _ => f.sizeAt_skip_le _ _ id)
      (sum_map_le_of_subset (hnd.erase root) hothers)
  have hfirst := f.sizeAt_root_le r hcover hwidth e.placeSize
  have hplace : e.placeSize root ≤ width := hwidth _ (Nat.le_trans (idxOf?_le root) hlen)
  have hcount := hwidth _ hlen
  have hshares : (ks.map (g.groupSize e.placeSize)).sum = _ := List.sum_map_add
  rw [(length_encode he).2, ((List.perm_cons_erase hroot).map _).sum_eq, List.map_cons,
    List.sum_cons, hshares]
  omega

omit hcover hks

omit r in
/-- Places may be larger than they were with nothing left out, but not than the number of nodes. -/
theorem placeSize_le_mul {skip : Nat → Bool} {e : Encoded} (he : g.encode skip = .ok e)
    (full : Encoded) (id : Nat) : e.placeSize id ≤ lengthSize g.size * full.placeSize id := by
  have hplace := Nat.le_trans (idxOf?_le id) (length_order_le_size (encode_eq_ok.mp he).1)
  exact Nat.le_trans (lengthSize_mono hplace f.size_le)
    (Nat.le_mul_of_pos_right _ (lengthSize_pos _))

/-- Whatever the names, the payload is too large by the frame at most, and by what places may need
beyond one byte. -/
theorem length_serialize_le {limit : Nat} {out : Serialized} (hout : g.serialize limit = .ok out) :
    out.bytes.length ≤ lengthSize g.size * (limit + 3) + 1 := by
  have hwidth := lengthSize_pos g.size
  obtain ⟨-, e, he, hbytes, -⟩ := encode_of_serialize hout
  obtain ⟨full, hfull, ⟨hle, rfl⟩ | ⟨-, vs, rest, hvs, -, rfl⟩⟩ := serialize_eq_ok hout
  · have := Nat.le_mul_of_pos_left (limit + 3) hwidth
    exact Nat.le_trans hle (by omega)
  · have hks : (vs.filter (·.kept)).map Verdict.group ⊆ g.groups :=
      verdicts_groups hvs ▸ (List.filter_sublist.map _).subset
    have hlen := f.length_le_groupSize r (mem_kept_or_omitted hvs) hks he fun n hn =>
      lengthSize_mono hn f.size_le
    rw [hbytes]
    calc e.bytes.length
        ≤ 3 * lengthSize g.size + 1 +
            (((vs.filter (·.kept)).map Verdict.group).map (g.groupSize e.placeSize)).sum := hlen
      _ ≤ 3 * lengthSize g.size + 1 + lengthSize g.size *
            (((vs.filter (·.kept)).map Verdict.group).map (g.groupSize full.placeSize)).sum := by
          rw [← List.sum_map_mul_left]
          exact Nat.add_le_add_left (List.sum_le_sum fun group _ =>
            groupSize_le_mul hwidth (f.placeSize_le_mul he full) group) _
      _ ≤ 3 * lengthSize g.size + 1 + lengthSize g.size * limit :=
          Nat.add_le_add_left (Nat.mul_le_mul_left _ (sum_groupSize_kept_le hfull hvs)) _
      _ = lengthSize g.size * (limit + 3) + 1 := by
          rw [Nat.mul_add]
          omega

end Formed

/-! ## The bound -/

variable {cs : List Command} {limit : Nat}

/-- If no name repeats, commands are admitted by sizes that are never too small. -/
theorem BuiltFrom.length_le_of_nodup (h : g.BuiltFrom cs)
    (hnd : (cs.flatMap fun c => c.names).Nodup) {out : Serialized}
    (hout : g.serialize limit = .ok out) : out.bytes.length ≤ max limit 4 := by
  have declares := h.declares hnd
  obtain ⟨lots, d⟩ := declares.exists_lots
  obtain ⟨full, hfull, -⟩ := serialize_eq_ok hout
  have hg := h.ofCommands_eq
  rw [← h.commands_eq hnd] at hg
  obtain ⟨len, hlen, -, hnil, hmeasured⟩ := exists_lengths declares.names hg d hfull
  have hkept : len (out.kept g.commands) = out.bytes.length :=
    (hlen _ List.filter_sublist).unique (payloadLength_of_serialize declares.names hg hout)
  rw [← hkept]
  by_cases hempty : out.kept g.commands = []
  · rw [hempty, hnil]
    exact Nat.le_max_right ..
  · refine Nat.le_trans (Serialized.length_kept_le (fun hc hname => ?_) hempty) (Nat.le_max_left ..)
    obtain ⟨ls, hls, hmap, decides⟩ := d.exists_decides hfull hout hc
    exact hmap ▸ Nat.le_trans (hmeasured ls hls).1 (decides.admitted hname)

/-- A payload within a limit that is large enough for no command at all keeps to the limit if no
name repeats, and whatever the names, is not much larger: in a graph of up to 127 nodes, where the
number of nodes and all places are one byte, by four bytes. No text of the graph may be too long to
be written, and none is if none of the commands is. -/
theorem BuiltFrom.serialize_bounded (h : g.BuiltFrom cs)
    (hfit : g.TextsFit ∨ ∀ c ∈ cs, c.TextsFit) (hlimit : 4 ≤ limit) :
    ∃ out, g.serialize limit = .ok out ∧
      ((cs.flatMap fun c => c.names).Nodup → out.bytes.length ≤ limit) ∧
      out.bytes.length ≤ lengthSize g.size * (limit + 3) + 1 ∧
      (g.size ≤ 127 → out.bytes.length ≤ limit + 4) := by
  obtain ⟨out, hout⟩ := h.formed.exists_serialize (h.textsFit_of_or hfit) limit
  have hle := h.formed.length_serialize_le h.rooted hout
  refine ⟨out, hout, fun hnd => ?_, hle, fun hsize => ?_⟩
  · have := h.length_le_of_nodup hnd hout
    omega
  · rwa [lengthSize_eq_one hsize, Nat.one_mul] at hle

/-- Commands of these names, which are all that there is to them. -/
def bareCommands (names : List String) : List Command :=
  names.filterMap fun name => (Command.define name [.runnable]).toOption

/-- Without the second command, the limit is just kept to. -/
theorem bounded_bareCommands : ∃ (g : Graph) (out : Serialized),
    g.BuiltFrom (bareCommands ["a", "y"]) ∧ (∀ c ∈ bareCommands ["a", "y"], c.TextsFit) ∧ 4 ≤ 9 ∧
    ((bareCommands ["a", "y"]).flatMap fun c => c.names).Nodup ∧ g.serialize 9 = .ok out ∧
    out.bytes.length ≤ 9 ∧ out.bytes.length ≤ lengthSize g.size * 12 + 1 := by
  have hsize : (ofCommands true 1 (bareCommands ["a", "y"])).toOption.map size = some 3 := by
    decide +kernel
  have htexts : (bareCommands ["a", "y"]).all (fun c => decide c.TextsFit) = true := by
    decide +kernel
  have hfit : ∀ c ∈ bareCommands ["a", "y"], c.TextsFit := fun c hc =>
    of_decide_eq_true (List.all_eq_true.mp htexts c hc)
  have hnames : ((bareCommands ["a", "y"]).flatMap fun c => c.names) = ["a", "y"] := by
    decide +kernel
  have hnd : ((bareCommands ["a", "y"]).flatMap fun c => c.names).Nodup :=
    hnames ▸ (by decide : ["a", "y"].Nodup)
  obtain ⟨g, hg, -⟩ := Except.exists_of_map_toOption hsize
  have built := builtFrom_of_ofCommands hg
  obtain ⟨out, hout, hle, hwidth, -⟩ := built.serialize_bounded (.inr hfit) (by decide : 4 ≤ 9)
  exact ⟨g, out, built, hfit, by decide, hnd, hout, hle hnd, hwidth⟩

/-- The share of a literal that two commands have in common is taken off twice, which leaves nothing
for the frame. So another command is admitted, and the payload has nine bytes instead of eight. -/
theorem repeated_exceeds : ∃ (g : Graph) (out : Serialized),
    g.BuiltFrom (bareCommands ["a", "y", "y"]) ∧ g.TextsFit ∧ g.serialize 8 = .ok out ∧
    out.omissions = [⟨"y", 10, 8⟩, ⟨"y", 10, 8⟩] ∧ out.bytes.length = 9 := by
  have facts : (ofCommands true 1 (bareCommands ["a", "y", "y"])).toOption.map (fun g =>
      (decide g.TextsFit, (g.serialize 8).toOption.map fun out =>
        (out.omissions, out.bytes.length))) =
        some (true, some ([⟨"y", 10, 8⟩, ⟨"y", 10, 8⟩], 9)) := by
    decide +kernel
  obtain ⟨g, hg, facts⟩ := Except.exists_of_map_toOption facts
  obtain ⟨hfit, facts⟩ := Prod.mk.inj facts
  obtain ⟨out, hout, facts⟩ := Except.exists_of_map_toOption facts
  obtain ⟨homissions, hlength⟩ := Prod.mk.inj facts
  exact ⟨g, out, builtFrom_of_ofCommands hg, of_decide_eq_true hfit, hout, homissions, hlength⟩

end Graph

end CommandGrammar
