import CommandGrammar.Proofs.Payload.Order
import CommandGrammar.Proofs.Payload.Size

/-!
# What each command adds to a payload

A payload of some of the commands is made up of a frame and of the share of each
(`Graph.Divided.length_without`). Both are told by the sizes of places. Leaving commands out makes
places smaller only, so what is measured in the payload of all, which is what a share is
(`Graph.Divided.shareIn_of_shareOf`), is never too small for the payload of some
(`Graph.Divided.length_without_le`); up to 127 nodes it is exact
(`Graph.Divided.length_without_eq`).
-/

namespace CommandGrammar

open Nodes

namespace Graph

/-! ## Sizes -/

/-- What a lot adds to a payload, if the places of ids have these sizes. -/
def shareIn (g : Graph) (placeSize : Nat → Nat) (x : Lot) : Nat :=
  (x.group.roots.map placeSize).sum + (x.ids.map (g.sizeAt (fun _ => false) placeSize)).sum

/-- How many bytes a payload with these lots has that are part of none of them: the number of
records, the root's record but for the places of its children, and the place of the root. -/
def frameSize (placeSize : Nat → Nat) (ls : List Lot) : Nat :=
  lengthSize ((ls.flatMap Lot.ids).length + 1) + 1 +
    lengthSize (ls.flatMap fun x => x.group.roots).length + placeSize root

namespace Divided

variable {g : Graph} {lots ls : List Lot} (d : g.Divided lots) (hls : ls.Sublist lots) {x : Lot}
  {id : Nat} {order : List Nat} {placeSize : Nat → Nat}

include d hls

/-- The root's record has its flags, and the places of the kept literals after their number. -/
theorem sizeAt_root : g.sizeAt (isRootOf (g.groupsWithout ls)) placeSize root =
    1 + lengthSize (ls.flatMap fun x => x.group.roots).length +
      ((ls.flatMap fun x => x.group.roots).map placeSize).sum := by
  obtain ⟨n, hn⟩ : ∃ n, g.node? root = some n := ⟨_, Array.getElem?_eq_getElem d.tree.nonempty⟩
  obtain ⟨hbody, -, hredirect⟩ := d.root_node hn
  have hperm : (n.children.filter (!isRootOf (g.groupsWithout ls) ·)).Perm
      (ls.flatMap fun x => x.group.roots) := by
    have hchildren : n.children.Nodup := childrenOf_eq hn ▸ d.tree.nodup root
    refine (List.perm_ext_iff_of_nodup (List.Pairwise.filter _ hchildren)
      (d.nodup_roots.sublist (hls.flatMap _))).mpr fun id => ?_
    have hmem : id ∈ n.children ↔ ∃ x ∈ lots, id ∈ x.group.roots := by
      rw [← d.mem_children, children, hn, Option.map_some, Option.getD_some]
    rw [List.mem_filter, hmem, List.mem_flatMap, Bool.not_eq_true', Bool.eq_false_iff]
    constructor
    · rintro ⟨⟨x, hx, hroot⟩, hskip⟩
      have := mt (d.isRootOf_iff hls hx ((d.owns x hx).roots hroot)).mpr hskip
      exact ⟨x, by_contra fun hxls => this ⟨hroot, hxls⟩, hroot⟩
    · rintro ⟨x, hxls, hroot⟩
      have hx := hls.subset hxls
      refine ⟨⟨x, hx, hroot⟩, fun hskip => ?_⟩
      exact ((d.isRootOf_iff hls hx ((d.owns x hx).roots hroot)).mp hskip).2 hxls
  rw [sizeAt_eq hn, Node.recordSize, hperm.length_eq, (hperm.map _).sum_eq, hredirect,
    Node.bodySize, hbody]
  rfl

/-- The records of a lot do not depend on what else is kept. -/
theorem sizeAt_of_mem (hxls : x ∈ ls) (hid : id ∈ x.ids) :
    g.sizeAt (isRootOf (g.groupsWithout ls)) placeSize id =
      g.sizeAt (fun _ => false) placeSize id := by
  have hx := hls.subset hxls
  obtain ⟨n, hn⟩ : ∃ n, g.node? id = some n :=
    ⟨_, Array.getElem?_eq_getElem (d.bounds hx hid).2⟩
  have hfilter : n.children.filter (!isRootOf (g.groupsWithout ls) ·) =
      n.children.filter fun _ => !false := by
    refine List.filter_congr fun q hq => ?_
    have hq := d.successors_subset hx hid hn (List.mem_append_left _ hq)
    rw [Bool.not_false, Bool.not_eq_true', Bool.eq_false_iff]
    exact fun h => ((d.isRootOf_iff hls hx hq).mp h).2 hxls
  rw [sizeAt_eq hn, sizeAt_eq hn, Node.recordSize, Node.recordSize, hfilter]

/-- The size of the payload of some of the commands. -/
theorem length_without {e : Encoded} (hnumbering : g.numbering (fun _ => false) = .ok order)
    (he : g.encode (isRootOf (g.groupsWithout ls)) = .ok e) :
    e.bytes.length = frameSize e.placeSize ls + (ls.map (g.shareIn e.placeSize)).sum := by
  have horder : e.order = order.filter (isAmong ls) :=
    Except.ok.inj ((encode_eq_ok.mp he).1.symm.trans (d.numbering_without hls hnumbering))
  have hperm := d.order_perm hls hnumbering
  rw [← horder] at hperm
  have hrecords : ((ls.flatMap Lot.ids).map
      (g.sizeAt (isRootOf (g.groupsWithout ls)) e.placeSize)) =
        (ls.flatMap Lot.ids).map (g.sizeAt (fun _ => false) e.placeSize) := by
    refine List.map_congr_left fun id hid => ?_
    obtain ⟨x, hx, hid⟩ := List.mem_flatMap.mp hid
    exact d.sizeAt_of_mem hls hx hid
  rw [(length_encode he).2, (hperm.map _).sum_eq, hperm.length_eq, List.map_cons, List.sum_cons,
    hrecords, d.sizeAt_root hls, frameSize, sum_map_flatMap, sum_map_flatMap, List.length_cons]
  show _ = _ + (ls.map fun x => _ + _).sum
  rw [List.sum_map_add]
  omega

end Divided

/-! ## Places among some of the commands -/

/-- Whatever is left out of an order, the places of the others only get smaller. -/
theorem exists_idxOf?_of_filter {p : Nat → Bool} {id j : Nat} :
    ∀ {order : List Nat}, (order.filter p).idxOf? id = some j →
      ∃ k, order.idxOf? id = some k ∧ j ≤ k
  | [], h => by simp at h
  | i :: order, h => by
    rw [List.idxOf?_cons]
    cases hp : p i with
    | true =>
      rw [List.filter_cons_of_pos hp, List.idxOf?_cons] at h
      by_cases he : (i == id) = true
      · rw [if_pos he] at h ⊢
        obtain rfl := Option.some.inj h
        exact ⟨0, rfl, Nat.le_refl _⟩
      · rw [if_neg he] at h ⊢
        obtain ⟨j, hj, rfl⟩ := Option.map_eq_some_iff.mp h
        obtain ⟨k, hk, hle⟩ := exists_idxOf?_of_filter hj
        exact ⟨k + 1, by rw [hk]; rfl, Nat.succ_le_succ hle⟩
    | false =>
      rw [List.filter_cons_of_neg (by simp [hp])] at h
      obtain ⟨k, hk, hle⟩ := exists_idxOf?_of_filter h
      have hid : p id = true := List.of_mem_filter (List.isSome_idxOf?.mp (by rw [h]; rfl))
      have hne : ¬(i == id) = true := fun he => by simp [beq_iff_eq.mp he, hid] at hp
      rw [if_neg hne]
      exact ⟨k + 1, by rw [hk]; rfl, Nat.le_succ_of_le hle⟩

theorem idxOf?_le {order : List Nat} (id : Nat) : (order.idxOf? id).getD 0 ≤ order.length := by
  cases h : order.idxOf? id with
  | none => exact Nat.zero_le _
  | some j => exact Nat.le_of_lt (lt_of_placeOf (placeOf_eq_ok.mpr h))

/-- In a shorter numbering, no place takes more bytes. -/
theorem placeSizeIn_filter_le {order : List Nat} (hlen : order.length ≤ Write.maxLength)
    (p : Nat → Bool) (id : Nat) : placeSizeIn (order.filter p) id ≤ placeSizeIn order id := by
  refine lengthSize_mono ?_ (Nat.le_trans (idxOf?_le id) hlen)
  cases h : (order.filter p).idxOf? id with
  | none => exact Nat.zero_le _
  | some j =>
    obtain ⟨k, hk, hle⟩ := exists_idxOf?_of_filter h
    rwa [hk]

theorem placeSizeIn_eq_one {order : List Nat} (hlen : order.length ≤ 127) (id : Nat) :
    placeSizeIn order id = 1 :=
  lengthSize_eq_one (Nat.le_trans (idxOf?_le id) hlen)

section

variable {g : Graph} {placeSize placeSize' : Nat → Nat} (h : ∀ id, placeSize id ≤ placeSize' id)

include h

theorem sizeAt_mono (skip : Nat → Bool) (id : Nat) :
    g.sizeAt skip placeSize id ≤ g.sizeAt skip placeSize' id := by
  cases hn : g.node? id with
  | none => rw [sizeAt_eq_zero hn, sizeAt_eq_zero hn]
  | some n =>
    rw [sizeAt_eq hn, sizeAt_eq hn, Node.recordSize, Node.recordSize]
    have hle : ∀ ids : List Nat, (ids.map placeSize).sum ≤ (ids.map placeSize').sum :=
      fun ids => List.sum_le_sum fun id _ => h id
    have hchildren := hle (n.children.filter (!skip ·))
    have hredirect := hle n.redirect.toList
    omega

theorem shareIn_mono (x : Lot) : g.shareIn placeSize x ≤ g.shareIn placeSize' x :=
  Nat.add_le_add (List.sum_le_sum fun id _ => h id) (List.sum_le_sum fun id _ => sizeAt_mono h _ id)

end

/-! ## Measured sizes -/

theorem length_of_recordSize {g : Graph} {e : Encoded} (he : g.encode (fun _ => false) = .ok e)
    {id size : Nat} (h : e.recordSize id = .ok size) :
    size = g.sizeAt (fun _ => false) e.placeSize id := by
  obtain ⟨place, hplace, h⟩ := Except.bind_eq_ok.mp h
  obtain ⟨hlt, hid, -⟩ := List.idxOf?_eq_some_iff.mp (placeOf_eq_ok.mp hplace)
  have hsizes := congrArg (·[place]?) (length_encode he).1
  simp only [List.getElem?_map, List.getElem?_eq_getElem hlt, hid] at hsizes
  cases hr : e.records[place]? with
  | none => simp [hr] at hsizes
  | some record =>
    simp only [hr] at h
    rw [hr, Option.map_some, Option.map_some] at hsizes
    exact (Except.ok.inj h).symm.trans (Option.some.inj hsizes)

/-- A share is measured by the sizes that places and records have in the payload of all. -/
theorem exists_members_of_shareOf {g : Graph} {e : Encoded}
    (he : g.encode (fun _ => false) = .ok e) {group : Group} {share : Nat}
    (h : g.shareOf e group = .ok share) : ∃ members,
      g.walk (fun _ => false) [] group.roots = .ok members ∧
        share = (group.roots.map e.placeSize).sum +
          (members.map (g.sizeAt (fun _ => false) e.placeSize)).sum := by
  obtain ⟨members, hmembers, h⟩ := Except.bind_eq_ok.mp h
  obtain ⟨sizes, hsizes, h⟩ := Except.bind_eq_ok.mp h
  obtain rfl := Except.ok.inj h
  have hmap : sizes = members.map (g.sizeAt (fun _ => false) e.placeSize) := by
    have := (Except.mapM_eq_ok.mp hsizes).imp fun id size h => length_of_recordSize he h
    have := map_eq_of_forall₂ (g := fun size => size) this
    rwa [List.map_id'] at this
  exact ⟨members, hmembers, by rw [hmap]⟩

namespace Divided

variable {g : Graph} {lots ls : List Lot} (d : g.Divided lots) {e : Encoded}
  (he : g.encode (fun _ => false) = .ok e)

include d he

/-- The share of a command is what its lot adds to the payload of all. -/
theorem shareIn_of_shareOf {x : Lot} {share : Nat} (hx : x ∈ lots)
    (h : g.shareOf e x.group = .ok share) : share = g.shareIn e.placeSize x := by
  obtain ⟨members, hmembers, rfl⟩ := exists_members_of_shareOf he h
  rw [((d.members_perm hx hmembers).map _).sum_eq, shareIn]

/-- The shares of all groups are those of their lots. -/
theorem mapM_shareOf {shares : List Nat} (h : g.groups.mapM (g.shareOf e) = .ok shares) :
    shares = lots.map (g.shareIn e.placeSize) := by
  rw [← d.group, List.mapM_map] at h
  have hshares := (List.forall₂_and_left _ _).mpr ⟨fun x hx => hx, Except.mapM_eq_ok.mp h⟩
  have := map_eq_of_forall₂ (g := fun share => share)
    (hshares.imp fun x share h => d.shareIn_of_shareOf (x := x) he h.1 h.2)
  rwa [List.map_id'] at this

omit d in
theorem exists_body {id : Nat} {n : Node} (hid : id ∈ e.order) (hn : g.node? id = some n) :
    ∃ bs, n.body.encode = .ok bs := by
  obtain ⟨-, records, place, hrecords, -, hbytes, -⟩ := encode_eq_ok.mp he
  obtain ⟨r, hmem, hr⟩ := exists_right_of_forall₂ (Except.mapM_eq_ok.mp hrecords) id hid
  obtain ⟨bs, -, hbs⟩ := exists_right_of_forall₂ (Except.mapM_eq_ok.mp hbytes) r hmem
  obtain ⟨n', hn', hr⟩ := recordOf_eq_ok.mp hr
  obtain rfl := Option.some.inj (hn.symm.trans hn')
  obtain ⟨count, children, redirect, body, -, -, -, hbody, -⟩ := Record.encode_eq_ok.mp hbs
  exact ⟨body, (Node.record_eq_ok.mp hr).2.2.2 ▸ hbody⟩

omit d in
/-- The number of nodes was written. -/
theorem length_order_le : e.order.length ≤ Write.maxLength := by
  obtain ⟨-, records, place, hrecords, -, hbytes, hassemble⟩ := encode_eq_ok.mp he
  obtain ⟨count, hcount, -⟩ := Payload.assemble_eq_ok.mp hassemble
  rw [(Except.mapM_eq_ok.mp hrecords).length_eq, (Except.mapM_eq_ok.mp hbytes).length_eq]
  exact (Write.length_eq_ok.mp hcount).1

variable (hls : ls.Sublist lots)

include hls

/-- If all commands can be written, so can any of them. -/
theorem exists_without : ∃ e', g.encode (isRootOf (g.groupsWithout ls)) = .ok e' ∧
    e'.order = e.order.filter (isAmong ls) := by
  refine exists_encode d.tree.nodup (d.numbering_without hls (encode_eq_ok.mp he).1) ?_ ?_
  · exact Nat.le_trans (List.length_filter_le ..) (length_order_le he)
  · exact fun hid hn => exists_body he (List.mem_of_mem_filter hid) hn

omit hls in
/-- The size of the payload of all commands. -/
theorem length_all : e.bytes.length =
    frameSize e.placeSize lots + (lots.map (g.shareIn e.placeSize)).sum := by
  refine d.length_without (List.Sublist.refl lots) (encode_eq_ok.mp he).1 ?_
  rwa [d.isRootOf_all]

omit he hls in
/-- The size of the payload of no command. -/
theorem length_nil {e' : Encoded} (hnumbering : g.numbering (fun _ => false) = .ok e.order)
    (he' : g.encode (isRootOf (g.groupsWithout [])) = .ok e') : e'.bytes.length = 4 := by
  have hnil := List.nil_sublist lots
  have hperm := d.order_perm hnil hnumbering
  have horder := d.numbering_without hnil hnumbering
  rw [List.flatMap_nil, List.perm_singleton] at hperm
  rw [hperm, (encode_eq_ok.mp he').1] at horder
  rw [d.length_without hnil hnumbering he', frameSize, Encoded.placeSize, Except.ok.inj horder,
    List.map_nil]
  decide

/-- With fewer lots and smaller places, the frame is no larger. -/
theorem frameSize_mono {placeSize placeSize' : Nat → Nat} (h : ∀ id, placeSize id ≤ placeSize' id) :
    frameSize placeSize ls ≤ frameSize placeSize' lots := by
  have hids := (hls.flatMap Lot.ids).length_le
  have hroots := (hls.flatMap fun x => x.group.roots).length_le
  have hsize : g.size ≤ Write.maxLength :=
    d.length_order (encode_eq_ok.mp he).1 ▸ length_order_le he
  have h₁ := lengthSize_mono (Nat.add_le_add_right hids 1) (by rwa [d.length_ids])
  have h₂ := lengthSize_mono hroots (Nat.le_trans d.length_roots_le hsize)
  have h₃ := h root
  unfold frameSize
  omega

omit he in
/-- With up to 127 nodes, the frame does not depend on the lots. -/
theorem frameSize_eq {placeSize : Nat → Nat} (hsize : g.size ≤ 127) :
    frameSize placeSize ls = frameSize placeSize lots := by
  have hids := (hls.flatMap Lot.ids).length_le
  have hroots := (hls.flatMap fun x => x.group.roots).length_le
  have h₁ := d.length_ids
  have h₂ := d.length_roots_le
  unfold frameSize
  rw [lengthSize_eq_one, lengthSize_eq_one, lengthSize_eq_one, lengthSize_eq_one] <;> omega

/-- Measured in the payload of all commands, the size of the payload of some is never too small. -/
theorem length_without_le {e' : Encoded}
    (he' : g.encode (isRootOf (g.groupsWithout ls)) = .ok e') : e'.bytes.length ≤
      frameSize e.placeSize lots + (ls.map (g.shareIn e.placeSize)).sum := by
  obtain ⟨f, hf, horder⟩ := d.exists_without he hls
  obtain rfl := Except.ok.inj (hf.symm.trans he')
  have hplace : ∀ id, f.placeSize id ≤ e.placeSize id := fun id => by
    show placeSizeIn f.order id ≤ _
    rw [horder]
    exact placeSizeIn_filter_le (length_order_le he) _ id
  rw [d.length_without hls (encode_eq_ok.mp he).1 hf]
  exact Nat.add_le_add (d.frameSize_mono he hls hplace)
    (List.sum_le_sum fun x _ => shareIn_mono hplace x)

/-- As long as all places are one byte, it is not too large either. -/
theorem length_without_eq (hsize : g.size ≤ 127) {e' : Encoded}
    (he' : g.encode (isRootOf (g.groupsWithout ls)) = .ok e') : e'.bytes.length =
      frameSize e.placeSize lots + (ls.map (g.shareIn e.placeSize)).sum := by
  obtain ⟨f, hf, horder⟩ := d.exists_without he hls
  obtain rfl := Except.ok.inj (hf.symm.trans he')
  have hlen : e.order.length ≤ 127 := d.length_order (encode_eq_ok.mp he).1 ▸ hsize
  have hplace : f.placeSize = e.placeSize := funext fun id => by
    show placeSizeIn f.order id = placeSizeIn e.order id
    rw [placeSizeIn_eq_one hlen, horder,
      placeSizeIn_eq_one (Nat.le_trans (List.length_filter_le ..) hlen)]
  rw [d.length_without hls (encode_eq_ok.mp he).1 hf, hplace, d.frameSize_eq hls hsize]

end Divided

end Graph

end CommandGrammar
