import CommandGrammar.Proofs.Payload.Share
import CommandGrammar.Proofs.Payload.Total

/-!
# Groups in a payload

In the graph of a registry, every node but the root is reached from the literals of one group and of
no other (`Graph.Apportioned`). So the shares of the groups, measured one by one, are all of a
payload but for a frame of four numbers (`Encoded.MadeOf`), and what is left when groups are left
out is the root and what the other groups reach, numbered in the same order and at no later places
(`Graph.Shrinks`).
-/

namespace CommandGrammar

open Nodes

namespace Graph

/-- Every walk from the literals of a group comes to its end, and each node but the root is met by
one of these walks, and once. -/
structure Apportioned (g : Graph) : Prop where
  walk : ∀ group ∈ g.groups, g.walk (fun _ => false) [] group.roots = .ok (g.members group)
  nodup : ∀ group ∈ g.groups, (g.members group).Nodup
  disjoint : g.groups.Pairwise fun a b => (g.members a).Disjoint (g.members b)
  mem : ∀ id, (∃ group ∈ g.groups, id ∈ g.members group) ↔ id < g.size ∧ id ≠ root

/-- `rest` is what is left of the numbering `all` without the literals of some groups: the root and
what the other groups reach, in the same order, and none of it at a later place. -/
structure Shrinks (g : Graph) (isOut : Group → Bool) (all rest : List Nat) : Prop where
  nodup : all.Nodup
  sublist : rest.Sublist all
  mem : ∀ id, id ∈ rest ↔ id = root ∨ ∃ group ∈ g.groups, isOut group = false ∧
    ∃ l ∈ group.roots, g.Reaches (fun _ => false) l id
  place_le : ∀ {id place : Nat}, placeOf rest id = .ok place →
    ∃ place', placeOf all id = .ok place' ∧ place ≤ place'

end Graph

/-- How many bytes of a payload belong to no group: the number of nodes, the flags of the root, the
number of its children, and its place. -/
def Graph.frameLength (g : Graph) : Nat :=
  lengthSize g.size + lengthSize (g.children Graph.root).length + 2

/-- The payload has a record for every node, and is made of the frame and of the shares of the
groups. So these leave just the frame of it, which is the size that groups are admitted to. -/
structure Encoded.MadeOf (e : Encoded) (g : Graph) (shares : List Nat) : Prop where
  count : e.order.length = g.size
  measured : g.groups.mapM (g.shareOf e) = .ok shares
  length : e.bytes.length = g.frameLength + shares.sum
  shares_le : shares.sum ≤ e.bytes.length
  verdicts : ∀ limit,
    g.verdicts limit e = .ok (admitGroups limit g.frameLength (g.groups.zip shares))

namespace Graph

variable {g : Graph}

theorem placeSize_root {skip : Nat → Bool} {e : Encoded} (he : g.encode skip = .ok e) :
    e.placeSize root = 1 := by
  have numbers := numbers_of_numbering (encode_eq_ok.mp he).1
  have hplace : placeOf e.order root = .ok 0 :=
    (numbers.place root 0).mpr (List.head?_eq_getElem? ▸ numbers.head)
  rw [Encoded.placeSize, placeOf_eq_ok.mp hplace]
  exact lengthSize_eq_one (Nat.zero_le _)

namespace Divided

variable {lots : List Lot} (d : g.Divided lots) (f : g.Formed) {x : Lot} {id : Nat}

include d f

/-- What the group of a lot leads to is the lot. -/
theorem mem_members_iff (hx : x ∈ lots) : id ∈ g.members x.group ↔ id ∈ x.ids :=
  (d.members_perm hx (f.walk_members (d.mem_groups hx))).mem_iff

/-- The members of all groups are all ids but the root's. -/
theorem flatMap_members_perm :
    (g.groups.flatMap g.members).Perm (List.range' 1 (g.size - 1)) := by
  rw [← d.group, List.flatMap_map, ← d.ids]
  exact List.Perm.flatMap_left _ fun x hx =>
    d.members_perm hx (f.walk_members (d.mem_groups hx))

theorem nodup_flatMap_members : (g.groups.flatMap g.members).Nodup :=
  (d.flatMap_members_perm f).nodup_iff.mpr List.nodup_range'

/-- The walks from the groups divide all nodes but the root among them. -/
theorem apportioned : g.Apportioned where
  walk group hgroup := f.walk_members hgroup
  nodup := (List.nodup_flatMap.mp (d.nodup_flatMap_members f)).1
  disjoint := (List.nodup_flatMap.mp (d.nodup_flatMap_members f)).2
  mem id := by
    rw [← List.mem_flatMap, (d.flatMap_members_perm f).mem_iff, mem_range'_sub, and_comm,
      Nat.succ_le_iff, Nat.pos_iff_ne_zero]
    rfl

omit f in
/-- What the lots leave of the payload is its frame. -/
theorem frameSize_eq_frameLength {e : Encoded} (he : g.encode (fun _ => false) = .ok e) :
    frameSize e.placeSize lots = g.frameLength := by
  rw [frameSize, d.length_ids, ← d.children_root, placeSize_root he, frameLength]
  omega

/-- The share of every group can be measured, and they leave the frame of the payload. -/
theorem exists_madeOf {e : Encoded} (he : g.encode (fun _ => false) = .ok e) :
    ∃ shares, e.MadeOf g shares := by
  obtain ⟨shares, hshares⟩ := Except.exists_mapM_eq_ok fun group hgroup =>
    f.exists_shareOf he hgroup
  have hlength : e.bytes.length = g.frameLength + shares.sum := by
    rw [d.length_all he, d.mapM_shareOf he hshares, d.frameSize_eq_frameLength he]
  refine ⟨shares, d.length_order (encode_eq_ok.mp he).1, hshares, hlength,
    hlength ▸ Nat.le_add_left .., fun limit => Except.bind_eq_ok.mpr ⟨shares, hshares, ?_⟩⟩
  rw [hlength, Nat.add_sub_cancel]
  rfl

omit f in
theorem groupsWithout_eq (isOut : Group → Bool) :
    g.groupsWithout (lots.filter fun x => !isOut x.group) = g.groups.filter isOut := by
  refine List.filter_congr fun group hgroup => ?_
  rw [← d.group] at hgroup
  obtain ⟨x, hx, rfl⟩ := List.mem_map.mp hgroup
  have hls : (lots.filter fun x => !isOut x.group).Sublist lots := List.filter_sublist
  have hout := d.mem_groupsWithout hls hx
  rw [groupsWithout, List.mem_filter, and_iff_right (d.mem_groups hx), List.mem_filter,
    and_iff_right hx, Bool.not_eq_true, Bool.not_eq_false'] at hout
  exact Bool.eq_iff_iff.mpr hout

/-- Without the literals of some groups, the other lots are numbered as they are among all. -/
theorem shrinks (isOut : Group → Bool) {all : List Nat}
    (h : g.numbering (fun _ => false) = .ok all) : ∃ rest,
      g.numbering (isRootOf (g.groups.filter isOut)) = .ok rest ∧ g.Shrinks isOut all rest := by
  have hls : (lots.filter fun x => !isOut x.group).Sublist lots := List.filter_sublist
  have hrest := d.numbering_without hls h
  rw [d.groupsWithout_eq] at hrest
  refine ⟨_, hrest, nodup_of_walk h, List.filter_sublist, fun id => ?_, fun hplace => ?_⟩
  · rw [(d.order_perm hls h).mem_iff, List.mem_cons, List.mem_flatMap]
    refine or_congr_right ⟨?_, ?_⟩
    · rintro ⟨x, hx, hid⟩
      obtain ⟨hx, hkept⟩ := List.mem_filter.mp hx
      refine ⟨x.group, d.mem_groups hx, (Bool.not_eq_true' _).mp hkept, ?_⟩
      exact (mem_walk_iff (f.walk_members (d.mem_groups hx))).mp ((d.mem_members_iff f hx).mpr hid)
    · rintro ⟨group, hgroup, hkept, hreach⟩
      have hid := (mem_walk_iff (f.walk_members hgroup)).mpr hreach
      rw [← d.group] at hgroup
      obtain ⟨x, hx, rfl⟩ := List.mem_map.mp hgroup
      exact ⟨x, List.mem_filter.mpr ⟨hx, by rw [hkept]; rfl⟩, (d.mem_members_iff f hx).mp hid⟩
  · obtain ⟨place', hplace', hle⟩ := exists_idxOf?_of_filter (placeOf_eq_ok.mp hplace)
    exact ⟨place', placeOf_eq_ok.mpr hplace', hle⟩

end Divided

end Graph

namespace Registry

theorem Sound.formed {r : Registry} (h : r.Sound) : r.current.Formed :=
  (Graph.builtFrom_of_ofCommands h.built).formed

/-- Groups have all nodes but the root among them, and no two have one in common. The payload of all
is made of their shares and a frame. -/
theorem Reachable.shares_apportioned {r : Registry} (h : r.Reachable) :
    r.current.Apportioned ∧ ∀ full, r.current.encode (fun _ => false) = .ok full →
      ∃ shares, full.MadeOf r.current shares := by
  obtain ⟨lots, d⟩ := h.declares.exists_lots
  have f := h.sound.formed
  exact ⟨d.apportioned f, fun full hfull => d.exists_madeOf f hfull⟩

/-- Each command has two literals. The frame has four bytes. -/
theorem sample_shares_say : sample.Reachable ∧ sample.current.Apportioned ∧
    ∃ full, sample.current.encode (fun _ => false) = .ok full ∧ full.bytes.length = 89 ∧
      full.MadeOf sample.current [71, 14] := by
  have facts : (sample.current.encode fun _ => false).toOption.map (fun full =>
      (full.bytes.length, (sample.current.groups.mapM (sample.current.shareOf full)).toOption)) =
        some (89, some [71, 14]) := by
    decide +kernel
  obtain ⟨full, hfull, facts⟩ := Except.exists_of_map_toOption facts
  obtain ⟨hlength, hshares⟩ := Prod.mk.inj facts
  obtain ⟨apportioned, hmade⟩ := reachable_sample.shares_apportioned
  obtain ⟨shares, made⟩ := hmade full hfull
  rw [made.measured, Except.toOption, Option.some.injEq] at hshares
  exact ⟨reachable_sample, apportioned, full, hfull, hlength, hshares ▸ made⟩

/-- Leaving out groups, whichever they are, moves no other node to a later place. -/
theorem Reachable.places_shrink {r : Registry} (h : r.Reachable) (isOut : Group → Bool) :
    ∃ all rest, r.current.numbering (fun _ => false) = .ok all ∧
      r.current.numbering (Graph.isRootOf (r.current.groups.filter isOut)) = .ok rest ∧
      r.current.Shrinks isOut all rest := by
  obtain ⟨lots, d⟩ := h.declares.exists_lots
  have f := h.sound.formed
  obtain ⟨all, hall⟩ := f.inBounds.exists_numbering fun _ => false
  obtain ⟨rest, hrest, shrinks⟩ := d.shrinks f isOut hall
  exact ⟨all, rest, hall, hrest, shrinks⟩

/-- Without the first command, the literals of the second move up. -/
theorem sample_places_heal : sample.Reachable ∧
    sample.current.numbering (fun _ => false) = .ok [0, 1, 5, 6, 7, 2, 3, 4] ∧
    sample.current.numbering (Graph.isRootOf (sample.current.groups.filter (·.command == "say"))) =
      .ok [0, 6, 7] ∧
    sample.current.Shrinks (·.command == "say") [0, 1, 5, 6, 7, 2, 3, 4] [0, 6, 7] := by
  have hall : (sample.current.numbering fun _ => false).toOption.map id =
      some [0, 1, 5, 6, 7, 2, 3, 4] := by
    decide +kernel
  have hrest : (sample.current.numbering
      (Graph.isRootOf (sample.current.groups.filter (·.command == "say")))).toOption.map id =
        some [0, 6, 7] := by
    decide +kernel
  obtain ⟨all, hall, rfl⟩ := Except.exists_of_map_toOption hall
  obtain ⟨rest, hrest, rfl⟩ := Except.exists_of_map_toOption hrest
  obtain ⟨all', rest', hall', hrest', shrinks⟩ :=
    reachable_sample.places_shrink (·.command == "say")
  obtain rfl := Except.ok.inj (hall.symm.trans hall')
  obtain rfl := Except.ok.inj (hrest.symm.trans hrest')
  exact ⟨reachable_sample, hall, hrest, shrinks⟩

end Registry

end CommandGrammar
