import CommandGrammar.Proofs.Graph.Lots
import CommandGrammar.Proofs.Payload.Kept

/-!
# Numbering some of the commands

A walk from the root meets every id of a declared graph (`Graph.Divided.mem_order`), and one from
the literals of a command its lot (`Graph.Divided.members_perm`). If the literals of all other
commands are skipped, what is left are the root and the lots of the commands, in the order which
they have among all (`Graph.Divided.numbering_without`, `Graph.Divided.order_perm`).
-/

namespace CommandGrammar

open Nodes

/-- Filtering by membership in a part gives the part. -/
theorem filter_eq_of_sublist {α : Type} {p : α → Bool} {ls as : List α} (h : ls.Sublist as)
    (hnd : as.Nodup) (hp : ∀ a ∈ as, p a = true ↔ a ∈ ls) : as.filter p = ls := by
  induction h with
  | slnil => rfl
  | @cons ls as a hs ih =>
    obtain ⟨ha, hnd⟩ := List.nodup_cons.mp hnd
    obtain ⟨hpa, hp⟩ := List.forall_mem_cons.mp hp
    rw [List.filter_cons_of_neg fun h => ha (hs.subset (hpa.mp h))]
    exact ih hnd hp
  | @cons_cons ls as a hs ih =>
    obtain ⟨ha, hnd⟩ := List.nodup_cons.mp hnd
    obtain ⟨hpa, hp⟩ := List.forall_mem_cons.mp hp
    rw [List.filter_cons_of_pos (hpa.mpr List.mem_cons_self)]
    refine congrArg (a :: ·) (ih hnd fun b hb => (hp b hb).trans ?_)
    have hne : b ≠ a := fun he => ha (he ▸ hb)
    rw [List.mem_cons, or_iff_right hne]

namespace Graph

/-! ## What is met -/

/-- A walk meets every id that it is led to by older ones. -/
theorem subset_of_led {g : Graph} {queue ids order : List Nat}
    (h : g.walk (fun _ => false) [] queue = .ok order)
    (hled : ∀ id ∈ ids, id ∈ queue ∨ ∃ p ∈ ids, p < id ∧ id ∈ g.children p) : ids ⊆ order := by
  intro id
  induction id using Nat.strongRecOn with
  | ind id ih =>
    intro hid
    rcases hled id hid with hq | ⟨p, hp, hlt, hchild⟩
    · exact (walk_spec h).of_queue id hq
    · obtain ⟨n, hn, hsucc⟩ := node_of_mem_walk h (ih p hlt hp)
      refine hsucc id (List.mem_append_left _ ?_)
      simpa [children, hn] using hchild

/-- If nothing is skipped, every node of a tree is numbered. -/
theorem order_perm_of_isTree {g : Graph} {order : List Nat} (t : IsTree g.nodes)
    (h : g.numbering (fun _ => false) = .ok order) : order.Perm (List.range g.size) := by
  refine (List.perm_ext_iff_of_nodup (nodup_of_walk h) List.nodup_range).mpr fun id =>
    ⟨fun hid => List.mem_range.mpr (lt_size_of_mem_walk h hid),
      fun hid => subset_of_led h (fun i hi => ?_) hid⟩
  rcases Nat.eq_zero_or_pos i with rfl | hpos
  · exact .inl List.mem_cons_self
  · obtain ⟨p, hp⟩ := t.parent hpos (List.mem_range.mp hi)
    obtain ⟨hpi, hlt⟩ := t.down hp
    exact .inr ⟨p, List.mem_range.mpr (Nat.lt_trans hpi hlt), hpi, hp⟩

namespace Divided

variable {g : Graph} {lots : List Lot} (d : g.Divided lots) {x : Lot} {id : Nat} {order : List Nat}

include d

/-- From the ids of a lot, no other lot is come to. -/
theorem successors_subset {n : Node} (hx : x ∈ lots) (hid : id ∈ x.ids) (hn : g.node? id = some n) :
    n.successors ⊆ x.ids := by
  intro q hq
  rcases List.mem_append.mp hq with hq | hq
  · exact (d.owns x hx).children hid (childrenOf_eq hn ▸ hq)
  · exact (d.owns x hx).redirect hid ((redirectOf_eq hn).trans (Option.mem_toList.mp hq))

/-- The root refers to literals only, and any other node to its own lot. -/
theorem root_or_mem {n : Node} (hn : g.node? id = some n) :
    (id = root ∧ n.redirect = none ∧ ∀ q ∈ n.children, ∃ x ∈ lots, q ∈ x.group.roots) ∨
      ∃ x ∈ lots, id ∈ x.ids ∧ n.successors ⊆ x.ids := by
  rcases Nat.eq_zero_or_pos id with rfl | hpos
  · refine .inl ⟨rfl, (d.root_node hn).2.2, fun q hq => d.mem_children.mp ?_⟩
    show q ∈ childrenOf g.nodes 0
    rwa [childrenOf_eq hn]
  · obtain ⟨x, hx, hid⟩ := d.exists_mem hpos (Array.getElem?_eq_some_iff.mp hn).1
    exact .inr ⟨x, hx, hid, d.successors_subset hx hid hn⟩

theorem mem_order (h : g.numbering (fun _ => false) = .ok order) : id ∈ order ↔ id < g.size :=
  (order_perm_of_isTree d.tree h).mem_iff.trans List.mem_range

theorem length_order (h : g.numbering (fun _ => false) = .ok order) : order.length = g.size :=
  (order_perm_of_isTree d.tree h).length_eq.trans List.length_range

/-- What is counted of a command is its lot. -/
theorem members_perm (hx : x ∈ lots) {members : List Nat}
    (h : g.walk (fun _ => false) [] x.group.roots = .ok members) : members.Perm x.ids := by
  have hnd : x.ids.Nodup := (List.nodup_flatMap.mp d.nodup_ids).1 x hx
  refine (List.perm_ext_iff_of_nodup (nodup_of_walk h) hnd).mpr fun id =>
    ⟨fun hid => ?_, fun hid => subset_of_led h (fun i hi => d.led hx hi) hid⟩
  refine walk_forall (fun hn hid q hq => ?_) h (by simp) (fun i hi => (d.owns x hx).roots hi) id hid
  exact d.successors_subset hx hid hn (Node.successorsExcept_subset _ _ hq)

end Divided

/-! ## Leaving the others out -/

/-- The groups of all other commands. -/
def groupsWithout (g : Graph) (ls : List Lot) : List Group :=
  g.groups.filter fun group => !(ls.map Lot.group).contains group

/-- The root, and the ids of these lots. -/
def isAmong (ls : List Lot) (id : Nat) : Bool :=
  id == root || ls.any (·.ids.contains id)

namespace Divided

variable {g : Graph} {lots ls : List Lot} (d : g.Divided lots) (hls : ls.Sublist lots) {x : Lot}
  {id : Nat} {order : List Nat}

include d

/-- Without any other command, nothing is skipped. -/
theorem isRootOf_all : isRootOf (g.groupsWithout lots) = fun _ => false := by
  have hnil : g.groupsWithout lots = [] := by
    refine List.filter_eq_nil_iff.mpr fun group hgroup => ?_
    rw [← d.group] at hgroup
    simpa using hgroup
  rw [hnil]
  rfl

include hls

/-- A group is left out if its lot is not among those kept. -/
theorem mem_groupsWithout (hx : x ∈ lots) : x.group ∈ g.groupsWithout ls ↔ x ∉ ls := by
  have hmem : x.group ∈ ls.map Lot.group ↔ x ∈ ls := by
    refine ⟨fun h => ?_, List.mem_map_of_mem⟩
    obtain ⟨y, hy, he⟩ := List.mem_map.mp h
    have hname : y.command.name = x.command.name := by
      rw [← d.group_command (hls.subset hy), he, d.group_command hx]
    exact d.eq_of_name (hls.subset hy) hx hname ▸ hy
  rw [groupsWithout, List.mem_filter, and_iff_right (d.mem_groups hx), Bool.not_eq_true',
    Bool.eq_false_iff, Ne, List.contains_iff_mem, hmem]

theorem exists_of_mem_groupsWithout {group : Group} (h : group ∈ g.groupsWithout ls) :
    ∃ y ∈ lots, y ∉ ls ∧ y.group = group := by
  have hmem := List.mem_of_mem_filter h
  rw [← d.group] at hmem
  obtain ⟨y, hy, rfl⟩ := List.mem_map.mp hmem
  exact ⟨y, hy, (d.mem_groupsWithout hls hy).mp h, rfl⟩

/-- A command is kept if its lot is. -/
theorem isWithout_iff (hx : x ∈ lots) :
    isWithout (g.groupsWithout ls) x.command = true ↔ x ∈ ls := by
  rw [isWithout, Bool.not_eq_true', Bool.eq_false_iff, Ne, List.contains_iff_mem, List.mem_map,
    not_iff_comm]
  constructor
  · exact fun h => ⟨x.group, (d.mem_groupsWithout hls hx).mpr h, d.group_command hx⟩
  · rintro ⟨group, hgroup, hname⟩
    obtain ⟨y, hy, hyls, rfl⟩ := d.exists_of_mem_groupsWithout hls hgroup
    obtain rfl := d.eq_of_name hy hx ((d.group_command hy).symm.trans hname)
    exact hyls

theorem filter_isWithout :
    g.commands.filter (isWithout (g.groupsWithout ls)) = ls.map Lot.command := by
  rw [← d.command, List.filter_map]
  exact congrArg _ (filter_eq_of_sublist hls d.nodup fun x hx => d.isWithout_iff hls hx)

theorem isRootOf_iff (hx : x ∈ lots) (hid : id ∈ x.ids) :
    isRootOf (g.groupsWithout ls) id = true ↔ id ∈ x.group.roots ∧ x ∉ ls := by
  rw [isRootOf, List.any_eq_true]
  constructor
  · rintro ⟨group, hgroup, hmem⟩
    obtain ⟨y, hy, hyls, rfl⟩ := d.exists_of_mem_groupsWithout hls hgroup
    have hroot := List.contains_iff_mem.mp hmem
    obtain rfl := d.eq_of_mem hx hy hid ((d.owns y hy).roots hroot)
    exact ⟨hroot, hyls⟩
  · rintro ⟨hroot, hxls⟩
    exact ⟨x.group, (d.mem_groupsWithout hls hx).mpr hxls, List.contains_iff_mem.mpr hroot⟩

/-- An id of a lot is kept if the lot is. -/
theorem isAmong_iff (hx : x ∈ lots) (hid : id ∈ x.ids) : isAmong ls id = true ↔ x ∈ ls := by
  have hne : id ≠ root := Nat.ne_of_gt (d.bounds hx hid).1
  rw [isAmong, Bool.or_eq_true, List.any_eq_true, beq_iff_eq, or_iff_right hne]
  constructor
  · rintro ⟨y, hy, hmem⟩
    exact d.eq_of_mem (hls.subset hy) hx (List.contains_iff_mem.mp hmem) hid ▸ hy
  · exact fun h => ⟨x, h, List.contains_iff_mem.mpr hid⟩

/-- Skipping the literals of other lots leaves the successors that are kept. -/
theorem successorsExcept_of_isAmong {n : Node} (hn : g.node? id = some n)
    (hid : isAmong ls id = true) : n.successorsExcept (isRootOf (g.groupsWithout ls)) =
      (n.successorsExcept fun _ => false).filter (isAmong ls) := by
  have key : (∀ q ∈ n.children, (!isRootOf (g.groupsWithout ls) q) = isAmong ls q) ∧
      ∀ q ∈ n.redirect.toList, isAmong ls q = true := by
    rcases d.root_or_mem hn with ⟨rfl, hredirect, hchildren⟩ | ⟨x, hx, hmem, hsub⟩
    · refine ⟨fun q hq => ?_, by simp [hredirect]⟩
      obtain ⟨x, hx, hroot⟩ := hchildren q hq
      have hq := (d.owns x hx).roots hroot
      rw [Bool.eq_iff_iff, Bool.not_eq_true', Bool.eq_false_iff, Ne, d.isRootOf_iff hls hx hq,
        d.isAmong_iff hls hx hq]
      tauto
    · have hxls := (d.isAmong_iff hls hx hmem).mp hid
      have among : ∀ q ∈ n.successors, isAmong ls q = true := fun q hq =>
        (d.isAmong_iff hls hx (hsub hq)).mpr hxls
      refine ⟨fun q hq => ?_, fun q hq => among q (List.mem_append_right _ hq)⟩
      have hq := List.mem_append_left n.redirect.toList hq
      have : ¬isRootOf (g.groupsWithout ls) q = true := fun h =>
        ((d.isRootOf_iff hls hx (hsub hq)).mp h).2 hxls
      rw [among q hq, Bool.not_eq_true', Bool.eq_false_iff]
      exact this
  simp only [Node.successorsExcept, Bool.not_false, List.filter_true, List.filter_append]
  rw [List.filter_congr key.1, List.filter_eq_self.mpr key.2]

/-- Without the literals of the others, these lots are numbered in the order in which they are
numbered among all. -/
theorem numbering_without (h : g.numbering (fun _ => false) = .ok order) :
    g.numbering (isRootOf (g.groupsWithout ls)) = .ok (order.filter (isAmong ls)) := by
  refine walk_filter (fun hn hid => d.successorsExcept_of_isAmong hls hn hid) ?_ h
  intro id n hn hid q hq
  rcases d.root_or_mem hn with ⟨rfl, -, -⟩ | ⟨x, hx, hmem, hsub⟩
  · simp [isAmong] at hid
  · have hq := hsub (n.successorsExcept_subset _ hq)
    rw [Bool.eq_false_iff] at hid ⊢
    exact fun h => hid ((d.isAmong_iff hls hx hmem).mpr ((d.isAmong_iff hls hx hq).mp h))

theorem order_perm (h : g.numbering (fun _ => false) = .ok order) :
    (order.filter (isAmong ls)).Perm (root :: ls.flatMap Lot.ids) := by
  have hsub := hls.flatMap Lot.ids
  have hnd : (root :: ls.flatMap Lot.ids).Nodup := by
    refine List.nodup_cons.mpr ⟨fun h => ?_, d.nodup_ids.sublist hsub⟩
    exact Nat.lt_irrefl 0 (d.mem_ids.mp (hsub.subset h)).1
  have hnd' : (order.filter (isAmong ls)).Nodup :=
    List.Pairwise.filter _ (nodup_of_walk h)
  refine (List.perm_ext_iff_of_nodup hnd' hnd).mpr fun id => ?_
  rw [List.mem_filter, d.mem_order h, isAmong, Bool.or_eq_true, beq_iff_eq, List.any_eq_true,
    List.mem_cons, List.mem_flatMap]
  simp only [List.contains_iff_mem]
  refine ⟨And.right, fun hid => ⟨?_, hid⟩⟩
  rcases hid with rfl | ⟨x, hx, hid⟩
  · exact d.tree.nonempty
  · exact (d.bounds (hls.subset hx) hid).2

end Divided

end Graph

end CommandGrammar
