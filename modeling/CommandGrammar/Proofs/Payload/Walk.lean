import CommandGrammar.Payload.Serialize
import CommandGrammar.Proofs.Steps
import Mathlib.Data.List.Nodup

/-!
# Walks

A walk meets what is in the queue and all that this leads to (`Graph.walk_spec`), and nothing else:
what holds of the queue and is handed on to successors holds of all that is met
(`Graph.walk_forall`).

Two walks are compared step by step. Under a renaming of ids, the walk through the larger graph is
the renamed walk through the smaller one (`Graph.Part.walk_map`). If what is skipped leads only to
nodes of its own, the walk without it is the walk with it, less those nodes (`Graph.walk_filter`).
-/

namespace CommandGrammar

theorem Node.successorsExcept_subset (n : Node) (skip : Nat → Bool) :
    n.successorsExcept skip ⊆ n.successors :=
  List.append_subset.mpr ⟨List.subset_append_of_subset_left _ List.filter_sublist.subset,
    List.subset_append_right _ _⟩

namespace Graph

variable {g k : Graph} {skip : Nat → Bool} {met queue : List Nat} {id : Nat} {n : Node}

/-! ## One step -/

@[simp] theorem walk_nil : g.walk skip met [] = .ok met := by
  rw [walk]

theorem walk_of_mem (h : id ∈ met) : g.walk skip met (id :: queue) = g.walk skip met queue := by
  rw [walk, if_pos h]

/-- An id that is new is met, and its successors are put at the end of the queue. -/
theorem walk_of_notMem (h : id ∉ met) (hlen : met.length ≤ maxNodes) (hn : g.node? id = some n) :
    g.walk skip met (id :: queue) =
      g.walk skip (met ++ [id]) (queue ++ n.successorsExcept skip) := by
  rw [walk, if_neg h, if_neg (Nat.not_lt_of_le hlen)]
  split
  · next hn' => simp [hn] at hn'
  · next hn' =>
    obtain rfl := Option.some.inj (hn.symm.trans hn')
    rfl

/-- A walk looks at nothing but nodes. -/
theorem walk_congr (h : g.nodes = k.nodes) : g.walk skip met queue = k.walk skip met queue := by
  have hnode : ∀ id, g.node? id = k.node? id := fun id => by rw [node?, h, ← node?]
  fun_induction walk g skip met queue with
  | case1 met => simp
  | case2 met id queue hmem ih => rw [walk_of_mem hmem, ih]
  | case3 met id queue hmem hlen => rw [walk, if_neg hmem, if_pos hlen]
  | case4 met id queue hmem hlen hn =>
    rw [walk, if_neg hmem, if_neg hlen]
    split
    · rfl
    · next hn' => simp [← hnode, hn] at hn'
  | case5 met id queue hmem hlen n hn ih =>
    rw [walk_of_notMem hmem (Nat.le_of_not_lt hlen) ((hnode id).symm.trans hn), ih]

/-! ## What is met -/

/-- All that is met, no id twice: what was met before, the queue, and the successors of all that
was not met before. -/
structure Walked (g : Graph) (skip : Nat → Bool) (met queue order : List Nat) : Prop where
  of_met : ∀ id ∈ met, id ∈ order
  of_queue : ∀ id ∈ queue, id ∈ order
  nodup : met.Nodup → order.Nodup
  closed : ∀ id ∈ order, id ∈ met ∨
    ∃ n, g.node? id = some n ∧ ∀ q ∈ n.successorsExcept skip, q ∈ order

/-- A walk that comes to its end has met all there is to meet, once. -/
theorem walk_spec {order : List Nat} (h : g.walk skip met queue = .ok order) :
    Walked g skip met queue order := by
  fun_induction walk g skip met queue with
  | case1 met =>
    obtain rfl := Except.ok.inj h
    exact ⟨fun _ h => h, by simp, fun h => h, fun _ h => .inl h⟩
  | case2 met id queue hmem ih =>
    have w := ih h
    exact ⟨w.of_met, List.forall_mem_cons.mpr ⟨w.of_met id hmem, w.of_queue⟩, w.nodup, w.closed⟩
  | case3 => simp at h
  | case4 => simp at h
  | case5 met id queue hmem hlen n hn ih =>
    have w := ih h
    have hid : id ∈ order := w.of_met id (by simp)
    refine ⟨fun i hi => w.of_met i (by simp [hi]), ?_, fun hnd => w.nodup ?_, fun i hi => ?_⟩
    · exact List.forall_mem_cons.mpr ⟨hid, fun i hi => w.of_queue i (by simp [hi])⟩
    · rw [← List.concat_eq_append]
      exact List.Nodup.concat hmem hnd
    · rcases w.closed i hi with hi | h
      · rcases List.mem_append.mp hi with hi | hi
        · exact .inl hi
        · obtain rfl := List.mem_singleton.mp hi
          exact .inr ⟨n, hn, fun q hq => w.of_queue q (by simp [hq])⟩
      · exact .inr h

section

variable {order : List Nat} (h : g.walk skip [] queue = .ok order)

include h

theorem nodup_of_walk : order.Nodup :=
  (walk_spec h).nodup List.nodup_nil

/-- Whatever is met has a node, the successors of which are met, too. -/
theorem node_of_mem_walk (hid : id ∈ order) :
    ∃ n, g.node? id = some n ∧ ∀ q ∈ n.successorsExcept skip, q ∈ order :=
  ((walk_spec h).closed id hid).resolve_left List.not_mem_nil

theorem lt_size_of_mem_walk (hid : id ∈ order) : id < g.size := by
  obtain ⟨n, hn, -⟩ := node_of_mem_walk h hid
  exact (Array.getElem?_eq_some_iff.mp hn).1

end

theorem root_mem_numbering {order : List Nat} (h : g.numbering skip = .ok order) : root ∈ order :=
  (walk_spec h).of_queue root List.mem_cons_self

/-- What successors inherit holds of all that a walk meets. -/
theorem walk_forall {holds : Nat → Prop}
    (hnext : ∀ {id n}, g.node? id = some n → holds id → ∀ q ∈ n.successorsExcept skip, holds q)
    {order : List Nat} (h : g.walk skip met queue = .ok order)
    (hmet : ∀ id ∈ met, holds id) (hqueue : ∀ id ∈ queue, holds id) : ∀ id ∈ order, holds id := by
  fun_induction walk g skip met queue with
  | case1 met =>
    obtain rfl := Except.ok.inj h
    exact hmet
  | case2 met id queue hmem ih => exact ih h hmet (List.forall_mem_cons.mp hqueue).2
  | case3 => simp at h
  | case4 => simp at h
  | case5 met id queue hmem hlen n hn ih =>
    obtain ⟨hid, hqueue⟩ := List.forall_mem_cons.mp hqueue
    refine ih h ?_ ?_
    · exact List.forall_mem_append.mpr ⟨hmet, List.forall_mem_singleton.mpr hid⟩
    · exact List.forall_mem_append.mpr ⟨hqueue, hnext hn hid⟩

/-- What was met before comes first. -/
theorem isPrefix_walk {order : List Nat} (h : g.walk skip met queue = .ok order) :
    met <+: order := by
  fun_induction walk g skip met queue with
  | case1 met => exact Except.ok.inj h ▸ List.prefix_rfl
  | case2 met id queue hmem ih => exact ih h
  | case3 => cases h
  | case4 => cases h
  | case5 met id queue hmem hlen n hn ih => exact (List.prefix_append met [id]).trans (ih h)

/-! ## Two walks -/

/-- `k` is `g` under other ids, but for the children that are skipped. -/
structure Part (φ : Nat → Nat) (skip : Nat → Bool) (k g : Graph) : Prop where
  zero : φ root = root
  root_lt : root < k.size
  injective : ∀ {i j : Nat}, i < k.size → j < k.size → φ i = φ j → i = j
  closed : ∀ {i : Nat} {n : Node}, k.node? i = some n → ∀ q ∈ n.successors, q < k.size
  node : ∀ {i : Nat} {n : Node}, k.node? i = some n → ∃ m, g.node? (φ i) = some m ∧
    m.body = n.body ∧ m.executable = n.executable ∧
    m.children.filter (!skip ·) = n.children.map φ ∧ m.redirect = n.redirect.map φ

namespace Part

variable {φ : Nat → Nat} (h : Part φ skip k g)

include h

theorem mem_map_iff {ids : List Nat} (hids : ∀ i ∈ ids, i < k.size) (hid : id < k.size) :
    φ id ∈ ids.map φ ↔ id ∈ ids := by
  refine ⟨fun hmem => ?_, List.mem_map_of_mem⟩
  obtain ⟨i, hi, he⟩ := List.mem_map.mp hmem
  exact h.injective (hids i hi) hid he ▸ hi

/-- A walk of the part, renamed, is the walk of the whole from the same queue. -/
theorem walk_map (hmet : ∀ i ∈ met, i < k.size) (hqueue : ∀ i ∈ queue, i < k.size) :
    g.walk skip (met.map φ) (queue.map φ) =
      (k.walk (fun _ => false) met queue).map (List.map φ) := by
  fun_induction walk k (fun _ => false) met queue with
  | case1 met => simp [Except.map]
  | case2 met id queue hmem ih =>
    rw [List.map_cons, walk_of_mem (List.mem_map_of_mem hmem)]
    exact ih hmet (List.forall_mem_cons.mp hqueue).2
  | case3 met id queue hmem hlen =>
    have hid := (List.forall_mem_cons.mp hqueue).1
    rw [List.map_cons, walk, if_neg (by rwa [h.mem_map_iff hmet hid]),
      if_pos (by rwa [List.length_map]), Except.map]
  | case4 met id queue hmem hlen hn =>
    have hid := (List.forall_mem_cons.mp hqueue).1
    rw [node?, Array.getElem?_eq_none_iff] at hn
    exact absurd hid (Nat.not_lt_of_le hn)
  | case5 met id queue hmem hlen n hn ih =>
    obtain ⟨hid, hqueue⟩ := List.forall_mem_cons.mp hqueue
    obtain ⟨m, hm, -, -, hchildren, hredirect⟩ := h.node hn
    have hsucc : m.successorsExcept skip = (n.successorsExcept fun _ => false).map φ := by
      rw [Node.successorsExcept, hchildren, hredirect, Node.successorsExcept]
      cases n.redirect <;> simp
    rw [List.map_cons, walk_of_notMem (by rwa [h.mem_map_iff hmet hid])
      (by rw [List.length_map]; omega) hm, hsucc]
    have := ih ?_ ?_
    · rwa [List.map_append, List.map_append] at this
    · exact fun i hi => (List.mem_append.mp hi).elim (hmet i) fun hi =>
        List.mem_singleton.mp hi ▸ hid
    · exact fun i hi => (List.mem_append.mp hi).elim (hqueue i) fun hi =>
        h.closed hn i (n.successorsExcept_subset _ hi)

/-- The part is numbered in the same order as it is within the whole. -/
theorem numbering_map :
    g.numbering skip = (k.numbering fun _ => false).map (List.map φ) := by
  have hroot : ∀ i ∈ [root], i < k.size := by simpa using h.root_lt
  have := h.walk_map (List.forall_mem_nil _) hroot
  rwa [List.map_nil, List.map_singleton, h.zero] at this

end Part

/-- If kept ids lead to kept ids only once something is skipped, and the others lead only to others,
then the walk that skips meets the kept ids in the order of the walk that does not. -/
theorem walk_filter {keep : Nat → Bool}
    (hkeep : ∀ {id n}, g.node? id = some n → keep id = true →
      n.successorsExcept skip = (n.successorsExcept fun _ => false).filter keep)
    (hdrop : ∀ {id n}, g.node? id = some n → keep id = false →
      ∀ q ∈ n.successorsExcept fun _ => false, keep q = false)
    {order : List Nat} (h : g.walk (fun _ => false) met queue = .ok order) :
    g.walk skip (met.filter keep) (queue.filter keep) = .ok (order.filter keep) := by
  fun_induction walk g (fun _ => false) met queue with
  | case1 met =>
    obtain rfl := Except.ok.inj h
    exact walk_nil
  | case2 met id queue hmem ih =>
    cases hid : keep id with
    | true =>
      rw [List.filter_cons_of_pos hid, walk_of_mem (List.mem_filter.mpr ⟨hmem, hid⟩)]
      exact ih h
    | false =>
      rw [List.filter_cons_of_neg (by simp [hid])]
      exact ih h
  | case3 => simp at h
  | case4 => simp at h
  | case5 met id queue hmem hlen n hn ih =>
    have := ih h
    rw [List.filter_append, List.filter_append] at this
    cases hid : keep id with
    | true =>
      have hlen' : (met.filter keep).length ≤ maxNodes :=
        Nat.le_trans (List.length_filter_le ..) (Nat.le_of_not_lt hlen)
      rw [List.filter_cons_of_pos hid,
        walk_of_notMem (fun h => hmem (List.mem_of_mem_filter h)) hlen' hn, hkeep hn hid]
      rwa [List.filter_cons_of_pos hid, List.filter_nil] at this
    | false =>
      have hsucc : (n.successorsExcept fun _ => false).filter keep = [] :=
        List.filter_eq_nil_iff.mpr fun q hq => by simp [hdrop hn hid q hq]
      rw [List.filter_cons_of_neg (by simp [hid])]
      rwa [hsucc, List.filter_cons_of_neg (by simp [hid]), List.filter_nil, List.append_nil,
        List.append_nil] at this

end Graph

end CommandGrammar
