import CommandGrammar.Proofs.Graph.Declared
import CommandGrammar.Proofs.Graph.Embedding
import CommandGrammar.Proofs.Payload.Encode
import CommandGrammar.Proofs.Registry.Reachable

/-!
# The payload of the commands that are kept

A payload within a bound is a whole payload: that of the graph of the commands that were not left
out, built from them alone (`Registry.Reachable.serialize_kept`). The smaller graph is part of the
larger one (`Graph.Declares.exists_part`), so both are numbered alike and written alike.
-/

namespace CommandGrammar

open Nodes

namespace Graph

/-! ## Parts of a declared graph -/

/-- What the root says of itself. -/
theorem Declares.root_node {g : Graph} (h : g.Declares) {n : Node} (hn : g.nodes[0]? = some n) :
    n.body = .root ∧ n.executable = false ∧ n.redirect = none := by
  have hlabel : n.label = none := (labelOf_eq hn).symm.trans h.tree.root
  refine ⟨?_, ?_, (redirectOf_eq hn).symm.trans h.redirect⟩
  · simp only [Node.body, hlabel]
  · simp only [Node.executable, hlabel]

theorem part_of_embeds {φ : Nat → Nat} {skip : Nat → Bool} {k g : Graph} (hk : k.Declares)
    (hg : g.Declares) (e : Embeds φ skip k.nodes g.nodes)
    (hskip : ∀ id, skip id = true → id ∈ g.children root) : Part φ skip k g where
  zero := e.zero
  root_lt := hk.tree.nonempty
  injective {i j} hi hj he := by
    rcases Nat.lt_trichotomy i j with hlt | heq | hgt
    · exact absurd he (Nat.ne_of_lt (e.mono hlt hj))
    · exact heq
    · exact absurd he (Nat.ne_of_gt (e.mono hgt hi))
  closed {i n} hn q hq := by
    rcases List.mem_append.mp hq with hq | hq
    · exact (hk.tree.down (childrenOf_eq hn ▸ hq)).2
    · exact e.target_lt ((redirectOf_eq hn).trans (Option.mem_toList.mp hq))
  node {i n} hn := by
    rcases Nat.eq_zero_or_pos i with rfl | hi
    · obtain ⟨m, hm⟩ : ∃ m, g.node? (φ 0) = some m :=
        ⟨_, Array.getElem?_eq_getElem (e.zero.symm ▸ hg.tree.nonempty)⟩
      have hm0 : g.nodes[0]? = some m := by rw [← e.zero]; exact hm
      obtain ⟨hbody, hexecutable, hredirect⟩ := hk.root_node hn
      obtain ⟨hbody', hexecutable', hredirect'⟩ := hg.root_node hm0
      refine ⟨m, hm, hbody'.trans hbody.symm, hexecutable'.trans hexecutable.symm, ?_, ?_⟩
      · have := e.root
        rwa [childrenOf_eq hm0, childrenOf_eq hn] at this
      · rw [hredirect, hredirect']
        rfl
    · have hlt : i < k.nodes.size := (Array.getElem?_eq_some_iff.mp hn).1
      have hm : g.node? (φ i) = some (n.rename φ) := by
        have := e.node hi hlt
        rwa [show k.nodes[i]? = some n from hn] at this
      refine ⟨_, hm, rfl, rfl, List.filter_eq_self.mpr fun q hq => ?_, rfl⟩
      -- a skipped child would have the root as another parent
      cases hs : skip q with
      | false => rfl
      | true =>
        have hpos : φ 0 < φ i := e.mono hi hlt
        have := hg.tree.unique (childrenOf_eq hm ▸ hq) (hskip q hs)
        rw [this, e.zero] at hpos
        exact absurd hpos (Nat.lt_irrefl 0)

/-! ## Leaving groups out -/

/-- The id is a literal of one of these groups. -/
def isRootOf (gs : List Group) (id : Nat) : Bool :=
  gs.any (·.roots.contains id)

/-- The command has none of these groups. -/
def isWithout (gs : List Group) (c : Command) : Bool :=
  !(gs.map Group.command).contains c.name

variable {g : Graph}

/-- All literals of a command are skipped, or none. -/
theorem Declares.isRootOf_eq (h : g.Declares) {gs : List Group} (hgs : gs ⊆ g.groups) :
    List.Forall₂ (fun c group => ∀ id ∈ group.roots, isRootOf gs id = !isWithout gs c) g.commands
      g.groups := by
  refine List.forall₂_iff_zip.mpr ⟨h.laid.commands.length_eq, fun {c group} hz id hid => ?_⟩
  have hname : group.command = c.name := List.forall₂_zip h.laid.commands hz
  have hg : group ∈ g.groups := (List.of_mem_zip hz).2
  rw [isWithout, Bool.not_not, Bool.eq_iff_iff, isRootOf, List.any_eq_true, List.contains_iff_mem,
    List.mem_map]
  constructor
  · rintro ⟨o, ho, hmem⟩
    obtain rfl := h.group_eq_of_root (hgs ho) hg (List.contains_iff_mem.mp hmem) hid
    exact ⟨o, ho, hname⟩
  · rintro ⟨o, ho, hcommand⟩
    obtain rfl := h.group_eq_of_command (hgs ho) hg (hcommand.trans hname.symm)
    exact ⟨o, ho, List.contains_iff_mem.mpr hid⟩

/-- The graph of the commands without these groups is part of the graph of all. -/
theorem exists_part {caseInsensitive : Bool} {generation : Nat} {cs : List Command}
    (hnd : (cs.flatMap fun c => c.names).Nodup)
    (hg : ofCommands caseInsensitive generation cs = .ok g) {gs : List Group} (hgs : gs ⊆ g.groups)
    (generation' : Nat) : ∃ k φ,
      ofCommands caseInsensitive generation' (cs.filter (isWithout gs)) = .ok k ∧
      k.Declares ∧ Part φ (isRootOf gs) k g := by
  have declares := declares_of_ofCommands hnd hg
  have hskip := declares.isRootOf_eq hgs
  rw [commands_of_ofCommands hnd hg] at hskip
  obtain ⟨k, φ, hk, e⟩ := exists_embeds hnd hg hskip generation'
  have declares' := declares_of_ofCommands (hnd.sublist (List.filter_sublist.flatMap _)) hk
  refine ⟨k, φ, hk, declares', part_of_embeds declares' declares e fun id hid => ?_⟩
  obtain ⟨o, ho, hmem⟩ := List.any_eq_true.mp hid
  exact declares.child_of_mem (hgs ho) (List.contains_iff_mem.mp hmem)

/-! ## Serializing -/

theorem admitGroups_groups {limit : Nat} :
    ∀ {size : Nat} {pairs : List (Group × Nat)},
      (admitGroups limit size pairs).map Verdict.group = pairs.map Prod.fst
  | _, [] => rfl
  | size, (group, share) :: rest => by
    rw [admitGroups]
    split <;> rw [List.map_cons, List.map_cons, admitGroups_groups]

/-- There is a verdict on each group, in their order. -/
theorem verdicts_groups {limit : Nat} {full : Encoded} {vs : List Verdict}
    (h : g.verdicts limit full = .ok vs) : vs.map Verdict.group = g.groups := by
  obtain ⟨shares, hshares, h⟩ := Except.bind_eq_ok.mp h
  obtain rfl := Except.ok.inj h
  rw [admitGroups_groups, List.map_fst_zip]
  exact Nat.le_of_eq (Except.mapM_eq_ok.mp hshares).length_eq

/-- The payload of all if it keeps to the limit, and else the one without the groups that would
exceed it. -/
theorem serialize_eq_ok {limit : Nat} {out : Serialized} (h : g.serialize limit = .ok out) :
    ∃ full, g.encode (fun _ => false) = .ok full ∧
      (full.bytes.length ≤ limit ∧ out = ⟨full.bytes, full.order.length, [], limit⟩ ∨
        limit < full.bytes.length ∧ ∃ vs rest, g.verdicts limit full = .ok vs ∧
          g.encodeWithout (vs.filter (!·.kept)) = .ok rest ∧
          out = ⟨rest.bytes, rest.order.length, vs.filter (!·.kept), limit⟩) := by
  obtain ⟨full, hfull, h⟩ := Except.bind_eq_ok.mp h
  refine ⟨full, hfull, ?_⟩
  split at h
  · next hle => exact .inl ⟨hle, (Except.ok.inj h).symm⟩
  · next hlt =>
    obtain ⟨vs, hvs, h⟩ := Except.bind_eq_ok.mp h
    obtain ⟨rest, hrest, h⟩ := Except.bind_eq_ok.mp h
    exact .inr ⟨Nat.lt_of_not_le hlt, vs, rest, hvs, hrest, (Except.ok.inj h).symm⟩

/-- What is serialized is the payload without the literals of the groups that were left out. -/
theorem encode_of_serialize {limit : Nat} {out : Serialized} (h : g.serialize limit = .ok out) :
    (out.omitted.map Verdict.group).Sublist g.groups ∧
      ∃ e, g.encode (isRootOf (out.omitted.map Verdict.group)) = .ok e ∧
        out.bytes = e.bytes ∧ out.nodeCount = e.order.length := by
  obtain ⟨full, hfull, ⟨-, rfl⟩ | ⟨-, vs, rest, hvs, hrest, rfl⟩⟩ := serialize_eq_ok h
  · exact ⟨List.nil_sublist _, full, hfull, rfl, rfl⟩
  · refine ⟨?_, rest, ?_, rfl, rfl⟩
    · rw [← verdicts_groups hvs]
      exact List.filter_sublist.map _
    · have hskip : isRootOf ((vs.filter (!·.kept)).map Verdict.group) =
          fun id => (vs.filter (!·.kept)).any (·.group.roots.contains id) := by
        funext id
        rw [isRootOf, List.any_map]
        rfl
      rw [hskip]
      exact hrest

theorem serialize_of_encode {limit : Nat} {e : Encoded} (h : g.encode (fun _ => false) = .ok e)
    (hle : e.bytes.length ≤ limit) : g.serialize limit =
      .ok { bytes := e.bytes, nodeCount := e.order.length, omitted := [], limit } := by
  rw [serialize, h]
  exact if_pos hle

end Graph

/-- The commands that were not left out. -/
def Serialized.kept (s : Serialized) (cs : List Command) : List Command :=
  cs.filter fun c => !(s.omissions.map Omission.command).contains c.name

theorem Serialized.map_command (s : Serialized) :
    s.omissions.map Omission.command = (s.omitted.map Verdict.group).map Group.command := by
  simp [omissions, Function.comp_def]

/-- What is left of a payload within a bound is the payload of the commands that are kept. -/
theorem Graph.exists_kept {caseInsensitive : Bool} {generation : Nat} {cs : List Command}
    {g : Graph} (hnd : (cs.flatMap fun c => c.names).Nodup)
    (hg : ofCommands caseInsensitive generation cs = .ok g) {limit : Nat} {out : Serialized}
    (hout : g.serialize limit = .ok out) (generation' : Nat) :
    ∃ k, ofCommands caseInsensitive generation' (out.kept cs) = .ok k ∧
      ∀ limit', out.bytes.length ≤ limit' → k.serialize limit' = .ok
        { bytes := out.bytes, nodeCount := out.nodeCount, omitted := [], limit := limit' } := by
  obtain ⟨hsub, e, he, hbytes, hcount⟩ := encode_of_serialize hout
  obtain ⟨k, φ, hk, -, part⟩ := exists_part hnd hg hsub.subset generation'
  obtain ⟨order, hencode, horder⟩ := part.encode he
  refine ⟨k, ?_, fun limit' hle => ?_⟩
  · rw [Serialized.kept, out.map_command]
    exact hk
  · rw [hbytes] at hle
    rw [serialize_of_encode hencode hle, hbytes, hcount, horder, List.length_map]

/-- What is left out is told in the order of registration and once, and the payload is that of the
commands that are kept. -/
theorem Registry.Reachable.serialize_kept {r : Registry} (h : r.Reachable) {limit : Nat}
    {out : Serialized} (hout : r.current.serialize limit = .ok out) :
    (out.omissions.map Omission.command).Sublist (r.current.commands.map fun c => c.name) ∧
      (out.omissions.map Omission.command).Nodup ∧
      ∀ generation, ∃ k,
        Graph.ofCommands r.current.caseInsensitive generation (out.kept r.current.commands) =
          .ok k ∧
        ∀ limit', out.bytes.length ≤ limit' → k.serialize limit' = .ok
          { bytes := out.bytes, nodeCount := out.nodeCount, omitted := [], limit := limit' } := by
  have hnames := (Graph.encode_of_serialize hout).1.map Group.command
  rw [← out.map_command, h.declares.map_command] at hnames
  refine ⟨hnames, (h.declares.map_command ▸ h.declares.nodup_command).sublist hnames,
    fun generation => ?_⟩
  rw [h.sound.caseInsensitive_current, h.sound.commands_current]
  exact Graph.exists_kept h.sound.nodup_names h.sound.built hout generation

/-- The first command is left out, and the ids of the second are others than in its own graph. -/
theorem Registry.sample_serialize_heal :
    sample.Reachable ∧ ∃ out, sample.current.serialize 40 = .ok out ∧
      out.omissions.map Omission.command = ["say"] ∧ out.bytes.length = 18 ∧
      ∃ k, Graph.ofCommands sample.current.caseInsensitive 7 (out.kept sample.current.commands) =
          .ok k ∧
        ∀ limit', 18 ≤ limit' → k.serialize limit' = .ok
          { bytes := out.bytes, nodeCount := out.nodeCount, omitted := [], limit := limit' } := by
  have hout : (sample.current.serialize 40).toOption.map
      (fun s => (s.omissions.map Omission.command, s.bytes.length)) = some (["say"], 18) := by
    decide +kernel
  refine ⟨reachable_sample, ?_⟩
  cases h : sample.current.serialize 40 with
  | error fault => simp [h, Except.toOption] at hout
  | ok out =>
    obtain ⟨hnames, hlen⟩ : out.omissions.map Omission.command = ["say"] ∧
        out.bytes.length = 18 := by
      simpa [h, Except.toOption] using hout
    obtain ⟨-, -, hkept⟩ := reachable_sample.serialize_kept h
    exact ⟨out, rfl, hnames, hlen, hlen ▸ hkept 7⟩

end CommandGrammar
