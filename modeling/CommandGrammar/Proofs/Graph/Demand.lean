import CommandGrammar.Proofs.Graph.Routes

/-!
# How many nodes are needed

A limit on nodes shows in nothing but a failure. What a step does if there is room for it does not
depend on the limit, and if there is not, it fails (`Build.Demands`). This holds of one child, and
of whatever is composed of steps of which it holds (`Build.Demands.bind`), so of all commands
(`Build.demands_all`). Hence a graph that was built under some limit is the one that is built
without (`Graph.BuiltFrom.ofCommands_eq`).

There is room for commands exactly if there is for their different nodes (`Build.exists_room`). If
there is not, the first command that fails is the first one that needs more with those before it,
and whatever is tried after that, there are never more nodes than the limit allows for
(`Build.all_limited`). The graph of commands that have no name twice can be built exactly if they
need no more nodes than can be numbered (`Graph.exists_ofCommands`,
`Graph.ofCommands_of_maxNodes_lt`).
-/

namespace CommandGrammar

open Nodes

namespace Build

variable {α β : Type}

/-- There is something that the step comes to under every limit that allows for as many nodes, or as
were there before; under any other limit it fails. -/
def Demands (step : Build α) : Prop :=
  ∀ a : Arena, ∃ (x : α) (a' : Arena), a.nodes.size ≤ a'.nodes.size ∧ ∀ limit,
    (a'.nodes.size ≤ max limit a.nodes.size →
      step { a with limit } = .ok x { a' with limit }) ∧
    (max limit a.nodes.size < a'.nodes.size →
      ∃ b, step { a with limit } = .error (.nodeLimitExceeded limit) b)

theorem demands_pure (x : α) : Demands (pure x) :=
  fun a => ⟨x, a, Nat.le_refl _, fun _ => ⟨fun _ => rfl, fun h => by omega⟩⟩

/-- A change that makes no nodes and does not look at the limit. -/
theorem demands_modify {f : Arena → Arena} (hsize : ∀ a, (f a).nodes.size = a.nodes.size)
    (hlimit : ∀ a limit, f { a with limit } = { f a with limit }) : Demands (modify f) := by
  refine fun a => ⟨(), f a, Nat.le_of_eq (hsize a).symm, fun limit => ⟨fun _ => ?_, fun h => ?_⟩⟩
  · exact EStateM.modify_eq_ok.mpr (hlimit a limit)
  · rw [hsize] at h
    omega

/-- If there is room for both steps there is room for the first, and if there is room for the first
and from there for the second, there is room for both. -/
theorem Demands.bind {step : Build α} {next : α → Build β} (h : Demands step)
    (hnext : ∀ x, Demands (next x)) : Demands (step >>= next) := by
  intro a
  obtain ⟨x, a₁, hle₁, h₁⟩ := h a
  obtain ⟨y, a₂, hle₂, h₂⟩ := hnext x a₁
  refine ⟨y, a₂, Nat.le_trans hle₁ hle₂, fun limit => ?_⟩
  obtain ⟨hok₁, herr₁⟩ := h₁ limit
  obtain ⟨hok₂, herr₂⟩ := h₂ limit
  constructor
  · intro hroom
    exact EStateM.bind_eq_ok.mpr ⟨x, _, hok₁ (by omega), hok₂ (by omega)⟩
  · intro hroom
    rcases Nat.lt_or_ge (max limit a.nodes.size) a₁.nodes.size with hlt | hge
    · obtain ⟨b, hb⟩ := herr₁ hlt
      exact ⟨b, EStateM.bind_eq_error.mpr (.inl hb)⟩
    · obtain ⟨b, hb⟩ := herr₂ (by omega)
      exact ⟨b, EStateM.bind_eq_error.mpr (.inr ⟨x, _, hok₁ hge, hb⟩)⟩

theorem demands_mapM {step : α → Build β} (h : ∀ x, Demands (step x)) :
    ∀ xs : List α, Demands (xs.mapM step)
  | [] => by
    rw [List.mapM_nil]
    exact demands_pure _
  | x :: xs => by
    rw [List.mapM_cons]
    exact (h x).bind fun _ => (demands_mapM h xs).bind fun _ => demands_pure _

theorem demands_forM {step : α → Build Unit} (h : ∀ x, Demands (step x)) :
    ∀ xs : List α, Demands (xs.forM step)
  | [] => demands_pure _
  | x :: xs => (h x).bind fun _ => demands_forM h xs

/-! ## Commands -/

/-- Only here is the limit looked at. -/
theorem demands_child (p : Nat) (c : Contribution) : Demands (child p c) := by
  intro a
  cases hc : a.childOf? p c.label with
  | some id =>
    have hfound : ∀ limit, child p c { a with limit } = .ok id { a with limit } := fun limit => by
      rw [child, show ({ a with limit } : Arena).childOf? p c.label = some id from hc]
    exact ⟨id, a, Nat.le_refl _, fun limit => ⟨fun _ => hfound limit, fun h => by omega⟩⟩
  | none =>
    refine ⟨a.nodes.size, a.addChild p c, ?_, fun limit => ?_⟩
    · rw [Arena.size_addChild]
      omega
    · rw [Arena.size_addChild, child,
        show ({ a with limit } : Arena).childOf? p c.label = none from hc]
      constructor
      · exact fun h => if_neg (show ¬limit ≤ a.nodes.size by omega)
      · exact fun h => ⟨_, if_pos (show limit ≤ a.nodes.size by omega)⟩

theorem demands_extend (parents : List Nat) (cs : List Contribution) :
    Demands (extend parents cs) :=
  (demands_mapM (fun _ => demands_child _ _) _).bind fun _ => demands_pure _

theorem demands_declare :
    ∀ (args : List Argument) (parents : List Nat), Demands (declare parents args)
  | [], _ => demands_pure _
  | _ :: rest, _ => (demands_extend _ _).bind fun next => demands_declare rest next

theorem demands_aliasLiteral (c : Command) (main : Nat) (name : String) :
    Demands (aliasLiteral c main name) :=
  (demands_child _ _).bind fun id =>
    (demands_modify (fun a => Arena.size_setRedirect a id main) fun _ _ => rfl).bind fun _ =>
      demands_pure _

theorem demands_command (c : Command) : Demands (command c) :=
  (demands_child _ _).bind fun main =>
    (demands_forM (fun _ => demands_declare _ _) _).bind fun _ =>
      (demands_mapM (demands_aliasLiteral c main) _).bind fun _ =>
        demands_modify (fun _ => rfl) fun _ _ => rfl

/-- All commands demand some number of nodes, and fail under any limit below it. -/
theorem demands_all (cs : List Command) : Demands (all cs) :=
  demands_forM demands_command cs

/-! ## Room for commands -/

open CommandGrammar.Graph

/-- What commands come to under every limit that allows for their different nodes. -/
theorem exists_room (cs : List Command) : ∃ a : Arena, a.nodes.size = distinctNodes cs ∧ ∀ limit,
    (distinctNodes cs ≤ max limit 1 → all cs { limit } = .ok () { a with limit }) ∧
      (max limit 1 < distinctNodes cs →
        ∃ b, all cs { limit } = .error (.nodeLimitExceeded limit) b) := by
  obtain ⟨⟨⟩, a, -, h⟩ := demands_all cs {}
  -- under the limit that there is just room for
  have hroom := (h a.nodes.size).1 (Nat.le_max_left ..)
  have routed : Routed ({ a with limit := a.nodes.size } : Arena).nodes
      ([] ++ cs.flatMap Command.routes) := all_routed routed_singleton hroom
  have hsize : a.nodes.size = distinctNodes cs := routed.size_eq
  exact ⟨a, hsize, fun limit => hsize ▸ h limit⟩

/-- What was built under a limit needs no more than the limit, or the root. -/
theorem distinctNodes_le_of_all {limit : Nat} {cs : List Command} {a : Arena}
    (h : all cs { limit } = .ok () a) : distinctNodes cs ≤ max limit 1 := by
  obtain ⟨full, -, hfull⟩ := exists_room cs
  refine Nat.le_of_not_lt fun hlt => ?_
  obtain ⟨b, hb⟩ := (hfull limit).2 hlt
  exact nomatch h.symm.trans hb

/-- What there is room for under a limit of its own is what is made without. -/
theorem all_of_limited {limit : Nat} {cs : List Command} {a : Arena}
    (h : all cs (.limited limit) = .ok () a) : all cs {} = .ok () { a with limit := maxNodes } := by
  have hle := distinctNodes_le_of_all h
  obtain ⟨full, -, hfull⟩ := exists_room cs
  obtain ⟨-, rfl⟩ := EStateM.Result.ok.inj (h.symm.trans ((hfull _).1 hle))
  exact (hfull maxNodes).1 (by omega)

theorem all_concat (cs : List Command) (c : Command) :
    all (cs ++ [c]) = all cs >>= fun _ => command c := by
  simp [all]

/-- There is room for what comes before the first command that there is none for, so this is the one
that fails. -/
theorem exists_error_of_lt {limit : Nat} {cs : List Command} (hne : cs ≠ [])
    (h : limit < distinctNodes cs) : ∃ before c after a b, cs = before ++ c :: after ∧
      all before { limit } = .ok () a ∧ command c a = .error (.nodeLimitExceeded limit) b ∧
      limit < distinctNodes (before ++ [c]) ∧
      ∀ part, part <+: before → part ≠ [] → distinctNodes part ≤ limit := by
  obtain ⟨before, c, after, rfl, hlt, hpart⟩ := exists_first_lt_distinctNodes hne h
  have hbefore : distinctNodes before ≤ max limit 1 := by
    rcases eq_or_ne before [] with rfl | hne
    · exact Nat.le_max_right ..
    · exact Nat.le_trans (hpart before List.prefix_rfl hne) (Nat.le_max_left ..)
  have htwo : 2 ≤ distinctNodes (before ++ [c]) := two_le_distinctNodes (by simp)
  obtain ⟨a, -, ha⟩ := exists_room before
  obtain ⟨full, -, hfull⟩ := exists_room (before ++ [c])
  obtain ⟨b, hb⟩ := (hfull limit).2 (by omega)
  rw [all_concat, EStateM.bind_eq_error] at hb
  have hok := (ha limit).1 hbefore
  rcases hb with hb | ⟨⟨⟩, a', ha', hb⟩
  · exact nomatch hok.symm.trans hb
  · exact ⟨before, c, after, a', b, rfl, ha', hb, hlt, hpart⟩

/-- The arena after every command was tried, whatever came of it. -/
def tryAll (a : Arena) (cs : List Command) : Arena :=
  cs.foldl (fun a c => EStateM.Result.state (command c a)) a

/-- Going on after failures makes changes only, as each command does. -/
theorem tryAll_changes :
    ∀ {cs : List Command} {a : Arena}, 0 < a.nodes.size →
      Arena.Changes (fun _ => True) a (tryAll a cs)
  | [], _, _ => .refl
  | c :: _, _, hpos =>
    have h := command_changes (c := c) (fun _ _ => trivial) hpos
    h.trans (tryAll_changes (Arena.kept_nonempty.changes hpos h))

/-- The limit on nodes is exact, and otherwise does not show. Commands need as many nodes as they
come to under every limit that is ample. -/
theorem all_limited (limit : Nat) {cs : List Command} (hne : cs ≠ []) :
    (∃ a : Arena, a.nodes.size = distinctNodes cs ∧
      ∀ ample, distinctNodes cs ≤ ample →
        all cs { limit := ample } = .ok () { a with limit := ample }) ∧
    ((∃ a, all cs (.limited limit) = .ok () a) ↔ distinctNodes cs ≤ min limit maxNodes) ∧
    (∀ a, all cs (.limited limit) = .ok () a → all cs {} = .ok () { a with limit := maxNodes }) ∧
    (min limit maxNodes < distinctNodes cs → ∃ before c after a b, cs = before ++ c :: after ∧
      all before (.limited limit) = .ok () a ∧
      command c a = .error (.nodeLimitExceeded (min limit maxNodes)) b ∧
      min limit maxNodes < distinctNodes (before ++ [c]) ∧
      ∀ part, part <+: before → part ≠ [] → distinctNodes part ≤ min limit maxNodes) ∧
    ∀ tried, (tryAll (.limited limit) tried).nodes.size ≤ max 1 (min limit maxNodes) := by
  obtain ⟨a, hsize, ha⟩ := exists_room cs
  have hroom {limit : Nat} (h : distinctNodes cs ≤ limit) :
      all cs { limit } = .ok () { a with limit } :=
    (ha limit).1 (Nat.le_trans h (Nat.le_max_left ..))
  refine ⟨⟨a, hsize, fun _ => hroom⟩, ⟨fun ⟨a', ha'⟩ => ?_, fun h => ⟨_, hroom h⟩⟩,
    fun _ => all_of_limited, exists_error_of_lt hne, fun tried => ?_⟩
  · have htwo := two_le_distinctNodes hne
    have hle := distinctNodes_le_of_all ha'
    omega
  · have hwithin : Within (min limit maxNodes) (max 1 (min limit maxNodes)) (.limited limit) :=
      ⟨rfl, Nat.le_max_left ..⟩
    exact ((kept_within (Nat.le_max_right ..)).changes hwithin (tryAll_changes Nat.one_pos)).2

/-- The other name of the first command is the name of the second, so they share its literal, which
redirects and has a child as well. -/
def sharing : List Command :=
  [Command.define "light" [.otherName "lamp", .usage [.boolean "on"]],
    Command.define "lamp" [.usage [.boolean "on"], .usage [.boolean "dim"]]].filterMap
      Except.toOption

/-- The root, two literals, and what the usages spell below each. -/
theorem all_limited_sharing : sharing ≠ [] ∧ distinctNodes sharing = 6 ∧
    (∃ a, all sharing (.limited 6) = .ok () a) ∧
    ∃ before c after a b, sharing = before ++ c :: after ∧ before ≠ [] ∧
      all before (.limited 5) = .ok () a ∧ command c a = .error (.nodeLimitExceeded 5) b := by
  have hne : sharing ≠ [] := by decide +kernel
  have hsix : distinctNodes sharing = 6 := by decide +kernel
  obtain ⟨-, henough, -⟩ := all_limited 6 hne
  obtain ⟨-, -, -, hfirst, -⟩ := all_limited 5 hne
  obtain ⟨before, c, after, a, b, hcs, ha, hb, hlt, -⟩ := hfirst (by rw [hsix]; decide)
  refine ⟨hne, hsix, henough.mpr (by rw [hsix]; decide), before, c, after, a, b, hcs, ?_, ha, hb⟩
  rintro rfl
  have hfits : distinctNodes (sharing.take 1) ≤ 5 := by decide +kernel
  have htake : sharing.take 1 = [] ++ [c] := by rw [hcs, List.nil_append, List.take_succ_cons]; rfl
  exact Nat.not_le_of_lt hlt (htake ▸ hfits)

end Build

/-! ## Graphs -/

namespace Graph

/-- What a builder with a limit of its own makes of commands is what is made of them without. -/
theorem BuiltFrom.ofCommands_eq {g : Graph} {cs : List Command} (h : g.BuiltFrom cs) :
    ofCommands g.caseInsensitive g.generation cs = .ok g := by
  obtain ⟨limit, a, ha, hg⟩ := h
  exact ofCommands_eq_ok.mpr ⟨_, Build.all_of_limited ha, hg⟩

variable {cs : List Command} (hnd : (cs.flatMap fun c => c.names).Nodup)

include hnd

/-- If no name repeats, no two commands share a node. -/
theorem distinctNodes_eq_nodesNeeded : distinctNodes cs = nodesNeeded cs := by
  obtain ⟨a, hsize, ha⟩ := Build.exists_room cs
  have hroom := (ha (distinctNodes cs)).1 (Nat.le_max_left ..)
  obtain ⟨declares, hcommands⟩ := declares_of_all hnd hroom true 0
  exact hsize.symm.trans (declares.size_eq.trans (congrArg nodesNeeded hcommands))

variable (caseInsensitive : Bool) (generation : Nat)

/-- Commands that need no more than the greatest limit have a graph. -/
theorem exists_ofCommands (h : nodesNeeded cs ≤ maxNodes) :
    ∃ g, ofCommands caseInsensitive generation cs = .ok g := by
  rw [← distinctNodes_eq_nodesNeeded hnd] at h
  obtain ⟨a, -, ha⟩ := Build.exists_room cs
  exact ⟨_, ofCommands_eq_ok.mpr ⟨_, (ha maxNodes).1 (Nat.le_trans h (Nat.le_max_left ..)), rfl⟩⟩

/-- Commands that need more than the greatest limit have none. -/
theorem ofCommands_of_maxNodes_lt (h : maxNodes < nodesNeeded cs) :
    ofCommands caseInsensitive generation cs = .error (.nodeLimitExceeded maxNodes) := by
  rw [← distinctNodes_eq_nodesNeeded hnd] at h
  obtain ⟨a, -, ha⟩ := Build.exists_room cs
  obtain ⟨b, hb⟩ := (ha maxNodes).2 h
  have hrun : (Build.all cs).run {} = .error (.nodeLimitExceeded maxNodes) b := hb
  rw [ofCommands, hrun]

end Graph

end CommandGrammar
