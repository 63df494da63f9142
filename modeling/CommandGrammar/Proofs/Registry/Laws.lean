import CommandGrammar.Line.Parsed
import CommandGrammar.Proofs.Payload.Encode
import CommandGrammar.Proofs.Registry.Transactions

/-!
# Laws of registering

A registry takes commands one after another exactly if it can have all of them together
(`Registry.Sound.accepts_iff`), which does not depend on their order. Nor does it matter for reading
lines, as a name leads to one command only (`Registry.read_of_perm`).

Removing a command by its name undoes that it was registered: the registry has the commands that it
had, in the order that they had, and the graph that it publishes is but for its generation the one
that was published before (`Registry.Reachable.unregister_register`).
-/

namespace CommandGrammar

/-- Lines are read alike by graphs in which names lead to the same commands. -/
theorem Graph.read_congr {g k : Graph} (h : ∀ name, g.find? name = k.find? name) (line : String) :
    g.read line = k.read line := by
  simp only [read, h]

/-- A graph can be built in any generation if it can be built in one. -/
theorem Graph.ofCommands_generation {caseInsensitive : Bool} {generation : Nat} {cs : List Command}
    {g : Graph} (h : ofCommands caseInsensitive generation cs = .ok g) (later : Nat) :
    ofCommands caseInsensitive later cs = .ok { g with generation := later } := by
  obtain ⟨a, ha, rfl⟩ := ofCommands_eq_ok.mp h
  exact ofCommands_eq_ok.mpr ⟨a, ha, rfl⟩

namespace Registry

variable {r r' : Registry} {c : Command} {cs cs' : List Command}

/-! ## Many commands -/

/-- A registry can have these commands: no name repeats, and all nodes can be numbered. -/
structure Admissible (config : Config) (cs : List Command) : Prop where
  distinct : (foldedNames config.caseInsensitive cs).Nodup
  nodesNeeded_le : Graph.nodesNeeded cs ≤ Graph.maxNodes

theorem Admissible.sublist {config : Config} (h : Admissible config cs) (hsub : cs'.Sublist cs) :
    Admissible config cs' where
  distinct := h.distinct.sublist (foldedNames_sublist hsub)
  nodesNeeded_le := by
    have := (hsub.map Command.nodeCount).sum_le_sum fun _ _ => Nat.zero_le _
    have := h.nodesNeeded_le
    unfold Graph.nodesNeeded at *
    omega

theorem Admissible.perm {config : Config} (h : Admissible config cs) (hperm : cs.Perm cs') :
    Admissible config cs' where
  distinct := ((hperm.flatMap_right _).map _).nodup_iff.mp h.distinct
  nodesNeeded_le := by
    have hneeded := h.nodesNeeded_le
    rwa [Graph.nodesNeeded, (hperm.map Command.nodeCount).sum_eq] at hneeded

/-- All of the commands are registered, one after another. -/
def Accepts (r : Registry) (cs : List Command) : Prop :=
  ∀ outcome ∈ r.outcomes (cs.map .register), outcome.isPublished

@[simp] theorem accepts_cons : r.Accepts (c :: cs) ↔
    (r.apply (.register c)).1.isPublished ∧ (r.apply (.register c)).2.Accepts cs :=
  List.forall_mem_cons

namespace Sound

theorem admissible (h : r.Sound) : Admissible r.config r.commands :=
  ⟨h.distinct, h.nodesNeeded_le (List.Sublist.refl _)⟩

theorem isPublished_register_iff (h : r.Sound) : (r.apply (.register c)).1.isPublished ↔
    Admissible r.config (r.commands ++ [c]) := by
  rw [Outcome.isPublished_iff, h.transactional.register_iff, h.admits_iff]
  exact ⟨fun ⟨hnd, hle⟩ => ⟨hnd, hle⟩, fun ha => ⟨ha.distinct, ha.nodesNeeded_le⟩⟩

/-- What a registry is after a command was registered. -/
theorem exists_apply_register (h : r.Sound) (hc : Admissible r.config (r.commands ++ [c])) :
    ∃ g, r.apply (.register c) = (.published g, { r with
      commands := r.commands ++ [c], current := g, generation := r.generation + 1 }) := by
  obtain ⟨g, -, happly⟩ := h.publishes_register (h.admits_iff.mpr hc.distinct) hc.nodesNeeded_le
  exact ⟨g, happly⟩

/-- Commands are accepted one by one exactly if the registry can have all of them. -/
theorem accepts_iff : ∀ {cs : List Command} {r : Registry}, r.Sound →
    (r.Accepts cs ↔ Admissible r.config (r.commands ++ cs))
  | [], r, h => by
    rw [List.append_nil]
    exact ⟨fun _ => h.admissible, fun _ => List.forall_mem_nil _⟩
  | c :: cs, r, h => by
    -- Either side says that the first command can be had with those before.
    have hfirst : Admissible r.config (r.commands ++ c :: cs) →
        Admissible r.config (r.commands ++ [c]) := fun hcs =>
      hcs.sublist (List.Sublist.append_left (List.singleton_sublist.mpr List.mem_cons_self) _)
    have hrest (hc : Admissible r.config (r.commands ++ [c])) :
        (r.apply (.register c)).2.Accepts cs ↔
          Admissible r.config (r.commands ++ c :: cs) := by
      obtain ⟨g, happly⟩ := h.exists_apply_register hc
      have hnext := sound_apply h (.register c)
      rw [happly] at hnext ⊢
      rw [List.append_cons r.commands c cs]
      exact hnext.accepts_iff
    rw [accepts_cons, h.isPublished_register_iff]
    exact ⟨fun ⟨hc, hcs⟩ => (hrest hc).mp hcs,
      fun hcs => ⟨hfirst hcs, (hrest (hfirst hcs)).mpr hcs⟩⟩

/-- After all were accepted they are what the registry has, in their order. -/
theorem applyAll_of_accepts : ∀ {cs : List Command} {r : Registry}, r.Sound → r.Accepts cs →
    (r.applyAll (cs.map .register)).config = r.config ∧
      (r.applyAll (cs.map .register)).commands = r.commands ++ cs
  | [], _, _, _ => ⟨rfl, (List.append_nil _).symm⟩
  | c :: cs, r, h, hcs => by
    obtain ⟨hc, hcs⟩ := accepts_cons.mp hcs
    obtain ⟨g, happly⟩ := h.exists_apply_register (h.isPublished_register_iff.mp hc)
    have hnext := sound_apply h (.register c)
    rw [happly] at hcs hnext
    obtain ⟨hconfig, hcommands⟩ := hnext.applyAll_of_accepts hcs
    rw [List.map_cons, applyAll, List.foldl_cons, happly]
    exact ⟨hconfig, hcommands.trans (List.append_assoc ..)⟩

/-- A name leads to the same command in whatever order the commands are. -/
theorem find?_of_perm (h : r.Sound) (h' : r'.Sound) (hconfig : r.config = r'.config)
    (hperm : r.commands.Perm r'.commands) (name : String) :
    r.current.find? name = r'.current.find? name := by
  have hfilter := hperm.filter (·.answersTo r.config.caseInsensitive name)
  rw [h.filter_eq_find?, hconfig, h'.filter_eq_find?] at hfilter
  cases hfind : r'.current.find? name with
  | none =>
    rw [hfind] at hfilter
    exact Option.toList_eq_nil_iff.mp hfilter.eq_nil
  | some d =>
    rw [hfind] at hfilter
    exact Option.toList_eq_singleton_iff.mp (List.perm_singleton.mp hfilter)

end Sound

/-- Commands that are all accepted are so in any order, and lines are read alike afterwards. -/
theorem read_of_perm {config : Config} (hperm : cs.Perm cs') (h : (new config).Accepts cs) :
    (new config).Accepts cs' ∧ ∀ line,
      ((new config).applyAll (cs'.map .register)).current.read line =
        ((new config).applyAll (cs.map .register)).current.read line := by
  have hnew := sound_new config
  have h' : (new config).Accepts cs' :=
    hnew.accepts_iff.mpr ((hnew.accepts_iff.mp h).perm (hperm.append_left _))
  refine ⟨h', fun line => Graph.read_congr (fun name => ?_) line⟩
  obtain ⟨hconfig, hcommands⟩ := hnew.applyAll_of_accepts h
  obtain ⟨hconfig', hcommands'⟩ := hnew.applyAll_of_accepts h'
  refine (sound_applyAll _ hnew).find?_of_perm (sound_applyAll _ hnew)
    (hconfig'.trans hconfig.symm) ?_ name
  rw [hcommands, hcommands']
  exact (hperm.append_left _).symm

/-- The two commands of the sample, the later one first. -/
theorem read_of_perm_sample : (sample.commands.map fun c => c.name) = ["say", "heal"] ∧
    (new {}).Accepts sample.commands ∧ (new {}).Accepts sample.commands.reverse ∧
      ∀ line, ((new {}).applyAll (sample.commands.reverse.map .register)).current.read line =
        ((new {}).applyAll (sample.commands.map .register)).current.read line := by
  have haccepts : (new {}).Accepts sample.commands := by
    unfold Accepts
    decide +kernel
  exact ⟨by decide +kernel, haccepts, read_of_perm (List.reverse_perm _).symm haccepts⟩

/-! ## Registering and removing -/

/-- No other command has a name of one that was registered. -/
theorem Admits.not_matchesName {name : String} (hc : r.Admits c) (hname : r.matchesName c.name name)
    {d : Command} (hd : d ∈ r.commands) : ¬r.matchesName d.name name := fun hd' =>
  hc.1 c.name List.mem_cons_self
    ⟨d, hd, d.name, List.mem_cons_self,
      sameName_iff.mpr ((sameName_iff.mp hd').trans (sameName_iff.mp hname).symm)⟩

/-- Removing the command that was registered last leads back to the commands there were before, and
to their graph; only the generation counts what was published in between. -/
theorem Reachable.unregister_register {g : Graph} {name : String} (h : r.Reachable)
    (hc : r.apply (.register c) = (.published g, r')) (hname : r.matchesName c.name name) :
    let restored : Graph := { r.current with generation := r.current.generation + 2 }
    r'.apply (.unregister name) =
        (.published restored, { r with current := restored, generation := r.generation + 2 }) ∧
      ∀ limit, restored.serialize limit = r.current.serialize limit := by
  have hsound := h.sound
  rw [hsound.generation_current]
  refine ⟨?_, Graph.serialize_congr rfl rfl⟩
  obtain ⟨hadmits, hle⟩ := (hsound.transactional.register_iff c).mp ⟨g, congrArg Prod.fst hc⟩
  obtain ⟨g', -, happly⟩ := hsound.publishes_register hadmits hle
  obtain ⟨-, rfl⟩ := Prod.mk.inj (hc.symm.trans happly)
  have hnext := sound_apply hsound (.register c)
  rw [happly] at hnext
  obtain ⟨k, hk, hremove⟩ := hnext.publishes_unregister rfl hname
    fun d hd => hadmits.not_matchesName hname hd
  rw [List.append_nil] at hk hremove
  obtain rfl : _ = k := Except.ok.inj ((Graph.ofCommands_generation hsound.built _).symm.trans hk)
  exact hremove

/-- A third command of the sample, removed under another spelling of its name. -/
theorem unregister_register_sample : ∃ c g r', sample.apply (.register c) = (.published g, r') ∧
    c.name = "Warp" ∧ sample.matchesName c.name "wARP" ∧
      let restored : Graph := { sample.current with generation := sample.current.generation + 2 }
      r'.apply (.unregister "wARP") = (.published restored,
          { sample with current := restored, generation := sample.generation + 2 }) ∧
        ∀ limit, restored.serialize limit = sample.current.serialize limit := by
  have facts : (Command.define "Warp" [.otherName "w", .usage [.boolean "far"]]).toOption.map
      (fun c => (c.name, (sample.apply (.register c)).1.isPublished)) = some ("Warp", true) := by
    decide +kernel
  obtain ⟨c, -, facts⟩ := Except.exists_of_map_toOption facts
  obtain ⟨hname, hpublished⟩ := Prod.mk.inj facts
  obtain ⟨g, hg⟩ := Outcome.isPublished_iff.mp hpublished
  have hspelling : sample.matchesName c.name "wARP" := by
    rw [hname]
    decide +kernel
  have hc : sample.apply (.register c) = (.published g, (sample.apply (.register c)).2) :=
    Prod.ext hg rfl
  exact ⟨c, g, _, hc, hname, hspelling, reachable_sample.unregister_register hc hspelling⟩

end Registry

end CommandGrammar
