import CommandGrammar.Proofs.Payload.Share
import Mathlib.Tactic.Choose

/-!
# Keeping to a bound

Within a bound, commands are judged one after another by the size of the payload with them, as far
as the payload of all commands tells it (`Judged`). `PayloadLength` is the true size, that of the
payload which the commands alone have without a bound. What is judged is never less than that, and
in a small graph it is just that. So a command that is left out is told with a size past the limit,
and what is kept is within it (`Registry.Reachable.serialize_projects`).
-/

namespace CommandGrammar

/-! ## Admitting groups -/

/-- Verdicts on lots in their order, `size` being the size of the payload before the first: a lot is
kept if the payload with it, of those before it only the kept ones, is within the limit. -/
structure Judged (limit : Nat) (share : Lot → Nat) (size : Nat) (ws : List (Lot × Verdict)) :
    Prop where
  group : ∀ w ∈ ws, w.2.group = w.1.group
  kept : ∀ w ∈ ws, w.2.kept = true ↔ w.2.projected ≤ limit
  projected : ∀ {pre w post}, ws = pre ++ w :: post → w.2.projected =
    size + ((pre.filter (·.2.kept)).map fun w => share w.1).sum + share w.1

namespace Judged

variable {limit size : Nat} {share : Lot → Nat} {ws : List (Lot × Verdict)}

theorem cons (x : Lot) {kept : Bool} (hkept : kept = true ↔ size + share x ≤ limit)
    (h : Judged limit share (if kept then size + share x else size) ws) :
    Judged limit share size ((x, ⟨x.group, share x, size + share x, kept⟩) :: ws) where
  group := List.forall_mem_cons.mpr ⟨rfl, h.group⟩
  kept := List.forall_mem_cons.mpr ⟨hkept, h.kept⟩
  projected {pre w post} hws := by
    cases pre with
    | nil =>
      obtain ⟨rfl, -⟩ := List.cons.inj hws
      rfl
    | cons v pre =>
      obtain ⟨rfl, htail⟩ := List.cons.inj hws
      rw [h.projected htail]
      cases kept with
      | true =>
        rw [if_pos rfl, List.filter_cons_of_pos rfl, List.map_cons, List.sum_cons]
        show _ = size + (share x + _) + _
        omega
      | false => rw [if_neg Bool.false_ne_true, List.filter_cons_of_neg Bool.false_ne_true]

end Judged

theorem exists_judged (limit : Nat) (share : Lot → Nat) :
    ∀ (size : Nat) (lots : List Lot), ∃ ws : List (Lot × Verdict), ws.map Prod.fst = lots ∧
      ws.map Prod.snd = admitGroups limit size (lots.map fun x => (x.group, share x)) ∧
      Judged limit share size ws
  | size, [] => ⟨[], rfl, rfl, ⟨by simp, by simp, by simp⟩⟩
  | size, x :: lots => by
    rw [List.map_cons, admitGroups]
    by_cases hle : size + share x ≤ limit
    · obtain ⟨ws, rfl, hvs, h⟩ := exists_judged limit share (size + share x) lots
      have head : true = true ↔ size + share x ≤ limit := by simp [hle]
      exact ⟨_, rfl, by rw [if_pos hle, List.map_cons, hvs], .cons x head h⟩
    · obtain ⟨ws, rfl, hvs, h⟩ := exists_judged limit share size lots
      have head : false = true ↔ size + share x ≤ limit := by simp [hle]
      exact ⟨_, rfl, by rw [if_neg hle, List.map_cons, hvs], .cons x head h⟩

/-! ## Payloads without a bound -/

/-- Without a bound, the graph of these commands is serialized as so many bytes. -/
def PayloadLength (caseInsensitive : Bool) (cs : List Command) (length : Nat) : Prop :=
  ∀ generation, ∃ g, Graph.ofCommands caseInsensitive generation cs = .ok g ∧
    ∀ limit, length ≤ limit → ∃ out, g.serialize limit = .ok out ∧ out.omitted = [] ∧
      out.bytes.length = length

theorem PayloadLength.unique {caseInsensitive : Bool} {cs : List Command} {m n : Nat}
    (hm : PayloadLength caseInsensitive cs m) (hn : PayloadLength caseInsensitive cs n) :
    m = n := by
  obtain ⟨g, hg, hm⟩ := hm 0
  obtain ⟨g', hg', hn⟩ := hn 0
  obtain rfl := Except.ok.inj (hg.symm.trans hg')
  obtain ⟨out, hout, -, rfl⟩ := hm (max m n) (Nat.le_max_left ..)
  obtain ⟨out', hout', -, rfl⟩ := hn _ (Nat.le_max_right ..)
  rw [Except.ok.inj (hout.symm.trans hout')]

namespace Graph

variable {caseInsensitive : Bool} {generation : Nat} {g : Graph}
  (hnd : (g.commands.flatMap fun c => c.names).Nodup)
  (hg : ofCommands caseInsensitive generation g.commands = .ok g)

include hnd hg

theorem payloadLength_of_serialize {limit : Nat} {out : Serialized}
    (hout : g.serialize limit = .ok out) :
    PayloadLength caseInsensitive (out.kept g.commands) out.bytes.length := fun generation' => by
  obtain ⟨k, hk, hserialize⟩ := exists_kept hnd hg hout generation'
  exact ⟨k, hk, fun limit' hle => ⟨_, hserialize limit' hle, rfl, rfl⟩⟩

/-- The payload of some of the commands is what is written without the others. -/
theorem payloadLength_without {lots ls : List Lot} (d : g.Divided lots) (hls : ls.Sublist lots)
    {e : Encoded} (he : g.encode (isRootOf (g.groupsWithout ls)) = .ok e) :
    PayloadLength caseInsensitive (ls.map Lot.command) e.bytes.length := fun generation' => by
  have hsub : g.groupsWithout ls ⊆ g.groups := List.filter_sublist.subset
  obtain ⟨k, φ, hk, -, part⟩ := exists_part hnd hg hsub generation'
  obtain ⟨order, hencode, -⟩ := part.encode he
  rw [d.filter_isWithout hls] at hk
  exact ⟨k, hk, fun limit hle => ⟨_, serialize_of_encode hencode hle, rfl, rfl⟩⟩

/-- Every selection of the commands has a payload, of at most the size that is measured, and of
exactly that size in a small graph. -/
theorem exists_lengths {lots : List Lot} (d : g.Divided lots) {full : Encoded}
    (hfull : g.encode (fun _ => false) = .ok full) : ∃ len : List Command → Nat,
      (∀ cs : List Command, cs.Sublist g.commands → PayloadLength caseInsensitive cs (len cs)) ∧
        len g.commands = full.bytes.length ∧ len [] = 4 ∧ ∀ ls : List Lot, ls.Sublist lots →
          len (ls.map Lot.command) ≤ frameSize full.placeSize lots +
            (ls.map (g.shareIn full.placeSize)).sum ∧
          (g.size ≤ 127 → len (ls.map Lot.command) = frameSize full.placeSize lots +
            (ls.map (g.shareIn full.placeSize)).sum) := by
  have written : ∀ cs : List Command, cs.Sublist g.commands →
      ∃ n, PayloadLength caseInsensitive cs n := fun cs hcs => by
    rw [← d.command] at hcs
    obtain ⟨ls, hls, rfl⟩ := List.sublist_map_iff.mp hcs
    obtain ⟨e, he, -⟩ := d.exists_without hfull hls
    exact ⟨_, payloadLength_without hnd hg d hls he⟩
  choose! len hlen using written
  have heq : ∀ {ls : List Lot} {e : Encoded}, ls.Sublist lots →
      g.encode (isRootOf (g.groupsWithout ls)) = .ok e →
      len (ls.map Lot.command) = e.bytes.length := fun hls he =>
    (hlen _ (d.command ▸ hls.map _)).unique (payloadLength_without hnd hg d hls he)
  refine ⟨len, hlen, ?_, ?_, fun ls hls => ?_⟩
  · rw [← d.command]
    exact heq (List.Sublist.refl lots) (by rwa [d.isRootOf_all])
  · obtain ⟨e, he, -⟩ := d.exists_without hfull (List.nil_sublist lots)
    exact (heq (List.nil_sublist lots) he).trans (d.length_nil (encode_eq_ok.mp hfull).1 he)
  · obtain ⟨e, he, -⟩ := d.exists_without hfull hls
    rw [heq hls he]
    exact ⟨d.length_without_le hfull hls he, fun hsize => d.length_without_eq hfull hls hsize he⟩

end Graph

/-! ## Verdicts on commands -/

/-- The command is left out because this size is past the limit, and the size is told, or it is kept
because the size is within the limit. -/
structure Serialized.Decides (out : Serialized) (limit : Nat) (c : Command) (size : Nat) :
    Prop where
  omitted : ∀ o ∈ out.omissions, o.command = c.name →
    limit < o.encodedBytes ∧ o.encodedBytes = size
  admitted : c.name ∉ out.omissions.map Omission.command → size ≤ limit

section

variable {g : Graph} {lots : List Lot} (d : g.Divided lots) {limit size : Nat} {share : Lot → Nat}
  {ws : List (Lot × Verdict)} (hws : ws.map Prod.fst = lots) (h : Judged limit share size ws)
  {w w' : Lot × Verdict}

include d hws

/-- A verdict is known by the name of the command it is on. -/
theorem Judged.eq_of_name (hw : w ∈ ws) (hw' : w' ∈ ws)
    (hname : w.1.command.name = w'.1.command.name) : w = w' := by
  have hnd := d.nodup_name
  rw [← hws, List.map_map] at hnd
  exact List.inj_on_of_nodup_map hnd hw hw' hname

include h

theorem Judged.command (hw : w ∈ ws) : w.2.group.command = w.1.command.name := by
  rw [h.group w hw]
  exact d.group_command (hws ▸ List.mem_map_of_mem hw)

variable {out : Serialized} (hout : out.omitted = (ws.map Prod.snd).filter (!·.kept))

include hout

/-- What is told of a command that was left out is the verdict on it. -/
theorem Judged.exists_of_mem {o : Omission} (ho : o ∈ out.omissions) : ∃ w ∈ ws,
    w.1.command.name = o.command ∧ w.2.projected = o.encodedBytes ∧ w.2.kept = false := by
  obtain ⟨v, hv, rfl⟩ := List.mem_map.mp ho
  rw [hout, List.mem_filter, Bool.not_eq_true'] at hv
  obtain ⟨w, hw, rfl⟩ := List.mem_map.mp hv.1
  exact ⟨w, hw, (h.command d hws hw).symm, rfl, hv.2⟩

theorem Judged.mem_omissions (hw : w ∈ ws) :
    w.1.command.name ∈ out.omissions.map Omission.command ↔ w.2.kept = false := by
  constructor
  · intro hmem
    obtain ⟨o, ho, hname⟩ := List.mem_map.mp hmem
    obtain ⟨w', hw', hname', -, hkept⟩ := h.exists_of_mem d hws hout ho
    exact Judged.eq_of_name d hws hw' hw (hname'.trans hname) ▸ hkept
  · intro hkept
    rw [out.map_command, hout, ← h.command d hws hw]
    refine List.mem_map_of_mem (List.mem_map_of_mem (List.mem_filter.mpr ⟨?_, by simp [hkept]⟩))
    exact List.mem_map_of_mem hw

theorem Judged.kept_eq {pre : List (Lot × Verdict)} (hpre : pre ⊆ ws) :
    out.kept (pre.map fun w => w.1.command) =
      (pre.filter (·.2.kept)).map fun w => w.1.command := by
  rw [Serialized.kept, List.filter_map]
  refine congrArg _ (List.filter_congr fun w hw => ?_)
  have := h.mem_omissions d hws hout (hpre hw)
  rw [← List.contains_iff_mem] at this
  rw [Function.comp_apply, Bool.eq_iff_iff, Bool.not_eq_true', Bool.eq_false_iff, Ne, this]
  simp

theorem Judged.decides (hw : w ∈ ws) : out.Decides limit w.1.command w.2.projected where
  omitted o ho hname := by
    obtain ⟨w', hw', hname', hencoded, hkept⟩ := h.exists_of_mem d hws hout ho
    obtain rfl := Judged.eq_of_name d hws hw' hw (hname'.trans hname)
    rw [← hencoded]
    refine ⟨Nat.lt_of_not_le fun hle => ?_, rfl⟩
    exact Bool.false_ne_true (hkept.symm.trans ((h.kept w' hw').mpr hle))
  admitted hname := by
    refine (h.kept w hw).mp (by_contra fun hkept => hname ?_)
    exact (h.mem_omissions d hws hout hw).mpr (Bool.eq_false_iff.mpr hkept)

/-- What decides on a command is the size of the payload with it, of the commands before it only
those that are kept. -/
theorem Judged.exists_decides {pre post : List Command} {c : Command}
    (hc : g.commands = pre ++ c :: post) : ∃ ls : List Lot, ls.Sublist lots ∧
      ls.map Lot.command = out.kept pre ++ [c] ∧
        out.Decides limit c (size + (ls.map share).sum) := by
  rw [← d.command, ← hws, List.map_map] at hc
  obtain ⟨wpre, wpost, hsplit, rfl, hwpost⟩ := List.map_eq_append_iff.mp hc
  obtain ⟨w, wpost, rfl, rfl, -⟩ := List.map_eq_cons_iff.mp hwpost
  have hw : w ∈ ws := hsplit ▸ List.mem_append_right _ List.mem_cons_self
  have hprojected : w.2.projected =
      size + (((wpre.filter (·.2.kept) ++ [w]).map Prod.fst).map share).sum := by
    rw [h.projected hsplit, List.map_map, List.map_append, List.sum_append]
    simp only [Function.comp_def, List.map_cons, List.map_nil, List.sum_cons, List.sum_nil]
    omega
  refine ⟨(wpre.filter (·.2.kept) ++ [w]).map Prod.fst, ?_, ?_, ?_⟩
  · rw [← hws, hsplit]
    exact (List.filter_sublist.append (List.singleton_sublist.mpr List.mem_cons_self)).map _
  · have hpre : wpre ⊆ ws := hsplit ▸ List.subset_append_left _ _
    have := h.kept_eq d hws hout hpre
    rw [List.map_map, List.map_append]
    exact congrArg (· ++ _) this.symm
  · rw [← hprojected]
    exact h.decides d hws hout hw

end

namespace Graph

namespace Divided

variable {g : Graph} {lots : List Lot} (d : g.Divided lots) {limit : Nat} {full : Encoded}
  (hfull : g.encode (fun _ => false) = .ok full)

include d hfull

/-- Groups are admitted by what their lots add to the payload of all, none of them being part of the
payload yet. -/
theorem verdicts_eq {vs : List Verdict} (h : g.verdicts limit full = .ok vs) :
    vs = admitGroups limit (frameSize full.placeSize lots)
      (lots.map fun x => (x.group, g.shareIn full.placeSize x)) := by
  obtain ⟨shares, hshares, h⟩ := Except.bind_eq_ok.mp h
  obtain rfl := Except.ok.inj h
  rw [d.mapM_shareOf hfull hshares, d.length_all hfull, Nat.add_sub_cancel, ← d.group,
    List.zip_map']

/-- What decides on a command is measured: the frame and the shares of the command and of those
before it that are kept. -/
theorem exists_decides {out : Serialized} (hout : g.serialize limit = .ok out)
    {pre post : List Command} {c : Command} (hc : g.commands = pre ++ c :: post) :
    ∃ ls : List Lot, ls.Sublist lots ∧ ls.map Lot.command = out.kept pre ++ [c] ∧
      out.Decides limit c
        (frameSize full.placeSize lots + (ls.map (g.shareIn full.placeSize)).sum) := by
  obtain ⟨full', hfull', hcases⟩ := serialize_eq_ok hout
  obtain rfl := Except.ok.inj (hfull.symm.trans hfull')
  rcases hcases with ⟨hle, rfl⟩ | ⟨-, vs, rest, hvs, -, hrest⟩
  · rw [d.length_all hfull] at hle
    have hsub : (pre ++ [c]).Sublist (lots.map Lot.command) := by
      rw [d.command, hc]
      exact (List.Sublist.refl pre).append (List.singleton_sublist.mpr List.mem_cons_self)
    obtain ⟨ls, hls, hmap⟩ := List.sublist_map_iff.mp hsub
    have hkept : Serialized.kept ⟨full.bytes, full.order.length, [], limit⟩ pre = pre :=
      List.filter_eq_self.mpr fun _ _ => rfl
    refine ⟨ls, hls, by rw [hkept, hmap], by simp [Serialized.omissions], fun _ => ?_⟩
    have := (hls.map (g.shareIn full.placeSize)).sum_le_sum fun _ _ => Nat.zero_le _
    omega
  · obtain ⟨ws, hws, hsnd, h⟩ := exists_judged limit (g.shareIn full.placeSize)
      (frameSize full.placeSize lots) lots
    rw [← d.verdicts_eq hfull hvs] at hsnd
    have homitted : out.omitted = (ws.map Prod.snd).filter (!·.kept) := by rw [hrest, hsnd]
    exact h.exists_decides d hws homitted hc

end Divided

end Graph

/-! ## What is promised -/

/-- What is promised of a payload within a bound, `len` being the sizes of payloads without one. The
commands that are kept of those before a command are what was admitted before it. -/
structure Serialized.Projects (out : Serialized) (g : Graph) (limit : Nat)
    (len : List Command → Nat) : Prop where
  /-- Nothing is left out if all fits. -/
  all : len g.commands ≤ limit → out.omissions = []
  /-- A size that is told is past the limit and not too small, and exact in a small graph. -/
  omitted : ∀ {pre c post}, g.commands = pre ++ c :: post → ∀ o ∈ out.omissions,
    o.command = c.name → limit < o.encodedBytes ∧ len (out.kept pre ++ [c]) ≤ o.encodedBytes ∧
      (g.size ≤ 127 → o.encodedBytes = len (out.kept pre ++ [c]))
  admitted : ∀ {pre c post}, g.commands = pre ++ c :: post →
    c.name ∉ out.omissions.map Omission.command → len (out.kept pre ++ [c]) ≤ limit
  length_le : out.bytes.length ≤ max limit 4
  exists_omitted : limit < len g.commands → g.commands ≠ [] → out.omissions ≠ []

/-- Something is kept only if all that is kept fits. -/
theorem Serialized.length_kept_le {out : Serialized} {g : Graph} {limit : Nat}
    {len : List Command → Nat} (hadmitted : ∀ {pre c post}, g.commands = pre ++ c :: post →
      c.name ∉ out.omissions.map Omission.command → len (out.kept pre ++ [c]) ≤ limit)
    (h : out.kept g.commands ≠ []) : len (out.kept g.commands) ≤ limit := by
  obtain hnil | ⟨ks, c, hkept⟩ := List.eq_nil_or_concat (out.kept g.commands)
  · exact absurd hnil h
  · rw [List.concat_eq_append] at hkept
    obtain ⟨pre, post, hcommands, rfl, hpost⟩ := List.filter_eq_append_iff.mp hkept
    obtain ⟨mid, post, rfl, hmid, hc, -⟩ := List.filter_eq_cons_iff.mp hpost
    have hmid : out.kept mid = [] := List.filter_eq_nil_iff.mpr hmid
    have hle := @hadmitted (pre ++ mid) c post (by rw [hcommands, List.append_assoc])
      fun hmem => by rw [List.contains_iff_mem.mpr hmem] at hc; exact Bool.false_ne_true hc
    rw [Serialized.kept, List.filter_append, ← Serialized.kept, ← Serialized.kept, hmid,
      List.append_nil] at hle
    rw [hkept]
    exact hle

/-- The sizes that commands are admitted by are never too small, and exact in a small graph. -/
theorem Registry.Reachable.serialize_projects {r : Registry} (h : r.Reachable) {limit : Nat}
    {out : Serialized} (hout : r.current.serialize limit = .ok out) : ∃ len : List Command → Nat,
      (∀ cs : List Command, cs.Sublist r.current.commands →
        PayloadLength r.current.caseInsensitive cs (len cs)) ∧
      out.Projects r.current limit len := by
  obtain ⟨lots, d⟩ := h.declares.exists_lots
  obtain ⟨full, hfull, hcases⟩ := Graph.serialize_eq_ok hout
  have hg := h.sound.built
  rw [← h.sound.commands_current, ← h.sound.caseInsensitive_current] at hg
  obtain ⟨len, hlen, hall, hnil, hmeasured⟩ := Graph.exists_lengths d.names hg d hfull
  have hkept : len (out.kept r.current.commands) = out.bytes.length :=
    (hlen _ List.filter_sublist).unique (Graph.payloadLength_of_serialize d.names hg hout)
  have hadmitted : ∀ {pre c post}, r.current.commands = pre ++ c :: post →
      c.name ∉ out.omissions.map Omission.command → len (out.kept pre ++ [c]) ≤ limit :=
    fun hc hname => by
      obtain ⟨ls, hls, hmap, decides⟩ := d.exists_decides hfull hout hc
      exact hmap ▸ Nat.le_trans (hmeasured ls hls).1 (decides.admitted hname)
  refine ⟨len, hlen, ?all, ?omitted, hadmitted, ?length_le, ?exists_omitted⟩
  case all =>
    intro hle
    rcases hcases with ⟨-, rfl⟩ | ⟨hlt, -⟩
    · rfl
    · omega
  case omitted =>
    intro pre c post hc o ho hname
    obtain ⟨ls, hls, hmap, decides⟩ := d.exists_decides hfull hout hc
    obtain ⟨hlt, hencoded⟩ := decides.omitted o ho hname
    obtain ⟨hle, heq⟩ := hmeasured ls hls
    rw [hmap, ← hencoded] at hle heq
    exact ⟨hlt, hle, fun hsize => (heq hsize).symm⟩
  case length_le =>
    rw [← hkept]
    by_cases hempty : out.kept r.current.commands = []
    · rw [hempty, hnil]
      exact Nat.le_max_right ..
    · exact Nat.le_trans (Serialized.length_kept_le hadmitted hempty) (Nat.le_max_left ..)
  case exists_omitted =>
    intro hlt hne hnone
    have hself : out.kept r.current.commands = r.current.commands := by
      refine List.filter_eq_self.mpr fun c _ => ?_
      rw [hnone]
      rfl
    have := Serialized.length_kept_le hadmitted (hself.symm ▸ hne)
    rw [hself] at this
    omega

/-- The first of two commands would take the payload to 75 bytes, so only the second is kept. -/
theorem Registry.sample_projects_say :
    sample.Reachable ∧ ∃ out, sample.current.serialize 40 = .ok out ∧
      out.omissions = [⟨"say", 75, 40⟩] ∧ ∃ len : List Command → Nat,
        (∀ cs : List Command, cs.Sublist sample.current.commands →
          PayloadLength sample.current.caseInsensitive cs (len cs)) ∧
        out.Projects sample.current 40 len := by
  have hout : (sample.current.serialize 40).toOption.map Serialized.omissions =
      some [⟨"say", 75, 40⟩] := by
    decide +kernel
  refine ⟨reachable_sample, ?_⟩
  cases h : sample.current.serialize 40 with
  | error fault => simp [h, Except.toOption] at hout
  | ok out =>
    have homissions : out.omissions = [⟨"say", 75, 40⟩] := by
      simpa [h, Except.toOption] using hout
    exact ⟨out, rfl, homissions, reachable_sample.serialize_projects h⟩

end CommandGrammar
