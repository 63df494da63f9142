import CommandGrammar.Proofs.Graph.Declared
import CommandGrammar.Proofs.Line.Read
import CommandGrammar.Proofs.Registry.Reachable

/-!
# Lines and graphs agree

A line is read by the definitions of the commands, and what may be typed is shown by the nodes of
the graph. For every reachable registry the two agree.

From graph to line: whoever follows a path below a literal of the root, alias or not, to a node at
which a command may end, and types for each node what its name or its hint admits, has typed a line
that is read as the command of that literal (`Registry.Reachable.read_of_declared`).

From line to graph: whoever typed a line that is read has followed such a path. Each piece of the
line stands at the node that its argument put there, and the path ends where the line does
(`Registry.Reachable.declared_of_read`).
-/

namespace CommandGrammar

open Nodes

namespace Graph

/-- The literal below which a line goes on after this one: itself, unless it redirects. -/
def mainOf (g : Graph) (id : Nat) : Nat :=
  ((g.node? id).bind Node.redirect).getD id

/-- A command may end at this id. -/
def EndsAt (g : Graph) (id : Nat) : Prop :=
  (g.node? id).any Node.executable

/-- What may be typed at this id. -/
def Admits (g : Graph) (id : Nat) (text : String) : Prop :=
  ∃ l ∈ (g.node? id).bind Node.label, l.Admits text

variable {g : Graph} {id : Nat} {l : Label}

theorem endsAt_iff (h : labelOf g.nodes id = some l) : g.EndsAt id ↔ l.executable := by
  obtain ⟨n, hn, hl⟩ := Option.bind_eq_some_iff.mp h
  rw [EndsAt, show g.node? id = some n from hn]
  simp [Node.executable, hl]

theorem admits_labels :
    ∀ {xs : List Nat} {ls : List Label} {texts : List String},
      List.Forall₂ (fun x l => labelOf g.nodes x = some l) xs ls →
      List.Forall₂ g.Admits xs texts → List.Forall₂ Label.Admits ls texts
  | _, _, _, .nil, .nil => .nil
  | _, _, _, .cons hl hls, .cons ⟨_, hl', hadmits⟩ hrest => by
    obtain rfl := Option.some.inj (hl.symm.trans hl')
    exact .cons hadmits (admits_labels hls hrest)

end Graph

/-- The line of a name and texts. -/
def commandLine (name : String) (texts : List String) : String :=
  String.ofList ('/' :: (name.toList ++ spaced texts))

/-- A name that is a token is taken from the line that was put together with it. -/
theorem take?_commandLine {name : String} (h : IsToken name) (texts : List String) :
    ∃ d, (Graph.lineStart (commandLine name texts)).take? .single = some (name, d) ∧
      d.rest = (spaced texts).tail := by
  have hrest : (Graph.lineStart (commandLine name texts)).rest = name.toList ++ spaced texts := by
    rw [Graph.lineStart, commandLine, String.toList_ofList]
    rfl
  exact ⟨_, Cursor.take?_of_cut h.1 hrest (Span.cutToken_append h.2 (ends_spaced texts)),
    Cursor.rest_advance_of_ends (ends_spaced texts)⟩

/-! ## From the graph to the line -/

/-- All nodes of an argument are executable, or none is. -/
theorem Argument.executable_of_mem {a : Argument} {executable : Bool} {c : Contribution}
    (h : c ∈ a.contributions executable) : c.label.executable = executable := by
  cases a with
  | word w =>
    rw [contributions, Word.contributions] at h
    split at h
    · rw [List.mem_singleton.mp h]
      rfl
    · obtain ⟨name, -, rfl⟩ := List.mem_map.mp h
      rfl
  | literal name => rw [List.mem_singleton.mp h]; rfl
  | phrase p => rw [List.mem_singleton.mp h]; rfl
  | boolean id => rw [List.mem_singleton.mp h]; rfl
  | number n => rw [List.mem_singleton.mp h]; rfl

namespace Usage

/-- Labels that end where a command may end are of all arguments. -/
theorem length_of_spells :
    ∀ {args : List Argument} {ls : List Label} {l : Label}, Spells args ls →
      ls.getLast? = some l → l.executable → ls.length = args.length
  | _, [], _, _, hlast, _ => by simp at hlast
  | a :: args, l :: ls, last, hs, hlast, he => by
    obtain ⟨⟨c, hc, hl⟩, hs⟩ := hs
    cases ls with
    | nil =>
      have heq : l = last := by simpa using hlast
      rw [← heq, hl, Argument.executable_of_mem hc] at he
      simp [List.isEmpty_iff.mp he]
    | cons l' ls =>
      rw [List.getLast?_cons_cons] at hlast
      exact congrArg (· + 1) (length_of_spells hs hlast he)

/-- Arguments take what the labels that they spell admit. -/
theorem takes_of_spells :
    ∀ {args : List Argument} {ls : List Label} {texts : List String},
      (∀ a ∈ args, IsToken a.id) → Spells args ls → ls.length = args.length →
      List.Forall₂ Label.Admits ls texts → List.Forall₂ Argument.Takes args texts
  | [], [], _, _, _, _, .nil => .nil
  | a :: args, l :: ls, _, hid, ⟨⟨c, hc, hl⟩, hs⟩, hlen, .cons hadmits hrest => by
    subst hl
    exact .cons (Argument.takes_of_admits (hid a (by simp)) hc hadmits)
      (takes_of_spells (fun b hb => hid b (by simp [hb])) hs (Nat.succ.inj hlen) hrest)

end Usage

/-- What a usage spells to its end is read as the command, and is not nothing. -/
theorem Command.readArguments_of_spells {c : Command} {u : Usage} (hu : u ∈ c.usages)
    {ls : List Label} {l : Label} {texts : List String} {d : Cursor}
    (hs : Usage.Spells u.arguments ls) (hlast : ls.getLast? = some l) (he : l.executable)
    (hadmits : List.Forall₂ Label.Admits ls texts) (hd : d.rest = (spaced texts).tail) :
    d.isDone = false ∧ ∃ p, c.readArguments d = .ok p ∧ p.command = c.name := by
  have hv := c.valid.usages u hu
  have takes := Usage.takes_of_spells hv.ids hs (Usage.length_of_spells hs hlast he) hadmits
  obtain ⟨values, hread⟩ : ∃ values, u.read d = .ok values :=
    Usage.readFrom_of_takes hv.greedyLast takes hd
  obtain ⟨i, values, husages⟩ := readUsages_of_mem hread 0 none hu
  refine ⟨?_, ⟨c.name, some i, values⟩, by rw [readArguments, husages], rfl⟩
  generalize u.arguments = args at takes
  cases takes with
  | nil => simp [List.forall₂_nil_right_iff.mp hadmits] at hlast
  | cons ht _ => simp [Cursor.isDone, hd, spaced, ht.nonempty]

/-- A line that is put together from a path below a literal, and from texts that its nodes admit, is
read as the command of the literal. -/
theorem Registry.Reachable.read_of_declared {r : Registry} (h : r.Reachable) {l : Nat}
    {xs : List Nat} {texts : List String} (hl : l ∈ r.current.children Graph.root)
    (hxs : Leads r.current.nodes (r.current.mainOf l) xs)
    (hend : r.current.EndsAt (xs.getLastD (r.current.mainOf l)))
    (htexts : List.Forall₂ r.current.Admits xs texts) :
    ∃ group ∈ r.current.groups, l ∈ group.roots ∧
      group.roots.head? = some (r.current.mainOf l) ∧
      r.current.nameOf (r.current.mainOf l) = group.command ∧
      ∃ p, r.current.read (commandLine (r.current.nameOf l) texts) = .ok p ∧
        p.command = group.command := by
  have declares := h.declares
  obtain ⟨c, hc, main, next, others, plot, hgroup, hmem⟩ := declares.plot_of_child hl
  obtain ⟨name, hname, hlabel⟩ := plot.label_of_mem hmem
  have hmain : r.current.mainOf l = main := plot.redirect_literal hmem
  have hnameOf : r.current.nameOf l = name := Graph.nameOf_eq hlabel
  rw [hmain] at hxs hend ⊢
  rw [hnameOf]
  refine ⟨_, hgroup, hmem, rfl, Graph.nameOf_eq plot.label, ?_⟩
  have htoken := c.valid.names name hname
  obtain ⟨d, htake, hd⟩ := take?_commandLine htoken texts
  have hfind := h.sound.find?_eq_some hc (answersTo_iff.mpr ⟨name, hname, rfl⟩)
  rw [Graph.read_of_take? htoken.1 htake hfind]
  obtain ⟨ls, hpath, hls⟩ := exists_path declares.tree hxs
  have hadmits := Graph.admits_labels hls htexts
  rcases hpath.eq_nil_or_concat with ⟨rfl, hx⟩ | ⟨ls', last, q, rfl, -, he⟩
  · obtain rfl := List.forall₂_nil_left_iff.mp hadmits
    rw [hx, Graph.endsAt_iff plot.label] at hend
    have hrunnable : c.runnable = true := hend
    have hdone : d.isDone = true := by
      rw [Cursor.isDone, hd]
      rfl
    rw [hdone, hrunnable]
    exact ⟨_, rfl, rfl⟩
  · obtain ⟨u, hu, hs⟩ := (plot.only _ _ hpath).resolve_left (by simp)
    obtain ⟨hdone, p, hp, hcommand⟩ := c.readArguments_of_spells hu hs (List.getLast?_concat)
      ((Graph.endsAt_iff he.2).mp hend) hadmits hd
    rw [hdone]
    exact ⟨p, hp, hcommand⟩

/-- An alias, a truth value in capitals and a quote inside quotes. -/
theorem Registry.sample_reads_tell :
    sample.Reachable ∧ 5 ∈ sample.current.children Graph.root ∧
      Leads sample.current.nodes (sample.current.mainOf 5) [2, 3, 4] ∧
      sample.current.EndsAt ([2, 3, 4].getLastD (sample.current.mainOf 5)) ∧
      List.Forall₂ sample.current.Admits [2, 3, 4] ["to", "TRUE", "\"a \\\"b\""] ∧
      ∃ p, sample.current.read "/tell to TRUE \"a \\\"b\"" = .ok p ∧ p.command = "say" := by
  have hl : 5 ∈ sample.current.children Graph.root := by decide +kernel
  have hxs : Leads sample.current.nodes (sample.current.mainOf 5) [2, 3, 4] := by
    have hm : sample.current.mainOf 5 = 1 := by decide +kernel
    rw [hm]
    refine ⟨?_, ?_, ?_, trivial⟩ <;> decide +kernel
  have hend : sample.current.EndsAt ([2, 3, 4].getLastD (sample.current.mainOf 5)) := by
    unfold Graph.EndsAt
    decide +kernel
  have htexts : List.Forall₂ sample.current.Admits [2, 3, 4] ["to", "TRUE", "\"a \\\"b\""] := by
    refine .cons ⟨_, rfl, rfl⟩ (.cons ⟨_, rfl, ?_⟩ (.cons ⟨_, rfl, ?_⟩ .nil))
    · exact .boolean rfl (.inl (by decide +kernel))
    · exact .text rfl rfl (.inr (.inl ⟨rfl, .inr ⟨"a \"b".toList, by decide +kernel⟩⟩))
  obtain ⟨group, -, -, -, hname, p, hp, hc⟩ :=
    reachable_sample.read_of_declared hl hxs hend htexts
  have hn : sample.current.nameOf (sample.current.mainOf 5) = "say" := by decide +kernel
  have hline : commandLine (sample.current.nameOf 5) ["to", "TRUE", "\"a \\\"b\""] =
    "/tell to TRUE \"a \\\"b\"" := by decide +kernel
  exact ⟨reachable_sample, hl, hxs, hend, htexts, p, hline ▸ hp, hc.trans (hname.symm.trans hn)⟩

/-! ## From the line to the graph -/

namespace Argument

/-- The hint of the one node that declares the argument, unless literals declare it. -/
def hint? : Argument → Option Hint
  | literal _ => none
  | word w => if w.isRestricted then none else some (.text .word)
  | phrase p => some p.hint
  | boolean _ => some .boolean
  | number n => some n.hint

/-- A node with this label stands for the argument where the text was typed: the literal of the
text, for a restricted word in any case, or the node of the argument. -/
def StandsAt (a : Argument) (text : String) (l : Label) : Prop :=
  match a.hint?, a with
  | some hint, _ => l.shape = .argument hint ∧ l.name = a.id
  | none, word _ => l.shape.kind = .literal ∧ eqIgnoreCase text l.name
  | none, _ => l.shape.kind = .literal ∧ l.name = text

/-- A word that is read stands at one of the nodes that it is declared as. -/
theorem exists_standsAt_word {w : Word} {text token : String} (h : w.read text = .ok token)
    (executable : Bool) : ∃ c ∈ w.contributions executable, (word w).StandsAt text c.label := by
  unfold Word.contributions
  cases hw : w.choiceList with
  | nil =>
    have hfree : w.isRestricted = false := by simp [Word.isRestricted, hw]
    refine ⟨_, List.mem_singleton_self _, ?_⟩
    simp only [StandsAt, hint?, hfree]
    exact ⟨rfl, rfl⟩
  | cons d ds =>
    have hrestricted : w.isRestricted = true := by simp [Word.isRestricted, hw]
    obtain ⟨name, hname, heq⟩ : ∃ name ∈ w.choiceList, eqIgnoreCase text name := by
      unfold Word.read at h
      split at h
      · simp at h
      · split at h
        · simp at h
        · next hknown => simpa [hrestricted] using hknown
    refine ⟨_, List.mem_map_of_mem (hw ▸ hname), ?_⟩
    simp only [StandsAt, hint?, hrestricted]
    exact ⟨rfl, heq⟩

/-- What an argument accepts stands at one of the nodes that it contributes. -/
theorem exists_standsAt {a : Argument} {text : String} {v : Value} (h : a.value text = .ok v)
    (executable : Bool) : ∃ c ∈ a.contributions executable, a.StandsAt text c.label := by
  cases a with
  | literal name =>
    obtain ⟨_, hread, -⟩ := Except.map_eq_ok.mp h
    unfold readLiteral at hread
    split at hread
    · next heq => exact ⟨_, List.mem_singleton_self _, rfl, heq.symm⟩
    · simp at hread
  | word w =>
    obtain ⟨_, hread, -⟩ := Except.map_eq_ok.mp h
    exact exists_standsAt_word hread executable
  | phrase p => exact ⟨_, List.mem_singleton_self _, rfl, rfl⟩
  | boolean id => exact ⟨_, List.mem_singleton_self _, rfl, rfl⟩
  | number n => exact ⟨_, List.mem_singleton_self _, rfl, rfl⟩

end Argument

/-- The path from `p` leads past a node for each argument, which stands for it where the text was
typed, and comes to where a command may end with the last argument and not before. -/
inductive Follows (ns : Array Node) : (p : Nat) → List Argument → List String → List Nat → Prop
  | nil (p : Nat) : Follows ns p [] [] []
  | cons {p x : Nat} {l : Label} {a : Argument} {args : List Argument} {text : String}
      {texts : List String} {xs : List Nat} : Edge ns p l x → l.executable = args.isEmpty →
      a.StandsAt text l → Follows ns x args texts xs →
      Follows ns p (a :: args) (text :: texts) (x :: xs)

/-- Some choice of labels that the arguments spell stands for the texts that they accept. -/
theorem Usage.exists_follows :
    ∀ {args : List Argument} {texts : List String},
      List.Forall₂ (fun a text => ∃ v, a.read text = .ok v) args texts →
      ∃ ls, Spells args ls ∧ ∀ {ns : Array Node} {p x : Nat}, Path ns p ls x →
        ∃ xs, Follows ns p args texts xs
  | _, _, .nil => ⟨[], trivial, fun _ => ⟨[], .nil _⟩⟩
  | a :: args, text :: texts, .cons ⟨v, hv⟩ hrest => by
    obtain ⟨c, hc, hstands⟩ := Argument.exists_standsAt (Argument.value_of_read hv) args.isEmpty
    obtain ⟨ls, hls, hfollows⟩ := exists_follows hrest
    refine ⟨c.label :: ls, ⟨⟨c, hc, rfl⟩, hls⟩, fun {ns p x} ⟨q, he, hp⟩ => ?_⟩
    obtain ⟨xs, hxs⟩ := hfollows hp
    exact ⟨q :: xs, .cons he (Argument.executable_of_mem hc) hstands hxs⟩

/-- A command may end where all arguments of a usage were followed. -/
theorem Follows.endsAt {g : Graph} {p : Nat} {args : List Argument} {texts : List String}
    {xs : List Nat} (h : Follows g.nodes p args texts xs) (hne : args ≠ []) :
    g.EndsAt (xs.getLastD p) := by
  induction h with
  | nil => exact absurd rfl hne
  | @cons p x l a args text texts xs he hexec hstands hrest ih =>
    rw [List.getLastD_cons]
    cases args with
    | nil =>
      cases hrest
      exact (Graph.endsAt_iff he.2).mpr hexec
    | cons b args => exact ih (List.cons_ne_nil b args)

/-- The arguments of the usage of this number; those of the name alone are none. -/
def Command.argumentsOf (c : Command) : Option Nat → Option (List Argument)
  | none => some []
  | some i => c.usages[i]?.map Usage.arguments

/-- A line that a command reads after its name is accepted piece by piece by the arguments of a
usage, or ends there and the command may. -/
theorem Command.accepts_of_read {c : Command} {line : String} {d : Cursor} {p : Parsed}
    (h : (if !d.isDone then c.readArguments d
      else if c.runnable then .ok { command := c.name }
      else .error ⟨.missingArguments, line⟩) = .ok p) :
    p.command = c.name ∧ ∃ args, c.argumentsOf p.usage = some args ∧
      List.Forall₂ (fun a text => ∃ v, a.read text = .ok v) args
        (d.pieces (args.map Argument.span)) ∧
      (args = [] ∧ c.runnable ∨ ∃ u ∈ c.usages, u.arguments = args) := by
  rcases cases_of_read h with ⟨-, hrunnable, rfl⟩ | ⟨-, i, u, values, hi, hread, rfl⟩
  · exact ⟨rfl, [], rfl, .nil, .inl ⟨rfl, hrunnable⟩⟩
  · refine ⟨rfl, u.arguments, ?_, Usage.accepts_of_readFrom hread,
      .inr ⟨u, List.mem_of_getElem? hi, rfl⟩⟩
    rw [argumentsOf, hi, Option.map_some]

/-- The line goes where the graph leads: from a child of the root with the typed name, which is the
main literal of the command or redirects to it, along nodes that stand for the arguments of the
usage where their pieces of the line were typed, to a node at which the command may end. -/
def Graph.Traces (g : Graph) (line : String) (p : Parsed) : Prop :=
  ∃ c ∈ g.commands, c.name = p.command ∧
    ∃ main others, ⟨c.name, main :: others⟩ ∈ g.groups ∧
    ∃ args name texts xs, c.argumentsOf p.usage = some args ∧
      (lineStart line).pieces (.single :: args.map Argument.span) = name :: texts ∧
      (∃ l ∈ g.children root, ∃ n, g.node? l = some n ∧ n.kind = .literal ∧
        sameName g.caseInsensitive n.name name ∧ (l = main ∨ n.redirect = some main)) ∧
      Follows g.nodes main args texts xs ∧ g.EndsAt (xs.getLastD main)

/-- Every line that is read goes where the graph leads. -/
theorem Registry.Reachable.declared_of_read {r : Registry} (h : r.Reachable) {line : String}
    {p : Parsed} (hread : r.current.read line = .ok p) : r.current.Traces line p := by
  obtain ⟨name, d, c, hne, htake, hfind⟩ := Graph.take?_of_read hread
  obtain ⟨hc, hanswers⟩ := Graph.mem_of_find? hfind
  obtain ⟨n, hn, hsame⟩ := answersTo_iff.mp hanswers
  obtain ⟨main, next, others, plot, hgroup⟩ := h.declares.plot_of_command hc
  obtain ⟨l, hl, hlabel, hmain⟩ := plot.exists_literal hn
  obtain ⟨hcommand, args, hargs, haccepts, hend⟩ :=
    c.accepts_of_read ((Graph.read_of_take? hne htake hfind).symm.trans hread)
  obtain ⟨ls, hspells, hfollows⟩ := Usage.exists_follows haccepts
  obtain ⟨xs, hxs, hends⟩ : ∃ xs,
      Follows r.current.nodes main args (d.pieces (args.map Argument.span)) xs ∧
        r.current.EndsAt (xs.getLastD main) := by
    rcases hend with ⟨rfl, hrunnable⟩ | ⟨u, hu, rfl⟩
    · exact ⟨[], .nil main, (Graph.endsAt_iff plot.label).mpr hrunnable⟩
    · obtain ⟨x, hpath⟩ := plot.paths u hu ls hspells
      obtain ⟨xs, hxs⟩ := hfollows hpath
      exact ⟨xs, hxs, hxs.endsAt u.nonempty⟩
  obtain ⟨node, hnode, hnodeLabel⟩ := Option.bind_eq_some_iff.mp hlabel
  refine ⟨c, hc, hcommand.symm, main, others, hgroup, args, name, _, xs, hargs,
    Cursor.pieces_cons htake, ⟨l, h.declares.child_of_mem hgroup hl, node, hnode, ?_, ?_, ?_⟩, hxs,
    hends⟩
  · simp [Node.kind, hnodeLabel, Command.nameLabel, Contribution.literal, Shape.kind]
  · rw [sameName_iff, Node.name, Node.name?, hnodeLabel]
    exact hsame
  · exact hmain.imp_right fun hr => (redirectOf_eq hnode).symm.trans hr

/-- A name in capitals, and a space inside quotes. -/
theorem Registry.sample_traces_tell :
    sample.Reachable ∧ ∃ p, sample.current.read "TELL to tRue \"a b\"" = .ok p ∧
      p.usage = some 0 ∧ p.values.length = 3 ∧
      sample.current.Traces "TELL to tRue \"a b\"" p := by
  have hread : (sample.current.read "TELL to tRue \"a b\"").toOption.map
      (fun p => (p.usage, p.values.length)) = some (some 0, 3) := by decide +kernel
  refine ⟨reachable_sample, ?_⟩
  cases h : sample.current.read "TELL to tRue \"a b\"" with
  | error rejection => simp [h, Except.toOption] at hread
  | ok p =>
    obtain ⟨husage, hvalues⟩ : p.usage = some 0 ∧ p.values.length = 3 := by
      simpa [h, Except.toOption] using hread
    exact ⟨p, rfl, husage, hvalues, reachable_sample.declared_of_read h⟩

end CommandGrammar
