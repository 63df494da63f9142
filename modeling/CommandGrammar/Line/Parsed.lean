import CommandGrammar.Graph.Basic
import CommandGrammar.Line.Cursor

/-!
# Reading command lines

A line names a command, after one optional slash, and goes on as one of the command's usages says.
Usages are tried in the order of their declaration, and the first that reads the whole line gives
the values. If none does, the line is rejected for the reason of the usage that read the most
arguments, and of several such for that of the first.
-/

namespace CommandGrammar

/-- Values by the ids of their arguments. -/
abbrev Bindings := List (String × Value)

namespace Bindings

/-- The bindings with this value under the id, in place of any other. -/
def insert (bs : Bindings) (id : String) (v : Value) : Bindings :=
  bs.filter (·.1 ≠ id) ++ [(id, v)]

/-- The value under an id. -/
def get? (bs : Bindings) (id : String) : Option Value :=
  bs.lookup id

end Bindings

/-- A usage that does not read the line: how many arguments it read, and what it rejects then. -/
structure Mismatch where
  progress : Nat
  rejection : Rejection

namespace Usage

/-- Reads a line to its end as these arguments, after `progress` others with values `found`. -/
@[simp] def readFrom (progress : Nat) (found : Bindings) :
    List Argument → Cursor → Except Mismatch Bindings
  | [], c =>
    if c.isDone then .ok found else .error ⟨progress, ⟨.trailingInput, c.remaining⟩⟩
  | a :: rest, c =>
    match c.take? a.span with
    | none => .error ⟨progress, ⟨.missingArgument a.id, ""⟩⟩
    | some (text, c) =>
      match a.read text with
      | .error rejection => .error ⟨progress, rejection⟩
      | .ok v => readFrom (progress + 1) (found.insert a.id v) rest c

/-- Reads a line to its end as this usage. -/
def read (u : Usage) (c : Cursor) : Except Mismatch Bindings :=
  readFrom 0 [] u.arguments c

end Usage

/-- The mismatch with more progress, and of two with as much the first. -/
def Mismatch.furthest (best : Option Mismatch) (m : Mismatch) : Mismatch :=
  match best with
  | none => m
  | some best => if best.progress < m.progress then m else best

/-- A line that was read: the command's name, the number of its usage unless the name was all, and
the values. -/
structure Parsed where
  command : String
  usage : Option Nat := none
  values : Bindings := []

namespace Command

/-- Reads a line to its end as the first of these usages that can. `index` is the number of the
first of them, and `best` the furthest mismatch of those before. -/
@[simp] def readUsages (c : Cursor) (index : Nat) (best : Option Mismatch) :
    List Usage → Except (Option Mismatch) (Nat × Bindings)
  | [] => .error best
  | u :: us =>
    match u.read c with
    | .ok values => .ok (index, values)
    | .error m => readUsages c (index + 1) (some (Mismatch.furthest best m)) us

/-- Reads what follows the command's name, which is not nothing. -/
def readArguments (command : Command) (c : Cursor) : Except Rejection Parsed :=
  match readUsages c 0 none command.usages with
  | .ok (index, values) => .ok ⟨command.name, some index, values⟩
  | .error (some m) => .error m.rejection
  | .error none => .error ⟨.takesNoArguments, c.remaining⟩

end Command

/-- The line without one slash before it. -/
def dropSlash : List Char → List Char
  | '/' :: cs => cs
  | cs => cs

/-- Reads a line as one of the graph's commands. -/
def Graph.read (g : Graph) (line : String) : Except Rejection Parsed :=
  match (Cursor.mk 0 (dropSlash line.toList)).take? .single with
  | none | some ("", _) => .error ⟨.emptyLine, line⟩
  | some (name, c) =>
    match g.find? name with
    | none => .error ⟨.unknownCommand, name⟩
    | some command =>
      if !c.isDone then command.readArguments c
      else if command.runnable then .ok { command := command.name }
      else .error ⟨.missingArguments, line⟩

end CommandGrammar
