import CommandGrammar.Payload.Numbering
import CommandGrammar.Error.Omission
import CommandGrammar.Payload.Record

/-!
# Serializing graphs within a bound

The whole graph is serialized if its payload keeps to the bound. Otherwise the size of each
command's share is measured, and commands are admitted in the order of their registration: one that
would take the payload past the bound is left out, and those after it still get their chance. Size
never makes serialization fail; what was left out is told.

Shares are measured in the payload of the whole graph. Places only get smaller when commands are
left out, so a share is never measured too small.
-/

namespace CommandGrammar

namespace Node

/-- What the record of a node says beyond flags and references. -/
def body (n : Node) : Body :=
  match n.label with
  | none => .root
  | some ⟨.argument hint, name, _⟩ => .argument name hint.identifier hint.properties n.provider
  | some ⟨.literal, name, _⟩ | some ⟨.choice _, name, _⟩ => .literal name

/-- The record of a node, its references being places in the order. -/
def record (n : Node) (order : List Nat) (skip : Nat → Bool) : Except Inconsistency Record := do
  let children ← (n.children.filter (!skip ·)).mapM (placeOf order)
  let redirect ← n.redirect.mapM (placeOf order)
  return { executable := n.executable, children, redirect, body := n.body }

end Node

namespace Graph

/-- The record of an id. -/
def recordOf (g : Graph) (order : List Nat) (skip : Nat → Bool) (id : Nat) :
    Except Inconsistency Record :=
  match g.node? id with
  | some n => n.record order skip
  | none => .error (.noSuchNode id)

/-- The records of all ids of the order. -/
def payload (g : Graph) (order : List Nat) (skip : Nat → Bool) : Except Inconsistency Payload := do
  return { records := ← order.mapM (g.recordOf order skip), root := ← placeOf order root }

end Graph

/-- A payload as bytes: the ids in the order of their records, the bytes of each record, and all. -/
structure Encoded where
  order : List Nat
  records : List (List UInt8)
  bytes : List UInt8

/-- The payload of a graph as bytes, without the children to be skipped. -/
def Graph.encode (g : Graph) (skip : Nat → Bool) : Except Inconsistency Encoded := do
  let order ← g.numbering skip
  let payload ← g.payload order skip
  let records ← payload.records.mapM Record.encode
  return { order, records, bytes := ← Payload.assemble records payload.root }

namespace Encoded

/-- The size of the record of an id. -/
def recordSize (e : Encoded) (id : Nat) : Except Inconsistency Nat := do
  match e.records[← placeOf e.order id]? with
  | some record => return record.length
  | none => throw (.notNumbered id)

/-- The size of the place of an id. -/
def placeSize (e : Encoded) (id : Nat) : Nat :=
  VarInt.size (Int32.ofNat ((e.order.idxOf? id).getD 0))

end Encoded

/-- What a group adds to a payload: the places of its literals in the list of the root's children,
and the records of all that they lead to. -/
def Graph.shareOf (g : Graph) (e : Encoded) (group : Group) : Except Inconsistency Nat := do
  let members ← g.walk (fun _ => false) [] group.roots
  let sizes ← members.mapM e.recordSize
  return (group.roots.map e.placeSize).sum + sizes.sum

/-- What became of a group: its share, and the size of the payload with it. -/
structure Verdict where
  group : Group
  share : Nat
  projected : Nat
  kept : Bool
  deriving DecidableEq, Repr

/-- Admits groups one after another, `size` being the size of the payload so far. -/
@[simp] def admitGroups (limit size : Nat) : List (Group × Nat) → List Verdict
  | [] => []
  | (group, share) :: rest =>
    if size + share ≤ limit then
      ⟨group, share, size + share, true⟩ :: admitGroups limit (size + share) rest
    else
      ⟨group, share, size + share, false⟩ :: admitGroups limit size rest

/-- A payload as bytes that keeps to a bound, or has nothing left that could be left out. -/
structure Serialized where
  bytes : List UInt8
  nodeCount : Nat
  /-- The groups that were left out. -/
  omitted : List Verdict
  limit : Nat

/-- The commands that were left out. -/
def Serialized.omissions (s : Serialized) : List Omission :=
  s.omitted.map fun v => ⟨v.group.command, v.projected, s.limit⟩

namespace Graph

/-- What becomes of each group if the payload of all, `full`, is too large. What belongs to no group
is always part of the payload. -/
def verdicts (g : Graph) (limit : Nat) (full : Encoded) : Except Inconsistency (List Verdict) := do
  let shares ← g.groups.mapM (g.shareOf full)
  return admitGroups limit (full.bytes.length - shares.sum) (g.groups.zip shares)

/-- The payload without the literals of groups that were left out. -/
def encodeWithout (g : Graph) (omitted : List Verdict) : Except Inconsistency Encoded :=
  g.encode fun id => omitted.any (·.group.roots.contains id)

/-- The graph's payload, without commands that would take it past `limit` bytes. -/
def serialize (g : Graph) (limit : Nat) : Except Inconsistency Serialized := do
  let full ← g.encode fun _ => false
  if full.bytes.length ≤ limit then
    return { bytes := full.bytes, nodeCount := full.order.length, omitted := [], limit }
  else
    let omitted := (← g.verdicts limit full).filter (!·.kept)
    let rest ← g.encodeWithout omitted
    return { bytes := rest.bytes, nodeCount := rest.order.length, omitted, limit }

end Graph

end CommandGrammar
