import CommandGrammar.Node.Hint
import CommandGrammar.Node.Kind
import CommandGrammar.Wire.Read

/-!
# Payloads

A payload is what a client receives: a record for every node, referring to each other by their
places, and the place of the root.

    count, records, place of the root

    record:  flags              bits 0 and 1 kind, 2 executable, 3 redirect, 4 provider
             children           count, then places
             redirect           place, if flagged
             name               unless root
             parser             identifier and properties, of an argument
             provider           of an argument, if flagged

Counts and places are variable-length integers. The properties of a parser have no length of their
own; a reader knows for each parser how long they are, so it has to know the parser.
-/

namespace CommandGrammar

/-- What a record says beyond its flags and references. -/
inductive Body
  | root
  | literal (name : String)
  | argument (name parser : String) (properties : List UInt8) (provider : Option String)
  deriving DecidableEq, Repr

namespace Body

/-- What kind of node it is. -/
def kind : Body → NodeKind
  | root => .root
  | literal _ => .literal
  | argument .. => .argument

/-- The name, which only a root lacks. -/
def name? : Body → Option String
  | root => none
  | literal name | argument name .. => some name

/-- The parser's identifier, of an argument. -/
def parser? : Body → Option String
  | argument _ parser .. => some parser
  | _ => none

/-- The parser's properties, none unless it is an argument. -/
def properties : Body → List UInt8
  | argument _ _ properties _ => properties
  | _ => []

/-- The provider of suggestions, of an argument. -/
def provider? : Body → Option String
  | argument _ _ _ provider => provider
  | _ => none

end Body

/-- The entry of one node. -/
structure Record where
  executable : Bool
  children : List Nat
  redirect : Option Nat
  body : Body
  deriving DecidableEq, Repr

/-- The entries of all nodes, and the place of the root. -/
structure Payload where
  records : List Record
  root : Nat
  deriving DecidableEq, Repr

/-! ## Writing -/

namespace Body

/-- The fields of a body. -/
def encode : Body → Except Inconsistency (List UInt8)
  | root => .ok []
  | literal name => Write.text name
  | argument name parser properties provider => do
    let name ← Write.text name
    let parser ← Write.text parser
    let provider ← provider.toList.mapM Write.text
    return name ++ parser ++ properties ++ provider.flatten

end Body

namespace Record

/-- Kind and flags. -/
def flags (r : Record) : Nat :=
  r.body.kind.tag + (if r.executable then 4 else 0) + (if r.redirect.isSome then 8 else 0) +
    (if r.body.provider?.isSome then 16 else 0)

/-- The bytes of a record. -/
def encode (r : Record) : Except Inconsistency (List UInt8) := do
  let count ← Write.length r.children.length
  let children ← r.children.mapM Write.length
  let redirect ← r.redirect.toList.mapM Write.length
  let body ← r.body.encode
  return UInt8.ofNat r.flags :: (count ++ children.flatten ++ redirect.flatten ++ body)

end Record

namespace Payload

/-- The bytes of a payload whose records have these bytes. -/
def assemble (records : List (List UInt8)) (root : Nat) : Except Inconsistency (List UInt8) := do
  return (← Write.length records.length) ++ records.flatten ++ (← Write.length root)

end Payload

/-! ## Reading -/

/-- A value that is there if a flag is set. -/
def Reading.flagged {α : Type} (flag : Bool) (r : Reading α) : Reading (Option α) :=
  if flag then some <$> r else return none

/-- The properties of a parser. The number of a mode is taken in any form and given in the
shortest. -/
def Hint.readProperties (parser : String) : Reading (List UInt8) :=
  if parser = textParser then
    VarInt.encode <$> Reading.varInt
  else if parser = booleanParser then
    return []
  else if parser = integerParser then do
    let flags ← Reading.byte
    let min ← Reading.flagged (flags.toNat.testBit 0) Reading.int32
    let max ← Reading.flagged (flags.toNat.testBit 1) Reading.int32
    return flags :: (min.toList ++ max.toList).flatMap Write.int32
  else
    throw (.unknownParser parser)

/-- A body of this kind, `hasProvider` being the flag of a provider. -/
def Body.read (kind : NodeKind) (hasProvider : Bool) : Reading Body :=
  match kind with
  | .root => return .root
  | .literal => Body.literal <$> Reading.text
  | .argument => do
    let name ← Reading.text
    let parser ← Reading.text
    let properties ← Hint.readProperties parser
    let provider ← Reading.flagged hasProvider Reading.text
    return .argument name parser properties provider

/-- A record. -/
def Record.read : Reading Record := do
  let flags ← Reading.byte
  match NodeKind.ofTag? (flags.toNat % 4) with
  | none => throw (.unknownNodeType flags)
  | some kind =>
    let children ← Reading.replicate (← Reading.length) Reading.length
    let redirect ← Reading.flagged (flags.toNat.testBit 3) Reading.length
    let body ← Body.read kind (flags.toNat.testBit 4)
    return { executable := flags.toNat.testBit 2, children, redirect, body }

namespace Payload

/-- A payload, whatever its references. -/
def read : Reading Payload := do
  let records ← Reading.replicate (← Reading.length) Record.read
  return { records, root := ← Reading.length }

/-- The root, the children and the redirects are places of records. -/
def inRange (p : Payload) : Bool :=
  p.root < p.records.length &&
    p.records.all fun r => (r.children ++ r.redirect.toList).all (· < p.records.length)

/-- The payload that the bytes are, no more and no less. -/
def decode (bytes : List UInt8) : Except Malformed Payload :=
  match read.run bytes with
  | .error fault _ => .error fault
  | .ok p [] => if p.inRange then .ok p else .error .indexOutOfRange
  | .ok _ (b :: left) => .error (.trailingBytes (b :: left).length)

/-- The records of the children of the record at a place, of which there are none past the end. -/
def children (p : Payload) (place : Nat) : List Record :=
  match p.records[place]? with
  | some r => r.children.filterMap (p.records[·]?)
  | none => []

end Payload

end CommandGrammar
