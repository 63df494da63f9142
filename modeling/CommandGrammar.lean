import CommandGrammar.Line.Parsed
import CommandGrammar.Registry.Event
import CommandGrammar.Wire.Item
import CommandGrammar.Proofs.Wire.Attempts
import CommandGrammar.Proofs.Wire.Sequence
import CommandGrammar.Proofs.Argument.Bounds
import CommandGrammar.Proofs.Argument.Caseless
import CommandGrammar.Proofs.Argument.Escapes
import CommandGrammar.Proofs.Command.Faults
import CommandGrammar.Proofs.Graph.Invariant
import CommandGrammar.Proofs.Graph.Providers
import CommandGrammar.Proofs.Line.Agreement
import CommandGrammar.Proofs.Line.Choice
import CommandGrammar.Proofs.Line.Handed
import CommandGrammar.Proofs.Line.Name
import CommandGrammar.Proofs.Line.Places
import CommandGrammar.Proofs.Line.Tokens
import CommandGrammar.Proofs.Line.Values
import CommandGrammar.Proofs.Payload.Mirror
import CommandGrammar.Proofs.Payload.Overlap
import CommandGrammar.Proofs.Payload.Accepted
import CommandGrammar.Proofs.Payload.Complete
import CommandGrammar.Proofs.Payload.Groups
import CommandGrammar.Proofs.Registry.Consistent
import CommandGrammar.Proofs.Registry.Transactions
import CommandGrammar.Proofs.Registry.Laws
import CommandGrammar.Proofs.Registry.Events
