/-!
# Omissions

A command that is left out of a payload because the payload would have become too large with it.
-/

namespace CommandGrammar

/-- A command that was left out, the size that the payload would have had with it, and the size
that it may have. -/
structure Omission where
  command : String
  encodedBytes : Nat
  limit : Nat
  deriving DecidableEq, Repr

/-- The omission in words. -/
def Omission.message : Omission → String
  | ⟨command, encodedBytes, limit⟩ =>
    s!"command '{command}' omitted: payload would be {encodedBytes} bytes, limit is {limit}"

end CommandGrammar
