import CommandGrammar.Error.Misconfiguration
import CommandGrammar.Error.Rejection
import CommandGrammar.Node.Label

/-!
# Numbers

A number is a decimal numeral of an `Int32` that lies between inclusive bounds, either of which may
be absent. Bounds never exclude everything.
-/

namespace CommandGrammar

/-- A lower and an upper bound that some integer keeps to. -/
structure Bounds where
  min : Option Int32 := none
  max : Option Int32 := none
  ordered : ∀ low ∈ min, ∀ high ∈ max, low ≤ high := by simp

namespace Bounds

/-- The bounds of the argument `id`, unless they exclude everything. -/
def of (id : String) : (min max : Option Int32) → Except Misconfiguration Bounds
  | some low, some high =>
    if h : low ≤ high then .ok ⟨some low, some high, by simpa using h⟩
    else .error (.emptyRange id low high)
  | some low, none => .ok { min := some low }
  | none, some high => .ok { max := some high }
  | none, none => .ok {}

/-- The integer, if it keeps to the bounds. -/
def check (b : Bounds) (v : Int32) : Except Reason Int32 :=
  match b.min.filter (v < ·), b.max.filter (· < v) with
  | some low, _ => .error (.tooLow low)
  | none, some high => .error (.tooHigh high)
  | none, none => .ok v

end Bounds

/-- An integer between bounds. -/
structure Number where
  id : String
  bounds : Bounds := {}

namespace Number

/-- The number with these bounds in place of those it had. -/
def between (n : Number) (low high : Int32) : Except Misconfiguration Number := do
  return { n with bounds := ← Bounds.of n.id (some low) (some high) }

/-- The number with this lower bound in place of any that it had. -/
def atLeast (n : Number) (low : Int32) : Except Misconfiguration Number := do
  return { n with bounds := ← Bounds.of n.id (some low) n.bounds.max }

/-- The number with this upper bound in place of any that it had. -/
def atMost (n : Number) (high : Int32) : Except Misconfiguration Number := do
  return { n with bounds := ← Bounds.of n.id n.bounds.min (some high) }

/-- The integer of a numeral. -/
def read (n : Number) (numeral : String) : Except Reason Int32 :=
  match Decimal.read? numeral with
  | some v => n.bounds.check v
  | none => .error .notNumber

/-- What a client is told of the number. -/
def hint (n : Number) : Hint :=
  .integer n.bounds.min n.bounds.max

end Number

end CommandGrammar
