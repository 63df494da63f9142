/-!
# Decimal numerals of 32-bit integers

A numeral is an optional sign and one or more ASCII digits, of any length; it is read only if its
value is one of an `Int32`. Numbers are written with a minus sign or none and without leading
zeros.
-/

namespace CommandGrammar.Decimal

/-- The value of a digit. -/
def digit? (c : Char) : Option Nat :=
  if '0' ≤ c ∧ c ≤ '9' then some (c.toNat - '0'.toNat) else none

/-- The value of a run of digits that continues a numeral of value `n`. -/
@[simp] def digitsFrom (n : Nat) : List Char → Option Nat
  | [] => some n
  | c :: cs => do digitsFrom (n * 10 + (← digit? c)) cs

/-- The value of one or more digits. -/
def natural? : List Char → Option Nat
  | [] => none
  | c :: cs => digitsFrom 0 (c :: cs)

/-- The value of digits after an optional sign. -/
def integer? : List Char → Option Int
  | '-' :: cs => (natural? cs).map fun n => -(n : Int)
  | '+' :: cs => (natural? cs).map fun n => (n : Int)
  | cs => (natural? cs).map fun n => (n : Int)

/-- The 32-bit integer that has this value. -/
def int32? (n : Int) : Option Int32 :=
  if -0x80000000 ≤ n ∧ n < 0x80000000 then some (Int32.ofInt n) else none

/-- The 32-bit integer that a text is a numeral of. -/
def read? (s : String) : Option Int32 := do
  int32? (← integer? s.toList)

/-- The numeral of an integer. -/
def write (n : Int) : String :=
  match n with
  | .ofNat n => String.ofList (Nat.toDigits 10 n)
  | .negSucc n => String.ofList ('-' :: Nat.toDigits 10 (n + 1))

end CommandGrammar.Decimal
