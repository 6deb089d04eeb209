/-! Numbers written in decimal digits, and the bounds of machine words that
the formats of this library put on them. -/

namespace TupleLogic.Text

def isDigit (c : Char) : Bool := decide ('0' ≤ c) && decide (c ≤ '9')

/-- The number that a run of digits denotes, leading zeros allowed. -/
def decimalValue (ds : List Char) : Nat :=
  ds.foldl (fun n d => 10 * n + (d.toNat - 48)) 0

/-- Below 2 to the 32. -/
def fitsUnsigned32 (n : Nat) : Bool := decide (n < 4294967296)

/-- Below 2 to the 64. -/
def fitsUnsigned64 (n : Nat) : Bool := decide (n < 18446744073709551616)

/-- From minus 2 to the 63 up to, but not including, 2 to the 63. -/
def fitsSigned64 (n : Int) : Bool :=
  decide (-9223372036854775808 ≤ n) && decide (n < 9223372036854775808)

/-- A count: digits after an optional plus sign, with a value that fits into 64 bits. -/
def count? (cs : List Char) : Option Nat :=
  let ds := match cs with
    | '+' :: ds => ds
    | ds => ds
  if !ds.isEmpty && ds.all isDigit && fitsUnsigned64 (decimalValue ds) then
    some (decimalValue ds)
  else none

end TupleLogic.Text
