/-!
# Decimal numerals

Runs of decimal digits and the numbers they write. A numeral is canonical if it has no leading
zero, so that each number has one canonical numeral.
-/

namespace StackCompiler

namespace Decimal

/-- The number that a decimal digit stands for. -/
def digitValue (d : Char) : Nat :=
  d.toNat - '0'.toNat

/-- The number that a run of decimal digits writes. -/
def value (digits : List Char) : Nat :=
  digits.foldl (fun number d => 10 * number + digitValue d) 0

/-- Whether the characters are a number's canonical numeral. -/
def isCanonical : List Char → Bool
  | [] => false
  | '0' :: rest => rest.isEmpty
  | digits => digits.all Char.isDigit

/-- The number of which the characters are the canonical numeral. -/
def canonical? (cs : List Char) : Option Nat :=
  if isCanonical cs then some (value cs) else none

end Decimal

end StackCompiler
