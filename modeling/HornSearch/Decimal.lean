/-!
# Decimal digits

The number that a run of decimal digits writes; leading zeros do not count.
-/

namespace HornSearch

/-- The value of decimal digits, the most significant first. -/
def ofDecimal (digits : List Char) : Nat :=
  digits.foldl (fun n c => 10 * n + (c.toNat - '0'.toNat)) 0

end HornSearch
