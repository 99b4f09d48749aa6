/-!
# Decimal digits
-/

namespace Mapsmith.Text

def ofDigits (digits : List Char) : Nat :=
  digits.foldl (fun n c => 10 * n + (c.toNat - '0'.toNat)) 0

end Mapsmith.Text
