/-!
# Hex — hexadecimal digits

- `Hex.lower`, `Hex.upper` : the digit of a number below sixteen;
- `Hex.value?`             : the number of a digit of either case;
- `Hex.ofBytes`            : bytes as lower-case digits, two for each.
-/

namespace SelectionGraph
namespace Hex

def lower (n : Nat) : Char :=
  Char.ofNat (if n < 10 then 48 + n else 87 + n)

def upper (n : Nat) : Char :=
  Char.ofNat (if n < 10 then 48 + n else 55 + n)

def value? (c : Char) : Option Nat :=
  if '0' ≤ c ∧ c ≤ '9' then some (c.toNat - 48)
  else if 'a' ≤ c ∧ c ≤ 'f' then some (c.toNat - 87)
  else if 'A' ≤ c ∧ c ≤ 'F' then some (c.toNat - 55)
  else none

/-- Bytes as lower-case digits, two for each. -/
def ofBytes (bytes : List UInt8) : String :=
  String.ofList (bytes.flatMap fun b => [lower (b.toNat / 16), lower (b.toNat % 16)])

end Hex
end SelectionGraph
