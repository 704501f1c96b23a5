/-!
# UTF-16 units

A character is one unit of sixteen bits, or two surrogates if its number does not fit.
-/

namespace ClassCompiler
namespace Text

/-- The UTF-16 units of a character. -/
def units16 (c : Char) : List Nat :=
  let n := c.toNat
  if n < 0x10000 then [n]
  else [0xd800 + (n - 0x10000) / 0x400, 0xdc00 + (n - 0x10000) % 0x400]

end Text
end ClassCompiler
