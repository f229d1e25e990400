import PatternLoom.Binary64.Rounding

/-! The interchange encoding in 64 bits: a sign bit, eleven bits of exponent and 52 bits
of significand. -/

namespace PatternLoom
namespace Binary64

/-- The exponent and significand fields of a finite magnitude. -/
def magnitudeBits (u : Nat) : Nat :=
  if u < Nat.pow 2 52 then u
  else (u.log2 - 52) * Nat.pow 2 52 + u / spacing u

def toBits : Binary64 → Nat
  | nan => 0x7ff8000000000000
  | infinity negative => (if negative then Nat.pow 2 63 else 0) + 0x7ff0000000000000
  | finite negative u _ => (if negative then Nat.pow 2 63 else 0) + magnitudeBits u

/-- The number encoded by the low 64 bits. -/
def ofBits (bits : Nat) : Binary64 :=
  let negative := bits / Nat.pow 2 63 % 2 = 1
  let exponent := bits / Nat.pow 2 52 % Nat.pow 2 11
  let fraction := bits % Nat.pow 2 52
  if exponent = 2047 then if fraction = 0 then infinity negative else nan
  else if exponent = 0 then ofUnits negative fraction 1
  else ofUnits negative ((Nat.pow 2 52 + fraction) * Nat.pow 2 (exponent - 1)) 1

end Binary64
end PatternLoom
