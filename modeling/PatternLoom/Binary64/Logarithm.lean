import PatternLoom.Binary64.Arithmetic

/-! Logarithms of powers of two. The natural logarithm of 2^n is n times that of two, so
one constant gives them all. A quotient of two of them rounds once more, and may then miss
the exponent by a little. -/

namespace PatternLoom

/-- The natural logarithm of two in units of 2^-128, rounded down. -/
def logTwo : Nat := 0xb17217f7d1cf79abc9e3b39803f2f6af

namespace Binary64

/-- The number nearest to the natural logarithm of `2 ^ n`, for exponents of 8 bits. What
the constant lacks is too little to move any of these roundings. -/
def logPower (n : Nat) : Binary64 := ofFraction false (n * logTwo) (Nat.pow 2 128)

/-- The logarithm of `2 ^ n` to base two, as a quotient of natural logarithms. -/
def baseTwoLog (n : Nat) : Binary64 := logPower n / logPower 1

end Binary64
end PatternLoom
