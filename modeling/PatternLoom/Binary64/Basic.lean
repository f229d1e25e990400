/-! Binary floating-point numbers of 64 bits. A finite number is a sign and a magnitude
counted in units of 2^-1074, the least positive number, so that its value is an integer
and every comparison of finite numbers is a comparison of integers. Powers are `Nat.pow`
by name here and below, so that they are the same terms under every import. -/

namespace PatternLoom

/-- The units in one. -/
def unitsPerOne : Nat := Nat.pow 2 1074

/-- The units in 2^1024, which no finite magnitude reaches. -/
def magnitudeBound : Nat := Nat.pow 2 2098

/-- A magnitude with at most 53 significant bits and below 2^1024. -/
def Representable (u : Nat) : Prop := u < magnitudeBound ∧ Nat.pow 2 (u.log2 - 52) ∣ u

instance (u : Nat) : Decidable (Representable u) :=
  inferInstanceAs (Decidable (_ ∧ _))

theorem magnitudeBound_pos : 0 < magnitudeBound := by
  unfold magnitudeBound
  apply Nat.pow_pos
  decide

theorem representable_zero : Representable 0 := ⟨magnitudeBound_pos, Nat.dvd_zero _⟩

inductive Binary64 where
  | nan
  | infinity (negative : Bool)
  | finite (negative : Bool) (magnitude : Nat) (representable : Representable magnitude)
  deriving DecidableEq

namespace Binary64

/-- The value in units, with its sign. -/
def units : Binary64 → Int
  | finite false u _ => u
  | finite true u _ => -u
  | _ => 0

def isNegative : Binary64 → Bool
  | nan => false
  | infinity negative => negative
  | finite negative _ _ => negative

def isNan : Binary64 → Bool
  | nan => true
  | _ => false

def isFinite : Binary64 → Bool
  | finite _ _ _ => true
  | _ => false

/-- Either zero. -/
def isZero : Binary64 → Bool
  | finite _ u _ => u = 0
  | _ => false

def zero (negative : Bool) : Binary64 := finite negative 0 representable_zero

instance : Inhabited Binary64 := ⟨zero false⟩

/-- Strictly less; no comparison with `nan` holds, and the two zeros are equal. -/
def lt : Binary64 → Binary64 → Bool
  | nan, _ => false
  | _, nan => false
  | infinity a, infinity b => a && !b
  | infinity a, finite _ _ _ => a
  | finite _ _ _, infinity b => !b
  | x@(finite _ _ _), y@(finite _ _ _) => x.units < y.units

/-- Equal in value; `nan` equals nothing. -/
def equal : Binary64 → Binary64 → Bool
  | nan, _ => false
  | _, nan => false
  | infinity a, infinity b => a == b
  | x@(finite _ _ _), y@(finite _ _ _) => x.units == y.units
  | _, _ => false

def le (x y : Binary64) : Bool := x.lt y || x.equal y

instance : LT Binary64 := ⟨fun x y => x.lt y = true⟩
instance : LE Binary64 := ⟨fun x y => x.le y = true⟩
instance (x y : Binary64) : Decidable (x < y) := inferInstanceAs (Decidable (_ = true))
instance (x y : Binary64) : Decidable (x ≤ y) := inferInstanceAs (Decidable (_ = true))

/-- The larger number; the first one unless the second is strictly larger. -/
def larger (x y : Binary64) : Binary64 := if x < y then y else x

/-- The smaller number; the first one unless the second is strictly smaller. -/
def smaller (x y : Binary64) : Binary64 := if y < x then y else x

theorem units_zero (negative : Bool) : (zero negative).units = 0 := by
  cases negative <;> rfl

theorem lt_finite {a b : Bool} {u v : Nat} {hu : Representable u} {hv : Representable v} :
    finite a u hu < finite b v hv ↔ (finite a u hu).units < (finite b v hv).units := by
  change (decide _ = true) ↔ _
  exact decide_eq_true_iff

end Binary64
end PatternLoom
