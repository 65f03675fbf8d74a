/-!
# Alignment

The number of bytes from a position to the next multiple of a boundary.
-/

set_option autoImplicit false

namespace CilCoverage

/-- Bytes missing from `position` to the next multiple of `boundary`. -/
def padding (boundary position : Nat) : Nat :=
  (boundary - position % boundary) % boundary

/-- Padding stops short of a whole boundary. -/
theorem padding_lt {boundary : Nat} (positive : 0 < boundary) (position : Nat) :
    padding boundary position < boundary :=
  Nat.mod_lt _ positive

/-- Behind the padding lies a multiple of the boundary. -/
theorem add_padding_mod {boundary : Nat} (positive : 0 < boundary) (position : Nat) :
    (position + padding boundary position) % boundary = 0 := by
  have small := Nat.mod_lt position positive
  unfold padding
  by_cases zero : position % boundary = 0
  · simp [zero]
  · have inner : (boundary - position % boundary) % boundary = boundary - position % boundary :=
      Nat.mod_eq_of_lt (by omega)
    have split := Nat.div_add_mod position boundary
    rw [inner]
    have total : position + (boundary - position % boundary)
        = boundary * (position / boundary) + boundary := by omega
    rw [total, Nat.add_mod_right, Nat.mul_mod_right]

end CilCoverage
