import RankOne.Curve.Point
import RankOne.Random.Source

/-!
# Random elements

A residue is drawn as a number with as many bits as the modulus, which is
rejected unless it is below the modulus and is then divided by the power of two
that fills its words. A point is drawn by its first coordinate and a coin for
its sign, and moved into the subgroup by the cofactor.
-/

namespace RankOne

-- Powers of numbers are those of the language, also beside an algebra library.
attribute [local instance (2000)] instPowNat

namespace Fp

variable {p : Nat} [Modulus p]

/-- One attempt at a residue. -/
def attempt (p : Nat) [Modulus p] {σ : Type} [WordSource σ] :
    Draw σ (Option (Fp p)) := do
  let drawn ← Draw.number (wordCount p)
  let value := drawn % 2 ^ bitLength p
  return if value < p then
    some (ofNat p value * (ofNat p (2 ^ (64 * wordCount p)))⁻¹)
  else none

instance : Drawable (Fp p) := ⟨Draw.persist 0 (attempt p)⟩

end Fp

/-- The real part is drawn before the imaginary part. -/
instance {K : Type} [Drawable K] : Drawable (Quadratic K) where
  draw := do
    let re ← Drawable.draw
    let im ← Drawable.draw
    return ⟨re, im⟩

namespace Curve

variable {K : Type} [CoordinateField K] [Curve K] [Drawable K]

/-- One attempt at a point of the curve. -/
def attempt (K : Type) [CoordinateField K] [Curve K] [Drawable K] {σ : Type}
    [WordSource σ] : Draw σ (Option (Point K)) := do
  let x : K ← Drawable.draw
  let larger ← Draw.coin
  return lift? x larger

instance : Drawable (Point K) where
  draw := do
    let drawn ← Draw.persist .infinity (attempt K)
    return drawn.multiply (cofactor K)

end Curve

end RankOne
