import RankOne.Field.Coordinate

/-!
# Points of curves `y² = x³ + b`

A point is infinity or a pair of coordinates. Sums follow the chord and tangent
rule, whose formulas do not mention `b`. Multiples are computed in projective
coordinates `(x / z², y / z³)`, which take one inversion in all.

## Main definitions

- `Point`: points, with zero, sums, negatives and differences;
- `Point.multiply`: multiples of a point, and scalars acting on points;
- `Curve`: a curve over a field of coordinates with its subgroup of prime order;
- `Curve.lift?`: the point with a given first coordinate.
-/

namespace RankOne

/-- A point of a curve. -/
inductive Point (K : Type) where
  | infinity
  | affine (x y : K)
deriving DecidableEq

namespace Point

variable {K : Type} [CoordinateField K]

instance : Zero (Point K) := ⟨infinity⟩

instance : Inhabited (Point K) := ⟨infinity⟩

/-- The mirror image of a point. -/
protected def neg : Point K → Point K
  | infinity => infinity
  | affine x y => affine x (-y)

instance : Neg (Point K) := ⟨Point.neg⟩

/-- The third point, mirrored, on the line of the given slope through `(x₁, y₁)`
and a point with first coordinate `x₂`. -/
def alongLine (slope x₁ y₁ x₂ : K) : Point K :=
  let x := slope * slope - x₁ - x₂
  affine x (slope * (x₁ - x) - y₁)

/-- The slope of the tangent at a point. -/
def tangent (x y : K) : K :=
  let square := x * x
  (square + square + square) * (y + y)⁻¹

/-- The slope of the line through two points with different first
coordinates. -/
def chord (x₁ y₁ x₂ y₂ : K) : K := (y₂ - y₁) * (x₂ - x₁)⁻¹

/-- The sum of two points. -/
protected def add : Point K → Point K → Point K
  | infinity, b => b
  | a, infinity => a
  | affine x₁ y₁, affine x₂ y₂ =>
      if x₁ = x₂ then
        if y₁ = y₂ ∧ y₁ ≠ 0 then alongLine (tangent x₁ y₁) x₁ y₁ x₁
          else infinity
      else alongLine (chord x₁ y₁ x₂ y₂) x₁ y₁ x₂

instance : Add (Point K) := ⟨Point.add⟩

instance : Sub (Point K) := ⟨fun a b => a + -b⟩

end Point

/-- The point `(x / z², y / z³)`, or infinity when `z` is zero. -/
structure Projective (K : Type) where
  x : K
  y : K
  z : K

namespace Projective

variable {K : Type} [CoordinateField K]

/-- Infinity. -/
def infinity : Projective K := ⟨1, 1, 0⟩

/-- Twice a point. -/
def double (a : Projective K) : Projective K :=
  let xx := a.x * a.x
  let yy := a.y * a.y
  let quarter := a.x * yy
  let half := quarter + quarter
  let d := half + half
  let slope := xx + xx + xx
  let x := slope * slope - d - d
  let fourth := yy * yy
  let twice := fourth + fourth
  let four := twice + twice
  let yz := a.y * a.z
  ⟨x, slope * (d - x) - (four + four), yz + yz⟩

/-- The sum of a point and the affine point `(x, y)`. -/
def addAffine (a : Projective K) (x y : K) : Projective K :=
  if a.z = 0 then ⟨x, y, 1⟩
  else
    let zz := a.z * a.z
    let h := x * zz - a.x
    let slope := y * (a.z * zz) - a.y
    if h = 0 then
      if slope = 0 then a.double else infinity
    else
      let hh := h * h
      let hhh := h * hh
      let v := a.x * hh
      let x' := slope * slope - hhh - v - v
      ⟨x', slope * (v - x') - a.y * hhh, a.z * h⟩

/-- The multiple of `(x, y)` by the low `digits` binary digits of `n`, highest
digit first. -/
def multiple (x y : K) : Nat → Nat → Projective K
  | 0, _ => infinity
  | digits + 1, n =>
      let doubled := (multiple x y digits (n / 2)).double
      if n % 2 = 1 then doubled.addAffine x y else doubled

/-- The point in affine coordinates. -/
def toPoint (a : Projective K) : Point K :=
  if a.z = 0 then .infinity
  else
    let inverse := a.z⁻¹
    let square := inverse * inverse
    .affine (a.x * square) (a.y * (square * inverse))

end Projective

namespace Point

variable {K : Type} [CoordinateField K]

/-- The `n`-fold sum of a point. -/
def multiply (n : Nat) : Point K → Point K
  | infinity => infinity
  | affine x y => (Projective.multiple x y (n.log2 + 1) n).toPoint

/-- Scalars act by their canonical representatives. -/
instance {r : Nat} : SMul (Fp r) (Point K) :=
  ⟨fun scalar a => a.multiply scalar.val⟩

end Point

/-- A curve `y² = x³ + b` with a subgroup of prime order, of index `cofactor`,
that a generator spans. -/
class Curve (K : Type) [CoordinateField K] where
  b : K
  order : Nat
  cofactor : Nat
  generator : Point K

namespace Curve

variable {K : Type} [CoordinateField K] [Curve K]

/-- The value of `x³ + b`. -/
def cubicAt (x : K) : K := x * x * x + b

/-- The point with first coordinate `x` whose second coordinate is the larger or
the smaller one of the two possible. -/
def lift? (x : K) (larger : Bool) : Option (Point K) :=
  (CoordinateField.sqrt? (cubicAt x)).map fun y =>
    .affine x (CoordinateField.withSign larger y)

/-- Whether a point of the curve lies in the subgroup. -/
def inSubgroup (a : Point K) : Bool := a.multiply (order K) = .infinity

end Curve

end RankOne
