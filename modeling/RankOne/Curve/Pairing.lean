import RankOne.Curve.Point

/-!
# Pairings

A pairing maps a point of the base curve and a point of its twist to an element
of the field with `q ^ 12` elements, linearly in both. It is the value at the
first point of a function that a loop builds up from the tangents and chords met
on the way to a multiple of the second point, raised to a power that leaves only
the elements of the group order.

Factors that lie in a proper subfield become one in the last step. This is why
vertical lines are left out and why lines may be scaled by powers of `w³`.

## Main definitions

- `Pairing`: types with a pairing;
- `AteParameters`: the loop length and the twist of a curve;
- `AteParameters.pairPoints`: the pairing of two points.
-/

namespace RankOne

/-- Two groups with a pairing into a third. -/
class Pairing (G₁ G₂ : Type) (GT : outParam Type) where
  pair : G₁ → G₂ → GT

/-- The field of degree twelve, with `w⁶` the radicand of the quadratic
extension. -/
abbrev Fp12 (q : Nat) := Quadratic (Cubic (Fp2 q))

/-- How the twist is mapped to the curve over the field of degree twelve. -/
inductive Twist where
  /-- The constant is divided: `(x, y)` is mapped to `(x·w², y·w³)`. -/
  | divided
  /-- The constant is multiplied: `(x, y)` is mapped to `(x / w², y / w³)`. -/
  | multiplied
deriving DecidableEq, Repr

/-- What the pairing of a curve over `Fp q` depends on. -/
class AteParameters (q : Nat) where
  order : Nat
  /-- The multiple of the second point that the loop runs to: the trace less
  one, without sign. -/
  loopLength : Nat
  twist : Twist
  /-- The sixth power of `w`. -/
  sixthPower : Fp2 q

namespace AteParameters

variable {q : Nat} [Modulus q] [AteParameters q]

/-- The cube root adjoined to the quadratic extension is the square of `w`. -/
instance : Radicand (Fp2 q) := ⟨sixthPower⟩

/-- The value at `(x, y)` of the line of a given slope through the image of a
point of the twist. The intercept is the slope times that point's first
coordinate, less its second. -/
def line (x y : Fp q) (slope intercept : Fp2 q) : Fp12 q :=
  let atX : Fp2 q := -(⟨slope.re * x, slope.im * x⟩)
  let atY : Fp2 q := ⟨y, 0⟩
  match twist q with
  | .divided => ⟨⟨atY, 0, 0⟩, ⟨atX, intercept, 0⟩⟩
  | .multiplied => ⟨⟨intercept, atX, 0⟩, ⟨0, atY, 0⟩⟩

/-- A value of the function built so far, and the multiple of the second point
that it belongs to. -/
structure State (q : Nat) where
  value : Fp12 q
  multiple : Point (Fp2 q)

/-- Doubles the multiple. -/
def State.double (x y : Fp q) (state : State q) : State q :=
  match state.multiple with
  | .infinity => ⟨state.value * state.value, .infinity⟩
  | .affine tx ty =>
      let slope := Point.tangent tx ty
      ⟨state.value * state.value * line x y slope (slope * tx - ty),
        Point.alongLine slope tx ty tx⟩

/-- Adds the point `(qx, qy)` to the multiple. -/
def State.add (x y : Fp q) (qx qy : Fp2 q) (state : State q) : State q :=
  match state.multiple with
  | .infinity => ⟨state.value, .affine qx qy⟩
  | .affine tx ty =>
      let slope := Point.chord tx ty qx qy
      ⟨state.value * line x y slope (slope * tx - ty),
        Point.alongLine slope tx ty qx⟩

/-- The loop to the multiple given by the low `digits` binary digits of `n`,
highest digit first. -/
def loop (x y : Fp q) (qx qy : Fp2 q) : Nat → Nat → State q
  | 0, _ => ⟨1, .infinity⟩
  | digits + 1, n =>
      let doubled := (loop x y qx qy digits (n / 2)).double x y
      if n % 2 = 1 then doubled.add x y qx qy else doubled

/-- The power of `w` by `q² - 1`, which lies in the quadratic extension. -/
def turn (q : Nat) [Modulus q] [AteParameters q] : Fp2 q :=
  power (sixthPower : Fp2 q) ((q * q - 1) / 6)

/-- The power by `q²`: it fixes the quadratic extension and turns `w`. -/
def raiseTwice (a : Fp12 q) : Fp12 q :=
  let t := turn q
  let t2 := t * t
  let t4 := t2 * t2
  ⟨⟨a.re.c0, a.re.c1 * t2, a.re.c2 * t4⟩,
    ⟨a.im.c0 * t, a.im.c1 * (t2 * t), a.im.c2 * (t4 * t)⟩⟩

/-- The power by `(q¹² - 1) / order`, as the product of `q⁶ - 1`, `q² + 1` and
the rest. -/
def finalPower (a : Fp12 q) : Fp12 q :=
  let first := a.conjugate * a⁻¹
  let second := raiseTwice first * first
  let square := q * q
  power second ((square * square - square + 1) / order q)

/-- The pairing of two points; infinity is paired to one. -/
def pairPoints : Point (Fp q) → Point (Fp2 q) → Fp12 q
  | .affine x y, .affine qx qy =>
      let length := loopLength q
      finalPower (loop x y qx qy (length.log2 + 1) length).value
  | _, _ => 1

instance : Pairing (Point (Fp q)) (Point (Fp2 q)) (Fp12 q) := ⟨pairPoints⟩

end AteParameters

end RankOne
