/-!
# Extensions by a square root and by a cube root

`Quadratic K` adjoins a square root of the radicand of `K`, and `Cubic K` a cube
root. Applied in turn they give the tower of fields that a pairing takes its
values in. The radicand is part of the type class `Radicand K`, so every field
of the tower knows what is adjoined to it next.

The formulas are the ring operations of `K[w]/(w² - ρ)` and `K[v]/(v³ - ρ)`;
inverses are right when the radicand has no root in a field `K`.
-/

namespace RankOne

/-- The element whose root is adjoined to `K`. -/
class Radicand (K : Type) where
  radicand : K

/-- `re + im·w` with `w² = radicand`. -/
structure Quadratic (K : Type) where
  re : K
  im : K
deriving DecidableEq

namespace Quadratic

variable {K : Type}

instance [Zero K] : Zero (Quadratic K) := ⟨⟨0, 0⟩⟩

instance [Zero K] [One K] : One (Quadratic K) := ⟨⟨1, 0⟩⟩

instance [Add K] : Add (Quadratic K) := ⟨fun a b => ⟨a.re + b.re, a.im + b.im⟩⟩

instance [Sub K] : Sub (Quadratic K) := ⟨fun a b => ⟨a.re - b.re, a.im - b.im⟩⟩

instance [Neg K] : Neg (Quadratic K) := ⟨fun a => ⟨-a.re, -a.im⟩⟩

/-- Product by three products of `K`: the mixed term is what the product of the
sums exceeds the two pure terms by. -/
instance [Radicand K] [Add K] [Sub K] [Mul K] : Mul (Quadratic K) :=
  ⟨fun a b =>
    let plain := a.re * b.re
    let turned := a.im * b.im
    ⟨plain + Radicand.radicand * turned,
      (a.re + a.im) * (b.re + b.im) - plain - turned⟩⟩

/-- The element with the other square root in place of `w`. -/
def conjugate [Neg K] (a : Quadratic K) : Quadratic K := ⟨a.re, -a.im⟩

/-- The product of an element with its conjugate, which lies in `K`. -/
def norm [Radicand K] [Sub K] [Mul K] (a : Quadratic K) : K :=
  a.re * a.re - Radicand.radicand * (a.im * a.im)

/-- The conjugate divided by the norm. -/
instance [Radicand K] [Sub K] [Neg K] [Mul K] [Inv K] : Inv (Quadratic K) :=
  ⟨fun a =>
    let scale := a.norm⁻¹
    ⟨a.re * scale, -(a.im * scale)⟩⟩

end Quadratic

/-- `c0 + c1·v + c2·v²` with `v³ = radicand`. -/
structure Cubic (K : Type) where
  c0 : K
  c1 : K
  c2 : K
deriving DecidableEq

namespace Cubic

variable {K : Type}

instance [Zero K] : Zero (Cubic K) := ⟨⟨0, 0, 0⟩⟩

instance [Zero K] [One K] : One (Cubic K) := ⟨⟨1, 0, 0⟩⟩

/-- The adjoined cube root is itself the radicand of the next extension. -/
instance [Zero K] [One K] : Radicand (Cubic K) := ⟨⟨0, 1, 0⟩⟩

instance [Add K] : Add (Cubic K) :=
  ⟨fun a b => ⟨a.c0 + b.c0, a.c1 + b.c1, a.c2 + b.c2⟩⟩

instance [Sub K] : Sub (Cubic K) :=
  ⟨fun a b => ⟨a.c0 - b.c0, a.c1 - b.c1, a.c2 - b.c2⟩⟩

instance [Neg K] : Neg (Cubic K) := ⟨fun a => ⟨-a.c0, -a.c1, -a.c2⟩⟩

/-- Product by six products of `K`, the mixed terms again from products of
sums. -/
instance [Radicand K] [Add K] [Sub K] [Mul K] : Mul (Cubic K) :=
  ⟨fun a b =>
    let t0 := a.c0 * b.c0
    let t1 := a.c1 * b.c1
    let t2 := a.c2 * b.c2
    let mixed12 := (a.c1 + a.c2) * (b.c1 + b.c2) - t1 - t2
    let mixed01 := (a.c0 + a.c1) * (b.c0 + b.c1) - t0 - t1
    let mixed02 := (a.c0 + a.c2) * (b.c0 + b.c2) - t0 - t2
    ⟨t0 + Radicand.radicand * mixed12, mixed01 + Radicand.radicand * t2,
      mixed02 + t1⟩⟩

/-- The cofactors of the first column of the multiplication matrix, divided by
its determinant. -/
instance [Radicand K] [Add K] [Sub K] [Mul K] [Inv K] : Inv (Cubic K) :=
  ⟨fun a =>
    let m0 := a.c0 * a.c0 - Radicand.radicand * (a.c1 * a.c2)
    let m1 := Radicand.radicand * (a.c2 * a.c2) - a.c0 * a.c1
    let m2 := a.c1 * a.c1 - a.c0 * a.c2
    let scale := (a.c0 * m0 + Radicand.radicand * (a.c2 * m1 + a.c1 * m2))⁻¹
    ⟨m0 * scale, m1 * scale, m2 * scale⟩⟩

end Cubic

end RankOne
