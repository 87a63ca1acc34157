import RankOne.Polynomial.Domain
import RankOne.Polynomial.PowerTable

/-!
# Transforms over a domain and over its coset

The transform of a vector lists the values of the polynomial with these
coefficients at the powers of the generator. It splits the coefficients into
those of even and of odd degree, transforms both halves with the square of the
generator, and joins them: `f(ωⁱ) = e(ω²ⁱ) + ωⁱ·o(ω²ⁱ)`, and half a turn further
on the sign of the second summand changes.

Every transform first brings its vector to the length of the domain. Those over
the coset use a table of powers, which is cut for a number of workers.
-/

namespace RankOne

-- Powers of numbers are those of the language, also beside an algebra library.
attribute [local instance (2000)] instPowNat

/-- Brings a list to length `n`, cutting it or filling up with `default`. -/
def resize {α : Type} (default : α) (n : Nat) (xs : List α) : List α :=
  xs.take n ++ List.replicate (n - xs.length) default

@[simp] theorem length_resize {α : Type} (default : α) (n : Nat) (xs : List α) :
    (resize default n xs).length = n := by
  simp [resize]
  omega

/-- The entries at even and at odd positions. -/
def alternate {α : Type} : List α → List α × List α
  | [] => ([], [])
  | x :: xs =>
      let halves := alternate xs
      (x :: halves.2, halves.1)

variable {p : Nat} [Modulus p]

/-- The values of a polynomial of `2 ^ digits` coefficients at the powers of
`w`, in order. -/
def transform : Nat → Fp p → List (Fp p) → List (Fp p)
  | 0, _, coefficients => coefficients
  | digits + 1, w, coefficients =>
      let halves := alternate coefficients
      let even := transform digits (w * w) halves.1
      let odd := transform digits (w * w) halves.2
      let turned := odd.zipWith (· * ·) (geometric 1 w (2 ^ digits))
      even.zipWith (· + ·) turned ++ even.zipWith (· - ·) turned

/-- The value at `x` of the polynomial with the given coefficients, lowest
degree first. -/
def evaluatePolynomial (coefficients : List (Fp p)) (x : Fp p) : Fp p :=
  coefficients.foldr (fun c acc => acc * x + c) 0

/-- Entrywise product. -/
def scaleBy (table values : List (Fp p)) : List (Fp p) :=
  values.zipWith (· * ·) table

namespace EvaluationDomain

/-- Coefficients to values at the points of the domain. -/
def fft (domain : EvaluationDomain p) (values : List (Fp p)) : List (Fp p) :=
  transform domain.logSize domain.generator (resize 0 domain.size values)

/-- Values at the points to the coefficients times the number of points: the
forward transform with the inverse generator. -/
def ifftUnnormalized (domain : EvaluationDomain p) (values : List (Fp p)) :
    List (Fp p) :=
  transform domain.logSize domain.generatorInv (resize 0 domain.size values)

/-- Values at the points to coefficients. -/
def ifft (domain : EvaluationDomain p) (values : List (Fp p)) : List (Fp p) :=
  (domain.ifftUnnormalized values).map (· * domain.sizeInv)

/-- Coefficients to values at the points of the coset. -/
def cosetFft (domain : EvaluationDomain p) (workers : Nat)
    (values : List (Fp p)) : List (Fp p) :=
  domain.fft (scaleBy (powerTable workers 1 domain.shift domain.size)
    (resize 0 domain.size values))

/-- Values at the points of the coset to coefficients. -/
def cosetIfft (domain : EvaluationDomain p) (workers : Nat)
    (values : List (Fp p)) : List (Fp p) :=
  scaleBy (powerTable workers domain.sizeInv domain.shiftInv domain.size)
    (domain.ifftUnnormalized values)

end EvaluationDomain

end RankOne
