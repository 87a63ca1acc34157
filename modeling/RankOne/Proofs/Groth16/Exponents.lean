import RankOne.Groth16.Assembly
import RankOne.Groth16.Verification
import RankOne.Proofs.Groth16.WirePolynomials

/-!
# Keys and proofs as multiples of the generators

Every point of a key, of a proof and of the verification equation is a multiple
of one of two generators. The factors are values of the wires' polynomials at
the secret point, shifted, divided and blinded by the other secrets. For a
bilinear pairing the verification equation is an equation between them, and in
it the blinding cancels: what is left is the value of the residual
`A·B - C - H·(Xⁿ - 1)` of a witness.

## Main results

* `CompiledSystem.combine_keys` — an assembled proof as multiples of the
  generators;
* `CompiledSystem.leftExponent_mul_rightExponent` — the blinding cancels, up to
  the residual;
* `CompiledSystem.accepts_eq_decide` — a proof is accepted when the factors'
  equation holds.
-/

namespace RankOne

open Polynomial

variable {p : Nat}

/-! ## Bilinear pairings -/

/-- A multiple by a residue is the multiple by its representative. -/
private theorem Fp.smul_eq_nsmul [Fact p.Prime] {G : Type} [AddCommGroup G]
    [Module (Fp p) G] (k : Fp p) (a : G) : k • a = k.val • a := by
  have hCast : ((k.val : Nat) : Fp p) = k := by
    apply Fp.ext
    show k.val % p = k.val
    exact Nat.mod_eq_of_lt k.isLt
  rw [← Nat.cast_smul_eq_nsmul (Fp p), hCast]

namespace Pairing

/-- A pairing takes sums to products, in both arguments. -/
structure Bilinear (G₁ G₂ : Type) {GT : Type} [AddCommGroup G₁]
    [AddCommGroup G₂] [CommMonoid GT] [Pairing G₁ G₂ GT] : Prop where
  zero_left : ∀ b : G₂, pair (0 : G₁) b = 1
  add_left : ∀ (a a' : G₁) (b : G₂), pair (a + a') b = pair a b * pair a' b
  zero_right : ∀ a : G₁, pair a (0 : G₂) = 1
  add_right : ∀ (a : G₁) (b b' : G₂), pair a (b + b') = pair a b * pair a b'

namespace Bilinear

variable {G₁ G₂ GT : Type} [AddCommGroup G₁] [AddCommGroup G₂] [CommMonoid GT]
  [Pairing G₁ G₂ GT] (h : Bilinear G₁ G₂)
include h

private theorem nsmul_left (n : Nat) (a : G₁) (b : G₂) :
    pair (n • a) b = pair a b ^ n := by
  induction n with
  | zero => rw [zero_nsmul, h.zero_left, pow_zero]
  | succ n ih => rw [succ_nsmul, h.add_left, ih, pow_succ]

private theorem nsmul_right (n : Nat) (a : G₁) (b : G₂) :
    pair a (n • b) = pair a b ^ n := by
  induction n with
  | zero => rw [zero_nsmul, h.zero_right, pow_zero]
  | succ n ih => rw [succ_nsmul, h.add_right, ih, pow_succ]

variable [Fact p.Prime] [Module (Fp p) G₁] [Module (Fp p) G₂]

/-- Factors move from the right to the left. -/
private theorem smul_right (k : Fp p) (a : G₁) (b : G₂) :
    pair a (k • b) = pair (k • a) b := by
  rw [Fp.smul_eq_nsmul k a, Fp.smul_eq_nsmul k b, h.nsmul_left, h.nsmul_right]

private theorem smul_smul_eq (k l : Fp p) (a : G₁) (b : G₂) :
    pair (k • a) (l • b) = pair ((k * l) • a) b := by
  rw [h.smul_right, smul_smul, mul_comm]

omit [Module (Fp p) G₂] in
private theorem smul_mul_smul (k l : Fp p) (a : G₁) (b : G₂) :
    pair (k • a) b * pair (l • a) b = pair ((k + l) • a) b := by
  rw [add_smul, h.add_left]

omit [Module (Fp p) G₂] in
/-- When the generators pair to one, so do their multiples. -/
theorem smul_eq_one {g₁ : G₁} {g₂ : G₂} (hOne : pair g₁ g₂ = 1) (k : Fp p) :
    pair (k • g₁) g₂ = 1 := by
  rw [Fp.smul_eq_nsmul k g₁, h.nsmul_left, hOne, one_pow]

/-- When the generators do not pair to one, different factors pair to different
values. -/
theorem smul_injective {g₁ : G₁} {g₂ : G₂} (hPair : pair g₁ g₂ ≠ 1) {k l : Fp p}
    (hSame : pair (k • g₁) g₂ = pair (l • g₁) g₂) : k = l := by
  by_contra hDifferent
  have hDifference : k - l ≠ 0 := sub_ne_zero.mpr hDifferent
  have hOne : pair ((k - l) • g₁) g₂ = 1 := by
    calc pair ((k - l) • g₁) g₂ = pair (k • g₁) g₂ * pair (-l • g₁) g₂ := by
          rw [h.smul_mul_smul, sub_eq_add_neg]
      _ = pair (l • g₁) g₂ * pair (-l • g₁) g₂ := by rw [hSame]
      _ = 1 := by rw [h.smul_mul_smul, add_neg_cancel, zero_smul, h.zero_left]
  apply hPair
  calc pair g₁ g₂ = pair ((k - l)⁻¹ • (k - l) • g₁) g₂ := by
        rw [smul_smul, inv_mul_cancel₀ hDifference, one_smul]
    _ = pair ((k - l) • g₁) ((k - l)⁻¹ • g₂) := (h.smul_right _ _ _).symm
    _ = 1 := by rw [Fp.smul_eq_nsmul (k - l)⁻¹ g₂, h.nsmul_right, hOne, one_pow]

end Bilinear

/-- Residues with their product, written multiplicatively, as a pairing. -/
instance residues (p : Nat) [Modulus p] :
    Pairing (Fp p) (Fp p) (Multiplicative (Fp p)) where
  pair a b := Multiplicative.ofAdd (a * b)

theorem bilinear_residues [Modulus p] : Bilinear (Fp p) (Fp p) where
  zero_left b := congrArg Multiplicative.ofAdd (zero_mul b)
  add_left a a' b := congrArg Multiplicative.ofAdd (add_mul a a' b)
  zero_right a := congrArg Multiplicative.ofAdd (mul_zero a)
  add_right a b b' := congrArg Multiplicative.ofAdd (mul_add a b b')

end Pairing

/-- An assembler works with the key that it was made for. -/
theorem Assembler.key_eq {G₁ G₂ : Type} {key : ProvingKey G₁ G₂}
    {assembler : Assembler G₁ G₂} (h : Assembler.ofKey key = .ok assembler) :
    assembler.key = key := by
  unfold Assembler.ofKey at h
  split at h
  · injection h with h
    rw [← h]
  · cases h

variable [Fact p.Prime]

/-- The sum of multiples of one point. -/
private theorem multiScalar_map_range {G : Type} [AddCommGroup G]
    [Module (Fp p) G] (scalars : List (Fp p)) (n : Nat) (exponents : Nat → Fp p)
    (g : G) :
    multiScalar scalars ((List.range n).map fun i => exponents i • g) =
      (∑ i ∈ Finset.range n, scalars.getD i 0 * exponents i) • g := by
  unfold multiScalar
  rw [foldr_zipWith_map_range (fun (k : Fp p) (b : G) => k • b) 0 (fun b =>
    zero_smul _ b), Finset.sum_smul]
  simp only [smul_smul]

/-! ## Factors -/

namespace CompiledSystem

section Factors

variable (system : CompiledSystem p) (domain : EvaluationDomain p)
  (trapdoor : Trapdoor p)

/-- The polynomial of a wire in which its three polynomials are combined. -/
noncomputable def combinedPolynomial (wire : Nat) : (Fp p)[X] :=
  C trapdoor.beta * system.leftPolynomial domain wire +
    C trapdoor.alpha * system.rightPolynomial domain wire +
      system.outputPolynomial domain wire

/-- The combined polynomials of the public wires at the secret point, weighted
by values. -/
noncomputable def publicSum (values : List (Fp p)) : Fp p :=
  ∑ wire ∈ Finset.range system.layout.numPublic.toNat,
    values.getD wire 0 *
      (system.combinedPolynomial domain trapdoor wire).eval trapdoor.tau

/-- The combined polynomials of the other wires at the secret point, weighted by
a witness. -/
noncomputable def secretSum (witness : List (Fp p)) : Fp p :=
  ∑ place ∈ Finset.range
    (system.layout.numWires - system.layout.numPublic.toNat),
    witness.getD (system.layout.numPublic.toNat + place) 0 *
      (system.combinedPolynomial domain trapdoor
        (system.layout.numPublic.toNat + place)).eval trapdoor.tau

/-- The factor of the left point. -/
noncomputable def leftExponent (witness : List (Fp p)) (blinding : Blinding p) :
    Fp p :=
  (system.leftSum domain witness).eval trapdoor.tau + blinding.r *
    trapdoor.delta + trapdoor.alpha

/-- The factor of the right point. -/
noncomputable def rightExponent (witness : List (Fp p))
    (blinding : Blinding p) : Fp p :=
  (system.rightSum domain witness).eval trapdoor.tau + blinding.s *
    trapdoor.delta + trapdoor.beta

/-- The factor of the closing point. Of the quotient all coefficients but the
last are used. -/
noncomputable def closingExponent (witness quotient : List (Fp p))
    (blinding : Blinding p) : Fp p :=
  ((polynomialOf (quotient.take (domain.size - 1))).eval trapdoor.tau *
      domain.vanishing trapdoor.tau +
        system.secretSum domain trapdoor witness) * trapdoor.delta⁻¹ +
    blinding.s * system.leftExponent domain trapdoor witness blinding +
    blinding.r * system.rightExponent domain trapdoor witness blinding -
    blinding.r * blinding.s * trapdoor.delta

/-- What is left of `A·B - C` when the part that the quotient accounts for is
taken away. -/
noncomputable def residual (witness quotient : List (Fp p)) : (Fp p)[X] :=
  system.leftSum domain witness * system.rightSum domain witness -
    system.outputSum domain witness -
    polynomialOf (quotient.take (domain.size - 1)) * (X ^ domain.size - 1)

end Factors

variable {system : CompiledSystem p} {domain : EvaluationDomain p}
  {trapdoor : Trapdoor p}

private theorem combined_wireValues (wire : Nat) :
    (system.wireValues domain trapdoor.tau wire).combined trapdoor =
      (system.combinedPolynomial domain trapdoor wire).eval trapdoor.tau := by
  unfold combinedPolynomial
  rw [eval_add, eval_add, eval_mul, eval_mul, eval_C, eval_C]
  rfl

/-- The public and the secret wires together are all wires. -/
private theorem publicSum_add_secretSum (domain : EvaluationDomain p)
    (trapdoor : Trapdoor p)
    (hPublic : system.layout.numPublic.toNat ≤ system.layout.numWires)
    (witness : List (Fp p)) :
    system.publicSum domain trapdoor witness +
      system.secretSum domain trapdoor witness =
      trapdoor.beta * (system.leftSum domain witness).eval trapdoor.tau +
        trapdoor.alpha * (system.rightSum domain witness).eval trapdoor.tau +
        (system.outputSum domain witness).eval trapdoor.tau := by
  have hAll : system.publicSum domain trapdoor witness +
      system.secretSum domain trapdoor witness =
      ∑ wire ∈ Finset.range system.layout.numWires, witness.getD wire 0 *
        (system.combinedPolynomial domain trapdoor wire).eval trapdoor.tau := by
    unfold publicSum secretSum
    rw [← Finset.sum_range_add, Nat.add_sub_cancel' hPublic]
  unfold leftSum rightSum outputSum
  rw [hAll, eval_weightedSum, eval_weightedSum, eval_weightedSum,
    Finset.mul_sum, Finset.mul_sum, ← Finset.sum_add_distrib,
    ← Finset.sum_add_distrib]
  refine Finset.sum_congr rfl fun wire _ => ?_
  unfold combinedPolynomial
  rw [eval_add, eval_add, eval_mul, eval_mul, eval_C, eval_C]
  ring

/-- The blinding cancels: up to the residual, the product of the first two
factors is what the shifts, the public wires and the closing factor make up. -/
theorem leftExponent_mul_rightExponent (domain : EvaluationDomain p)
    (hPublic : system.layout.numPublic.toNat ≤ system.layout.numWires)
    (hDelta : trapdoor.delta ≠ 0) (witness quotient : List (Fp p))
    (blinding : Blinding p) :
    system.leftExponent domain trapdoor witness blinding *
        system.rightExponent domain trapdoor witness blinding =
      trapdoor.alpha * trapdoor.beta +
        system.publicSum domain trapdoor witness +
        system.closingExponent domain trapdoor witness quotient blinding *
          trapdoor.delta +
        (system.residual domain witness quotient).eval trapdoor.tau := by
  have hWires := publicSum_add_secretSum domain trapdoor hPublic witness
  have hInv : trapdoor.delta⁻¹ * trapdoor.delta = 1 := inv_mul_cancel₀ hDelta
  unfold residual
  rw [eval_sub, eval_sub, eval_mul, eval_mul, EvaluationDomain.eval_vanishing]
  unfold closingExponent leftExponent rightExponent
  linear_combination
    -hWires - ((polynomialOf (quotient.take (domain.size - 1))).eval
      trapdoor.tau *
      domain.vanishing trapdoor.tau +
        system.secretSum domain trapdoor witness) * hInv

/-! ## Keys -/

variable [TwoAdic p] {G₁ G₂ : Type} [AddCommGroup G₁] [Module (Fp p) G₁]
  [AddCommGroup G₂] [Module (Fp p) G₂]

/-- The keys that given generators and secrets make for a system. -/
def keys (system : CompiledSystem p) (g₁ : G₁) (g₂ : G₂)
    (trapdoor : Trapdoor p) : KeyPair G₁ G₂ :=
  Setup.keysFrom system.relation system.digest g₁ g₂ trapdoor

section Lengths

/-! Whether the counts of the system add up or not, the lists of its keys have
these lengths, and they fit together. -/

variable (system) (trapdoor) (g₁ : G₁) (g₂ : G₂)

private theorem length_allValues (weights : List (Fp p)) :
    (Setup.allValues system.relation weights).length =
      system.inputCount + 1 + system.witnessCount := by
  show ((Relation.allVariables _).zipIdx.map _).length = _
  rw [List.length_map, List.length_zipIdx]
  show (Variable.one :: (List.range _).map _ ++ (List.range _).map _).length = _
  simp only [List.length_append, List.length_cons, List.length_map,
    List.length_range]
  rfl

theorem length_aG1_keys : (system.keys g₁ g₂ trapdoor).proving.aG1.length =
    system.inputCount + 1 + system.witnessCount := by
  show ((Setup.allValues _ _).map _).length = _
  rw [List.length_map, length_allValues]

private theorem length_bG1_keys :
    (system.keys g₁ g₂ trapdoor).proving.bG1.length =
    system.inputCount + 1 + system.witnessCount := by
  show ((Setup.allValues _ _).map _).length = _
  rw [List.length_map, length_allValues]

private theorem length_bG2_keys :
    (system.keys g₁ g₂ trapdoor).proving.bG2.length =
    system.inputCount + 1 + system.witnessCount := by
  show ((Setup.allValues _ _).map _).length = _
  rw [List.length_map, length_allValues]

private theorem length_kG1_keys :
    (system.keys g₁ g₂ trapdoor).proving.kG1.length =
    system.witnessCount := by
  show (((Setup.allValues _ _).drop (system.inputCount + 1)).map _).length = _
  rw [List.length_map, List.length_drop, length_allValues,
    Nat.add_sub_cancel_left]

theorem length_zG1_keys : (system.keys g₁ g₂ trapdoor).proving.zG1.length =
    2 ^ Setup.logSizeOf system.relation - 1 := by
  show ((geometric _ _ _).map _).length = _
  rw [List.length_map, length_geometric]

theorem length_gammaAbcG1_keys :
    (system.keys g₁ g₂ trapdoor).verifying.gammaAbcG1.length =
    system.inputCount + 1 := by
  show (((Setup.allValues _ _).take (system.inputCount + 1)).map _).length = _
  rw [List.length_map, List.length_take, length_allValues,
    Nat.min_eq_left (Nat.le_add_right _ _)]

/-- The keys count the variables that are public. -/
theorem numPublic_keys_eq :
    (system.keys g₁ g₂ trapdoor).proving.numPublic.toNat =
      system.inputCount + 1 := by
  have hWord : system.inputCount + 1 < 2 ^ 64 := by
    have hPublic := system.layout.numPublic.toNat_lt
    unfold inputCount
    omega
  show (system.inputCount + 1).toUInt64.toNat = _
  rw [Nat.toUInt64_eq, UInt64.toNat_ofNat']
  exact Nat.mod_eq_of_lt hWord

/-- The lists of the keys fit together. -/
theorem checkShape_keys :
    (system.keys g₁ g₂ trapdoor).proving.checkShape = .ok () := by
  unfold ProvingKey.checkShape ProvingKey.numWires
  simp only [length_aG1_keys, length_bG1_keys, length_bG2_keys, length_kG1_keys,
    numPublic_keys_eq]
  rw [if_neg (by omega), if_neg (by omega), if_neg (by omega)]

/-- There is an assembler for the keys of a system. -/
theorem exists_assembler :
    ∃ assembler,
      Assembler.ofKey (system.keys g₁ g₂ trapdoor).proving = .ok assembler := by
  have hShape := checkShape_keys system trapdoor g₁ g₂
  refine ⟨⟨(system.keys g₁ g₂ trapdoor).proving, hShape⟩, ?_⟩
  unfold Assembler.ofKey
  split
  · rfl
  · next cause hFault =>
      rw [hShape] at hFault
      cases hFault

end Lengths

private theorem numPublic_keys (h : system.OnDomain domain) (g₁ : G₁)
    (g₂ : G₂) :
    (system.keys g₁ g₂ trapdoor).proving.numPublic.toNat =
      system.layout.numPublic.toNat := by
  have hPos := h.wellFormed.public_pos
  have hPublic := h.public_le
  rw [numPublic_keys_eq]
  unfold inputCount
  omega

section Keys

variable [LawfulTwoAdic p] (h : system.OnDomain domain)
  (hTau : domain.vanishing trapdoor.tau ≠ 0)
include h

private theorem zG1_keys (g₁ : G₁) (g₂ : G₂) :
    (system.keys g₁ g₂ trapdoor).proving.zG1 =
      (List.range (domain.size - 1)).map fun i =>
      (domain.vanishing trapdoor.tau * trapdoor.delta⁻¹ * trapdoor.tau ^ i) •
        g₁ := by
  show (geometric _ _ _).map _ = _
  rw [h.logSize_eq, geometric_eq_map, List.map_map]
  rfl

include hTau

private theorem aG1_keys (g₁ : G₁) (g₂ : G₂) :
    (system.keys g₁ g₂ trapdoor).proving.aG1 =
      (List.range system.layout.numWires).map fun wire =>
      (system.leftPolynomial domain wire).eval trapdoor.tau • g₁ := by
  show (Setup.allValues system.relation _).map (fun v => v.left • g₁) = _
  rw [allValues_eq_map h hTau, List.map_map]
  rfl

private theorem bG1_keys (g₁ : G₁) (g₂ : G₂) :
    (system.keys g₁ g₂ trapdoor).proving.bG1 =
      (List.range system.layout.numWires).map fun wire =>
      (system.rightPolynomial domain wire).eval trapdoor.tau • g₁ := by
  show (Setup.allValues system.relation _).map (fun v => v.right • g₁) = _
  rw [allValues_eq_map h hTau, List.map_map]
  rfl

private theorem bG2_keys (g₁ : G₁) (g₂ : G₂) :
    (system.keys g₁ g₂ trapdoor).proving.bG2 =
      (List.range system.layout.numWires).map fun wire =>
      (system.rightPolynomial domain wire).eval trapdoor.tau • g₂ := by
  show (Setup.allValues system.relation _).map (fun v => v.right • g₂) = _
  rw [allValues_eq_map h hTau, List.map_map]
  rfl

private theorem kG1_keys (g₁ : G₁) (g₂ : G₂) :
    (system.keys g₁ g₂ trapdoor).proving.kG1 =
      (List.range (system.layout.numWires - system.layout.numPublic.toNat)).map
        fun place =>
        ((system.combinedPolynomial domain trapdoor
          (system.layout.numPublic.toNat + place)).eval trapdoor.tau *
            trapdoor.delta⁻¹) • g₁ := by
  have hSplit := List.range_add (n := system.layout.numPublic.toNat)
    (m := system.layout.numWires - system.layout.numPublic.toNat)
  rw [Nat.add_sub_cancel' h.public_le] at hSplit
  show ((Setup.allValues system.relation _).drop _).map _ = _
  rw [allValues_eq_map h hTau,
    numPublic_relation h.wellFormed.public_pos h.public_le,
      ← List.map_drop, hSplit,
    List.drop_left' List.length_range, List.map_map, List.map_map]
  refine List.map_congr_left fun place _ => ?_
  show ((system.wireValues domain _ _).combined trapdoor * _) • g₁ = _
  rw [combined_wireValues]

private theorem gammaAbcG1_keys (g₁ : G₁) (g₂ : G₂) :
    (system.keys g₁ g₂ trapdoor).verifying.gammaAbcG1 =
      (List.range system.layout.numPublic.toNat).map fun wire =>
        ((system.combinedPolynomial domain trapdoor wire).eval trapdoor.tau *
          trapdoor.gamma⁻¹) • g₁ := by
  have hSplit := List.range_add (n := system.layout.numPublic.toNat)
    (m := system.layout.numWires - system.layout.numPublic.toNat)
  rw [Nat.add_sub_cancel' h.public_le] at hSplit
  show ((Setup.allValues system.relation _).take _).map _ = _
  rw [allValues_eq_map h hTau,
    numPublic_relation h.wellFormed.public_pos h.public_le,
      ← List.map_take, hSplit,
    List.take_left' List.length_range, List.map_map]
  refine List.map_congr_left fun wire _ => ?_
  show ((system.wireValues domain _ _).combined trapdoor * _) • g₁ = _
  rw [combined_wireValues]

end Keys

/-! ## Assembled proofs -/

/-- The proof whose points are the generators' multiples by the three
factors. -/
noncomputable def proofOf (system : CompiledSystem p)
    (domain : EvaluationDomain p) (trapdoor : Trapdoor p) (g₁ : G₁) (g₂ : G₂)
    (witness quotient : List (Fp p)) (blinding : Blinding p) : Proof G₁ G₂ where
  ar := system.leftExponent domain trapdoor witness blinding • g₁
  bs := system.rightExponent domain trapdoor witness blinding • g₂
  krs := system.closingExponent domain trapdoor witness quotient blinding • g₁

section Proofs

variable [LawfulTwoAdic p] (h : system.OnDomain domain)
  (hTau : domain.vanishing trapdoor.tau ≠ 0)
include h hTau

/-- The points of a key are combined to multiples of the generators. -/
theorem combine_keys (g₁ : G₁) (g₂ : G₂) (witness : List (Fp p))
    {quotient : List (Fp p)} (hQuotient : domain.size ≤ quotient.length)
    (blinding : Blinding p) :
    Assembler.combine
      (system.keys g₁ g₂ trapdoor).proving witness quotient blinding =
      system.proofOf domain trapdoor g₁ g₂ witness quotient blinding := by
  have hLeft :
      Assembler.left (system.keys g₁ g₂ trapdoor).proving witness blinding.r =
        system.leftExponent domain trapdoor witness blinding • g₁ := by
    unfold Assembler.left leftExponent leftSum
    rw [aG1_keys h hTau, multiScalar_map_range, ← eval_weightedSum, add_smul,
      add_smul, mul_smul]
    rfl
  have hFirst : Assembler.rightFirst
      (system.keys g₁ g₂ trapdoor).proving witness blinding.s =
      system.rightExponent domain trapdoor witness blinding • g₁ := by
    unfold Assembler.rightFirst rightExponent rightSum
    rw [bG1_keys h hTau, multiScalar_map_range, ← eval_weightedSum, add_smul,
      add_smul, mul_smul]
    rfl
  have hSecond : Assembler.rightSecond
      (system.keys g₁ g₂ trapdoor).proving witness blinding.s =
      system.rightExponent domain trapdoor witness blinding • g₂ := by
    unfold Assembler.rightSecond rightExponent rightSum
    rw [bG2_keys h hTau, multiScalar_map_range, ← eval_weightedSum, add_smul,
      add_smul, mul_smul]
    rfl
  have hKept : (quotient.take (domain.size - 1)).length = domain.size - 1 := by
    rw [List.length_take]
    omega
  have hQuotientPart : multiScalar
      (quotient.take (system.keys g₁ g₂ trapdoor).proving.zG1.length)
      (system.keys g₁ g₂ trapdoor).proving.zG1 =
        ((polynomialOf (quotient.take (domain.size - 1))).eval trapdoor.tau *
          domain.vanishing trapdoor.tau * trapdoor.delta⁻¹) • g₁ := by
    rw [zG1_keys h, List.length_map, List.length_range, multiScalar_map_range,
      eval_polynomialOf, evaluatePolynomial_eq_sum, hKept, Finset.sum_mul,
      Finset.sum_mul]
    congr 1
    refine Finset.sum_congr rfl fun i _ => ?_
    ring
  have hSecretPart : multiScalar
      (witness.drop (system.keys g₁ g₂ trapdoor).proving.numPublic.toNat)
      (system.keys g₁ g₂ trapdoor).proving.kG1 =
        (system.secretSum domain trapdoor witness * trapdoor.delta⁻¹) • g₁ := by
    unfold secretSum
    rw [kG1_keys h hTau, numPublic_keys h, multiScalar_map_range,
      Finset.sum_mul]
    congr 1
    refine Finset.sum_congr rfl fun place _ => ?_
    rw [List.getD_eq_getElem?_getD, List.getElem?_drop,
      ← List.getD_eq_getElem?_getD, mul_assoc]
  have hDelta :
      (system.keys g₁ g₂ trapdoor).proving.deltaG1 = trapdoor.delta • g₁ := rfl
  unfold Assembler.combine Assembler.closing proofOf closingExponent
  dsimp only
  rw [hLeft, hFirst, hSecond, hQuotientPart, hSecretPart, hDelta, smul_smul,
    smul_smul, smul_smul, sub_smul, add_smul, add_smul, add_mul, add_smul]

/-- For every witness with a quotient the proof is assembled. The quotient may
also be one over another domain that is not smaller. -/
theorem assemble_keys_on {g₁ : G₁} {g₂ : G₂} {assembler : Assembler G₁ G₂}
    (hKey : Assembler.ofKey (system.keys g₁ g₂ trapdoor).proving =
      .ok assembler) {other : EvaluationDomain p} (hLawful : other.Lawful)
    (hSize : domain.size ≤ other.size) {workers : Nat} {solution : Solution p}
    {quotient : List (Fp p)}
    (hWitness : solution.witness.length = system.layout.numWires)
    (hQuotient : other.quotient workers solution.a solution.b solution.c =
      .ok quotient) (blinding : Blinding p) :
    assembler.assemble workers solution other blinding =
      .ok (system.proofOf domain trapdoor g₁ g₂ solution.witness quotient
        blinding) := by
  have hLength := (EvaluationDomain.eval_quotient_coset hLawful hQuotient).1
  have hSame := Assembler.key_eq hKey
  have hWires : solution.witness.length =
      (system.keys g₁ g₂ trapdoor).proving.numWires := by
    unfold ProvingKey.numWires
    rw [aG1_keys h hTau, List.length_map, List.length_range, hWitness]
  have hPoints :
      ¬other.size < (system.keys g₁ g₂ trapdoor).proving.zG1.length := by
    rw [zG1_keys h, List.length_map, List.length_range]
    omega
  unfold Assembler.assemble
  dsimp only
  rw [hSame, if_neg (not_not.mpr hWires), if_neg hPoints, hQuotient]
  show Except.ok (Assembler.combine _ _ _ _) = _
  rw [combine_keys h hTau g₁ g₂ _ (by omega)]

theorem assemble_keys {g₁ : G₁} {g₂ : G₂} {assembler : Assembler G₁ G₂}
    (hKey : Assembler.ofKey (system.keys g₁ g₂ trapdoor).proving =
      .ok assembler) {workers : Nat} {solution : Solution p}
    {quotient : List (Fp p)}
    (hWitness : solution.witness.length = system.layout.numWires)
    (hQuotient : domain.quotient workers solution.a solution.b solution.c =
      .ok quotient) (blinding : Blinding p) :
    assembler.assemble workers solution domain blinding =
      .ok (system.proofOf domain trapdoor g₁ g₂ solution.witness quotient
        blinding) :=
  assemble_keys_on h hTau hKey h.lawful le_rfl hWitness hQuotient blinding

/-! ## Verification -/

private theorem combinedInputs_keys (g₁ : G₁) (g₂ : G₂) (inputs : List (Fp p)) :
    (system.keys g₁ g₂ trapdoor).verifying.combinedInputs inputs =
      (system.publicSum domain trapdoor (1 :: inputs) * trapdoor.gamma⁻¹) •
        g₁ := by
  unfold VerifyingKey.combinedInputs publicSum
  rw [gammaAbcG1_keys h hTau, multiScalar_map_range, Finset.sum_mul]
  simp only [mul_assoc]

variable {GT : Type} [CommMonoid GT] [DecidableEq GT] [Pairing G₁ G₂ GT]

/-- With an input for every public wire but the one wire, verification comes to
a verdict. -/
theorem verify_keys (g₁ : G₁) (g₂ : G₂) (proof : Proof G₁ G₂)
    {inputs : List (Fp p)}
    (hInputs : inputs.length = system.layout.numPublic.toNat - 1) :
    (system.keys g₁ g₂ trapdoor).verifying.verify proof ⟨inputs⟩ =
      .ok ((system.keys g₁ g₂ trapdoor).verifying.accepts proof inputs) := by
  have hPublic := h.wellFormed.public_pos
  have hLength : (system.keys g₁ g₂ trapdoor).verifying.gammaAbcG1.length =
      system.layout.numPublic.toNat := by
    rw [gammaAbcG1_keys h hTau, List.length_map, List.length_range]
  have hNonempty :
      ¬(system.keys g₁ g₂ trapdoor).verifying.gammaAbcG1.isEmpty = true := by
    rw [List.isEmpty_iff_length_eq_zero]
    omega
  unfold VerifyingKey.verify VerifyingKey.numPublicInputs PublicInputs.length
  rw [if_neg (not_not.mpr (by rw [hLength, hInputs])), if_neg hNonempty]

variable (hPair : Pairing.Bilinear G₁ G₂) (hGamma : trapdoor.gamma ≠ 0)
include hPair hGamma

/-- The verification equation compares multiples of the generators. -/
theorem accepts_eq_decide (g₁ : G₁) (g₂ : G₂)
    (witness quotient inputs : List (Fp p)) (blinding : Blinding p) :
    (system.keys g₁ g₂ trapdoor).verifying.accepts
        (system.proofOf domain trapdoor g₁ g₂ witness quotient blinding)
          inputs =
      decide
        (Pairing.pair ((system.leftExponent domain trapdoor witness blinding *
          system.rightExponent domain trapdoor witness blinding) • g₁) g₂ =
        Pairing.pair ((trapdoor.alpha * trapdoor.beta +
          system.publicSum domain trapdoor (1 :: inputs) +
          system.closingExponent domain trapdoor witness quotient blinding *
            trapdoor.delta) • g₁) g₂) := by
  unfold VerifyingKey.accepts
  rw [combinedInputs_keys h hTau]
  show decide (Pairing.pair (_ • g₁) (_ • g₂) =
    Pairing.pair (trapdoor.alpha • g₁) (trapdoor.beta • g₂) *
      Pairing.pair (_ • g₁) (trapdoor.gamma • g₂) *
      Pairing.pair (_ • g₁) (trapdoor.delta • g₂)) = _
  rw [hPair.smul_smul_eq, hPair.smul_smul_eq, hPair.smul_smul_eq,
    hPair.smul_smul_eq, hPair.smul_mul_smul, hPair.smul_mul_smul,
    mul_assoc _ trapdoor.gamma⁻¹, inv_mul_cancel₀ hGamma, mul_one]

end Proofs

end CompiledSystem

end RankOne
