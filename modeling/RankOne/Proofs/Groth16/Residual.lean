import RankOne.Proofs.Groth16.Exponents
import RankOne.Proofs.Witness.Soundness

/-!
# The residual of a witness

The residual `A·B - C - H·(Xⁿ - 1)` is a polynomial of degree at most `2n - 2`.
At the point of a constraint it has the value by which the constraint fails, so
it is not zero when some constraint does. For a solution it is zero: the rows of
a solution are the values of `A`, `B` and `C` at the points, and the quotient is
exact.
-/

namespace RankOne

open Polynomial

variable {p : Nat} [Fact p.Prime]

namespace CompiledSystem

variable {system : CompiledSystem p} {domain : EvaluationDomain p}

/-! ## Degree and roots -/

private theorem natDegree_weightedSum_through_le (h : domain.Lawful)
    (values : Nat → Nat → Fp p) (witness : List (Fp p)) :
    (system.weightedSum (fun wire =>
      domain.through (values wire)) witness).natDegree ≤ domain.size - 1 := by
  rw [natDegree_le_iff_coeff_eq_zero]
  intro i hi
  exact (degree_lt_iff_coeff_zero _ _).mp
    (degree_weightedSum_through_lt h values witness) i (by omega)

theorem natDegree_residual_le (h : domain.Lawful)
    (witness quotient : List (Fp p)) :
    (system.residual domain witness quotient).natDegree ≤
      2 * domain.size - 2 := by
  have hPos := domain.size_pos
  have hLeft : (system.leftSum domain witness).natDegree ≤ domain.size - 1 :=
    natDegree_weightedSum_through_le h _ witness
  have hRight : (system.rightSum domain witness).natDegree ≤ domain.size - 1 :=
    natDegree_weightedSum_through_le h _ witness
  have hOutput :
      (system.outputSum domain witness).natDegree ≤ domain.size - 1 :=
    natDegree_weightedSum_through_le h _ witness
  have hVanishing :
      (X ^ domain.size - 1 : (Fp p)[X]).natDegree = domain.size := by
    rw [← C_1]
    exact natDegree_X_pow_sub_C
  have hProduct : (polynomialOf (quotient.take (domain.size - 1)) *
      (X ^ domain.size - 1)).natDegree ≤ 2 * domain.size - 2 := by
    by_cases hOne : domain.size = 1
    · -- A domain of one point uses no coefficient of the quotient.
      rw [hOne, Nat.sub_self, List.take_zero, polynomialOf, zero_mul,
        natDegree_zero]
    · have hKept : (polynomialOf (quotient.take (domain.size - 1))).natDegree ≤
          domain.size - 2 := by
        rw [natDegree_le_iff_coeff_eq_zero]
        intro i hi
        rw [coeff_polynomialOf, List.getD_eq_default]
        rw [List.length_take]
        omega
      refine natDegree_mul_le.trans ?_
      rw [hVanishing]
      omega
  unfold residual
  refine (natDegree_sub_le _ _).trans (max_le ?_ hProduct)
  refine (natDegree_sub_le _ _).trans (max_le ?_ (by omega))
  exact natDegree_mul_le.trans (by omega)

/-- At a point the residual is the value by which the row fails. -/
private theorem eval_residual_point (system : CompiledSystem p)
    (h : domain.Lawful) (witness quotient : List (Fp p)) (row : Nat) :
    (system.residual domain witness quotient).eval (domain.generator ^ row) =
      (system.leftSum domain witness).eval (domain.generator ^ row) *
          (system.rightSum domain witness).eval (domain.generator ^ row) -
        (system.outputSum domain witness).eval (domain.generator ^ row) := by
  unfold residual
  rw [eval_sub, eval_sub, eval_mul, eval_mul, EvaluationDomain.eval_vanishing,
    EvaluationDomain.vanishing, power_eq_pow, h.generator_pow_size, sub_self,
      mul_zero, sub_zero]

/-- Public wires with the values one and the inputs weigh as one and the inputs
do. -/
theorem publicSum_eq_of_inputs (domain : EvaluationDomain p)
    {witness inputs : List (Fp p)} (hOne : witness[0]? = some 1)
    (hInputs : (witness.take system.layout.numPublic.toNat).drop 1 = inputs)
    (trapdoor : Trapdoor p) :
    system.publicSum domain trapdoor witness =
      system.publicSum domain trapdoor (1 :: inputs) := by
  refine Finset.sum_congr rfl fun wire hWire => ?_
  have hPublic := Finset.mem_range.mp hWire
  congr 1
  rw [List.getD_eq_getElem?_getD, List.getD_eq_getElem?_getD]
  congr 1
  cases wire with
  | zero => exact hOne
  | succ place =>
      rw [List.getElem?_cons_succ, ← hInputs, List.getElem?_drop,
        List.getElem?_take_of_lt (by omega), Nat.add_comm]

/-- A solution has a value for every wire, and its quotient leaves no
residual. -/
structure Exact (system : CompiledSystem p) (domain : EvaluationDomain p)
    (solution : Solution p) (quotient : List (Fp p)) : Prop where
  length_witness : solution.witness.length = system.layout.numWires
  quotient_eq : ∀ workers,
    domain.quotient workers solution.a solution.b solution.c = .ok quotient
  residual_eq : system.residual domain solution.witness quotient = 0

/-- A constraint that fails leaves a residual. -/
theorem residual_ne_zero [TwoAdic p] [LawfulTwoAdic p]
    (h : system.OnDomain domain) {witness : List (Fp p)}
    (hLength : witness.length = system.layout.numWires) (quotient : List (Fp p))
    {number : Nat} {c : Constraint}
    (hGet : system.constraints[number]? = some c) {left right output : Fp p}
    (hLeft : system.evaluate witness.toArray c.left = .ok left)
    (hRight : system.evaluate witness.toArray c.right = .ok right)
    (hOutput : system.evaluate witness.toArray c.output = .ok output)
    (hFails : left * right ≠ output) :
    system.residual domain witness quotient ≠ 0 := by
  have hNumber : number < system.numConstraints :=
    (Array.getElem?_eq_some_iff.mp hGet).1
  have hRows := h.rows_le
  have hRow : number < domain.size := by omega
  have hLawful := h.lawful
  have hValue := eval_residual_point system hLawful witness quotient number
  rw [eval_leftSum hLawful hRow, eval_rightSum hLawful hRow,
    eval_outputSum hLawful hRow, sum_ownEntry h.public_le, if_neg (by omega),
    sum_entry_of_constraint Constraint.left hLength hGet hLeft,
    sum_entry_of_constraint Constraint.right hLength hGet hRight,
    sum_entry_of_constraint Constraint.output hLength hGet hOutput, add_zero]
    at hValue
  intro hZero
  rw [hZero, eval_zero] at hValue
  exact hFails (sub_eq_zero.mp hValue.symm)

end CompiledSystem

/-! ## Solutions -/

namespace Solution.Sound

variable {solver : Solver p} {publicInputs secretInputs : List (Fp p)}
  {solution : Solution p} {domain : EvaluationDomain p}
  (hSound : solution.Sound solver publicInputs secretInputs)
include hSound

/-- After the rows of the constraints the right values and the output values are
zero. -/
private theorem right_output_eq_zero
    (hRows : solver.system.numRows =
      solver.system.numConstraints + solver.system.layout.numPublic.toNat)
    {row : Nat} (hRow : solver.system.numConstraints ≤ row) :
    solution.b.getD row 0 = 0 ∧ solution.c.getD row 0 = 0 := by
  by_cases hOwn :
    row < solver.system.numConstraints + solver.system.layout.numPublic.toNat
  · obtain ⟨value, -, -, hB, hC⟩ :=
      hSound.publicRows (row - solver.system.numConstraints) (by omega)
    rw [Nat.add_sub_cancel' hRow] at hB hC
    rw [List.getD_eq_getElem?_getD, List.getD_eq_getElem?_getD, hB, hC]
    exact ⟨rfl, rfl⟩
  · rw [List.getD_eq_default _ _ (by rw [hSound.length_b]; omega),
      List.getD_eq_default _ _ (by rw [hSound.length_c]; omega)]
    exact ⟨rfl, rfl⟩

/-- Every row of a solution holds. -/
private theorem row_holds
    (hRows : solver.system.numRows = solver.system.numConstraints +
      solver.system.layout.numPublic.toNat) (row : Nat) :
    solution.a.getD row 0 * solution.b.getD row 0 = solution.c.getD row 0 := by
  by_cases hConstraint : row < solver.system.numConstraints
  · obtain ⟨left, right, output, hA, hB, hC, -, -, -, hHolds⟩ :=
      hSound.constraints row _ (Array.getElem?_eq_getElem hConstraint)
    rw [List.getD_eq_getElem?_getD, List.getD_eq_getElem?_getD,
      List.getD_eq_getElem?_getD, hA, hB, hC]
    exact hHolds
  · obtain ⟨hB, hC⟩ :=
      hSound.right_output_eq_zero hRows (Nat.le_of_not_lt hConstraint)
    rw [hB, hC, mul_zero]

variable [TwoAdic p] [LawfulTwoAdic p] (h : solver.system.OnDomain domain)
include h

/-- The left values of a solution are those of its left polynomial. -/
private theorem leftSum_eq : solver.system.leftSum domain solution.witness =
    domain.interpolant solution.a := by
  have hLawful := h.lawful
  have hRows := h.numRows_eq
  have hPublic := h.public_le
  rw [EvaluationDomain.interpolant_eq_through hLawful]
  refine Lagrange.eq_interpolate_of_eval_eq _ hLawful.injOn_points ?_ ?_
  · rw [Finset.card_range]
    exact CompiledSystem.degree_weightedSum_through_lt hLawful _ _
  intro row hRow
  rw [CompiledSystem.eval_leftSum hLawful (Finset.mem_range.mp hRow),
    CompiledSystem.sum_ownEntry hPublic]
  by_cases hConstraint : row < solver.system.numConstraints
  · have hGet := Array.getElem?_eq_getElem hConstraint
    obtain ⟨left, right, output, hA, -, -, hLeft, -⟩ :=
      hSound.constraints row _ hGet
    rw [CompiledSystem.sum_entry_of_constraint Constraint.left
      hSound.length_witness hGet hLeft, if_neg (by omega), add_zero,
      List.getD_eq_getElem?_getD, hA]
    rfl
  · have hEntries : ∑ wire ∈ Finset.range solver.system.layout.numWires,
        solution.witness.getD wire 0 *
          solver.system.entry Constraint.left wire row = 0 := by
      refine Finset.sum_eq_zero fun wire _ => ?_
      rw [CompiledSystem.entry_of_le (by omega), mul_zero]
    rw [hEntries, zero_add]
    split
    · next hOwn =>
        obtain ⟨value, hValue, hA, -⟩ :=
          hSound.publicRows (row - solver.system.numConstraints) (by omega)
        rw [Nat.add_sub_cancel' hOwn.1] at hA
        rw [List.getD_eq_getElem?_getD, List.getD_eq_getElem?_getD, hValue, hA]
    · next hBeyond =>
        rw [List.getD_eq_default]
        rw [hSound.length_a]
        omega

/-- Values that are those of one side in the rows of the constraints, and zero
in the other rows, are the values of the side's polynomial. -/
private theorem sideSum_eq {side : Constraint → Expression}
    {values : List (Fp p)}
    (hConstraints : ∀ (number : Nat) (c : Constraint),
      solver.system.constraints[number]? = some c →
      ∃ value, values[number]? = some value ∧
      solver.system.evaluate solution.witness.toArray (side c) = .ok value)
    (hOther : ∀ row, solver.system.numConstraints ≤ row →
      values.getD row 0 = 0) :
    solver.system.weightedSum (fun wire =>
      domain.through (solver.system.entry side wire))
      solution.witness = domain.interpolant values := by
  have hLawful := h.lawful
  rw [EvaluationDomain.interpolant_eq_through hLawful,
    CompiledSystem.weightedSum_through]
  congr 1
  funext row
  by_cases hConstraint : row < solver.system.numConstraints
  · have hGet := Array.getElem?_eq_getElem hConstraint
    obtain ⟨value, hValue, hEval⟩ := hConstraints row _ hGet
    rw [CompiledSystem.sum_entry_of_constraint side hSound.length_witness hGet
      hEval, List.getD_eq_getElem?_getD, hValue]
    rfl
  · rw [hOther row (by omega)]
    refine Finset.sum_eq_zero fun wire _ => ?_
    rw [CompiledSystem.entry_of_le (by omega), mul_zero]

private theorem rightSum_eq : solver.system.rightSum domain solution.witness =
    domain.interpolant solution.b := by
  refine hSound.sideSum_eq h ?_ fun row hRow =>
    (hSound.right_output_eq_zero h.numRows_eq hRow).1
  intro number c hGet
  obtain ⟨left, right, output, -, hB, -, -, hRight, -⟩ :=
    hSound.constraints number c hGet
  exact ⟨right, hB, hRight⟩

private theorem outputSum_eq : solver.system.outputSum domain solution.witness =
    domain.interpolant solution.c := by
  refine hSound.sideSum_eq h ?_ fun row hRow =>
    (hSound.right_output_eq_zero h.numRows_eq hRow).2
  intro number c hGet
  obtain ⟨left, right, output, -, -, hC, -, -, hOutput, -⟩ :=
    hSound.constraints number c hGet
  exact ⟨output, hC, hOutput⟩

/-- A solution has a quotient that leaves no residual. -/
theorem exists_exact :
    ∃ quotient, solver.system.Exact domain solution quotient := by
  have hLawful := h.lawful
  have hRows := h.rows_le
  have hNumRows := h.numRows_eq
  have hFits : solution.a.length = solution.b.length ∧
      solution.b.length = solution.c.length ∧
      solution.a.length ≤ domain.size := by
    rw [hSound.length_a, hSound.length_b, hSound.length_c]
    exact ⟨rfl, rfl, by omega⟩
  obtain ⟨quotient, hQuotient⟩ : ∃ quotient,
      domain.quotient 1 solution.a solution.b solution.c = .ok quotient :=
    EvaluationDomain.quotient_eq_ok_iff.mpr hFits
  obtain ⟨hDivides, hLast⟩ :=
    EvaluationDomain.quotient_mul_vanishing hLawful hQuotient
      fun row _ => hSound.row_holds h.numRows_eq row
  have hLength := (EvaluationDomain.eval_quotient_coset hLawful hQuotient).1
  have hKept : polynomialOf (quotient.take (domain.size - 1)) =
      polynomialOf quotient := by
    refine polynomialOf_take fun i hi => ?_
    by_cases hIsLast : i = domain.size - 1
    · rw [hIsLast, hLast]
    · rw [List.getD_eq_default]
      omega
  refine ⟨quotient, hSound.length_witness, fun workers => ?_, ?_⟩
  · exact (domain.quotient_workers workers 1 _ _ _).trans hQuotient
  unfold CompiledSystem.residual
  rw [hSound.leftSum_eq h, hSound.rightSum_eq h, hSound.outputSum_eq h, hKept,
    hDivides, sub_self]

end Solution.Sound

end RankOne
