import RankOne.Groth16.Setup
import RankOne.Proofs.Constraint.Columns
import RankOne.Proofs.Polynomial.Lagrange

/-!
# The polynomials of a wire

The rows of a system are put on the points of a domain, those of the constraints
first and then one for each public wire. A wire has three polynomials, which
take its coefficients in the rows as values; on the left a public wire also has
the coefficient one in its own row.

Setup computes the values of these polynomials at the secret point. Weighted by
a witness they add up to polynomials whose values at the points are the values
of the rows.
-/

namespace RankOne

open Polynomial

/-! ## Sums over lists -/

/-- Entries of a list, combined with listed values and added up. -/
theorem foldr_zipWith_map_range {α β M : Type} [AddCommMonoid M] (f : α → β → M)
    (d : α) (hDefault : ∀ b, f d b = 0) (xs : List α) (n : Nat) (g : Nat → β) :
    (xs.zipWith f ((List.range n).map g)).foldr (· + ·) 0 =
      ∑ i ∈ Finset.range n, f (xs.getD i d) (g i) := by
  induction n generalizing xs g with
  | zero => simp
  | succ n ih =>
      rw [List.range_succ_eq_map, List.map_cons, List.map_map,
        Finset.sum_range_succ']
      cases xs with
      | nil => simp [hDefault]
      | cons x rest =>
          rw [List.zipWith_cons_cons, List.foldr_cons, ih rest, add_comm]
          rfl

variable {p : Nat}

namespace CompiledSystem

/-- The counts of a system add up, and a domain has a point for each of its
rows. -/
structure OnDomain [TwoAdic p] (system : CompiledSystem p)
    (domain : EvaluationDomain p) : Prop where
  wellFormed : system.WellFormed
  public_le : system.layout.numPublic.toNat ≤ system.layout.numWires
  numRows_eq :
    system.numRows = system.numConstraints + system.layout.numPublic.toNat
  ofSize_eq : EvaluationDomain.ofSize p system.numRows = .ok domain

section Entries

variable [Modulus p] (system : CompiledSystem p)

/-- The coefficient of a wire in the row of a constraint, and zero in the other
rows. -/
def entry (side : Constraint → Expression) (wire row : Nat) : Fp p :=
  match system.constraints[row]? with
  | some c => system.coefficientIn (side c) wire
  | none => 0

/-- One in the row of a public wire's own, and zero in the other rows. -/
def ownEntry (wire row : Nat) : Fp p :=
  if wire < system.layout.numPublic.toNat ∧
    row = system.numConstraints + wire then 1 else 0

end Entries

variable [Fact p.Prime] (system : CompiledSystem p)
  (domain : EvaluationDomain p)

/-- The left polynomial of a wire. -/
noncomputable def leftPolynomial (wire : Nat) : (Fp p)[X] :=
  domain.through fun row =>
    system.entry Constraint.left wire row + system.ownEntry wire row

/-- The right polynomial of a wire. -/
noncomputable def rightPolynomial (wire : Nat) : (Fp p)[X] :=
  domain.through (system.entry Constraint.right wire)

/-- The output polynomial of a wire. -/
noncomputable def outputPolynomial (wire : Nat) : (Fp p)[X] :=
  domain.through (system.entry Constraint.output wire)

/-- The values of a wire's polynomials. -/
noncomputable def wireValues (x : Fp p) (wire : Nat) :
    Setup.VariableValues p where
  left := (system.leftPolynomial domain wire).eval x
  right := (system.rightPolynomial domain wire).eval x
  output := (system.outputPolynomial domain wire).eval x

/-- The polynomials of the wires, weighted by a witness. -/
noncomputable def weightedSum (polynomials : Nat → (Fp p)[X])
    (witness : List (Fp p)) : (Fp p)[X] :=
  ∑ wire ∈ Finset.range system.layout.numWires,
    C (witness.getD wire 0) * polynomials wire

/-- The left polynomials, weighted by a witness. -/
noncomputable def leftSum (witness : List (Fp p)) : (Fp p)[X] :=
  system.weightedSum (system.leftPolynomial domain) witness

/-- The right polynomials, weighted by a witness. -/
noncomputable def rightSum (witness : List (Fp p)) : (Fp p)[X] :=
  system.weightedSum (system.rightPolynomial domain) witness

/-- The output polynomials, weighted by a witness. -/
noncomputable def outputSum (witness : List (Fp p)) : (Fp p)[X] :=
  system.weightedSum (system.outputPolynomial domain) witness

variable {system domain}

/-! ## Values at the points -/

/-- Weighted by a full assignment, the coefficients in the row of a constraint
add up to the value of its expression. -/
theorem sum_entry_of_constraint (side : Constraint → Expression)
    {witness : List (Fp p)} (hLength : witness.length = system.layout.numWires)
    {row : Nat} {c : Constraint} (hGet : system.constraints[row]? = some c)
    {value : Fp p}
    (hEval : system.evaluate witness.toArray (side c) = .ok value) :
    ∑ wire ∈ Finset.range system.layout.numWires,
      witness.getD wire 0 * system.entry side wire row = value := by
  rw [evaluate_eq_sum hEval, hLength]
  refine Finset.sum_congr rfl fun wire _ => ?_
  unfold entry
  rw [hGet]

theorem entry_of_le {row : Nat} (hRow : system.numConstraints ≤ row)
    (side : Constraint → Expression) (wire : Nat) :
    system.entry side wire row = 0 := by
  unfold entry
  rw [Array.getElem?_eq_none hRow]

/-- The rows of the public wires hold their values. -/
theorem sum_ownEntry
    (hPublic : system.layout.numPublic.toNat ≤ system.layout.numWires)
    (witness : List (Fp p)) (row : Nat) :
    ∑ wire ∈ Finset.range system.layout.numWires,
        witness.getD wire 0 * system.ownEntry wire row =
      if system.numConstraints ≤ row ∧
          row < system.numConstraints + system.layout.numPublic.toNat then
        witness.getD (row - system.numConstraints) 0
      else 0 := by
  unfold ownEntry
  split
  · next hOwn =>
      rw [Finset.sum_eq_single (row - system.numConstraints)]
      · rw [if_pos ⟨by omega, by omega⟩, mul_one]
      · intro wire _ hOther
        rw [if_neg fun hSame => hOther (by omega), mul_zero]
      · intro hOutside
        exact absurd (Finset.mem_range.mpr (by omega)) hOutside
  · next hOther =>
      refine Finset.sum_eq_zero fun wire _ => ?_
      rw [if_neg fun hSame => hOther ⟨by omega, by omega⟩, mul_zero]

theorem eval_weightedSum (polynomials : Nat → (Fp p)[X]) (witness : List (Fp p))
    (x : Fp p) :
    (system.weightedSum polynomials witness).eval x =
      ∑ wire ∈ Finset.range system.layout.numWires,
        witness.getD wire 0 * (polynomials wire).eval x := by
  unfold weightedSum
  rw [eval_finsetSum]
  refine Finset.sum_congr rfl fun wire _ => ?_
  rw [eval_mul, eval_C]

/-- The weighted sum of polynomials through values is the polynomial through the
weighted sums. -/
theorem weightedSum_through (values : Nat → Nat → Fp p)
    (witness : List (Fp p)) :
    system.weightedSum (fun wire => domain.through (values wire)) witness =
      domain.through fun row => ∑ wire ∈ Finset.range system.layout.numWires,
        witness.getD wire 0 * values wire row :=
  (EvaluationDomain.through_sum domain _ _ values).symm

theorem degree_weightedSum_through_lt (h : domain.Lawful)
    (values : Nat → Nat → Fp p) (witness : List (Fp p)) :
    (system.weightedSum (fun wire =>
      domain.through (values wire)) witness).degree < domain.size := by
  rw [weightedSum_through]
  exact EvaluationDomain.degree_through_lt h _

section Row

variable (h : domain.Lawful) {witness : List (Fp p)} {row : Nat}
  (hRow : row < domain.size)
include h hRow

/-- At a point the left polynomials add up to the value of the row. -/
theorem eval_leftSum :
    (system.leftSum domain witness).eval (domain.generator ^ row) =
      ∑ wire ∈ Finset.range system.layout.numWires,
          witness.getD wire 0 * system.entry Constraint.left wire row +
        ∑ wire ∈ Finset.range system.layout.numWires,
          witness.getD wire 0 * system.ownEntry wire row := by
  unfold leftSum leftPolynomial
  rw [weightedSum_through, EvaluationDomain.eval_through_point h _ hRow,
    ← Finset.sum_add_distrib]
  simp only [mul_add]

theorem eval_rightSum :
    (system.rightSum domain witness).eval (domain.generator ^ row) =
      ∑ wire ∈ Finset.range system.layout.numWires,
        witness.getD wire 0 * system.entry Constraint.right wire row := by
  unfold rightSum rightPolynomial
  rw [weightedSum_through, EvaluationDomain.eval_through_point h _ hRow]

theorem eval_outputSum :
    (system.outputSum domain witness).eval (domain.generator ^ row) =
      ∑ wire ∈ Finset.range system.layout.numWires,
        witness.getD wire 0 * system.entry Constraint.output wire row := by
  unfold outputSum outputPolynomial
  rw [weightedSum_through, EvaluationDomain.eval_through_point h _ hRow]

end Row

/-! ## Values at the secret point -/

private theorem columnValue_eq_sum [TwoAdic p] (side : Constraint → Expression)
    (weight : Nat → Fp p) (n wire : Nat) :
    Setup.columnValue ((List.range n).map weight)
        (system.constraints.toList.map fun c =>
          system.formOf (side c)) (system.variableOf wire) =
      ∑ row ∈ Finset.range n, weight row * system.entry side wire row := by
  unfold Setup.columnValue
  rw [List.zipWith_comm, foldr_zipWith_map_range
    (fun (form : LinearForm p) (k : Fp p) =>
      k * form.coefficient (system.variableOf wire)) []
    (fun k => mul_zero k)]
  refine Finset.sum_congr rfl fun row _ => ?_
  unfold entry
  rw [List.getD_eq_getElem?_getD, List.getElem?_map, Array.getElem?_toList]
  cases system.constraints[row]? with
  | none => rfl
  | some c => exact congrArg _ (coefficient_formOf (side c) wire)

private theorem ownRow_eq_sum (weight : Nat → Fp p) {n : Nat}
    (hRows : system.numConstraints + system.layout.numPublic.toNat ≤ n)
    (wire : Nat) :
    ((((List.range n).map weight).drop system.numConstraints).take
        system.layout.numPublic.toNat).getD wire 0 =
      ∑ row ∈ Finset.range n, weight row * system.ownEntry wire row := by
  rw [List.getD_eq_getElem?_getD, List.getElem?_take]
  unfold ownEntry
  by_cases hWire : wire < system.layout.numPublic.toNat
  · have hRow : system.numConstraints + wire < n := by omega
    rw [if_pos hWire, List.getElem?_drop,
      List.getElem?_map, List.getElem?_range hRow,
      Finset.sum_eq_single (system.numConstraints + wire)]
    · rw [if_pos ⟨hWire, rfl⟩, mul_one]
      rfl
    · intro row _ hOther
      rw [if_neg fun hOwn => hOther hOwn.2, mul_zero]
    · intro hOutside
      exact absurd (Finset.mem_range.mpr hRow) hOutside
  · rw [if_neg hWire]
    refine (Finset.sum_eq_zero fun row _ => ?_).symm
    rw [if_neg fun hOwn => hWire hOwn.1, mul_zero]

section Setup

variable [TwoAdic p]

theorem OnDomain.lawful [LawfulTwoAdic p] (h : system.OnDomain domain) :
    domain.Lawful :=
  (EvaluationDomain.ofSize_lawful h.ofSize_eq).1

omit [TwoAdic p] in
/-- Setup has a row for each constraint and each public wire. -/
theorem logSizeOf_relation (hPos : 0 < system.layout.numPublic.toNat)
    (hPublic : system.layout.numPublic.toNat ≤ system.layout.numWires) :
    Setup.logSizeOf system.relation =
      ceilLog2 (system.numConstraints + system.layout.numPublic.toNat) := by
  unfold Setup.logSizeOf Setup.rowCount
  rw [numPublic_relation hPos hPublic]
  congr 1
  show (system.constraints.toList.map _).length + _ = _
  rw [List.length_map, Array.length_toList]
  rfl

theorem OnDomain.logSize_eq [LawfulTwoAdic p] (h : system.OnDomain domain) :
    Setup.logSizeOf system.relation = domain.logSize := by
  rw [(EvaluationDomain.ofSize_lawful h.ofSize_eq).2, h.numRows_eq,
    logSizeOf_relation h.wellFormed.public_pos h.public_le]

theorem OnDomain.rows_le [LawfulTwoAdic p] (h : system.OnDomain domain) :
    system.numConstraints + system.layout.numPublic.toNat ≤ domain.size := by
  rw [← h.numRows_eq, EvaluationDomain.size,
    (EvaluationDomain.ofSize_lawful h.ofSize_eq).2]
  exact le_two_pow_ceilLog2 _

/-- Setup weights rows as interpolation does. -/
private theorem lagrangeValues_eq_map {size : Nat}
    (h : EvaluationDomain.ofSize p size = .ok domain) (x : Fp p) :
    Setup.lagrangeValues x domain.logSize =
      (List.range domain.size).map (domain.weight x) := by
  unfold EvaluationDomain.ofSize at h
  dsimp only at h
  split at h
  swap
  · cases h
  injection h with h
  subst h
  unfold Setup.lagrangeValues
  rw [geometric_eq_map, List.map_map]
  refine List.map_congr_left fun j _ => ?_
  show _ * _ * (1 * _) * (_ - 1 * _)⁻¹ = _
  rw [one_mul]
  rfl

/-- Setup computes the values of the wires' polynomials. -/
theorem allValues_eq_map [LawfulTwoAdic p] (h : system.OnDomain domain)
    {x : Fp p} (hx : domain.vanishing x ≠ 0) :
    Setup.allValues system.relation
        (Setup.lagrangeValues x (Setup.logSizeOf system.relation)) =
      (List.range system.layout.numWires).map (system.wireValues domain x) := by
  have hPublic := h.wellFormed.public_pos
  have hRowCount : system.relation.rows.length = system.numConstraints := by
    show (system.constraints.toList.map _).length = _
    rw [List.length_map, Array.length_toList]
    rfl
  have hForms :
      ∀ (side : Constraint → Expression) (part : RelationRow p → LinearForm p),
      (∀ c : Constraint, part ⟨system.formOf c.left, system.formOf c.right,
        system.formOf c.output⟩ = system.formOf (side c)) →
      system.relation.rows.map part =
        system.constraints.toList.map fun c => system.formOf (side c) := by
    intro side part hPart
    show (system.constraints.toList.map _).map part = _
    rw [List.map_map]
    exact List.map_congr_left fun c _ => hPart c
  unfold Setup.allValues
  dsimp only
  rw [h.logSize_eq, lagrangeValues_eq_map h.ofSize_eq, hRowCount,
    numPublic_relation hPublic h.public_le,
      allVariables_eq_map hPublic h.public_le]
  apply List.ext_getElem?
  intro wire
  rw [List.getElem?_map, List.getElem?_zipIdx, List.getElem?_map,
    List.getElem?_map]
  by_cases hWire : wire < system.layout.numWires
  · rw [List.getElem?_range hWire]
    show some (Setup.valuesOf _ _ _ _) = some _
    unfold Setup.valuesOf wireValues leftPolynomial rightPolynomial
      outputPolynomial
    rw [hForms Constraint.left RelationRow.left fun _ => rfl,
      hForms Constraint.right RelationRow.right fun _ => rfl,
      hForms Constraint.output RelationRow.output fun _ => rfl,
        columnValue_eq_sum,
      columnValue_eq_sum, columnValue_eq_sum, Nat.zero_add,
        ownRow_eq_sum _ h.rows_le,
      EvaluationDomain.eval_through_outside h.lawful hx,
      EvaluationDomain.eval_through_outside h.lawful hx,
      EvaluationDomain.eval_through_outside h.lawful hx,
        ← Finset.sum_add_distrib]
    simp only [mul_add]
  · rw [List.getElem?_eq_none (by rw [List.length_range]; omega)]
    rfl

end Setup

end CompiledSystem

end RankOne
