import RankOne.Proofs.Groth16.Exponents
import RankOne.Proofs.Polynomial.Quotient

/-!
# Assembly in bounds

Three places make sure that the lists of a proof fit together: the key's lists
are compared when an assembler is made, the solution and the domain are compared
with the key, and the quotient compares the rows. What is not compared is cut to
size without notice: a slice ends where the list ends, and a multi-scalar sum
leaves out entries without a partner.

`Assembler.assembleChecked` is assembly in which every slice and every sum is
checked and faults when something would be cut off. It is the same function, for
every key that an assembler can be made for.
-/

namespace RankOne

variable {G₁ G₂ : Type}

/-- The shape of a key says that it has public wires, not more than wires, and
that every list is as long as the wires that it is for are many. -/
theorem ProvingKey.checkShape_eq_ok {key : ProvingKey G₁ G₂} :
    key.checkShape = .ok () ↔
      key.numPublic.toNat ≠ 0 ∧ key.numPublic.toNat ≤ key.numWires ∧
        key.bG1.length = key.numWires ∧ key.bG2.length = key.numWires ∧
        key.kG1.length = key.numWires - key.numPublic.toNat := by
  unfold checkShape
  dsimp only
  split_ifs with hPublic hRight hSecret
  · exact iff_of_false (fun h => nomatch h) (by omega)
  · exact iff_of_false (fun h => nomatch h) (by omega)
  · exact iff_of_false (fun h => nomatch h) (by omega)
  · exact iff_of_true rfl (by omega)

/-! ## Checked slices and sums -/

/-- The first entries of a list, where it is a fault if there are fewer. -/
def sliceTo {α : Type} (xs : List α) (stop : Nat) : Except Fault (List α) :=
  if stop ≤ xs.length then .ok (xs.take stop) else .error .outOfBounds

/-- The entries from a position on, where it is a fault if the position is
behind the end. -/
def sliceFrom {α : Type} (xs : List α) (start : Nat) : Except Fault (List α) :=
  if start ≤ xs.length then .ok (xs.drop start) else .error .outOfBounds

/-- The sum of the multiples of points by scalars, where it is a fault if an
entry has no partner. -/
def pairedSum {p : Nat} {G : Type} [Zero G] [Add G] [SMul (Fp p) G]
    (scalars : List (Fp p)) (bases : List G) : Except Fault G :=
  if scalars.length = bases.length then .ok (multiScalar scalars bases)
    else .error .outOfBounds

namespace Assembler

variable {p : Nat} [Zero G₁] [Add G₁] [Sub G₁] [SMul (Fp p) G₁] [Zero G₂]
  [Add G₂] [SMul (Fp p) G₂]

/-- The proof for wire values and a quotient, with every slice and every sum
checked. -/
def combineChecked (key : ProvingKey G₁ G₂) (witness quotient : List (Fp p))
    (blinding : Blinding p) : Except Fault (Proof G₁ G₂) := do
  let ar :=
    (← pairedSum witness key.aG1) + blinding.r • key.deltaG1 + key.alphaG1
  let bsFirst :=
    (← pairedSum witness key.bG1) + blinding.s • key.deltaG1 + key.betaG1
  let bs :=
    (← pairedSum witness key.bG2) + blinding.s • key.deltaG2 + key.betaG2
  let secret ← sliceFrom witness key.numPublic.toNat
  let coefficients ← sliceTo quotient key.zG1.length
  let krs := (← pairedSum coefficients key.zG1) + (← pairedSum secret key.kG1) +
    blinding.s • ar + blinding.r •
      bsFirst - (blinding.r * blinding.s) • key.deltaG1
  return { ar, bs, krs }

/-- Assembly with every slice and every sum checked. -/
def assembleChecked [Modulus p] (assembler : Assembler G₁ G₂) (workers : Nat)
    (solution : Solution p) (domain : EvaluationDomain p)
    (blinding : Blinding p) : Outcome AssemblyError (Proof G₁ G₂) :=
  let key := assembler.key
  if solution.witness.length ≠ key.numWires then
    Outcome.report (.witnessLength key.numWires solution.witness.length)
  else if domain.size < key.zG1.length then
    Outcome.report (.quotientLength key.zG1.length domain.size)
  else Outcome.ofFaulty do
    let quotient ← domain.quotient workers solution.a solution.b solution.c
    combineChecked key solution.witness quotient blinding

/-- With a value for every wire of a checked key and a coefficient for every
quotient point, nothing is cut off. -/
private theorem combineChecked_eq {key : ProvingKey G₁ G₂}
    (hShape : key.checkShape = .ok ()) {witness quotient : List (Fp p)}
    (hWires : witness.length = key.numWires)
    (hPoints : key.zG1.length ≤ quotient.length) (blinding : Blinding p) :
    combineChecked key witness quotient blinding =
      .ok (combine key witness quotient blinding) := by
  obtain ⟨-, hPublic, hFirst, hSecond, hSecret⟩ :=
    ProvingKey.checkShape_eq_ok.mp hShape
  have hLeft : pairedSum witness key.aG1 = .ok (multiScalar witness key.aG1) :=
    if_pos hWires
  have hRightFirst :
      pairedSum witness key.bG1 = .ok (multiScalar witness key.bG1) :=
    if_pos (hWires.trans hFirst.symm)
  have hRightSecond :
      pairedSum witness key.bG2 = .ok (multiScalar witness key.bG2) :=
    if_pos (hWires.trans hSecond.symm)
  have hDrop : sliceFrom witness key.numPublic.toNat =
      .ok (witness.drop key.numPublic.toNat) := if_pos (by omega)
  have hTake :
      sliceTo quotient key.zG1.length = .ok (quotient.take key.zG1.length) :=
    if_pos hPoints
  have hQuotient : pairedSum (quotient.take key.zG1.length) key.zG1 =
      .ok (multiScalar (quotient.take key.zG1.length) key.zG1) :=
    if_pos (List.length_take_of_le hPoints)
  have hClosing : pairedSum (witness.drop key.numPublic.toNat) key.kG1 =
      .ok (multiScalar (witness.drop key.numPublic.toNat) key.kG1) :=
    if_pos (by rw [List.length_drop, hWires, hSecret])
  simp only [combineChecked, hLeft, hRightFirst, hRightSecond, hDrop, hTake,
    hQuotient, hClosing, bind, Except.bind]
  rfl

variable [Modulus p]

/-- Checking every slice and every sum makes no difference. -/
theorem assembleChecked_eq (assembler : Assembler G₁ G₂) (workers : Nat)
    (solution : Solution p) (domain : EvaluationDomain p)
    (blinding : Blinding p) :
    assembler.assembleChecked workers solution domain blinding =
      assembler.assemble workers solution domain blinding := by
  unfold assembleChecked assemble
  dsimp only
  split_ifs with hWires hPoints
  · rfl
  · rfl
  · cases hQuotient :
      domain.quotient workers solution.a solution.b solution.c with
    | error cause => rfl
    | ok quotient =>
        have hCovered : assembler.key.zG1.length ≤ quotient.length := by
          rw [EvaluationDomain.length_quotient hQuotient]
          exact Nat.le_of_not_lt hPoints
        have hCombine := combineChecked_eq assembler.shaped
          (not_not.mp hWires) hCovered blinding
        show Outcome.ofFaulty
          (combineChecked assembler.key solution.witness quotient blinding) = _
        rw [hCombine]
        rfl

/-! ## Endings -/

/-- The rows of a solution are as many on each side, and no more than the points
of a domain. -/
def RowsFit (solution : Solution p) (domain : EvaluationDomain p) : Prop :=
  solution.a.length = solution.b.length ∧
    solution.b.length = solution.c.length ∧
    solution.a.length ≤ domain.size

/-- The first comparison that fails decides how assembly ends. -/
private theorem assemble_cases (assembler : Assembler G₁ G₂) (workers : Nat)
    (solution : Solution p) (domain : EvaluationDomain p)
    (blinding : Blinding p) :
    let key := assembler.key
    let result := assembler.assemble workers solution domain blinding
    (solution.witness.length ≠ key.aG1.length ∧
        result = Outcome.report
          (.witnessLength key.aG1.length solution.witness.length)) ∨
      (solution.witness.length = key.aG1.length ∧ domain.size < key.zG1.length ∧
        result = Outcome.report (.quotientLength key.zG1.length domain.size)) ∨
      (solution.witness.length = key.aG1.length ∧ key.zG1.length ≤ domain.size ∧
        ¬RowsFit solution domain ∧ ∃ cause, result = Outcome.abandon cause) ∨
      (solution.witness.length = key.aG1.length ∧ key.zG1.length ≤ domain.size ∧
        RowsFit solution domain ∧ ∃ proof, result = .ok proof) := by
  intro key result
  have hRows : (∃ quotient,
      domain.quotient workers solution.a solution.b solution.c = .ok quotient) ↔
      RowsFit solution domain := EvaluationDomain.quotient_eq_ok_iff
  by_cases hWires : solution.witness.length = key.aG1.length
  swap
  · exact .inl ⟨hWires, if_pos hWires⟩
  by_cases hPoints : domain.size < key.zG1.length
  · refine .inr (.inl ⟨hWires, hPoints, ?_⟩)
    exact (if_neg (not_not_intro hWires)).trans (if_pos hPoints)
  have hFit : key.zG1.length ≤ domain.size := Nat.le_of_not_lt hPoints
  have hReached : result = _ :=
    (if_neg (not_not_intro hWires)).trans (if_neg hPoints)
  cases hQuotient :
    domain.quotient workers solution.a solution.b solution.c with
  | error cause =>
      rw [hQuotient] at hReached hRows
      refine .inr (.inr (.inl ⟨hWires, hFit, fun h => ?_, cause, hReached⟩))
      obtain ⟨quotient, hNone⟩ := hRows.mpr h
      cases hNone
  | ok quotient =>
      rw [hQuotient] at hReached
      exact .inr (.inr (.inr ⟨hWires, hFit, hRows.mp ⟨quotient, hQuotient⟩,
        _, hReached⟩))

/-- For every key that an assembler can be made for, and for every solution,
domain and blinding: the number of wire values is reported exactly when it is
not that of the key; else the number of coefficients exactly when the key has
more quotient points than the domain has points; else assembly is abandoned
exactly when the rows differ in number or are more than the points; and else
there is a proof. No slice is out of range on the way, and all five sums are
over as many scalars as points. -/
theorem assemble_exact {key : ProvingKey G₁ G₂} {assembler : Assembler G₁ G₂}
    (hKey : ofKey key = .ok assembler) (workers : Nat) (solution : Solution p)
    (domain : EvaluationDomain p) (blinding : Blinding p) :
    let result := assembler.assemble workers solution domain blinding
    (∀ expected actual,
      result = Outcome.report (.witnessLength expected actual) ↔
        solution.witness.length ≠ key.aG1.length ∧
          expected = key.aG1.length ∧ actual = solution.witness.length) ∧
      (∀ expected actual,
        result = Outcome.report (.quotientLength expected actual) ↔
        solution.witness.length = key.aG1.length ∧
          domain.size < key.zG1.length ∧
          expected = key.zG1.length ∧ actual = domain.size) ∧
      ((∃ cause, result = Outcome.abandon cause) ↔
        solution.witness.length = key.aG1.length ∧
          key.zG1.length ≤ domain.size ∧
          ¬RowsFit solution domain) ∧
      ((∃ proof, result = .ok proof) ↔
        solution.witness.length = key.aG1.length ∧
          key.zG1.length ≤ domain.size ∧
          RowsFit solution domain) ∧
      assembler.assembleChecked workers solution domain blinding = result := by
  intro result
  obtain rfl := key_eq hKey
  have hChecked := assembler.assembleChecked_eq workers solution domain blinding
  rcases assembler.assemble_cases workers solution domain blinding with
    ⟨hWires, hResult⟩ | ⟨hWires, hPoints, hResult⟩ | ⟨hWires, hPoints, hRows,
      cause, hResult⟩ |
    ⟨hWires, hPoints, hRows, proof, hResult⟩
  · simp [result, hChecked, hResult, hWires, Outcome.report,
      Outcome.abandon, eq_comm]
  · simp [result, hChecked, hResult, hWires, hPoints, Outcome.report,
      Outcome.abandon, eq_comm]
  · simp [result, hChecked, hResult, hWires, hPoints, hRows, Outcome.report,
      Outcome.abandon]
  · simp [result, hChecked, hResult, hWires, hPoints, hRows, Outcome.report,
      Outcome.abandon]

/-! ## A key with a single quotient point -/

/-- A key for three wires, one of them public. -/
def singlePointKey : ProvingKey (Fp 17) (Fp 17) where
  alphaG1 := .ofNat 17 2
  betaG1 := .ofNat 17 3
  betaG2 := .ofNat 17 3
  deltaG1 := .ofNat 17 5
  deltaG2 := .ofNat 17 5
  aG1 := [1, 2, 3].map (.ofNat 17)
  bG1 := [4, 5, 6].map (.ofNat 17)
  bG2 := [4, 5, 6].map (.ofNat 17)
  zG1 := [.ofNat 17 7]
  kG1 := [8, 9].map (.ofNat 17)
  numPublic := 1
  digest := Vector.replicate 32 0

/-- The powers of four, which has order four modulo 17. -/
def fourPoints : EvaluationDomain 17 where
  logSize := 2
  sizeInv := .ofNat 17 13
  generator := .ofNat 17 4
  generatorInv := .ofNat 17 13
  shift := .ofNat 17 2
  shiftInv := .ofNat 17 9

/-- With this key there are proofs also for a row that is violated. Five rows
are too many for the points, and two wire values are not enough for the
wires. -/
theorem assemble_exact_single :
    ∃ assembler, ofKey singlePointKey = .ok assembler ∧
    (∃ proof, assembler.assemble 8 ⟨[1], [2], [3], [1, 8, 9]⟩ fourPoints ⟨5,
      6⟩ = .ok proof ∧
      assembler.assembleChecked 8 ⟨[1], [2], [3], [1, 8, 9]⟩ fourPoints ⟨5, 6⟩ =
        .ok proof) ∧
    (∃ cause, assembler.assemble 8 ⟨[1, 1, 1, 1, 1], [2, 2, 2, 2, 2],
      [3, 3, 3, 3, 3], [1, 8, 9]⟩ fourPoints ⟨5, 6⟩ = Outcome.abandon cause) ∧
    assembler.assemble 8 ⟨[1], [2], [3], [1, 8]⟩ fourPoints ⟨5, 6⟩ =
      Outcome.report (.witnessLength 3 2) := by
  have hShape : singlePointKey.checkShape = .ok () := by decide
  have hKey : ofKey singlePointKey = .ok ⟨singlePointKey, hShape⟩ := rfl
  refine ⟨_, hKey, ?_, ?_, ?_⟩
  · obtain ⟨-, -, -, hProof, hChecked⟩ :=
      assemble_exact hKey 8 ⟨[1], [2], [3], [1, 8, 9]⟩ fourPoints ⟨5, 6⟩
    obtain ⟨proof, hAssembled⟩ :=
      hProof.mpr ⟨rfl, by decide, rfl, rfl, by decide⟩
    exact ⟨proof, hAssembled, hChecked.trans hAssembled⟩
  · refine (assemble_exact hKey 8 _ fourPoints ⟨5,
      6⟩).2.2.1.mpr ⟨rfl, by decide, ?_⟩
    rintro ⟨-, -, hFit⟩
    exact absurd hFit (by decide)
  · exact ((assemble_exact hKey 8 _ fourPoints ⟨5, 6⟩).1 3 2).mpr
      ⟨by decide, rfl, rfl⟩

end Assembler

end RankOne
