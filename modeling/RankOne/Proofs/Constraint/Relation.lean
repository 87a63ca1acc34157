import RankOne.Proofs.Constraint.Columns
import RankOne.Proofs.Witness.Soundness

/-!
# A system and its relation say the same

The relation of a system has a variable for each wire and a row for each
constraint. Wire values become values of the variables in the order of the
wires, except that the one wire always has the value one. Folding the terms of
an expression on its variables does not change its value, so an assignment
satisfies the relation exactly when every constraint of the system holds.

The counts of a compiled system add up to a word, so that the public wires are
the public variables and all other wires are witness variables.
-/

namespace RankOne

variable {p : Nat} [Modulus p]

/-- A list is made up of its entries. -/
private theorem map_getD_range {α : Type} (xs : List α) (d : α) :
    (List.range xs.length).map (fun place => xs.getD place d) = xs := by
  apply List.ext_getElem
  · rw [List.length_map, List.length_range]
  · intro place hLeft hRight
    rw [List.getElem_map, List.getElem_range, List.getD_eq_getElem _ _ hRight]

/-- Adding a term to a linear form adds its value, whether the variable occurs
already or not. -/
private theorem Assignment.eval_addTerm (assignment : Assignment p)
    (form : LinearForm p) (k : Fp p) (target : Variable) :
    assignment.eval (form.addTerm k target) =
      assignment.eval form + k * assignment.value target := by
  induction form with
  | nil =>
      show k * assignment.value target + 0 = 0 + k * assignment.value target
      rw [add_zero, zero_add]
  | cons head rest ih =>
      obtain ⟨other, sum⟩ := head
      have hCons : ∀ (c : Fp p) (form : LinearForm p),
          assignment.eval ((other, c) :: form) =
          c * assignment.value other + assignment.eval form := fun c form => rfl
      unfold LinearForm.addTerm
      split
      · next hSame =>
          subst hSame
          rw [hCons, hCons]
          ring
      · rw [hCons, hCons, ih, add_assoc]

namespace CompiledSystem

/-- Wire values with one as the value of the one wire. -/
def withOne (wires : List (Fp p)) : List (Fp p) := 1 :: wires.drop 1

variable {system : CompiledSystem p} {wires : List (Fp p)}
  {assignment : Assignment p}

/-- Every constraint holds for the given wire values. -/
def Holds (system : CompiledSystem p) (wires : List (Fp p)) : Prop :=
  ∀ (number : Nat) (c : Constraint), system.constraints[number]? = some c →
    ∃ left right output, system.evaluate wires.toArray c.left = .ok left ∧
      system.evaluate wires.toArray c.right = .ok right ∧
      system.evaluate wires.toArray c.output = .ok output ∧
        left * right = output

/-- A list that starts with one is not changed. -/
private theorem withOne_of_one (h : wires[0]? = some 1) :
    withOne wires = wires := by
  cases wires with
  | nil => cases h
  | cons first rest =>
      injection h with h
      subst h
      rfl

/-! ## Values of the variables -/

omit [Modulus p] in
private theorem assign?_eq_none_iff : system.assign? wires = none ↔
    1 < system.layout.numWires ∧ wires.length < system.layout.numWires := by
  unfold assign?
  split
  · next hMissing => exact iff_of_true rfl hMissing
  · next hEnough => exact iff_of_false (fun h => by cases h) hEnough

omit [Modulus p] in
private theorem assign?_eq_some (h : system.assign? wires = some assignment) :
    assignment.inputs =
      ((wires.take system.layout.numWires).drop 1).take system.inputCount ∧
      assignment.witness =
        ((wires.take system.layout.numWires).drop 1).drop system.inputCount ∧
      ¬(1 < system.layout.numWires ∧
        wires.length < system.layout.numWires) := by
  unfold assign? at h
  split at h
  · cases h
  · next hEnough =>
      injection h with h
      subst h
      exact ⟨rfl, rfl, hEnough⟩

section Values

variable (hAssign : system.assign? wires = some assignment)
include hAssign

/-- There is a value for each variable. -/
private theorem length_assigned :
    assignment.inputs.length = system.relation.numInputs ∧
      assignment.witness.length = system.relation.numWitness := by
  obtain ⟨hInputs, hWitness, hEnough⟩ := assign?_eq_some hAssign
  have hCount : system.inputCount ≤ system.layout.numWires - 1 := by
    unfold inputCount
    omega
  constructor
  · show _ = system.inputCount
    rw [hInputs, List.length_take, List.length_drop, List.length_take]
    omega
  · show _ = system.layout.numWires - 1 - system.inputCount
    rw [hWitness, List.length_drop, List.length_drop, List.length_take]
    omega

/-- The variables take the values of the wires, in the order of the wires. -/
private theorem map_value_allVariables :
    system.relation.allVariables.map assignment.value =
    1 :: (wires.take system.layout.numWires).drop 1 := by
  obtain ⟨hInputs, hWitness, -⟩ := assign?_eq_some hAssign
  obtain ⟨hInputCount, hWitnessCount⟩ := length_assigned hAssign
  have hAll : 1 :: (wires.take system.layout.numWires).drop 1 =
      1 :: (assignment.inputs ++ assignment.witness) := by
    rw [hInputs, hWitness, List.take_append_drop]
  unfold Relation.allVariables
  rw [hAll, ← hInputCount, ← hWitnessCount, List.map_append, List.map_cons,
    List.map_map, List.map_map, List.cons_append]
  congr 2
  · exact map_getD_range assignment.inputs 0
  · exact map_getD_range assignment.witness 0

/-- The variable of a wire takes the value of the wire. -/
private theorem value_variableOf (hPos : 0 < system.layout.numPublic.toNat)
    {wire : Nat} (hWire : wire < system.layout.numWires) :
    (withOne wires)[wire]? =
      some (assignment.value (system.variableOf wire)) := by
  obtain ⟨hInputs, hWitness, hEnough⟩ := assign?_eq_some hAssign
  have hValue : ∀ place, place + 1 < system.layout.numWires →
      (withOne wires)[place + 1]? = some ((wires[1 + place]?).getD 0) := by
    intro place hPlace
    have hBound : 1 + place < wires.length := by omega
    show (wires.drop 1)[place]? = _
    rw [List.getElem?_drop, List.getElem?_eq_getElem hBound, Option.getD_some]
  unfold variableOf
  split
  · next hZero =>
      subst hZero
      rfl
  split
  · next hNotOne hPublic =>
      obtain ⟨place, rfl⟩ : ∃ place, wire = place + 1 := ⟨wire - 1, by omega⟩
      have hCount : place < system.inputCount := by
        unfold inputCount
        omega
      rw [hValue place hWire]
      show _ = some (assignment.inputs.getD (place + 1 - 1) 0)
      rw [Nat.add_sub_cancel, hInputs, List.getD_eq_getElem?_getD,
        List.getElem?_take_of_lt hCount, List.getElem?_drop,
        List.getElem?_take_of_lt (by omega)]
  · next hNotOne hSecret =>
      obtain ⟨place, rfl⟩ : ∃ place, wire = place + 1 := ⟨wire - 1, by omega⟩
      have hCount : system.inputCount = system.layout.numPublic.toNat - 1 := by
        unfold inputCount
        omega
      have hPlace : system.layout.numPublic.toNat - 1 +
          (place + 1 - system.layout.numPublic.toNat) = place := by
        omega
      rw [hValue place hWire]
      show _ = some (assignment.witness.getD _ 0)
      rw [hWitness, hCount, List.getD_eq_getElem?_getD, List.getElem?_drop,
        hPlace, List.getElem?_drop, List.getElem?_take_of_lt (by omega)]

/-! ## Values of the rows -/

/-- An expression and its linear form have the same value, whatever terms are
repeated, in whatever order they stand, and whichever coefficients are zero. -/
theorem evaluate_eq_eval (hPos : 0 < system.layout.numPublic.toNat)
    {terms : Expression} (hTerms : ∀ term ∈ terms, system.TermInRange term) :
    system.evaluate (withOne wires).toArray terms =
      .ok (assignment.eval (system.formOf terms)) := by
  have hFold : ∀ form : LinearForm p, ∃ value,
      system.evaluate (withOne wires).toArray terms = .ok value ∧
      assignment.eval (terms.foldl (fun form term =>
        form.addTerm (system.coefficients.getD term.slot.toNat 0)
          (system.variableOf term.wire))
        form) = assignment.eval form + value := by
    induction terms with
    | nil => exact fun form => ⟨0, rfl, (add_zero _).symm⟩
    | cons term rest ih =>
        intro form
        obtain ⟨hWire, hSlot⟩ := hTerms term List.mem_cons_self
        have hCoefficient := Array.getElem?_eq_getElem hSlot
        have hValue := value_variableOf hAssign hPos hWire
        rw [← List.getElem?_toArray] at hValue
        obtain ⟨sum, hRest, hSum⟩ :=
          ih (fun other hOther =>
            hTerms other (List.mem_cons_of_mem _ hOther)) _
        refine ⟨_, evaluate_cons hCoefficient hValue hRest, ?_⟩
        rw [List.foldl_cons, hSum, Assignment.eval_addTerm,
          Array.getD_eq_getD_getElem?, hCoefficient,
          Option.getD_some, add_assoc]
  obtain ⟨value, hValue, hSum⟩ := hFold []
  have hEmpty : assignment.eval [] = 0 := rfl
  rw [hValue]
  congr 1
  rw [hEmpty, zero_add] at hSum
  exact hSum.symm

/-- The relation is satisfied exactly when every constraint holds. -/
private theorem satisfies_iff_holds (hWellFormed : system.WellFormed) :
    assignment.satisfies system.relation = true ↔
      system.Holds (withOne wires) := by
  have hEval : ∀ (number : Nat) (c : Constraint),
      system.constraints[number]? = some c →
      ∀ terms : Expression, (∀ term ∈ terms, term ∈ c.terms) →
        system.evaluate (withOne wires).toArray terms =
          .ok (assignment.eval (system.formOf terms)) :=
            fun number c hGet terms hTerms =>
    evaluate_eq_eval hAssign hWellFormed.public_pos fun term hTerm =>
      hWellFormed.terms_inRange number c hGet term (hTerms term hTerm)
  unfold Assignment.satisfies
  rw [List.all_eq_true]
  constructor
  · intro hRows number c hGet
    have hRow := hRows ⟨system.formOf c.left, system.formOf c.right,
      system.formOf c.output⟩
      (List.mem_map.mpr ⟨c,
        Array.mem_toList_iff.mpr (Array.mem_of_getElem? hGet), rfl⟩)
    exact ⟨_, _, _,
      hEval number c hGet c.left (by simp +contextual [Constraint.terms]),
      hEval number c hGet c.right (by simp +contextual [Constraint.terms]),
      hEval number c hGet c.output (by simp +contextual [Constraint.terms]),
      of_decide_eq_true hRow⟩
  · intro hHolds row hRow
    obtain ⟨c, hMem, rfl⟩ := List.mem_map.mp hRow
    obtain ⟨number, hGet⟩ :=
      Array.getElem?_of_mem (Array.mem_toList_iff.mp hMem)
    obtain ⟨left, right, output, hLeft, hRight, hOutput, hProduct⟩ :=
      hHolds number c hGet
    rw [hEval number c hGet c.left (by simp +contextual [Constraint.terms])]
      at hLeft
    rw [hEval number c hGet c.right (by simp +contextual [Constraint.terms])]
      at hRight
    rw [hEval number c hGet c.output (by simp +contextual [Constraint.terms])]
      at hOutput
    injection hLeft with hLeft
    injection hRight with hRight
    injection hOutput with hOutput
    subst hLeft hRight hOutput
    exact decide_eq_true hProduct

end Values

/-! ## Counts of the variables -/

/-- The variables are counted as the wires are when the counts add up. -/
theorem relation_counts (hPos : 0 < system.layout.numPublic.toNat)
    (hFits : system.layout.Fits) :
    system.relation.numPublic = system.layout.numPublic.toNat ∧
      system.relation.numWitness =
        system.layout.numSecret.toNat + system.layout.numInternal.toNat := by
  have hWires := hFits.numWires_eq
  rw [hFits.numInputs_eq] at hWires
  show system.inputCount + 1 = _ ∧ system.witnessCount = _
  unfold witnessCount inputCount
  omega

/-- What a system and its relation have in common for given wire values. -/
structure Agrees (system : CompiledSystem p) (wires : List (Fp p))
    (assignment : Assignment p) : Prop where
  inputs : assignment.inputs.length = system.relation.numInputs
  witness : assignment.witness.length = system.relation.numWitness
  values : system.relation.allVariables.map assignment.value =
    1 :: (wires.take system.layout.numWires).drop 1
  satisfied : assignment.satisfies system.relation = true ↔
    system.Holds (withOne wires)

/-- Wire values are refused exactly when there are too few of them, and
otherwise the relation says what the system says. There is a row for each
constraint, an input or one for each public wire and a witness variable for each
other wire. A solution satisfies the relation. -/
theorem relation_faithful {settings : SchedulerSettings} {flat : FlatSystem p}
    (hCompile : compile settings flat = .ok system) :
    (∀ wires : List (Fp p), (system.assign? wires = none ↔
        1 < system.layout.numWires ∧ wires.length < system.layout.numWires) ∧
      ∀ assignment, system.assign? wires = some assignment →
        system.Agrees wires assignment) ∧
    system.relation.rows.length = system.numConstraints ∧
    system.relation.numPublic = system.layout.numPublic.toNat ∧
    system.relation.numWitness =
      system.layout.numSecret.toNat + system.layout.numInternal.toNat ∧
    ∀ (functions : Std.TreeMap Nat
      (HintFunction p)) (publicInputs secretInputs : List (Fp p))
      (solution : Solution p),
      Solver.solve { system, functions } publicInputs secretInputs =
        .ok solution →
      ∃ assignment, system.assign? solution.witness = some assignment ∧
        assignment.satisfies system.relation = true := by
  obtain ⟨resolution, hPlan⟩ := compile_planned hCompile
  have hWellFormed := hPlan.wellFormed
  obtain ⟨hPublic, hWitness⟩ :=
    relation_counts hWellFormed.public_pos (fits_of_compile hCompile)
  refine ⟨fun wires => ⟨assign?_eq_none_iff, fun assignment hAssign => ?_⟩, ?_,
    hPublic, hWitness, ?_⟩
  · exact
      { inputs := (length_assigned hAssign).1
        witness := (length_assigned hAssign).2
        values := map_value_allVariables hAssign
        satisfied := satisfies_iff_holds hAssign hWellFormed }
  · show (system.constraints.toList.map _).length = _
    rw [List.length_map, Array.length_toList]
    rfl
  · intro functions publicInputs secretInputs solution hSolve
    have hSound :
        solution.Sound { system, functions } publicInputs secretInputs :=
      Solver.solution_sound hPlan hSolve
    have hLength : solution.witness.length = system.layout.numWires :=
      hSound.length_witness
    obtain ⟨assignment, hAssign⟩ : ∃ assignment,
        system.assign? solution.witness = some assignment := by
      rw [← Option.ne_none_iff_exists']
      intro hMissing
      have hFew := (assign?_eq_none_iff.mp hMissing).2
      omega
    refine ⟨assignment, hAssign,
      (satisfies_iff_holds hAssign hWellFormed).mpr ?_⟩
    rw [withOne_of_one hSound.one]
    intro number c hGet
    obtain ⟨left, right, output, -, -, -, hLeft, hRight, hOutput, hProduct⟩ :=
      hSound.constraints number c hGet
    exact ⟨left, right, output, hLeft, hRight, hOutput, hProduct⟩

end CompiledSystem

/-! ## The square of five -/

/-- The square of five satisfies the relation of its system, which has two
public variables and five witness variables. -/
theorem relation_faithful_square :
    ∃ (system : CompiledSystem 17) (solution : Solution 17)
    (assignment : Assignment 17),
    CompiledSystem.compile {} squareSystem = .ok system ∧
      system.relation.numPublic = 2 ∧ system.relation.numWitness = 5 ∧
      Solver.solve { system, functions := ∅ } [Fp.ofNat 17 8] [Fp.ofNat 17 5] =
        .ok solution ∧
      system.assign? solution.witness = some assignment ∧
      system.Agrees solution.witness assignment ∧
      assignment.satisfies system.relation = true := by
  have hRun :
      ((CompiledSystem.compile {} squareSystem).toOption.any fun system =>
        (Solver.solve { system, functions := ∅ } [Fp.ofNat 17 8]
          [Fp.ofNat 17 5]).toOption.any
          fun _ => decide (system.layout = ⟨2, 1, 4⟩)) = true := by
    decide +kernel
  simp only [Option.any_eq_true, toOption_eq_some, decide_eq_true_eq] at hRun
  obtain ⟨system, hCompile, solution, hSolve, hLayout⟩ := hRun
  obtain ⟨hWires, -, hPublic, hWitness, hSolved⟩ :=
    CompiledSystem.relation_faithful hCompile
  rw [hLayout] at hPublic hWitness
  obtain ⟨assignment, hAssign, hSatisfied⟩ := hSolved ∅ _ _ solution hSolve
  exact ⟨system, solution, assignment, hCompile, hPublic, hWitness, hSolve,
    hAssign, (hWires solution.witness).2 assignment hAssign, hSatisfied⟩

end RankOne
