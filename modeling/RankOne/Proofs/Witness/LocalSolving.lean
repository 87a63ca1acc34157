import RankOne.Proofs.Witness.Soundness
import RankOne.Proofs.Witness.Solvability

/-!
# Solving one constraint is exact

A constraint is solved apart from the rest of the system: all it has is a view
of some wires and what its own hints have written. What the equation says about
the wires that are not seen is measured by the full assignments that complete
the view. If a single wire is missing, in a single expression, the equation is
linear in it, and so it holds for exactly one value, for all values or for none.
The first case is solved, with that value; the others are impossible divisions.

## Main results

* `Solver.Allows` — the values of a wire for which a constraint holds;
* `PartialSum.solve_of_sole` — a linear equation has one solution, all or none;
* `View.misses_cases` — no wire is missing, a sole one, or several;
* `Solver.runConstraint_exact` — running a constraint tells these cases apart.
-/

namespace RankOne

/-! ## Expressions by place -/

/-- The place of an expression in a constraint. -/
inductive Side where
  | left
  | right
  | output
deriving DecidableEq, Repr

/-- The other factor of a product. -/
def Side.cofactor? : Side → Option Side
  | left => some right
  | right => some left
  | output => none

/-- The expression in a place. -/
def Constraint.side (c : Constraint) : Side → Expression
  | .left => c.left
  | .right => c.right
  | .output => c.output

private theorem Constraint.mem_terms_of_side {c : Constraint} {side : Side}
    {term : Term} (h : term ∈ c.side side) : term ∈ c.terms := by
  refine c.mem_terms ?_ term h
  cases side <;> simp [Constraint.side]

variable {p : Nat}

/-! ## Completions of a view -/

namespace View

/-- An expression mentions a wire that is not seen. -/
def Misses (view : View p) (progress : Progress p) (terms : Expression)
    (wire : Nat) : Prop :=
  (∃ term ∈ terms, term.wire = wire) ∧ view.get progress wire = .ok none

/-- A constraint mentions no wire that is not seen. -/
def MissesNone (view : View p) (progress : Progress p) (c : Constraint) :
    Prop :=
  ∀ side wire, ¬ view.Misses progress (c.side side) wire

/-- A single wire is not seen, and it is mentioned in a single expression of a
constraint, any number of times. -/
structure MissesOnly (view : View p) (progress : Progress p) (c : Constraint)
    (side : Side) (wire : Nat) : Prop where
  misses : view.Misses progress (c.side side) wire
  only : ∀ other wire', view.Misses progress (c.side other) wire' →
    other = side ∧ wire' = wire

/-- Wires that are not seen are mentioned in two expressions of a constraint, or
there are two of them. -/
def MissesSeveral (view : View p) (progress : Progress p) (c : Constraint) :
    Prop :=
  ∃ side wire other wire', view.Misses progress (c.side side) wire ∧
    view.Misses progress (c.side other) wire' ∧ (side ≠ other ∨ wire ≠ wire')

/-- A full assignment gives every wire that is seen the value under which it is
seen. -/
structure Completes (view : View p) (progress : Progress p)
    (wires : Array (Fp p)) : Prop where
  size : wires.size = view.known.size
  reads : ∀ wire, view.Reads progress wires wire

/-- The assignment that gives all wires that are not seen the same value. -/
def fill (view : View p) (progress : Progress p) (value : Fp p) :
    Array (Fp p) :=
  Array.ofFn fun wire : Fin view.known.size =>
    match view.get progress wire with
    | .ok (some seen) => seen
    | _ => value

variable {view : View p} {progress : Progress p}

/-- A constraint misses no wire, a sole one, or several. -/
theorem misses_cases (c : Constraint) :
    view.MissesNone progress c ∨
      (∃ side wire, view.MissesOnly progress c side wire) ∨
      view.MissesSeveral progress c := by
  by_cases hSeveral : view.MissesSeveral progress c
  · exact Or.inr (Or.inr hSeveral)
  · by_cases hNone : view.MissesNone progress c
    · exact Or.inl hNone
    · unfold MissesNone at hNone
      push Not at hNone
      obtain ⟨side, wire, hMisses⟩ := hNone
      refine Or.inr (Or.inl ⟨side, wire, hMisses, fun other wire' hOther => ?_⟩)
      by_contra hDiffers
      rw [not_and_or] at hDiffers
      exact hSeveral ⟨other, wire', side, wire, hOther, hMisses, hDiffers⟩

private theorem MissesNone.not_several {c : Constraint}
    (h : view.MissesNone progress c) : ¬ view.MissesSeveral progress c := by
  rintro ⟨side, wire, -, -, hMisses, -⟩
  exact h side wire hMisses

private theorem MissesOnly.not_several {c : Constraint} {side : Side}
    {wire : Nat} (h : view.MissesOnly progress c side wire) :
    ¬ view.MissesSeveral progress c := by
  rintro ⟨first, wire₁, second, wire₂, hFirst, hSecond, hDiffers⟩
  obtain ⟨rfl, rfl⟩ := h.only first wire₁ hFirst
  obtain ⟨rfl, rfl⟩ := h.only second wire₂ hSecond
  exact hDiffers.elim (fun h => h rfl) fun h => h rfl

private theorem lt_size_of_get {wire : Nat} {read : Option (Fp p)}
    (h : view.get progress wire = .ok read) : wire < view.known.size := by
  by_contra hBeyond
  unfold View.get at h
  rw [Array.getElem?_eq_none (Nat.not_lt.mp hBeyond)] at h
  cases h

private theorem exists_get_of_lt {wire : Nat} (h : wire < view.known.size) :
    ∃ read, view.get progress wire = .ok read := by
  unfold View.get
  rw [Array.getElem?_eq_getElem h]
  split
  · next hNone => cases hNone
  · exact ⟨_, rfl⟩
  · split
    · exact ⟨_, rfl⟩
    · exact ⟨_, rfl⟩

private theorem fill_completes (view : View p) (progress : Progress p)
    (value : Fp p) :
    view.Completes progress (view.fill progress value) where
  size := Array.size_ofFn
  reads := by
    intro wire seen hSeen
    unfold fill
    rw [Array.getElem?_ofFn, dif_pos (lt_size_of_get hSeen)]
    simp only [hSeen]

private theorem getElem?_fill {wire : Nat}
    (h : view.get progress wire = .ok none) (value : Fp p) :
    (view.fill progress value)[wire]? = some value := by
  unfold fill
  rw [Array.getElem?_ofFn, dif_pos (lt_size_of_get h)]
  simp only [h]

end View

variable [Modulus p]

/-- The expressions of a constraint have the values of a row. -/
structure CompiledSystem.HasRow (system : CompiledSystem p)
    (wires : Array (Fp p)) (c : Constraint) (row : Row p) : Prop where
  left : system.evaluate wires c.left = .ok row.left
  right : system.evaluate wires c.right = .ok row.right
  output : system.evaluate wires c.output = .ok row.output

/-- A full assignment satisfies a constraint. -/
def CompiledSystem.Satisfied (system : CompiledSystem p) (wires : Array (Fp p))
    (c : Constraint) : Prop :=
  ∃ row, system.HasRow wires c row ∧ row.left * row.right = row.output

namespace Solver

/-- With the wires that are seen as they are, the constraint holds for this
value of a wire. -/
def Allows (solver : Solver p) (view : View p) (progress : Progress p)
    (c : Constraint) (wire : Nat) (value : Fp p) : Prop :=
  ∃ wires, view.Completes progress wires ∧ wires[wire]? = some value ∧
    solver.system.Satisfied wires c

end Solver

/-! ## Equations with one open sum -/

namespace PartialSum

variable {sums : Side → PartialSum p} {side : Side} {wire : Nat} {k : Fp p}

/-- The equation of three sums, completed by a value for their open wires. -/
def Balanced (sums : Side → PartialSum p) (value : Fp p) : Prop :=
  (sums .left).total value * (sums .right).total value =
    (sums .output).total value

/-- The values of three sums, completed by a value for their open wires. -/
def rowAt (sums : Side → PartialSum p) (value : Fp p) : Row p :=
  ⟨(sums .left).total value, (sums .right).total value,
    (sums .output).total value⟩

/-- A single one of three sums leaves a wire open. -/
structure Sole (sums : Side → PartialSum p) (side : Side) (wire : Nat)
    (k : Fp p) : Prop where
  unknown : (sums side).unknown = some (wire, k)
  closed : ∀ other, other ≠ side → (sums other).unknown = none

/-- The coefficient of the open wire or the factor that it is multiplied with is
zero. -/
def Degenerate (sums : Side → PartialSum p) (side : Side) (k : Fp p) : Prop :=
  k = 0 ∨ ∃ other ∈ side.cofactor?, (sums other).sum = 0

omit [Modulus p] in
private theorem total_of_closed {partialSum : PartialSum p}
    (h : partialSum.unknown = none) (value : Fp p) :
    partialSum.total value = partialSum.sum := by
  unfold total
  rw [h]

omit [Modulus p] in
private theorem total_of_open {partialSum : PartialSum p}
    (h : partialSum.unknown = some (wire, k)) (value : Fp p) :
    partialSum.total value = partialSum.sum + k * value := by
  unfold total
  rw [h]

/-- A linear equation with a nonzero coefficient has one solution. -/
private theorem add_mul_eq_iff [Fact p.Prime] {s t value : Fp p} (hk : k ≠ 0) :
    s + k * value = t ↔ value = (t - s) * k⁻¹ := by
  rw [eq_mul_inv_iff_mul_eq₀ hk, eq_sub_iff_add_eq', mul_comm value k]

/-- The same behind a nonzero factor. -/
private theorem add_mul_mul_eq_iff [Fact p.Prime] {s f t value : Fp p}
    (hk : k ≠ 0) (hf : f ≠ 0) :
    (s + k * value) * f = t ↔ value = (t * f⁻¹ - s) * k⁻¹ := by
  rw [← eq_mul_inv_iff_mul_eq₀ hf, add_mul_eq_iff hk]

/-- The equation of sums of which one leaves a wire open is solved by all values
alike, and then the division is impossible, or by the one value that is
found. -/
private theorem isolate_of_sole [Fact p.Prime] (hSole : Sole sums side wire k)
    (node : Nat) :
    (Degenerate sums side k ∧
      isolate node (sums .left) (sums .right) (sums .output) =
        .error (.unsolvableDivision node wire) ∧
      ∀ value other, Balanced sums value ↔ Balanced sums other) ∨
    (¬ Degenerate sums side k ∧ ∃ x,
      isolate node (sums .left) (sums .right) (sums .output) =
        .ok (some (wire, x), rowAt sums x) ∧
      ∀ value, Balanced sums value ↔ value = x) := by
  have hTotal := total_of_open hSole.unknown
  unfold Balanced rowAt Degenerate
  cases side with
  | left =>
      have hRight := hSole.closed .right (by decide)
      have hOutput := hSole.closed .output (by decide)
      unfold isolate
      simp only [hSole.unknown, hRight, hOutput, hTotal, total_of_closed,
        Side.cofactor?, Option.mem_def, Option.some.injEq, exists_eq_left']
      by_cases hZero : k = 0 ∨ (sums .right).sum = 0
      · refine Or.inl ⟨hZero, if_pos hZero.symm, fun value other => ?_⟩
        rcases hZero with rfl | hZero
        · rw [zero_mul, zero_mul]
        · rw [hZero, mul_zero, mul_zero]
      · rw [if_neg fun h => hZero h.symm]
        rw [not_or] at hZero
        exact Or.inr ⟨not_or.mpr hZero, _, rfl,
          fun value => add_mul_mul_eq_iff hZero.1 hZero.2⟩
  | right =>
      have hLeft := hSole.closed .left (by decide)
      have hOutput := hSole.closed .output (by decide)
      unfold isolate
      simp only [hSole.unknown, hLeft, hOutput, hTotal, total_of_closed,
        Side.cofactor?, Option.mem_def, Option.some.injEq, exists_eq_left']
      by_cases hZero : k = 0 ∨ (sums .left).sum = 0
      · refine Or.inl ⟨hZero, if_pos hZero.symm, fun value other => ?_⟩
        rcases hZero with rfl | hZero
        · rw [zero_mul, zero_mul]
        · rw [hZero, zero_mul, zero_mul]
      · rw [if_neg fun h => hZero h.symm]
        rw [not_or] at hZero
        refine Or.inr ⟨not_or.mpr hZero, _, rfl, fun value => ?_⟩
        rw [mul_comm]
        exact add_mul_mul_eq_iff hZero.1 hZero.2
  | output =>
      have hLeft := hSole.closed .left (by decide)
      have hRight := hSole.closed .right (by decide)
      unfold isolate
      simp only [hSole.unknown, hLeft, hRight, hTotal, total_of_closed,
        Side.cofactor?, Option.mem_def, reduceCtorEq, false_and,
        exists_false, or_false]
      by_cases hZero : k = 0
      · refine Or.inl ⟨hZero, if_pos hZero, fun value other => ?_⟩
        rw [hZero, zero_mul, zero_mul]
      · rw [if_neg hZero]
        refine Or.inr ⟨hZero, _, rfl, fun value => ?_⟩
        rw [eq_comm]
        exact add_mul_eq_iff hZero

/-- What is found for a sole open wire satisfies the equation, so that the check
is passed. -/
theorem solve_of_sole [Fact p.Prime] (hSole : Sole sums side wire k)
    (node : Nat) :
    (Degenerate sums side k ∧
      solve node (sums .left) (sums .right) (sums .output) =
        .error (.unsolvableDivision node wire) ∧
      ∀ value other, Balanced sums value ↔ Balanced sums other) ∨
    (¬ Degenerate sums side k ∧ ∃ x,
      solve node (sums .left) (sums .right) (sums .output) =
        .ok (some (wire, x), rowAt sums x) ∧
      ∀ value, Balanced sums value ↔ value = x) := by
  unfold solve
  rcases isolate_of_sole hSole node
    with ⟨hZero, hIsolate, hAlike⟩ | ⟨hNonzero, x, hIsolate, hOne⟩
  · rw [hIsolate]
    exact Or.inl ⟨hZero, rfl, hAlike⟩
  · rw [hIsolate]
    exact Or.inr ⟨hNonzero, x, if_pos ((hOne x).mpr rfl), hOne⟩

/-- Complete sums are only checked. -/
private theorem solve_of_closed (hClosed : ∀ side, (sums side).unknown = none)
    (node : Nat) :
    (Balanced sums 0 ∧
      solve node (sums .left) (sums .right) (sums .output) =
        .ok (none, rowAt sums 0)) ∨
    (¬ Balanced sums 0 ∧
      solve node (sums .left) (sums .right) (sums .output) =
        .error (.unsatisfied node)) := by
  unfold solve isolate Balanced rowAt
  simp only [hClosed, total_of_closed]
  by_cases hHolds : (sums .left).sum * (sums .right).sum = (sums .output).sum
  · exact Or.inl ⟨hHolds, if_pos hHolds⟩
  · exact Or.inr ⟨hHolds, if_neg hHolds⟩

/-- Sums of which two leave wires open are not solved. -/
private theorem solve_of_two {other : Side} (hOther : side ≠ other)
    (hOpen : (sums side).unknown.isSome) (hOpen' : (sums other).unknown.isSome)
    (node : Nat) :
    solve node (sums .left) (sums .right) (sums .output) =
      .error (.multipleUnknowns node) := by
  have hIsolate : isolate node (sums .left) (sums .right) (sums .output) =
      .error (.multipleUnknowns node) := by
    unfold isolate
    cases hLeft : (sums .left).unknown <;>
      cases hRight : (sums .right).unknown <;>
      cases hOutput : (sums .output).unknown <;> first
        | rfl
        | -- At most one sum leaves a wire open, against the hypotheses.
          (cases side <;> cases other <;> simp_all)
  unfold solve
  rw [hIsolate]

end PartialSum

/-! ## Constraints with their sums -/

namespace Solver

variable {solver : Solver p} {view : View p} {progress : Progress p}
  {node : Nat} {c : Constraint} {sums : Side → PartialSum p}

open PartialSum

/-- The three expressions of a constraint have been summed over the wires that
are seen. -/
def Summed (solver : Solver p) (view : View p) (progress : Progress p)
    (node : Nat) (c : Constraint) (sums : Side → PartialSum p) : Prop :=
  ∀ side, solver.sumKnown view progress node (c.side side) = .ok (sums side)

/-- A row is the only one, so that it tells whether the constraint is
satisfied. -/
private theorem satisfied_iff {system : CompiledSystem p} {wires : Array (Fp p)}
    {row : Row p} (h : system.HasRow wires c row) :
    system.Satisfied wires c ↔ row.left * row.right = row.output := by
  constructor
  · rintro ⟨⟨left, right, output⟩, ⟨hLeft, hRight, hOutput⟩, hHolds⟩
    rw [h.left] at hLeft
    rw [h.right] at hRight
    rw [h.output] at hOutput
    injection hLeft with hLeft
    injection hRight with hRight
    injection hOutput with hOutput
    rw [hLeft, hRight, hOutput]
    exact hHolds
  · exact fun hHolds => ⟨row, h, hHolds⟩

namespace Summed

variable (hSums : solver.Summed view progress node c sums)
include hSums

/-- A sum leaves open what its expression misses. -/
private theorem misses_iff {side : Side} {wire : Nat} :
    view.Misses progress (c.side side) wire ↔
    ∃ k, (sums side).unknown = some (wire, k) := by
  have hSound := sumKnown_sound (hSums side)
  constructor
  · rintro ⟨⟨term, hTerm, rfl⟩, hUnseen⟩
    exact hSound.exists_folded hTerm hUnseen
  · rintro ⟨k, hUnknown⟩
    exact hSound.origin wire k hUnknown

private theorem isSome_of_misses {side : Side} {wire : Nat}
    (h : view.Misses progress (c.side side) wire) :
    (sums side).unknown.isSome := by
  obtain ⟨k, hUnknown⟩ := (misses_iff hSums).mp h
  rw [hUnknown]
  rfl

private theorem closed {side : Side}
    (h : ∀ wire, ¬ view.Misses progress (c.side side) wire) :
    (sums side).unknown = none := by
  cases hUnknown : (sums side).unknown with
  | none => rfl
  | some unknown =>
    exact absurd ((misses_iff hSums).mpr ⟨unknown.2, hUnknown⟩) (h unknown.1)

/-- The coefficient of a sole missing wire is the sum of its coefficients. -/
private theorem sole {side : Side} {wire : Nat}
    (h : view.MissesOnly progress c side wire) :
    Sole sums side wire
      (solver.missingCoefficient view progress (c.side side)) where
  unknown := by
    obtain ⟨k, hUnknown⟩ := (misses_iff hSums).mp h.misses
    have hFolded := folded_of_sumKnown (hSums side)
    unfold folded at hFolded
    rw [hUnknown] at hFolded
    rw [hUnknown, ← hFolded]
    rfl
  closed := fun other hOther => closed hSums fun wire' hMisses =>
    hOther (h.only other wire' hMisses).1

/-- The values of the expressions under a full assignment are the sums,
completed by the values of their open wires. -/
private theorem hasRow {wires : Array (Fp p)} {value : Fp p}
    (hWires : view.Completes progress wires)
    (hOpen : ∀ side wire k, (sums side).unknown = some (wire, k) →
      wires[wire]? = some value) :
    solver.system.HasRow wires c (rowAt sums value) := by
  have hValue : ∀ side, solver.system.evaluate wires (c.side side) =
      .ok ((sums side).total value) := fun side =>
    (sumKnown_sound (hSums side)).evaluate wires value (fun term _ =>
      hWires.reads term.wire) (hOpen side)
  exact ⟨hValue .left, hValue .right, hValue .output⟩

section Sole

variable {side : Side} {wire : Nat}
  (hOnly : view.MissesOnly progress c side wire)
include hOnly

private theorem hasRow_of_only {wires : Array (Fp p)} {value : Fp p}
    (hWires : view.Completes progress wires)
    (hValue : wires[wire]? = some value) :
    solver.system.HasRow wires c (rowAt sums value) := by
  refine hasRow hSums hWires fun other wire' k hUnknown => ?_
  obtain ⟨-, rfl⟩ :=
    hOnly.only other wire' ((misses_iff hSums).mpr ⟨k, hUnknown⟩)
  exact hValue

/-- A value is allowed for a sole missing wire when it balances the sums. -/
private theorem allows_iff (value : Fp p) :
    solver.Allows view progress c wire value ↔ Balanced sums value := by
  constructor
  · rintro ⟨wires, hWires, hValue, hSatisfied⟩
    exact (satisfied_iff (hasRow_of_only hSums hOnly hWires hValue)).mp
      hSatisfied
  · intro hBalanced
    have hWires := view.fill_completes progress value
    have hValue := View.getElem?_fill hOnly.misses.2 value
    exact ⟨_, hWires, hValue,
      (satisfied_iff (hasRow_of_only hSums hOnly hWires hValue)).mpr hBalanced⟩

/-- The other factor of a sole missing wire is seen as a whole. -/
private theorem cofactor_eq_zero_iff {other : Side} (hOther : other ≠ side) :
    (sums other).sum = 0 ↔ ∀ wires, view.Completes progress wires →
      solver.system.evaluate wires (c.side other) = .ok 0 := by
  have hClosed := (sole hSums hOnly).closed other hOther
  have hValue : ∀ wires, view.Completes progress wires →
      solver.system.evaluate wires (c.side other) = .ok (sums other).sum :=
        fun wires hWires =>
    (sumKnown_sound (hSums other)).evaluate_of_closed (fun term _ =>
      hWires.reads term.wire) hClosed
  constructor
  · intro hZero wires hWires
    rw [hValue wires hWires, hZero]
  · intro hAll
    have hFilled := view.fill_completes progress 0
    have hBoth := (hValue _ hFilled).symm.trans (hAll _ hFilled)
    injection hBoth

private theorem degenerate_iff :
    Degenerate sums side
      (solver.missingCoefficient view progress (c.side side)) ↔
      solver.missingCoefficient view progress (c.side side) = 0 ∨
        ∃ other ∈ side.cofactor?, ∀ wires, view.Completes progress wires →
          solver.system.evaluate wires (c.side other) = .ok 0 := by
  refine or_congr_right (exists_congr fun other =>
    and_congr_right fun hCofactor => ?_)
  refine cofactor_eq_zero_iff hSums hOnly ?_
  rintro rfl
  cases other <;> cases hCofactor

end Sole

/-- Once its hints have been run and its expressions summed, a constraint is
solved. -/
private theorem runConstraint_eq
    (hGet : solver.system.constraints[node]? = some c)
    (hHints : c.terms.foldlM (solver.runHintOf view) {} = .ok progress) :
    solver.runConstraint view node =
      match PartialSum.solve node (sums .left) (sums .right) (sums .output) with
      | .ok (write, row) => .ok {
          writes := write.toList ++ progress.writes
          hints := progress.hints
          constraint := node
          row }
      | .error e => Outcome.report e := by
  have hLeft := hSums .left
  have hRight := hSums .right
  have hOutput := hSums .output
  simp only [Constraint.side] at hLeft hRight hOutput
  unfold runConstraint
  rw [hGet]
  simp only [hHints, hLeft, hRight, hOutput, bind, Except.bind]
  cases PartialSum.solve node (sums .left) (sums .right) (sums .output) with
  | ok solved => rfl
  | error e => rfl

end Summed

/-- An expression can be summed unless two of its wires are missing. -/
private theorem sumKnown_cases (progress : Progress p) (node : Nat)
    {terms : Expression}
    (hRange : ∀ term ∈ terms, solver.system.TermInRange term)
    (hSize : view.known.size = solver.system.layout.numWires) :
    (∃ partialSum, solver.sumKnown view progress node terms = .ok partialSum) ∨
      solver.sumKnown view progress node terms =
        Outcome.report (.multipleUnknowns node) ∧
        ∃ wire wire', view.Misses progress terms wire ∧
          view.Misses progress terms wire' ∧
          wire ≠ wire' := by
  cases hSum : solver.sumKnown view progress node terms with
  | ok partialSum => exact Or.inl ⟨partialSum, rfl⟩
  | error failure =>
      obtain ⟨rfl, term, hTerm, term', hTerm', hUnseen, hUnseen', hOther⟩ :=
        sumKnown_eq_error
          hRange (fun term hTerm =>
            View.exists_get_of_lt (hSize ▸ (hRange term hTerm).1)) hSum
      exact Or.inr ⟨rfl, term.wire, term'.wire, ⟨⟨term, hTerm, rfl⟩, hUnseen⟩,
        ⟨⟨term', hTerm', rfl⟩, hUnseen'⟩, hOther⟩

/-! ## Running a constraint -/

/-- Running a constraint with a sole missing wire tells whether the equation
determines it. -/
structure SolvesExactly (solver : Solver p) (view : View p)
    (progress : Progress p) (node : Nat) (c : Constraint) (side : Side)
    (wire : Nat) : Prop where
  solved : (∃ step, solver.runConstraint view node = .ok step) ↔
    ∃! value, solver.Allows view progress c wire value
  written : ∀ step, solver.runConstraint view node = .ok step →
    step.constraint = node ∧ step.hints = progress.hints ∧
      ∃ value, solver.Allows view progress c wire value ∧
        step.writes = (wire, value) :: progress.writes ∧
        ∀ wires, view.Completes progress wires → wires[wire]? = some value →
          solver.system.HasRow wires c step.row
  undetermined : solver.runConstraint view node =
      Outcome.report (.unsolvableDivision node wire) ↔
    (∀ value, solver.Allows view progress c wire value) ∨
      ∀ value, ¬ solver.Allows view progress c wire value
  degenerate : ((∀ value, solver.Allows view progress c wire value) ∨
      ∀ value, ¬ solver.Allows view progress c wire value) ↔
    solver.missingCoefficient view progress (c.side side) = 0 ∨
      ∃ other ∈ side.cofactor?, ∀ wires, view.Completes progress wires →
        solver.system.evaluate wires (c.side other) = .ok 0
  satisfiable : ∀ number,
    solver.runConstraint view node ≠ Outcome.report (.unsatisfied number)

/-- Running a constraint that misses no wire checks it. -/
structure ChecksExactly (solver : Solver p) (view : View p)
    (progress : Progress p) (node : Nat) (c : Constraint)
    (wires : Array (Fp p)) : Prop where
  passed : (∃ step, solver.runConstraint view node = .ok step) ↔
    solver.system.Satisfied wires c
  rejected : solver.runConstraint view node =
    Outcome.report (.unsatisfied node) ↔
    ¬ solver.system.Satisfied wires c
  written : ∀ step, solver.runConstraint view node = .ok step →
    step.constraint = node ∧ step.hints = progress.hints ∧
      step.writes = progress.writes ∧
      solver.system.HasRow wires c step.row

section Run

variable (hGet : solver.system.constraints[node]? = some c)
  (hHints : c.terms.foldlM (solver.runHintOf view) {} = .ok progress)
include hGet hHints

/-- A sole missing wire is solved for. -/
private theorem Summed.solvesExactly [Fact p.Prime]
    (hSums : solver.Summed view progress node c sums) {side : Side} {wire : Nat}
    (hOnly : view.MissesOnly progress c side wire) :
    solver.SolvesExactly view progress node c side wire := by
  have hRun := hSums.runConstraint_eq hGet hHints
  have hAllows := hSums.allows_iff hOnly
  have hDegenerate := hSums.degenerate_iff hOnly
  rcases solve_of_sole (hSums.sole hOnly) node with
    ⟨hZero, hSolve, hAlike⟩ | ⟨hNonzero, x, hSolve, hOne⟩
  · -- The equation does not depend on the wire.
    rw [hSolve] at hRun
    have hUndetermined : (∀ value, solver.Allows view progress c wire value) ∨
        ∀ value, ¬ solver.Allows view progress c wire value := by
      simp only [hAllows]
      by_cases hHolds : Balanced sums 0
      · exact Or.inl fun value => (hAlike value 0).mpr hHolds
      · exact Or.inr fun value hValue => hHolds ((hAlike value 0).mp hValue)
    have hMany : ¬ ∃! value, solver.Allows view progress c wire value := by
      rintro ⟨value, hValue, hUnique⟩
      rcases hUndetermined with hAll | hNone
      · exact zero_ne_one ((hUnique 0 (hAll 0)).trans (hUnique 1 (hAll 1)).symm)
      · exact hNone value hValue
    exact
      { solved := iff_of_false (by simp [hRun, Outcome.report]) hMany
        written := by simp [hRun, Outcome.report]
        undetermined := iff_of_true hRun hUndetermined
        degenerate := iff_of_true hUndetermined (hDegenerate.mp hZero)
        satisfiable := by simp [hRun, Outcome.report] }
  · -- The equation has one solution.
    rw [hSolve] at hRun
    have hAllowed : ∀ value, solver.Allows view progress c wire value ↔
        value = x :=
      fun value => (hAllows value).trans (hOne value)
    have hDetermined : ¬ ((∀ value, solver.Allows view progress c wire value) ∨
        ∀ value, ¬ solver.Allows view progress c wire value) := by
      simp only [hAllowed]
      rintro (hAll | hNone)
      · exact zero_ne_one ((hAll 0).trans (hAll 1).symm)
      · exact hNone x rfl
    exact
      { solved := iff_of_true ⟨_, hRun⟩ ⟨x, (hAllowed x).mpr rfl,
          fun value => (hAllowed value).mp⟩
        written := by
          intro step hStep
          rw [hRun] at hStep
          injection hStep with hStep
          subst hStep
          exact ⟨rfl, rfl, x, (hAllowed x).mpr rfl, rfl,
            fun wires hWires hValue => hSums.hasRow_of_only hOnly hWires hValue⟩
        undetermined :=
          iff_of_false (by simp [hRun, Outcome.report]) hDetermined
        degenerate :=
          iff_of_false hDetermined fun hZero => hNonzero (hDegenerate.mpr hZero)
        satisfiable := by simp [hRun, Outcome.report] }

/-- Without a missing wire, the constraint is checked. -/
private theorem Summed.checksExactly
    (hSums : solver.Summed view progress node c sums)
    (hNone : view.MissesNone progress c) {wires : Array (Fp p)}
    (hWires : view.Completes progress wires) :
    solver.ChecksExactly view progress node c wires := by
  have hRun := hSums.runConstraint_eq hGet hHints
  have hClosed : ∀ side, (sums side).unknown = none :=
    fun side => hSums.closed (hNone side)
  have hRow : solver.system.HasRow wires c (rowAt sums 0) :=
    hSums.hasRow hWires fun side wire k hUnknown => by
      rw [hClosed side] at hUnknown
      cases hUnknown
  have hSatisfied := satisfied_iff hRow
  rcases solve_of_closed hClosed node
    with ⟨hHolds, hSolve⟩ | ⟨hViolated, hSolve⟩
  · rw [hSolve] at hRun
    exact
      { passed := iff_of_true ⟨_, hRun⟩ (hSatisfied.mpr hHolds)
        rejected := iff_of_false (by simp [hRun, Outcome.report])
          (not_not_intro (hSatisfied.mpr hHolds))
        written := by
          intro step hStep
          rw [hRun] at hStep
          injection hStep with hStep
          subst hStep
          exact ⟨rfl, rfl, rfl, hRow⟩ }
  · rw [hSolve] at hRun
    exact
      { passed := iff_of_false (by simp [hRun, Outcome.report])
          fun h => hViolated (hSatisfied.mp h)
        rejected := iff_of_true hRun fun h => hViolated (hSatisfied.mp h)
        written := by simp [hRun, Outcome.report] }

/-- Either all three expressions can be summed, or one of them misses two wires,
which ends the run. -/
private theorem summed_or_reported
    (hRange : ∀ term ∈ c.terms, solver.system.TermInRange term)
    (hSize : view.known.size = solver.system.layout.numWires) :
    (∃ sums, solver.Summed view progress node c sums) ∨
      view.MissesSeveral progress c ∧
        solver.runConstraint view node =
          Outcome.report (.multipleUnknowns node) := by
  have hSum := fun side => sumKnown_cases progress node
    (fun term hTerm => hRange term
      (Constraint.mem_terms_of_side (hTerm : term ∈ c.side side))) hSize
  unfold runConstraint
  rw [hGet]
  simp only [hHints, bind, Except.bind]
  rcases hSum .left
    with ⟨left, hLeft⟩ | ⟨hLeft, wire, wire', hMisses, hMisses', hOther⟩
  · rcases hSum .right
      with ⟨right, hRight⟩ | ⟨hRight, wire, wire', hMisses, hMisses', hOther⟩
    · rcases hSum .output with ⟨output, hOutput⟩ |
        ⟨hOutput, wire, wire', hMisses, hMisses', hOther⟩
      · refine Or.inl
          ⟨fun | .left => left | .right => right | .output => output, ?_⟩
        rintro (_ | _ | _)
        · exact hLeft
        · exact hRight
        · exact hOutput
      · refine Or.inr ⟨⟨.output, wire, .output, wire', hMisses, hMisses',
          Or.inr hOther⟩, ?_⟩
        simp only [Constraint.side] at hLeft hRight hOutput
        rw [hLeft, hRight, hOutput]
        rfl
    · refine Or.inr ⟨⟨.right, wire, .right, wire', hMisses, hMisses',
        Or.inr hOther⟩, ?_⟩
      simp only [Constraint.side] at hLeft hRight
      rw [hLeft, hRight]
      rfl
  · refine Or.inr ⟨⟨.left, wire, .left, wire', hMisses, hMisses',
      Or.inr hOther⟩, ?_⟩
    simp only [Constraint.side] at hLeft
    rw [hLeft]
    rfl

/-- Expressions that have been summed miss one wire each at most; when two of
them miss one, the constraint is not solved. -/
private theorem Summed.runConstraint_of_missesSeveral
    (hSums : solver.Summed view progress node c sums)
    (hSeveral : view.MissesSeveral progress c) :
    solver.runConstraint view node =
      Outcome.report (.multipleUnknowns node) := by
  obtain ⟨side, wire, other, wire', hMisses, hMisses', hDiffers⟩ := hSeveral
  have hOther : side ≠ other := by
    rintro rfl
    obtain ⟨k, hUnknown⟩ := hSums.misses_iff.mp hMisses
    obtain ⟨k', hUnknown'⟩ := hSums.misses_iff.mp hMisses'
    rw [hUnknown] at hUnknown'
    injection hUnknown' with hSame
    exact hDiffers.elim (fun h => h rfl) fun h => h (Prod.mk.inj hSame).1
  rw [hSums.runConstraint_eq hGet hHints,
    solve_of_two hOther (hSums.isSome_of_misses hMisses)
      (hSums.isSome_of_misses hMisses')]

end Run

/-- Once its hints have been run, a constraint of a compiled system misses no
wire, a sole one or several. It is solved for a sole missing wire exactly when
the equation determines it; it is checked when no wire is missing; and it is
rejected, with nothing recorded, when several are. -/
theorem runConstraint_exact [Fact p.Prime] {settings : SchedulerSettings}
    {flat : FlatSystem p}
    (hCompile : CompiledSystem.compile settings flat = .ok solver.system)
    (hGet : solver.system.constraints[node]? = some c)
    (hSize : view.known.size = solver.system.layout.numWires)
    (hHints : c.terms.foldlM (solver.runHintOf view) {} = .ok progress) :
    (view.MissesNone progress c ∨
      (∃ side wire, view.MissesOnly progress c side wire) ∨
        view.MissesSeveral progress c) ∧
      (∀ side wire, view.MissesOnly progress c side wire →
        solver.SolvesExactly view progress node c side wire) ∧
      (view.MissesNone progress c → ∀ wires, view.Completes progress wires →
        solver.ChecksExactly view progress node c wires) ∧
      (view.MissesSeveral progress c →
        solver.runConstraint view node =
          Outcome.report (.multipleUnknowns node) ∧
        ∀ rest, solver.runTask view (node :: rest) =
          { failure := some (.reported (.multipleUnknowns node)) }) := by
  obtain ⟨resolution, hPlan⟩ := CompiledSystem.compile_planned hCompile
  have hRange := hPlan.wellFormed.terms_inRange node c hGet
  have hCases := summed_or_reported hGet hHints hRange hSize
  refine ⟨View.misses_cases c, fun side wire hOnly => ?_,
    fun hNone wires hWires => ?_, fun hSeveral => ?_⟩
  · rcases hCases with ⟨sums, hSums⟩ | ⟨hSeveral, -⟩
    · exact hSums.solvesExactly hGet hHints hOnly
    · exact absurd hSeveral hOnly.not_several
  · rcases hCases with ⟨sums, hSums⟩ | ⟨hSeveral, -⟩
    · exact hSums.checksExactly hGet hHints hNone hWires
    · exact absurd hSeveral hNone.not_several
  · have hRun : solver.runConstraint view node =
        Outcome.report (.multipleUnknowns node) := by
      rcases hCases with ⟨sums, hSums⟩ | ⟨-, hReported⟩
      · exact hSums.runConstraint_of_missesSeveral hGet hHints hSeveral
      · exact hReported
    refine ⟨hRun, fun rest => ?_⟩
    unfold runTask
    rw [hRun]
    rfl

end Solver

/-- The constraint `(v + v) · 1 = z` of the square system. -/
def squareDouble : Constraint := ⟨[⟨0, 4⟩, ⟨0, 4⟩], [⟨0, 0⟩], [⟨0, 3⟩]⟩

/-- What is known of the square of five before that constraint is run. -/
def squareView : View 17 where
  known := #[some 1, some (Fp.ofNat 17 8), some (Fp.ofNat 17 5),
    some (Fp.ofNat 17 8), none, none, none]

/-- The repeated wire `v` is the only one missing. -/
private theorem squareDouble_missesOnly :
    squareView.MissesOnly {} squareDouble .left 4 where
  misses := ⟨⟨⟨0, 4⟩, by simp [squareDouble, Constraint.side], rfl⟩, rfl⟩
  only := by
    rintro (_ | _ | _) wire' ⟨⟨term, hTerm, rfl⟩, hUnseen⟩
    · simp only [squareDouble, Constraint.side, List.mem_cons, List.not_mem_nil,
        or_false, or_self] at hTerm
      subst hTerm
      exact ⟨rfl, rfl⟩
    · rw [List.mem_singleton.mp hTerm] at hUnseen
      cases hUnseen
    · rw [List.mem_singleton.mp hTerm] at hUnseen
      cases hUnseen

/-- The repeated wire of the square system is solved for: twice four is
eight. -/
theorem runConstraint_exact_square : ∃ (solver : Solver 17) (step : Step 17),
    CompiledSystem.compile {} squareSystem = .ok solver.system ∧
      solver.system.constraints[1]? = some squareDouble ∧
      squareView.known.size = solver.system.layout.numWires ∧
      squareDouble.terms.foldlM (solver.runHintOf squareView) {} = .ok {} ∧
      solver.runConstraint squareView 1 = .ok step ∧
        step.writes = [(4, Fp.ofNat 17 4)] ∧
      solver.SolvesExactly squareView {} 1 squareDouble .left 4 := by
  have hRun :
      ((CompiledSystem.compile {} squareSystem).toOption.any fun system =>
        decide (system.constraints[1]? = some squareDouble) &&
          decide (squareView.known.size = system.layout.numWires) &&
          (squareDouble.terms.foldlM
            ((Solver.ofSystem system).runHintOf squareView)
            {}).toOption.any (fun progress =>
              decide (progress.writes = []) && decide (progress.hints = [])) &&
          ((Solver.ofSystem system).runConstraint squareView 1).toOption.any
            fun step =>
            decide (step.writes = [(4, Fp.ofNat 17 4)])) = true := by
    decide +kernel
  simp only [Option.any_eq_true, toOption_eq_some, Bool.and_eq_true,
    decide_eq_true_eq] at hRun
  obtain ⟨system, hCompile, ⟨⟨hGet, hSize⟩, ⟨writes, hints⟩, hHints, rfl, rfl⟩,
    step, hStep, hWrites⟩ := hRun
  have hSystem : CompiledSystem.compile {} squareSystem =
      .ok (Solver.ofSystem system).system :=
    hCompile
  exact ⟨Solver.ofSystem system, step, hSystem, hGet, hSize, hHints, hStep,
    hWrites, (Solver.runConstraint_exact hSystem hGet hSize hHints).2.1 .left 4
    squareDouble_missesOnly⟩

end RankOne
