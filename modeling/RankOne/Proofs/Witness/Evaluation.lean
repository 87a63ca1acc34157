import RankOne.Proofs.Field.Ring
import RankOne.Proofs.Outcome
import RankOne.Witness.Solver

/-!
# Partial sums and full assignments

The solver sums the expressions of a constraint over the wires it knows, and
leaves at most one wire open. Under a full assignment that gives the known wires
their values, the expression evaluates to the sum, completed by the open wire's
coefficient times its value.
-/

namespace RankOne

variable {p : Nat} [Modulus p]

namespace CompiledSystem

/-- The value of an input of a hint under a full assignment. -/
def evaluateInput (system : CompiledSystem p) (wires : Array (Fp p)) :
    HintInput p → Except Fault (Fp p)
  | .constant value => .ok value
  | .expression terms => system.evaluate wires terms

theorem evaluate_cons {system : CompiledSystem p} {wires : Array (Fp p)}
    {term : Term} {rest : Expression} {coefficient value sum : Fp p}
    (hCoefficient : system.coefficients[term.slot.toNat]? = some coefficient)
    (hValue : wires[term.wire]? = some value)
    (hRest : system.evaluate wires rest = .ok sum) :
    system.evaluate wires (term :: rest) = .ok (coefficient * value + sum) := by
  unfold evaluate
  rw [hCoefficient, hValue, hRest]

end CompiledSystem

/-- A full assignment gives a wire the value under which a constraint sees it,
if it sees it. -/
def View.Reads (view : View p) (progress : Progress p) (wires : Array (Fp p))
    (wire : Nat) : Prop :=
  ∀ value, view.get progress wire = .ok (some value) → wires[wire]? = some value

namespace Solver

variable {solver : Solver p} {view : View p} {progress : Progress p}

/-- Under a full assignment, the function of a hint maps the values of its
inputs to those of its outputs. -/
def HintHolds (solver : Solver p) (wires : Array (Fp p)) (hint : Hint p) :
    Prop :=
  ∃ inputs outputs,
    hint.inputs.mapM (solver.system.evaluateInput wires) = .ok inputs ∧
    solver.applyHint hint inputs = .ok outputs ∧
    hint.wires.map (fun wire => wires[wire]?) = outputs.map some

omit [Modulus p] in
theorem coefficient_eq_ok {slot : UInt32} {coefficient : Fp p} :
    solver.coefficient slot = .ok coefficient ↔
      solver.system.coefficients[slot.toNat]? = some coefficient := by
  unfold Solver.coefficient
  split
  · next value hValue =>
      rw [hValue]
      constructor <;> intro h <;> injection h with h <;> rw [h]
  · next hNone =>
      rw [hNone]
      constructor <;> intro h <;> cases h

/-- The function of a hint has as many results as the hint has outputs. -/
theorem length_applyHint {hint : Hint p} {inputs outputs : List (Fp p)}
    (h : solver.applyHint hint inputs = .ok outputs) :
    outputs.length = hint.wires.length := by
  unfold applyHint at h
  split at h
  · cases h
  split at h
  · cases h
  next results _ =>
  injection h with h
  rw [← h, Vector.length_toList]

/-! ## Expressions all of whose wires are known -/

private theorem foldlM_addKnown_sound {terms : Expression} {start total : Fp p}
    (h : terms.foldlM (solver.addKnown view progress) start = .ok total) :
    (∀ term ∈ terms, ∃ value, view.get progress term.wire = .ok (some value)) ∧
      ∀ wires : Array (Fp p),
        (∀ term ∈ terms, view.Reads progress wires term.wire) →
        ∃ sum, solver.system.evaluate wires terms = .ok sum ∧
          total = start + sum := by
  induction terms generalizing start with
  | nil =>
      rw [List.foldlM_nil, pure_eq_ok] at h
      refine ⟨by simp, fun wires _ => ⟨0, rfl, ?_⟩⟩
      rw [← h, add_zero]
  | cons term rest ih =>
      rw [List.foldlM_cons, bind_eq_ok] at h
      obtain ⟨next, hTerm, hRest⟩ := h
      unfold addKnown at hTerm
      rw [bind_eq_ok] at hTerm
      obtain ⟨read, hRead, hTerm⟩ := hTerm
      rw [Outcome.ofFaulty_eq_ok] at hRead
      cases read with
      | none => exact absurd hTerm Outcome.report_ne_ok
      | some value =>
          simp only [bind_eq_ok, Outcome.ofFaulty_eq_ok, pure_eq_ok,
            coefficient_eq_ok] at hTerm
          obtain ⟨coefficient, hCoefficient, rfl⟩ := hTerm
          obtain ⟨hKnown, hSum⟩ := ih hRest
          constructor
          · intro other hOther
            rcases List.mem_cons.mp hOther with rfl | hOther
            · exact ⟨value, hRead⟩
            · exact hKnown other hOther
          · intro wires hWires
            obtain ⟨sum, hEvaluate, hTotal⟩ :=
              hSum wires (fun other hOther =>
                hWires other (List.mem_cons_of_mem _ hOther))
            refine ⟨coefficient * value + sum, ?_, ?_⟩
            · exact CompiledSystem.evaluate_cons hCoefficient
                (hWires term List.mem_cons_self value hRead) hEvaluate
            · rw [hTotal, add_assoc]

/-- The inputs of a hint are evaluated only when all wires in them are known,
and a full assignment gives them the same values. -/
private theorem evaluateInput_sound {input : HintInput p} {value : Fp p}
    (h : solver.evaluateInput view progress input = .ok value) :
    (∀ term ∈ input.terms, ∃ seen,
      view.get progress term.wire = .ok (some seen)) ∧
      ∀ wires : Array (Fp p),
        (∀ term ∈ input.terms, view.Reads progress wires term.wire) →
        solver.system.evaluateInput wires input = .ok value := by
  cases input with
  | constant constant =>
      injection h with h
      refine ⟨by simp [HintInput.terms], fun wires _ => ?_⟩
      rw [← h]
      rfl
  | expression terms =>
      obtain ⟨hKnown, hSum⟩ := foldlM_addKnown_sound h
      refine ⟨hKnown, fun wires hWires => ?_⟩
      obtain ⟨sum, hEvaluate, hTotal⟩ := hSum wires hWires
      rw [zero_add] at hTotal
      rw [hTotal]
      exact hEvaluate

theorem mapM_evaluateInput_sound {inputs : List (HintInput p)}
    {values : List (Fp p)}
    (h : inputs.mapM (solver.evaluateInput view progress) = .ok values) :
    (∀ term ∈ inputs.flatMap HintInput.terms,
      ∃ seen, view.get progress term.wire = .ok (some seen)) ∧
      ∀ wires : Array (Fp p),
        (∀ term ∈ inputs.flatMap HintInput.terms,
          view.Reads progress wires term.wire) →
          inputs.mapM (solver.system.evaluateInput wires) = .ok values := by
  induction inputs generalizing values with
  | nil =>
      rw [List.mapM_nil, pure_eq_ok] at h
      exact ⟨by simp, fun wires _ => h ▸ rfl⟩
  | cons input rest ih =>
      rw [List.mapM_cons] at h
      simp only [bind_eq_ok, pure_eq_ok] at h
      obtain ⟨value, hValue, others, hOthers, rfl⟩ := h
      obtain ⟨hKnown, hFirst⟩ := evaluateInput_sound hValue
      obtain ⟨hRestKnown, hRest⟩ := ih hOthers
      constructor
      · intro term hTerm
        rw [List.flatMap_cons, List.mem_append] at hTerm
        exact hTerm.elim (hKnown term) (hRestKnown term)
      · intro wires hWires
        have hHead := hFirst wires fun term hTerm =>
          hWires term
            (by rw [List.flatMap_cons]; exact List.mem_append_left _ hTerm)
        have hTail := hRest wires fun term hTerm =>
          hWires term
            (by rw [List.flatMap_cons]; exact List.mem_append_right _ hTerm)
        rw [List.mapM_cons, hHead, hTail]
        rfl

end Solver

/-! ## Expressions with one open wire -/

namespace PartialSum

/-- The sum completed by a value for the open wire. -/
def total (partialSum : PartialSum p) (value : Fp p) : Fp p :=
  match partialSum.unknown with
  | none => partialSum.sum
  | some (_, coefficient) => partialSum.sum + coefficient * value

/-- What a partial sum says about the expression it has been taken of. -/
structure Sums (solver : Solver p) (view : View p) (progress : Progress p)
    (terms : Expression) (partialSum : PartialSum p) : Prop where
  origin : ∀ wire coefficient, partialSum.unknown = some (wire, coefficient) →
    (∃ term ∈ terms, term.wire = wire) ∧ view.get progress wire = .ok none
  covers : ∀ term ∈ terms,
    (∃ value, view.get progress term.wire = .ok (some value)) ∨
    ∃ coefficient, partialSum.unknown = some (term.wire, coefficient)
  evaluate : ∀ (wires : Array (Fp p)) (value : Fp p),
    (∀ term ∈ terms, view.Reads progress wires term.wire) →
    (∀ wire coefficient, partialSum.unknown = some (wire, coefficient) →
      wires[wire]? = some value) →
    solver.system.evaluate wires terms = .ok (partialSum.total value)

theorem addTerm_known {partialSum next : PartialSum p} {constraint wire : Nat}
    {coefficient value : Fp p}
    (h : partialSum.addTerm constraint coefficient wire (some value) =
      .ok next) :
    next.unknown = partialSum.unknown ∧
      ∀ x, next.total x = partialSum.total x + coefficient * value := by
  injection h with h
  subst h
  refine ⟨rfl, fun x => ?_⟩
  unfold total
  cases partialSum.unknown with
  | none => rfl
  | some open' => exact add_right_comm _ _ _

theorem addTerm_unknown {partialSum next : PartialSum p} {constraint wire : Nat}
    {coefficient : Fp p}
    (h : partialSum.addTerm constraint coefficient wire none = .ok next) :
    (∃ folded, next.unknown = some (wire, folded)) ∧
      (∀ other folded, partialSum.unknown = some (other, folded) →
        other = wire) ∧
      ∀ x, next.total x = partialSum.total x + coefficient * x := by
  unfold addTerm at h
  dsimp only at h
  split at h
  · next hNone =>
      injection h with h
      subst h
      refine ⟨⟨coefficient, rfl⟩, ?_, fun x => ?_⟩
      · intro other folded hSome
        rw [hNone] at hSome
        cases hSome
      · unfold total
        rw [hNone]
  · next unknown folded hSome =>
      split at h
      · next hSame =>
          injection h with h
          subst h
          refine ⟨⟨folded + coefficient, rfl⟩, ?_, fun x => ?_⟩
          · intro other folded' hOther
            rw [hSome] at hOther
            injection hOther with hOther
            injection hOther with hOther
            rw [← hOther, hSame]
          · unfold total
            rw [hSome]
            dsimp only
            rw [add_mul, add_assoc]
      · cases h

end PartialSum

namespace Solver

variable {solver : Solver p} {view : View p} {progress : Progress p}

open PartialSum

/-- What summing further terms adds to a partial sum. -/
private theorem foldlM_addSeen_sound {constraint : Nat} {terms : Expression}
    {start last : PartialSum p}
    (h : terms.foldlM (solver.addSeen view progress constraint) start =
      .ok last) :
    (∀ wire folded, start.unknown = some (wire, folded) →
      ∃ folded', last.unknown = some (wire, folded')) ∧
    (∀ wire folded, last.unknown = some (wire, folded) →
      (∃ folded', start.unknown = some (wire, folded')) ∨
        (∃ term ∈ terms, term.wire = wire) ∧
          view.get progress wire = .ok none) ∧
    (∀ term ∈ terms, (∃ value, view.get progress term.wire = .ok (some value)) ∨
      ∃ folded, last.unknown = some (term.wire, folded)) ∧
    ∀ (wires : Array (Fp p)) (value : Fp p),
      (∀ term ∈ terms, view.Reads progress wires term.wire) →
      (∀ wire folded, last.unknown = some (wire, folded) →
        wires[wire]? = some value) →
      ∃ sum, solver.system.evaluate wires terms = .ok sum ∧
        last.total value = start.total value + sum := by
  induction terms generalizing start with
  | nil =>
      rw [List.foldlM_nil, pure_eq_ok] at h
      subst h
      refine ⟨fun wire folded h => ⟨folded, h⟩, fun wire folded h =>
        Or.inl ⟨folded, h⟩, by simp, fun wires value _ _ => ⟨0, rfl, ?_⟩⟩
      rw [add_zero]
  | cons term rest ih =>
      rw [List.foldlM_cons, bind_eq_ok] at h
      obtain ⟨next, hTerm, hRest⟩ := h
      unfold addSeen at hTerm
      simp only [bind_eq_ok, Outcome.ofFaulty_eq_ok, Outcome.ofExcept_eq_ok,
        coefficient_eq_ok] at hTerm
      obtain ⟨coefficient, hCoefficient, read, hRead, hAdd⟩ := hTerm
      obtain ⟨hStays, hOrigin, hCovers, hSum⟩ := ih hRest
      cases read with
      | some seen =>
          obtain ⟨hUnknown, hTotal⟩ := addTerm_known hAdd
          refine ⟨hUnknown ▸ hStays, ?_, ?_, ?_⟩
          · intro wire folded hLast
            rcases hOrigin wire folded hLast
              with hStart | ⟨⟨other, hOther, hWire⟩, hNone⟩
            · exact Or.inl (hUnknown ▸ hStart)
            · exact Or.inr ⟨⟨other, List.mem_cons_of_mem _ hOther, hWire⟩,
                hNone⟩
          · intro other hOther
            rcases List.mem_cons.mp hOther with rfl | hOther
            · exact Or.inl ⟨seen, hRead⟩
            · exact hCovers other hOther
          · intro wires value hWires hLast
            obtain ⟨sum, hEvaluate, hEnd⟩ := hSum wires value
              (fun other hOther =>
                hWires other (List.mem_cons_of_mem _ hOther)) hLast
            refine ⟨coefficient * seen + sum, ?_, ?_⟩
            · exact CompiledSystem.evaluate_cons hCoefficient
                (hWires term List.mem_cons_self seen hRead) hEvaluate
            · rw [hEnd, hTotal, add_assoc]
      | none =>
          obtain ⟨⟨folded, hNext⟩, hSame, hTotal⟩ := addTerm_unknown hAdd
          obtain ⟨folded', hLast⟩ := hStays term.wire folded hNext
          refine ⟨?_, ?_, ?_, ?_⟩
          · intro wire folded hStart
            exact ⟨folded', hSame wire folded hStart ▸ hLast⟩
          · intro wire folded hEnd
            rw [hLast] at hEnd
            injection hEnd with hEnd
            injection hEnd with hWire
            exact Or.inr ⟨⟨term, List.mem_cons_self, hWire⟩, hWire ▸ hRead⟩
          · intro other hOther
            rcases List.mem_cons.mp hOther with rfl | hOther
            · exact Or.inr ⟨folded', hLast⟩
            · exact hCovers other hOther
          · intro wires value hWires hOpen
            obtain ⟨sum, hEvaluate, hEnd⟩ := hSum wires value
              (fun other hOther =>
                hWires other (List.mem_cons_of_mem _ hOther)) hOpen
            refine ⟨coefficient * value + sum, ?_, ?_⟩
            · exact CompiledSystem.evaluate_cons hCoefficient
                (hOpen term.wire folded' hLast) hEvaluate
            · rw [hEnd, hTotal, add_assoc]

/-- A partial sum, completed, is the value of the expression. -/
theorem sumKnown_sound {constraint : Nat} {terms : Expression}
    {partialSum : PartialSum p}
    (h : solver.sumKnown view progress constraint terms = .ok partialSum) :
    partialSum.Sums solver view progress terms := by
  obtain ⟨-, hOrigin, hCovers, hSum⟩ := foldlM_addSeen_sound h
  exact
    { origin := by
        intro wire coefficient hOpen
        rcases hOrigin wire coefficient hOpen with ⟨folded, hStart⟩ | hTerm
        · cases hStart
        · exact hTerm
      covers := hCovers
      evaluate := by
        intro wires value hWires hOpen
        obtain ⟨sum, hEvaluate, hTotal⟩ := hSum wires value hWires hOpen
        have hStart : (⟨0, none⟩ : PartialSum p).total value = 0 := rfl
        rw [hTotal, hStart, zero_add]
        exact hEvaluate }

end Solver

/-! ## Solving -/

namespace PartialSum

/-- The values of the expressions are the sums, all completed by one value. The
wire that is written is the one that some sum leaves open. -/
theorem isolate_sound {constraint : Nat} {left right output : PartialSum p}
    {write : Option (Nat × Fp p)} {row : Row p}
    (h : isolate constraint left right output = .ok (write, row)) :
    ∃ value, row = ⟨left.total value, right.total value, output.total value⟩ ∧
      (∀ partialSum ∈ [left, right, output], ∀ wire coefficient,
        partialSum.unknown = some (wire, coefficient) →
          write = some (wire, value)) ∧
      ∀ wire written, write = some (wire, written) →
        ∃ partialSum ∈ [left, right, output], ∃ coefficient,
          partialSum.unknown = some (wire, coefficient) := by
  unfold isolate at h
  dsimp only at h
  split at h
  · next hLeft hRight hOutput =>
      injection h with h
      injection h with hWrite hRow
      subst hWrite
      subst hRow
      refine ⟨0, ?_, ?_, ?_⟩
      · simp only [total, hLeft, hRight, hOutput]
      · simp [hLeft, hRight, hOutput]
      · simp
  · next wire k hLeft hRight hOutput =>
      split at h
      · cases h
      injection h with h
      injection h with hWrite hRow
      subst hWrite
      subst hRow
      refine ⟨(output.sum * right.sum⁻¹ - left.sum) * k⁻¹, ?_, ?_, ?_⟩
      · simp only [total, hLeft, hRight, hOutput]
      · simp [hLeft, hRight, hOutput]
      · simp [hLeft]
  · next wire k hLeft hRight hOutput =>
      split at h
      · cases h
      injection h with h
      injection h with hWrite hRow
      subst hWrite
      subst hRow
      refine ⟨(output.sum * left.sum⁻¹ - right.sum) * k⁻¹, ?_, ?_, ?_⟩
      · simp only [total, hLeft, hRight, hOutput]
      · simp [hLeft, hRight, hOutput]
      · simp [hRight]
  · next wire k hLeft hRight hOutput =>
      split at h
      · cases h
      injection h with h
      injection h with hWrite hRow
      subst hWrite
      subst hRow
      refine ⟨(left.sum * right.sum - output.sum) * k⁻¹, ?_, ?_, ?_⟩
      · simp only [total, hLeft, hRight, hOutput]
      · simp [hLeft, hRight, hOutput]
      · simp [hOutput]
  · cases h

/-- What has been solved has been checked. -/
theorem solve_holds {constraint : Nat} {left right output : PartialSum p}
    {write : Option (Nat × Fp p)} {row : Row p}
    (h : solve constraint left right output = .ok (write, row)) :
    isolate constraint left right output = .ok (write, row) ∧
      row.left * row.right = row.output := by
  unfold solve at h
  split at h
  · cases h
  next write' row' hIsolate =>
  split at h
  · next hHolds =>
      injection h with h
      injection h with hWrite hRow
      subst hWrite
      subst hRow
      exact ⟨hIsolate, hHolds⟩
  · cases h

end PartialSum

end RankOne
