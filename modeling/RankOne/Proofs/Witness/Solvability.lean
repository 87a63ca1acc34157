import RankOne.Proofs.Witness.ConstraintRun

/-!
# When a constraint can be solved

Which wires a constraint has to be solved for is settled before any value is
known: the constraint resolves them, and no hint produces them. Nor does it
depend on the order of terms. Three things can stand against solving: a hint
that the constraint runs reads such a wire, which is found only later; there is
more than one such wire, or more than one expression with one; or the equation
does not depend on the wire, because its coefficients cancel or the other factor
is zero.
-/

namespace RankOne

variable {p : Nat}

/-! ## The obstacles -/

namespace ValidSystem

variable (system : ValidSystem p) (resolver : Std.TreeMap Nat Nat) (node : Nat)

/-- An expression mentions a wire for which constraint `node` is to be
solved. -/
def Opens (terms : Expression) : Prop :=
  ∃ term ∈ terms, system.SolvesFor resolver node term.wire

/-- An expression mentions two wires for which constraint `node` is to be
solved. -/
def OpensTwice (terms : Expression) : Prop :=
  ∃ term ∈ terms, ∃ term' ∈ terms, system.SolvesFor resolver node term.wire ∧
    system.SolvesFor resolver node term'.wire ∧ term.wire ≠ term'.wire

/-- Constraint `node` would have to be solved for two wires, or for one wire in
two expressions. -/
def Crowded (c : Constraint) : Prop :=
  (∃ terms ∈ [c.left, c.right, c.output],
    system.OpensTwice resolver node terms) ∨
    system.Opens resolver node c.left ∧ system.Opens resolver node c.right ∨
    system.Opens resolver node c.left ∧ system.Opens resolver node c.output ∨
    system.Opens resolver node c.right ∧ system.Opens resolver node c.output

/-- The sum of the coefficients of the wires for which constraint `node` is to
be solved. -/
def openCoefficient [Modulus p] (terms : Expression) : Fp p :=
  (terms.map fun term =>
    if system.SolvesFor resolver node term.wire then
      system.coefficients.getD term.slot.toNat 0
    else 0).sum

end ValidSystem

variable [Modulus p]

/-- The equation of constraint `node` does not depend on the wire for which it
is to be solved. -/
def CompiledSystem.Degenerate (system : CompiledSystem p)
    (resolver : Std.TreeMap Nat Nat) (node : Nat) (wires : Array (Fp p))
    (c : Constraint) : Prop :=
  system.Opens resolver node c.left ∧
      (system.openCoefficient resolver node c.left = 0 ∨
        system.evaluate wires c.right = .ok 0) ∨
    system.Opens resolver node c.right ∧
      (system.openCoefficient resolver node c.right = 0 ∨
        system.evaluate wires c.left = .ok 0) ∨
    system.Opens resolver node c.output ∧
      system.openCoefficient resolver node c.output = 0

/-- None of the obstacles stands against solving constraint `node`. -/
structure CompiledSystem.Solvable (system : CompiledSystem p)
    (resolver : Std.TreeMap Nat Nat) (node : Nat) (wires : Array (Fp p))
    (c : Constraint) : Prop where
  fed : ∀ wire, ¬ system.Starves resolver node wire
  uncrowded : ¬ system.Crowded resolver node c
  determined : ¬ system.Degenerate resolver node wires c

/-! ## Sums with an open wire -/

namespace PartialSum

/-- The coefficient of the open wire. -/
def folded (partialSum : PartialSum p) : Fp p :=
  (partialSum.unknown.map Prod.snd).getD 0

private theorem folded_addTerm {partialSum next : PartialSum p}
    {constraint wire : Nat} {coefficient : Fp p} {value : Option (Fp p)}
    (h : partialSum.addTerm constraint coefficient wire value = .ok next) :
    next.folded = partialSum.folded + if value = none then coefficient
      else 0 := by
  cases value with
  | some value =>
      injection h with h
      subst h
      rw [if_neg (by simp), add_zero]
      rfl
  | none =>
      rw [if_pos rfl]
      unfold folded
      unfold addTerm at h
      dsimp only at h
      split at h
      · next hNone =>
          injection h with h
          subst h
          rw [hNone]
          exact (zero_add coefficient).symm
      · next unknown coefficients hSome =>
          split at h
          · injection h with h
            subst h
            rw [hSome]
            rfl
          · cases h

omit [Modulus p] in
/-- A term cannot be added only when a second wire would be left open. -/
private theorem addTerm_eq_error {partialSum : PartialSum p}
    {constraint wire : Nat} {coefficient : Fp p} {value : Option (Fp p)}
    {e : SolveError}
    (h : partialSum.addTerm constraint coefficient wire value = .error e) :
    e = .multipleUnknowns constraint ∧ value = none ∧
      ∃ other coefficients, partialSum.unknown = some (other, coefficients) ∧
        other ≠ wire := by
  unfold addTerm at h
  split at h
  · cases h
  · split at h
    · cases h
    · next other coefficients hSome =>
        split at h
        · cases h
        · next hOther =>
            injection h with h
            exact ⟨h.symm, rfl, other, coefficients, hSome, hOther⟩

/-- Why an equation cannot be solved: wires are left open in two sums, or the
equation does not depend on the open wire. -/
theorem isolate_eq_error {constraint : Nat} {left right output : PartialSum p}
    {e : SolveError} (h : isolate constraint left right output = .error e) :
    e = .multipleUnknowns constraint ∧
        (left.unknown.isSome ∧ right.unknown.isSome ∨ left.unknown.isSome ∧
          output.unknown.isSome ∨
          right.unknown.isSome ∧ output.unknown.isSome) ∨
      (∃ wire, e = .unsolvableDivision constraint wire) ∧
        (left.unknown.isSome ∧
          (left.folded = 0 ∨ right.unknown = none ∧ right.sum = 0) ∨
          right.unknown.isSome ∧
            (right.folded = 0 ∨ left.unknown = none ∧ left.sum = 0) ∨
          output.unknown.isSome ∧ output.folded = 0) := by
  unfold isolate at h
  dsimp only at h
  split at h
  · cases h
  · next wire k hLeft hRight hOutput =>
      split at h
      · next hZero =>
          injection h with h
          refine Or.inr ⟨⟨wire, h.symm⟩, Or.inl ⟨by rw [hLeft]; rfl, ?_⟩⟩
          rcases hZero with hFactor | hCoefficient
          · exact Or.inr ⟨hRight, hFactor⟩
          · exact Or.inl (by simp [folded, hLeft, hCoefficient])
      · cases h
  · next wire k hLeft hRight hOutput =>
      split at h
      · next hZero =>
          injection h with h
          refine Or.inr ⟨⟨wire, h.symm⟩,
            Or.inr (Or.inl ⟨by rw [hRight]; rfl, ?_⟩)⟩
          rcases hZero with hFactor | hCoefficient
          · exact Or.inr ⟨hLeft, hFactor⟩
          · exact Or.inl (by simp [folded, hRight, hCoefficient])
      · cases h
  · next wire k hLeft hRight hOutput =>
      split at h
      · next hZero =>
          injection h with h
          exact Or.inr ⟨⟨wire, h.symm⟩, Or.inr (Or.inr
            ⟨by rw [hOutput]; rfl, by simp [folded, hOutput, hZero]⟩)⟩
      · cases h
  · next hNone hLeft hRight hOutput =>
      injection h with h
      refine Or.inl ⟨h.symm, ?_⟩
      cases hL : left.unknown with
      | none =>
          cases hR : right.unknown with
          | none =>
              cases hO : output.unknown with
              | none => exact absurd hO (hNone hL hR)
              | some open' => exact absurd hO (hOutput open'.1 open'.2 hL hR)
          | some open' =>
              cases hO : output.unknown with
              | none => exact absurd hO (hRight open'.1 open'.2 hL hR)
              | some _ => simp
      | some open' =>
          cases hR : right.unknown with
          | none =>
              cases hO : output.unknown with
              | none => exact absurd hO (hLeft open'.1 open'.2 hL hR)
              | some _ => simp
          | some _ => simp

theorem solve_eq_error {constraint : Nat} {left right output : PartialSum p}
    {e : SolveError} (h : solve constraint left right output = .error e) :
    isolate constraint left right output = .error e ∨
      e = .unsatisfied constraint ∧ ∃ write row,
        isolate constraint left right output = .ok (write, row) ∧
          row.left * row.right ≠ row.output := by
  unfold solve at h
  split at h
  · next e' hIsolate =>
      injection h with h
      exact Or.inl (h ▸ hIsolate)
  · next write row hIsolate =>
      split at h
      · cases h
      · next hViolated =>
          injection h with h
          exact Or.inr ⟨h.symm, write, row, hIsolate, hViolated⟩

/-- What has been solved had at most one sum with an open wire, and depended on
the wire. -/
private theorem isolate_solvable {constraint : Nat}
    {left right output : PartialSum p} {write : Option (Nat × Fp p)}
    {row : Row p}
    (h : isolate constraint left right output = .ok (write, row)) :
    ¬ (left.unknown.isSome ∧ right.unknown.isSome ∨ left.unknown.isSome ∧
      output.unknown.isSome ∨
        right.unknown.isSome ∧ output.unknown.isSome) ∧
      (left.unknown.isSome → left.folded ≠ 0 ∧ right.sum ≠ 0) ∧
      (right.unknown.isSome → right.folded ≠ 0 ∧ left.sum ≠ 0) ∧
      (output.unknown.isSome → output.folded ≠ 0) := by
  unfold isolate at h
  dsimp only at h
  unfold folded
  split at h
  · next hLeft hRight hOutput => simp [hLeft, hRight, hOutput]
  · next wire k hLeft hRight hOutput =>
      split at h
      · cases h
      · next hNonzero =>
          rw [not_or] at hNonzero
          simp [hLeft, hRight, hOutput, hNonzero.1, hNonzero.2]
  · next wire k hLeft hRight hOutput =>
      split at h
      · cases h
      · next hNonzero =>
          rw [not_or] at hNonzero
          simp [hLeft, hRight, hOutput, hNonzero.1, hNonzero.2]
  · next wire k hLeft hRight hOutput =>
      split at h
      · cases h
      · next hNonzero => simp [hLeft, hRight, hOutput, hNonzero]
  · cases h

/-- A sum that leaves no wire open is the value of its expression. -/
theorem Sums.evaluate_of_closed {solver : Solver p} {view : View p}
    {progress : Progress p} {terms : Expression} {partialSum : PartialSum p}
    {wires : Array (Fp p)} (h : partialSum.Sums solver view progress terms)
    (hReads : ∀ term ∈ terms, view.Reads progress wires term.wire)
    (hClosed : partialSum.unknown = none) :
    solver.system.evaluate wires terms = .ok partialSum.sum := by
  have hTotal : partialSum.total 0 = partialSum.sum := by
    unfold total
    rw [hClosed]
  rw [← hTotal]
  apply h.evaluate wires 0 hReads
  intro wire coefficient hOpen
  rw [hClosed] at hOpen
  cases hOpen

private theorem Sums.sum_eq_of_closed {solver : Solver p} {view : View p}
    {progress : Progress p} {terms : Expression} {partialSum : PartialSum p}
    {wires : Array (Fp p)} (h : partialSum.Sums solver view progress terms)
    (hReads : ∀ term ∈ terms, view.Reads progress wires term.wire)
    (hClosed : partialSum.unknown = none) {value : Fp p}
    (hValue : solver.system.evaluate wires terms = .ok value) :
    partialSum.sum = value := by
  rw [h.evaluate_of_closed hReads hClosed] at hValue
  injection hValue

section Missing

variable {solver : Solver p} {view : View p} {progress : Progress p}
  {terms : Expression} {partialSum : PartialSum p}
  (h : partialSum.Sums solver view progress terms)
include h

/-- A wire of the expression that is not known is the one left open. -/
theorem Sums.exists_folded {term : Term} (hTerm : term ∈ terms)
    (hUnseen : view.get progress term.wire = .ok none) :
    ∃ coefficient, partialSum.unknown = some (term.wire, coefficient) := by
  rcases h.covers term hTerm with ⟨value, hSeen⟩ | hUnknown
  · rw [hUnseen] at hSeen
    injection hSeen with hSeen
    cases hSeen
  · exact hUnknown

/-- A sum leaves a wire open if some wire of its expression is not known. -/
private theorem Sums.isSome_unknown_iff : partialSum.unknown.isSome ↔
    ∃ term ∈ terms, view.get progress term.wire = .ok none := by
  constructor
  · intro hOpen
    obtain ⟨⟨wire, coefficient⟩, hUnknown⟩ := Option.isSome_iff_exists.mp hOpen
    obtain ⟨⟨term, hTerm, rfl⟩, hUnseen⟩ := h.origin wire coefficient hUnknown
    exact ⟨term, hTerm, hUnseen⟩
  · rintro ⟨term, hTerm, hUnseen⟩
    obtain ⟨coefficient, hUnknown⟩ := h.exists_folded hTerm hUnseen
    rw [hUnknown]
    rfl

/-- At most one wire of the expression is not known. -/
private theorem Sums.wire_unique {term term' : Term} (hTerm : term ∈ terms)
    (hUnseen : view.get progress term.wire = .ok none) (hTerm' : term' ∈ terms)
    (hUnseen' : view.get progress term'.wire = .ok none) :
    term.wire = term'.wire := by
  obtain ⟨coefficient, hUnknown⟩ := h.exists_folded hTerm hUnseen
  obtain ⟨coefficient', hUnknown'⟩ := h.exists_folded hTerm' hUnseen'
  rw [hUnknown] at hUnknown'
  injection hUnknown' with hSame
  exact (Prod.mk.inj hSame).1

end Missing

end PartialSum

namespace Solver

variable {solver : Solver p} {view : View p} {progress : Progress p}
  {node : Nat} {terms : Expression}

omit [Modulus p] in
/-- Coefficients of terms in range can be looked up. -/
theorem exists_coefficient {term : Term}
    (hTerm : solver.system.TermInRange term) :
    ∃ coefficient, solver.coefficient term.slot = .ok coefficient ∧
      solver.system.coefficients[term.slot.toNat]? = some coefficient := by
  have hGet := Array.getElem?_eq_getElem hTerm.2
  exact ⟨_, coefficient_eq_ok.mpr hGet, hGet⟩

/-- The sum of the coefficients of the wires of an expression that are not
known. -/
def missingCoefficient (solver : Solver p) (view : View p)
    (progress : Progress p) (terms : Expression) : Fp p :=
  (terms.map fun term =>
    if view.get progress term.wire = .ok none then
      solver.system.coefficients.getD term.slot.toNat 0
    else 0).sum

/-- The coefficient of the open wire is the sum of its coefficients in the
expression. -/
theorem folded_of_sumKnown {partialSum : PartialSum p}
    (h : solver.sumKnown view progress node terms = .ok partialSum) :
    partialSum.folded = solver.missingCoefficient view progress terms := by
  have hFold : ∀ {start last : PartialSum p},
      terms.foldlM (solver.addSeen view progress node) start = .ok last →
        last.folded =
          start.folded + solver.missingCoefficient view progress terms := by
    clear h
    induction terms with
    | nil =>
        intro start last h
        rw [List.foldlM_nil, pure_eq_ok] at h
        rw [h]
        exact (add_zero _).symm
    | cons term rest ih =>
        intro start last h
        rw [List.foldlM_cons, bind_eq_ok] at h
        obtain ⟨next, hTerm, hRest⟩ := h
        unfold addSeen at hTerm
        simp only [bind_eq_ok, Outcome.ofFaulty_eq_ok, Outcome.ofExcept_eq_ok,
          coefficient_eq_ok] at hTerm
        obtain ⟨coefficient, hCoefficient, read, hRead, hAdd⟩ := hTerm
        have hSlot : solver.system.coefficients.getD term.slot.toNat 0 =
            coefficient := by
          rw [Array.getD_eq_getD_getElem?, hCoefficient]
          rfl
        unfold missingCoefficient at ih ⊢
        rw [ih hRest, PartialSum.folded_addTerm hAdd, add_assoc, List.map_cons,
          List.sum_cons, hSlot, hRead]
        simp only [Except.ok.injEq]
  have hStart : (⟨0, none⟩ : PartialSum p).folded = 0 := rfl
  rw [hFold h, hStart, zero_add]

/-- An expression whose wires can all be looked up can only not be summed when
two of them are not known. -/
theorem sumKnown_eq_error {failure : Failure SolveError}
    (hRange : ∀ term ∈ terms, solver.system.TermInRange term)
    (hReads : ∀ term ∈ terms, ∃ read, view.get progress term.wire = .ok read)
    (h : solver.sumKnown view progress node terms = .error failure) :
    failure = .reported (.multipleUnknowns node) ∧
      ∃ term ∈ terms, ∃ term' ∈ terms, view.get progress term.wire = .ok none ∧
        view.get progress term'.wire = .ok none ∧ term.wire ≠ term'.wire := by
  obtain ⟨term, hTerm, partialSum, hOrigin, hFails⟩ := foldlM_error_step
    (fun current : PartialSum p => ∀ wire coefficient,
      current.unknown = some (wire, coefficient) →
      ∃ term ∈ terms, term.wire = wire ∧ view.get progress term.wire = .ok none)
    h (by simp) (by
      intro term hTerm current next hCurrent hNext wire coefficient hUnknown
      unfold addSeen at hNext
      simp only [bind_eq_ok, Outcome.ofFaulty_eq_ok, Outcome.ofExcept_eq_ok]
        at hNext
      obtain ⟨_, -, read, hRead, hAdd⟩ := hNext
      cases read with
      | some value =>
          rw [(PartialSum.addTerm_known hAdd).1] at hUnknown
          exact hCurrent wire coefficient hUnknown
      | none =>
          obtain ⟨⟨folded, hFolded⟩, -, -⟩ := PartialSum.addTerm_unknown hAdd
          rw [hFolded] at hUnknown
          injection hUnknown with hUnknown
          exact ⟨term, hTerm, (Prod.mk.inj hUnknown).1, hRead⟩)
  obtain ⟨coefficient, hCoefficient, -⟩ :=
    exists_coefficient (hRange term hTerm)
  obtain ⟨read, hRead⟩ := hReads term hTerm
  unfold addSeen at hFails
  rw [hCoefficient, hRead] at hFails
  obtain ⟨e, rfl, hAdd⟩ := Outcome.ofExcept_eq_error.mp hFails
  obtain ⟨rfl, rfl, other, coefficients, hUnknown, hOther⟩ :=
    PartialSum.addTerm_eq_error hAdd
  obtain ⟨term', hTerm', rfl, hUnseen'⟩ := hOrigin other coefficients hUnknown
  exact ⟨rfl, term', hTerm', term, hTerm, hUnseen', hRead, hOther⟩

end Solver

/-! ## Constraints whose hints have been run -/

/-- The hints of constraint `node` have been run. -/
structure HintsRun (solver : Solver p) (resolution : Resolution) (node : Nat)
    (c : Constraint) (view : View p) (progress : Progress p) : Prop where
  valid : progress.Valid solver resolution node view
  ran : ∀ term ∈ c.terms, ∀ number hint,
    solver.system.hintFor? term.wire = some (number, hint) →
      resolution.resolver[term.wire]? = some node →
        progress.Ran solver resolution node view hint

namespace Solver.Turn

variable {solver : Solver p} {resolution : Resolution} {node : Nat}
  {c : Constraint} {cost : NodeCost} {view : View p}
  (hTurn : solver.Turn resolution node c cost view)
include hTurn

omit [Modulus p] in
/-- Looking up what the constraint reads does not fail. -/
theorem exists_get (progress : Progress p) {wire : Nat}
    (hSettled : SettledFor solver.system.toValidSystem resolution.resolver
      cost.dependencies node wire) :
    ∃ read, view.get progress wire = .ok read := by
  by_cases hOwner : resolution.resolver[wire]? = some node
  · exact ⟨_, hTurn.get_own hOwner⟩
  · obtain ⟨value, -, hGet⟩ := hTurn.get_other hSettled hOwner
    exact ⟨some value, hGet progress⟩

variable {progress : Progress p}

/-- Once its hints have been run, a constraint still misses exactly the wires
for which it is to be solved. -/
private theorem get_eq_none_iff
    (hRun : HintsRun solver resolution node c view progress) {term : Term}
    (hTerm : term ∈ c.terms) :
    view.get progress term.wire = .ok none ↔
      solver.system.SolvesFor resolution.resolver node term.wire := by
  constructor
  · intro hUnseen
    obtain ⟨hOwner, hUnwritten⟩ :=
      hTurn.get_eq_none (hTurn.nodeResolved.settled term hTerm) hUnseen
    refine ⟨hOwner, ?_⟩
    cases hProducer : solver.system.hintFor? term.wire with
    | none => rfl
    | some produced =>
        obtain ⟨number, hint⟩ := produced
        have hWire := (hTurn.wellFormed.hintFor?_eq_some_iff.mp hProducer).2
        have hWritten :=
          (hRun.ran term hTerm number hint hProducer hOwner).outputs _ hWire
        rw [hUnwritten] at hWritten
        cases hWritten
  · rintro ⟨hOwner, hPlain⟩
    rw [hTurn.get_own hOwner]
    cases hWritten : progress.writes.lookup term.wire with
    | none => rfl
    | some value =>
        obtain ⟨-, number, hint, hGet, hWire⟩ :=
          hRun.valid.origin term.wire (by rw [hWritten]; rfl)
        rw [hTurn.wellFormed.hintFor?_eq_some_iff.mpr ⟨hGet, hWire⟩] at hPlain
        cases hPlain

variable {terms : Expression} (hTerms : ∀ term ∈ terms, term ∈ c.terms)
  (hRun : HintsRun solver resolution node c view progress)
include hTerms hRun

/-- A sum leaves a wire open if its expression mentions one for which the
constraint is to be solved. -/
theorem isSome_unknown_iff {partialSum : PartialSum p}
    (h : solver.sumKnown view progress node terms = .ok partialSum) :
    partialSum.unknown.isSome ↔
      solver.system.Opens resolution.resolver node terms := by
  rw [(sumKnown_sound h).isSome_unknown_iff]
  exact exists_congr fun term =>
    and_congr_right fun hTerm => hTurn.get_eq_none_iff hRun (hTerms term hTerm)

/-- In an expression that has been summed, at most one wire was open. -/
private theorem not_opensTwice {partialSum : PartialSum p}
    (h : solver.sumKnown view progress node terms = .ok partialSum) :
    ¬ solver.system.OpensTwice resolution.resolver node terms := by
  rintro ⟨term, hTerm, term', hTerm', hSolves, hSolves', hOther⟩
  exact hOther ((sumKnown_sound h).wire_unique
    hTerm ((hTurn.get_eq_none_iff hRun (hTerms term hTerm)).mpr hSolves)
    hTerm' ((hTurn.get_eq_none_iff hRun (hTerms term' hTerm')).mpr hSolves'))

/-- The coefficient of the open wire is the sum of its coefficients in the
expression. -/
theorem folded_eq {partialSum : PartialSum p}
    (h : solver.sumKnown view progress node terms = .ok partialSum) :
    partialSum.folded =
      solver.system.openCoefficient resolution.resolver node terms := by
  rw [folded_of_sumKnown h]
  unfold missingCoefficient ValidSystem.openCoefficient
  congr 1
  refine List.map_congr_left fun term hTerm => ?_
  simp only [hTurn.get_eq_none_iff hRun (hTerms term hTerm)]

/-- An expression can only not be summed when it mentions two wires for which
the constraint is to be solved. -/
theorem sumKnown_failure {failure : Failure SolveError}
    (hGet : solver.system.constraints[node]? = some c)
    (h : solver.sumKnown view progress node terms = .error failure) :
    failure = .reported (.multipleUnknowns node) ∧
      solver.system.OpensTwice resolution.resolver node terms := by
  obtain ⟨hFailure, term, hTerm, term', hTerm', hUnseen, hUnseen', hOther⟩ :=
    sumKnown_eq_error
      (fun term hTerm =>
        hTurn.wellFormed.terms_inRange node c hGet term (hTerms term hTerm))
      (fun term hTerm =>
        hTurn.exists_get progress
          (hTurn.nodeResolved.settled term (hTerms term hTerm))) h
  exact ⟨hFailure, term, hTerm, term', hTerm',
    (hTurn.get_eq_none_iff hRun (hTerms term hTerm)).mp hUnseen,
    (hTurn.get_eq_none_iff hRun (hTerms term' hTerm')).mp hUnseen', hOther⟩

end Solver.Turn

/-! ## Constraints that have been run -/

namespace Solver.Turn

variable {solver : Solver p} {resolution : Resolution} {node : Nat}
  {c : Constraint} {cost : NodeCost} {view : View p}
  (hTurn : solver.Turn resolution node c cost view)
include hTurn

theorem hintsRun {progress : Progress p}
    (h : c.terms.foldlM (solver.runHintOf view) {} = .ok progress) :
    HintsRun solver resolution node c view progress := by
  obtain ⟨hValid, hRan⟩ :=
    hTurn.runHints_sound (fun _ hTerm => hTerm) Progress.Valid.start h
  exact ⟨hValid, hRan⟩

/-- No hint that has been run reads a wire for which the constraint is to be
solved. -/
private theorem not_starves {progress : Progress p}
    (hRun : HintsRun solver resolution node c view progress) (wire : Nat) :
    ¬ solver.system.Starves resolution.resolver node wire := by
  rintro ⟨⟨hOwner, hPlain⟩, number, hint, hGet, hFirstOwner, term, hTerm, rfl⟩
  have hFirst := hTurn.wellFormed.firstWire_mem hGet
  have hProducer := hTurn.wellFormed.hintFor?_eq_some_iff.mpr ⟨hGet, hFirst⟩
  -- The hint has been run, and so it has read the wire.
  have hWritten : (progress.writes.lookup hint.firstWire).isSome := by
    rcases hTurn.written_or_plain hRun.valid hRun.ran hFirstOwner with
      hWritten | ⟨mentioned, hMentioned, hSame⟩
    · exact hWritten
    · rw [← hSame] at hProducer hFirstOwner ⊢
      exact (hRun.ran mentioned hMentioned number hint hProducer
        hFirstOwner).outputs _ (hSame ▸ hFirst)
  have hRead :=
    (hRun.valid.ran number hint hGet _ hFirst hWritten).inputs term hTerm hOwner
  obtain ⟨-, source, sourceHint, hSource, hWire⟩ :=
    hRun.valid.origin term.wire hRead
  rw [hTurn.wellFormed.hintFor?_eq_some_iff.mpr ⟨hSource, hWire⟩] at hPlain
  cases hPlain

/-- A constraint that has been run met no obstacle. -/
theorem runConstraint_solvable {step : Step p}
    (hGet : solver.system.constraints[node]? = some c)
    (h : solver.runConstraint view node = .ok step) {wires : Array (Fp p)}
    (hWires : Assigns wires view.known step.writes) :
    solver.system.Solvable resolution.resolver node wires c := by
  obtain ⟨-, progress, left, right, output, write, hWrites, -, hHints, hLeft,
    hRight, hOutput, hSolve⟩ := runConstraint_eq_ok hGet h
  have hRun := hTurn.hintsRun hHints
  have hLeftTerms : ∀ term ∈ c.left, term ∈ c.terms := c.mem_terms (by simp)
  have hRightTerms : ∀ term ∈ c.right, term ∈ c.terms := c.mem_terms (by simp)
  have hOutputTerms : ∀ term ∈ c.output, term ∈ c.terms := c.mem_terms (by simp)
  have hLeftOpen := hTurn.isSome_unknown_iff hLeftTerms hRun hLeft
  have hRightOpen := hTurn.isSome_unknown_iff hRightTerms hRun hRight
  have hOutputOpen := hTurn.isSome_unknown_iff hOutputTerms hRun hOutput
  obtain ⟨hIsolate, -⟩ := PartialSum.solve_holds hSolve
  obtain ⟨hSingle, hLeftSolvable, hRightSolvable, hOutputSolvable⟩ :=
    PartialSum.isolate_solvable hIsolate
  rw [hLeftOpen, hRightOpen, hOutputOpen] at hSingle
  refine ⟨hTurn.not_starves hRun, ?_, ?_⟩
  · rintro (⟨terms, hMem, hTwice⟩ | hBoth)
    · simp only [List.mem_cons, List.not_mem_nil, or_false] at hMem
      rcases hMem with rfl | rfl | rfl
      · exact hTurn.not_opensTwice hLeftTerms hRun hLeft hTwice
      · exact hTurn.not_opensTwice hRightTerms hRun hRight hTwice
      · exact hTurn.not_opensTwice hOutputTerms hRun hOutput hTwice
    · exact hSingle hBoth
  · rw [hWrites] at hWires
    obtain ⟨value, hSolved, -⟩ :=
      hTurn.solved hHints hLeft hRight hOutput hIsolate
    have hReads : ∀ term ∈ c.terms, view.Reads progress wires term.wire :=
      fun term hTerm =>
      hTurn.reads (hTurn.nodeResolved.settled term hTerm)
        ((hSolved.grow hTurn).assigns hWires)
    rintro (⟨hOpen, hZero⟩ | ⟨hOpen, hZero⟩ | ⟨hOpen, hZero⟩)
    · rw [← hTurn.folded_eq hLeftTerms hRun hLeft] at hZero
      obtain ⟨hFolded, hSum⟩ := hLeftSolvable (hLeftOpen.mpr hOpen)
      rcases hZero with hZero | hZero
      · exact hFolded hZero
      · have hClosed : right.unknown = none := by
          rw [← Option.not_isSome_iff_eq_none, hRightOpen]
          exact fun hOther => hSingle (Or.inl ⟨hOpen, hOther⟩)
        exact hSum ((sumKnown_sound hRight).sum_eq_of_closed
          (fun term hTerm =>
            hReads term (hRightTerms term hTerm)) hClosed hZero)
    · rw [← hTurn.folded_eq hRightTerms hRun hRight] at hZero
      obtain ⟨hFolded, hSum⟩ := hRightSolvable (hRightOpen.mpr hOpen)
      rcases hZero with hZero | hZero
      · exact hFolded hZero
      · have hClosed : left.unknown = none := by
          rw [← Option.not_isSome_iff_eq_none, hLeftOpen]
          exact fun hOther => hSingle (Or.inl ⟨hOther, hOpen⟩)
        exact hSum ((sumKnown_sound hLeft).sum_eq_of_closed
          (fun term hTerm => hReads term (hLeftTerms term hTerm)) hClosed hZero)
    · rw [← hTurn.folded_eq hOutputTerms hRun hOutput] at hZero
      exact hOutputSolvable (hOutputOpen.mpr hOpen) hZero

end Solver.Turn

end RankOne
