import RankOne.Proofs.Constraint.Numbering
import RankOne.Proofs.Schedule.Levels

/-!
# What a description compiles to

A description is the result of a history of calls: wires are allocated,
constraints stated and hints declared in any order, and the handles that are
used may come from anywhere. A handle is told apart only by its class and index,
so what counts is whether its index is below the count of its class when the
description is compiled.

Compiling refuses a description exactly when it uses a handle for which this is
not so. Otherwise the one wire gets number zero, the other handles follow in the
order of their allocation, class by class, and every expression of the compiled
system has, for all values of the handles, the value of the combination that it
was stated as.
-/

namespace RankOne

/-! ## Histories -/

/-- A call to a description. -/
inductive BuilderCall (p : Nat) where
  | allocate (visibility : Visibility)
  | enforce (left right output : Combination p)
  | mul (left right output : Wire)
  | hint (kind : HintKind) (inputs : List (HintArgument p)) (outputs : Nat)

namespace BuilderCall

variable {p : Nat} [Modulus p]

/-- The handles that a call returns, and the description after it. -/
def perform (builder : Builder p) : BuilderCall p → List Wire × Builder p
  | allocate visibility =>
      let (wire, next) := builder.allocate visibility
      ([wire], next)
  | enforce left right output => ([], builder.enforce left right output)
  | mul left right output => ([], builder.mul left right output)
  | hint kind inputs outputs => builder.hint kind inputs outputs

/-- The constraints that a call states. -/
def constraints : BuilderCall p → List (StatedConstraint p)
  | enforce left right output => [⟨left, right, output⟩]
  | mul left right output => [⟨[(1, left)], [(1, right)], [(1, output)]⟩]
  | _ => []

/-- The hints that a call declares when it returns the given handles. -/
def hints (wires : List Wire) : BuilderCall p → List (StatedHint p)
  | hint kind inputs _ => [⟨kind, inputs, wires⟩]
  | _ => []

private theorem constraints_perform (builder : Builder p)
    (call : BuilderCall p) :
    (call.perform builder).2.constraints.toList =
      builder.constraints.toList ++ call.constraints := by
  cases call with
  | allocate visibility => cases visibility <;>
    simp [perform, constraints, Builder.allocate]
  | enforce left right output => simp [perform, constraints, Builder.enforce]
  | mul left right output =>
    simp [perform, constraints, Builder.mul, Builder.enforce]
  | hint kind inputs outputs => simp [perform, constraints, Builder.hint]

private theorem hints_perform (builder : Builder p) (call : BuilderCall p) :
    (call.perform builder).2.hints.toList =
      builder.hints.toList ++ call.hints (call.perform builder).1 := by
  cases call with
  | allocate visibility => cases visibility <;>
    simp [perform, hints, Builder.allocate]
  | enforce left right output => simp [perform, hints, Builder.enforce]
  | mul left right output => simp [perform, hints, Builder.mul, Builder.enforce]
  | hint kind inputs outputs => simp [perform, hints, Builder.hint]

end BuilderCall

namespace Builder

variable {p : Nat} [Modulus p]

/-- The handles that each call of a history returns, and the description after
the last one. -/
def performAll : Builder p → List (BuilderCall p) → List (List Wire) × Builder p
  | builder, [] => ([], builder)
  | builder, call :: calls =>
      let (wires, next) := call.perform builder
      let (returned, last) := performAll next calls
      (wires :: returned, last)

/-- The handles of a class among some handles. -/
def ofClass (visibility : Visibility) (wires : List Wire) : List Wire :=
  wires.filter fun wire => wire.visibility = visibility

private theorem ofClass_map_mk (visibility allocated : Visibility)
    (indices : List Nat) :
    ofClass visibility (indices.map (Wire.mk allocated)) =
      if allocated = visibility then indices.map (Wire.mk visibility)
        else [] := by
  by_cases hSame : allocated = visibility
  · simp [ofClass, List.filter_map, Function.comp_def, hSame]
  · simp [ofClass, List.filter_map, Function.comp_def, hSame]

/-- A call puts the handles that it returns behind those of their class. -/
private theorem handlesOf_perform (builder : Builder p) (call : BuilderCall p)
    (visibility : Visibility) :
    (call.perform builder).2.handlesOf visibility =
      builder.handlesOf visibility ++
        ofClass visibility (call.perform builder).1 := by
  cases call with
  | allocate allocated =>
      cases allocated <;> cases visibility <;>
        simp [BuilderCall.perform, allocate, handlesOf, count, ofClass,
          List.range_succ]
  | enforce left right output =>
      cases visibility <;>
        simp [BuilderCall.perform, enforce, handlesOf, count, ofClass]
  | mul left right output =>
      cases visibility <;>
        simp [BuilderCall.perform, mul, enforce, handlesOf, count, ofClass]
  | hint kind inputs outputs =>
      simp only [BuilderCall.perform, hint]
      rw [ofClass_map_mk]
      cases visibility <;>
        simp [handlesOf, count, List.range_add, List.range'_eq_map_range]

private theorem handlesOf_performAll (builder : Builder p)
    (calls : List (BuilderCall p)) (visibility : Visibility) :
    (performAll builder calls).2.handlesOf visibility =
      builder.handlesOf visibility ++
        ofClass visibility (performAll builder calls).1.flatten := by
  induction calls generalizing builder with
  | nil => simp [performAll, ofClass]
  | cons call calls ih =>
      simp only [performAll]
      rw [ih, handlesOf_perform]
      simp [ofClass]

private theorem constraints_performAll (builder : Builder p)
    (calls : List (BuilderCall p)) :
    (performAll builder calls).2.constraints.toList =
      builder.constraints.toList ++ calls.flatMap BuilderCall.constraints := by
  induction calls generalizing builder with
  | nil => simp [performAll]
  | cons call calls ih =>
      simp only [performAll]
      rw [ih, BuilderCall.constraints_perform]
      simp

private theorem hints_performAll (builder : Builder p)
    (calls : List (BuilderCall p)) :
    (performAll builder calls).2.hints.toList =
      builder.hints.toList ++ (calls.zip (performAll builder calls).1).flatMap
        fun entry => entry.1.hints entry.2 := by
  induction calls generalizing builder with
  | nil => simp [performAll]
  | cons call calls ih =>
      simp only [performAll]
      rw [ih, BuilderCall.hints_perform]
      simp

/-- What a history leaves behind: the handles that have been returned, numbered
from zero on, and the constraints and hints that have been stated, in order. -/
structure Records (builder : Builder p) (calls : List (BuilderCall p))
    (returned : List (List Wire)) : Prop where
  handles : builder.handles =
    Wire.one :: ofClass .publicInput returned.flatten ++
    ofClass .secretInput returned.flatten ++ ofClass .internal returned.flatten
  numbers : builder.handles.map builder.wireNumber? =
    (List.range builder.handles.length).map some
  known : ∀ wire, builder.wireNumber? wire ≠ none ↔ wire ∈ builder.handles
  constraints :
    builder.constraints.toList = calls.flatMap BuilderCall.constraints
  hints : builder.hints.toList =
    (calls.zip returned).flatMap fun entry => entry.1.hints entry.2
  outputs : ∀ stated ∈ builder.hints.toList, ∀ wire ∈ stated.wires,
    wire ∈ builder.handles

theorem performAll_records {calls : List (BuilderCall p)}
    {returned : List (List Wire)} {builder : Builder p}
    (h : performAll {} calls = (returned, builder)) :
    builder.Records calls returned := by
  have hHandles := handlesOf_performAll {} calls
  have hConstraints := constraints_performAll {} calls
  have hHints := hints_performAll {} calls
  rw [h] at hHandles hConstraints hHints
  have hAll : builder.handles =
      Wire.one :: ofClass .publicInput returned.flatten ++
      ofClass .secretInput returned.flatten ++
      ofClass .internal returned.flatten := by
    unfold handles
    simp only [hHandles]
    simp [handlesOf, count, Wire.one]
  have hDeclared : builder.hints.toList =
      (calls.zip returned).flatMap fun entry => entry.1.hints entry.2 := by
    simpa using hHints
  refine ⟨hAll, map_wireNumber?_handles builder,
    fun wire => wireNumber?_ne_none_iff, ?_, hDeclared, ?_⟩
  · simpa using hConstraints
  · intro stated hStated wire hWire
    rw [hDeclared] at hStated
    obtain ⟨⟨call, wires⟩, hEntry, hHint⟩ := List.mem_flatMap.mp hStated
    have hSame : stated.wires = wires := by
      cases call <;> simp_all [BuilderCall.hints]
    have hReturned : wire ∈ returned.flatten :=
      List.mem_flatten.mpr ⟨wires, (List.of_mem_zip hEntry).2, hSame ▸ hWire⟩
    have hClass : wire ∈ ofClass wire.visibility returned.flatten :=
      List.mem_filter.mpr ⟨hReturned, by simp⟩
    rw [hAll]
    cases hVisibility : wire.visibility <;> rw [hVisibility] at hClass <;>
      simp [hClass]

end Builder

/-! ## Refused handles -/

namespace FlatSystem

variable {p : Nat}

private theorem not_foreign_of_termFault? {system : FlatSystem p}
    {terms : List Term} {cause : TermFault}
    (h : terms.findSome? system.termFault? = some cause) (wire : Wire) :
    cause ≠ .foreignWire wire := by
  obtain ⟨term, -, hTerm⟩ := List.exists_of_findSome?_eq_some h
  unfold termFault? at hTerm
  rintro rfl
  split at hTerm
  · cases hTerm
  · split at hTerm <;> cases hTerm

private theorem not_foreign_of_checkConstraints {system : FlatSystem p}
    {number : Nat} {constraints : List Constraint} {e : SystemError}
    (h : system.checkConstraints number constraints = .error e) :
    ¬e.Foreign := by
  induction constraints generalizing number with
  | nil => cases h
  | cons c rest ih =>
      simp only [checkConstraints] at h
      split at h
      · rename_i cause hCause
        have hOther := not_foreign_of_termFault? hCause
        cases h
        simp [SystemError.Foreign, hOther]
      · exact ih h

private theorem not_foreign_of_checkHint {system : FlatSystem p} {number : Nat}
    {hint : Hint p} {producers : Std.TreeMap Nat Nat} {cause : HintFault}
    (h : system.checkHint number hint producers = .error cause) (wire : Wire) :
    cause ≠ .badTerm (.foreignWire wire) := by
  have hEnter : ∀ (wires : List Nat)
      (producers : Std.TreeMap Nat Nat) (cause : HintFault),
      enterOutputs system.layout number wires producers = .error cause →
        cause ≠ .badTerm (.foreignWire wire) := by
    intro wires
    induction wires with
    | nil => simp [enterOutputs]
    | cons output rest ih =>
        intro producers cause h
        simp only [enterOutputs] at h
        split at h
        · cases h
          simp
        · split at h
          · cases h
            simp
          · exact ih _ _ h
  unfold checkHint at h
  split at h
  · cases h
    simp
  · split at h
    · rename_i hCause
      cases h
      exact hEnter _ _ _ hCause
    · split at h
      · rename_i cause' hCause
        cases h
        simpa using not_foreign_of_termFault? hCause wire
      · cases h

private theorem not_foreign_of_checkHints {system : FlatSystem p} {number : Nat}
    {hints : List (Hint p)} {producers : Std.TreeMap Nat Nat} {e : SystemError}
    (h : system.checkHints number hints producers = .error e) : ¬e.Foreign := by
  induction hints generalizing number producers with
  | nil => cases h
  | cons hint rest ih =>
      simp only [checkHints] at h
      split at h
      · rename_i cause hCause
        have hOther := not_foreign_of_checkHint hCause
        cases h
        simp [SystemError.Foreign, hOther]
      · exact ih h

private theorem not_foreign_of_checkMentioned {system : FlatSystem p}
    {producers : Std.TreeMap Nat Nat} {e : SystemError}
    (h : system.checkMentioned producers = .error (.reported e)) :
    ¬e.Foreign := by
  have hRequire : ∀ (reject : Nat → Nat → SystemError) (wires : List Nat),
      (∀ count first, ¬(reject count first).Foreign) →
      requireMentioned system.mentioned reject wires = .error (.reported e) →
        ¬e.Foreign := by
    intro reject wires hReject h
    unfold requireMentioned rejectIdle at h
    split at h
    · cases h
    · split at h
      · cases h
      · cases h
        exact hReject _ _
  unfold checkMentioned at h
  rcases bind_eq_error.mp h with h | ⟨_, -, h⟩
  · exact hRequire _ _ (by simp [SystemError.Foreign]) h
  rcases bind_eq_error.mp h with h | ⟨_, -, h⟩
  · exact hRequire _ _ (by simp [SystemError.Foreign]) h
  · exact hRequire _ _ (by simp [SystemError.Foreign]) h

/-- Validation knows numbers only, and says nothing of handles. -/
private theorem not_foreign_of_validate {system : FlatSystem p}
    {e : SystemError} (h : system.validate = .error (.reported e)) :
    ¬e.Foreign := by
  unfold validate at h
  split at h
  · cases h
    simp [SystemError.Foreign]
  split at h
  · cases h
    simp [SystemError.Foreign]
  split at h
  · cases h
  split at h
  · cases h
  rcases bind_eq_error.mp h with h | ⟨_, -, h⟩
  · obtain ⟨e', hSame, h⟩ := Outcome.ofExcept_eq_error.mp h
    cases hSame
    exact not_foreign_of_checkConstraints h
  rcases bind_eq_error.mp h with h | ⟨producers, -, h⟩
  · obtain ⟨e', hSame, h⟩ := Outcome.ofExcept_eq_error.mp h
    cases hSame
    exact not_foreign_of_checkHints h
  split at h
  · cases h
  rcases bind_eq_error.mp h with h | ⟨_, -, h⟩
  · exact not_foreign_of_checkMentioned h
  · exact absurd h pure_ne_error

end FlatSystem

namespace Builder

variable {p : Nat} [Modulus p]

/-- A description is refused for a handle exactly when it uses one whose index
is not below the count of its class. -/
theorem compile_foreign_iff {builder : Builder p}
    (hWires : builder.handles.length ≤ 2 ^ 32) (settings : SchedulerSettings) :
    (∃ e, builder.compile settings = .error (.reported e) ∧ e.Foreign) ↔
      ∃ term ∈ builder.terms,
        builder.count term.2.visibility ≤ term.2.index := by
  simp only [← wireNumber?_eq_none_iff]
  unfold compile
  cases hFlat : builder.flatten with
  | error e =>
      have hForeign := flatten_eq_error hFlat
      exact iff_of_true ⟨e, rfl, hForeign.1⟩ hForeign.2
  | ok flat =>
      refine iff_of_false ?_ ?_
      · rintro ⟨e, h, hForeign⟩
        have hCompile :
            CompiledSystem.compile settings flat = .error (.reported e) := h
        rcases bind_eq_error.mp hCompile with h | ⟨valid, -, h⟩
        · exact FlatSystem.not_foreign_of_validate h hForeign
        rcases bind_eq_error.mp h with h | ⟨schedule, -, h⟩
        · obtain ⟨cause, hCause, -⟩ := Outcome.ofFaulty_eq_error.mp h
          cases hCause
        · exact absurd h pure_ne_error
      · rintro ⟨term, hTerm, hForeign⟩
        exact (flatten_eq_ok hWires hFlat).1 term hTerm hForeign

end Builder

/-! ## Meaning -/

namespace CompiledSystem

variable {p : Nat} [Modulus p]

/-- Whatever values the handles have, an expression evaluates to the sum of the
coefficients of a combination times the values of its handles. -/
def Means (system : CompiledSystem p) (builder : Builder p)
    (combination : Combination p) (expression : Expression) : Prop :=
  ∀ value : Wire → Fp p,
    system.evaluate (builder.handles.map value).toArray expression =
    .ok (combination.map fun term => term.1 * value term.2).sum

private theorem means_of_names {system : CompiledSystem p} {builder : Builder p}
    {combination : Combination p} {expression : Expression}
    (h : builder.Names system.coefficients combination expression) :
    system.Means builder combination expression := by
  intro value
  induction h with
  | nil => rfl
  | cons hTerm _ ih =>
      rename_i stated term combination expression _
      have hWire : (builder.handles.map value).toArray[term.wire]? =
          some (value stated.2) := by
        simp [Builder.getElem?_handles hTerm.2]
      simp [evaluate, hTerm.1, hWire, ih]

end CompiledSystem

namespace Builder

variable {p : Nat} [Modulus p]

/-- Compiling preserves what a history of calls describes. The handles that have
been returned are numbered in order; the description is refused for a handle
exactly when it uses one whose index is not below the count of its class; and a
compiled system has the same constraints and hints in the same order, whose
expressions mean what was stated. -/
theorem compile_preserves {calls : List (BuilderCall p)}
    {returned : List (List Wire)} {builder : Builder p}
    (hCalls : performAll {} calls = (returned, builder))
    (hWires : builder.handles.length ≤ 2 ^ 32)
    (hCoefficients : builder.numCoefficients ≤ 2 ^ 32)
    (settings : SchedulerSettings) :
    builder.Records calls returned ∧
      ((∃ e, builder.compile settings = .error (.reported e) ∧ e.Foreign) ↔
        ∃ term ∈ builder.terms,
          builder.count term.2.visibility ≤ term.2.index) ∧
      ∀ system, builder.compile settings = .ok system →
        builder.Becomes (system.Means builder) system.toFlatSystem := by
  refine ⟨performAll_records hCalls, compile_foreign_iff hWires settings, ?_⟩
  intro system hCompile
  unfold compile at hCompile
  obtain ⟨flat, hFlat, hCompile⟩ := bind_eq_ok.mp hCompile
  have hBecomes :=
    (flatten_eq_ok hWires (Outcome.ofExcept_eq_ok.mp hFlat)).2 hCoefficients
  obtain ⟨valid, hValid, schedule, -, hSystem⟩ :=
    CompiledSystem.compile_eq_ok.mp hCompile
  have hSame : system.toFlatSystem = flat := by
    rw [← hSystem]
    exact (FlatSystem.validate_wellFormed hValid).1
  rw [hSame]
  refine hBecomes.mono fun combination expression hNames => ?_
  exact CompiledSystem.means_of_names (hSame ▸ hNames)

/-- A history that uses an internal wire before it is allocated: the square of a
secret wire is the internal wire, and three times it and five times a hint's
output are the public wire. -/
def squareCalls : List (BuilderCall 17) := [
  .allocate .publicInput,
  .allocate .secretInput,
  .mul ⟨.secretInput, 0⟩ ⟨.secretInput, 0⟩ ⟨.internal, 0⟩,
  .allocate .internal,
  .hint .isZero [.combination [(1, ⟨.secretInput, 0⟩)]] 1,
  .enforce [(Fp.ofNat 17 3, ⟨.internal, 0⟩),
    (Fp.ofNat 17 5, ⟨.internal, 1⟩)] [(1, Wire.one)] [(1, ⟨.publicInput, 1⟩)]]

/-- The history compiles, and its expressions keep their meaning. -/
theorem compile_preserves_square :
    ∃ (builder : Builder 17) (system : CompiledSystem 17),
    performAll {} squareCalls = ([[⟨.publicInput, 1⟩], [⟨.secretInput, 0⟩], [],
      [⟨.internal, 0⟩], [⟨.internal, 1⟩], []], builder) ∧
      builder.compile {} = .ok system ∧
      builder.Becomes (system.Means builder) system.toFlatSystem := by
  have hRun :
      ((performAll {} squareCalls).2.compile {}).toOption.isSome = true := by
    decide +kernel
  obtain ⟨system, hCompile⟩ := isSome_toOption.mp hRun
  have hCalls : performAll {} squareCalls =
      ([[⟨.publicInput, 1⟩], [⟨.secretInput, 0⟩], [], [⟨.internal, 0⟩],
      [⟨.internal, 1⟩], []], (performAll {} squareCalls).2) := rfl
  obtain ⟨-, -, hMeans⟩ :=
    compile_preserves hCalls (by decide +kernel) (by decide +kernel) {}
  exact ⟨_, system, hCalls, hCompile, hMeans system hCompile⟩

end Builder

end RankOne
