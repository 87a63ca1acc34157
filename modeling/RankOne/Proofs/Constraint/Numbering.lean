import RankOne.Constraint.Builder
import RankOne.Proofs.Constraint.CoefficientTable
import RankOne.Proofs.Outcome

/-!
# Numbering a description

The handles of a description are numbered from zero on, and a handle has a
number when its index is below the count of its class. Numbering an expression
fails at the first handle without a number. Otherwise each of its terms becomes
a term that names the same coefficient, by its slot, and the same wire, by its
number: in the table after the expression, and in every later one.
-/

namespace RankOne

/-- An error says that a handle names no wire of the description. -/
def SystemError.Foreign (e : SystemError) : Prop :=
  ∃ wire,
    (∃ number, e = .malformedConstraint number (.badTerm (.foreignWire wire))) ∨
    ∃ first, e = .malformedHint first (.badTerm (.foreignWire wire))

namespace Builder

variable {p : Nat}

/-! ## Handles -/

/-- Number of wires of a class so far. -/
def count (builder : Builder p) : Visibility → Nat
  | .publicInput => builder.numPublic
  | .secretInput => builder.numSecret
  | .internal => builder.numInternal

/-- The handles of a class in the order of allocation. -/
def handlesOf (builder : Builder p) (visibility : Visibility) : List Wire :=
  (List.range (builder.count visibility)).map (Wire.mk visibility)

/-- All handles: public, secret, internal. -/
def handles (builder : Builder p) : List Wire :=
  builder.handlesOf .publicInput ++ builder.handlesOf .secretInput ++
    builder.handlesOf .internal

private theorem length_handles (builder : Builder p) :
    builder.handles.length = builder.numPublic + builder.numSecret +
      builder.numInternal := by
  simp [handles, handlesOf, count, Nat.add_assoc]

private theorem mem_handlesOf {builder : Builder p} {visibility : Visibility}
    {wire : Wire} :
    wire ∈ builder.handlesOf visibility ↔
      wire.visibility = visibility ∧ wire.index < builder.count visibility := by
  cases wire
  simp [handlesOf]
  tauto

theorem wireNumber?_eq_none_iff {builder : Builder p} {wire : Wire} :
    builder.wireNumber? wire = none ↔
      builder.count wire.visibility ≤ wire.index := by
  obtain ⟨visibility, index⟩ := wire
  cases visibility <;> simp [wireNumber?, count]

theorem wireNumber?_ne_none_iff {builder : Builder p} {wire : Wire} :
    builder.wireNumber? wire ≠ none ↔ wire ∈ builder.handles := by
  rw [Ne, wireNumber?_eq_none_iff, Nat.not_le]
  unfold handles
  simp only [List.mem_append, mem_handlesOf]
  cases hClass : wire.visibility <;> simp

/-- The handle with a number stands at its place. -/
theorem getElem?_handles {builder : Builder p} {wire : Wire} {number : Nat}
    (h : builder.wireNumber? wire = some number) :
    builder.handles[number]? = some wire := by
  obtain ⟨visibility, index⟩ := wire
  unfold wireNumber? at h
  unfold handles handlesOf count
  cases visibility with
  | publicInput =>
      simp only [Option.ite_none_right_eq_some, Option.some.injEq] at h
      rw [List.append_assoc, List.getElem?_append_left (by simp; omega)]
      simp [← h.2, h.1]
  | secretInput =>
      simp only [Option.ite_none_right_eq_some, Option.some.injEq] at h
      rw [List.append_assoc, List.getElem?_append_right (by simp; omega),
        List.getElem?_append_left (by simp; omega)]
      simp [← h.2, h.1]
  | internal =>
      simp only [Option.ite_none_right_eq_some, Option.some.injEq] at h
      rw [List.getElem?_append_right (by simp; omega)]
      simp [← h.2, h.1]

/-- The handles have the numbers from zero on, in order. -/
theorem map_wireNumber?_handles (builder : Builder p) :
    builder.handles.map builder.wireNumber? =
      (List.range builder.handles.length).map some := by
  rw [length_handles]
  unfold handles handlesOf count
  simp only [List.map_append, List.map_map, List.range_add]
  congr 1
  · congr 1
    · refine List.map_congr_left fun index hIndex => ?_
      simp [wireNumber?, List.mem_range.mp hIndex]
    · refine List.map_congr_left fun index hIndex => ?_
      simp [wireNumber?, List.mem_range.mp hIndex]
  · refine List.map_congr_left fun index hIndex => ?_
    simp [wireNumber?, List.mem_range.mp hIndex]

private theorem wireNumber?_lt {builder : Builder p} {wire : Wire}
    {number : Nat} (h : builder.wireNumber? wire = some number) :
    number < builder.handles.length :=
  (List.getElem?_eq_some_iff.mp (getElem?_handles h)).1

end Builder

/-! ## Stated and numbered

What a description states and what becomes of it are compared part by part, by a
relation between combinations of handles and expressions over numbers. -/

namespace StatedConstraint

variable {p : Nat}

/-- All terms of a constraint. -/
def terms (stated : StatedConstraint p) : Combination p :=
  stated.left ++ stated.right ++ stated.output

/-- The three combinations of a constraint are related to the three
expressions. -/
structure Becomes (Rel : Combination p → Expression → Prop)
    (stated : StatedConstraint p) (c : Constraint) : Prop where
  left : Rel stated.left c.left
  right : Rel stated.right c.right
  output : Rel stated.output c.output

end StatedConstraint

namespace HintArgument

variable {p : Nat}

/-- The terms that an input reads. -/
def terms : HintArgument p → Combination p
  | constant _ => []
  | combination terms => terms

/-- An input is the constant that was stated, or an expression related to the
combination. -/
inductive Becomes (Rel : Combination p → Expression → Prop) :
    HintArgument p → HintInput p → Prop where
  | constant (value : Fp p) : Becomes Rel (.constant value) (.constant value)
  | combination {terms : Combination p} {expression : Expression}
      (related : Rel terms expression) :
      Becomes Rel (.combination terms) (.expression expression)

end HintArgument

namespace StatedHint

variable {p : Nat}

/-- The terms that the inputs of a hint read. -/
def terms (stated : StatedHint p) : Combination p :=
  stated.inputs.flatMap HintArgument.terms

/-- A hint has the function that was stated, related inputs, and the numbers of
the outputs. -/
structure Becomes (builder : Builder p)
    (Rel : Combination p → Expression → Prop) (stated : StatedHint p)
    (hint : Hint p) : Prop where
  kind : hint.kind = stated.kind
  inputs : List.Forall₂ (HintArgument.Becomes Rel) stated.inputs hint.inputs
  wires : hint.wires = stated.wires.filterMap builder.wireNumber?

end StatedHint

namespace Builder

variable {p : Nat}

/-- A flat system has the wires of a description, and related constraints and
hints in the same order. -/
structure Becomes (builder : Builder p)
    (Rel : Combination p → Expression → Prop) (flat : FlatSystem p) : Prop where
  numPublic : flat.layout.numPublic.toNat = builder.numPublic
  numSecret : flat.layout.numSecret.toNat = builder.numSecret
  numInternal : flat.layout.numInternal.toNat = builder.numInternal
  numWires : flat.layout.numWires = builder.handles.length
  constraints :
    List.Forall₂ (StatedConstraint.Becomes Rel) builder.constraints.toList
      flat.constraints.toList
  hints : List.Forall₂
    (StatedHint.Becomes builder Rel) builder.hints.toList flat.hints.toList

theorem Becomes.mono {builder : Builder p}
    {Rel Rel' : Combination p → Expression → Prop} {flat : FlatSystem p}
    (h : builder.Becomes Rel flat)
    (hRel : ∀ terms expression, Rel terms expression → Rel' terms expression) :
    builder.Becomes Rel' flat where
  numPublic := h.numPublic
  numSecret := h.numSecret
  numInternal := h.numInternal
  numWires := h.numWires
  constraints := h.constraints.imp fun _ _ hc =>
    ⟨hRel _ _ hc.left, hRel _ _ hc.right, hRel _ _ hc.output⟩
  hints := by
    refine h.hints.imp fun stated hint hHint => ⟨hHint.kind, ?_, hHint.wires⟩
    refine hHint.inputs.imp fun argument input hInput => ?_
    cases hInput with
    | constant value => exact .constant value
    | combination related => exact .combination (hRel _ _ related)

/-! ## Numbering part by part -/

/-- A term names the coefficient and the wire of a stated one. -/
def NamesTerm (builder : Builder p) (coefficients : Array (Fp p))
    (stated : Fp p × Wire) (term : Term) : Prop :=
  coefficients[term.slot.toNat]? = some stated.1 ∧
    builder.wireNumber? stated.2 = some term.wire

/-- An expression names the terms of a combination in order. -/
abbrev Names (builder : Builder p) (coefficients : Array (Fp p)) :
    Combination p → Expression → Prop :=
  List.Forall₂ (builder.NamesTerm coefficients)

/-- What has been numbered between two tables: its coefficients have been added,
its handles have numbers, and whatever table follows that 32 bits suffice for,
the result names what was stated. -/
structure Numbered (builder : Builder p) (table final : CoefficientTable p)
    (terms : Combination p) (Named : Array (Fp p) → Prop) : Prop where
  grown : table.Grown final (terms.map Prod.fst)
  known : ∀ term ∈ terms, builder.wireNumber? term.2 ≠ none
  named : table.Lawful → ∀ (later : CoefficientTable p) (added : List (Fp p)),
    final.Grown later added → later.values.size ≤ 2 ^ 32 → Named later.values

namespace Numbered

variable {builder : Builder p} {table middle final : CoefficientTable p}
  {terms terms' : Combination p} {Named Named' : Array (Fp p) → Prop}

private theorem nothing (hNamed : ∀ coefficients, Named coefficients) :
    Numbered builder table table [] Named where
  grown := CoefficientTable.Grown.refl table
  known := by simp
  named := fun _ later _ _ _ => hNamed later.values

private theorem append (h : Numbered builder table middle terms Named)
    (h' : Numbered builder middle final terms' Named') :
    Numbered builder table final (terms ++ terms')
      fun coefficients => Named coefficients ∧ Named' coefficients where
  grown := by
    rw [List.map_append]
    exact h.grown.trans h'.grown
  known := by
    intro term hTerm
    rcases List.mem_append.mp hTerm with hTerm | hTerm
    · exact h.known term hTerm
    · exact h'.known term hTerm
  named := fun hTable later _ hLater hSize =>
    ⟨h.named hTable later _ (h'.grown.trans hLater) hSize,
      h'.named (h.grown.lawful hTable) later _ hLater hSize⟩

private theorem mono (h : Numbered builder table final terms Named)
    (hNamed : ∀ coefficients, Named coefficients → Named' coefficients) :
    Numbered builder table final terms Named' where
  grown := h.grown
  known := h.known
  named := fun hTable later added hLater hSize =>
    hNamed later.values (h.named hTable later added hLater hSize)

end Numbered

/-- Something is refused because one of its handles has no number. -/
def Refused (builder : Builder p) (terms : Combination p) (cause : TermFault) :
    Prop :=
  ∃ term ∈ terms, cause = .foreignWire term.2 ∧
    builder.wireNumber? term.2 = none

private theorem Refused.mono {builder : Builder p}
    {terms terms' : Combination p} {cause : TermFault}
    (h : builder.Refused terms cause) (hTerms : terms ⊆ terms') :
    builder.Refused terms' cause := by
  obtain ⟨term, hTerm, hCause, hForeign⟩ := h
  exact ⟨term, hTerms hTerm, hCause, hForeign⟩

/-! ## Expressions and constraints -/

/-- The term of a slot and of the number of a handle. -/
private theorem namesTerm_ofNumbers {builder : Builder p}
    (hWires : builder.handles.length ≤ 2 ^ 32) {coefficients : Array (Fp p)}
    {coefficient : Fp p} {wire : Wire} {slot : UInt32} {number : Nat}
    (hSlot : coefficients[slot.toNat]? = some coefficient)
    (hWire : builder.wireNumber? wire = some number) :
    builder.NamesTerm coefficients (coefficient, wire)
      (Term.ofNumbers slot.toNat number) := by
  have hNumber : number < 2 ^ 32 :=
    Nat.lt_of_lt_of_le (wireNumber?_lt hWire) hWires
  have hSame : number.toUInt32.toNat = number := by
    rw [Nat.toUInt32_eq, UInt32.toNat_ofNat']
    exact Nat.mod_eq_of_lt hNumber
  unfold NamesTerm Term.ofNumbers Term.wire
  simp [hSlot, hWire, hSame]

private theorem number_eq_ok {builder : Builder p}
    (hWires : builder.handles.length ≤ 2 ^ 32) {combination : Combination p}
    {expression : Expression} {table final : CoefficientTable p}
    (h : builder.number combination table = .ok (expression, final)) :
    builder.Numbered table final combination
      fun coefficients =>
        builder.Names coefficients combination expression := by
  induction combination generalizing table expression with
  | nil =>
      cases h
      exact Numbered.nothing fun _ => List.Forall₂.nil
  | cons stated rest ih =>
      obtain ⟨coefficient, wire⟩ := stated
      simp only [number] at h
      split at h
      · cases h
      · rename_i number hNumber
        split at h
        · cases h
        · rename_i expression' final' hRest
          cases h
          have hHead : builder.Numbered table (table.insert coefficient).2
              [(coefficient, wire)]
              fun coefficients =>
                builder.NamesTerm coefficients (coefficient, wire)
                (Term.ofNumbers (table.insert coefficient).1.toNat number) := by
            refine ⟨table.insert_grown coefficient, by simp [hNumber], ?_⟩
            intro hTable later added hLater hSize
            have hSlot := CoefficientTable.insert_slot hTable coefficient
              (Nat.le_trans hLater.size_mono hSize)
            exact namesTerm_ofNumbers hWires (hLater.keeps _ _ hSlot) hNumber
          exact (hHead.append (ih hRest)).mono fun _ hNamed =>
            List.Forall₂.cons hNamed.1 hNamed.2

private theorem number_eq_error {builder : Builder p}
    {combination : Combination p} {table : CoefficientTable p}
    {cause : TermFault} (h : builder.number combination table = .error cause) :
    builder.Refused combination cause := by
  induction combination generalizing table with
  | nil => cases h
  | cons stated rest ih =>
      obtain ⟨coefficient, wire⟩ := stated
      simp only [number] at h
      split at h
      · rename_i hForeign
        injection h with h
        exact ⟨(coefficient, wire), by simp, h.symm, hForeign⟩
      · split at h
        · rename_i hRest
          injection h with h
          exact (ih (h ▸ hRest)).mono (List.subset_cons_self _ _)
        · cases h

private theorem numberConstraint_eq_ok {builder : Builder p}
    (hWires : builder.handles.length ≤ 2 ^ 32) {stated : StatedConstraint p}
    {c : Constraint} {table final : CoefficientTable p}
    (h : builder.numberConstraint stated table = .ok (c, final)) :
    builder.Numbered table final stated.terms
      fun coefficients => stated.Becomes (builder.Names coefficients) c := by
  unfold numberConstraint at h
  obtain ⟨⟨left, table₁⟩, hLeft, h⟩ := bind_eq_ok.mp h
  obtain ⟨⟨right, table₂⟩, hRight, h⟩ := bind_eq_ok.mp h
  obtain ⟨⟨output, table₃⟩, hOutput, h⟩ := bind_eq_ok.mp h
  simp only [pure_eq_ok, Prod.mk.injEq] at h
  rw [← h.1, ← h.2]
  have hFactors :=
    (number_eq_ok hWires hLeft).append (number_eq_ok hWires hRight)
  exact (hFactors.append (number_eq_ok hWires hOutput)).mono fun _ hNamed =>
    ⟨hNamed.1.1, hNamed.1.2, hNamed.2⟩

private theorem numberConstraint_eq_error {builder : Builder p}
    {stated : StatedConstraint p} {table : CoefficientTable p}
    {cause : TermFault}
    (h : builder.numberConstraint stated table = .error cause) :
    builder.Refused stated.terms cause := by
  unfold numberConstraint at h
  unfold StatedConstraint.terms
  rcases bind_eq_error.mp h with h | ⟨_, -, h⟩
  · exact (number_eq_error h).mono (by simp)
  rcases bind_eq_error.mp h with h | ⟨_, -, h⟩
  · exact (number_eq_error h).mono (by simp)
  rcases bind_eq_error.mp h with h | ⟨_, -, h⟩
  · exact (number_eq_error h).mono (by simp)
  · exact absurd h pure_ne_error

private theorem numberConstraints_eq_ok {builder : Builder p}
    (hWires : builder.handles.length ≤ 2 ^ 32) {index : Nat}
    {stated : List (StatedConstraint p)} {constraints : List Constraint}
    {table final : CoefficientTable p}
    (h : builder.numberConstraints index stated table =
      .ok (constraints, final)) :
    builder.Numbered table final (stated.flatMap StatedConstraint.terms)
      fun coefficients =>
        List.Forall₂
          (StatedConstraint.Becomes (builder.Names coefficients)) stated
          constraints := by
  induction stated generalizing index table constraints with
  | nil =>
      cases h
      exact Numbered.nothing fun _ => List.Forall₂.nil
  | cons first rest ih =>
      simp only [numberConstraints] at h
      split at h
      · cases h
      · rename_i c grown hFirst
        split at h
        · cases h
        · rename_i cs final' hRest
          cases h
          rw [List.flatMap_cons]
          exact ((numberConstraint_eq_ok hWires hFirst).append (ih hRest)).mono
            fun _ hNamed => List.Forall₂.cons hNamed.1 hNamed.2

private theorem numberConstraints_eq_error {builder : Builder p} {index : Nat}
    {stated : List (StatedConstraint p)} {table : CoefficientTable p}
    {e : SystemError}
    (h : builder.numberConstraints index stated table = .error e) :
    ∃ number cause, e = .malformedConstraint number (.badTerm cause) ∧
      builder.Refused (stated.flatMap StatedConstraint.terms) cause := by
  induction stated generalizing index table with
  | nil => cases h
  | cons first rest ih =>
      simp only [numberConstraints] at h
      split at h
      · rename_i cause hFirst
        injection h with h
        exact ⟨index, cause, h.symm,
          (numberConstraint_eq_error hFirst).mono (by simp)⟩
      · split at h
        · rename_i hRest
          injection h with h
          obtain ⟨number, cause, hCause, hRefused⟩ := ih (h ▸ hRest)
          exact ⟨number, cause, hCause, hRefused.mono (by simp)⟩
        · cases h

/-! ## Hints -/

private theorem numberInputs_eq_ok {builder : Builder p}
    (hWires : builder.handles.length ≤ 2 ^ 32)
    {arguments : List (HintArgument p)} {inputs : List (HintInput p)}
    {table final : CoefficientTable p}
    (h : builder.numberInputs arguments table = .ok (inputs, final)) :
    builder.Numbered table final (arguments.flatMap HintArgument.terms)
      fun coefficients =>
        List.Forall₂ (HintArgument.Becomes (builder.Names coefficients))
          arguments inputs := by
  induction arguments generalizing table inputs with
  | nil =>
      cases h
      exact Numbered.nothing fun _ => List.Forall₂.nil
  | cons argument rest ih =>
      cases argument with
      | constant value =>
          simp only [numberInputs] at h
          split at h
          · cases h
          · rename_i inputs' final' hRest
            cases h
            exact (ih hRest).mono fun _ hNamed =>
              List.Forall₂.cons (.constant value) hNamed
      | combination terms =>
          simp only [numberInputs] at h
          split at h
          · cases h
          · rename_i expression grown hFirst
            split at h
            · cases h
            · rename_i inputs' final' hRest
              cases h
              rw [List.flatMap_cons]
              exact ((number_eq_ok hWires hFirst).append (ih hRest)).mono
                fun _ hNamed =>
                List.Forall₂.cons (.combination hNamed.1) hNamed.2

private theorem numberInputs_eq_error {builder : Builder p}
    {arguments : List (HintArgument p)} {table : CoefficientTable p}
    {cause : TermFault}
    (h : builder.numberInputs arguments table = .error cause) :
    builder.Refused (arguments.flatMap HintArgument.terms) cause := by
  induction arguments generalizing table with
  | nil => cases h
  | cons argument rest ih =>
      cases argument with
      | constant value =>
          simp only [numberInputs] at h
          split at h
          · rename_i hRest
            injection h with h
            exact (ih (h ▸ hRest)).mono (by simp)
          · cases h
      | combination terms =>
          simp only [numberInputs] at h
          split at h
          · rename_i hFirst
            injection h with h
            exact (number_eq_error (h ▸ hFirst)).mono
              (by simp [HintArgument.terms])
          · split at h
            · rename_i hRest
              injection h with h
              exact (ih (h ▸ hRest)).mono (by simp)
            · cases h

private theorem numberHints_eq_ok {builder : Builder p}
    (hWires : builder.handles.length ≤ 2 ^ 32) {stated : List (StatedHint p)}
    {hints : List (Hint p)} {table final : CoefficientTable p}
    (h : builder.numberHints stated table = .ok (hints, final)) :
    builder.Numbered table final (stated.flatMap StatedHint.terms)
      fun coefficients =>
        List.Forall₂ (StatedHint.Becomes builder (builder.Names coefficients))
          stated hints := by
  induction stated generalizing table hints with
  | nil =>
      cases h
      exact Numbered.nothing fun _ => List.Forall₂.nil
  | cons first rest ih =>
      simp only [numberHints] at h
      split at h
      · cases h
      · rename_i inputs grown hFirst
        split at h
        · cases h
        · rename_i hints' final' hRest
          cases h
          rw [List.flatMap_cons]
          exact ((numberInputs_eq_ok hWires hFirst).append (ih hRest)).mono
            fun _ hNamed =>
            List.Forall₂.cons ⟨rfl, hNamed.1, rfl⟩ hNamed.2

private theorem numberHints_eq_error {builder : Builder p}
    {stated : List (StatedHint p)} {table : CoefficientTable p}
    {e : SystemError} (h : builder.numberHints stated table = .error e) :
    ∃ wire cause, e = .malformedHint wire (.badTerm cause) ∧
      builder.Refused (stated.flatMap StatedHint.terms) cause := by
  induction stated generalizing table with
  | nil => cases h
  | cons first rest ih =>
      simp only [numberHints] at h
      split at h
      · rename_i cause hFirst
        injection h with h
        exact ⟨_, cause, h.symm,
          (numberInputs_eq_error hFirst).mono (by simp [StatedHint.terms])⟩
      · split at h
        · rename_i hRest
          injection h with h
          obtain ⟨wire, cause, hCause, hRefused⟩ := ih (h ▸ hRest)
          exact ⟨wire, cause, hCause, hRefused.mono (by simp)⟩
        · cases h

/-! ## Whole descriptions -/

/-- All terms that the constraints and the inputs of the hints use. -/
def terms (builder : Builder p) : Combination p :=
  builder.constraints.toList.flatMap StatedConstraint.terms ++
    builder.hints.toList.flatMap StatedHint.terms

/-- Number of distinct coefficients, with those that every table holds. -/
def numCoefficients [Modulus p] (builder : Builder p) : Nat :=
  (CoefficientTable.seeds p ++ builder.terms.map Prod.fst).dedup.length

variable [Modulus p]

theorem flatten_eq_ok {builder : Builder p}
    (hWires : builder.handles.length ≤ 2 ^ 32) {flat : FlatSystem p}
    (h : builder.flatten = .ok flat) :
    (∀ term ∈ builder.terms, builder.wireNumber? term.2 ≠ none) ∧
      (builder.numCoefficients ≤ 2 ^ 32 →
        builder.Becomes (builder.Names flat.coefficients) flat) := by
  unfold flatten at h
  obtain ⟨⟨constraints, table⟩, hConstraints, h⟩ := bind_eq_ok.mp h
  obtain ⟨⟨hints, final⟩, hHints, h⟩ := bind_eq_ok.mp h
  simp only [pure_eq_ok] at h
  subst h
  have hAll := (numberConstraints_eq_ok hWires hConstraints).append
    (numberHints_eq_ok hWires hHints)
  refine ⟨hAll.known, fun hCoefficients => ?_⟩
  have hInitial := CoefficientTable.initial_grown (p := p)
  have hGrown := hInitial.trans hAll.grown
  have hLawful := hInitial.lawful CoefficientTable.lawful_empty
  have hNamed := hAll.named hLawful final [] (CoefficientTable.Grown.refl final)
    (Nat.le_trans hGrown.size_le hCoefficients)
  rw [length_handles] at hWires
  have hCount : ∀ count ≤ 2 ^ 32, count.toUInt64.toNat = count := by
    intro count hCount
    rw [Nat.toUInt64_eq, UInt64.toNat_ofNat']
    exact Nat.mod_eq_of_lt (by omega)
  have hPublic := hCount builder.numPublic (by omega)
  have hSecret := hCount builder.numSecret (by omega)
  have hInternal := hCount builder.numInternal (by omega)
  refine ⟨hPublic, hSecret, hInternal, ?_, hNamed.1, hNamed.2⟩
  simp only [Layout.numWires, UInt64.toNat_add, hPublic, hSecret, hInternal,
    length_handles]
  omega

theorem flatten_eq_error {builder : Builder p} {e : SystemError}
    (h : builder.flatten = .error e) :
    e.Foreign ∧ ∃ term ∈ builder.terms, builder.wireNumber? term.2 = none := by
  unfold flatten at h
  rcases bind_eq_error.mp h with h | ⟨⟨constraints, table⟩, -, h⟩
  · obtain ⟨number, cause, hCause, term, hTerm, hForeign, hNumber⟩ :=
      numberConstraints_eq_error h
    rw [hForeign] at hCause
    exact ⟨⟨term.2, Or.inl ⟨number, hCause⟩⟩, term,
      List.mem_append_left _ hTerm, hNumber⟩
  rcases bind_eq_error.mp h with h | ⟨⟨hints, final⟩, -, h⟩
  · obtain ⟨wire, cause, hCause, term, hTerm, hForeign, hNumber⟩ :=
      numberHints_eq_error h
    rw [hForeign] at hCause
    exact ⟨⟨term.2, Or.inr ⟨wire, hCause⟩⟩, term,
      List.mem_append_right _ hTerm, hNumber⟩
  · exact absurd h pure_ne_error

end Builder

end RankOne
