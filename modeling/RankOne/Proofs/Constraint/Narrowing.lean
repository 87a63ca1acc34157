import RankOne.Proofs.Constraint.Admission
import RankOne.Proofs.Schedule.Levels

/-!
# Numbers that validation does not see

A term is made from a wire number of 64 bits and keeps the lower 32 of them, and
the counts of wires are added up as words. Validation works on what is left, so
that a wire number of more than 32 bits may be taken for another wire, and, when
sums are not checked, counts whose sum wraps around for smaller ones.

An admitted system has no more wires than 32 bits can number, and all terms that
are stored are in range. So the wire number that a term was made from is in
range exactly if it is the number that was stored, and that is so for numbers of
32 bits and no others. The counts are the true ones exactly if they add up to a
word.
-/

namespace RankOne

variable {p : Nat}

/-! ## Systems with wire numbers of 64 bits -/

/-- A term as it is asked for. -/
structure RawTerm where
  slot : UInt32
  wire : UInt64

/-- The term that is stored. -/
def RawTerm.store (term : RawTerm) : Term :=
  .ofNumbers term.slot.toNat term.wire.toNat

/-- Of a wire number the lower 32 bits are kept. -/
private theorem RawTerm.wire_store (term : RawTerm) :
    term.store.wire = term.wire.toNat % 2 ^ 32 := by
  show term.wire.toNat.toUInt32.toNat = _
  rw [Nat.toUInt32_eq, UInt32.toNat_ofNat']

/-- A constraint made of such terms. -/
structure RawConstraint where
  left : List RawTerm
  right : List RawTerm
  output : List RawTerm

namespace RawConstraint

/-- All terms. -/
def terms (c : RawConstraint) : List RawTerm := c.left ++ c.right ++ c.output

/-- The constraint that is stored. -/
def store (c : RawConstraint) : Constraint :=
  ⟨c.left.map RawTerm.store, c.right.map RawTerm.store,
    c.output.map RawTerm.store⟩

private theorem terms_store (c : RawConstraint) :
    c.store.terms = c.terms.map RawTerm.store := by
  rw [terms, List.map_append, List.map_append]
  rfl

end RawConstraint

/-- An input of a hint made of such terms. -/
inductive RawInput (p : Nat) where
  | constant (value : Fp p)
  | expression (terms : List RawTerm)

namespace RawInput

/-- All terms. -/
def terms : RawInput p → List RawTerm
  | constant _ => []
  | expression terms => terms

/-- The input that is stored. -/
def store : RawInput p → HintInput p
  | constant value => .constant value
  | expression terms => .expression (terms.map RawTerm.store)

private theorem terms_store (input : RawInput p) :
    input.store.terms = input.terms.map RawTerm.store := by
  cases input with
  | constant value => rfl
  | expression terms => rfl

end RawInput

/-- A hint with such inputs. -/
structure RawHint (p : Nat) where
  kind : HintKind
  inputs : List (RawInput p)
  wires : List Nat

namespace RawHint

/-- All terms. -/
def terms (hint : RawHint p) : List RawTerm :=
  hint.inputs.flatMap RawInput.terms

/-- The hint that is stored. -/
def store (hint : RawHint p) : Hint p :=
  ⟨hint.kind, hint.inputs.map RawInput.store, hint.wires⟩

private theorem terms_store (hint : RawHint p) :
    hint.store.terms = hint.terms.map RawTerm.store := by
  show (hint.inputs.map RawInput.store).flatMap HintInput.terms = _
  rw [terms, List.flatMap_map, List.map_flatMap]
  exact List.flatMap_congr fun input _ => input.terms_store

end RawHint

/-- A system before its terms are stored. -/
structure RawSystem (p : Nat) where
  layout : Layout
  constraints : List RawConstraint
  coefficients : List (Fp p)
  hints : List (RawHint p)

namespace RawSystem

/-- The terms of all constraints and hints. -/
def terms (system : RawSystem p) : List RawTerm :=
  system.constraints.flatMap RawConstraint.terms ++
    system.hints.flatMap RawHint.terms

/-- The system that is stored. -/
def flat (system : RawSystem p) : FlatSystem p where
  layout := system.layout
  constraints := (system.constraints.map RawConstraint.store).toArray
  coefficients := system.coefficients.toArray
  hints := (system.hints.map RawHint.store).toArray

/-- Nothing has been lost: the wires are as many as the counts say, the inputs
are among them, and every term refers to a wire of the system, the one that it
was asked for. -/
structure Unaliased (system : RawSystem p) : Prop where
  sum : system.layout.numPublic.toNat + system.layout.numSecret.toNat +
    system.layout.numInternal.toNat = system.layout.numWires
  inputs : system.layout.numInputs ≤ system.layout.numWires
  terms : ∀ term ∈ system.terms,
    term.wire.toNat < system.layout.numWires ∧ term.store.wire = term.wire.toNat

variable {system : RawSystem p}

/-! ## What is left of the numbers -/

/-- A stored term is in a constraint or in a hint, and has been found in range
there. -/
private theorem termInRange_store (h : system.flat.Admissible) {term : RawTerm}
    (hTerm : term ∈ system.terms) : system.flat.TermInRange term.store := by
  rcases List.mem_append.mp hTerm with hTerm | hTerm
  · obtain ⟨c, hConstraint, hTerm⟩ := List.mem_flatMap.mp hTerm
    refine h.terms_inRange c.store
      (List.mem_map_of_mem hConstraint) term.store ?_
    rw [c.terms_store]
    exact List.mem_map_of_mem hTerm
  · obtain ⟨hint, hHint, hTerm⟩ := List.mem_flatMap.mp hTerm
    refine h.hintTerms_inRange hint.store
      (List.mem_map_of_mem hHint) term.store ?_
    rw [hint.terms_store]
    exact List.mem_map_of_mem hTerm

/-- A wire number is in range exactly if it has 32 bits, and only then it has
been stored. -/
private theorem wire_lt_iff (h : system.flat.Admissible) {term : RawTerm}
    (hTerm : term ∈ system.terms) :
    (term.wire.toNat < system.layout.numWires ↔ term.wire.toNat < 2 ^ 32) ∧
      (term.store.wire = term.wire.toNat ↔ term.wire.toNat < 2 ^ 32) := by
  have hStored : term.store.wire < system.layout.numWires :=
    (termInRange_store h hTerm).1
  have hFew : system.layout.numWires ≤ 2 ^ 32 := h.numWires_le
  rw [term.wire_store] at hStored ⊢
  omega

/-- Nothing has been lost exactly if the counts add up to a word and all wire
numbers have 32 bits. -/
private theorem unaliased_iff (h : system.flat.Admissible) : system.Unaliased ↔
    system.layout.Fits ∧ ∀ term ∈ system.terms, term.wire.toNat < 2 ^ 32 := by
  constructor
  · intro hSame
    exact ⟨Layout.sum_eq_numWires_iff.mp hSame.sum, fun term hTerm =>
      (wire_lt_iff h hTerm).1.mp (hSame.terms term hTerm).1⟩
  · rintro ⟨hFits, hNarrow⟩
    exact
      { sum := Layout.sum_eq_numWires_iff.mpr hFits
        inputs := by
          rw [hFits.numWires_eq]
          exact Nat.le_add_right _ _
        terms :=
          fun term hTerm => ⟨(wire_lt_iff h hTerm).1.mpr (hNarrow term hTerm),
          (wire_lt_iff h hTerm).2.mpr (hNarrow term hTerm)⟩ }

/-- When a system is compiled, nothing has been lost exactly if the three counts
add up to a word and all terms were asked for with wire numbers of 32 bits. The
number of wires is the true sum exactly in the first case, which checked sums
leave as the only one; a term refers to a wire of the system in any case, to the
one that it was asked for exactly in the second; and there are as many wires as
inputs, except that there may be no wire and one input when the sum has wrapped
around. -/
theorem unaliased_exact {settings : SchedulerSettings} {arithmetic : Arithmetic}
    {compiled : CompiledSystem p}
    (h : CompiledSystem.compile settings system.flat arithmetic =
      .ok compiled) :
    (system.Unaliased ↔ system.layout.Fits ∧
      ∀ term ∈ system.terms, term.wire.toNat < 2 ^ 32) ∧
    (system.layout.numPublic.toNat + system.layout.numSecret.toNat +
      system.layout.numInternal.toNat = system.layout.numWires ↔
        system.layout.Fits) ∧
    (arithmetic = .checked → system.layout.Fits) ∧
    (system.layout.numInputs ≤ system.layout.numWires ∨
      (system.layout.numInputs = 1 ∧ system.layout.numWires = 0 ∧
        ¬ system.layout.Fits)) ∧
    ∀ term ∈ system.terms, term.store.wire = term.wire.toNat % 2 ^ 32 ∧
      term.store.wire < system.layout.numWires ∧
      (term.wire.toNat < system.layout.numWires ↔
        term.wire.toNat < 2 ^ 32) := by
  obtain ⟨valid, hValid, -, -, -⟩ := CompiledSystem.compile_eq_ok.mp h
  obtain ⟨hFlat, hSystem⟩ := FlatSystem.validate_wellFormed hValid
  have hAdmissible : system.flat.Admissible := hFlat ▸ hSystem.admissible
  refine ⟨unaliased_iff hAdmissible, Layout.sum_eq_numWires_iff,
    (FlatSystem.validate_eq_ok.mp hValid).2.2.1, ?_, fun term hTerm =>
      ⟨term.wire_store, (termInRange_store hAdmissible hTerm).1,
        (wire_lt_iff hAdmissible hTerm).1⟩⟩
  refine (FlatSystem.numInputs_le hValid).imp_right fun ⟨hInputs, hWires⟩ =>
    ⟨hInputs, hWires, fun hFits => ?_⟩
  have hSum : system.layout.numWires = system.layout.numInputs + _ :=
    hFits.numWires_eq
  have hOne : system.layout.numInputs = 1 := hInputs
  have hNone : system.layout.numWires = 0 := hWires
  omega

end RawSystem

/-! ## Small systems -/

/-- A secret `x` and its square, modulo 17, with a hint that says whether `x` is
zero: the wires are one, `x`, and the internal `y` and `b`, and the constraints
are `x · x = y` and `x · b = 0`. -/
def rawSquare : RawSystem 17 where
  layout := ⟨1, 1, 2⟩
  constraints := [⟨[⟨0, 1⟩], [⟨0, 1⟩], [⟨0, 2⟩]⟩, ⟨[⟨0, 1⟩], [⟨0, 3⟩], []⟩]
  coefficients := [1]
  hints := [⟨.isZero, [.expression [⟨0, 1⟩]], [3]⟩]

/-- The square and the hint have lost nothing. -/
theorem unaliased_exact_square : ∃ compiled : CompiledSystem 17,
    CompiledSystem.compile {} rawSquare.flat .wrapping = .ok compiled ∧
      rawSquare.Unaliased := by
  have hRun : (CompiledSystem.compile {} rawSquare.flat
      .wrapping).toOption.isSome = true := by
    decide +kernel
  obtain ⟨compiled, hCompile⟩ := isSome_toOption.mp hRun
  exact ⟨compiled, hCompile,
    (RawSystem.unaliased_exact hCompile).1.mpr ⟨by decide, by decide⟩⟩

/-- The constraint `x · w = x` on a secret `x` and the wire of number `2 ^ 32`,
which is not there. -/
def wideSystem : RawSystem 17 where
  layout := ⟨1, 1, 0⟩
  constraints := [⟨[⟨0, 1⟩], [⟨0, 4294967296⟩], [⟨0, 1⟩]⟩]
  coefficients := [1]
  hints := []

/-- The constraint `u · v = v` on the last two of three wires, whose counts are
`2 ^ 64 - 1` public, three secret and one internal. -/
def countlessSystem : RawSystem 17 where
  layout := ⟨18446744073709551615, 3, 1⟩
  constraints := [⟨[⟨0, 1⟩], [⟨0, 2⟩], [⟨0, 2⟩]⟩]
  coefficients := [1]
  hints := []

/-- The first is compiled with either arithmetic, and refers to wire zero where
it was asked for another wire. The second is compiled when sums wrap around, and
has fewer wires than its counts say. -/
theorem not_unaliased :
    (∀ arithmetic, ∃ compiled,
      CompiledSystem.compile {} wideSystem.flat arithmetic = .ok compiled ∧
      ⟨0, 4294967296⟩ ∈ wideSystem.terms ∧ wideSystem.layout.numWires = 2 ∧
      (RawTerm.store ⟨0, 4294967296⟩).wire = 0 ∧ ¬ wideSystem.Unaliased) ∧
    ∃ compiled,
      CompiledSystem.compile {} countlessSystem.flat .wrapping = .ok compiled ∧
      countlessSystem.layout.numWires = 3 ∧ ¬ countlessSystem.Unaliased := by
  have hWide : ∀ arithmetic, (CompiledSystem.compile {} wideSystem.flat
      arithmetic).toOption.isSome = true := by
    intro arithmetic
    cases arithmetic <;> decide +kernel
  have hCountless : (CompiledSystem.compile {} countlessSystem.flat
      .wrapping).toOption.isSome = true := by
    decide +kernel
  have hTerm : (⟨0, 4294967296⟩ : RawTerm) ∈ wideSystem.terms :=
    List.mem_cons_of_mem _ List.mem_cons_self
  refine ⟨fun arithmetic => ?_, ?_⟩
  · obtain ⟨compiled, hCompile⟩ := isSome_toOption.mp (hWide arithmetic)
    exact ⟨compiled, hCompile, hTerm, by decide, by decide, fun h =>
      absurd (h.terms _ hTerm).1 (by decide)⟩
  · obtain ⟨compiled, hCompile⟩ := isSome_toOption.mp hCountless
    exact ⟨compiled, hCompile, by decide, fun h => absurd h.sum (by decide)⟩

end RankOne
