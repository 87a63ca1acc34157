import RankOne.Constraint.Relation
import RankOne.Proofs.Constraint.Validation
import RankOne.Proofs.Field.Ring

/-!
# Rows and columns of a system

Read by columns, a system says for each wire with which coefficient it enters
each row. There is one row per constraint, in which a wire may occur in several
terms, and one row per public wire, in which the wire stands alone on the left.
The value of an expression is the sum of the wires' values, weighted by their
coefficients.

The relation of a system has the same columns: its variables are the wires in
order, and folding terms on one variable adds their coefficients.
-/

namespace RankOne

variable {p : Nat} [Modulus p]

namespace LinearForm

private theorem coefficient_addTerm (form : LinearForm p) (k : Fp p)
    (target other : Variable) :
    (form.addTerm k target).coefficient other =
      form.coefficient other + if other = target then k else 0 := by
  induction form with
  | nil =>
      unfold addTerm coefficient
      rw [List.lookup_cons, List.lookup_nil]
      by_cases hSame : other = target
      · subst hSame
        simp
      · rw [beq_false_of_ne hSame, if_neg hSame]
        simp
  | cons head rest ih =>
      obtain ⟨first, sum⟩ := head
      unfold addTerm
      split
      · next hFirst =>
          subst hFirst
          unfold coefficient
          rw [List.lookup_cons, List.lookup_cons]
          by_cases hSame : other = first
          · subst hSame
            simp
          · rw [beq_false_of_ne hSame, if_neg hSame, add_zero]
      · next hFirst =>
          unfold coefficient at ih ⊢
          rw [List.lookup_cons, List.lookup_cons]
          by_cases hSame : other = first
          · subst hSame
            rw [beq_self_eq_true, if_neg hFirst, add_zero]
          · rw [beq_false_of_ne hSame]
            exact ih

end LinearForm

namespace CompiledSystem

variable (system : CompiledSystem p)

/-- The coefficient of a wire in an expression: the sum of those of its
terms. -/
def coefficientIn (terms : Expression) (wire : Nat) : Fp p :=
  (terms.map fun term =>
    if term.wire = wire then
      system.coefficients.getD term.slot.toNat 0 else 0).sum

variable {system}

/-- Under a full assignment an expression has the value of the weighted sum of
the wires. -/
theorem evaluate_eq_sum {wires : List (Fp p)} {terms : Expression}
    {value : Fp p} (h : system.evaluate wires.toArray terms = .ok value) :
    value = ∑ wire ∈ Finset.range wires.length,
      wires.getD wire 0 * system.coefficientIn terms wire := by
  induction terms generalizing value with
  | nil =>
      injection h with h
      simp [← h, coefficientIn]
  | cons term rest ih =>
      unfold evaluate at h
      split at h
      · next coefficient seen hCoefficient hSeen =>
          split at h
          · next sum hSum =>
              injection h with h
              rw [List.getElem?_toArray] at hSeen
              have hBound := (List.getElem?_eq_some_iff.mp hSeen).1
              have hHead :
                  coefficient * seen = ∑ wire ∈ Finset.range wires.length,
                  wires.getD wire 0 *
                    if term.wire = wire then
                      system.coefficients.getD term.slot.toNat 0 else 0 := by
                rw [Finset.sum_eq_single term.wire]
                · rw [if_pos rfl, List.getD_eq_getElem?_getD, hSeen,
                    Array.getD_eq_getD_getElem?, hCoefficient, mul_comm]
                  rfl
                · intro wire _ hOther
                  rw [if_neg (Ne.symm hOther), mul_zero]
                · intro hOutside
                  exact absurd (Finset.mem_range.mpr hBound) hOutside
              rw [← h, ih hSum, hHead, ← Finset.sum_add_distrib]
              refine Finset.sum_congr rfl fun wire _ => ?_
              rw [← mul_add]
              rfl
          · cases h
      · cases h

/-! ## The relation -/

omit [Modulus p] in
/-- Different wires become different variables. -/
private theorem variableOf_injective :
    Function.Injective system.variableOf := by
  intro wire wire' hSame
  unfold variableOf at hSame
  split at hSame
  · split at hSame
    · omega
    · split at hSame <;> cases hSame
  · split at hSame
    · split at hSame
      · cases hSame
      · split at hSame
        · injection hSame with hSame
          omega
        · cases hSame
    · split at hSame
      · cases hSame
      · split at hSame
        · cases hSame
        · injection hSame with hSame
          omega

/-- A linear form has the coefficients of its expression. -/
theorem coefficient_formOf (terms : Expression) (wire : Nat) :
    (system.formOf terms).coefficient (system.variableOf wire) =
      system.coefficientIn terms wire := by
  have hFold : ∀ (terms : Expression) (form : LinearForm p),
      (terms.foldl (fun form term =>
        form.addTerm (system.coefficients.getD term.slot.toNat 0)
        (system.variableOf term.wire)) form).coefficient
          (system.variableOf wire) =
        form.coefficient (system.variableOf wire) +
          system.coefficientIn terms wire := by
    intro terms
    induction terms with
    | nil =>
        intro form
        exact (add_zero _).symm
    | cons term rest ih =>
        intro form
        rw [List.foldl_cons, ih, LinearForm.coefficient_addTerm, add_assoc]
        congr 1
        show _ = (if term.wire = wire then _ else 0) +
          system.coefficientIn rest wire
        congr 1
        by_cases hWire : term.wire = wire
        · rw [if_pos hWire, if_pos (congrArg _ hWire.symm)]
        · rw [if_neg hWire, if_neg]
          exact fun hSame => hWire (variableOf_injective hSame).symm
  have hStart :
      LinearForm.coefficient ([] : LinearForm p) (system.variableOf wire) = 0 :=
    rfl
  have hTerms := hFold terms []
  rw [hStart, zero_add] at hTerms
  exact hTerms

section Counts

variable (hPublic : 0 < system.layout.numPublic.toNat)
  (hWires : system.layout.numPublic.toNat ≤ system.layout.numWires)
include hPublic hWires

theorem numPublic_relation :
    system.relation.numPublic = system.layout.numPublic.toNat := by
  show min system.layout.numWires system.layout.numPublic.toNat - 1 + 1 = _
  rw [Nat.min_eq_right hWires]
  omega

/-- The variables of the relation are the wires in order. -/
theorem allVariables_eq_map :
    system.relation.allVariables =
      (List.range system.layout.numWires).map system.variableOf := by
  have hInputs : system.inputCount = system.layout.numPublic.toNat - 1 := by
    unfold inputCount
    rw [Nat.min_eq_right hWires]
  have hWitness : system.witnessCount =
      system.layout.numWires - system.layout.numPublic.toNat := by
    unfold witnessCount
    rw [hInputs]
    omega
  have hSplit : system.layout.numWires =
      1 + system.inputCount + system.witnessCount := by
    rw [hInputs, hWitness]
    omega
  rw [hSplit, List.range_add, List.range_add, List.map_append, List.map_append,
    List.map_map, List.map_map]
  show [Variable.one] ++ _ ++ _ = _
  congr 1
  · congr 1
    refine List.map_congr_left fun place hMem => ?_
    have hPlace : place < system.inputCount := List.mem_range.mp hMem
    rw [hInputs] at hPlace
    show Variable.input place = system.variableOf (1 + place)
    unfold variableOf
    rw [if_neg (by omega), if_pos (by omega), Nat.add_sub_cancel_left]
  · refine List.map_congr_left fun place _ => ?_
    show Variable.witness place =
      system.variableOf (1 + system.inputCount + place)
    unfold variableOf
    rw [hInputs, if_neg (by omega), if_neg (by omega)]
    congr 1
    omega

end Counts

end CompiledSystem

end RankOne
