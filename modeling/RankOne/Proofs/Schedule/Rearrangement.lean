import Mathlib.Data.List.Sort
import RankOne.Proofs.Schedule.Coherence
import RankOne.Proofs.Schedule.Cost
import RankOne.Proofs.Schedule.Levels

/-!
# Rearranged constraints

A sum does not depend on the order of its terms, nor a product on that of its
factors. So a system may be written down with its terms in another order and
with factors that have changed places. Validation does not tell the difference.
The resolution pass goes through the terms in order, but what it finds out about
a system does not depend on the order: the wires are resolved in the same names,
the constraints cost the same, and the schedules are equal.
-/

namespace RankOne

variable {p : Nat}

/-! ## Rearrangements -/

/-- The terms of every expression may come in another order, and the factors
have changed places if the constraint is `swapped`. -/
structure Constraint.Rearranges (swapped : Bool) (c c' : Constraint) :
    Prop where
  left : c'.left.Perm (if swapped then c.right else c.left)
  right : c'.right.Perm (if swapped then c.left else c.right)
  output : c'.output.Perm c.output

namespace Constraint.Rearranges

variable {swapped : Bool} {c c' : Constraint}
  (h : Constraint.Rearranges swapped c c')
include h

private theorem symm : Constraint.Rearranges swapped c' c := by
  obtain ⟨hLeft, hRight, hOutput⟩ := h
  cases swapped with
  | false => exact ⟨hLeft.symm, hRight.symm, hOutput.symm⟩
  | true => exact ⟨hRight.symm, hLeft.symm, hOutput.symm⟩

private theorem terms_perm : c'.terms.Perm c.terms := by
  obtain ⟨hLeft, hRight, hOutput⟩ := h
  unfold terms
  cases swapped with
  | false => exact (hLeft.append hRight).append hOutput
  | true =>
    exact ((hLeft.append hRight).trans List.perm_append_comm).append hOutput

end Constraint.Rearranges

/-- Constraints that are rearranged one by one; `swapped` tells whose factors
have changed places. -/
structure Rearranges (swapped : Nat → Bool) (cs cs' : Array Constraint) :
    Prop where
  size : cs'.size = cs.size
  constraint : ∀ (number : Nat) (c c' : Constraint), cs[number]? = some c →
    cs'[number]? = some c' → Constraint.Rearranges (swapped number) c c'

namespace Rearranges

variable {swapped : Nat → Bool} {cs cs' : Array Constraint}
  (h : Rearranges swapped cs cs')
include h

theorem symm : Rearranges swapped cs' cs where
  size := h.size.symm
  constraint :=
    fun number c c' hGet hGet' => (h.constraint number c' c hGet' hGet).symm

/-- Every constraint has its rearranged form. -/
theorem exists_rearranged {number : Nat} {c : Constraint}
    (hGet : cs[number]? = some c) :
    ∃ c', cs'[number]? = some c' ∧
      Constraint.Rearranges (swapped number) c c' := by
  have hBound := h.size.symm ▸ (Array.getElem?_eq_some_iff.mp hGet).1
  have hGet' := Array.getElem?_eq_getElem hBound
  exact ⟨_, hGet', h.constraint number c _ hGet hGet'⟩

/-- Every rearranged constraint has its original form. -/
theorem exists_original {number : Nat} {c' : Constraint}
    (hGet' : cs'[number]? = some c') :
    ∃ c, cs[number]? = some c ∧
      Constraint.Rearranges (swapped number) c c' := by
  obtain ⟨c, hGet, hRearranged⟩ := h.symm.exists_rearranged hGet'
  exact ⟨c, hGet, hRearranged.symm⟩

/-- The same terms occur. -/
private theorem exists_term_iff (P : Term → Prop) :
    (∃ c ∈ cs'.toList, ∃ term ∈ c.terms, P term) ↔
      ∃ c ∈ cs.toList, ∃ term ∈ c.terms, P term := by
  have hImp : ∀ {cs cs' : Array Constraint}, Rearranges swapped cs cs' →
      (∃ c ∈ cs.toList, ∃ term ∈ c.terms, P term) →
        ∃ c ∈ cs'.toList, ∃ term ∈ c.terms, P term := by
    rintro cs cs' hRearranges ⟨c, hMem, term, hTerm, hHolds⟩
    obtain ⟨number, hGet⟩ := mem_toList_iff_getElem?.mp hMem
    obtain ⟨c', hGet', hRearranged⟩ := hRearranges.exists_rearranged hGet
    exact ⟨c', mem_toList_iff_getElem?.mpr ⟨number, hGet'⟩, term,
      hRearranged.terms_perm.mem_iff.mpr hTerm, hHolds⟩
  exact ⟨hImp h.symm, hImp h⟩

end Rearranges

/-! ## Validation -/

namespace FlatSystem

private theorem requireMentioned_congr {mentioned mentioned' : Std.TreeSet Nat}
    (hSame : ∀ wire, mentioned.contains wire = mentioned'.contains wire)
    (reject : Nat → Nat → SystemError) (wires : List Nat) :
    requireMentioned mentioned reject wires =
      requireMentioned mentioned' reject wires := by
  unfold requireMentioned
  simp only [hSame]

/-- The checks of hints do not look at constraints. -/
private theorem checkHints_withConstraints (flat : FlatSystem p)
    (cs : Array Constraint) (number : Nat) (hints : List (Hint p))
    (producers : Std.TreeMap Nat Nat) :
    ({ flat with constraints := cs } :
      FlatSystem p).checkHints number hints producers =
      flat.checkHints number hints producers := by
  induction hints generalizing number producers with
  | nil => rfl
  | cons hint rest ih =>
      unfold checkHints
      simp only [ih]
      rfl

variable {swapped : Nat → Bool} {flat : FlatSystem p} {cs : Array Constraint}

/-- A rearranged system is valid when the system is. -/
theorem validate_rearranged (h : Rearranges swapped flat.constraints cs)
    {valid : ValidSystem p} (hValid : flat.validate = .ok valid) :
    ({ flat with constraints := cs } : FlatSystem p).validate =
      .ok { valid with constraints := cs } := by
  obtain ⟨hNonempty, hPublic, hFits, hMemory, hConstraints, producers, hHints,
    hInputs, hMentioned, rfl⟩ := validate_eq_ok.mp hValid
  refine validate_eq_ok.mpr
    ⟨?_, hPublic, hFits, hMemory, ?_, producers, ?_, hInputs, ?_, rfl⟩
  · rw [Array.isEmpty_eq_false_iff_exists_mem] at hNonempty ⊢
    obtain ⟨c, hMem⟩ := hNonempty
    obtain ⟨number, hGet⟩ := Array.mem_iff_getElem?.mp hMem
    obtain ⟨c', hGet', -⟩ := h.exists_rearranged hGet
    exact ⟨c', Array.mem_of_getElem? hGet'⟩
  · rw [checkConstraints_eq_ok] at hConstraints ⊢
    have hTerms := (h.exists_term_iff fun term => ¬ flat.TermInRange term).not
    push Not at hTerms
    exact hTerms.mpr hConstraints
  · rw [checkHints_withConstraints]
    exact hHints
  · have hSame : ∀ wire, ({ flat with constraints := cs } :
        FlatSystem p).mentioned.contains wire =
          flat.mentioned.contains wire := by
      intro wire
      rw [Bool.eq_iff_iff, contains_mentioned_iff, contains_mentioned_iff]
      exact h.exists_term_iff fun term => term.wire = wire
    unfold checkMentioned at hMentioned ⊢
    simp only [requireMentioned_congr hSame]
    exact hMentioned

end FlatSystem

/-! ## Resolution -/

namespace ValidSystem

variable {swapped : Nat → Bool} {system : ValidSystem p} {cs : Array Constraint}

/-- The map that is coherent with a system is coherent with the rearranged
system. -/
theorem Coherent.rearranged (h : Rearranges swapped system.constraints cs)
    {resolver : Std.TreeMap Nat Nat} (hCoherent : system.Coherent resolver) :
    ({ system with constraints := cs } : ValidSystem p).Coherent resolver where
  bounded := by
    intro wire owner hOwner
    show owner < cs.size ∧ _
    rw [h.size]
    exact hCoherent.bounded wire owner hOwner
  whole := hCoherent.whole
  reads := hCoherent.reads
  accessible := hCoherent.accessible
  mentions := by
    intro node c' hGet' term hTerm
    obtain ⟨c, hGet, hRearranged⟩ := h.exists_original hGet'
    exact hCoherent.mentions node c hGet term
      (hRearranged.terms_perm.mem_iff.mp hTerm)
  drawn := by
    intro wire node hOwner
    obtain ⟨c, hGet, term, hTerm, hDraws⟩ := hCoherent.drawn wire node hOwner
    obtain ⟨c', hGet', hRearranged⟩ := h.exists_rearranged hGet
    exact ⟨c', hGet', term, hRearranged.terms_perm.mem_iff.mpr hTerm, hDraws⟩

/-- Both passes resolve wires in the same names. -/
theorem resolver_rearranged (h : Rearranges swapped system.constraints cs)
    (hSystem : system.WellFormed) {resolution resolution' : Resolution}
    (hSound : resolution.Sound system)
    (hSound' : resolution'.Sound { system with constraints := cs })
    (wire : Nat) :
    resolution.resolver[wire]? = resolution'.resolver[wire]? :=
  hSound.coherent.unique hSystem (hSound'.coherent.rearranged h.symm) wire

end ValidSystem

/-- The charges of a constraint do not depend on the others. -/
private theorem NodeCharged.of_withConstraints {system : ValidSystem p}
    {cs : Array Constraint} {resolver : Std.TreeMap Nat Nat} {node : Nat}
    {c : Constraint} {cost : NodeCost}
    (h : NodeCharged { system with constraints := cs } resolver node c cost) :
    NodeCharged system resolver node c cost where
  weight := h.weight
  custom := h.custom
  dependencies := h.dependencies

/-- What a constraint is charged for is settled by the names in which wires are
resolved. -/
private theorem NodeCharged.unique {system : ValidSystem p}
    {resolver resolver' : Std.TreeMap Nat Nat}
    (hSame : ∀ wire : Nat, resolver[wire]? = resolver'[wire]?) {node : Nat}
    {c c' : Constraint} (hTerms : c'.terms.Perm c.terms) {cost cost' : NodeCost}
    (h : NodeCharged system resolver node c cost)
    (h' : NodeCharged system resolver' node c' cost')
    (hDecreasing : cost.dependencies.Pairwise (· > ·))
    (hDecreasing' : cost'.dependencies.Pairwise (· > ·)) : cost = cost' := by
  have hHints :
      system.hintsOf resolver node = system.hintsOf resolver' node := by
    ext number
    simp only [ValidSystem.mem_hintsOf, hSame]
  have hWires :
      system.wiresOf resolver node = system.wiresOf resolver' node := by
    ext wire
    simp only [ValidSystem.mem_wiresOf, ValidSystem.SolvesFor, hSame]
  have hWeight : cost.weight = cost'.weight := by
    rw [h.weight, h'.weight, hHints, hWires, hTerms.length_eq]
  have hCustom : cost.custom = cost'.custom := by
    rw [Bool.eq_iff_iff, h.custom, h'.custom, hHints]
  have hDependencies : cost.dependencies = cost'.dependencies := by
    refine hDecreasing.eq_of_mem_iff hDecreasing' fun other => ?_
    rw [h.dependencies, h'.dependencies]
    simp only [ValidSystem.WaitsFor, ValidSystem.ReadsWire, hSame,
      hTerms.mem_iff]
  cases cost
  cases cost'
  simp only at hWeight hCustom hDependencies
  rw [hWeight, hCustom, hDependencies]

namespace ValidSystem

variable {swapped : Nat → Bool} {system : ValidSystem p} {cs : Array Constraint}

/-- Both passes charge the same. -/
private theorem costs_rearranged (h : Rearranges swapped system.constraints cs)
    (hSystem : system.WellFormed)
    (hSystem' : ({ system with constraints := cs } : ValidSystem p).WellFormed)
    {resolution resolution' : Resolution}
    (hResolution : system.resolution = .ok resolution)
    (hResolution' : ({ system with constraints := cs } :
      ValidSystem p).resolution = .ok resolution') :
    resolution.costs = resolution'.costs := by
  have hSound := resolution_sound hSystem hResolution
  have hSound' := resolution_sound hSystem' hResolution'
  have hLength : resolution.costs.length = resolution'.costs.length := by
    rw [hSound.length_costs, hSound'.length_costs]
    exact h.size.symm
  refine List.ext_getElem hLength fun node hNode hNode' => ?_
  have hGet := Array.getElem?_eq_getElem (hSound.length_costs ▸ hNode)
  obtain ⟨c', hGet', hRearranged⟩ := h.exists_rearranged hGet
  have hCost := List.getElem?_eq_getElem hNode
  have hCost' := List.getElem?_eq_getElem hNode'
  exact NodeCharged.unique
    (resolver_rearranged h hSystem hSound hSound') hRearranged.terms_perm
    (resolution_charged hSystem hResolution hGet hCost)
    (resolution_charged hSystem' hResolution' hGet' hCost').of_withConstraints
    (hSound.node node _ _ hGet hCost).decreasing
      (hSound'.node node _ _ hGet' hCost').decreasing

end ValidSystem

/-- When both passes end well, rearranged systems have the same schedule. -/
theorem Schedule.ofSystem_rearranged {swapped : Nat → Bool}
    {system : ValidSystem p} {cs : Array Constraint}
    (h : Rearranges swapped system.constraints cs) (hSystem : system.WellFormed)
    (hSystem' : ({ system with constraints := cs } : ValidSystem p).WellFormed)
    {resolution resolution' : Resolution}
    (hResolution : system.resolution = .ok resolution)
    (hResolution' : ({ system with constraints := cs } :
      ValidSystem p).resolution = .ok resolution')
    (settings : SchedulerSettings) :
    ofSystem settings { system with constraints := cs } =
      ofSystem settings system := by
  unfold ofSystem
  rw [hResolution, hResolution']
  dsimp only
  rw [ValidSystem.costs_rearranged h hSystem hSystem' hResolution hResolution']

end RankOne
