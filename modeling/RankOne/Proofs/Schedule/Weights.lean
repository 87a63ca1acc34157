import Mathlib.Algebra.BigOperators.Fin
import RankOne.Proofs.Constraint.Admission
import RankOne.Proofs.Schedule.Cost
import RankOne.Proofs.Schedule.Packing

/-!
# The weights of a schedule

The resolution pass charges for a wire or a hint where it first meets it, which
may be deep inside a chain of hints. In the end every plain wire and every hint
belongs to one constraint: none is left out, since each occurs in a constraint,
and none is charged for twice, since a wire has one resolver. So the charges of
all constraints add up to a number that can be read off the system, and levels
and tasks only divide it.
-/

namespace RankOne

variable {p : Nat}

/-- A sum over a list, by places. -/
private theorem sum_map_eq_sum_range {α : Type} {xs : List α} {f : α → Nat}
    {g : Nat → Nat} (h : ∀ i x, xs[i]? = some x → f x = g i) :
    (xs.map f).sum = ∑ i ∈ Finset.range xs.length, g i := by
  rw [← Fin.sum_univ_fun_getElem xs f, Finset.sum_range]
  exact Finset.sum_congr rfl fun i _ =>
    h i xs[i] (List.getElem?_eq_getElem i.isLt)

/-! ## What there is to charge for -/

namespace FlatSystem

variable (system : FlatSystem p)

/-- The number of terms of all constraints. -/
def numTerms : Nat :=
  (system.constraints.toList.map fun c => c.terms.length).sum

/-- The number of inputs and outputs of all hints. -/
def numHintValues : Nat :=
  (system.hints.toList.map fun hint =>
    hint.inputs.length + hint.wires.length).sum

/-- The internal wires that no hint produces. -/
def plainWires : Finset Nat :=
  (Finset.Ico system.layout.numInputs system.layout.numWires).filter
    (· ∉ system.outputs)

variable {system}

/-- The internal wires are plain wires and outputs of hints. Their number is
that of the layout, unless the sum of the counts wraps around between the inputs
and the internal wires. -/
private theorem Admissible.card_plainWires (h : system.Admissible)
    (hInputs : system.layout.numInputs ≤ system.layout.numWires) :
    system.plainWires.card + system.outputs.length =
      system.layout.numInternal.toNat := by
  have hOutputs :
      (Finset.Ico system.layout.numInputs system.layout.numWires).filter
        (· ∈ system.outputs) = system.outputs.toFinset := by
    ext wire
    rw [Finset.mem_filter, Finset.mem_Ico, List.mem_toFinset,
      and_iff_right_iff_imp]
    exact h.outputs_internal wire
  rw [← Layout.numWires_sub_numInputs hInputs, ← Nat.card_Ico,
    ← List.toFinset_card_of_nodup h.outputs_nodup, ← hOutputs, Nat.add_comm]
  exact Finset.card_filter_add_card_filter_not _

end FlatSystem

/-! ## The constraints divide it -/

namespace ValidSystem

variable {system : ValidSystem p}

private theorem WellFormed.mem_plainWires (h : system.WellFormed) {wire : Nat} :
    wire ∈ system.plainWires ↔ system.layout.numInputs ≤ wire ∧
      wire < system.layout.numWires ∧ system.hintFor? wire = none := by
  have hPlain : wire ∉ system.outputs ↔ system.hintFor? wire = none := by
    rw [Option.eq_none_iff_forall_ne_some]
    constructor
    · rintro hOutside ⟨number, hint⟩ hProducer
      obtain ⟨hGet, hWire⟩ := h.hintFor?_eq_some_iff.mp hProducer
      exact hOutside (List.mem_flatMap.mpr
        ⟨hint, mem_toList_iff_getElem?.mpr ⟨number, hGet⟩, hWire⟩)
    · intro hNone hOutput
      obtain ⟨hint, hHint, hWire⟩ := List.mem_flatMap.mp hOutput
      obtain ⟨number, hGet⟩ := mem_toList_iff_getElem?.mp hHint
      exact hNone (number, hint) (h.hintFor?_eq_some_iff.mpr ⟨hGet, hWire⟩)
  unfold FlatSystem.plainWires
  rw [Finset.mem_filter, Finset.mem_Ico, hPlain, and_assoc]

/-- A wire has one resolver. -/
private theorem wiresOf_unique {resolver : Std.TreeMap Nat Nat}
    {wire node node' : Nat} (h : wire ∈ system.wiresOf resolver node)
    (h' : wire ∈ system.wiresOf resolver node') :
    node = node' := by
  have hOwner := (mem_wiresOf.mp h).2.1
  rw [(mem_wiresOf.mp h').2.1] at hOwner
  exact (Option.some.inj hOwner).symm

/-- So has a hint, that of its first output. -/
private theorem hintsOf_unique {resolver : Std.TreeMap Nat Nat}
    {number node node' : Nat} (h : number ∈ system.hintsOf resolver node)
    (h' : number ∈ system.hintsOf resolver node') :
    node = node' := by
  obtain ⟨hint, hGet, hOwner⟩ := mem_hintsOf.mp h
  obtain ⟨hint', hGet', hOwner'⟩ := mem_hintsOf.mp h'
  rw [hGet] at hGet'
  injection hGet' with hSame
  subst hSame
  rw [hOwner] at hOwner'
  exact Option.some.inj hOwner'

private theorem pairwiseDisjoint_wiresOf (resolver : Std.TreeMap Nat Nat)
    (nodes : Set Nat) :
    nodes.PairwiseDisjoint (system.wiresOf resolver) :=
      fun _ _ _ _ hDifferent =>
  Finset.disjoint_left.mpr fun _ h h' => hDifferent (wiresOf_unique h h')

private theorem pairwiseDisjoint_hintsOf (resolver : Std.TreeMap Nat Nat)
    (nodes : Set Nat) :
    nodes.PairwiseDisjoint (system.hintsOf resolver) :=
      fun _ _ _ _ hDifferent =>
  Finset.disjoint_left.mpr fun _ h h' => hDifferent (hintsOf_unique h h')

section Divided

variable {flat : FlatSystem p} (hValid : flat.validate = .ok system)
  {resolution : Resolution} (hSound : resolution.Sound system)
include hValid hSound

/-- Internal wires occur in constraints, so that they are resolved. -/
private theorem exists_resolver {wire : Nat}
    (hLow : system.layout.numInputs ≤ wire)
    (hHigh : wire < system.layout.numWires) :
    ∃ node < system.constraints.size,
      resolution.resolver[wire]? = some node := by
  obtain ⟨rfl, -⟩ := FlatSystem.validate_wellFormed hValid
  obtain ⟨node, c, hGet, term, hTerm, rfl⟩ :=
    FlatSystem.exists_mention_of_internal hValid hLow hHigh
  obtain ⟨owner, hOwner⟩ := hSound.exists_owner hGet hTerm hLow
  exact ⟨owner, (hSound.bounded _ owner hOwner).1, hOwner⟩

/-- The plain wires are those that the constraints are solved for. -/
theorem biUnion_wiresOf :
    (Finset.range system.constraints.size).biUnion
      (system.wiresOf resolution.resolver) =
      system.plainWires := by
  obtain ⟨-, hSystem⟩ := FlatSystem.validate_wellFormed hValid
  ext wire
  rw [Finset.mem_biUnion, hSystem.mem_plainWires]
  constructor
  · rintro ⟨node, -, hWire⟩
    obtain ⟨hHigh, hOwner, hPlain⟩ := mem_wiresOf.mp hWire
    exact ⟨(hSound.bounded wire node hOwner).2.1, hHigh, hPlain⟩
  · rintro ⟨hLow, hHigh, hPlain⟩
    obtain ⟨node, hNode, hOwner⟩ := exists_resolver hValid hSound hLow hHigh
    exact ⟨node, Finset.mem_range.mpr hNode,
      mem_wiresOf.mpr ⟨hHigh, hOwner, hPlain⟩⟩

/-- The hints are those that the constraints run. -/
theorem biUnion_hintsOf :
    (Finset.range system.constraints.size).biUnion
      (system.hintsOf resolution.resolver) =
      Finset.range system.hints.size := by
  obtain ⟨-, hSystem⟩ := FlatSystem.validate_wellFormed hValid
  ext number
  rw [Finset.mem_biUnion, Finset.mem_range]
  constructor
  · rintro ⟨node, -, hNumber⟩
    obtain ⟨hint, hGet, -⟩ := mem_hintsOf.mp hNumber
    exact (Array.getElem?_eq_some_iff.mp hGet).1
  · intro hNumber
    have hGet := Array.getElem?_eq_getElem hNumber
    obtain ⟨hLow, hHigh⟩ :=
      hSystem.outputs_internal number _ hGet _ (hSystem.firstWire_mem hGet)
    obtain ⟨node, hNode, hOwner⟩ := exists_resolver hValid hSound hLow hHigh
    exact ⟨node, Finset.mem_range.mpr hNode, mem_hintsOf.mpr ⟨_, hGet, hOwner⟩⟩

/-- A plain wire is charged to one constraint. -/
private theorem existsUnique_wiresOf {wire : Nat}
    (hWire : wire ∈ system.plainWires) :
    ∃! node, wire ∈ system.wiresOf resolution.resolver node := by
  rw [← biUnion_wiresOf hValid hSound, Finset.mem_biUnion] at hWire
  obtain ⟨node, -, hMem⟩ := hWire
  exact ⟨node, hMem, fun other hOther => wiresOf_unique hOther hMem⟩

/-- A hint is charged to one constraint. -/
private theorem existsUnique_hintsOf {number : Nat}
    (hNumber : number < system.hints.size) :
    ∃! node, number ∈ system.hintsOf resolution.resolver node := by
  rw [← Finset.mem_range, ← biUnion_hintsOf hValid hSound, Finset.mem_biUnion]
    at hNumber
  obtain ⟨node, -, hMem⟩ := hNumber
  exact ⟨node, hMem, fun other hOther => hintsOf_unique hOther hMem⟩

end Divided

/-- What all constraints are charged. -/
private theorem sum_weight_costs {flat : FlatSystem p}
    (hValid : flat.validate = .ok system) {resolution : Resolution}
    (hResolution : system.resolution = .ok resolution) :
    (resolution.costs.map NodeCost.weight).sum = system.numTerms +
      NodeCost.solveWeight * system.plainWires.card +
      NodeCost.hintWeight * system.numHintValues := by
  obtain ⟨-, hSystem⟩ := FlatSystem.validate_wellFormed hValid
  have hSound := resolution_sound hSystem hResolution
  have hTerms : system.numTerms = ∑ node ∈ Finset.range system.constraints.size,
      (system.constraints[node]?.elim 0 fun c => c.terms.length) := by
    rw [← Array.length_toList]
    refine sum_map_eq_sum_range fun node c hGet => ?_
    rw [Array.getElem?_toList] at hGet
    rw [hGet, Option.elim_some]
  have hHints : NodeCost.hintWeight * system.numHintValues =
      ∑ node ∈ Finset.range system.constraints.size,
        ∑ number ∈ system.hintsOf resolution.resolver node,
          system.hintWeight number := by
    rw [← Finset.sum_biUnion (pairwiseDisjoint_hintsOf resolution.resolver _),
      biUnion_hintsOf hValid hSound, ← Array.length_toList,
        FlatSystem.numHintValues,
      Nat.mul_comm, ← List.sum_map_mul_right]
    refine sum_map_eq_sum_range fun number hint hGet => ?_
    rw [Array.getElem?_toList] at hGet
    rw [hintWeight, hGet, Option.map_some, Option.getD_some]
  have hWires :
      system.plainWires.card = ∑ node ∈ Finset.range system.constraints.size,
      (system.wiresOf resolution.resolver node).card := by
    rw [← Finset.card_biUnion (pairwiseDisjoint_wiresOf resolution.resolver _),
      biUnion_wiresOf hValid hSound]
  rw [hTerms, hHints, hWires, Finset.mul_sum, ← hSound.length_costs,
    ← Finset.sum_add_distrib, ← Finset.sum_add_distrib]
  refine sum_map_eq_sum_range fun node cost hCost => ?_
  obtain ⟨c, hGet⟩ := hSound.exists_constraint hCost
  rw [(resolution_charged hSystem hResolution hGet hCost).weight, hGet,
    Option.elim_some]
  omega

/-- Without custom hints no constraint is custom. -/
private theorem custom_eq_false (hSystem : system.WellFormed)
    (hPlain : ∀ hint ∈ system.hints, hint.kind.isCustom = false)
    {resolution : Resolution} (hResolution : system.resolution = .ok resolution)
    {cost : NodeCost} (hCost : cost ∈ resolution.costs) :
    cost.custom = false := by
  rw [← Bool.not_eq_true]
  intro hCustom
  obtain ⟨node, hGetCost⟩ := List.mem_iff_getElem?.mp hCost
  obtain ⟨c, hGet⟩ :=
    (resolution_sound hSystem hResolution).exists_constraint hGetCost
  obtain ⟨number, -, hIs⟩ :=
    (resolution_charged hSystem hResolution hGet hGetCost).custom.mp hCustom
  rw [isCustomHint, Option.any_eq_true] at hIs
  obtain ⟨hint, hHint, hIs⟩ := hIs
  rw [hPlain hint (Array.mem_of_getElem? hHint)] at hIs
  cases hIs

end ValidSystem

/-! ## Levels and tasks divide the charges -/

namespace Task

variable {weightOf : Nat → Nat}

private theorem load_flatMap (tasks : List Task) :
    load weightOf (tasks.flatMap Task.nodes) =
      (tasks.map fun task => load weightOf task.nodes).sum := by
  induction tasks with
  | nil => rfl
  | cons task rest ih =>
    rw [List.flatMap_cons, load_append, ih, List.map_cons, List.sum_cons]

end Task

namespace Schedule

/-- The weights of all tasks of all levels. -/
def weight (schedule : Schedule) : Nat :=
  ((schedule.levels.flatMap Level.tasks).map Task.weight).sum

/-- All tasks together weigh what the constraints are packed with. -/
theorem weight_eq {settings : SchedulerSettings} {costs : List NodeCost}
    {schedule : Schedule}
    (hCosts : DependencyGraph.OlderParents (costs.map NodeCost.dependencies))
    (h : ofCosts settings costs = .ok schedule) :
    schedule.weight =
      (costs.map fun cost =>
        cost.packingWeight settings.maxTaskWeight).sum := by
  have hTasks : ∀ task ∈ schedule.levels.flatMap Level.tasks,
      task.weight = Task.load (packingWeightOf settings costs) task.nodes := by
    intro task hTask
    obtain ⟨level, hLevel, hTask⟩ := List.mem_flatMap.mp hTask
    rw [← tasks_of_mem_levels h hLevel] at hTask
    exact ((Task.packed_pack level.nodes).wellCut task hTask).weight_eq
  have hNodes : (schedule.levels.flatMap Level.tasks).flatMap Task.nodes =
      schedule.levels.flatMap Level.nodes := List.flatMap_assoc
  have hCost : ∀ node cost, costs[node]? = some cost →
      cost.packingWeight settings.maxTaskWeight =
        packingWeightOf settings costs node := by
    intro node cost hGet
    unfold packingWeightOf costOf
    rw [Array.getD_eq_getD_getElem?, List.getElem?_toArray, hGet,
      Option.getD_some]
  unfold weight
  rw [List.map_congr_left hTasks, ← Task.load_flatMap, hNodes, Task.load,
    ((ofCosts_ordered hCosts h).perm.map _).sum_eq, sum_map_eq_sum_range hCost]
  rfl

end Schedule

/-! ## Compiled systems -/

namespace CompiledSystem

variable {settings : SchedulerSettings} {flat : FlatSystem p}
  {system : CompiledSystem p}

/-- Weights are conserved. Without custom hints all tasks of all levels weigh as
much as there are terms, twenty times as much as there are plain wires, and ten
times as much as there are inputs and outputs of hints. Each constraint is
charged for its terms and for the plain wires and hints that it resolves, each
plain wire and each hint being resolved by one constraint. -/
theorem weights_conserved (h : compile settings flat = .ok system)
    (hPlain : ∀ hint ∈ flat.hints, hint.kind.isCustom = false) :
    system.schedule.weight =
        flat.numTerms + 20 * flat.plainWires.card + 10 * flat.numHintValues ∧
      (flat.layout.numInputs ≤ flat.layout.numWires →
        flat.plainWires.card + flat.outputs.length =
          flat.layout.numInternal.toNat) ∧
      ∃ resolution, system.resolution = .ok resolution ∧
        (∀ node c cost, flat.constraints[node]? = some c →
          resolution.costs[node]? = some cost →
          NodeCharged system.toValidSystem resolution.resolver node c cost) ∧
        (∀ wire ∈ flat.plainWires, ∃! node,
          wire ∈ system.wiresOf resolution.resolver node) ∧
        ∀ number < flat.hints.size,
          ∃! node, number ∈ system.hintsOf resolution.resolver node := by
  obtain ⟨valid, hValid, schedule, hSchedule, rfl⟩ := compile_eq_ok.mp h
  obtain ⟨rfl, hSystem⟩ := FlatSystem.validate_wellFormed hValid
  obtain ⟨resolution, hResolution, hCosts, hOfCosts⟩ :=
    Schedule.ofSystem_eq_ok hSystem hSchedule
  have hSound := ValidSystem.resolution_sound hSystem hResolution
  have hWeights : resolution.costs.map (fun cost =>
      cost.packingWeight settings.maxTaskWeight) =
      resolution.costs.map NodeCost.weight := by
    refine List.map_congr_left fun cost hCost => if_neg ?_
    rw [ValidSystem.custom_eq_false hSystem hPlain hResolution hCost]
    exact Bool.false_ne_true
  refine ⟨?_, hSystem.admissible.card_plainWires, resolution,
    hResolution, ?_, ?_, ?_⟩
  · rw [Schedule.weight_eq hCosts hOfCosts, hWeights,
      ValidSystem.sum_weight_costs hValid hResolution]
    rfl
  · exact fun node c cost hGet hCost =>
      ValidSystem.resolution_charged hSystem hResolution hGet hCost
  · exact fun wire hWire => ValidSystem.existsUnique_wiresOf hValid hSound hWire
  · exact fun number hNumber =>
      ValidSystem.existsUnique_hintsOf hValid hSound hNumber

end CompiledSystem

/-- Two hints in a chain. The wires are one, the secret `x`, and the internal
`b`, `d` and `y`; `b` says whether `x` is zero, `d` whether `b` is, and the
constraints are `d · b = y` and `x · b = 0`, of which the first resolves
everything. -/
def chainedSystem : FlatSystem 17 where
  layout := ⟨1, 1, 3⟩
  constraints := #[
    ⟨[⟨0, 3⟩], [⟨0, 2⟩], [⟨0, 4⟩]⟩,
    ⟨[⟨0, 1⟩], [⟨0, 2⟩], []⟩]
  coefficients := #[1]
  hints := #[⟨.isZero, [.expression [⟨0, 1⟩]], [2]⟩,
    ⟨.isZero, [.expression [⟨0, 2⟩]], [3]⟩]

/-- The chain weighs five terms, a plain wire, and two hints of one input and
one output. -/
theorem weights_conserved_chained : ∃ system : CompiledSystem 17,
    CompiledSystem.compile ⟨750, true⟩ chainedSystem = .ok system ∧
      (∀ hint ∈ chainedSystem.hints, hint.kind.isCustom = false) ∧
      system.schedule.weight = 5 + 20 * 1 + 10 * 4 := by
  have hRun : (CompiledSystem.compile ⟨750,
      true⟩ chainedSystem).toOption.isSome = true := by
    decide +kernel
  obtain ⟨system, hSystem⟩ := isSome_toOption.mp hRun
  have hPlain : ∀ hint ∈ chainedSystem.hints, hint.kind.isCustom = false := by
    decide
  refine ⟨system, hSystem, hPlain, ?_⟩
  rw [(CompiledSystem.weights_conserved hSystem hPlain).1]
  decide

end RankOne
