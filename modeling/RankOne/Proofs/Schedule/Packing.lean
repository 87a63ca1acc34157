import Mathlib.Algebra.GroupWithZero.Nat
import Mathlib.Algebra.Order.BigOperators.Group.List
import Mathlib.Algebra.Order.Group.Nat
import Mathlib.Data.List.Chain
import RankOne.Proofs.Schedule.LongestPath

/-!
# How a level is cut into tasks

Packing goes through the nodes of a level once and closes the task at hand as
soon as there is a reason to. What comes out can be said without the loop: no
task has gone past the bound before its last node, a custom node is alone, and
where two tasks meet there was a reason to close the first. One list of tasks
only is like this, so that nothing more can be said of packing.

The weights are machine words. A task consists of one custom node or of plain
nodes, so that the weight of no task leaves a word when those of the plain nodes
of a level together do not, however heavy the bound makes the custom nodes.

## Main results

* `Task.Packed` — what the tasks of a level are like;
* `Task.pack_eq_iff` — packing gives them, and no other list of tasks is like
  this;
* `Task.packChecked_eq_some` — with every sum checked, packing still gives them;
* `Schedule.tasks_exact` — both, for the levels of a schedule.
-/

namespace RankOne

namespace Task

variable {maxWeight : Nat} {weightOf : Nat → Nat} {custom : Nat → Bool}

/-! ## What tasks are like -/

/-- The weight of some nodes together. -/
def load (weightOf : Nat → Nat) (nodes : List Nat) : Nat :=
  (nodes.map weightOf).sum

theorem load_append (nodes nodes' : List Nat) :
    load weightOf (nodes ++ nodes') =
      load weightOf nodes + load weightOf nodes' := by
  rw [load, List.map_append, List.sum_append, load, load]

private theorem load_singleton (node : Nat) :
    load weightOf [node] = weightOf node := by simp [load]

private theorem any_singleton (node : Nat) :
    [node].any custom = custom node := by simp

variable (maxWeight weightOf custom)

/-- What one task is like. -/
structure WellCut (task : Task) : Prop where
  nodes_ne_nil : task.nodes ≠ []
  weight_eq : task.weight = load weightOf task.nodes
  bounded : load weightOf task.nodes.dropLast ≤ maxWeight
  alone : ∀ node ∈ task.nodes, custom node = true → task.nodes = [node]

/-- The reasons to close a task in front of the next one: it exceeds the bound,
it is custom, or the next node is. -/
def ClosedBefore (task next : Task) : Prop :=
  maxWeight < task.weight ∨ (∃ node ∈ task.nodes, custom node = true) ∨
    ∃ node ∈ next.nodes.head?, custom node = true

/-- What the tasks of a level are like. -/
structure Packed (nodes : List Nat) (tasks : List Task) : Prop where
  wellCut : ∀ task ∈ tasks, WellCut maxWeight weightOf custom task
  nodes_eq : tasks.flatMap Task.nodes = nodes
  closed : tasks.IsChain (ClosedBefore maxWeight custom)

variable {maxWeight weightOf custom}

namespace WellCut

/-- A task exceeds the bound by its last node at most. -/
private theorem weight_le {task : Task}
    (h : WellCut maxWeight weightOf custom task) {before : List Nat}
    {last : Nat} (hNodes : task.nodes = before ++ [last]) :
    task.weight ≤ maxWeight + weightOf last := by
  have hBounded := h.bounded
  rw [hNodes, List.dropLast_concat] at hBounded
  rw [h.weight_eq, hNodes, load_append, load_singleton]
  omega

private theorem single (node : Nat) :
    WellCut maxWeight weightOf custom ⟨[node], weightOf node⟩ where
  nodes_ne_nil := List.cons_ne_nil node []
  weight_eq := (load_singleton node).symm
  bounded := Nat.zero_le maxWeight
  alone other hOther _ := by rw [List.mem_singleton.mp hOther]

/-- A task within the bound can be continued if neither it nor the node is
custom. -/
private theorem push {started : List Nat} {weight node : Nat}
    (h : WellCut maxWeight weightOf custom ⟨started, weight⟩)
    (hWeight : weight ≤ maxWeight) (hStarted : started.any custom = false)
    (hNode : custom node = false) :
    WellCut maxWeight weightOf custom ⟨started ++ [node],
      weight + weightOf node⟩ where
  nodes_ne_nil := by simp
  weight_eq := by
    have hLoad : weight = load weightOf started := h.weight_eq
    rw [load_append, load_singleton, hLoad]
  bounded := by
    have hLoad : weight = load weightOf started := h.weight_eq
    rw [List.dropLast_concat, ← hLoad]
    exact hWeight
  alone other hOther hCustom := by
    rcases List.mem_append.mp hOther with hOld | hNew
    · rw [List.any_eq_false] at hStarted
      exact absurd hCustom (hStarted other hOld)
    · rw [List.mem_singleton.mp hNew, hNode] at hCustom
      cases hCustom

/-- A task that goes on past a border of other tasks leaves no reason for the
border. -/
private theorem not_closedBefore {longer task next : Task} {node : Nat}
    {more : List Nat} (hLonger : WellCut maxWeight weightOf custom longer)
    (hTask : WellCut maxWeight weightOf custom task)
    (hNodes : longer.nodes = task.nodes ++ node :: more)
    (hHead : next.nodes.head? = some node) :
    ¬ ClosedBefore maxWeight custom task next := by
  have hLong : ∀ other, longer.nodes ≠ [other] := by
    intro other hOther
    have hPositive := List.length_pos_of_ne_nil hTask.nodes_ne_nil
    have hLength := congrArg List.length (hNodes.symm.trans hOther)
    rw [List.length_append, List.length_cons, List.length_singleton] at hLength
    omega
  rintro (hHeavy | ⟨other, hOther, hCustom⟩ | ⟨other, hOther, hCustom⟩)
  · have hBounded := hLonger.bounded
    rw [hNodes, List.dropLast_append_of_ne_nil (List.cons_ne_nil node more),
      load_append, ← hTask.weight_eq] at hBounded
    omega
  · exact hLong other
      (hLonger.alone other (hNodes ▸ List.mem_append_left _ hOther) hCustom)
  · rw [hHead, Option.mem_some_iff] at hOther
    subst hOther
    exact hLong node (hLonger.alone node (by simp [hNodes]) hCustom)

end WellCut

namespace Packed

private theorem nil : Packed maxWeight weightOf custom [] [] where
  wellCut := by simp
  nodes_eq := rfl
  closed := List.IsChain.nil

private theorem single {task : Task}
    (h : WellCut maxWeight weightOf custom task) :
    Packed maxWeight weightOf custom task.nodes [task] where
  wellCut := by simpa using h
  nodes_eq := by simp
  closed := List.IsChain.singleton task

/-- A task that there was a reason to close can be put in front. -/
private theorem cons {task next : Task} {nodes : List Nat} {later : List Task}
    (hTask : WellCut maxWeight weightOf custom task)
    (hClosed : ClosedBefore maxWeight custom task next)
    (h : Packed maxWeight weightOf custom nodes (next :: later)) :
    Packed maxWeight weightOf custom
      (task.nodes ++ nodes) (task :: next :: later) where
  wellCut := List.forall_mem_cons.mpr ⟨hTask, h.wellCut⟩
  nodes_eq := by rw [List.flatMap_cons, h.nodes_eq]
  closed := List.isChain_cons_cons.mpr ⟨hClosed, h.closed⟩

private theorem tail {task : Task} {nodes : List Nat} {later : List Task}
    (h : Packed maxWeight weightOf custom nodes (task :: later)) :
    Packed maxWeight weightOf custom (later.flatMap Task.nodes) later where
  wellCut := (List.forall_mem_cons.mp h.wellCut).2
  nodes_eq := rfl
  closed := h.closed.tail

private theorem eq_nil {tasks : List Task}
    (h : Packed maxWeight weightOf custom [] tasks) :
    tasks = [] := by
  cases tasks with
  | nil => rfl
  | cons task later =>
      have hNodes :=
        List.append_eq_nil_iff.mp (List.flatMap_cons.symm.trans h.nodes_eq)
      exact absurd hNodes.1 (h.wellCut task List.mem_cons_self).nodes_ne_nil

/-- The first task is as long as every other task that begins with the same
nodes may be. -/
private theorem eq_nil_of_longer {task longer : Task}
    {nodes extra rest : List Nat} {later : List Task}
    (h : Packed maxWeight weightOf custom nodes (task :: later))
    (hLonger : WellCut maxWeight weightOf custom longer)
    (hNodes : longer.nodes = task.nodes ++ extra)
    (hRest : later.flatMap Task.nodes = extra ++ rest) : extra = [] := by
  cases extra with
  | nil => rfl
  | cons node more =>
      cases later with
      | nil => cases hRest
      | cons next others =>
          have hNext := h.wellCut next (by simp)
          have hHead : next.nodes.head? = some node := by
            obtain ⟨first, following, hFirst⟩ :=
              List.exists_cons_of_ne_nil hNext.nodes_ne_nil
            rw [List.flatMap_cons, hFirst] at hRest
            injection hRest with hSame
            rw [hFirst, hSame, List.head?_cons]
          exact absurd (List.isChain_cons_cons.mp h.closed).1
            (hLonger.not_closedBefore
              (h.wellCut task List.mem_cons_self) hNodes hHead)

/-- The nodes determine their tasks: the first tasks of two lists are equally
long. -/
private theorem unique {nodes : List Nat} {tasks tasks' : List Task}
    (h : Packed maxWeight weightOf custom nodes tasks)
    (h' : Packed maxWeight weightOf custom nodes tasks') : tasks = tasks' := by
  induction tasks generalizing nodes tasks' with
  | nil =>
      have hNodes : [] = nodes := h.nodes_eq
      subst hNodes
      exact h'.eq_nil.symm
  | cons task later ih =>
      cases tasks' with
      | nil =>
          have hNodes : [] = nodes := h'.nodes_eq
          subst hNodes
          exact h.eq_nil
      | cons task' later' =>
          have hTask := h.wellCut task List.mem_cons_self
          have hTask' := h'.wellCut task' List.mem_cons_self
          have hNodes : task.nodes ++ later.flatMap Task.nodes =
              task'.nodes ++ later'.flatMap Task.nodes := by
            rw [← List.flatMap_cons, ← List.flatMap_cons, h.nodes_eq,
              h'.nodes_eq]
          have hSame : task.nodes = task'.nodes := by
            rcases List.append_eq_append_iff.mp hNodes with
              ⟨extra, hLonger, hRest⟩ | ⟨extra, hLonger, hRest⟩
            · have hNone := h.eq_nil_of_longer hTask' hLonger hRest
              rw [hLonger, hNone, List.append_nil]
            · have hNone := h'.eq_nil_of_longer hTask hLonger hRest
              rw [hLonger, hNone, List.append_nil]
          have hFirst : task = task' := by
            cases task with
            | mk nodes weight =>
                cases task' with
                | mk nodes' weight' =>
                    obtain rfl : nodes = nodes' := hSame
                    obtain rfl : weight = weight' :=
                      hTask.weight_eq.trans hTask'.weight_eq.symm
                    rfl
          rw [hSame] at hNodes
          have hLater := ih h.tail ((List.append_cancel_left hNodes) ▸ h'.tail)
          rw [hFirst, hLater]

end Packed

/-! ## Packing -/

/-- When there is a reason to, the task at hand is closed and the node starts
another one. -/
private theorem packAfter_close {weight node : Nat} {lastCustom : Bool}
    {rest : List Nat}
    (h : (maxWeight < weight || lastCustom || custom node) = true) :
    packAfter maxWeight weightOf custom weight lastCustom (node :: rest) =
      (⟨[], weight⟩,
        (packAfter maxWeight weightOf custom (weightOf node)
          (custom node) rest).1.cons node ::
          (packAfter maxWeight weightOf custom (weightOf node)
            (custom node) rest).2) := by
  rw [packAfter]
  exact if_pos h

/-- Otherwise the node joins it. -/
private theorem packAfter_join {weight node : Nat} {lastCustom : Bool}
    {rest : List Nat}
    (h : (maxWeight < weight || lastCustom || custom node) = false) :
    packAfter maxWeight weightOf custom weight lastCustom (node :: rest) =
      ((packAfter maxWeight weightOf custom
        (weight + weightOf node) (custom node) rest).1.cons node,
        (packAfter maxWeight weightOf custom
          (weight + weightOf node) (custom node) rest).2) := by
  rw [packAfter]
  exact if_neg (Bool.not_eq_true _ ▸ h)

/-- Puts nodes in front; the weight is that of the finished task already. -/
def resume (started : List Nat) (task : Task) : Task :=
  { task with nodes := started ++ task.nodes }

/-- A task that has been started is finished, and the rest of the nodes are
packed, as they should be. The induction is on the rest; a node joins the task
or starts another one. -/
private theorem packed_packAfter {started : List Nat} {weight : Nat}
    {lastCustom : Bool}
    (h : WellCut maxWeight weightOf custom ⟨started, weight⟩)
    (hLast : started.any custom = lastCustom) (rest : List Nat) :
    Packed maxWeight weightOf custom (started ++ rest)
      (resume started
        (packAfter maxWeight weightOf custom weight lastCustom rest).1 ::
        (packAfter maxWeight weightOf custom weight lastCustom rest).2) := by
  induction rest generalizing started weight lastCustom with
  | nil =>
      rw [List.append_nil]
      show Packed maxWeight weightOf custom started [⟨started ++ [], weight⟩]
      rw [List.append_nil]
      exact Packed.single h
  | cons node rest ih =>
      cases hClose : (maxWeight < weight || lastCustom || custom node) with
      | true =>
          rw [packAfter_close hClose]
          have hNext := ih (WellCut.single node) (any_singleton node)
          have hReason :
              ClosedBefore maxWeight custom ⟨started, weight⟩ (resume [node]
                (packAfter maxWeight weightOf custom (weightOf node)
                  (custom node) rest).1) := by
            simp only [Bool.or_eq_true, decide_eq_true_eq, ← hLast,
              List.any_eq_true] at hClose
            rcases hClose with (hHeavy | hStarted) | hNode
            · exact Or.inl hHeavy
            · exact Or.inr (Or.inl hStarted)
            · exact Or.inr (Or.inr ⟨node, rfl, hNode⟩)
          show Packed maxWeight weightOf custom _ (⟨started ++ [], weight⟩ :: _)
          rw [List.append_nil]
          exact hNext.cons h hReason
      | false =>
          rw [packAfter_join hClose]
          simp only [Bool.or_eq_false_iff, decide_eq_false_iff_not] at hClose
          obtain ⟨⟨hWeight, hStarted⟩, hNode⟩ := hClose
          have hPushed :=
            h.push (Nat.not_lt.mp hWeight) (hLast.trans hStarted) hNode
          have hOpen : (started ++ [node]).any custom = custom node := by
            simp [hLast, hStarted]
          have hRest := ih hPushed hOpen
          unfold resume at hRest ⊢
          rw [List.append_assoc, List.append_assoc] at hRest
          exact hRest

theorem packed_pack (nodes : List Nat) :
    Packed maxWeight weightOf custom nodes
      (pack maxWeight weightOf custom nodes) := by
  cases nodes with
  | nil => exact Packed.nil
  | cons node rest =>
      exact packed_packAfter (WellCut.single node) (any_singleton node) rest

/-- Packing gives tasks that are as they should be, and these are the only
ones. -/
theorem pack_eq_iff {nodes : List Nat} {tasks : List Task} :
    pack maxWeight weightOf custom nodes = tasks ↔
      Packed maxWeight weightOf custom nodes tasks := by
  constructor
  · rintro rfl
    exact packed_pack nodes
  · exact (packed_pack nodes).unique

/-! ## Machine words -/

/-- The sum of two weights, if it is a machine word. -/
def addWeight? (weight weight' : Nat) : Option Nat :=
  if weight + weight' < 2 ^ 64 then some (weight + weight') else none

private theorem addWeight?_eq_some {weight weight' : Nat}
    (h : weight + weight' < 2 ^ 64) :
    addWeight? weight weight' = some (weight + weight') := if_pos h

section Checked

variable (maxWeight weightOf custom)

/-- Packing that has been started, with every sum checked. -/
def packCheckedAfter : Nat → Bool → List Nat → Option (Task × List Task)
  | weight, _, [] => some (⟨[], weight⟩, [])
  | weight, lastCustom, node :: rest =>
      if maxWeight < weight || lastCustom || custom node then do
        let started ← addWeight? 0 (weightOf node)
        let following ← packCheckedAfter started (custom node) rest
        return (⟨[], weight⟩, following.1.cons node :: following.2)
      else do
        let joined ← addWeight? weight (weightOf node)
        let following ← packCheckedAfter joined (custom node) rest
        return (following.1.cons node, following.2)

/-- Packing with every sum checked. A task starts with no weight. -/
def packChecked : List Nat → Option (List Task)
  | [] => some []
  | node :: rest => do
      let started ← addWeight? 0 (weightOf node)
      let following ← packCheckedAfter maxWeight weightOf custom started
        (custom node) rest
      return following.1.cons node :: following.2

end Checked

/-- A task only gets heavier. -/
private theorem weight_le_packAfter (weight : Nat) (lastCustom : Bool)
    (rest : List Nat) :
    weight ≤ (packAfter maxWeight weightOf custom weight lastCustom
      rest).1.weight := by
  induction rest generalizing weight lastCustom with
  | nil => exact Nat.le_refl weight
  | cons node rest ih =>
      cases hClose : (maxWeight < weight || lastCustom || custom node) with
      | true =>
          rw [packAfter_close hClose]
      | false =>
          rw [packAfter_join hClose]
          exact Nat.le_trans (Nat.le_add_right weight (weightOf node)) (ih _ _)

/-- As a task only gets heavier, no sum leaves a word if the weights of the
finished tasks do not. -/
private theorem packCheckedAfter_eq_some {weight : Nat} {lastCustom : Bool}
    {rest : List Nat}
    (hFirst : (packAfter maxWeight weightOf custom weight lastCustom
      rest).1.weight < 2 ^ 64)
    (hLater :
      ∀ task ∈ (packAfter maxWeight weightOf custom weight lastCustom rest).2,
      task.weight < 2 ^ 64) :
    packCheckedAfter maxWeight weightOf custom weight lastCustom rest =
      some (packAfter maxWeight weightOf custom weight lastCustom rest) := by
  induction rest generalizing weight lastCustom with
  | nil => rfl
  | cons node rest ih =>
      cases hClose : (maxWeight < weight || lastCustom || custom node) with
      | true =>
          rw [packAfter_close hClose] at hLater ⊢
          obtain ⟨hNext, hOthers⟩ := List.forall_mem_cons.mp hLater
          have hStarted : 0 + weightOf node < 2 ^ 64 := by
            rw [Nat.zero_add]
            exact Nat.lt_of_le_of_lt
              (weight_le_packAfter _ (custom node) rest) hNext
          rw [packCheckedAfter, if_pos hClose, addWeight?_eq_some hStarted,
            Nat.zero_add]
          simp only [Option.bind_eq_bind, Option.bind_some, ih hNext hOthers]
          rfl
      | false =>
          rw [packAfter_join hClose] at hFirst hLater ⊢
          have hJoined : weight + weightOf node < 2 ^ 64 :=
            Nat.lt_of_le_of_lt (weight_le_packAfter _ (custom node) rest) hFirst
          rw [packCheckedAfter, if_neg (by simp [hClose]),
            addWeight?_eq_some hJoined]
          simp only [Option.bind_eq_bind, Option.bind_some, ih hFirst hLater]
          rfl

theorem packChecked_eq_some {nodes : List Nat}
    (h : ∀ task ∈ pack maxWeight weightOf custom nodes, task.weight < 2 ^ 64) :
    packChecked maxWeight weightOf custom nodes =
      some (pack maxWeight weightOf custom nodes) := by
  cases nodes with
  | nil => rfl
  | cons node rest =>
      obtain ⟨hFirst, hLater⟩ := List.forall_mem_cons.mp h
      have hStarted : 0 + weightOf node < 2 ^ 64 := by
        rw [Nat.zero_add]
        exact Nat.lt_of_le_of_lt
          (weight_le_packAfter _ (custom node) rest) hFirst
      rw [packChecked, addWeight?_eq_some hStarted, Nat.zero_add]
      simp only [Option.bind_eq_bind, Option.bind_some,
        packCheckedAfter_eq_some hFirst hLater]
      rfl

/-- A task is one custom node or it consists of plain nodes of the level, so
that its weight is a word if the weight of every custom node is one, and that of
all plain nodes together. -/
private theorem Packed.weight_lt {nodes : List Nat} {tasks : List Task}
    (h : Packed maxWeight weightOf custom nodes tasks)
    (hPlain : load weightOf (nodes.filter fun node => !custom node) < 2 ^ 64)
    (hCustom : ∀ node ∈ nodes, custom node = true → weightOf node < 2 ^ 64) :
    ∀ task ∈ tasks, task.weight < 2 ^ 64 := by
  intro task hTask
  have hCut := h.wellCut task hTask
  have hSublist : task.nodes.Sublist nodes := by
    rw [← h.nodes_eq, List.flatMap_def]
    exact List.sublist_flatten_of_mem (List.mem_map_of_mem hTask)
  rw [hCut.weight_eq]
  by_cases hAny : ∃ node ∈ task.nodes, custom node = true
  · obtain ⟨node, hNode, hIs⟩ := hAny
    rw [hCut.alone node hNode hIs, load_singleton]
    exact hCustom node (hSublist.subset hNode) hIs
  · have hAll : task.nodes.filter (fun node => !custom node) = task.nodes := by
      rw [List.filter_eq_self]
      intro node hNode
      rw [Bool.not_eq_true', ← Bool.not_eq_true]
      exact fun hIs => hAny ⟨node, hNode, hIs⟩
    have hLess : load weightOf task.nodes ≤
        load weightOf (nodes.filter fun node => !custom node) := by
      rw [← hAll]
      exact ((hSublist.filter _).map weightOf).sum_le_sum fun _ _ =>
        Nat.zero_le _
    exact Nat.lt_of_le_of_lt hLess hPlain

end Task

/-! ## Schedules -/

namespace Schedule

/-- The cost of a constraint. -/
def costOf (costs : List NodeCost) (node : Nat) : NodeCost :=
  costs.toArray.getD node {}

/-- The weight with which a constraint is packed. -/
def packingWeightOf (settings : SchedulerSettings) (costs : List NodeCost)
    (node : Nat) : Nat :=
  (costOf costs node).packingWeight settings.maxTaskWeight

/-- Whether a constraint is custom. -/
def isCustom (costs : List NodeCost) (node : Nat) : Bool :=
  (costOf costs node).custom

variable {settings : SchedulerSettings} {costs : List NodeCost}
  {schedule : Schedule}

/-- The tasks of a level are its nodes, packed. -/
theorem tasks_of_mem_levels (h : ofCosts settings costs = .ok schedule)
    {level : Level} (hLevel : level ∈ schedule.levels) :
    Task.pack settings.maxTaskWeight (packingWeightOf settings costs)
      (isCustom costs) level.nodes = level.tasks := by
  unfold ofCosts at h
  dsimp only at h
  split at h
  · cases h
  injection h with h
  subst h
  obtain ⟨nodes, -, rfl⟩ := List.mem_map.mp hLevel
  unfold Level.nodes
  rw [Task.nodes_pack]
  rfl

/-- The weights of the nodes of a level are words: those of the plain nodes
together, and that of each custom node. -/
structure WeightsFit (costs : List NodeCost) (nodes : List Nat) : Prop where
  plain : Task.load (fun node => (costOf costs node).weight)
    (nodes.filter fun node => !isCustom costs node) < 2 ^ 64
  custom : ∀ node ∈ nodes, isCustom costs node = true →
    (costOf costs node).weight < 2 ^ 64

/-- Raising the weights of custom nodes to a bound that is a word leaves them
words. -/
private theorem WeightsFit.raised {nodes : List Nat}
    (h : WeightsFit costs nodes) (hBound : settings.maxTaskWeight < 2 ^ 64) :
    Task.load (packingWeightOf settings costs)
        (nodes.filter fun node => !isCustom costs node) < 2 ^ 64 ∧
      ∀ node ∈ nodes, isCustom costs node = true →
        packingWeightOf settings costs node < 2 ^ 64 := by
  constructor
  · have hSame : Task.load (packingWeightOf settings costs)
        (nodes.filter fun node => !isCustom costs node) =
          Task.load (fun node => (costOf costs node).weight)
            (nodes.filter fun node => !isCustom costs node) := by
      unfold Task.load
      congr 1
      apply List.map_congr_left
      intro node hNode
      have hPlain := List.of_mem_filter hNode
      rw [Bool.not_eq_true'] at hPlain
      unfold packingWeightOf NodeCost.packingWeight
      exact if_neg (Bool.not_eq_true _ ▸ hPlain)
    rw [hSame]
    exact h.plain
  · intro node hNode hIs
    have hRaised : packingWeightOf settings costs node =
        max (costOf costs node).weight settings.maxTaskWeight := if_pos hIs
    rw [hRaised]
    exact Nat.max_lt.mpr ⟨h.custom node hNode hIs, hBound⟩

/-- Packing is exact: it gives the tasks that are as they should be, none of
which exceeds the bound by more than its last node, and there are no other such
tasks. In a schedule no sum of weights leaves a machine word, whatever word the
bound is, as long as the weights of the plain nodes of a level together are a
word, and that of each custom node is. -/
theorem tasks_exact :
    (∀ (maxWeight : Nat) (weightOf : Nat → Nat) (custom : Nat → Bool)
      (nodes : List Nat) (tasks : List Task),
      Task.pack maxWeight weightOf custom nodes = tasks ↔
        Task.Packed maxWeight weightOf custom nodes tasks) ∧
    (∀ (maxWeight : Nat) (weightOf : Nat → Nat) (custom : Nat → Bool)
      (nodes : List Nat),
      ∀ task ∈ Task.pack maxWeight weightOf custom nodes, ∀ before last,
      task.nodes = before ++ [last] → task.weight ≤ maxWeight + weightOf last) ∧
    ∀ (settings : SchedulerSettings) (costs : List NodeCost)
      (schedule : Schedule),
      settings.maxTaskWeight < 2 ^ 64 → ofCosts settings costs = .ok schedule →
        ∀ level ∈ schedule.levels, WeightsFit costs level.nodes →
          Task.packChecked settings.maxTaskWeight
            (packingWeightOf settings costs)
            (isCustom costs) level.nodes = some level.tasks := by
  refine ⟨fun _ _ _ _ _ => Task.pack_eq_iff, ?_, ?_⟩
  · intro maxWeight weightOf custom nodes task hTask before last hNodes
    exact ((Task.packed_pack nodes).wellCut task hTask).weight_le hNodes
  · intro settings costs schedule hBound hSchedule level hLevel hFit
    have hTasks := tasks_of_mem_levels hSchedule hLevel
    obtain ⟨hPlain, hCustom⟩ := hFit.raised hBound
    rw [Task.packChecked_eq_some
      ((Task.packed_pack level.nodes).weight_lt hPlain hCustom), hTasks]

/-- Two custom constraints between two plain ones that together weigh as much as
a word can say. -/
def heavyCosts : List NodeCost :=
  [⟨[], 2 ^ 63, false⟩, ⟨[], 7, true⟩, ⟨[], 2 ^ 64 - 1, true⟩,
  ⟨[], 2 ^ 63 - 1, false⟩]

/-- The level in which they stand alone. -/
def heavyLevel : Level :=
  ⟨[⟨[0], 2 ^ 63⟩, ⟨[1], 2 ^ 64 - 1⟩, ⟨[2], 2 ^ 64 - 1⟩, ⟨[3], 2 ^ 63 - 1⟩]⟩

/-- With the largest bound there is, the two custom constraints together weigh
more than a word can say, but no sum does. -/
theorem tasks_exact_heavy : ∃ schedule : Schedule,
    ofCosts ⟨2 ^ 64 - 1, false⟩ heavyCosts = .ok schedule ∧
      heavyLevel ∈ schedule.levels ∧
      (2 ^ 64 - 1 < 2 ^ 64 ∧ WeightsFit heavyCosts heavyLevel.nodes) ∧
      Task.packChecked
        (2 ^ 64 - 1) (packingWeightOf ⟨2 ^ 64 - 1, false⟩ heavyCosts)
        (isCustom heavyCosts) heavyLevel.nodes = some heavyLevel.tasks := by
  have hRun :
      ((ofCosts ⟨2 ^ 64 - 1, false⟩ heavyCosts).toOption.any fun schedule =>
        decide (schedule.levels = [heavyLevel])) = true := by
    decide +kernel
  simp only [Option.any_eq_true, toOption_eq_some, decide_eq_true_eq] at hRun
  obtain ⟨schedule, hSchedule, hLevels⟩ := hRun
  have hLevel : heavyLevel ∈ schedule.levels :=
    hLevels ▸ List.mem_singleton_self heavyLevel
  have hFit : WeightsFit heavyCosts heavyLevel.nodes :=
    ⟨by decide +kernel, by decide +kernel⟩
  exact ⟨schedule, hSchedule, hLevel, ⟨by decide, hFit⟩,
    tasks_exact.2.2 ⟨2 ^ 64 - 1,
      false⟩ heavyCosts schedule (by decide) hSchedule heavyLevel hLevel hFit⟩

end Schedule

end RankOne
