import RankOne.Proofs.Outcome
import RankOne.Proofs.Schedule.Reduction

/-!
# The search for ancestors

Which of the parents given for a node are ancestors of others can be found out
in place, without a work list of pairs. Searches start from the parents one
after the other and go back along the edges with a stack. A parent that is met
behind the start is struck out at once, so that no later search starts from it.

Three things keep the searches short, and none of them may lose an ancestor:

* a node that is met is stamped, and all searches for the same new node share
  their stamp, so that they follow no node twice;
* a node older than the last parent that may still be struck out is stamped, but
  not followed;
* when no such parent is left the search ends in the middle of its work.

The last parent that is left is a bound that grows while parents are struck out,
and the edges that are followed are those of a graph that was reduced in the
same way before. What a search leaves behind is therefore said relative to the
parents that are left: a stamped node has every parent stamped that is not older
than all of these (`AncestorSearch.Thorough`).
-/

namespace RankOne

/-- The last node of a decreasing list is the oldest. -/
theorem le_of_getLast?_eq_some {xs : List Nat} {oldest x : Nat}
    (h : xs.Pairwise (· > ·)) (hLast : xs.getLast? = some oldest)
    (hx : x ∈ xs) : oldest ≤ x := by
  obtain ⟨before, hSplit⟩ := List.getLast?_eq_some_iff.mp hLast
  rw [hSplit] at h hx
  rcases List.mem_append.mp hx with hBefore | hOldest
  · have hLess := (List.pairwise_append.mp h).2.2 x hBefore oldest (by simp)
    omega
  · rw [List.mem_singleton.mp hOldest]

/-- A search for ancestors while it runs: for every node the stamp of the last
search that met it, the nodes that are still to be followed, and the parents
that may still be struck out. -/
structure AncestorSearch where
  stamps : Array Nat
  stack : List Nat
  candidates : List Nat
deriving DecidableEq, Repr

namespace AncestorSearch

/-- Meets a parent of the node that is being followed. Without candidates the
search is over, which is an early end (`Except.error`) and not the end of a turn
(`Except.ok`). -/
def meet (stamp : Nat) (search : AncestorSearch) (parent : Nat) :
    Except AncestorSearch AncestorSearch :=
  match search.candidates.getLast? with
  | none => .error search
  | some oldest =>
      if search.stamps.getD parent 0 = stamp then .ok search
      else
        let stamps := search.stamps.setIfInBounds parent stamp
        if parent < oldest then .ok { search with stamps }
        else .ok ⟨stamps, parent :: search.stack,
          search.candidates.erase parent⟩

end AncestorSearch

namespace DependencyGraph

/-- Follows the nodes on the stack until none is left or the search is over, and
gives up after `steps` nodes. -/
def strikeAncestors (graph : DependencyGraph) (stamp : Nat) :
    Nat → AncestorSearch → Option AncestorSearch
  | 0, _ => none
  | steps + 1, search =>
      match search.stack with
      | [] => some search
      | node :: rest =>
          match (graph.parentsOf node).foldlM (AncestorSearch.meet stamp)
              { search with stack := rest } with
          | .error ended => some ended
          | .ok next => graph.strikeAncestors stamp steps next

/-- Takes the parents in turn. The search from each strikes its ancestors out of
those behind it. Gives up after `turns` parents. -/
def strikeParents (graph : DependencyGraph) (stamp : Nat) :
    Nat → Array Nat → List Nat → Option (List Nat × Array Nat)
  | _, stamps, [] => some ([], stamps)
  | 0, _, _ :: _ => none
  | turns + 1, stamps, start :: rest =>
      match graph.strikeAncestors stamp (graph.size + 2) ⟨stamps,
        [start], rest⟩ with
      | none => none
      | some search =>
          match graph.strikeParents stamp turns search.stamps
            search.candidates with
          | none => none
          | some (kept, stamps) => some (start :: kept, stamps)

end DependencyGraph

/-- A graph with the stamps of its nodes. -/
structure StampedGraph extends DependencyGraph where
  stamps : Array Nat := #[]
deriving DecidableEq, Repr

namespace StampedGraph

/-- The parents that are entered for a node, and the stamps afterwards. One
parent alone needs no search. -/
def parentsToEnter (reduce : Bool) (graph : StampedGraph) (given : List Nat) :
    Option (List Nat × Array Nat) :=
  if reduce ∧ 1 < given.length then
    graph.strikeParents (graph.size + 1) given.length graph.stamps given
  else some (given, graph.stamps)

/-- Adds a node with the given parents. -/
def addNode (reduce : Bool) (graph : StampedGraph) (given : List Nat) :
    Option StampedGraph :=
  (graph.parentsToEnter reduce given).map fun (kept, stamps) =>
    { graph.toDependencyGraph.addNode false kept with stamps := stamps.push 0 }

/-- The graph whose nodes have the given parents, in order. -/
def ofParents (reduce : Bool) (parents : List (List Nat)) :
    Option StampedGraph :=
  parents.foldlM (addNode reduce) {}

end StampedGraph

/-! ## One meeting -/

namespace AncestorSearch

variable {graph : DependencyGraph} {stamp : Nat}
  {search next ended : AncestorSearch} {parent : Nat}

/-- The search with this stamp has met a node. -/
def Stamped (stamp : Nat) (search : AncestorSearch) (node : Nat) : Prop :=
  search.stamps.getD node 0 = stamp

/-- A node is not older than all candidates. -/
def Relevant (search : AncestorSearch) (node : Nat) : Prop :=
  ∃ candidate ∈ search.candidates, candidate ≤ node

private theorem meet_eq_error (h : search.meet stamp parent = .error ended) :
    ended = search ∧ search.candidates = [] := by
  unfold meet at h
  split at h
  · next hLast =>
      injection h with h
      exact ⟨h.symm, List.getLast?_eq_none_iff.mp hLast⟩
  · split at h
    · cases h
    · dsimp only at h
      split at h <;> cases h

/-- A meeting has no effect on a node with the stamp, stamps an older node, or
stamps and stacks the node and strikes it out. -/
private theorem meet_eq_ok (h : search.meet stamp parent = .ok next) :
    (search.Stamped stamp parent ∧ next = search) ∨
      ¬ search.Stamped stamp parent ∧
        ∃ oldest, search.candidates.getLast? = some oldest ∧
          (parent < oldest ∧
              next = { search with
                stamps := search.stamps.setIfInBounds parent stamp } ∨
            oldest ≤ parent ∧
              next = ⟨search.stamps.setIfInBounds parent stamp,
                parent :: search.stack, search.candidates.erase parent⟩) := by
  unfold meet at h
  split at h
  · cases h
  next oldest hLast =>
  by_cases hStamped : search.stamps.getD parent 0 = stamp
  · rw [if_pos hStamped] at h
    injection h with h
    exact Or.inl ⟨hStamped, h.symm⟩
  · rw [if_neg hStamped] at h
    dsimp only at h
    refine Or.inr ⟨hStamped, oldest, hLast, ?_⟩
    by_cases hOlder : parent < oldest
    · rw [if_pos hOlder] at h
      injection h with h
      exact Or.inl ⟨hOlder, h.symm⟩
    · rw [if_neg hOlder] at h
      injection h with h
      exact Or.inr ⟨Nat.le_of_not_lt hOlder, h.symm⟩

private theorem size_meet (h : search.meet stamp parent = .ok next) :
    next.stamps.size = search.stamps.size := by
  obtain ⟨-, rfl⟩ | ⟨-, oldest, -, ⟨-, rfl⟩ | ⟨-, rfl⟩⟩ := meet_eq_ok h
  · rfl
  · exact Array.size_setIfInBounds
  · exact Array.size_setIfInBounds

private theorem getD_setIfInBounds {stamps : Array Nat} {node : Nat}
    (hParent : parent < stamps.size) :
    (stamps.setIfInBounds parent stamp).getD node 0 =
      if node = parent then stamp else stamps.getD node 0 := by
  rw [Array.getD_eq_getD_getElem?, Array.getElem?_setIfInBounds,
    Array.getD_eq_getD_getElem?]
  by_cases hSame : parent = node
  · subst hSame
    simp [hParent]
  · simp [hSame, Ne.symm hSame]

/-! ## What is struck out -/

/-- How many nodes a search can still follow. -/
def work (stamp : Nat) (search : AncestorSearch) : Nat :=
  search.stamps.toList.countP (· != stamp) + search.stack.length

/-- A search strikes out ancestors of its start only, in whatever order the
candidates are. -/
structure Sound (graph : DependencyGraph) (stamp start : Nat) (given : List Nat)
    (search : AncestorSearch) : Prop where
  size : search.stamps.size = graph.size
  bounded : ∀ node, search.stamps.getD node 0 ≤ stamp
  kept : search.candidates.Sublist given
  struck : ∀ node ∈ given, node ∈ search.candidates ∨
    graph.IsAncestor node start
  behind : ∀ node ∈ search.stack, node = start ∨ graph.IsAncestor node start

private theorem countP_setIfInBounds {stamps : Array Nat}
    (hParent : parent < stamps.size) (hFresh : stamps.getD parent 0 ≠ stamp) :
    (stamps.setIfInBounds parent stamp).toList.countP (· != stamp) + 1 =
      stamps.toList.countP (· != stamp) := by
  have hBound : parent < stamps.toList.length := by simpa using hParent
  have hOther : stamps.toList[parent] ≠ stamp := by
    simpa [Array.getD_eq_getD_getElem?, hParent] using hFresh
  have hSome : 0 < stamps.toList.countP (· != stamp) :=
    List.countP_pos_iff.mpr ⟨stamps.toList[parent],
      List.getElem_mem hBound, by simpa using hOther⟩
  rw [Array.toList_setIfInBounds, List.countP_set hBound]
  simp only [bne_self_eq_false, bne_iff_ne, ne_eq, hOther, not_false_eq_true,
    if_true, Bool.false_eq_true, if_false]
  omega

/-- The nodes and the start bound the work of a search that begins. -/
private theorem work_begin_lt (stamp : Nat) {stamps : Array Nat} (start : Nat)
    (rest : List Nat) (hSize : stamps.size = graph.size) :
    work stamp ⟨stamps, [start], rest⟩ < graph.size + 2 := by
  have hCount := List.countP_le_length (p := (· != stamp)) (l := stamps.toList)
  rw [Array.length_toList, hSize] at hCount
  simp only [work, List.length_singleton]
  omega

namespace Sound

theorem begin {stamps : Array Nat} (start : Nat) (rest : List Nat)
    (hSize : stamps.size = graph.size)
    (hBounded : ∀ node, stamps.getD node 0 ≤ stamp) :
    Sound graph stamp start rest ⟨stamps, [start], rest⟩ where
  size := hSize
  bounded := hBounded
  kept := List.Sublist.refl _
  struck := fun _ hNode => Or.inl hNode
  behind := fun _ hNode => Or.inl (List.mem_singleton.mp hNode)

variable {start : Nat} {given : List Nat}

theorem meet (h : search.Sound graph stamp start given)
    (hBound : parent < graph.size) (hParent : graph.IsAncestor parent start)
    (hMeet : search.meet stamp parent = .ok next) :
    next.Sound graph stamp start given ∧
      next.work stamp ≤ search.work stamp := by
  have hStamps : parent < search.stamps.size := h.size ▸ hBound
  have hBounded : ∀ node,
      (search.stamps.setIfInBounds parent stamp).getD node 0 ≤ stamp := by
    intro node
    rw [getD_setIfInBounds hStamps]
    split
    · exact Nat.le_refl stamp
    · exact h.bounded node
  obtain ⟨-, rfl⟩ | ⟨hFresh, oldest, -, ⟨-, rfl⟩ | ⟨-, rfl⟩⟩ := meet_eq_ok hMeet
  · exact ⟨h, Nat.le_refl _⟩
  · refine ⟨⟨?_, hBounded, h.kept, h.struck, h.behind⟩, ?_⟩
    · rw [size_meet hMeet, h.size]
    · have hCount := countP_setIfInBounds hStamps hFresh
      simp only [work]
      omega
  · refine ⟨⟨?_, hBounded, ?_, ?_, ?_⟩, ?_⟩
    · rw [size_meet hMeet, h.size]
    · exact List.erase_sublist.trans h.kept
    · intro node hNode
      by_cases hSame : node = parent
      · exact Or.inr (hSame ▸ hParent)
      · exact (h.struck node hNode).imp_left (List.mem_erase_of_ne hSame).mpr
    · intro node hNode
      rcases List.mem_cons.mp hNode with rfl | hNode
      · exact Or.inr hParent
      · exact h.behind node hNode
    · have hCount := countP_setIfInBounds hStamps hFresh
      simp only [work, List.length_cons]
      omega

/-- Meeting the parents of a node one after the other, up to an early end. -/
private theorem meetAll (h : search.Sound graph stamp start given)
    {parents : List Nat} (hBound : ∀ parent ∈ parents, parent < graph.size)
    (hParents : ∀ parent ∈ parents, graph.IsAncestor parent start) :
    (∃ ended, parents.foldlM (AncestorSearch.meet stamp) search = .error ended ∧
      ended.Sound graph stamp start given) ∨
    ∃ next, parents.foldlM (AncestorSearch.meet stamp) search = .ok next ∧
      next.Sound graph stamp start given ∧
        next.work stamp ≤ search.work stamp := by
  induction parents generalizing search with
  | nil => exact Or.inr ⟨search, rfl, h, Nat.le_refl _⟩
  | cons first rest ih =>
      rw [List.foldlM_cons]
      cases hMeet : search.meet stamp first with
      | error ended =>
          obtain ⟨rfl, -⟩ := meet_eq_error hMeet
          exact Or.inl ⟨ended, rfl, h⟩
      | ok next =>
          obtain ⟨hNext, hWork⟩ := h.meet (hBound first List.mem_cons_self)
            (hParents first List.mem_cons_self) hMeet
          rcases ih hNext (fun parent hMem =>
            hBound parent (List.mem_cons_of_mem _ hMem))
            (fun parent hMem =>
              hParents parent (List.mem_cons_of_mem _ hMem)) with
            ⟨ended, hEnded, hSound⟩ | ⟨last, hLast, hSound, hLess⟩
          · exact Or.inl ⟨ended, hEnded, hSound⟩
          · exact Or.inr ⟨last, hLast, hSound, Nat.le_trans hLess hWork⟩

end Sound

/-! ## What is met -/

/-- Of the nodes that were met, and of the starts of all searches with this
stamp, no relevant parent is missed: it has the stamp, or its node is on the
stack, or is `node`, of whose parents those in `todo` are still to be met. -/
structure Thorough (graph : DependencyGraph) (stamp : Nat) (starts : List Nat)
    (node : Nat) (todo : List Nat) (search : AncestorSearch) : Prop where
  decreasing : search.candidates.Pairwise (· > ·)
  unmet : ∀ candidate ∈ search.candidates, ¬ search.Stamped stamp candidate
  followed : ∀ child, child ∈ starts ∨ search.Stamped stamp child →
    ∀ parent ∈ graph.parentsOf child, search.Relevant parent →
      search.Stamped stamp parent ∨ child ∈ search.stack ∨ child = node ∧
        parent ∈ todo

namespace Thorough

variable {starts : List Nat} {node : Nat} {todo : List Nat}

/-- Without candidates there is nothing to miss. -/
theorem of_no_candidates (hNone : search.candidates = []) :
    search.Thorough graph stamp starts node todo where
  decreasing := hNone ▸ List.Pairwise.nil
  unmet := by simp [hNone]
  followed := by simp [Relevant, hNone]

section Meeting

variable (h : search.Thorough graph stamp starts node (parent :: todo))
include h

/-- Nothing happens to a parent that has the stamp. -/
private theorem meet_stamped (hMet : search.Stamped stamp parent) :
    search.Thorough graph stamp starts node todo where
  decreasing := h.decreasing
  unmet := h.unmet
  followed := by
    intro child hChild x hx hRelevant
    rcases h.followed child hChild x hx hRelevant
      with hDone | hStack | ⟨hNode, hTodo⟩
    · exact Or.inl hDone
    · exact Or.inr (Or.inl hStack)
    · rcases List.mem_cons.mp hTodo with rfl | hTodo
      · exact Or.inl hMet
      · exact Or.inr (Or.inr ⟨hNode, hTodo⟩)

variable (hBound : parent < search.stamps.size)
include hBound

/-- A parent that is older than all candidates is stamped, but not followed: its
own parents are older still. -/
private theorem meet_older (hGraph : graph.Mirrored)
    (hBelow : ∀ candidate ∈ search.candidates, parent < candidate) :
    ({ search with stamps := search.stamps.setIfInBounds parent stamp } :
      AncestorSearch).Thorough graph stamp starts node todo where
  decreasing := h.decreasing
  unmet := by
    intro candidate hCandidate hStamped
    have hLess := hBelow candidate hCandidate
    rw [Stamped, getD_setIfInBounds hBound, if_neg (by omega)] at hStamped
    exact h.unmet candidate hCandidate hStamped
  followed := by
    intro child hChild x hx hRelevant
    obtain ⟨candidate, hCandidate, hLe⟩ := hRelevant
    have hLess := hBelow candidate hCandidate
    have hOld : child ∈ starts ∨ search.Stamped stamp child := by
      refine hChild.imp_right fun hStamped => ?_
      have hParent := hGraph.parent_lt child x hx
      rwa [Stamped, getD_setIfInBounds hBound, if_neg (by omega)] at hStamped
    rcases h.followed child hOld x hx ⟨candidate, hCandidate, hLe⟩ with
      hDone | hStack | ⟨hNode, hTodo⟩
    · refine Or.inl ?_
      rwa [Stamped, getD_setIfInBounds hBound, if_neg (by omega)]
    · exact Or.inr (Or.inl hStack)
    · rcases List.mem_cons.mp hTodo with rfl | hTodo
      · omega
      · exact Or.inr (Or.inr ⟨hNode, hTodo⟩)

/-- Any other parent is stamped, is put on the stack, and is no candidate any
more. -/
private theorem meet_followed :
    (⟨search.stamps.setIfInBounds parent stamp, parent :: search.stack,
      search.candidates.erase parent⟩ :
        AncestorSearch).Thorough graph stamp starts node todo where
  decreasing := h.decreasing.sublist List.erase_sublist
  unmet := by
    intro candidate hCandidate hStamped
    have hNodup : search.candidates.Nodup := h.decreasing.imp Nat.ne_of_gt
    obtain ⟨hOther, hMem⟩ := (List.Nodup.mem_erase_iff hNodup).mp hCandidate
    rw [Stamped, getD_setIfInBounds hBound, if_neg hOther] at hStamped
    exact h.unmet candidate hMem hStamped
  followed := by
    intro child hChild x hx hRelevant
    obtain ⟨candidate, hCandidate, hLe⟩ := hRelevant
    by_cases hNew : child = parent
    · exact Or.inr (Or.inl (hNew ▸ List.mem_cons_self))
    have hOld : child ∈ starts ∨ search.Stamped stamp child := by
      refine hChild.imp_right fun hStamped => ?_
      rwa [Stamped, getD_setIfInBounds hBound, if_neg hNew] at hStamped
    rw [Stamped, getD_setIfInBounds hBound]
    by_cases hHere : x = parent
    · exact Or.inl (if_pos hHere)
    rw [if_neg hHere]
    rcases h.followed child hOld x hx ⟨candidate,
      List.mem_of_mem_erase hCandidate, hLe⟩ with
      hDone | hStack | ⟨hNode, hTodo⟩
    · exact Or.inl hDone
    · exact Or.inr (Or.inl (List.mem_cons_of_mem _ hStack))
    · exact Or.inr (Or.inr ⟨hNode, (List.mem_cons.mp hTodo).resolve_left hHere⟩)

theorem meet (hGraph : graph.Mirrored)
    (hMeet : search.meet stamp parent = .ok next) :
    next.Thorough graph stamp starts node todo := by
  obtain ⟨hMet, rfl⟩ | ⟨-, oldest, hLast, ⟨hOlder, rfl⟩ | ⟨-, rfl⟩⟩ :=
    meet_eq_ok hMeet
  · exact h.meet_stamped hMet
  · refine h.meet_older hBound hGraph fun candidate hCandidate => ?_
    exact Nat.lt_of_lt_of_le hOlder
      (le_of_getLast?_eq_some h.decreasing hLast hCandidate)
  · exact h.meet_followed hBound

end Meeting

private theorem meetAll (hGraph : graph.Mirrored)
    (hSize : search.stamps.size = graph.size)
    (h : search.Thorough graph stamp starts node todo)
    (hBound : ∀ parent ∈ todo, parent < graph.size) :
    (∀ ended, todo.foldlM (AncestorSearch.meet stamp) search = .error ended →
      ended.stamps.size = graph.size ∧ ended.candidates = []) ∧
    ∀ next, todo.foldlM (AncestorSearch.meet stamp) search = .ok next →
      next.stamps.size = graph.size ∧
        next.Thorough graph stamp starts node [] := by
  induction todo generalizing search with
  | nil =>
      refine ⟨fun ended hEnded => absurd hEnded pure_ne_error,
        fun next hNext => ?_⟩
      rw [List.foldlM_nil, pure_eq_ok] at hNext
      exact hNext ▸ ⟨hSize, h⟩
  | cons first rest ih =>
      rw [List.foldlM_cons]
      have hFirst := hBound first List.mem_cons_self
      cases hMeet : search.meet stamp first with
      | error ended =>
          obtain ⟨rfl, hNone⟩ := meet_eq_error hMeet
          refine ⟨fun ended' hEnded => ?_, fun next hNext => nomatch hNext⟩
          injection hEnded with hSame
          exact hSame ▸ ⟨hSize, hNone⟩
      | ok next =>
          exact ih ((size_meet hMeet).trans hSize)
            (h.meet (hSize ▸ hFirst) hGraph hMeet)
            (fun parent hMem => hBound parent (List.mem_cons_of_mem _ hMem))

/-- The next node is taken from the stack, and all its parents are to be met. -/
private theorem pop (h : search.Thorough graph stamp starts node [])
    {first : Nat} {rest : List Nat} (hStack : search.stack = first :: rest) :
    ({ search with stack := rest } :
      AncestorSearch).Thorough graph stamp starts first
      (graph.parentsOf first) where
  decreasing := h.decreasing
  unmet := h.unmet
  followed := by
    intro child hChild x hx hRelevant
    rcases h.followed child hChild x hx hRelevant with hDone | hMem | ⟨-, hTodo⟩
    · exact Or.inl hDone
    · rw [hStack] at hMem
      rcases List.mem_cons.mp hMem with rfl | hMem
      · exact Or.inr (Or.inr ⟨rfl, hx⟩)
      · exact Or.inr (Or.inl hMem)
    · cases hTodo

/-- The next search starts from the newest candidate. -/
theorem begin {stamps : Array Nat} {start : Nat} {rest : List Nat}
    (h : Thorough graph stamp starts node [] ⟨stamps, [], start :: rest⟩) :
    Thorough graph stamp (start :: starts) node [] ⟨stamps, [start], rest⟩ where
  decreasing := (List.pairwise_cons.mp h.decreasing).2
  unmet candidate hCandidate :=
    h.unmet candidate (List.mem_cons_of_mem _ hCandidate)
  followed := by
    rintro child hChild x hx ⟨candidate, hCandidate, hLe⟩
    by_cases hStart : child = start
    · exact Or.inr (Or.inl (hStart ▸ List.mem_cons_self))
    · have hOld :=
        hChild.imp_left fun hMem => (List.mem_cons.mp hMem).resolve_left hStart
      rcases h.followed child hOld x hx ⟨candidate,
        List.mem_cons_of_mem _ hCandidate, hLe⟩ with
        hDone | hStack | hTodo
      · exact Or.inl hDone
      · cases hStack
      · exact Or.inr (Or.inr hTodo)

/-- When the stack is empty no candidate is an ancestor of a start. -/
private theorem not_isAncestor (hGraph : graph.Mirrored)
    (h : search.Thorough graph stamp starts node [])
    (hStack : search.stack = []) {candidate start : Nat}
    (hCandidate : candidate ∈ search.candidates) (hStart : start ∈ starts) :
    ¬ graph.IsAncestor candidate start := by
  -- Every node on a path from the candidate is at least as new, so that the
  -- stamps go back on it.
  have hBack : ∀ newer, graph.IsAncestor candidate newer →
      newer ∈ starts ∨ search.Stamped stamp newer →
        search.Stamped stamp candidate := by
    intro newer hPath
    induction hPath with
    | single hParent =>
        intro hNewer
        simpa [hStack] using
          h.followed _ hNewer candidate hParent ⟨candidate, hCandidate,
            Nat.le_refl _⟩
    | tail hPath hParent ih =>
        intro hNewer
        have hLess := hGraph.lt_of_isAncestor hPath
        refine ih (Or.inr ?_)
        simpa [hStack] using
          h.followed _ hNewer _ hParent ⟨candidate, hCandidate,
            Nat.le_of_lt hLess⟩
  exact fun hPath =>
    h.unmet candidate hCandidate (hBack start hPath (Or.inl hStart))

end Thorough

end AncestorSearch

/-! ## Whole searches -/

namespace DependencyGraph

open AncestorSearch (Sound Thorough work work_begin_lt)

variable {graph : DependencyGraph} (hGraph : graph.Mirrored) {stamp : Nat}
include hGraph

/-- A search ends, after it has followed every node once at most, and strikes
out ancestors only. -/
theorem exists_strikeAncestors {start steps : Nat} {given : List Nat}
    {search : AncestorSearch} (h : search.Sound graph stamp start given)
    (hSteps : search.work stamp < steps) :
    ∃ ended, graph.strikeAncestors stamp steps search = some ended ∧
      ended.Sound graph stamp start given := by
  induction steps generalizing search with
  | zero => omega
  | succ steps ih =>
      unfold strikeAncestors
      cases hStack : search.stack with
      | nil => exact ⟨search, rfl, h⟩
      | cons node rest =>
          have hNode : node = start ∨ graph.IsAncestor node start :=
            h.behind node (hStack ▸ List.mem_cons_self)
          have hRest : ({ search with stack := rest } :
              AncestorSearch).Sound graph stamp start given :=
            { h with
              behind :=
                fun x hx => h.behind x (hStack ▸ List.mem_cons_of_mem _ hx) }
          have hBound : ∀ parent ∈ graph.parentsOf node, parent < graph.size :=
            fun _ hParent => hGraph.parent_lt_size hParent
          have hParents : ∀ parent ∈ graph.parentsOf node,
              graph.IsAncestor parent start := by
            intro parent hParent
            rcases hNode with rfl | hPath
            · exact Relation.TransGen.single hParent
            · exact Relation.TransGen.head hParent hPath
          dsimp only
          rcases hRest.meetAll hBound hParents with
            ⟨ended, hEnded, hSound⟩ | ⟨next, hNext, hSound, hLess⟩
          · rw [hEnded]
            exact ⟨ended, rfl, hSound⟩
          · rw [hNext]
            refine ih hSound ?_
            simp only [work, hStack, List.length_cons] at hLess hSteps
            simp only [work]
            omega

/-- A search that has ended has missed nothing. -/
private theorem strikeAncestors_thorough {steps node : Nat} {starts : List Nat}
    {search ended : AncestorSearch} (hSize : search.stamps.size = graph.size)
    (h : search.Thorough graph stamp starts node [])
    (hRun : graph.strikeAncestors stamp steps search = some ended) :
    ended.stamps.size = graph.size ∧
      ∃ last, Thorough graph stamp starts last [] ⟨ended.stamps, [],
        ended.candidates⟩ := by
  induction steps generalizing search node with
  | zero => cases hRun
  | succ steps ih =>
      unfold strikeAncestors at hRun
      split at hRun
      · next hStack =>
          injection hRun with hRun
          subst hRun
          have hSame : ⟨search.stamps, [], search.candidates⟩ = search := by
            rw [← hStack]
          exact ⟨hSize, node, hSame ▸ h⟩
      next first rest hStack =>
      have hBound : ∀ parent ∈ graph.parentsOf first, parent < graph.size :=
        fun _ hParent => hGraph.parent_lt_size hParent
      have hPopped :
          ({ search with stack := rest } : AncestorSearch).stamps.size =
            graph.size :=
        hSize
      obtain ⟨hEnded, hNext⟩ := (h.pop hStack).meetAll hGraph hPopped hBound
      split at hRun
      · next hEnd =>
          injection hRun with hRun
          subst hRun
          obtain ⟨hOverSize, hNone⟩ := hEnded _ hEnd
          exact ⟨hOverSize, first, Thorough.of_no_candidates hNone⟩
      · next hTurn =>
          obtain ⟨hNextSize, hThorough⟩ := hNext _ hTurn
          exact ih hNextSize hThorough hRun

/-- The searches from all parents end. What they leave is in order, and what
they strike out is an ancestor of something they leave. -/
theorem exists_strikeParents {turns : Nat} {stamps : Array Nat}
    {given : List Nat} (hSize : stamps.size = graph.size)
    (hBounded : ∀ node, stamps.getD node 0 ≤ stamp)
    (hTurns : given.length ≤ turns) :
    ∃ kept stamps',
      graph.strikeParents stamp turns stamps given = some (kept, stamps') ∧
      stamps'.size = graph.size ∧ (∀ node, stamps'.getD node 0 ≤ stamp) ∧
      kept.Sublist given ∧
      ∀ parent ∈ given, parent ∈ kept ∨
        ∃ other ∈ kept, graph.IsAncestor parent other := by
  induction turns generalizing stamps given with
  | zero =>
      have hNone : given = [] :=
        List.length_eq_zero_iff.mp (Nat.le_zero.mp hTurns)
      subst hNone
      exact ⟨[], stamps, rfl, hSize, hBounded, List.Sublist.refl _, by simp⟩
  | succ turns ih =>
      cases given with
      | nil => exact ⟨[], stamps, rfl, hSize, hBounded,
        List.Sublist.refl _, by simp⟩
      | cons start rest =>
          obtain ⟨search, hSearch, hSound⟩ := exists_strikeAncestors hGraph
            (Sound.begin start rest hSize hBounded)
              (work_begin_lt stamp start rest hSize)
          have hFewer : search.candidates.length ≤ turns := by
            have hLength := hSound.kept.length_le
            rw [List.length_cons] at hTurns
            omega
          obtain ⟨kept, stamps', hKept, hSize', hBounded', hSublist, hStruck⟩ :=
            ih hSound.size hSound.bounded hFewer
          refine ⟨start :: kept, stamps', ?_, hSize', hBounded',
            (hSublist.trans hSound.kept).cons_cons _, ?_⟩
          · unfold strikeParents
            rw [hSearch]
            dsimp only
            rw [hKept]
          · intro parent hParent
            rcases List.mem_cons.mp hParent with rfl | hParent
            · exact Or.inl List.mem_cons_self
            rcases hSound.struck parent hParent with hLeft | hPath
            · rcases hStruck parent hLeft with hMem | ⟨other, hMem, hPath⟩
              · exact Or.inl (List.mem_cons_of_mem _ hMem)
              · exact Or.inr ⟨other, List.mem_cons_of_mem _ hMem, hPath⟩
            · exact Or.inr ⟨start, List.mem_cons_self, hPath⟩

/-- What the searches leave of a decreasing list is no ancestor of anything they
started from, be it before or among the parents themselves. -/
theorem strikeParents_maximal {turns node : Nat} {stamps stamps' : Array Nat}
    {starts given kept : List Nat} (hSize : stamps.size = graph.size)
    (h : Thorough graph stamp starts node [] ⟨stamps, [], given⟩)
    (hRun : graph.strikeParents stamp turns stamps given =
      some (kept, stamps')) :
    (∀ parent ∈ kept, ∀ start ∈ starts, ¬ graph.IsAncestor parent start) ∧
      kept.Pairwise fun newer older => ¬ graph.IsAncestor older newer := by
  induction turns generalizing node stamps stamps' starts given kept with
  | zero =>
      cases given with
      | nil =>
          injection hRun with hRun
          injection hRun with hRun
          subst hRun
          exact ⟨by simp, List.Pairwise.nil⟩
      | cons start rest => cases hRun
  | succ turns ih =>
      cases given with
      | nil =>
          injection hRun with hRun
          injection hRun with hRun
          subst hRun
          exact ⟨by simp, List.Pairwise.nil⟩
      | cons start rest =>
          unfold strikeParents at hRun
          split at hRun
          · cases hRun
          next search hSearch =>
          split at hRun
          · cases hRun
          next later stamps'' hLater =>
          injection hRun with hRun
          injection hRun with hRun
          subst hRun
          obtain ⟨hNext, last, hThorough⟩ :=
            strikeAncestors_thorough hGraph hSize h.begin hSearch
          obtain ⟨hStarts, hPairwise⟩ := ih hNext hThorough hLater
          refine ⟨?_, List.pairwise_cons.mpr ⟨?_, hPairwise⟩⟩
          · intro parent hParent other hOther
            rcases List.mem_cons.mp hParent with rfl | hParent
            · exact h.not_isAncestor hGraph rfl List.mem_cons_self hOther
            · exact hStarts parent hParent other (List.mem_cons_of_mem _ hOther)
          · intro parent hParent
            exact hStarts parent hParent start List.mem_cons_self

end DependencyGraph

end RankOne
