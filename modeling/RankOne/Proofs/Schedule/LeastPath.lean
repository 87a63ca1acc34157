import Mathlib.Data.List.GetD
import RankOne.Proofs.Schedule.Reduction

/-!
# Least paths

Every path from a node without parents down to a given node is a list of nodes,
and the paths to one node are ordered by the first place where they differ. The
least of them is what orders the nodes of a level.

It only uses edges that a reduction keeps. If an edge leads from an ancestor of
another parent, the path through the other parent comes first: where the edge
goes straight to the node, it goes to an older one.
-/

namespace RankOne

/-! ## The order of paths -/

/-- At the first place where two lists differ the node of the first one is
smaller. No list comes before another one that it begins. -/
inductive Precedes : List Nat → List Nat → Prop
  | head {x y : Nat} {xs ys : List Nat} : x < y → Precedes (x :: xs) (y :: ys)
  | tail {x : Nat} {xs ys : List Nat} : Precedes xs ys →
    Precedes (x :: xs) (x :: ys)

/-- The lists are the same, or the first comes before the second. -/
def NotAfter (xs ys : List Nat) : Prop := xs = ys ∨ Precedes xs ys

namespace Precedes

variable {xs ys zs : List Nat}

/-- What follows the first difference does not matter. -/
theorem append (h : Precedes xs ys) (xs' ys' : List Nat) :
    Precedes (xs ++ xs') (ys ++ ys') := by
  induction h with
  | head hLess => exact head hLess
  | tail _ ih => exact tail ih

theorem prepend (h : Precedes xs ys) (start : List Nat) :
    Precedes (start ++ xs) (start ++ ys) := by
  induction start with
  | nil => exact h
  | cons first rest ih => exact tail ih

private theorem trans (h : Precedes xs ys) (h' : Precedes ys zs) :
    Precedes xs zs := by
  induction h generalizing zs with
  | head hLess =>
      cases h' with
      | head hLess' => exact head (Nat.lt_trans hLess hLess')
      | tail _ => exact head hLess
  | tail _ ih =>
      cases h' with
      | head hLess' => exact head hLess'
      | tail h' => exact tail (ih h')

theorem irrefl (xs : List Nat) : ¬ Precedes xs xs := by
  induction xs with
  | nil =>
      intro h
      cases h
  | cons first rest ih =>
      intro h
      cases h with
      | head hLess => exact Nat.lt_irrefl _ hLess
      | tail h => exact ih h

theorem asymm (h : Precedes xs ys) : ¬ Precedes ys xs :=
  fun h' => irrefl xs (h.trans h')

/-- Different lists of nodes below `node` can be compared once `node` is put
behind them. -/
private theorem trichotomy {node : Nat} (hxs : ∀ x ∈ xs, x < node)
    (hys : ∀ y ∈ ys, y < node) :
    Precedes (xs ++ [node]) (ys ++ [node]) ∨ xs = ys ∨
      Precedes (ys ++ [node]) (xs ++ [node]) := by
  induction xs generalizing ys with
  | nil =>
      cases ys with
      | nil => exact Or.inr (Or.inl rfl)
      | cons y ys => exact Or.inr (Or.inr (head (hys y List.mem_cons_self)))
  | cons x xs ih =>
      cases ys with
      | nil => exact Or.inl (head (hxs x List.mem_cons_self))
      | cons y ys =>
          rcases Nat.lt_trichotomy x y with hLess | rfl | hGreater
          · exact Or.inl (head hLess)
          · rcases ih (fun z hz => hxs z (List.mem_cons_of_mem _ hz))
                (fun z hz => hys z (List.mem_cons_of_mem _ hz))
                  with hBefore | rfl | hAfter
            · exact Or.inl (tail hBefore)
            · exact Or.inr (Or.inl rfl)
            · exact Or.inr (Or.inr (tail hAfter))
          · exact Or.inr (Or.inr (head hGreater))

end Precedes

namespace NotAfter

variable {xs ys zs : List Nat}

theorem trans (h : NotAfter xs ys) (h' : NotAfter ys zs) : NotAfter xs zs := by
  rcases h with rfl | h
  · exact h'
  · rcases h' with rfl | h'
    · exact Or.inr h
    · exact Or.inr (h.trans h')

theorem antisymm (h : NotAfter xs ys) (h' : NotAfter ys xs) : xs = ys := by
  rcases h with rfl | h
  · rfl
  · rcases h' with rfl | h'
    · rfl
    · exact absurd h' h.asymm

private theorem not_precedes (h : NotAfter xs ys) : ¬ Precedes ys xs := by
  rcases h with rfl | h
  · exact Precedes.irrefl xs
  · exact h.asymm

end NotAfter

namespace DependencyGraph

/-! ## Least paths -/

/-- A node without parents has the path that is the node alone; the path of
another node is the least of the paths of its parents continued by the node. -/
structure LeastPath (parents : List Nat) (path : Nat → List Nat) (node : Nat) :
    Prop where
  entry : parents = [] → path node = [node]
  attained : parents ≠ [] →
    ∃ parent ∈ parents, path node = path parent ++ [node]
  least : ∀ parent ∈ parents, NotAfter (path node) (path parent ++ [node])

/-- Only the paths of the node and its parents matter. -/
private theorem LeastPath.congr {parents : List Nat}
    {path path' : Nat → List Nat} {node : Nat} (h : LeastPath parents path node)
    (hNode : path' node = path node)
    (hParents : ∀ parent ∈ parents, path' parent = path parent) :
    LeastPath parents path' node where
  entry := by
    intro hNone
    rw [hNode, h.entry hNone]
  attained := by
    intro hSome
    obtain ⟨parent, hParent, hPath⟩ := h.attained hSome
    exact ⟨parent, hParent, by rw [hNode, hParents parent hParent, hPath]⟩
  least := by
    intro parent hParent
    rw [hNode, hParents parent hParent]
    exact h.least parent hParent

/-- Of finitely many paths that are continued by a newer node one is the
least. -/
private theorem exists_least {path : Nat → List Nat} {node : Nat}
    {parents : List Nat} (hSome : parents ≠ [])
    (hOlder : ∀ parent ∈ parents, ∀ x ∈ path parent, x < node) :
    ∃ best ∈ parents, ∀ parent ∈ parents,
      NotAfter (path best ++ [node]) (path parent ++ [node]) := by
  induction parents with
  | nil => exact absurd rfl hSome
  | cons first rest ih =>
      cases rest with
      | nil =>
          refine ⟨first, List.mem_cons_self, ?_⟩
          intro parent hParent
          rw [List.mem_singleton.mp hParent]
          exact Or.inl rfl
      | cons second rest =>
          obtain ⟨best, hBest, hLeast⟩ := ih (List.cons_ne_nil _ _)
            (fun parent hParent =>
              hOlder parent (List.mem_cons_of_mem _ hParent))
          have hBestMem : best ∈ first :: second :: rest :=
            List.mem_cons_of_mem _ hBest
          -- The new candidate comes before the best of the others, or it does
          -- not.
          rcases Precedes.trichotomy (hOlder first List.mem_cons_self)
              (hOlder best hBestMem) with hBefore | hSame | hAfter
          · refine ⟨first, List.mem_cons_self, ?_⟩
            intro parent hParent
            rcases List.mem_cons.mp hParent with rfl | hParent
            · exact Or.inl rfl
            · exact NotAfter.trans (Or.inr hBefore) (hLeast parent hParent)
          · refine ⟨best, hBestMem, ?_⟩
            intro parent hParent
            rcases List.mem_cons.mp hParent with rfl | hParent
            · exact Or.inl (by rw [hSame])
            · exact hLeast parent hParent
          · refine ⟨best, hBestMem, ?_⟩
            intro parent hParent
            rcases List.mem_cons.mp hParent with rfl | hParent
            · exact Or.inr hAfter
            · exact hLeast parent hParent

section Parents

variable {parents : List (List Nat)} (hParents : OlderParents parents)

private theorem mem_getD_iff {node parent : Nat} :
    parent ∈ parents.getD node [] ↔ ∃ given, parents[node]? = some given ∧
      parent ∈ given := by
  rw [List.getD_eq_getElem?_getD]
  cases parents[node]? with
  | none => simp
  | some given => simp

include hParents

private theorem OlderParents.getD_lt {node parent : Nat}
    (h : parent ∈ parents.getD node []) :
    parent < node := by
  obtain ⟨given, hGet, hMem⟩ := mem_getD_iff.mp h
  exact (hParents node given hGet).2 parent hMem

section Below

variable {bound : Nat} {path : Nat → List Nat}
  (hPath : ∀ node < bound, LeastPath (parents.getD node []) path node)
include hPath

/-- The path of a node consists of nodes up to it. -/
private theorem le_of_mem_path : ∀ node < bound, ∀ x ∈ path node, x ≤ node := by
  intro node
  induction node using Nat.strongRecOn with
  | ind node ih =>
      intro hNode x hx
      by_cases hNone : parents.getD node [] = []
      · rw [(hPath node hNode).entry hNone, List.mem_singleton] at hx
        exact Nat.le_of_eq hx
      · obtain ⟨parent, hParent, hSplit⟩ := (hPath node hNode).attained hNone
        have hOlder := hParents.getD_lt hParent
        rw [hSplit, List.mem_append, List.mem_singleton] at hx
        rcases hx with hx | rfl
        · have hBound := ih parent hOlder (Nat.lt_trans hOlder hNode) x hx
          omega
        · exact Nat.le_refl _

/-- When the nodes below have least paths, the next one has. -/
private theorem exists_leastPath_next : ∃ new : List Nat,
    LeastPath (parents.getD bound [])
      (Function.update path bound new) bound := by
  have hOther : ∀ new : List Nat, ∀ parent ∈ parents.getD bound [],
      Function.update path bound new parent = path parent := by
    intro new parent hParent
    exact Function.update_of_ne (Nat.ne_of_lt (hParents.getD_lt hParent)) _ _
  by_cases hNone : parents.getD bound [] = []
  · refine ⟨[bound], fun _ => Function.update_self _ _ _,
      fun hSome => absurd hNone hSome, ?_⟩
    intro parent hParent
    rw [hNone] at hParent
    cases hParent
  · obtain ⟨best, hBest, hLeast⟩ : ∃ best ∈ parents.getD bound [],
        ∀ parent ∈ parents.getD bound [],
          NotAfter (path best ++ [bound]) (path parent ++ [bound]) := by
      apply exists_least hNone
      intro parent hParent x hx
      have hOlder := hParents.getD_lt hParent
      exact Nat.lt_of_le_of_lt
        (le_of_mem_path hParents hPath parent hOlder x hx) hOlder
    refine ⟨path best ++ [bound], fun h => absurd h hNone,
      fun _ => ⟨best, hBest, ?_⟩, ?_⟩
    · rw [Function.update_self, hOther _ best hBest]
    · intro parent hParent
      rw [Function.update_self, hOther _ parent hParent]
      exact hLeast parent hParent

end Below

/-- There are least paths. -/
theorem exists_leastPaths :
    ∃ path : Nat → List Nat, ∀ node,
      LeastPath (parents.getD node []) path node := by
  have hBelow : ∀ bound, ∃ path : Nat → List Nat,
      (∀ node, bound ≤ node → path node = [node]) ∧
      ∀ node < bound, LeastPath (parents.getD node []) path node := by
    intro bound
    induction bound with
    | zero => exact ⟨fun node => [node], fun _ _ => rfl,
      fun _ h => absurd h (Nat.not_lt_zero _)⟩
    | succ bound ih =>
        obtain ⟨path, hRest, hPath⟩ := ih
        obtain ⟨new, hNew⟩ := exists_leastPath_next hParents hPath
        refine ⟨Function.update path bound new, ?_, ?_⟩
        · intro node hNode
          rw [Function.update_of_ne (by omega)]
          exact hRest node (by omega)
        · intro node hNode
          rcases Nat.lt_succ_iff_lt_or_eq.mp hNode with hOld | rfl
          · refine (hPath node hOld).congr
              (Function.update_of_ne (by omega) _ _) ?_
            intro parent hParent
            have hOlder := hParents.getD_lt hParent
            exact Function.update_of_ne (by omega) _ _
          · exact hNew
  obtain ⟨path, hRest, hPath⟩ := hBelow parents.length
  refine ⟨path, fun node => ?_⟩
  by_cases hNode : node < parents.length
  · exact hPath node hNode
  · have hNode : parents.length ≤ node := Nat.le_of_not_lt hNode
    rw [List.getD_eq_default _ _ hNode]
    exact ⟨fun _ => hRest node hNode, fun hSome => absurd rfl hSome,
      fun parent hParent => absurd hParent List.not_mem_nil⟩

/-! ## Reduction -/

variable {reduce : Bool} {path : Nat → List Nat}
  (hPath : ∀ node, LeastPath (parents.getD node []) path node)
include hPath

/-- A detour comes before the direct way: the path through a node comes before
the path that leaves out what lies between the node and an ancestor. -/
private theorem precedes_of_ancestor {ancestor node last : Nat}
    (h : (ofParents reduce parents).IsAncestor ancestor node)
    (hLast : node < last) :
    Precedes (path node ++ [last]) (path ancestor ++ [last]) := by
  have hStep : ∀ {parent node : Nat},
      (ofParents reduce parents).IsParent parent node →
      node < last → Precedes (path node ++ [last]) (path parent ++ [last]) := by
    intro parent node hParent hLast
    have hMem := mem_getD_iff.mpr (mem_given_of_mem_parentsOf hParent)
    have hDetour :
        Precedes (path parent ++ [node] ++ [last]) (path parent ++ [last]) := by
      rw [List.append_assoc]
      exact (Precedes.head hLast).prepend _
    rcases (hPath node).least parent hMem with hSame | hBefore
    · rwa [hSame]
    · exact (hBefore.append [last] [last]).trans hDetour
  induction h with
  | single hParent => exact hStep hParent hLast
  | tail _ hParent ih =>
      have hOlder := (ofParents_wellFormed hParents).parent_lt _ _ hParent
      exact (hStep hParent hLast).trans (ih (Nat.lt_trans hOlder hLast))

variable (reduce) in
/-- The least paths are the same with and without reduction. -/
theorem leastPath_parentsOf (node : Nat) :
    LeastPath ((ofParents reduce parents).parentsOf node) path node := by
  have hGiven : ∀ parent ∈ (ofParents reduce parents).parentsOf node,
      parent ∈ parents.getD node [] :=
    fun parent hParent => mem_getD_iff.mpr (mem_given_of_mem_parentsOf hParent)
  have hAncestor : ∀ parent ∈ parents.getD node [],
      (ofParents reduce parents).IsAncestor parent node := by
    intro parent hParent
    obtain ⟨given, hGet, hMem⟩ := mem_getD_iff.mp hParent
    exact ancestor_of_given hParents hGet hMem
  refine ⟨?_, ?_,
    fun parent hParent => (hPath node).least parent (hGiven parent hParent)⟩
  · intro hNone
    apply (hPath node).entry
    rw [List.eq_nil_iff_forall_not_mem]
    intro parent hParent
    obtain ⟨other, -, hOther⟩ :=
      Relation.TransGen.tail'_iff.mp (hAncestor parent hParent)
    have hOther : other ∈ (ofParents reduce parents).parentsOf node := hOther
    rw [hNone] at hOther
    cases hOther
  · intro hSome
    obtain ⟨other, hOther⟩ := List.exists_mem_of_ne_nil _ hSome
    obtain ⟨best, hBest, hSplit⟩ :=
      (hPath node).attained (List.ne_nil_of_mem (hGiven other hOther))
    cases hAncestor best hBest with
    | single hParent => exact ⟨best, hParent, hSplit⟩
    | tail hAbove hParent =>
        -- The edge was left out: the path through the other parent would be
        -- less.
        have hOlder := (ofParents_wellFormed hParents).parent_lt _ _ hParent
        have hBefore := precedes_of_ancestor hParents hPath hAbove hOlder
        rw [← hSplit] at hBefore
        exact absurd hBefore
          ((hPath node).least _ (hGiven _ hParent)).not_precedes

end Parents

end DependencyGraph

end RankOne
