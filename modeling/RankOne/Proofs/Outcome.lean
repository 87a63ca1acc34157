import RankOne.Failure

/-!
# How outcomes end

Loops and sequences of operations that may fail. Seen from a good ending, every
part has ended well, and what the parts establish holds at the end. Seen from a
bad ending, some part has failed, after parts that ended well.

## Main results

* `bind_eq_ok` — a sequence that ends well has parts that end well;
* `foldlM_ok_collect` — the invariant of a loop, with what each of its steps
  leaves behind;
* `foldlM_total` — a loop ends well when its steps do where the invariant holds;
* `bind_eq_error` — a sequence that fails has a part that fails;
* `foldlM_eq_error` — a loop fails in the first step that does;
* `foldlM_error_step` — a loop that fails has a step that fails where the
  invariant holds.
-/

namespace RankOne

theorem ok_bind {ε α β : Type} (a : α) (f : α → Except ε β) :
    Except.ok a >>= f = f a := rfl

theorem bind_eq_ok {ε α β : Type} {x : Except ε α} {f : α → Except ε β}
    {b : β} :
    x >>= f = .ok b ↔ ∃ a, x = .ok a ∧ f a = .ok b := by
  cases x with
  | error e =>
      constructor
      · intro h
        cases h
      · rintro ⟨a, h, _⟩
        cases h
  | ok a =>
      constructor
      · intro h
        exact ⟨a, rfl, h⟩
      · rintro ⟨a', h, hf⟩
        cases h
        exact hf

theorem bind_eq_error {ε α β : Type} {x : Except ε α} {f : α → Except ε β}
    {e : ε} :
    x >>= f = .error e ↔ x = .error e ∨ ∃ a, x = .ok a ∧ f a = .error e := by
  cases x with
  | error e' =>
      constructor
      · intro h
        injection h with h
        exact Or.inl (h ▸ rfl)
      · rintro (h | ⟨a, h, _⟩)
        · injection h with h
          exact h ▸ rfl
        · cases h
  | ok a =>
      constructor
      · intro h
        exact Or.inr ⟨a, rfl, h⟩
      · rintro (h | ⟨a', h, hf⟩)
        · cases h
        · injection h with h
          exact h ▸ hf

theorem pure_ne_error {ε α : Type} {a : α} {e : ε} :
    (pure a : Except ε α) ≠ .error e := by
  intro h
  cases h

theorem pure_eq_ok {ε α : Type} {a b : α} :
    (pure a : Except ε α) = .ok b ↔ a = b := by
  constructor
  · intro h
    injection h
  · rintro rfl
    rfl

theorem toOption_eq_some {ε α : Type} {x : Except ε α} {a : α} :
    x.toOption = some a ↔ x = .ok a := by
  cases x with
  | error e =>
      constructor
      · intro h
        cases h
      · intro h
        cases h
  | ok a' =>
      constructor
      · intro h
        injection h with h
        rw [h]
      · intro h
        injection h with h
        rw [h]
        rfl

theorem isSome_toOption {ε α : Type} {x : Except ε α} :
    x.toOption.isSome = true ↔ ∃ a, x = .ok a := by
  simp only [Option.isSome_iff_exists, toOption_eq_some]

namespace Outcome

variable {ε α : Type}

theorem ofExcept_eq_ok {x : Except ε α} {a : α} :
    ofExcept x = .ok a ↔ x = .ok a := by
  cases x with
  | error e => constructor <;> intro h <;> cases h
  | ok a' => constructor <;> intro h <;> cases h <;> rfl

theorem ofFaulty_eq_ok {x : Except Fault α} {a : α} :
    (ofFaulty x : Outcome ε α) = .ok a ↔ x = .ok a := by
  cases x with
  | error e => constructor <;> intro h <;> cases h
  | ok a' => constructor <;> intro h <;> cases h <;> rfl

theorem ofExcept_eq_error {x : Except ε α} {failure : Failure ε} :
    ofExcept x = .error failure ↔ ∃ e, failure = .reported e ∧
      x = .error e := by
  cases x with
  | error e =>
      constructor
      · intro h
        injection h with h
        exact ⟨e, h.symm, rfl⟩
      · rintro ⟨e', rfl, h⟩
        injection h with h
        exact h ▸ rfl
  | ok a =>
      constructor
      · intro h
        cases h
      · rintro ⟨e, _, h⟩
        cases h

theorem ofFaulty_eq_error {x : Except Fault α} {failure : Failure ε} :
    (ofFaulty x : Outcome ε α) = .error failure ↔
      ∃ cause, failure = .fault cause ∧ x = .error cause := by
  cases x with
  | error cause =>
      constructor
      · intro h
        injection h with h
        exact ⟨cause, h.symm, rfl⟩
      · rintro ⟨cause', rfl, h⟩
        injection h with h
        exact h ▸ rfl
  | ok a =>
      constructor
      · intro h
        cases h
      · rintro ⟨cause, _, h⟩
        cases h

theorem report_ne_ok {e : ε} {a : α} : (report e : Outcome ε α) ≠ .ok a := by
  intro h
  cases h

theorem abandon_ne_ok {cause : Fault} {a : α} :
    (abandon cause : Outcome ε α) ≠ .ok a := by
  intro h
  cases h

end Outcome

/-- Sequences with the same first part have the same outcome if they go on in
the same way. -/
theorem bind_congr_ok {ε α β : Type} {x : Except ε α} {f g : α → Except ε β}
    (h : ∀ a, x = .ok a → f a = g a) : x >>= f = x >>= g := by
  cases x with
  | error e => rfl
  | ok a => exact h a rfl

/-- Loops with the same steps have the same outcome. -/
theorem foldlM_congr {ε σ α : Type} {f g : σ → α → Except ε σ} {xs : List α}
    (h : ∀ x ∈ xs, ∀ s, f s x = g s x) (s : σ) :
    xs.foldlM f s = xs.foldlM g s := by
  induction xs generalizing s with
  | nil => rfl
  | cons x xs ih =>
      rw [List.foldlM_cons, List.foldlM_cons, h x List.mem_cons_self s]
      exact bind_congr fun next =>
        ih (fun y hy => h y (List.mem_cons_of_mem _ hy)) next

/-- Sequences of the same operations have the same outcome. -/
theorem mapM_congr {ε α β : Type} {f g : α → Except ε β} {xs : List α}
    (h : ∀ x ∈ xs, f x = g x) :
    xs.mapM f = xs.mapM g := by
  induction xs with
  | nil => rfl
  | cons x xs ih =>
      rw [List.mapM_cons, List.mapM_cons, h x List.mem_cons_self,
        ih fun y hy => h y (List.mem_cons_of_mem _ hy)]

/-- A loop that ends well keeps its invariant, and what a step leaves behind for
its element is there at the end when no later step undoes it. -/
theorem foldlM_ok_collect {ε σ α : Type} {f : σ → α → Except ε σ}
    (Inv : σ → Prop) (Done : α → σ → Prop) {xs : List α} {s s' : σ}
    (h : xs.foldlM f s = .ok s') (hInv : Inv s)
    (hStep : ∀ x ∈ xs, ∀ s s', Inv s → f s x = .ok s' → Inv s' ∧ Done x s' ∧
      ∀ y, Done y s → Done y s') :
    Inv s' ∧ (∀ x ∈ xs, Done x s') ∧ ∀ y, Done y s → Done y s' := by
  induction xs generalizing s with
  | nil =>
      rw [List.foldlM_nil, pure_eq_ok] at h
      subst h
      exact ⟨hInv, by simp, fun _ hy => hy⟩
  | cons x xs ih =>
      rw [List.foldlM_cons, bind_eq_ok] at h
      obtain ⟨next, hFirst, hRest⟩ := h
      obtain ⟨hNext, hDone, hKeep⟩ :=
        hStep x List.mem_cons_self s next hInv hFirst
      obtain ⟨hEnd, hAll, hKeepAll⟩ := ih hRest hNext
        (fun y hy => hStep y (List.mem_cons_of_mem _ hy))
      refine ⟨hEnd, ?_, fun y hy => hKeepAll y (hKeep y hy)⟩
      intro y hy
      rcases List.mem_cons.mp hy with rfl | hy
      · exact hKeepAll _ hDone
      · exact hAll y hy

/-- The invariant of a loop. -/
theorem foldlM_ok_invariant {ε σ α : Type} {f : σ → α → Except ε σ}
    (Inv : σ → Prop) {xs : List α} {s s' : σ} (h : xs.foldlM f s = .ok s')
    (hInv : Inv s) (hStep : ∀ x ∈ xs, ∀ s s', Inv s → f s x = .ok s' → Inv s') :
    Inv s' :=
  (foldlM_ok_collect Inv (fun _ _ => True) h hInv
    fun x hx s s' hs hf =>
      ⟨hStep x hx s s' hs hf, trivial, fun _ _ => trivial⟩).1

/-- A loop whose steps end well and keep the invariant ends well. -/
theorem foldlM_total {ε σ α : Type} {f : σ → α → Except ε σ} (Inv : σ → Prop)
    {xs : List α} {s : σ} (hInv : Inv s)
    (hStep : ∀ x ∈ xs, ∀ s, Inv s → ∃ s', f s x = .ok s' ∧ Inv s') :
    ∃ s', xs.foldlM f s = .ok s' ∧ Inv s' := by
  induction xs generalizing s with
  | nil => exact ⟨s, rfl, hInv⟩
  | cons x xs ih =>
      obtain ⟨next, hFirst, hNext⟩ := hStep x List.mem_cons_self s hInv
      obtain ⟨last, hRest, hLast⟩ :=
        ih hNext (fun y hy => hStep y (List.mem_cons_of_mem _ hy))
      exact ⟨last, by
        rw [List.foldlM_cons, bind_eq_ok]; exact ⟨next, hFirst, hRest⟩, hLast⟩

/-- Two loops over the same elements that both end well stay related when their
steps do. -/
theorem foldlM_ok_related {ε ε' σ τ α : Type} {f : σ → α → Except ε σ}
    {g : τ → α → Except ε' τ} (Rel : σ → τ → Prop) {xs : List α} {s s' : σ}
    {t t' : τ} (h : xs.foldlM f s = .ok s') (h' : xs.foldlM g t = .ok t')
    (hStart : Rel s t)
    (hStep : ∀ x ∈ xs, ∀ s s' t t', Rel s t → f s x = .ok s' →
      g t x = .ok t' → Rel s' t') :
    Rel s' t' := by
  induction xs generalizing s t with
  | nil =>
      rw [List.foldlM_nil, pure_eq_ok] at h h'
      rw [← h, ← h']
      exact hStart
  | cons x xs ih =>
      rw [List.foldlM_cons, bind_eq_ok] at h h'
      obtain ⟨next, hFirst, hRest⟩ := h
      obtain ⟨next', hFirst', hRest'⟩ := h'
      have hNext :=
        hStep x List.mem_cons_self s next t next' hStart hFirst hFirst'
      exact ih hRest hRest' hNext fun y hy =>
        hStep y (List.mem_cons_of_mem _ hy)

/-- A loop fails in the first step that does, after steps that end well. -/
theorem foldlM_eq_error {ε σ α : Type} {f : σ → α → Except ε σ} {xs : List α}
    {s : σ} {e : ε} :
    xs.foldlM f s = .error e ↔ ∃ before x after s', xs = before ++ x :: after ∧
      before.foldlM f s = .ok s' ∧ f s' x = .error e := by
  constructor
  · intro h
    induction xs generalizing s with
    | nil => exact absurd h pure_ne_error
    | cons x xs ih =>
        rw [List.foldlM_cons, bind_eq_error] at h
        rcases h with hFirst | ⟨next, hFirst, hRest⟩
        · exact ⟨[], x, xs, s, rfl, rfl, hFirst⟩
        · obtain ⟨before, y, after, s', rfl, hBefore, hFails⟩ := ih hRest
          refine ⟨x :: before, y, after, s', rfl, ?_, hFails⟩
          rw [List.foldlM_cons, hFirst]
          exact hBefore
  · rintro ⟨before, x, after, s', rfl, hBefore, hFails⟩
    rw [List.foldlM_append, hBefore, bind_eq_error]
    refine Or.inr ⟨s', rfl, ?_⟩
    rw [List.foldlM_cons, bind_eq_error]
    exact Or.inl hFails

/-- A loop that fails does so in a step for one of its elements, and the
invariant holds there. -/
theorem foldlM_error_step {ε σ α : Type} {f : σ → α → Except ε σ}
    (Inv : σ → Prop) {xs : List α} {s : σ} {e : ε}
    (h : xs.foldlM f s = .error e) (hInv : Inv s)
    (hStep : ∀ x ∈ xs, ∀ s s', Inv s → f s x = .ok s' → Inv s') :
    ∃ x ∈ xs, ∃ s', Inv s' ∧ f s' x = .error e := by
  obtain ⟨before, x, after, s', rfl, hBefore, hFails⟩ := foldlM_eq_error.mp h
  refine ⟨x, by simp, s', foldlM_ok_invariant Inv hBefore hInv ?_, hFails⟩
  exact fun y hy => hStep y (List.mem_append_left _ hy)

/-- A sequence of operations on the elements of a list fails at one of them. -/
theorem mapM_error_step {ε α β : Type} {f : α → Except ε β} {xs : List α}
    {e : ε} (h : xs.mapM f = .error e) : ∃ x ∈ xs, f x = .error e := by
  induction xs with
  | nil => exact absurd h pure_ne_error
  | cons x xs ih =>
      rw [List.mapM_cons] at h
      simp only [bind_eq_error, pure_ne_error, and_false, exists_false,
        or_false] at h
      rcases h with hFirst | ⟨-, -, hRest⟩
      · exact ⟨x, List.mem_cons_self, hFirst⟩
      · obtain ⟨y, hy, hFails⟩ := ih hRest
        exact ⟨y, List.mem_cons_of_mem _ hy, hFails⟩

end RankOne
