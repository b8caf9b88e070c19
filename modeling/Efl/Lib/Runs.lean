/-
  Runs of a partial step function.

  A step that faults has no next state.  `Guarded` says that
  every operation of a run is allowed in the state in which
  it is carried out; the induction over runs is done here
  once.

  Main declarations:
    * `Runs.run`
    * `Runs.Guarded`, `Runs.guard`
    * `Runs.run_of_guarded`, `Runs.run_of_guarded_left`
    * `Runs.run_of_guarded_abs`
-/

---
-- Runs
---

namespace Efl.Runs

variable {σ α : Type}

/- Carry out a list of operations, from the left. -/
def run (step : σ → α → Option σ) :
    σ → List α → Option σ
  | s, [] => some s
  | s, a :: as => (step s a).bind fun s' => run step s' as

/-
  Every operation is allowed in the state that the ones
  before it lead to.
-/
def Guarded (step : σ → α → Option σ) (ok : σ → α → Prop) :
    σ → List α → Prop
  | _, [] => True
  | s, a :: as =>
    ok s a ∧ ∀ s', step s a = some s' →
      Guarded step ok s' as

@[simp] theorem run_nil (step : σ → α → Option σ) (s : σ) : run step s [] = some s := rfl

@[simp] theorem run_cons (step : σ → α → Option σ) (s : σ)
    (a : α) (as : List α) : run step s (a :: as) = (step s a).bind fun s' => run step s' as := rfl

theorem run_append (step : σ → α → Option σ) (s : σ) (as bs : List α) :
    run step s (as ++ bs) = (run step s as).bind fun s' => run step s' bs := by
  induction as generalizing s with
  | nil => rfl
  | cons a as ih =>
    cases hStep : step s a with
    | none => simp [hStep]
    | some s' => simp [hStep, ih]

variable {step : σ → α → Option σ} {ok : σ → α → Prop} {s : σ}
  {as : List α}

/-
  An invariant that every allowed operation keeps, without a
  fault, holds after every guarded run.
-/
theorem run_of_guarded (inv : σ → Prop)
    (hStep : ∀ s a, inv s → ok s a → ∃ s', step s a = some s' ∧ inv s')
    (hInit : inv s) (hGuarded : Guarded step ok s as) : ∃ s', run step s as = some s' ∧ inv s' := by
  induction as generalizing s with
  | nil => exact ⟨s, rfl, hInit⟩
  | cons a as ih =>
    rcases hGuarded with ⟨hOk, hRest⟩
    rcases hStep s a hInit hOk with ⟨s', hNext, hInv⟩
    rcases ih hInv (hRest s' hNext) with ⟨s'', hRun, hDone⟩
    refine ⟨s'', ?_, hDone⟩
    rw [run_cons, hNext]
    exact hRun

/-
  An invariant of the steps that do not fault holds after
  every guarded run that does not.
-/
theorem inv_of_run (inv : σ → Prop) {s' : σ}
    (hStep : ∀ s a s', inv s → ok s a → step s a = some s' → inv s')
    (hInit : inv s) (hGuarded : Guarded step ok s as)
    (hRun : run step s as = some s') : inv s' := by
  induction as generalizing s with
  | nil =>
    obtain rfl := Option.some.inj hRun
    exact hInit
  | cons a as ih =>
    rcases hGuarded with ⟨hOk, hRest⟩
    rw [run_cons, Option.bind_eq_some_iff] at hRun
    rcases hRun with ⟨s₁, hNext, hRun⟩
    exact ih (hStep s a s₁ hInit hOk hNext) (hRest s₁ hNext) hRun

/-
  The same, with an invariant that depends on how many
  operations are left.
-/
theorem run_of_guarded_left (inv : Nat → σ → Prop) (hStep : ∀ n s a,
    inv (n + 1) s → ok s a → ∃ s', step s a = some s' ∧ inv n s')
    (hInit : inv as.length s) (hGuarded : Guarded step ok s as) :
    ∃ s', run step s as = some s' ∧ inv 0 s' := by
  induction as generalizing s with
  | nil => exact ⟨s, rfl, hInit⟩
  | cons a as ih =>
    rcases hGuarded with ⟨hOk, hRest⟩
    rcases hStep as.length s a hInit hOk with ⟨s', hNext, hInv⟩
    rcases ih hInv (hRest s' hNext) with ⟨s'', hRun, hDone⟩
    refine ⟨s'', ?_, hDone⟩
    rw [run_cons, hNext]
    exact hRun

/-
  The same, when every operation does to an abstraction of the
  state what it should.
-/
theorem run_of_guarded_abs {β : Type} (inv : σ → Prop) (abs : σ → β)
    (apply : β → α → β) (hStep : ∀ s a, inv s → ok s a → ∃ s',
    step s a = some s' ∧ inv s' ∧ abs s' = apply (abs s) a)
    (hInit : inv s) (hGuarded : Guarded step ok s as) :
    ∃ s', run step s as = some s' ∧ inv s' ∧ abs s' = as.foldl apply (abs s) := by
  induction as generalizing s with
  | nil => exact ⟨s, rfl, hInit, rfl⟩
  | cons a as ih =>
    rcases hGuarded with ⟨hOk, hRest⟩
    rcases hStep s a hInit hOk with ⟨s', hNext, hInv, hAbs⟩
    rcases ih hInv (hRest s' hNext) with ⟨s'', hRun, hDone, hFold⟩
    refine ⟨s'', ?_, hDone, ?_⟩
    · rw [run_cons, hNext]
      exact hRun
    · rw [hFold, hAbs]
      rfl

/- A weaker condition on the operations. -/
theorem Guarded.mono {ok' : σ → α → Prop}
    (hGuarded : Guarded step ok s as) (hOk : ∀ s a, ok s a → ok' s a) : Guarded step ok' s as := by
  induction as generalizing s with
  | nil => trivial
  | cons a as ih =>
    exact ⟨hOk s a hGuarded.1, fun s' hNext =>
      ih (hGuarded.2 s' hNext)⟩

/- A condition on the operations alone. -/
theorem guarded_of_forall {ok : α → Prop} (hOk : ∀ a ∈ as, ok a) :
    Guarded step (fun _ a => ok a) s as := by
  induction as generalizing s with
  | nil => trivial
  | cons a as ih =>
    exact ⟨hOk a (by simp), fun s' _ =>
      ih (fun b hMem => hOk b (by simp [hMem]))⟩

/- One more condition, on the operations alone. -/
theorem Guarded.and_forall {ok' : α → Prop}
    (hGuarded : Guarded step ok s as) (hOk : ∀ a ∈ as, ok' a) :
    Guarded step (fun s a => ok s a ∧ ok' a) s as := by
  induction as generalizing s with
  | nil => trivial
  | cons a as ih =>
    refine ⟨⟨hGuarded.1, hOk a (by simp)⟩, fun s' hNext => ?_⟩
    exact ih (hGuarded.2 s' hNext) fun b hMem => hOk b (by simp [hMem])

/- Two conditions at once. -/
theorem Guarded.and {ok' : σ → α → Prop} (hGuarded : Guarded step ok s as)
    (hGuarded' : Guarded step ok' s as) : Guarded step (fun s a => ok s a ∧ ok' s a) s as := by
  induction as generalizing s with
  | nil => trivial
  | cons a as ih =>
    exact ⟨⟨hGuarded.1, hGuarded'.1⟩, fun s' hNext =>
      ih (hGuarded.2 s' hNext) (hGuarded'.2 s' hNext)⟩

/- The same with conditions that can be checked. -/
def guard (step : σ → α → Option σ) (ok : σ → α → Bool) :
    σ → List α → Bool
  | _, [] => true
  | s, a :: as => ok s a && (step s a).all fun s' => guard step ok s' as

theorem guarded_of_guard {ok : σ → α → Bool}
    (hGuard : guard step ok s as = true) : Guarded step (fun s a => ok s a = true) s as := by
  induction as generalizing s with
  | nil => trivial
  | cons a as ih =>
    rw [guard, Bool.and_eq_true] at hGuard
    refine ⟨hGuard.1, fun s' hNext => ih ?_⟩
    have hRest := hGuard.2
    rw [hNext] at hRest
    exact hRest

/- Guarded runs compose. -/
theorem Guarded.append {bs : List α} (hFirst : Guarded step ok s as)
    (hSecond : ∀ s', run step s as = some s' → Guarded step ok s' bs) :
    Guarded step ok s (as ++ bs) := by
  induction as generalizing s with
  | nil => exact hSecond s rfl
  | cons a as ih =>
    refine ⟨hFirst.1, fun s' hNext => ?_⟩
    refine ih (hFirst.2 s' hNext) ?_
    intro s'' hRun
    apply hSecond
    rw [run_cons, hNext]
    exact hRun

end Efl.Runs
