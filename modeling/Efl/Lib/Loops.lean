import Mathlib.Init

/-
  Loops, as the steps that they make.

  Main declarations:
    * `Loops.Outcome`, of one step
    * `Loops.Terminates`
    * `Loops.Terminates.of_measure`
    * `Loops.not_terminates`
-/

namespace Efl.Loops

/- A step leaves the loop, or goes on; a fault is `none`. -/
inductive Outcome (σ ρ : Type) where
  | done (r : ρ)
  | next (s : σ)

variable {σ ρ : Type} {step : σ → Option (Outcome σ ρ)}

/- The loop comes to an end. -/
inductive Terminates (step : σ → Option (Outcome σ ρ)) : σ → Prop where
  | fault {s : σ} (hStep : step s = none) : Terminates step s
  | done {s : σ} {r : ρ} (hStep : step s = some (.done r)) :
      Terminates step s
  | next {s s' : σ} (hStep : step s = some (.next s'))
      (hRest : Terminates step s') :
      Terminates step s

/- A number gets smaller as long as the loop goes on. -/
theorem Terminates.of_measure (Inv : σ → Prop) (measure : σ → Nat)
    (hNext : ∀ s s', Inv s → step s = some (.next s') → Inv s' ∧
    measure s' < measure s) {s : σ} (hInv : Inv s) : Terminates step s := by
  generalize hSize : measure s = n
  induction n using Nat.strongRecOn generalizing s with
  | ind n ih =>
    rcases hStep : step s with _ | r | s'
    · exact .fault hStep
    · exact .done hStep
    · rcases hNext s s' hInv hStep with ⟨hInv', hLess⟩
      exact .next hStep (ih _ (hSize ▸ hLess) hInv' rfl)

/- A loop that always goes on does not come to an end. -/
theorem not_terminates {P : σ → Prop} (hNext : ∀ s, P s → ∃ s', step s = some (.next s') ∧ P s')
    {s : σ} (hStart : P s) : ¬ Terminates step s := by
  intro hEnds
  induction hEnds with
  | fault hStep =>
    rcases hNext _ hStart with ⟨s', hStep', -⟩
    exact nomatch hStep.symm.trans hStep'
  | done hStep =>
    rcases hNext _ hStart with ⟨s', hStep', -⟩
    exact nomatch hStep.symm.trans hStep'
  | next hStep hRest ih =>
    rcases hNext _ hStart with ⟨s', hStep', hKept⟩
    obtain rfl := Outcome.next.inj (Option.some.inj (hStep.symm.trans hStep'))
    exact ih hKept

/- What the outcome of a step means for the rest of the loop -/
def Outcome.elim (rest : σ → Option ρ) : Outcome σ ρ → Option ρ
  | .done r => some r
  | .next s => rest s

end Efl.Loops
