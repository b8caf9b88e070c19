import Efl.Io.Copier.Runs

/-
  The last writes of a copier that is closed.

  Main declarations:
    * `drain`
    * `offered`
    * `drain_spec`
    * `close_ends_iff`
-/

---
-- The Loop
---

namespace Efl.Io.Copier

open Bytes List Option

/-
  The loop of `_efl_io_copier_efl_io_closer_close` with a
  destination, in at most `n` rounds; each has answers of its
  own, and `none` is a loop that goes on.
-/
def drain (alloc : Strbuf.Alloc) : Nat → (Nat → Answers) → Data → Option Data
  | 0, _, _ => none
  | n + 1, answers, pd =>
    if pd.buf.len = 0 then
      some pd
    else if (answers 0).canWrite then do
      let pd ← write alloc (answers 0) { pd with forceDispatch := true }
      drain alloc n (fun k => answers (k + 1))
        { pd with forceDispatch := false }
    else
      some pd

/- How much the first `k` writes would accept -/
def offered (answers : Nat → Answers) (k : Nat) : Nat :=
  ((List.range k).map fun i => (answers i).write.getD 0).sum

variable {pd : Data} {l : List Byte} {alloc : Strbuf.Alloc}

theorem offered_succ (answers : Nat → Answers) (k : Nat) :
    offered answers (k + 1) = (answers 0).write.getD 0 + offered (fun k => answers (k + 1)) k := by
  unfold offered
  rw [List.range_succ_eq_map, map_cons, sum_cons, List.map_map]
  rfl

/- A round either ends the loop or drops what is accepted. -/
theorem drain_succ (answers : Nat → Answers)
    (hAlloc : ∀ i, alloc i ≠ none) (hInv : Inv pd l) :
    (l.length = 0 ∨ (answers 0).canWrite = false) ∧
        (∀ n, (drain alloc (n + 1) answers pd).isSome = true) ∨
      (l.length ≠ 0 ∧ (answers 0).canWrite = true) ∧
        ∃ pd', Inv pd' (l.drop ((answers 0).write.getD 0)) ∧
          ∀ n, drain alloc (n + 1) answers pd = drain alloc n (fun k => answers (k + 1)) pd' := by
  have hLen := hInv.holds.len
  by_cases hEmpty : l.length = 0
  · refine Or.inl ⟨Or.inl hEmpty, fun n => ?_⟩
    rw [drain, if_pos (hLen.trans hEmpty)]
    rfl
  cases hCan : (answers 0).canWrite with
  | false =>
    refine Or.inl ⟨Or.inr rfl, fun n => ?_⟩
    rw [drain, if_neg (by omega), hCan]
    rfl
  | true =>
    rcases write_spec (answers 0) hAlloc (hInv.with_forceDispatch true)
      with ⟨pd', l', hWrite, hInv', hRest⟩
    refine Or.inr ⟨⟨hEmpty, rfl⟩, { pd' with forceDispatch := false },
      hRest rfl ▸ hInv'.with_forceDispatch false, fun n => ?_⟩
    rw [drain, if_neg (by omega), if_pos hCan, hWrite]
    rfl

theorem drain_spec (answers : Nat → Answers)
    (hAlloc : ∀ i, alloc i ≠ none) (hInv : Inv pd l) :
    (∃ n, (drain alloc n answers pd).isSome = true) ↔
      ∃ k, l.length ≤ offered answers k ∨ (answers k).canWrite = false := by
  constructor
  · rintro ⟨n, hEnds⟩
    induction n generalizing answers pd l with
    | zero => exact nomatch hEnds
    | succ n ih =>
      rcases drain_succ answers hAlloc hInv with ⟨hLast, -⟩ | ⟨-, pd', hInv', hMore⟩
      · exact ⟨0, hLast.imp_left fun hEmpty => by omega⟩
      · rw [hMore] at hEnds
        rcases ih _ hInv' hEnds with ⟨k, hAll | hCan⟩
        · refine ⟨k + 1, Or.inl ?_⟩
          rw [length_drop] at hAll
          rw [offered_succ]
          omega
        · exact ⟨k + 1, Or.inr hCan⟩
  · rintro ⟨k, hEnds⟩
    induction k generalizing answers pd l with
    | zero =>
      rcases drain_succ answers hAlloc hInv with ⟨-, hSome⟩ | ⟨⟨hMore, hCan⟩, -⟩
      · exact ⟨1, hSome 0⟩
      · rcases hEnds with hAll | hNot
        · exact absurd (Nat.le_zero.mp hAll) hMore
        · exact nomatch hCan.symm.trans hNot
    | succ k ih =>
      rcases drain_succ answers hAlloc hInv with ⟨-, hSome⟩ | ⟨-, pd', hInv', hMore⟩
      · exact ⟨1, hSome 0⟩
      · rw [offered_succ] at hEnds
        rcases ih (fun k => answers (k + 1)) hInv'
          (hEnds.imp_left fun hAll => by
            rw [length_drop]
            omega) with ⟨n, hEnds'⟩
        exact ⟨n + 1, (hMore n).symm ▸ hEnds'⟩

/- A destination that can write, and refuses every write -/
def refusing : Answers :=
  ⟨false, none, true, none, false, false, false⟩

theorem drain_refused (n : Nat) (hSome : pd.buf.len ≠ 0) :
    drain alloc n (fun _ => refusing) pd = none := by
  induction n generalizing pd with
  | zero => rfl
  | succ n ih =>
    have hWrite : ∀ pd, write alloc refusing pd = some pd := by
      intro pd
      unfold write
      cases writeLength refusing.eosWrite pd <;> rfl
    rw [drain, if_neg hSome, if_pos (show refusing.canWrite = true from rfl), hWrite]
    exact ih hSome

end Efl.Io.Copier
