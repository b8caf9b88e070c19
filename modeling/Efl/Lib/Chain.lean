import Mathlib.Logic.Function.Basic

/-
  Singly linked chains.

  The links are a function on nodes, so that any record with a
  pointer will do.

  Main declarations:
    * `Chain.Seg`
    * `Chain.Seg.push`, `Chain.Seg.pop`
    * `Chain.Seg.unlink`
-/

namespace Efl.Chain

variable {N : Type}

/- The nodes are linked in this order from `p` on. -/
def Seg (next : N → Option N) : Option N → List N → Prop
  | p, [] => p = none
  | p, n :: ns => p = some n ∧ Seg next (next n) ns

variable {next : N → Option N} {p : Option N} {ns : List N}

theorem Seg.head (hSeg : Seg next p ns) : p = ns.head? := by
  cases ns with
  | nil => exact hSeg
  | cons n ns => exact hSeg.1

/- Only the links of the nodes matter. -/
theorem Seg.congr {next' : N → Option N} (hSeg : Seg next p ns)
    (hNext : ∀ n ∈ ns, next' n = next n) : Seg next' p ns := by
  induction ns generalizing p with
  | nil => exact hSeg
  | cons n ns ih =>
    refine ⟨hSeg.1, ?_⟩
    rw [hNext n (by simp)]
    exact ih hSeg.2 fun m hMem => hNext m (by simp [hMem])

/- Another link of a node that is not in the chain -/
theorem Seg.update [DecidableEq N] {n : N} (q : Option N)
    (hSeg : Seg next p ns) (hOut : n ∉ ns) : Seg (Function.update next n q) p ns := by
  apply hSeg.congr
  intro m hMem
  rw [Function.update_of_ne]
  rintro rfl
  exact hOut hMem

/- A node is put in front. -/
theorem Seg.push [DecidableEq N] {n : N} (hSeg : Seg next p ns)
    (hOut : n ∉ ns) : Seg (Function.update next n p) (some n) (n :: ns) := by
  refine ⟨rfl, ?_⟩
  rw [Function.update_self]
  exact hSeg.update p hOut

/- The node after `x` is taken out. -/
theorem Seg.unlink [DecidableEq N] {before after : List N} {x y : N}
    (hSeg : Seg next p (before ++ x :: y :: after))
    (hNodup : (before ++ x :: y :: after).Nodup) :
    Seg (Function.update next x (next y)) p (before ++ x :: after) := by
  induction before generalizing p with
  | nil =>
    rcases hSeg with ⟨rfl, hNext, hRest⟩
    have hOut : x ∉ after := by
      have hFirst := (List.nodup_cons.mp hNodup).1
      exact fun hMem => hFirst (by simp [hMem])
    refine ⟨rfl, ?_⟩
    rw [Function.update_self]
    exact hRest.update (next y) hOut
  | cons n before ih =>
    rcases hSeg with ⟨rfl, hRest⟩
    have hApart : n ≠ x := by
      rintro rfl
      exact (List.nodup_cons.mp hNodup).1 (by simp)
    refine ⟨rfl, ?_⟩
    rw [Function.update_of_ne hApart]
    exact ih hRest (List.nodup_cons.mp hNodup).2

/- What a node in the chain points to is the rest of it. -/
theorem Seg.rest {before after : List N} {x : N}
    (hSeg : Seg next p (before ++ x :: after)) : Seg next (next x) after := by
  induction before generalizing p with
  | nil => exact hSeg.2
  | cons n before ih => exact ih hSeg.2

/- The first node is taken away. -/
theorem Seg.pop {n : N} (hSeg : Seg next (some n) ns) :
    ∃ rest, ns = n :: rest ∧ Seg next (next n) rest := by
  cases ns with
  | nil => exact nomatch hSeg
  | cons m rest =>
    obtain rfl : n = m := Option.some.inj hSeg.1
    exact ⟨rest, rfl, hSeg.2⟩

end Efl.Chain
