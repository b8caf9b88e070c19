import Efl.Lib.Chain
import Efl.Eina.EinaList.Contents
import Efl.Eina.Inlist.SortedState

/-
  Merging sorted runs.

  A run is a chain of nodes by their `next` links alone.  The
  loop links the runs in the order of `List.merge`.

  Main declarations:
    * `Relinked`
    * `mergeNodes`
    * `mergeLoop_spec`, `sortMerge_spec`
    * `Sorted.merge`
-/

---
-- Runs
---

namespace Efl.Eina.EinaList

open Inlist (Order Sorted)

section

variable {N A D : Type}

/- Only the `next` links of these nodes may have changed. -/
structure Relinked (ns : List N) (m m' : Memory N A D) : Prop where
  data : m'.data = m.data
  prev : m'.prev = m.prev
  owner : m'.owner = m.owner
  accounting : m'.accounting = m.accounting
  next : ∀ k, k ∉ ns → m'.next k = m.next k

variable {m m' m'' : Memory N A D}

theorem Relinked.refl (ns : List N) (m : Memory N A D) : Relinked ns m m :=
  ⟨rfl, rfl, rfl, rfl, fun _ _ => rfl⟩

theorem Relinked.trans {ns : List N} (hFirst : Relinked ns m m')
    (hSecond : Relinked ns m' m'') : Relinked ns m m'' where
  data := hSecond.data.trans hFirst.data
  prev := hSecond.prev.trans hFirst.prev
  owner := hSecond.owner.trans hFirst.owner
  accounting := hSecond.accounting.trans hFirst.accounting
  next k hOut := (hSecond.next k hOut).trans (hFirst.next k hOut)

theorem Relinked.mono {ns ns' : List N}
    (hRelinked : Relinked ns m m') (hSub : ∀ k ∈ ns, k ∈ ns') : Relinked ns' m m' :=
  { hRelinked with
    next := fun k hOut =>
      hRelinked.next k fun hMem => hOut (hSub k hMem) }

/- A chain of other nodes -/
theorem Relinked.seg {ns ks : List N} {p : Option N} (hRelinked : Relinked ns m m')
    (hSeg : Chain.Seg m.next p ks) (hApart : ∀ k ∈ ks, k ∉ ns) : Chain.Seg m'.next p ks :=
  hSeg.congr fun k hMem => hRelinked.next k (hApart k hMem)

theorem relinked_setNext [DecidableEq N] (m : Memory N A D)
    (n : N) (p : Option N) : Relinked [n] m (m.setNext n p) := by
  constructor
  · funext k
    simp
  · funext k
    simp
  · funext k
    simp
  · rfl
  · intro k hOut
    rw [List.mem_singleton] at hOut
    simp [hOut]

/- What is taken first from two runs. -/
def precedes (d : N → D) (func : D → D → Int) (a b : N) : Bool :=
  decide (func (d a) (d b) < 0)

/- The order in which two runs are merged. -/
def mergeNodes (d : N → D) (func : D → D → Int) (as bs : List N) : List N :=
  as.merge bs (precedes d func)

variable {d : N → D} {func : D → D → Int}

theorem mergeNodes_perm (as bs : List N) :
    (mergeNodes d func as bs).Perm (as ++ bs) := List.merge_perm_append _

theorem mergeNodes_cons (a b : N) (as bs : List N) :
    mergeNodes d func (a :: as) (b :: bs) =
      if func (d a) (d b) < 0 then
        a :: mergeNodes d func as (b :: bs)
      else
        b :: mergeNodes d func (a :: as) bs := by
  unfold mergeNodes
  rw [List.cons_merge_cons]
  simp [precedes]

theorem sorted_cons {n : N} {ns : List N} :
    Sorted func ((n :: ns).map d) ↔ (∀ k ∈ ns, func (d n) (d k) ≤ 0) ∧ Sorted func (ns.map d) := by
  simp [Sorted]

/- Merging sorted runs gives a sorted one. -/
theorem sorted_mergeNodes {as bs : List N} (hOrder : Order func)
    (hAs : Sorted func (as.map d)) (hBs : Sorted func (bs.map d)) :
    Sorted func ((mergeNodes d func as bs).map d) := by
  induction as generalizing bs with
  | nil => simpa [mergeNodes] using hBs
  | cons a as ihAs =>
    induction bs with
    | nil => simpa [mergeNodes] using hAs
    | cons b bs ihBs =>
      rcases sorted_cons.mp hAs with ⟨ha, hAsRest⟩
      rcases sorted_cons.mp hBs with ⟨hb, hBsRest⟩
      rw [mergeNodes_cons]
      split
      · rename_i hLess
        refine sorted_cons.mpr ⟨?_, ihAs hAsRest hBs⟩
        intro k hMem
        rw [(mergeNodes_perm _ _).mem_iff] at hMem
        simp only [List.mem_append, List.mem_cons] at hMem
        rcases hMem with hMem | rfl | hMem
        · exact ha k hMem
        · omega
        · exact hOrder.trans _ _ _ (by omega) (hb k hMem)
      · rename_i hNot
        have hFlip := hOrder.flip (d a) (d b)
        refine sorted_cons.mpr ⟨?_, ihBs hBsRest⟩
        intro k hMem
        rw [(mergeNodes_perm _ _).mem_iff] at hMem
        simp only [List.mem_append, List.mem_cons] at hMem
        rcases hMem with (rfl | hMem) | hMem
        · omega
        · exact hOrder.trans _ _ _ (by omega) (ha k hMem)
        · exact hb k hMem

end

---
-- Merging in Memory
---

section

variable {N A D : Type} [DecidableEq N]
variable {d : N → D} {func : D → D → Int}

omit [DecidableEq N] in
theorem mergeNodes_nil (as : List N) : mergeNodes d func as [] = as := by
  simp [mergeNodes]

omit [DecidableEq N] in
theorem nil_mergeNodes (bs : List N) : mergeNodes d func [] bs = bs := by
  simp [mergeNodes]

/- A chain is put behind a node. -/
theorem seg_setNext {m : Memory N A D} {last : N} {p : Option N} {ks : List N}
    (hSeg : Chain.Seg m.next p ks) (hOut : last ∉ ks) :
    Chain.Seg (m.setNext last p).next ((m.setNext last p).next last) ks := by
  rw [Memory.next_setNext, if_pos rfl]
  apply (relinked_setNext m last p).seg hSeg
  intro k hMem hLast
  rw [List.mem_singleton] at hLast
  exact hOut (hLast ▸ hMem)

/- One more node in front of what is linked behind it. -/
theorem seg_step {m m' : Memory N A D} {last z : N} {ns ks : List N}
    (hRelinked : Relinked (z :: ns) (m.setNext last (some z)) m')
    (hSeg : Chain.Seg m'.next (m'.next z) ks)
    (hOut : last ∉ z :: ns) :
    Relinked (last :: z :: ns) m m' ∧ Chain.Seg m'.next (m'.next last) (z :: ks) := by
  have hLink := relinked_setNext m last (some z)
  refine ⟨(hLink.mono (by simp)).trans (hRelinked.mono (by simp +contextual)), ?_, hSeg⟩
  rw [hRelinked.next last hOut]
  simp

/- From the node `last` on, the rests of two runs. -/
theorem mergeLoop_spec {fuel : Nat} {m : Memory N A D} {last : N}
    {a b : Option N} {as bs : List N} (hData : m.data = d)
    (hAs : Chain.Seg m.next a as) (hBs : Chain.Seg m.next b bs)
    (hNodup : (last :: (as ++ bs)).Nodup)
    (hFuel : as.length + bs.length ≤ fuel) :
    ∃ m', mergeLoop func fuel m last a b = some m' ∧
      Relinked (last :: (as ++ bs)) m m' ∧
      Chain.Seg m'.next (m'.next last) (mergeNodes d func as bs) := by
  induction fuel generalizing m last a b as bs with
  | zero =>
    obtain rfl : as = [] := List.eq_nil_of_length_eq_zero (by omega)
    obtain rfl : a = none := hAs
    rw [nil_mergeNodes]
    refine ⟨m.setNext last b, by unfold mergeLoop; rfl,
      (relinked_setNext m last b).mono (by simp), seg_setNext hBs ?_⟩
    simpa using (List.nodup_cons.mp hNodup).1
  | succ fuel ih =>
    rcases List.nodup_cons.mp hNodup with ⟨hLast, hBoth⟩
    cases as with
    | nil =>
      obtain rfl : a = none := hAs
      rw [nil_mergeNodes]
      exact ⟨m.setNext last b, by unfold mergeLoop; rfl, (relinked_setNext m last b).mono (by simp),
        seg_setNext hBs (by simpa using hLast)⟩
    | cons x as =>
      obtain rfl := hAs.1
      cases bs with
      | nil =>
        obtain rfl : b = none := hBs
        rw [mergeNodes_nil]
        exact ⟨m.setNext last (some x), by unfold mergeLoop; rfl,
          (relinked_setNext m last _).mono (by simp), seg_setNext hAs (by simpa using hLast)⟩
      | cons y bs =>
        obtain rfl := hBs.1
        have hLink := fun z =>
          relinked_setNext m last (some z)
        have hKeep : ∀ k ∈ x :: as ++ y :: bs, k ∉ [last] := by
          intro k hMem hSame
          rw [List.mem_singleton] at hSame
          exact hLast (hSame ▸ hMem)
        simp only [List.length_cons] at hFuel
        rw [mergeNodes_cons]
        unfold mergeLoop
        simp only [hData]
        by_cases hLess : func (d x) (d y) < 0
        · rw [if_pos hLess, if_pos hLess, (hLink x).next x (hKeep x (by simp))]
          rcases ih ((hLink x).data.trans hData)
            ((hLink x).seg hAs.2 fun k hMem => hKeep k (by simp [hMem]))
            ((hLink x).seg hBs fun k hMem => hKeep k (by simp at hMem ⊢; tauto))
            hBoth (by simp only [List.length_cons]; omega) with ⟨m', hLoop, hRelinked, hSeg⟩
          exact ⟨m', hLoop, seg_step hRelinked hSeg hLast⟩
        · rw [if_neg hLess, if_neg hLess, (hLink y).next y (hKeep y (by simp))]
          have hPerm : (y :: (x :: as ++ bs)).Perm (x :: as ++ y :: bs) := List.perm_middle.symm
          rcases ih ((hLink y).data.trans hData)
            ((hLink y).seg hAs fun k hMem => hKeep k (by simp at hMem ⊢; tauto))
            ((hLink y).seg hBs.2 fun k hMem => hKeep k (by simp [hMem]))
            (hPerm.nodup_iff.mpr hBoth) (by simp only [List.length_cons]; omega)
            with ⟨m', hLoop, hRelinked, hSeg⟩
          have hStep := seg_step hRelinked hSeg fun hMem => hLast (hPerm.mem_iff.mp hMem)
          refine ⟨m', hLoop, hStep.1.mono ?_, hStep.2⟩
          intro k hMem
          exact (hPerm.cons last).mem_iff.mp hMem

/- Two runs, each with a first node. -/
theorem sortMerge_spec {fuel : Nat} {m : Memory N A D} {a b : N}
    {as bs : List N} (hData : m.data = d) (hAs : Chain.Seg m.next (some a) as)
    (hBs : Chain.Seg m.next (some b) bs) (hNodup : (as ++ bs).Nodup)
    (hFuel : as.length + bs.length ≤ fuel) :
    ∃ m' c, sortMerge func fuel m a b = some (m', c) ∧
      Relinked (as ++ bs) m m' ∧ Chain.Seg m'.next (some c) (mergeNodes d func as bs) := by
  rcases hAs.pop with ⟨as, rfl, hAsRest⟩
  rcases hBs.pop with ⟨bs, rfl, hBsRest⟩
  simp only [List.length_cons] at hFuel
  rw [mergeNodes_cons]
  unfold sortMerge
  rw [hData]
  by_cases hLess : func (d a) (d b) < 0
  · rw [if_pos hLess, if_pos hLess]
    have hRoom : as.length + (b :: bs).length ≤ fuel := by
      simp only [List.length_cons]
      omega
    rcases mergeLoop_spec hData hAsRest hBs hNodup hRoom with ⟨m', hLoop, hRelinked, hSeg⟩
    exact ⟨m', a, by simp [hLoop], hRelinked, rfl, hSeg⟩
  · rw [if_neg hLess, if_neg hLess]
    have hPerm : (b :: (a :: as ++ bs)).Perm (a :: as ++ b :: bs) := List.perm_middle.symm
    have hRoom : (a :: as).length + bs.length ≤ fuel := by
      simp only [List.length_cons]
      omega
    rcases mergeLoop_spec hData hAs hBsRest
      (hPerm.nodup_iff.mpr hNodup) hRoom with ⟨m', hLoop, hRelinked, hSeg⟩
    exact ⟨m', b, by simp [hLoop], hRelinked.mono fun k hMem => hPerm.mem_iff.mp hMem,
      rfl, hSeg⟩

end

---
-- The Stack of Runs
---

variable {N A D : Type}
variable {func : D → D → Int}

/- The sorted runs that start at the nodes on the stack. -/
def Piled (func : D → D → Int) (m : Memory N A D)
    (stack : List N) (runs : List (List N)) : Prop :=
  List.Forall₂
    (fun head run => Chain.Seg m.next (some head) run ∧
      Sorted func (run.map m.data))
    stack runs

theorem Piled.relinked {m m' : Memory N A D} {stack : List N} {runs : List (List N)} {ns : List N}
    (hPiled : Piled func m stack runs) (hRelinked : Relinked ns m m')
    (hApart : ∀ k ∈ runs.flatten, k ∉ ns) : Piled func m' stack runs := by
  induction hPiled with
  | nil => exact .nil
  | cons hRun hRest ih =>
    simp only [List.flatten_cons, List.mem_append] at hApart
    refine .cons ⟨?_, ?_⟩ (ih fun k hMem => hApart k (.inr hMem))
    · exact hRelinked.seg hRun.1 fun k hMem => hApart k (.inl hMem)
    · rw [hRelinked.data]
      exact hRun.2

variable [DecidableEq N]

/- The two topmost runs become one. -/
theorem mergeTop_spec {fuel : Nat} {m : Memory N A D} {a b : N}
    {stack : List N} {runs : List (List N)} (hOrder : Order func)
    (hPiled : Piled func m (b :: a :: stack) runs) (hNodup : runs.flatten.Nodup)
    (hFuel : runs.flatten.length ≤ fuel) :
    ∃ m' c runs', sortMerge func fuel m a b = some (m', c) ∧
      Piled func m' (c :: stack) runs' ∧
      runs'.flatten.Perm runs.flatten ∧ Relinked runs.flatten m m' := by
  cases hPiled with
  | @cons _ bs _ runs hBs hRest =>
    cases hRest with
    | @cons _ as _ runs hAs hRest =>
      simp only [List.flatten_cons] at hNodup hFuel ⊢
      have hSwap : (as ++ (bs ++ runs.flatten)).Perm
          (bs ++ (as ++ runs.flatten)) := List.perm_append_comm_assoc _ _ _
      rw [← hSwap.nodup_iff, ← List.append_assoc, List.nodup_append] at hNodup
      simp only [List.length_append] at hFuel
      rcases sortMerge_spec rfl hAs.1 hBs.1 hNodup.1 (show as.length + bs.length ≤ fuel by omega)
        with ⟨m', c, hCall, hRelinked, hSeg⟩
      refine ⟨m', c, mergeNodes m.data func as bs :: runs,
        hCall, .cons ⟨hSeg, ?_⟩ (Piled.relinked hRest hRelinked ?_), ?_, hRelinked.mono ?_⟩
      · rw [hRelinked.data]
        exact sorted_mergeNodes hOrder hAs.2 hBs.2
      · intro k hMem hTop
        exact hNodup.2.2 k hTop k hMem rfl
      · rw [List.flatten_cons]
        refine ((mergeNodes_perm as bs).append_right _).trans ?_
        rw [List.append_assoc]
        exact hSwap
      · intro k hMem
        simp only [List.mem_append] at hMem ⊢
        tauto

/- All runs become one. -/
theorem mergeAll_spec {fuel : Nat} {m : Memory N A D} {b : N}
    {stack : List N} {runs : List (List N)} (hOrder : Order func)
    (hPiled : Piled func m (b :: stack) runs) (hNodup : runs.flatten.Nodup)
    (hFuel : runs.flatten.length ≤ fuel) :
    ∃ m' c run, mergeAll func fuel m b stack = some (m', c) ∧
      Chain.Seg m'.next (some c) run ∧
      Sorted func (run.map m'.data) ∧ run.Perm runs.flatten ∧ Relinked runs.flatten m m' := by
  induction stack generalizing m b runs with
  | nil =>
    cases hPiled with
    | @cons _ run _ _ hRun hRest =>
      cases hRest
      exact ⟨m, b, run, rfl, hRun.1, hRun.2, by simp, .refl _ m⟩
  | cons a stack ih =>
    rcases mergeTop_spec hOrder hPiled hNodup hFuel with
      ⟨m₁, c, runs₁, hCall, hPiled₁, hPerm₁, hRelinked₁⟩
    rcases ih hPiled₁ (hPerm₁.nodup_iff.mpr hNodup) (hPerm₁.length_eq ▸ hFuel) with
      ⟨m', c', run, hRest, hSeg, hSorted, hPerm, hRelinked⟩
    refine ⟨m', c', run, ?_, hSeg, hSorted,
      hPerm.trans hPerm₁, hRelinked₁.trans (hRelinked.mono ?_)⟩
    · unfold mergeAll
      simp [hCall, hRest]
    · intro k hMem
      exact hPerm₁.mem_iff.mp hMem

end Efl.Eina.EinaList
