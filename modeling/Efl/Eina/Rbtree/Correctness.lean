import Mathlib.Data.Finset.Card
import Mathlib.Order.Defs.LinearOrder
import Efl.Lib.Runs
import Efl.Eina.Rbtree.Insert
import Efl.Eina.Rbtree.Remove

/-
  Runs of `eina_rbtree_inline_insert` and
  `eina_rbtree_inline_remove`.

  The comparison callback follows the keys of the nodes.  As
  long as no call needs more than `stackSize` stack entries,
  every state of a run is a red-black search tree of the
  nodes inserted and not removed.  A call that needs more
  entries does not return.

  Main declarations:
    * `Rbtree.Op`
    * `Rbtree.step`
    * `Rbtree.step_isTree`
    * `Rbtree.step_eq_none`
-/

---
-- Order
---

namespace Efl.Eina.Rbtree

open RedBlack List

section

variable {N : Type} {K : Type} [LinearOrder K]

/- The callback leads from a node towards a key. -/
def Consistent (cmp : N → N → Side) (key : N → K) : Prop :=
  ∀ a b, key a < key b →
    cmp a b = .right ∧ cmp b a = .left

/- Every node below `son[d]` of `q` compares as `d` with `q`. -/
def Ordered (cmp : N → N → Side) : Tree N → Prop
  | .nil => True
  | .node _ l q r =>
    (∀ n ∈ l.toList, cmp q n = .left) ∧
      (∀ n ∈ r.toList, cmp q n = .right) ∧
      Ordered cmp l ∧ Ordered cmp r

/- The keys ascend along the list. -/
def Ascending (key : N → K) (ns : List N) : Prop :=
  ns.Pairwise fun a b => key a < key b

variable {cmp : N → N → Side} {key : N → K}

theorem Ascending.ordered (hCmp : Consistent cmp key) {t : Tree N}
    (hSorted : Ascending key t.toList) : Ordered cmp t := by
  induction t with
  | nil => trivial
  | node c l q r ihLeft ihRight =>
    rcases pairwise_append.mp hSorted with ⟨hl, hqr, hCross⟩
    rcases pairwise_cons.mp hqr with ⟨hq, hr⟩
    refine ⟨?_, ?_, ihLeft hl, ihRight hr⟩
    · intro n hn
      exact (hCmp n q (hCross n hn q (by simp))).2
    · intro n hn
      exact (hCmp q n (hq n hn)).1

theorem Ascending.nodup {ns : List N} (hSorted : Ascending key ns) : ns.Nodup := by
  refine hSorted.imp ?_
  rintro a b hLess rfl
  exact lt_irrefl _ hLess

section

variable (hCmp : Consistent cmp key)

include hCmp

/-
  The leaf that the descent ends at parts the keys below the
  new one from the keys above it.
-/
theorem exists_toList_insertPath {n : N} {t : Tree N} {fs : List (Frame N)} {before after : List N}
    (hFill : ∀ u, (fill fs u).toList = before ++ u.toList ++ after)
    (hSorted : Ascending key t.toList)
    (hNew : ∀ k ∈ t.toList, key k ≠ key n) :
    ∃ low high,
      t.toList = low ++ high ∧
        (∀ u, (fill (insertPath cmp n t fs) u).toList =
          before ++ low ++ u.toList ++ (high ++ after)) ∧
        (∀ k ∈ low, key k < key n) ∧ (∀ k ∈ high, key n < key k) := by
  induction t generalizing fs before after with
  | nil => exact ⟨[], [], by simpa [insertPath] using hFill⟩
  | node c l q r ihLeft ihRight =>
    rcases pairwise_append.mp hSorted with ⟨hl, hqr, hCross⟩
    rcases pairwise_cons.mp hqr with ⟨hq, hr⟩
    have hApart : key q ≠ key n := hNew q (by simp)
    rcases lt_or_gt_of_ne hApart with hLess | hMore
    · simp only [insertPath, (hCmp q n hLess).1]
      have hNext : ∀ u,
          (fill (⟨.right, c, q, l⟩ :: fs) u).toList =
            (before ++ l.toList ++ [q]) ++ u.toList ++
              after := by
        intro u
        simp [hFill, Frame.fill, Tree.mk]
      rcases ihRight hNext hr (fun k hk => hNew k (by simp [hk])) with
        ⟨low, high, hList, hFillNew, hLow, hHigh⟩
      refine ⟨l.toList ++ q :: low, high, ?_, ?_, ?_, hHigh⟩
      · simp [hList]
      · intro u
        simp [hFillNew]
      · intro k hk
        simp only [mem_append, mem_cons] at hk
        rcases hk with hk | rfl | hk
        · exact lt_trans (hCross k hk q (by simp)) hLess
        · exact hLess
        · exact hLow k hk
    · simp only [insertPath, (hCmp n q hMore).2]
      have hNext : ∀ u,
          (fill (⟨.left, c, q, r⟩ :: fs) u).toList =
            before ++ u.toList ++ (q :: r.toList ++ after) := by
        intro u
        simp [hFill, Frame.fill, Tree.mk]
      rcases ihLeft hNext hl (fun k hk => hNew k (by simp [hk])) with
        ⟨low, high, hList, hFillNew, hLow, hHigh⟩
      refine ⟨low, high ++ q :: r.toList, ?_, ?_, hLow, ?_⟩
      · simp [hList]
      · intro u
        simp [hFillNew]
      · intro k hk
        simp only [mem_append, mem_cons] at hk
        rcases hk with hk | rfl | hk
        · exact hHigh k hk
        · exact hMore
        · exact lt_trans hMore (hq k hk)

/- Insertion keeps the keys ascending. -/
theorem ascending_insertTree {n : N} {t : Tree N} (hSorted : Ascending key t.toList)
    (hNew : ∀ k ∈ t.toList, key k ≠ key n) : Ascending key (insertTree cmp n t).toList := by
  have hFill : ∀ u : Tree N, (fill [] u).toList = [] ++ u.toList ++ [] := by
    simp
  rcases exists_toList_insertPath hCmp hFill hSorted hNew with
    ⟨low, high, hList, hFill, hLow, hHigh⟩
  unfold insertTree
  rw [Tree.toList_blacken, toList_insertRepair, hFill]
  rw [hList] at hSorted
  rcases pairwise_append.mp hSorted with ⟨hl, hh, hCross⟩
  simp only [nil_append, Tree.toList_node, Tree.toList_nil, append_nil, append_assoc, cons_append]
  refine pairwise_append.mpr ⟨hl, pairwise_cons.mpr ⟨hHigh, hh⟩, ?_⟩
  intro a ha b hb
  rcases mem_cons.mp hb with rfl | hb
  · exact hLow a ha
  · exact hCross a ha b hb

/- Removal keeps the keys ascending. -/
theorem ascending_removeTree [DecidableEq N] {n : N} {t : Tree N}
    (hSorted : Ascending key t.toList) :
    (removeTree cmp n t).toList =
        t.toList.filter (fun k => decide (k ≠ n)) ∧
      Ascending key (removeTree cmp n t).toList := by
  have hList := toList_removeTree n hSorted.nodup (hSorted.imp fun hLess => hCmp _ _ hLess)
  refine ⟨hList, ?_⟩
  rw [hList]
  exact hSorted.filter _

end

end

---
-- Runs
---

open Option
variable {N : Type} {K : Type} [DecidableEq N]

/- A call on the tree. -/
inductive Op (N : Type) where
  | insert (n : N)
  | remove (n : N)

/- The memory, and the nodes inserted and not removed. -/
structure State (N : Type) where
  mem : Mem N
  present : Finset N

/- One call, storing what it returns in the root. -/
def step (cmp : N → N → Side) (s : State N) : Op N → Option (State N)
  | .insert n =>
    (inlineInsert cmp s.mem n).map fun m =>
      ⟨m, insert n s.present⟩
  | .remove n =>
    (inlineRemove cmp s.mem n).map fun m =>
      ⟨m, s.present.erase n⟩

/- Only nodes with a key of their own are inserted. -/
def Admissible (key : N → K) (s : State N) : Op N → Prop
  | .insert n => ∀ k ∈ s.present, key k ≠ key n
  | .remove _ => True

/- The number of stack entries a call writes. -/
def opDepth (cmp : N → N → Side) : Op N → Tree N → Nat
  | .insert n => insertDepth cmp n
  | .remove n => removeDepth cmp n

/- The entries of the call fit on the stack. -/
def Fits (cmp : N → N → Side) (s : State N) (op : Op N) : Prop :=
  ∀ t, Repr s.mem s.mem.root t →
    opDepth cmp op t ≤ stackSize

variable [LinearOrder K]

/-
  The memory holds the red-black search tree `t` of the
  present nodes.
-/
structure IsTree (key : N → K) (s : State N) (t : Tree N) : Prop where
  repr : Repr s.mem s.mem.root t
  black : t.color = .black
  balanced : ∃ k, t.Balanced k
  ascending : Ascending key t.toList
  mem_iff : ∀ n, n ∈ t.toList ↔ n ∈ s.present

variable {key : N → K}

omit [DecidableEq N] in
/- The empty tree, whatever the nodes hold. -/
theorem isTree_empty {m : Mem N} (hEmpty : m.root = none) : IsTree key ⟨m, ∅⟩ .nil where
  repr := hEmpty
  black := rfl
  balanced := ⟨0, rfl⟩
  ascending := List.Pairwise.nil
  mem_iff n := by simp

variable {cmp : N → N → Side} {s : State N} {t : Tree N} {op : Op N}

theorem IsTree.fits (hTree : IsTree key s t)
    (hDepth : opDepth cmp op t ≤ stackSize) : Fits cmp s op := by
  intro u hRepr
  rw [hRepr.unique hTree.repr]
  exact hDepth

/- One call that fits keeps the tree well formed. -/
theorem step_isTree (hCmp : Consistent cmp key)
    (hTree : IsTree key s t) (hAdmissible : Admissible key s op)
    (hFits : Fits cmp s op) : ∃ s' t', step cmp s op = some s' ∧ IsTree key s' t' := by
  have hRoom := hFits t hTree.repr
  have hNodup := hTree.ascending.nodup
  rcases hTree.balanced with ⟨k, hBalanced⟩
  cases op with
  | insert n =>
    have hKeys : ∀ k ∈ t.toList, key k ≠ key n :=
      fun k hk => hAdmissible k ((hTree.mem_iff k).mp hk)
    rcases inlineInsert_spec hTree.repr hNodup
        (fun hMem => hKeys n hMem rfl) hRoom with ⟨m, hCall, hRepr, -⟩
    refine ⟨⟨m, insert n s.present⟩, insertTree cmp n t,
      by simp [step, hCall], hRepr, Tree.color_blacken _, insertTree_balanced cmp n hBalanced,
      ascending_insertTree hCmp hTree.ascending hKeys, ?_⟩
    intro k
    rw [(toList_insertTree_perm cmp n t).mem_iff]
    simp [hTree.mem_iff]
  | remove n =>
    rcases inlineRemove_spec hTree.repr hNodup hRoom with ⟨m, hCall, hRepr, -, -⟩
    rcases ascending_removeTree (n := n) hCmp hTree.ascending with ⟨hList, hSorted⟩
    refine ⟨⟨m, s.present.erase n⟩, removeTree cmp n t, by simp [step, hCall], hRepr, ?_,
      removeTree_balanced cmp n hBalanced, hSorted, ?_⟩
    · have hBlack := hTree.black
      unfold removeTree
      split
      · exact hBlack
      · exact Tree.color_blacken _
    · intro k
      rw [hList]
      simp only [mem_filter, hTree.mem_iff, decide_eq_true_eq, Finset.mem_erase]
      exact and_comm

section

variable (hTree : IsTree key s t)

include hTree

/- A call that does not fit runs over the stack. -/
theorem step_eq_none (hFits : ¬ Fits cmp s op) : step cmp s op = none := by
  have hNodup := hTree.ascending.nodup
  have hDepth : stackSize < opDepth cmp op t := by
    by_contra hSmall
    exact hFits (hTree.fits (Nat.le_of_not_lt hSmall))
  cases op with
  | insert n =>
    simp [step, inlineInsert_eq_none hTree.repr hNodup hDepth]
  | remove n =>
    simp [step, inlineRemove_eq_none hTree.repr hNodup hDepth]

/- Removing a node that is not in the tree changes nothing. -/
theorem inlineRemove_of_notMem {n : N}
    (hMem : n ∉ s.present) (hFits : Fits cmp s (.remove n)) :
    inlineRemove cmp s.mem n = some s.mem := by
  rcases inlineRemove_spec hTree.repr
      hTree.ascending.nodup (hFits t hTree.repr) with ⟨m, hCall, -, -, hSame⟩
  rw [hCall, hSame (fun h => hMem ((hTree.mem_iff n).mp h))]

/- The tree has every present node once. -/
theorem IsTree.length_eq : t.toList.length = s.present.card := by
  rw [← toFinset_card_of_nodup hTree.ascending.nodup]
  congr 1
  ext n
  simp [hTree.mem_iff]

/-
  Trees of fewer than `2 ^ 25 - 1` nodes never run over the
  stack.
-/
theorem fits_of_card (hCard : s.present.card < 2 ^ 25 - 1) : Fits cmp s op := by
  apply hTree.fits
  rcases hTree.balanced with ⟨k, hBalanced⟩
  have hSize := hBalanced.pow_le_size
  have hHeight := hBalanced.height_le
  rw [hTree.black, if_neg (by simp)] at hHeight
  have hLength := hTree.length_eq
  have hLevels : k < 25 := by
    by_contra hMany
    have hPow : 2 ^ 25 ≤ 2 ^ k := Nat.pow_le_pow_right (by decide) (Nat.le_of_not_lt hMany)
    omega
  have hDepth : opDepth cmp op t ≤ t.height := by
    cases op with
    | insert n => exact insertDepth_le_height cmp n t
    | remove n => exact removeDepth_le_height cmp n t
  have hStack : stackSize = 48 := rfl
  omega

end

omit [LinearOrder K] in
/- A call adds one node at most. -/
theorem card_step_le {s' : State N} (hStep : step cmp s op = some s') :
    s'.present.card ≤ s.present.card + 1 := by
  cases op with
  | insert n =>
    simp only [step, map_eq_some_iff] at hStep
    rcases hStep with ⟨m, -, rfl⟩
    exact Finset.card_insert_le n s.present
  | remove n =>
    simp only [step, map_eq_some_iff] at hStep
    rcases hStep with ⟨m, -, rfl⟩
    exact (Finset.card_erase_le).trans (Nat.le_succ _)

/- In a run of fewer than `2 ^ 25` calls, all of them fit. -/
theorem guarded_of_length (hCmp : Consistent cmp key) {ops : List (Op N)} (hTree : IsTree key s t)
    (hGuarded : Runs.Guarded (step cmp) (Admissible key) s ops)
    (hLength : s.present.card + ops.length < 2 ^ 25) :
    Runs.Guarded (step cmp) (fun s op => Admissible key s op ∧ Fits cmp s op) s ops := by
  induction ops generalizing s t with
  | nil => trivial
  | cons op ops ih =>
    rw [length_cons] at hLength
    have hFits : Fits cmp s op := fits_of_card hTree (by omega)
    refine ⟨⟨hGuarded.1, hFits⟩, ?_⟩
    intro s' hStep
    rcases step_isTree hCmp hTree hGuarded.1 hFits with ⟨s'', t', hStep', hTree'⟩
    obtain rfl : s' = s'' := some.inj (hStep.symm.trans hStep')
    have hCard := card_step_le hStep
    exact ih hTree' (hGuarded.2 s' hStep) (by omega)

/- Every state of a run whose calls fit is a search tree. -/
theorem run_isTree (hCmp : Consistent cmp key) {m : Mem N}
    {ops : List (Op N)} (hEmpty : m.root = none) (hGuarded : Runs.Guarded (step cmp)
      (fun s op => Admissible key s op ∧ Fits cmp s op) ⟨m, ∅⟩ ops) :
    ∃ s, Runs.run (step cmp) ⟨m, ∅⟩ ops = some s ∧
      ∃ t, IsTree key s t :=
  Runs.run_of_guarded (fun s => ∃ t, IsTree key s t) (by
      intro s op hInv hOk
      rcases hInv with ⟨t, hTree⟩
      rcases step_isTree hCmp hTree hOk.1 hOk.2 with ⟨s', t', hStep, hTree'⟩
      exact ⟨s', hStep, t', hTree'⟩) ⟨.nil, isTree_empty hEmpty⟩ hGuarded

/-
  Insertions and removals that fit on the stack, in any
  order and number, leave a red-black tree that is ordered
  for the callback and holds the nodes inserted and not
  removed; removing another node leaves it unchanged.
-/
theorem inline_insert_remove_correct {cmp : N → N → Side} {key : N → K}
    (hCmp : Consistent cmp key) {m : Mem N} {ops : List (Op N)}
    (hEmpty : m.root = none) (hGuarded :
      Runs.Guarded (step cmp)
        (fun s op => Admissible key s op ∧ Fits cmp s op) ⟨m, ∅⟩ ops) :
    ∃ s t,
      Runs.run (step cmp) ⟨m, ∅⟩ ops = some s ∧
        Repr s.mem s.mem.root t ∧
        t.color = .black ∧
        (∃ k, t.Balanced k) ∧
        Ordered cmp t ∧
        t.toList.Nodup ∧
        (∀ n, n ∈ t.toList ↔ n ∈ s.present) ∧
        ∀ n, n ∉ s.present → Fits cmp s (.remove n) →
          inlineRemove cmp s.mem n = some s.mem := by
  rcases run_isTree hCmp hEmpty hGuarded with ⟨s, hRun, t, hTree⟩
  exact ⟨s, t, hRun, hTree.repr, hTree.black, hTree.balanced,
    hTree.ascending.ordered hCmp, hTree.ascending.nodup, hTree.mem_iff,
    fun n hMem hFits =>
      inlineRemove_of_notMem hTree hMem hFits⟩

/- A comparison of numbers. -/
def natCmp (a b : Nat) : Side :=
  if a < b then .right else .left

theorem consistent_natCmp : Consistent natCmp (fun n => n) := by
  intro a b hLess
  constructor
  · exact if_pos hLess
  · exact if_neg (Nat.lt_asymm hLess)

/- A root without nodes. -/
def emptyMem : Mem Nat where
  root := none
  node := fun _ => { son := fun _ => none, color := .red }

/- Three calls: of the nodes 1 and 0, the node 1 is removed. -/
def sampleOps : List (Op Nat) :=
  [.insert 1, .insert 0, .remove 1]

theorem inline_insert_remove_sample :
    ∃ s t,
      Runs.run (step natCmp) ⟨emptyMem, ∅⟩ sampleOps =
          some s ∧
        Repr s.mem s.mem.root t ∧
        t.color = .black ∧
        (∃ k, t.Balanced k) ∧
        Ordered natCmp t ∧
        t.toList.Nodup ∧
        (∀ n, n ∈ t.toList ↔ n ∈ s.present) ∧
        ∀ n, n ∉ s.present → Fits natCmp s (.remove n) →
          inlineRemove natCmp s.mem n = some s.mem := by
  apply inline_insert_remove_correct consistent_natCmp rfl
  apply guarded_of_length consistent_natCmp (isTree_empty rfl)
  · refine ⟨by simp [Admissible], fun s₁ hFirst => ?_⟩
    refine ⟨?_, fun s₂ hSecond => ⟨trivial, fun _ _ => trivial⟩⟩
    simp only [step, map_eq_some_iff] at hFirst
    rcases hFirst with ⟨m, -, rfl⟩
    simp [Admissible]
  · simp [sampleOps]

end Efl.Eina.Rbtree
