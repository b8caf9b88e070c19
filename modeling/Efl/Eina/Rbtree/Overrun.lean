import Efl.Eina.Rbtree.Correctness

/-
  A run of insertions that overruns the stack.

  Nodes inserted in ascending order all go to the right.  To
  the left of the right spine every subtree is full, so the
  number of nodes bounds the spine from below: with more than
  `3 * (2 ^ 24 - 1)` nodes it has 49 nodes or more, one more
  than the stack has entries.

  Main declarations:
    * `Rbtree.Full`
    * `Rbtree.Spine`
    * `Rbtree.insertTree_spineTop`
    * `Rbtree.SpineTop.length_le`
-/

---
-- The Right Spine
---

namespace Efl.Eina.Rbtree

open RedBlack List

variable {N : Type}

/- A full tree of black nodes. -/
def Full : Nat → Tree N → Prop
  | 0, t => t = .nil
  | k + 1, t => ∃ l n r, t = .node .black l n r ∧ Full k l ∧ Full k r

/- A left subtree of the spine: full, below a red node or not. -/
def LeftFull (k : Nat) (t : Tree N) : Prop :=
  Full k t ∨
    ∃ l n r, t = .node .red l n r ∧ Full k l ∧ Full k r

/- On the right spine black and red nodes alternate. -/
def Spine : Nat → Tree N → Prop
  | 0, t => t = .nil
  | k + 1, t =>
    ∃ l n l' n' r,
      t = .node .black l n (.node .red l' n' r) ∧
        LeftFull k l ∧ Full k l' ∧ Spine k r

/- The red node that a new node becomes on its way up. -/
def Carry (k : Nat) (t : Tree N) : Prop :=
  ∃ l n r, t = .node .red l n r ∧ Full k l ∧ Spine k r

/- At the root the red node of the spine may be missing. -/
def SpineTop (k : Nat) (t : Tree N) : Prop :=
  Spine (k + 1) t ∨
    ∃ l n r, t = .node .black l n r ∧ Full k l ∧ Spine k r

variable {k : Nat} {t : Tree N}

theorem Full.color (hFull : Full k t) : t.color = .black := by
  cases k with
  | zero =>
    rw [show t = .nil from hFull]
    rfl
  | succ k =>
    rcases hFull with ⟨l, n, r, rfl, -, -⟩
    rfl

theorem Spine.color (hSpine : Spine k t) : t.color = .black := by
  cases k with
  | zero =>
    rw [show t = .nil from hSpine]
    rfl
  | succ k =>
    rcases hSpine with ⟨l, n, l', n', r, rfl, -⟩
    rfl

theorem Full.length (hFull : Full k t) : t.toList.length + 1 = 2 ^ k := by
  induction k generalizing t with
  | zero =>
    rw [show t = .nil from hFull]
    rfl
  | succ k ih =>
    rcases hFull with ⟨l, n, r, rfl, hl, hr⟩
    have hLeft := ih hl
    have hRight := ih hr
    simp only [Tree.toList_node, length_append, length_cons, Nat.pow_succ]
    omega

theorem LeftFull.length_le (hLeft : LeftFull k t) : t.toList.length + 1 ≤ 2 ^ (k + 1) := by
  rcases hLeft with hFull | ⟨l, n, r, rfl, hl, hr⟩
  · have hLength := hFull.length
    omega
  · have hl' := hl.length
    have hr' := hr.length
    simp only [Tree.toList_node, length_append, length_cons]
    omega

/- What a spine can hold at most. -/
theorem Spine.length_le (hSpine : Spine k t) : t.toList.length + 3 ≤ 3 * 2 ^ k := by
  induction k generalizing t with
  | zero =>
    rw [show t = .nil from hSpine]
    simp
  | succ k ih =>
    rcases hSpine with ⟨l, n, l', n', r, rfl, hl, hl', hr⟩
    have hLeft := hl.length_le
    have hInner := hl'.length
    have hRest := ih hr
    rw [Nat.pow_succ] at hLeft ⊢
    simp only [Tree.toList_node, length_append, length_cons]
    omega

theorem SpineTop.length_le (hTop : SpineTop k t) : t.toList.length + 3 ≤ 3 * 2 ^ (k + 1) := by
  rcases hTop with hSpine | ⟨l, n, r, rfl, hl, hr⟩
  · exact hSpine.length_le
  · have hLeft := hl.length
    have hRest := hr.length_le
    rw [Nat.pow_succ]
    simp only [Tree.toList_node, length_append, length_cons]
    omega

variable {cmp : N → N → Side} {n : N}

/- Two nodes for each black level. -/
theorem Spine.insertDepth (hSpine : Spine k t)
    (hLast : ∀ q ∈ t.toList, cmp q n = .right) : insertDepth cmp n t = 2 * k := by
  induction k generalizing t with
  | zero =>
    rw [show t = .nil from hSpine]
    rfl
  | succ k ih =>
    rcases hSpine with ⟨l, q, l', q', r, rfl, -, -, hr⟩
    have hRest := ih hr (fun p hp => hLast p (by simp [hp]))
    simp only [Rbtree.insertDepth, hLast q (by simp), hLast q' (by simp), hRest]
    omega

theorem SpineTop.le_insertDepth (hTop : SpineTop k t)
    (hLast : ∀ q ∈ t.toList, cmp q n = .right) : 2 * k + 1 ≤ insertDepth cmp n t := by
  rcases hTop with hSpine | ⟨l, q, r, rfl, -, hr⟩
  · rw [hSpine.insertDepth hLast]
    omega
  · have hRest := hr.insertDepth (fun p hp => hLast p (by simp [hp]))
    simp only [insertDepth, hLast q (by simp), hRest]
    omega

---
-- Insertion at the End of the Spine
---

/- Below a black subtree nothing is left to repair. -/
theorem insertRepair_black (hColor : t.color = .black)
    (fs : List (Frame N)) : insertRepair t fs = fill fs t := by
  cases fs with
  | nil => rfl
  | cons f fs => rw [insertRepair, if_pos hColor]

variable {l : Tree N}

/- A red node over black subtrees stays where it is. -/
theorem rotateInsert_of_black {c : Color} {r : Tree N} {qc : Color}
    {q : N} {s : Tree N} (hLeft : l.color = .black)
    (hRight : r.color = .black) :
    rotateInsert ⟨.right, qc, q, s⟩ (.node c l n r) = .node qc s q (.node c l n r) := by
  simp only [rotateInsert, Tree.view, hRight]
  rw [if_neg (by simp)]
  cases l with
  | nil => rfl
  | node lc l₁ p l₂ =>
    cases lc with
    | red => simp [Tree.color] at hLeft
    | black => rfl

/- A red node over a red right son rotates above its parent. -/
theorem rotateInsert_of_red {c : Color} {r : Tree N} {qc : Color}
    {q : N} {s : Tree N} (hRight : r.color = .red) :
    rotateInsert ⟨.right, qc, q, s⟩ (.node c l n r) = .node .black (.node .red s q l) n r := by
  simp only [rotateInsert, Tree.view, hRight]
  rfl

/-
  One level of the spine either takes the carry up or passes
  it on, like a digit of a counter.
-/
theorem insertRepair_level {u : Tree N} {fs : List (Frame N)}
    {l' : Tree N} {n' : N} (hLeft : LeftFull k l) (hInner : Full k l')
    (hCarry : Carry k u) :
    ∃ v, (Spine (k + 1) v ∨ Carry (k + 1) v) ∧
      insertRepair u (⟨.right, .red, n', l'⟩ ::
      ⟨.right, .black, n, l⟩ :: fs) = insertRepair v fs := by
  rcases hCarry with ⟨a, p, b, rfl, ha, hb⟩
  have hRed : (RedBlack.Tree.node .red a p b).color ≠ .black := by
    simp [Tree.color]
  rw [insertRepair, if_neg hRed, if_neg (by simp [hInner.color]),
    rotateInsert_of_black ha.color hb.color]
  rw [insertRepair, if_neg (by simp [Tree.color])]
  rcases hLeft with hFull | ⟨x, m, y, rfl, hx, hy⟩
  · rw [if_neg (by simp [hFull.color]), rotateInsert_of_red rfl]
    refine ⟨_, Or.inl ?_, rfl⟩
    exact ⟨_, _, a, p, b, rfl, Or.inr ⟨l, n, l', rfl, hFull, hInner⟩, ha, hb⟩
  · rw [if_pos (by rfl)]
    refine ⟨_, Or.inr ?_, rfl⟩
    exact ⟨_, n, _, rfl, ⟨x, m, y, rfl, hx, hy⟩, ⟨l', n', a, p, b, rfl, Or.inl hInner, ha, hb⟩⟩

/- A new last node, from the end of the spine upwards. -/
theorem insertRepair_spine (fs : List (Frame N)) (hSpine : Spine k t)
    (hLast : ∀ q ∈ t.toList, cmp q n = .right) :
    ∃ u, (Spine k u ∨ Carry k u) ∧ insertRepair (.node .red .nil n .nil)
      (insertPath cmp n t fs) = insertRepair u fs := by
  induction k generalizing t fs with
  | zero =>
    rw [show t = .nil from hSpine]
    exact ⟨_, Or.inr ⟨.nil, n, .nil, rfl, rfl, rfl⟩, rfl⟩
  | succ k ih =>
    rcases hSpine with ⟨l, q, l', q', r, rfl, hLeft, hInner, hr⟩
    simp only [insertPath, hLast q (by simp), hLast q' (by simp)]
    rcases ih (⟨.right, .red, q', l'⟩ :: ⟨.right, .black, q, l⟩ ::
          fs) hr (fun p hp => hLast p (by simp [hp])) with ⟨u, hu | hu, hRepair⟩
    · refine ⟨.node .black l q (.node .red l' q' u),
        Or.inl ⟨l, q, l', q', u, rfl, hLeft, hInner, hu⟩, ?_⟩
      rw [hRepair, insertRepair_black hu.color, insertRepair_black rfl]
      rfl
    · rw [hRepair]
      exact insertRepair_level hLeft hInner hu

/- A carry at the root adds a level. -/
theorem Carry.blacken (hCarry : Carry k t) : SpineTop k t.blacken := by
  rcases hCarry with ⟨l, n, r, rfl, hl, hr⟩
  exact Or.inr ⟨l, n, r, rfl, hl, hr⟩

/- Appending a node keeps the shape. -/
theorem insertTree_spineTop (hTop : SpineTop k t)
    (hLast : ∀ q ∈ t.toList, cmp q n = .right) : ∃ j, SpineTop j (insertTree cmp n t) := by
  unfold insertTree
  rcases hTop with hSpine | ⟨l, q, r, rfl, hl, hr⟩
  · rcases insertRepair_spine [] hSpine hLast with ⟨u, hu | hu, hRepair⟩
    · refine ⟨k, Or.inl ?_⟩
      rw [hRepair]
      rcases hu with ⟨l, q, l', q', r, rfl, hRest⟩
      exact ⟨l, q, l', q', r, rfl, hRest⟩
    · rw [hRepair]
      exact ⟨k + 1, hu.blacken⟩
  · simp only [insertPath, hLast q (by simp)]
    rcases insertRepair_spine [⟨.right, .black, q, l⟩] hr
        (fun p hp => hLast p (by simp [hp])) with ⟨u, hu | hu, hRepair⟩
    · refine ⟨k, Or.inr ⟨l, q, u, ?_, hl, hu⟩⟩
      rw [hRepair, insertRepair_black hu.color]
      rfl
    · rcases hu with ⟨a, p, b, rfl, ha, hb⟩
      refine ⟨k, Or.inl ⟨l, q, a, p, b, ?_, Or.inl hl, ha, hb⟩⟩
      rw [hRepair, insertRepair, if_neg (by simp [Tree.color]),
        if_neg (by simp [hl.color]), rotateInsert_of_black ha.color hb.color]
      rfl

/- The first node. -/
theorem insertTree_nil_spineTop (cmp : N → N → Side) (n : N) :
    SpineTop 0 (insertTree cmp n .nil) := Or.inr ⟨.nil, n, .nil, rfl, rfl, rfl⟩

/- More nodes than the shape can hold in 24 levels. -/
theorem SpineTop.overrun (hTop : SpineTop k t) (hLast : ∀ q ∈ t.toList, cmp q n = .right)
    (hMany : 3 * 2 ^ 24 - 3 < t.toList.length) : stackSize < insertDepth cmp n t := by
  have hLength := hTop.length_le
  have hDepth := hTop.le_insertDepth hLast
  have hLevels : 24 ≤ k := by
    by_contra hFew
    have hPow : 2 ^ (k + 1) ≤ 2 ^ 24 := Nat.pow_le_pow_right (by decide) (by omega)
    omega
  have hStack : stackSize = 48 := rfl
  omega

---
-- The Run
---

open Option

/- Insert the numbers below `count` in ascending order. -/
def appends (count : Nat) : List (Op Nat) :=
  (List.range count).map .insert

/-
  The state after the first `count` insertions: the numbers
  below `count`, in the shape of the spine.
-/
def Appended (count : Nat) (s : State Nat) : Prop :=
  s.present = Finset.range count ∧
    ∃ t, IsTree (fun n => n) s t ∧
      (count = 0 ∧ t = .nil ∨ ∃ k, SpineTop k t)

variable {count : Nat} {s : State Nat}

section

variable (hState : Appended count s)

include hState

theorem Appended.admissible : Admissible (fun n => n) s (.insert count) := by
  intro k hk
  rw [hState.1, Finset.mem_range] at hk
  exact Nat.ne_of_lt hk

/- All the numbers lead to the right. -/
theorem Appended.last {t : Tree Nat}
    (hTree : IsTree (fun n => n) s t) : ∀ q ∈ t.toList, natCmp q count = .right := by
  intro q hq
  rw [hTree.mem_iff, hState.1, Finset.mem_range] at hq
  exact if_pos hq

/- One more insertion, if it returns. -/
theorem Appended.step {s' : State Nat}
    (hStep : step natCmp s (.insert count) = some s') : Appended (count + 1) s' := by
  have hAdmissible := hState.admissible
  have hAll := fun t => hState.last (t := t)
  rcases hState with ⟨hPresent, t, hTree, hShape⟩
  have hFits : Fits natCmp s (.insert count) := by
    by_contra hOver
    rw [step_eq_none hTree hOver] at hStep
    simp at hStep
  have hKeys : ∀ k ∈ t.toList, k ≠ count := fun k hk => hAdmissible k ((hTree.mem_iff k).mp hk)
  rcases step_isTree consistent_natCmp hTree hAdmissible hFits with ⟨s'', t', hStep', hTree'⟩
  obtain rfl : s' = s'' := some.inj (hStep.symm.trans hStep')
  rcases inlineInsert_spec hTree.repr hTree.ascending.nodup (fun hMem => hKeys count hMem rfl)
      (hFits t hTree.repr) with ⟨m, hCall, hRepr, -⟩
  simp only [Rbtree.step, hCall, map_some, Option.some.injEq] at hStep
  subst hStep
  refine ⟨?_, t', hTree', Or.inr ?_⟩
  · rw [Finset.range_add_one, hPresent]
  · rw [hTree'.repr.unique hRepr]
    rcases hShape with ⟨-, rfl⟩ | ⟨k, hTop⟩
    · exact ⟨0, insertTree_nil_spineTop natCmp count⟩
    · exact insertTree_spineTop hTop (hAll t hTree)

/- With this many numbers there is no next insertion. -/
theorem Appended.overrun
    (hMany : 3 * 2 ^ 24 - 3 < count) : Rbtree.step natCmp s (.insert count) = none := by
  have hAll := fun t => hState.last (t := t)
  rcases hState with ⟨hPresent, t, hTree, hShape⟩
  apply step_eq_none hTree
  intro hFits
  have hDepth := hFits t hTree.repr
  rcases hShape with ⟨rfl, -⟩ | ⟨k, hTop⟩
  · simp at hMany
  · have hLength : t.toList.length = count := by
      rw [← List.toFinset_card_of_nodup hTree.ascending.nodup]
      have hSet : t.toList.toFinset = Finset.range count := by
        rw [← hPresent]
        ext n
        simp [hTree.mem_iff]
      rw [hSet, Finset.card_range]
    have hOver := hTop.overrun (hAll t hTree) (by rw [hLength]; exact hMany)
    exact Nat.not_le_of_lt hOver hDepth

end

theorem appends_succ (count : Nat) : appends (count + 1) = appends count ++ [.insert count] := by
  simp [appends, List.range_succ]

/- The insertions are admissible as far as they return. -/
theorem appends_spec (count : Nat) :
    Runs.Guarded (step natCmp) (Admissible fun n => n)
        ⟨emptyMem, ∅⟩ (appends count) ∧
      ∀ s, Runs.run (step natCmp) ⟨emptyMem, ∅⟩
          (appends count) = some s →
        Appended count s := by
  induction count with
  | zero =>
    refine ⟨trivial, ?_⟩
    intro s hRun
    obtain rfl : _ = s := some.inj hRun
    exact ⟨rfl, .nil, isTree_empty rfl, Or.inl ⟨rfl, rfl⟩⟩
  | succ count ih =>
    rcases ih with ⟨hGuarded, hStates⟩
    rw [appends_succ]
    constructor
    · refine hGuarded.append ?_
      intro s hRun
      exact ⟨(hStates s hRun).admissible, fun _ _ => trivial⟩
    · intro s hRun
      rw [Runs.run_append, bind_eq_some_iff] at hRun
      rcases hRun with ⟨s', hFirst, hLast⟩
      exact (hStates s' hFirst).step (by simpa using hLast)

/- One insertion too many faults, and all are admissible. -/
theorem appends_overrun (hMany : 3 * 2 ^ 24 - 3 < count) :
    Consistent natCmp (fun n => n) ∧ Runs.Guarded (step natCmp)
      (Admissible fun n => n) ⟨emptyMem, ∅⟩ (appends (count + 1)) ∧
      Runs.run (step natCmp) ⟨emptyMem, ∅⟩ (appends (count + 1)) = none := by
  refine ⟨consistent_natCmp, (appends_spec (count + 1)).1, ?_⟩
  rw [appends_succ, Runs.run_append, bind_eq_none_iff]
  intro s hRun
  have hState := (appends_spec count).2 s hRun
  rw [Runs.run_cons, hState.overrun hMany]
  rfl

/-
  Inserting 50331647 nodes in ascending order: all of them
  are new, and still the last call, if not an earlier one,
  writes behind the end of the stack.
-/
theorem inline_insert_overrun :
    Consistent natCmp (fun n => n) ∧ Runs.Guarded (step natCmp)
      (Admissible fun n => n) ⟨emptyMem, ∅⟩ (appends 50331647) ∧
      Runs.run (step natCmp) ⟨emptyMem, ∅⟩ (appends 50331647) = none :=
      by
  have hMany : 3 * 2 ^ 24 - 3 < 50331646 := by omega
  exact appends_overrun hMany

end Efl.Eina.Rbtree
