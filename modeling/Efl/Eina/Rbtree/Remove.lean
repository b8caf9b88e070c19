import Efl.Eina.Rbtree.Represent

/-
  `eina_rbtree_inline_remove` on trees.

  `removeTree` is the effect of the call on the represented
  tree and `removeDepth` the number of stack entries it
  writes.  The call refines `removeTree` as long as these
  entries fit, and runs over the stack otherwise.

  Main declarations:
    * `Rbtree.leftmost`
    * `Rbtree.removeAt`
    * `Rbtree.removeTree_balanced`
    * `Rbtree.inlineRemove_spec`
-/

---
-- The Leftmost Node
---

namespace Efl.Eina.Rbtree

open RedBlack List

section

variable {N : Type}

/- A node without a left son, and the frames above it. -/
structure Leftmost (N : Type) where
  color : Color
  label : N
  right : Tree N
  frames : List (Frame N)

/-
  Go left from the node with the given colour, left subtree,
  label and right subtree.
-/
def leftmost (c : Color) : Tree N → N → Tree N → Leftmost N
  | .nil, n, r => ⟨c, n, r, []⟩
  | .node c' l' n' r', n, r =>
    let low := leftmost c' l' n' r'
    { low with
      frames := low.frames ++ [⟨.left, c, n, r⟩] }

/- The number of steps to the left. -/
def leftDepth : Tree N → Nat
  | .nil => 0
  | .node _ l _ _ => leftDepth l + 1

/- The leftmost node fills its frames. -/
theorem fill_leftmost (c : Color) (l : Tree N) (n : N) (r : Tree N) :
    fill (leftmost c l n r).frames (.node (leftmost c l n r).color .nil (leftmost c l n r).label
        (leftmost c l n r).right) = .node c l n r := by
  induction l generalizing c n r with
  | nil => rfl
  | node c' l' n' r' ih ih' =>
    simp only [leftmost, fill_append, ih]
    rfl

/- Whatever fills these frames comes first. -/
theorem exists_toList_fill_leftmost
    (c : Color) (l : Tree N) (n : N) (r : Tree N) :
    ∃ after, ∀ t, (fill (leftmost c l n r).frames t).toList = t.toList ++ after := by
  induction l generalizing c n r with
  | nil => exact ⟨[], by simp [leftmost]⟩
  | node c' l' n' r' ih ih' =>
    rcases ih c' n' r' with ⟨after, hFill⟩
    refine ⟨after ++ n :: r.toList, ?_⟩
    intro t
    simp [leftmost, fill_append, hFill, Frame.fill, Tree.mk]

variable {l r : Tree N}

/- All frames above the leftmost node lean left. -/
theorem side_of_mem_leftmost {c : Color} {n : N} {f : Frame N}
    (hMem : f ∈ (leftmost c l n r).frames) : f.side = .left := by
  induction l generalizing c n r with
  | nil => simp [leftmost] at hMem
  | node c' l' n' r' ih ih' =>
    simp only [leftmost, mem_append, mem_singleton] at hMem
    rcases hMem with hMem | rfl
    · exact ih hMem
    · rfl

variable {fs : List (Frame N)}

/-
  The leftmost node of a balanced tree sits in a hole of its
  own height.
-/
theorem hole_leftmost {c : Color} {n : N} {k : Nat}
    (hTree : (RedBlack.Tree.node c l n r).Balanced k)
    (hHole : Hole k fs) (hColor : c = .black ∨ HeadBlack fs) :
    ∃ j, (RedBlack.Tree.node (leftmost c l n r).color .nil
      (leftmost c l n r).label (leftmost c l n r).right).Balanced j ∧
      Hole j ((leftmost c l n r).frames ++ fs) ∧
      ((leftmost c l n r).color = .black ∨ HeadBlack ((leftmost c l n r).frames ++ fs)) := by
  induction l generalizing c n r fs k with
  | nil => exact ⟨k, hTree, hHole, hColor⟩
  | node c' l' n' r' ih ih' =>
    simp only [leftmost, append_assoc, singleton_append]
    rcases hHole.children hTree hColor n with ⟨j, ⟨hl, hcl, hLeft⟩, -⟩
    exact ih hl hLeft hcl

---
-- Removal from a Tree
---

/- Put `x` in the place of a removed node of colour `c`. -/
def removeAbove (c : Color) (x : Tree N) (fs : List (Frame N)) : Tree N :=
  if c = .red then fill fs x
  else if x.color = .red then fill fs x.blacken
  else removeRepair x fs

/- The tree after the node under the frames is removed. -/
def removeAt (c : Color) (l r : Tree N) (fs : List (Frame N)) : Tree N :=
  match l, r with
  | .node _ _ _ _, .node c₁ l₁ n₁ r₁ =>
    let low := leftmost c₁ l₁ n₁ r₁
    let gs :=
      low.frames ++ ⟨.right, c, low.label, l⟩ :: fs
    if low.color = .red then fill gs low.right
    else removeRepair low.right gs
  | .nil, x => removeAbove c x fs
  | .node c₀ l₀ n₀ r₀, .nil => removeAbove c (.node c₀ l₀ n₀ r₀) fs

variable [DecidableEq N]

/- The tree after a removal, `none` when `n` is not found. -/
def removeFrom (cmp : N → N → Side) (n : N) : Tree N → List (Frame N) → Option (Tree N)
  | .nil, _ => none
  | .node c l q r, fs =>
    if q = n then
      some (removeAt c l r fs)
    else
      match cmp q n with
      | .left => removeFrom cmp n l (⟨.left, c, q, r⟩ :: fs)
      | .right => removeFrom cmp n r (⟨.right, c, q, l⟩ :: fs)

/- The tree after the call. -/
def removeTree (cmp : N → N → Side) (n : N) (t : Tree N) : Tree N :=
  match removeFrom cmp n t [] with
  | none => t
  | some u => u.blacken

/- The entries pushed below a found node. -/
def foundDepth : Tree N → Tree N → Nat
  | .node _ _ _ _, .node _ l _ _ => leftDepth l + 1
  | _, _ => 0

/- The number of stack entries of a removal. -/
def removeDepth (cmp : N → N → Side) (n : N) : Tree N → Nat
  | .nil => 0
  | .node _ l q r =>
    if q = n then
      foundDepth l r
    else
      match cmp q n with
      | .left => removeDepth cmp n l + 1
      | .right => removeDepth cmp n r + 1

omit [DecidableEq N] in
theorem leftDepth_le_height (t : Tree N) : leftDepth t ≤ t.height := by
  induction t with
  | nil => simp [leftDepth]
  | node c l n r ih ih' =>
    simp only [leftDepth, RedBlack.Tree.height]
    omega

theorem removeDepth_le_height
    (cmp : N → N → Side) (n : N) (t : Tree N) : removeDepth cmp n t ≤ t.height := by
  induction t with
  | nil => simp [removeDepth]
  | node c l q r ihLeft ihRight =>
    unfold removeDepth
    split
    · unfold foundDepth
      split
      · rename_i l₁ _ _
        have hLeft := leftDepth_le_height l₁
        simp only [RedBlack.Tree.height]
        omega
      · simp
    · cases hDir : cmp q n <;> simp only [RedBlack.Tree.height] <;> omega

omit [DecidableEq N] in
theorem toList_removeAbove
    (c : Color) (x : Tree N) (fs : List (Frame N)) :
    (removeAbove c x fs).toList = (fill fs x).toList := by
  unfold removeAbove
  split
  · rfl
  · split
    · exact toList_fill_congr (Tree.toList_blacken x)
    · exact toList_removeRepair fs x

omit [DecidableEq N] in
/- Removing a node leaves the labels on both its sides. -/
theorem toList_removeAt {c : Color} {before after : List N}
    (hFill : ∀ t, (fill fs t).toList = before ++ t.toList ++ after) :
    (removeAt c l r fs).toList = before ++ (l.toList ++ r.toList) ++ after := by
  unfold removeAt
  split
  · rename_i c₀ l₀ n₀ r₀ c₁ l₁ n₁ r₁
    dsimp only
    have hList : (fill ((leftmost c₁ l₁ n₁ r₁).frames ++ ⟨.right, c,
          (leftmost c₁ l₁ n₁ r₁).label, .node c₀ l₀ n₀ r₀⟩ :: fs)
          (leftmost c₁ l₁ n₁ r₁).right).toList = before ++
          ((RedBlack.Tree.node c₀ l₀ n₀ r₀).toList ++
          (RedBlack.Tree.node c₁ l₁ n₁ r₁).toList) ++ after := by
      rcases exists_toList_fill_leftmost c₁ l₁ n₁ r₁ with ⟨rest, hLow⟩
      have hWhole := congrArg Tree.toList (fill_leftmost c₁ l₁ n₁ r₁)
      rw [hLow] at hWhole
      rw [fill_append, fill_cons, hFill, Frame.fill, Tree.mk, Tree.toList_node, hLow, ← hWhole]
      simp
    split
    · exact hList
    · rw [toList_removeRepair]
      exact hList
  · rw [toList_removeAbove, hFill]
    simp
  · rw [toList_removeAbove, hFill]
    simp

omit [DecidableEq N] in
/- A red node with one subtree has no other node below it. -/
theorem removeAbove_balanced {c : Color} {x : Tree N} {n : N}
    {k : Nat} {d : Side} (hTree : (Tree.mk d c x n .nil).Balanced k)
    (hHole : Hole k fs) (hColor : c = .black ∨ HeadBlack fs) :
    ∃ j, (removeAbove c x fs).blacken.Balanced j := by
  unfold removeAbove
  cases c with
  | red =>
    rw [Tree.balanced_mk_red] at hTree
    rcases hTree with ⟨⟨hBlack, -⟩, hx, -⟩
    rw [if_pos rfl]
    rcases balanced_fill hHole hx (Or.inl hBlack) with ⟨j, hFill⟩
    exact hFill.blacken
  | black =>
    rcases hTree.exists_of_mk_black with ⟨j, rfl, hx, hNil⟩
    rw [if_neg (by simp)]
    split
    · rename_i hRed
      have hRaised : x.blacken.Balanced (j + 1) := by
        cases x with
        | nil => simp [Tree.color] at hRed
        | node xc l y r =>
          cases xc with
          | red => exact hx.2.2
          | black => simp [Tree.color] at hRed
      rcases balanced_fill hHole hRaised (Or.inl (Tree.color_blacken x)) with ⟨j', hFill⟩
      exact hFill.blacken
    · exact removeRepair_balanced hHole hx

omit [DecidableEq N] in
/- Removing a node of a balanced tree keeps the balance. -/
theorem removeAt_balanced {c : Color} {l r : Tree N} {n : N}
    {fs : List (Frame N)} {k : Nat} (hTree : (RedBlack.Tree.node c l n r).Balanced k)
    (hHole : Hole k fs) (hColor : c = .black ∨ HeadBlack fs) :
    ∃ j, (removeAt c l r fs).blacken.Balanced j := by
  unfold removeAt
  split
  · rename_i c₀ l₀ n₀ r₀ c₁ l₁ n₁ r₁
    dsimp only
    -- The right subtree sits in a hole beside the left one.
    rcases hHole.children hTree hColor (leftmost c₁ l₁ n₁ r₁).label with
      ⟨i, -, hr, hHead, hHoleRight⟩
    rcases hole_leftmost hr hHoleRight hHead with ⟨j, hLow, hHoleLow, hColorLow⟩
    split
    · rename_i hRed
      rw [hRed] at hLow hColorLow
      rcases balanced_fill hHoleLow hLow.2.2.2 (Or.inl hLow.2.1) with ⟨j', hFill⟩
      exact hFill.blacken
    · rename_i hNotRed
      have hBlack : (leftmost c₁ l₁ n₁ r₁).color = .black := by
        cases hc : (leftmost c₁ l₁ n₁ r₁).color <;> simp_all
      rw [hBlack] at hLow
      cases j with
      | zero => exact hLow.elim
      | succ j => exact removeRepair_balanced hHoleLow hLow.2
  · exact removeAbove_balanced (d := .right) hTree hHole hColor
  · exact removeAbove_balanced (d := .left) hTree hHole hColor

variable {cmp : N → N → Side} {t : Tree N}

/- Both facts for the tree found under the frames. -/
theorem removeFrom_balanced {n : N} {u : Tree N} {k : Nat}
    (hFound : removeFrom cmp n t fs = some u) (hTree : t.Balanced k)
    (hHole : Hole k fs) (hColor : t.color = .black ∨ HeadBlack fs) : ∃ j, u.blacken.Balanced j := by
  induction t generalizing fs k with
  | nil => simp [removeFrom] at hFound
  | node c l q r ihLeft ihRight =>
    unfold removeFrom at hFound
    split at hFound
    · rw [Option.some.injEq] at hFound
      subst hFound
      exact removeAt_balanced hTree hHole hColor
    · rcases hHole.children hTree hColor q with ⟨i, ⟨hl, hcl, hHoleLeft⟩, ⟨hr, hcr, hHoleRight⟩⟩
      cases hDir : cmp q n with
      | left =>
        simp only [hDir] at hFound
        exact ihLeft hFound hl hHoleLeft hcl
      | right =>
        simp only [hDir] at hFound
        exact ihRight hFound hr hHoleRight hcr

/- Removal keeps the balance. -/
theorem removeTree_balanced (cmp : N → N → Side) (n : N) {k : Nat}
    (hTree : t.Balanced k) : ∃ j, (removeTree cmp n t).Balanced j := by
  unfold removeTree
  split
  · exact ⟨k, hTree⟩
  · rename_i hFound
    exact removeFrom_balanced hFound hTree trivial (Or.inr trivial)

/- A removal that finds the node takes its label out. -/
theorem toList_removeFrom {n : N} {u : Tree N}
    (hFound : removeFrom cmp n t fs = some u) :
    ∃ before after, (fill fs t).toList = before ++ n :: after ∧ u.toList = before ++ after := by
  induction t generalizing fs with
  | nil => simp [removeFrom] at hFound
  | node c l q r ihLeft ihRight =>
    unfold removeFrom at hFound
    split at hFound
    · rename_i hq
      subst hq
      rw [Option.some.injEq] at hFound
      subst hFound
      rcases exists_toList_fill fs with ⟨before, after, hFill⟩
      refine ⟨before ++ l.toList, r.toList ++ after, ?_, ?_⟩
      · rw [hFill]
        simp
      · rw [toList_removeAt hFill]
        simp
    · cases hDir : cmp q n with
      | left =>
        simp only [hDir] at hFound
        exact ihLeft hFound
      | right =>
        simp only [hDir] at hFound
        exact ihRight hFound

/- Following the callback finds every node of the tree. -/
theorem removeFrom_ne_none {n : N} (hMem : n ∈ t.toList)
    (hOrder : t.toList.Pairwise fun a b =>
      cmp a b = .right ∧ cmp b a = .left) (fs : List (Frame N)) : removeFrom cmp n t fs ≠ none := by
  induction t generalizing fs with
  | nil => simp at hMem
  | node c l q r ihLeft ihRight =>
    rw [Tree.toList_node, pairwise_append, pairwise_cons] at hOrder
    rcases hOrder with ⟨hl, ⟨hqr, hr⟩, hlr⟩
    unfold removeFrom
    split
    · simp
    · rename_i hq
      simp only [Tree.toList_node, mem_append, mem_cons] at hMem
      rcases hMem with hMem | rfl | hMem
      · have hDir : cmp q n = .left := (hlr n hMem q (by simp)).2
        simp only [hDir]
        exact ihLeft hMem hl _
      · exact (hq rfl).elim
      · have hDir : cmp q n = .right := (hqr n hMem).1
        simp only [hDir]
        exact ihRight hMem hr _

/- The labels after a removal. -/
theorem toList_removeTree (n : N) (hNodup : t.toList.Nodup)
    (hOrder : t.toList.Pairwise fun a b =>
      cmp a b = .right ∧ cmp b a = .left) :
    (removeTree cmp n t).toList = t.toList.filter (fun k => decide (k ≠ n)) := by
  unfold removeTree
  cases hFound : removeFrom cmp n t [] with
  | none =>
    have hMem : n ∉ t.toList := fun h => removeFrom_ne_none h hOrder [] hFound
    symm
    rw [filter_eq_self]
    intro k hk
    simp only [decide_eq_true_eq]
    rintro rfl
    exact hMem hk
  | some u =>
    rcases toList_removeFrom hFound with ⟨before, after, hOld, hNew⟩
    rw [fill_nil] at hOld
    rw [hOld, perm_middle.nodup_iff, nodup_cons, mem_append, not_or] at hNodup
    have hKeep : ∀ s : List N, n ∉ s → s.filter (fun k => decide (k ≠ n)) = s := by
      intro s hs
      rw [filter_eq_self]
      intro k hk
      simp only [decide_eq_true_eq]
      rintro rfl
      exact hs hk
    rw [Tree.toList_blacken, hNew, hOld, filter_append, filter_cons,
      hKeep before hNodup.1.1, hKeep after hNodup.1.2]
    simp

end

---
-- The Rebalancing Loop Refines the Tree
---

open Option Function
variable {N : Type} [DecidableEq N]

variable {m : Mem N} {stack : Stack N} {fs : List (Frame N)}
  {r : Link N} {n : N}

/- The colours after a rotation of the removal loop. -/
theorem recolorTop_spec {d d₁ d₂ : Side} {nc ac bc : Color}
    {a₁ : Tree N} {a : N} {a₂ : Tree N} {b₁ : Tree N} {b : N}
    {b₂ : Tree N} (hFocus :
      Focus m stack fs r (Tree.mk d nc (Tree.mk d₁ ac a₁ a a₂) n
        (Tree.mk d₂ bc b₁ b b₂))) (c : Color) :
    ∃ m', recolorTop m n c = some m' ∧
      Focus m' stack fs r (Tree.mk d c (Tree.mk d₁ .black a₁ a a₂) n
        (Tree.mk d₂ .black b₁ b b₂)) := by
  have hSons : ∀ {d d₁ d₂ : Side} {ac bc : Color}
        {a₁ : Tree N} {a : N} {a₂ b₁ : Tree N} {b : N} {b₂ : Tree N},
        Focus m stack fs r (Tree.mk d nc (Tree.mk d₁ ac a₁ a a₂) n
          (Tree.mk d₂ bc b₁ b b₂)) →
        (m.node n).son d = some a ∧ (m.node n).son d.flip = some b ∧ n ≠ a := by
    intro d d₁ d₂ ac bc a₁ a a₂ b₁ b b₂ hFocus
    rcases repr_mk.mp hFocus.repr with ⟨-, -, hNear, hFar⟩
    refine ⟨(repr_mk.mp hNear).1, (repr_mk.mp hFar).1, ?_⟩
    have hNodup := (nodup_append.mp hFocus.nodup).1
    rw [(Tree.toList_mk_perm d nc _ n _).nodup_iff, nodup_cons] at hNodup
    rintro rfl
    exact hNodup.1 (by simp)
  cases d with
  | left =>
    rcases hSons hFocus with ⟨hNear, hFar, hNe⟩
    have hFar' : (m.node n).son .right = some b := hFar
    refine ⟨_, ?_, hFocus.recolor c⟩
    simp [recolorTop, Mem.setColor, hNear, hFar', update_of_ne hNe]
  | right =>
    have hFlip := hFocus
    rw [← Side.flip_flip .right, Tree.mk_flip] at hFlip
    rcases hSons hFlip with ⟨hNear, hFar, hNe⟩
    have hNear' : (m.node n).son .left = some b := hNear
    have hFar' : (m.node n).son .right = some a := hFar
    have hColored := hFlip.recolor c
    rw [← Tree.mk_flip, Side.flip_flip] at hColored
    refine ⟨_, ?_, hColored⟩
    simp [recolorTop, Mem.setColor, hNear', hFar', update_of_ne hNe]

variable {c qc : Color} {x e far : Tree N} {q : N}

/- The colours when the sibling has no red child. -/
theorem darken_spec {d : Side} (hFocus :
      Focus m stack fs r (Tree.mk d c x n (Tree.mk d qc e q far))) :
    Focus ((m.setColor n .black).setColor q .red) stack fs r
      (Tree.mk d .black x n (Tree.mk d .red e q far)) := by
  have hNodup := (nodup_append.mp hFocus.nodup).1
  have hApart := hNodup
  rw [(toList_nested_perm d c qc x n e q far).nodup_iff] at hApart
  simp only [nodup_cons, mem_cons, mem_append, not_or] at hApart
  rcases hApart with ⟨⟨hnq, -⟩, ⟨hqx, -⟩, -⟩
  have hNodupFar : (Tree.mk d qc e q far).toList.Nodup := by
    rw [(Tree.toList_mk_perm d c x n _).nodup_iff, nodup_cons, nodup_append] at hNodup
    exact hNodup.2.2.1
  have hFirst := hFocus.repr.setColor .black hNodup
  rcases repr_mk.mp hFirst with ⟨hp, hc, hNear, hFar⟩
  refine hFocus.rewriteKeep ?_ ?_ (by cases d <;> simp [Tree.mk])
  · refine EqOff.trans (eqOff_setColor ?_) (eqOff_setColor ?_) <;> simp
  · rw [repr_mk]
    have hNode : ((m.setColor n .black).setColor q .red).node n = (m.setColor n .black).node n := by
      simp [Mem.setColor, update_of_ne hnq]
    rw [hNode]
    exact ⟨hp, hc, hNear.setColor_of_notMem hqx, hFar.setColor _ hNodupFar⟩

/- One pass through the body of the loop follows `lift`. -/
theorem liftStep_spec {d : Side} (hFocus :
      Focus m stack fs r (Tree.mk d c x n (Tree.mk d qc e q far))) :
    ∃ m',
      liftStep m r n q d =
          some (m', (lift c d x n (Tree.mk d qc e q far)).2) ∧
        Focus m' stack fs r (lift c d x n (Tree.mk d qc e q far)).1 := by
  have hNodup := (nodup_append.mp hFocus.nodup).1
  have hRepr := hFocus.repr
  rcases repr_mk.mp hRepr with ⟨hRead, hColor, hx, hInner⟩
  rw [hRead] at hRepr
  rcases repr_mk.mp hInner with ⟨-, -, hNear, hFar⟩
  unfold liftStep lift
  simp only [Tree.view_mk, hColor]
  by_cases hFarRed : far.color = .red
  · rw [if_pos ((isRed_iff hFar).mpr hFarRed), if_pos hFarRed]
    cases hView : far.view d with
    | none =>
      rw [Tree.view_eq_none hView] at hFarRed
      simp [Tree.color] at hFarRed
    | some node =>
      rcases node with ⟨fc, far₁, y, far₂⟩
      have hf := Tree.view_eq_some hView
      subst hf
      rcases singleRotation_spec hRepr hNodup with ⟨m₁, hRotate, hEq, hTop⟩
      have hRotated : Focus (m₁.write r (some q)) stack fs r _ :=
        hFocus.rewriteWrite (hEq.mono (by
          intro k hk
          simp only [mem_cons, not_mem_nil, or_false] at hk
          simp only [Tree.mem_toList_mk]
          tauto)) hTop (by cases d <;> simp [Tree.mk])
      rcases recolorTop_spec hRotated c with ⟨m₂, hColors, hDone⟩
      refine ⟨m₂, ?_, by simpa using hDone⟩
      simp [hRotate, hColors]
  · rw [if_neg (fun h => hFarRed ((isRed_iff hFar).mp h)), if_neg hFarRed]
    cases hView : e.view d with
    | none =>
      have he := Tree.view_eq_none hView
      subst he
      rw [if_neg (by rw [isRed_iff hNear]; simp [Tree.color])]
      exact ⟨_, rfl, darken_spec hFocus⟩
    | some node =>
      rcases node with ⟨ec, e₁, p, e₂⟩
      have he := Tree.view_eq_some hView
      subst he
      cases ec with
      | black =>
        rw [if_neg (by rw [isRed_iff hNear]; simp)]
        exact ⟨_, rfl, darken_spec hFocus⟩
      | red =>
        rw [if_pos ((isRed_iff hNear).mpr (by simp))]
        rcases doubleRotation_spec hRepr hNodup with ⟨m₁, hRotate, hEq, hTop⟩
        have hRotated : Focus (m₁.write r (some p)) stack fs r _ :=
          hFocus.rewriteWrite (hEq.mono (by
            intro k hk
            simp only [mem_cons, not_mem_nil, or_false] at hk
            simp only [Tree.mem_toList_mk]
            tauto)) hTop (by cases d <;> simp [Tree.mk])
        rcases recolorTop_spec hRotated c with ⟨m₂, hColors, hDone⟩
        refine ⟨m₂, ?_, hDone⟩
        simp [hRotate, hColors]

/- The loop follows `removeRepair`. -/
theorem removeRebalance_spec (hFocus : Focus m stack fs r x) :
    ∃ m', removeRebalance m stack = some m' ∧ Repr m' m'.root (removeRepair x fs) := by
  induction fs generalizing m stack r x with
  | nil =>
    cases stack with
    | cons entry stack => exact hFocus.path.elim
    | nil => exact ⟨m, rfl, hFocus.toRoot.1⟩
  | cons f fs ih =>
    cases stack with
    | nil => exact hFocus.path.elim
    | cons entry stack =>
      rcases entry with ⟨up, dir⟩
      rcases hFocus.pop with ⟨rfl, hUp⟩
      have hNodup := (nodup_append.mp hUp.nodup).1
      have hRepr := hUp.repr
      rcases repr_mk.mp hRepr with ⟨hRead, -, hNear, hFar⟩
      rw [hRead] at hRepr
      unfold removeRebalance removeRepair
      simp only [hRead, bind_eq_bind, bind_some]
      cases hView : f.sibling.view f.side with
      | none =>
        -- No sibling: nothing happens on this level.
        have hs := Tree.view_eq_none hView
        rw [hs, repr_nil] at hFar
        simp only [hFar, Mem.isRed, Bool.false_eq_true, if_false, lift, hView]
        rcases ih hUp with ⟨m', hLoop, hTree⟩
        refine ⟨m', hLoop, ?_⟩
        rw [Frame.fill, hs] at hTree
        exact hTree
      | some node =>
        rcases node with ⟨sc, e, q, far⟩
        have hs := Tree.view_eq_some hView
        rw [hs] at hFar
        rw [Frame.fill, hs] at hUp hRepr hNodup
        have hSon := (repr_mk.mp hFar).1
        cases sc with
        | black =>
          have hBlack : ¬ m.isRed ((m.node f.label).son f.side.flip) =
                  true := by
            rw [isRed_iff hFar]
            simp
          rw [if_neg hBlack]
          simp only [hSon]
          rcases liftStep_spec hUp with ⟨m₁, hStep, hNext⟩
          rw [hStep, ← hs]
          rw [← hs] at hNext
          simp only [bind_some]
          split
          · exact ⟨m₁, rfl, hNext.toRoot.1⟩
          · exact ih hNext
        | red =>
          have hRed : m.isRed ((m.node f.label).son f.side.flip) =
                  true := (isRed_iff hFar).mpr (by simp)
          rw [if_pos hRed]
          rcases singleRotation_spec hRepr hNodup with ⟨m₁, hRotate, hEq, hTop⟩
          have hRotated : Focus (m₁.write up (some q)) stack fs up _ :=
            hUp.rewriteWrite (hEq.mono (by
              intro k hk
              simp only [mem_cons, not_mem_nil, or_false] at hk
              simp only [Tree.mem_toList_mk]
              tauto)) hTop
              (by cases f.side <;> simp [Tree.mk])
          simp only [hRotate, bind_some]
          rcases hRotated.push with ⟨-, hLow⟩
          cases hInner : e.view f.side with
          | none =>
            have he := Tree.view_eq_none hInner
            subst he
            have hNone := (repr_mk.mp hLow.repr).2.2.2
            rw [repr_nil] at hNone
            simp only [hNone, lift, Tree.view_nil, Bool.false_eq_true, if_false]
            exact ih hRotated
          | some node =>
            rcases node with ⟨ec, e₁, p, e₂⟩
            have he := Tree.view_eq_some hInner
            subst he
            have hSome := (repr_mk.mp (repr_mk.mp hLow.repr).2.2.2).1
            rcases liftStep_spec hLow with ⟨m₂, hStep, hNext⟩
            simp only [hSome, hStep, bind_some]
            rcases hNext.pop with ⟨-, hBack⟩
            split
            · exact ⟨m₂, rfl, hBack.toRoot.1⟩
            · exact ih hBack

---
-- The Successor Takes the Place of the Node
---

variable {room : Nat} {p : Link N} {l : Tree N}

omit [DecidableEq N] in
/- Going left follows `leftmost` while there is room. -/
theorem leftmostDescend_spec (stack : Stack N) {r : Tree N}
    (hRepr : Repr m (m.read p) (.node c l q r))
    (hRoom : leftDepth l ≤ room) :
    ∃ p' entries,
      leftmostDescend m room p q stack =
          some (p', (leftmost c l q r).label, entries ++ stack) ∧
        Seg m entries (leftmost c l q r).frames p' p ∧
        Repr m (m.read p') (.node (leftmost c l q r).color .nil
          (leftmost c l q r).label (leftmost c l q r).right) := by
  induction l generalizing room p stack c q r with
  | nil =>
    have hSon : (m.node q).son .left = none := hRepr.2.2.1
    refine ⟨p, [], ?_, rfl, hRepr⟩
    unfold leftmostDescend
    simp [hSon, leftmost]
  | node c' l' t r' ih ih' =>
    rcases hRepr with ⟨hRead, hColor, hl, hr⟩
    have hSon : (m.node q).son .left = some t := hl.1
    cases room with
    | zero => simp [leftDepth] at hRoom
    | succ room =>
      have hRoom' : leftDepth l' ≤ room := by
        simpa [leftDepth] using hRoom
      have hLow : Repr m (m.read (.son q .left)) (.node c' l' t r') := hl
      rcases ih ((p, .left) :: stack) hLow hRoom' with ⟨p', entries, hDescend, hSeg, hEnd⟩
      refine ⟨p', entries ++ [(p, .left)], ?_, ?_, hEnd⟩
      · unfold leftmostDescend
        simp only [hSon, hDescend]
        simp [leftmost]
      · exact seg_append hSeg ⟨rfl, rfl, hRead, hColor, hr, rfl⟩

omit [DecidableEq N] in
/- Without room it writes behind the stack. -/
theorem leftmostDescend_eq_none (stack : Stack N) {r : Tree N}
    (hRepr : Repr m (m.read p) (.node c l q r))
    (hRoom : room < leftDepth l) : leftmostDescend m room p q stack = none := by
  induction l generalizing room p stack c q r with
  | nil => simp [leftDepth] at hRoom
  | node c' l' t r' ih ih' =>
    rcases hRepr with ⟨-, -, hl, -⟩
    have hSon : (m.node q).son .left = some t := hl.1
    unfold leftmostDescend
    cases room with
    | zero => simp [hSon]
    | succ room =>
      simp only [hSon]
      have hLow : Repr m (m.read (.son q .left)) (.node c' l' t r') := hl
      exact ih _ hLow (by simpa [leftDepth] using hRoom)

variable {entries : Stack N} {gs : List (Frame N)} {base : Link N}

omit [DecidableEq N] in
/- The label of a filled leftmost node is not a frame label. -/
theorem Seg.split (hSeg : Seg m (entries ++ stack) (gs ++ fs) r base)
    (hLength : entries.length = gs.length) :
    ∃ mid, Seg m entries gs r mid ∧ Seg m stack fs mid base := by
  induction entries generalizing gs r with
  | nil =>
    cases gs with
    | nil => exact ⟨r, rfl, hSeg⟩
    | cons g gs => simp at hLength
  | cons entry entries ih =>
    cases gs with
    | nil => simp at hLength
    | cons g gs =>
      rcases hSeg with ⟨hd, hr, hRead, hc, hSib, hSeg⟩
      rcases ih hSeg (by simpa using hLength) with ⟨mid, hLow, hHigh⟩
      exact ⟨mid, ⟨hd, hr, hRead, hc, hSib, hLow⟩, hHigh⟩

omit [DecidableEq N] in
/-
  When the node at the base moves, the lowest entry is the
  only one to be corrected.
-/
theorem Seg.rebase {m' : Mem N} {base' : Link N}
    (hSeg : Seg m entries gs r base) (hSide : ∀ f ∈ gs, f.side = .left)
    (hEq : ∀ n ∈ labels gs, m'.node n = m.node n)
    (hBase : m'.read base' = m.read base) :
    Seg m' (entries.set (entries.length - 1) (base', .left)) gs
      (if entries = [] then base' else r) base' := by
  induction entries generalizing gs r with
  | nil =>
    cases gs with
    | nil => rfl
    | cons g gs => exact hSeg.elim
  | cons entry entries ih =>
    cases gs with
    | nil => exact hSeg.elim
    | cons g gs =>
      rcases hSeg with ⟨hd, hr, hRead, hc, hSib, hSeg⟩
      have hNode : m'.node g.label = m.node g.label := hEq g.label (by simp)
      have hRest : ∀ n ∈ labels gs, m'.node n = m.node n := fun n hn => hEq n (by simp [hn])
      have hLow := ih hSeg (fun f hf => hSide f (by simp [hf])) hRest
      have hSib' : Repr m' ((m'.node g.label).son g.side.flip) g.sibling := by
        rw [hNode]
        exact hSib.congr (fun n hn => hEq n (by simp [hn]))
      have hc' : (m'.node g.label).color = g.color := by
        rw [hNode]
        exact hc
      cases entries with
      | nil =>
        cases gs with
        | cons g' gs => exact hSeg.elim
        | nil =>
          have hUp : entry.1 = base := hSeg
          refine ⟨(hSide g (by simp)).symm, hr, ?_, hc', hSib', rfl⟩
          rw [hBase, ← hUp]
          exact hRead
      | cons next entries =>
        cases gs with
        | nil => exact hSeg.elim
        | cons g' gs =>
          have hUp : m'.read entry.1 = some g.label := by
            rw [hSeg.2.1] at hRead ⊢
            simp only [Mem.read] at hRead ⊢
            rw [hRest g'.label (by simp)]
            exact hRead
          exact ⟨hd, hr, hUp, hc', hSib', hLow⟩

variable {rt : Link N}

/-
  `memcpy(q, node)`, `*rt = q` and the correction of the
  stack put the free node `q` in the place of `n`.
-/
theorem Focus.relabel (hFocus :
      Focus m (entries ++ (rt, .right) :: stack) (gs ++ ⟨.right, c, n, l⟩ :: fs) r x)
    (hLength : entries.length = gs.length) (hSide : ∀ f ∈ gs, f.side = .left)
    (hFresh : q ∉ x.toList ++ labels (gs ++ ⟨.right, c, n, l⟩ :: fs)) :
    Focus ((m.copy q n).write rt (some q))
      (entries.set (entries.length - 1) (.son q .right, .left) ++ (rt,
      .right) :: stack) (gs ++ ⟨.right, c, q, l⟩ :: fs)
      (if entries = [] then .son q .right else r) x := by
  rcases hFocus with ⟨hPath, hRepr, hNodup⟩
  rcases hPath.split hLength with ⟨mid, hLow, hd, rfl, hRead, hc, hSib, hHigh⟩
  simp only [labels_append, labels_cons] at hFresh hNodup
  have hNodupSet : (x.toList ++ (labels gs ++ q :: (l.toList ++ labels fs))).Nodup := by
    have hPerm : ∀ k : N, (x.toList ++
          (labels gs ++ k :: (l.toList ++ labels fs))).Perm (k ::
          (x.toList ++ (labels gs ++ (l.toList ++ labels fs)))) := by
      intro k
      refine (List.perm_middle.append_left _).trans ?_
      exact perm_middle
    rw [(hPerm n).nodup_iff, nodup_cons] at hNodup
    rw [(hPerm q).nodup_iff, nodup_cons]
    refine ⟨?_, hNodup.2⟩
    intro hMem
    apply hFresh
    simp only [mem_append, mem_cons] at hMem ⊢
    tauto
  simp only [nodup_append, nodup_cons, mem_append, mem_cons, not_or] at hNodup
  simp only [mem_append, mem_cons, not_or] at hFresh
  let m' := (m.copy q n).write rt (some q)
  have hEqCopy : EqOff [q] m (m.copy q n) := by
    refine ⟨rfl, fun k hk => ?_⟩
    have hNe : k ≠ q := by
      simpa using hk
    simp [Mem.copy, update_of_ne hNe]
  have hEq : EqOff [q] (m.write rt (some q)) m' := hEqCopy.write
  rcases Path.replace hHigh hEq (by
      intro k hk hMem
      rw [mem_singleton] at hMem
      exact hFresh.2.2.2.2 (hMem ▸ hk))
      hNodup.2.1.2.1.2.2.1 with ⟨hHigh', hReadTop⟩
  -- Off `q` and off the node that holds `rt`, all is as before.
  have hSame : ∀ k, k ≠ q → k ∉ labels fs → m'.node k = m.node k := by
    intro k hk hkf
    rw [hEq.2 k (by simpa using hk)]
    rcases Path.link hHigh with ⟨rfl, -⟩ | ⟨f, fs', rfl, rfl⟩
    · rfl
    · have hNe : k ≠ f.label := by
        rintro rfl
        exact hkf (by simp)
      simp [Mem.write, update_of_ne hNe]
  have hCopied : m'.node q = m.node n := by
    have hNode : (m.copy q n).node q = m.node n := by
      simp [Mem.copy]
    rcases Path.link hHigh with ⟨rfl, -⟩ | ⟨f, fs', rfl, rfl⟩
    · exact hNode
    · have hNe : q ≠ f.label := by
        rintro rfl
        exact hFresh.2.2.2.2 (by simp)
      simp [m', Mem.write, update_of_ne hNe, hNode]
  rcases hNodup with ⟨-, ⟨-, ⟨-, -, -, hSibApart⟩, hLowApart⟩, hTreeApart⟩
  have hBase : m'.read (.son q .right) = m.read (.son n .right) := by
    simp [Mem.read, hCopied]
  have hLow' := hLow.rebase hSide (fun k hk => by
      apply hSame
      · rintro rfl
        exact hFresh.2.1 hk
      · intro hkf
        exact hLowApart k hk k (Or.inr (Or.inr hkf)) rfl) hBase
  have hSibling : Repr m' ((m'.node q).son .left) l := by
    rw [hCopied]
    refine hSib.congr ?_
    intro k hk
    apply hSame
    · rintro rfl
      exact hFresh.2.2.2.1 hk
    · intro hkf
      exact hSibApart k hk k hkf rfl
  have hRead' : m'.read (if entries = [] then .son q .right else r) = m.read r := by
    split
    · rename_i hEmpty
      subst hEmpty
      cases gs with
      | cons g gs => simp at hLength
      | nil => rw [hBase, show r = .son n .right from hLow]
    · rename_i hEntries
      cases entries with
      | nil => exact (hEntries rfl).elim
      | cons entry entries =>
        cases gs with
        | nil => simp at hLength
        | cons g gs =>
          rw [hLow.2.1]
          simp only [Mem.read]
          rw [hSame g.label]
          · rintro rfl
            exact hFresh.2.1 (by simp)
          · intro hkf
            exact hLowApart g.label (by simp) g.label (Or.inr (Or.inr hkf)) rfl
  refine ⟨seg_append hLow' ⟨rfl, rfl, hReadTop, ?_, hSibling, hHigh'⟩, ?_, ?_⟩
  · rw [hCopied]
    exact hc
  · rw [hRead']
    refine hRepr.congr ?_
    intro k hk
    apply hSame
    · rintro rfl
      exact hFresh.1 hk
    · intro hkf
      exact hTreeApart k hk k (Or.inr (Or.inr (Or.inr hkf))) rfl
  · simpa [labels_append] using hNodupSet

---
-- The Call Refines the Tree
---

variable {c₁ : Color} {l₁ r₁ : Tree N} {n₁ : N}

/- The case of two sons, when the stack suffices. -/
theorem removeTwo_spec {c₀ : Color} {l₀ : Tree N} {n₀ : N}
    {r₀ : Tree N} (hFocus :
      Focus m stack fs rt (.node c (.node c₀ l₀ n₀ r₀) n (.node c₁ l₁ n₁ r₁)))
    (hRoom : stack.length + (leftDepth l₁ + 1) ≤ stackSize) :
    ∃ m', removeTwo m n n₁ rt stack = some m' ∧ Repr m' m'.root
      (removeAt c (.node c₀ l₀ n₀ r₀) (.node c₁ l₁ n₁ r₁) fs) := by
  rcases Focus.push (d := .right) hFocus with ⟨-, hRight⟩
  rcases leftmostDescend_spec ((rt, .right) :: stack) hRight.repr
      (show leftDepth l₁ ≤ stackSize - (stack.length + 1) by omega) with
    ⟨p, entries, hDescend, hSeg, hLow⟩
  have hWhole := fill_leftmost c₁ l₁ n₁ r₁
  have hAllLeft : ∀ f ∈ (leftmost c₁ l₁ n₁ r₁).frames, f.side = .left :=
    fun f hf => side_of_mem_leftmost hf
  unfold removeAt
  dsimp only
  generalize leftmost c₁ l₁ n₁ r₁ = low at hDescend hSeg hLow hWhole hAllLeft ⊢
  rcases low with ⟨qc, q, x, gs⟩
  dsimp only at hDescend hSeg hLow hWhole hAllLeft ⊢
  -- The successor, seen at the end of the whole stack.
  have hDeep : Focus m (entries ++ (rt, .right) :: stack)
        (gs ++ ⟨.right, c, n, .node c₀ l₀ n₀ r₀⟩ :: fs) p (.node qc .nil q x) := by
    refine ⟨seg_append hSeg hRight.path, hLow, ?_⟩
    have hPerm := (toList_fill_perm (gs ++ ⟨.right, c, n,
      .node c₀ l₀ n₀ r₀⟩ :: fs) (.node qc .nil q x)).nodup_iff
    rw [fill_append, hWhole] at hPerm
    rw [← hPerm]
    exact hRight.toRoot.2
  have hRead : m.read p = some q := hDeep.repr.1
  have hApart := nodup_append.mp hDeep.nodup
  have hFresh : q ∉ x.toList ++ labels (gs ++ ⟨.right, c, n, .node c₀ l₀ n₀ r₀⟩ :: fs) := by
    intro hMem
    rcases mem_append.mp hMem with hMem | hMem
    · have hNodup := hApart.1
      simp only [Tree.toList_node, Tree.toList_nil, nil_append, nodup_cons] at hNodup
      exact hNodup.1 hMem
    · exact hApart.2.2 q (by simp) q hMem rfl
  -- Detach it.
  let m₁ := m.write p ((m.node q).son .right)
  have hDetached : Focus m₁ (entries ++ (rt, .right) :: stack)
        (gs ++ ⟨.right, c, n, .node c₀ l₀ n₀ r₀⟩ :: fs) p
        x := by
    refine hDeep.replace (EqOff.refl [] m₁) (by simp) ?_ ?_ ?_
    · have hSon := hDeep.repr
      rw [hRead] at hSon
      refine hSon.2.2.2.congr ?_
      intro k hk
      rcases hDeep.link_notMem with rfl | ⟨k', d, rfl, hk'⟩
      · rfl
      · have hNe : k ≠ k' := by
          rintro rfl
          exact hk' (by simp [hk])
        simp [m₁, Mem.write, update_of_ne hNe]
    · have hNodup := hApart.1
      simp only [Tree.toList_node, Tree.toList_nil, nil_append, nodup_cons] at hNodup
      exact hNodup.2
    · intro k hk hMem
      exact hApart.2.2 k (by simp [hk]) k hMem rfl
  have hColor : (m₁.node q).color = qc := by
    have hc : (m.node q).color = qc := hDeep.repr.2.1
    by_cases hk : ∃ d, p = .son q d
    · rcases hk with ⟨d, rfl⟩
      simpa [m₁, Mem.write] using hc
    · rcases p with - | ⟨k, d⟩
      · exact hc
      · have hNe : q ≠ k := by
          rintro rfl
          exact hk ⟨d, rfl⟩
        simp [m₁, Mem.write, update_of_ne hNe, hc]
  have hLength : entries.length = gs.length := hSeg.length_eq
  have hMoved := hDetached.relabel hLength hAllLeft hFresh
  have hNotFull : ¬ stackSize ≤ stack.length := by omega
  unfold removeTwo
  rw [if_neg hNotFull]
  dsimp only [length_cons]
  rw [hDescend]
  simp only [bind_eq_bind, bind_some]
  rw [hColor]
  split
  · exact ⟨_, rfl, hMoved.toRoot.1⟩
  · -- The corrected entry is the lowest one that was added.
    have hStack : (if stack.length + 1 <
            (entries ++ (rt, .right) :: stack).length then
          stackSet (entries ++ (rt, .right) :: stack) (stack.length + 1) (.son q .right, .left)
        else entries ++ (rt, .right) :: stack) =
        entries.set (entries.length - 1) (.son q .right, .left) ++ (rt, .right) :: stack := by
      cases entries with
      | nil => simp
      | cons entry entries =>
        have hMore : stack.length + 1 < (entry :: entries ++ (rt, .right) :: stack).length := by
          simp only [length_append, length_cons]
          omega
        rw [if_pos hMore]
        unfold stackSet
        have hIndex :
              (entry :: entries ++ (rt, .right) :: stack).length - 1 -
              (stack.length + 1) = (entry :: entries).length - 1 := by
          simp only [length_append, length_cons]
          omega
        rw [hIndex, set_append_left]
        simp
    rw [hStack]
    exact removeRebalance_spec hMoved

/- The case of at most one son. -/
theorem removeOne_spec {d : Side} {p : Option N}
    (hFocus : Focus m stack fs rt (Tree.mk d c x n .nil))
    (hSon : (m.node n).son d = p) :
    ∃ m', removeOne m n p rt stack = some m' ∧ Repr m' m'.root (removeAbove c x fs) := by
  have hApart := nodup_append.mp hFocus.nodup
  rcases repr_mk.mp hFocus.repr with ⟨-, hColor, hx, -⟩
  rw [hSon] at hx
  have hMem : ∀ k ∈ x.toList, k ∈ (Tree.mk d c x n .nil).toList := by
    intro k hk
    simp [hk]
  have hSame : ∀ k ∈ (Tree.mk d c x n .nil).toList, (m.write rt p).node k = m.node k := by
    intro k hk
    rcases hFocus.link_notMem with rfl | ⟨k', d', rfl, hk'⟩
    · rfl
    · have hNe : k ≠ k' := by
        rintro rfl
        exact hk' hk
      simp [Mem.write, update_of_ne hNe]
  have hDetached : Focus (m.write rt p) stack fs rt x := by
    refine hFocus.replace (EqOff.refl [] _) (by simp) ?_ ?_ ?_
    · exact hx.congr (fun k hk => hSame k (hMem k hk))
    · have hNodup := hApart.1
      rw [(Tree.toList_mk_perm d c x n .nil).nodup_iff] at hNodup
      simpa using (nodup_cons.mp hNodup).2
    · intro k hk hLabel
      exact hApart.2.2 k (hMem k hk) k hLabel rfl
  have hNodeColor : ((m.write rt p).node n).color = c := by
    rw [hSame n (by simp)]
    exact hColor
  have hRepr : Repr (m.write rt p) p x := hx.congr (fun k hk => hSame k (hMem k hk))
  have hLoop := removeRebalance_spec hDetached
  unfold removeOne removeAbove
  dsimp only
  rw [hNodeColor]
  split
  · exact ⟨_, rfl, hDetached.toRoot.1⟩
  · cases x with
    | nil =>
      rw [repr_nil] at hRepr
      subst hRepr
      simpa [Tree.color] using hLoop
    | node xc l k r =>
      rcases hRepr with ⟨rfl, hxc, -⟩
      have hBlack :
          Focus ((m.write rt (some k)).setColor k .black) stack fs rt (.node .black l k r) := by
        refine hDetached.rewriteKeep (eqOff_setColor (by simp)) ?_ rfl
        exact Repr.setColor (d := .left) _ hDetached.repr (nodup_append.mp hDetached.nodup).1
      cases xc with
      | red =>
        rw [if_pos (show (RedBlack.Tree.node .red l k r).color = .red from rfl)]
        exact ⟨_, if_pos hxc, hBlack.toRoot.1⟩
      | black =>
        rw [if_neg (show (RedBlack.Tree.node .black l k r).color ≠ .red by simp [Tree.color])]
        simpa [hxc] using hLoop

variable {cmp : N → N → Side} {t : Tree N}

/- The entries a search and the removal of its result need. -/
theorem removeSearch_spec (hFocus : Focus m stack fs rt t)
    (hRoom : removeDepth cmp n t ≤ room) :
    (removeFrom cmp n t fs = none ∧ removeSearch cmp n m room rt stack =
          some .missing) ∨
      ∃ c l r rt' stack' fs',
        removeFrom cmp n t fs = some (removeAt c l r fs') ∧
        removeSearch cmp n m room rt stack =
          some (.found rt' stack') ∧
        Focus m stack' fs' rt' (.node c l n r) ∧
        stack'.length + foundDepth l r ≤ stack.length + room := by
  induction t generalizing room rt stack fs with
  | nil =>
    have hRead : m.read rt = none := hFocus.repr
    left
    unfold removeSearch
    simp [removeFrom, hRead]
  | node c l q r ihLeft ihRight =>
    have hRead : m.read rt = some q := hFocus.repr.1
    unfold removeFrom removeSearch
    unfold removeDepth at hRoom
    simp only [hRead]
    by_cases hq : q = n
    · subst hq
      simp only [if_true] at hRoom ⊢
      exact Or.inr ⟨c, l, r, rt, stack, fs, rfl, rfl, hFocus, by omega⟩
    · simp only [if_neg hq] at hRoom ⊢
      cases room with
      | zero => cases hDir : cmp q n <;> simp [hDir] at hRoom
      | succ room =>
        cases hDir : cmp q n with
        | left =>
          simp only [hDir] at hRoom ⊢
          have hLow := ihLeft (Focus.push (d := .left) hFocus).2
            (show removeDepth cmp n l ≤ room by omega)
          simp only [length_cons] at hLow
          rw [show stack.length + (room + 1) = stack.length + 1 + room by omega]
          exact hLow
        | right =>
          simp only [hDir] at hRoom ⊢
          have hLow := ihRight (Focus.push (d := .right) hFocus).2
            (show removeDepth cmp n r ≤ room by omega)
          simp only [length_cons] at hLow
          rw [show stack.length + (room + 1) = stack.length + 1 + room by omega]
          exact hLow

/- Both cases together. -/
theorem removeFound_spec {r : Tree N} (hFocus : Focus m stack fs rt (.node c l n r))
    (hRoom : stack.length + foundDepth l r ≤ stackSize) :
    ∃ m', removeFound m n rt stack = some m' ∧ Repr m' m'.root (removeAt c l r fs) := by
  unfold removeFound
  rcases hFocus.repr with ⟨-, -, hl, hr⟩
  cases l with
  | nil =>
    rw [repr_nil] at hl
    simp only [hl]
    exact removeOne_spec (d := .right) hFocus rfl
  | node c₀ l₀ n₀ r₀ =>
    have hl' : (m.node n).son .left = some n₀ := hl.1
    cases r with
    | nil =>
      rw [repr_nil] at hr
      simp only [hl', hr]
      exact removeOne_spec (d := .left) hFocus hl'
    | node c₁ l₁ n₁ r₁ =>
      have hr' : (m.node n).son .right = some n₁ := hr.1
      simp only [hl', hr']
      exact removeTwo_spec hFocus (by simpa [foundDepth] using hRoom)

/-
  When the stack suffices, removing a node gives the memory
  of `removeTree`.  Removing a node that is not found leaves
  the memory as it is.
-/
theorem inlineRemove_spec (hRepr : Repr m m.root t) (hNodup : t.toList.Nodup)
    (hRoom : removeDepth cmp n t ≤ stackSize) :
    ∃ m', inlineRemove cmp m n = some m' ∧
      Repr m' m'.root (removeTree cmp n t) ∧
      (removeTree cmp n t).toList.Nodup ∧ (n ∉ t.toList → m' = m) := by
  unfold removeTree inlineRemove
  rcases removeSearch_spec (focus_root hRepr hNodup) hRoom with ⟨hMissing, hSearch⟩ |
    ⟨c, l, r, rt, stack, fs, hFound, hSearch, hFocus, hFits⟩
  · refine ⟨m, ?_, ?_, ?_, fun _ => rfl⟩
    · simp [hSearch]
    · rw [hMissing]
      exact hRepr
    · rw [hMissing]
      exact hNodup
  · rcases toList_removeFrom hFound with ⟨before, after, hOld, hNew⟩
    rw [fill_nil] at hOld
    have hNodupNew : (removeAt c l r fs).toList.Nodup := by
      rw [hOld, perm_middle.nodup_iff] at hNodup
      rw [hNew]
      exact (nodup_cons.mp hNodup).2
    rcases removeFound_spec hFocus (by simpa using hFits) with ⟨m₁, hCall, hTree⟩
    refine ⟨blackenRoot m₁, ?_, ?_, ?_, ?_⟩
    · simp only [hSearch, bind_eq_bind, bind_some]
      rw [hCall]
      rfl
    · rw [hFound]
      exact blackenRoot_spec hTree hNodupNew
    · rw [hFound]
      simpa using hNodupNew
    · intro hMem
      exact (hMem (by simp [hOld])).elim

---
-- Running over the Stack
---

/- Two sons, and a successor too far below. -/
theorem removeTwo_eq_none (hFocus : Focus m stack fs rt (.node c l n (.node c₁ l₁ n₁ r₁)))
    (hRoom : stackSize < stack.length + (leftDepth l₁ + 1)) : removeTwo m n n₁ rt stack = none := by
  unfold removeTwo
  split
  · rfl
  · rename_i hFull
    have hRight := (Focus.push (d := .right) hFocus).2
    have hDescend := leftmostDescend_eq_none ((rt, .right) :: stack) hRight.repr
      (show stackSize - (stack.length + 1) < leftDepth l₁ by omega)
    dsimp only [length_cons]
    rw [hDescend]
    rfl

/-
  A search that needs too many entries faults, or ends at a
  node whose removal does.
-/
theorem removeSearch_overrun (hFocus : Focus m stack fs rt t)
    (hRoom : room < removeDepth cmp n t) :
    removeSearch cmp n m room rt stack = none ∨ ∃ c l r rt' stack' fs',
      removeSearch cmp n m room rt stack =
        some (.found rt' stack') ∧
      Focus m stack' fs' rt' (.node c l n r) ∧
      stack'.length ≤ stack.length + room ∧
      stack.length + room < stack'.length + foundDepth l r := by
  induction t generalizing room rt stack fs with
  | nil => simp [removeDepth] at hRoom
  | node c l q r ihLeft ihRight =>
    have hRead : m.read rt = some q := hFocus.repr.1
    unfold removeDepth at hRoom
    unfold removeSearch
    simp only [hRead]
    by_cases hq : q = n
    · subst hq
      simp only [if_true] at hRoom ⊢
      exact Or.inr ⟨c, l, r, rt, stack, fs, rfl, hFocus, by omega, by omega⟩
    · simp only [if_neg hq] at hRoom ⊢
      cases room with
      | zero => exact Or.inl rfl
      | succ room =>
        rw [show stack.length + (room + 1) = stack.length + 1 + room by omega]
        cases hDir : cmp q n with
        | left =>
          simp only [hDir] at hRoom
          have hLow := ihLeft (Focus.push (d := .left) hFocus).2
            (show room < removeDepth cmp n l by omega)
          simpa only [length_cons] using hLow
        | right =>
          simp only [hDir] at hRoom
          have hLow := ihRight (Focus.push (d := .right) hFocus).2
            (show room < removeDepth cmp n r by omega)
          simpa only [length_cons] using hLow

/- When more entries are needed, it does not return. -/
theorem inlineRemove_eq_none (hRepr : Repr m m.root t) (hNodup : t.toList.Nodup)
    (hRoom : stackSize < removeDepth cmp n t) : inlineRemove cmp m n = none := by
  unfold inlineRemove
  rcases removeSearch_overrun (focus_root hRepr hNodup) hRoom with
    hSearch | ⟨c, l, r, rt, stack, fs, hSearch, hFocus, hFits, hOver⟩
  · simp [hSearch]
  · simp only [hSearch, bind_eq_bind, bind_some, bind_eq_none_iff]
    suffices hFound : removeFound m n rt stack = none by
      simp [hFound]
    rcases hFocus.repr with ⟨-, -, hl, hr⟩
    simp only [length_nil, Nat.zero_add] at hFits hOver
    unfold foundDepth at hOver
    split at hOver
    · unfold removeFound
      simp only [hl.1, hr.1]
      exact removeTwo_eq_none hFocus hOver
    · omega

end Efl.Eina.Rbtree
