import Efl.Lib.RedBlack

/-
  What the rebalancing loops of `Eina_Rbtree` do to the tree
  around the hole, and what they preserve.

  `insertRepair` is the loop of `eina_rbtree_inline_insert`
  and `removeRepair` the loop of `eina_rbtree_inline_remove`,
  with the stack of link addresses read as a list of frames.

  Main declarations:
    * `Rbtree.insertRepair`
    * `Rbtree.removeRepair`
    * `Rbtree.toList_insertRepair`
    * `Rbtree.insertRepair_balanced`
-/

---
-- The Loop of an Insertion
---

namespace Efl.Eina.Rbtree

open RedBlack

export RedBlack (Tree)

variable {N : Type}

/-
  Rotate a red child `a` with a red child of its own above
  the node of the frame: once when the two lie on one side,
  twice otherwise.
-/
def rotateInsert (f : Frame N) (a : Tree N) : Tree N :=
  match a.view f.side with
  | none => f.fill a
  | some (_, c, n, d) =>
    if c.color = .red then
      Tree.mk f.side .black c n
        (Tree.mk f.side .red d f.label f.sibling)
    else
      match d.view f.side with
      | some (.red, d₁, m, d₂) =>
        Tree.mk f.side .black
          (Tree.mk f.side .red c n d₁) m
          (Tree.mk f.side .red d₂ f.label f.sibling)
      | _ => f.fill a

/- Walk up from the inserted node until no red child is left. -/
def insertRepair : Tree N → List (Frame N) → Tree N
  | a, [] => a
  | a, f :: fs =>
    if a.color = .black then fill (f :: fs) a
    else if f.sibling.color = .red then
      insertRepair
        (Tree.mk f.side .red a.blacken f.label
          f.sibling.blacken) fs
    else insertRepair (rotateInsert f a) fs

theorem toList_rotateInsert (f : Frame N) (a : Tree N) :
    (rotateInsert f a).toList = (f.fill a).toList := by
  rcases f with ⟨side, color, label, sibling⟩
  unfold rotateInsert
  cases hView : a.view side with
  | none => rfl
  | some node =>
    rcases node with ⟨ac, c, n, d⟩
    obtain rfl := Tree.view_eq_some hView
    dsimp only
    split
    · cases side <;> simp [Frame.fill, Tree.mk]
    · split
      · rename_i hInner
        obtain rfl := Tree.view_eq_some hInner
        cases side <;> simp [Frame.fill, Tree.mk]
      · rfl

/- The walk up keeps the labels in order. -/
theorem toList_insertRepair (fs : List (Frame N)) (a : Tree N) :
    (insertRepair a fs).toList = (fill fs a).toList := by
  induction fs generalizing a with
  | nil => rfl
  | cons f fs ih =>
    unfold insertRepair
    split
    · rfl
    · split
      · rw [ih, fill_cons]
        apply toList_fill_congr
        cases hSide : f.side <;> simp [Frame.fill, Tree.mk, hSide]
      · rw [ih, fill_cons]
        exact toList_fill_congr (toList_rotateInsert f a)

/-
  A red node over balanced trees of height `k`, one of which
  may be red.
-/
def RedChild (k : Nat) (t : Tree N) : Prop :=
  ∃ d a n b,
    t = Tree.mk d .red a n b ∧
      a.Balanced k ∧ b.Balanced k ∧ b.color = .black

/- Seen from a side, a red child hangs on that side or not. -/
theorem RedChild.exists_view {k : Nat} {t : Tree N}
    (hTree : RedChild k t) (side : Side) :
    ∃ c n d,
      t = Tree.mk side .red c n d ∧
        c.Balanced k ∧ d.Balanced k ∧ (c.color = .black ∨ d.color = .black) := by
  rcases hTree with ⟨d, a, n, b, rfl, hNear, hFar, hColor⟩
  rcases Side.eq_or_eq_flip d side with rfl | rfl
  · exact ⟨a, n, b, rfl, hNear, hFar, Or.inr hColor⟩
  · refine ⟨b, n, a, ?_, hFar, hNear, Or.inl hColor⟩
    rw [Tree.mk_flip]

/-
  Below a black node the rotation repairs both shapes of a
  red child with a red child.
-/
theorem rotateInsert_balanced {k : Nat} {side : Side} {label : N}
    {sibling a : Tree N} (hSibling : sibling.Balanced k)
    (hColor : sibling.color = .black) (hTree : RedChild k a) :
    (rotateInsert ⟨side, .black, label, sibling⟩ a).Balanced (k + 1) ∧
        (rotateInsert ⟨side, .black, label, sibling⟩ a).color = .black := by
  rcases hTree.exists_view side with ⟨c, n, d, rfl, hNear, hFar, hBlack⟩
  unfold rotateInsert
  simp only [Tree.view_mk]
  split
  · rename_i hRed
    have hInner : d.color = .black := by
      simpa [hRed] using hBlack
    simp [hNear, hFar, hInner, hSibling, hColor]
  · rename_i hNearColor
    have hNearBlack : c.color = .black := by
      cases hc : c.color <;> simp_all
    split
    · rename_i hInner
      obtain rfl := Tree.view_eq_some hInner
      rw [Tree.balanced_mk_red] at hFar
      simp [hNear, hFar, hNearBlack, hSibling, hColor]
    · rename_i hNotRed
      have hFarBlack : d.color = .black := by
        cases hd : d.view side with
        | none =>
          rw [Tree.view_eq_none hd]
          rfl
        | some node =>
          rcases node with ⟨dc, d₁, m, d₂⟩
          cases dc with
          | red => exact (hNotRed _ _ _ hd).elim
          | black =>
            rw [Tree.view_eq_some hd]
            simp
      simp [Frame.fill, hNear, hFar, hNearBlack, hFarBlack, hSibling]

/-
  Where the hole of a balanced tree takes a tree of height
  `k` with at most one red pair at its root, and only below
  a black node, the walk up restores the balance.
-/
theorem insertRepair_balanced {fs : List (Frame N)} {k : Nat} {a : Tree N} (hHole : Hole k fs)
    (hTree : a.Balanced k ∨ (RedChild k a ∧ HeadBlack fs)) :
    ∃ j, (insertRepair a fs).blacken.Balanced j := by
  induction fs generalizing k a with
  | nil =>
    rcases hTree with hTree | ⟨hTree, -⟩
    · exact hTree.blacken
    · rcases hTree with ⟨d, a, n, b, rfl, hNear, hFar, -⟩
      exact ⟨k + 1, by simp [insertRepair, hNear, hFar]⟩
  | cons f fs ih =>
    rcases f with ⟨side, color, label, sibling⟩
    unfold insertRepair
    split
    · rename_i hBlack
      rcases hTree with hTree | ⟨hTree, -⟩
      · rcases balanced_fill hHole hTree (Or.inl hBlack) with ⟨j, hFill⟩
        exact hFill.blacken
      · rcases hTree with ⟨d, a, n, b, rfl, -⟩
        simp at hBlack
    · rename_i hNotBlack
      split
      · -- A red sibling: the frame itself must be black.
        rename_i hSiblingRed
        cases color with
        | red => simp [Hole, hSiblingRed] at hHole
        | black =>
          rcases hHole with ⟨hSibling, hHole⟩
          have hLow : a.blacken.Balanced (k + 1) := by
            rcases hTree with hTree | ⟨hTree, -⟩
            · cases a with
              | nil => simp [Tree.color] at hNotBlack
              | node c l n r =>
                cases c with
                | red => exact hTree.2.2
                | black => simp [Tree.color] at hNotBlack
            · rcases hTree with ⟨d, a, n, b, rfl, hNear, hFar, -⟩
              simp [hNear, hFar]
          have hHigh : sibling.blacken.Balanced (k + 1) := by
            cases sibling with
            | nil => simp [Tree.color] at hSiblingRed
            | node c l n r =>
              cases c with
              | red => exact hSibling.2.2
              | black => simp [Tree.color] at hSiblingRed
          exact ih hHole (Or.inl (by simp [hLow, hHigh]))
      · rename_i hSiblingBlack
        have hSiblingColor : sibling.color = .black := by
          cases hs : sibling.color <;> simp_all
        cases color with
        | red =>
          -- Under a red node the pair moves one level up.
          rcases hHole with ⟨-, hSibling, hHead, hHole⟩
          have hRoot : a.Balanced k := by
            rcases hTree with hTree | ⟨-, hAbove⟩
            · exact hTree
            · simp [HeadBlack] at hAbove
          have hSame :
              rotateInsert ⟨side, .red, label, sibling⟩ a = Tree.mk side .red a label sibling := by
            unfold rotateInsert Frame.fill
            cases hView : a.view side with
            | none => rfl
            | some node =>
              rcases node with ⟨ac, c, n, d⟩
              obtain rfl := Tree.view_eq_some hView
              have hRed : ac = .red := by
                cases ac <;> simp_all
              subst hRed
              rw [Tree.balanced_mk_red] at hRoot
              simp only [hRoot.1.1, reduceCtorEq, if_false]
              split
              · rename_i hd
                simp [Tree.view_eq_some hd] at hRoot
              · rfl
          rw [hSame]
          refine ih hHole (Or.inr ⟨?_, hHead⟩)
          exact ⟨side, a, label, sibling, rfl, hRoot, hSibling, hSiblingColor⟩
        | black =>
          rcases hHole with ⟨hSibling, hHole⟩
          have hRed : RedChild k a := by
            rcases hTree with hTree | ⟨hTree, -⟩
            · cases a with
              | nil => simp [Tree.color] at hNotBlack
              | node c l n r =>
                cases c with
                | red =>
                  exact ⟨.left, l, n, r, rfl, hTree.2.2.1, hTree.2.2.2, hTree.2.1⟩
                | black => simp [Tree.color] at hNotBlack
            · exact hTree
          exact ih hHole (Or.inl (rotateInsert_balanced hSibling hSiblingColor hRed).1)

---
-- The Loop of a Removal
---

/-
  One repair below a node of colour `c` whose child `x` on
  side `d` is a black node short and whose other child is
  `q`.  The flag says whether the walk up ends here.
-/
def lift (c : Color) (d : Side) (x : Tree N) (n : N) (q : Tree N) : Tree N × Bool :=
  match q.view d with
  | none => (Tree.mk d c x n .nil, false)
  | some (_, e, m, far) =>
    if far.color = .red then
      (Tree.mk d c (Tree.mk d .black x n e) m far.blacken,
        true)
    else
      match e.view d with
      | some (.red, e₁, p, e₂) =>
        (Tree.mk d c (Tree.mk d .black x n e₁) p
          (Tree.mk d .black e₂ m far), true)
      | _ =>
        (Tree.mk d .black x n (Tree.mk d .red e m far),
          decide (c = .red))

/-
  Walk up from a subtree that is a black node short.  A red
  sibling is rotated above the frame first.
-/
def removeRepair : Tree N → List (Frame N) → Tree N
  | x, [] => x
  | x, f :: fs =>
    match f.sibling.view f.side with
    | some (.red, e, m, far) =>
      let low := lift .red f.side x f.label e
      let top := Tree.mk f.side .black low.1 m far
      if low.2 then fill fs top else removeRepair top fs
    | _ =>
      let top := lift f.color f.side x f.label f.sibling
      if top.2 then fill fs top.1
      else removeRepair top.1 fs

theorem toList_lift (c : Color) (d : Side)
    (x : Tree N) (n : N) (q : Tree N) : (lift c d x n q).1.toList = (Tree.mk d c x n q).toList := by
  unfold lift
  cases hView : q.view d with
  | none => rw [Tree.view_eq_none hView]
  | some node =>
    rcases node with ⟨qc, e, m, far⟩
    obtain rfl := Tree.view_eq_some hView
    dsimp only
    split
    · cases d <;> simp [Tree.mk]
    · split
      · rename_i hInner
        obtain rfl := Tree.view_eq_some hInner
        cases d <;> simp [Tree.mk]
      · cases d <;> simp [Tree.mk]

/- The walk up keeps the labels in order. -/
theorem toList_removeRepair (fs : List (Frame N)) (x : Tree N) :
    (removeRepair x fs).toList = (fill fs x).toList := by
  induction fs generalizing x with
  | nil => rfl
  | cons f fs ih =>
    unfold removeRepair
    split
    · rename_i e m far hRed
      have hList : (Tree.mk f.side .black
            (lift .red f.side x f.label e).1 m far).toList = (f.fill x).toList := by
        have hLow := toList_lift .red f.side x f.label e
        unfold Frame.fill
        rw [Tree.view_eq_some hRed]
        cases hSide : f.side <;> simp_all [Tree.mk]
      dsimp only
      split
      · exact toList_fill_congr hList
      · rw [ih, fill_cons]
        exact toList_fill_congr hList
    · have hList := toList_lift f.color f.side x f.label f.sibling
      dsimp only
      split
      · exact toList_fill_congr hList
      · rw [ih, fill_cons]
        exact toList_fill_congr hList

/-
  A repair that ends keeps the colour and the height of the
  whole; one that goes on yields a black tree that is a
  black node short.
-/
theorem lift_balanced {k : Nat} {c : Color} {d : Side} {x : Tree N}
    {n : N} {q : Tree N} (hShort : x.Balanced k)
    (hSibling : q.Balanced (k + 1)) (hBlack : q.color = .black) :
    ((lift c d x n q).2 = true ∧
        (c = .black → (lift c d x n q).1.Balanced (k + 2) ∧
          (lift c d x n q).1.color = .black) ∧
        (c = .red → (lift c d x n q).1.Balanced (k + 1))) ∨
      ((lift c d x n q).2 = false ∧ c = .black ∧
        (lift c d x n q).1.Balanced (k + 1) ∧ (lift c d x n q).1.color = .black) := by
  cases hView : q.view d with
  | none =>
    rw [Tree.view_eq_none hView] at hSibling
    simp at hSibling
  | some node =>
    rcases node with ⟨qc, e, m, far⟩
    obtain rfl := Tree.view_eq_some hView
    obtain rfl : qc = .black := by simpa using hBlack
    rw [Tree.balanced_mk_black_succ] at hSibling
    rcases hSibling with ⟨hNear, hFar⟩
    unfold lift
    simp only [Tree.view_mk]
    split
    · rename_i hFarRed
      have hRaised : far.blacken.Balanced (k + 1) := by
        cases far with
        | nil => simp [Tree.color] at hFarRed
        | node fc l y r =>
          cases fc with
          | red => exact hFar.2.2
          | black => simp [Tree.color] at hFarRed
      left
      refine ⟨rfl, ?_, ?_⟩ <;> rintro rfl <;> simp [hShort, hNear, hRaised]
    · rename_i hFarColor
      have hFarBlack : far.color = .black := by
        cases hf : far.color <;> simp_all
      split
      · rename_i hInner
        obtain rfl := Tree.view_eq_some hInner
        rw [Tree.balanced_mk_red] at hNear
        left
        refine ⟨rfl, ?_, ?_⟩ <;> rintro rfl <;> simp [hShort, hNear, hFar]
      · rename_i hNotRed
        have hNearBlack : e.color = .black := by
          cases he : e.view d with
          | none =>
            rw [Tree.view_eq_none he]
            rfl
          | some node =>
            rcases node with ⟨ec, e₁, p, e₂⟩
            cases ec with
            | red => exact (hNotRed _ _ _ he).elim
            | black =>
              rw [Tree.view_eq_some he]
              simp
        cases c with
        | red =>
          left
          simp [hShort, hNear, hFar, hNearBlack, hFarBlack]
        | black =>
          right
          simp [hShort, hNear, hFar, hNearBlack, hFarBlack]

/-
  The walk up from a subtree that is a black node short of
  its hole restores the balance.
-/
theorem removeRepair_balanced {fs : List (Frame N)} {k : Nat}
    {x : Tree N} (hHole : Hole (k + 1) fs) (hShort : x.Balanced k) :
    ∃ j, (removeRepair x fs).blacken.Balanced j := by
  induction fs generalizing k x with
  | nil => exact hShort.blacken
  | cons f fs ih =>
    rcases f with ⟨side, color, label, sibling⟩
    unfold removeRepair
    split
    · -- A red sibling becomes the root and ends the walk.
      rename_i e m far hRed
      dsimp only at hRed
      obtain rfl := Tree.view_eq_some hRed
      cases color with
      | red => simp [Hole] at hHole
      | black =>
        rcases hHole with ⟨hSibling, hHole⟩
        rw [Tree.balanced_mk_red] at hSibling
        rcases hSibling with ⟨⟨hNearBlack, -⟩, hNear, hFar⟩
        dsimp only
        rcases lift_balanced (c := .red) (d := side) (n := label) hShort hNear hNearBlack with
          ⟨hDone, -, hLow⟩ | ⟨-, hColor, -⟩
        · rw [hDone, if_pos rfl]
          have hTop : (Tree.mk side .black (lift .red side x label e).1 m far).Balanced (k + 2) :=
            Tree.balanced_mk_black_succ.mpr ⟨hLow rfl, hFar⟩
          rcases balanced_fill hHole hTop (Or.inl (Tree.color_mk side _ _ m _)) with ⟨j, hFill⟩
          exact hFill.blacken
        · cases hColor
    · rename_i hNotRed
      dsimp only at hNotRed ⊢
      have hBlack : sibling.color = .black := by
        cases hs : sibling.view side with
        | none =>
          rw [Tree.view_eq_none hs]
          rfl
        | some node =>
          rcases node with ⟨sc, e, m, far⟩
          cases sc with
          | red => exact (hNotRed _ _ _ hs).elim
          | black =>
            rw [Tree.view_eq_some hs]
            simp
      have hSibling : sibling.Balanced (k + 1) := by
        cases color with
        | red => exact hHole.2.1
        | black => exact hHole.1
      rcases lift_balanced (c := color) (d := side) (n := label) hShort hSibling hBlack with
        ⟨hDone, hTopBlack, hTopRed⟩ | ⟨hMore, rfl, hTop, -⟩
      · rw [hDone, if_pos rfl]
        cases color with
        | red =>
          rcases balanced_fill hHole.2.2.2 (hTopRed rfl) (Or.inr hHole.2.2.1) with ⟨j, hFill⟩
          exact hFill.blacken
        | black =>
          rcases balanced_fill hHole.2 (hTopBlack rfl).1 (Or.inl (hTopBlack rfl).2) with ⟨j, hFill⟩
          exact hFill.blacken
      · rw [hMore]
        exact ih hHole.2 hTop

end Efl.Eina.Rbtree
