import Efl.Eina.Rbtree.Represent

/-
  `eina_rbtree_inline_insert` on trees.

  `insertTree` is the effect of the call on the represented
  tree and `insertDepth` the number of stack entries it
  writes.  The call refines `insertTree` as long as these
  entries fit, and runs over the stack otherwise.

  Main declarations:
    * `Rbtree.insertPath`
    * `Rbtree.insertDepth`
    * `Rbtree.inlineInsert_spec`
    * `Rbtree.inlineInsert_eq_none`
-/

---
-- The Insertion Leaf
---

namespace Efl.Eina.Rbtree

open RedBlack

section

variable {N : Type}

/- The frames around the leaf where `n` is inserted. -/
def insertPath (cmp : N → N → Side) (n : N) : Tree N → List (Frame N) → List (Frame N)
  | .nil, fs => fs
  | .node c l q r, fs =>
    match cmp q n with
    | .left => insertPath cmp n l (⟨.left, c, q, r⟩ :: fs)
    | .right => insertPath cmp n r (⟨.right, c, q, l⟩ :: fs)

/- The number of nodes passed on the way to that leaf. -/
def insertDepth (cmp : N → N → Side) (n : N) : Tree N → Nat
  | .nil => 0
  | .node _ l q r =>
    match cmp q n with
    | .left => insertDepth cmp n l + 1
    | .right => insertDepth cmp n r + 1

/- The tree after an insertion. -/
def insertTree (cmp : N → N → Side) (n : N) (t : Tree N) : Tree N :=
  (insertRepair (.node .red .nil n .nil)
    (insertPath cmp n t [])).blacken

theorem insertDepth_le_height
    (cmp : N → N → Side) (n : N) (t : Tree N) : insertDepth cmp n t ≤ t.height := by
  induction t with
  | nil => simp [insertDepth]
  | node c l q r ihLeft ihRight =>
    cases hDir : cmp q n <;> simp only [insertDepth, hDir, RedBlack.Tree.height] <;> omega

/- The leaf lies at an end of the tree it was reached in. -/
theorem fill_insertPath_nil (cmp : N → N → Side) (n : N) (t : Tree N)
    (fs : List (Frame N)) : fill (insertPath cmp n t fs) .nil = fill fs t := by
  induction t generalizing fs with
  | nil => rfl
  | node c l q r ihLeft ihRight =>
    cases hDir : cmp q n with
    | left =>
      simp only [insertPath, hDir, ihLeft]
      rfl
    | right =>
      simp only [insertPath, hDir, ihRight]
      rfl

/- The new label goes somewhere between the old ones. -/
theorem exists_toList_insertTree
    (cmp : N → N → Side) (n : N) (t : Tree N) :
    ∃ before after, t.toList = before ++ after ∧
      (insertTree cmp n t).toList = before ++ n :: after := by
  rcases exists_toList_fill (insertPath cmp n t []) with ⟨before, after, hFill⟩
  refine ⟨before, after, ?_, ?_⟩
  · have hNil := hFill .nil
    rw [fill_insertPath_nil] at hNil
    simpa using hNil
  · unfold insertTree
    rw [Tree.toList_blacken, toList_insertRepair, hFill]
    simp

theorem toList_insertTree_perm
    (cmp : N → N → Side) (n : N) (t : Tree N) :
    (insertTree cmp n t).toList.Perm (n :: t.toList) := by
  rcases exists_toList_insertTree cmp n t with ⟨before, after, hOld, hNew⟩
  rw [hOld, hNew]
  exact List.perm_middle

/- Reaching a leaf of a balanced tree leaves a hole. -/
theorem hole_insertPath (cmp : N → N → Side) (n : N) {t : Tree N}
    {fs : List (Frame N)} {k : Nat} (hTree : t.Balanced k)
    (hHole : Hole k fs) (hColor : t.color = .black ∨ HeadBlack fs) :
    Hole 0 (insertPath cmp n t fs) := by
  induction t generalizing fs k with
  | nil =>
    rw [Tree.balanced_nil] at hTree
    subst hTree
    exact hHole
  | node c l q r ihLeft ihRight =>
    rcases hHole.children hTree hColor q with ⟨j, ⟨hl, hcl, hLeft⟩, ⟨hr, hcr, hRight⟩⟩
    cases hDir : cmp q n with
    | left =>
      simp only [insertPath, hDir]
      exact ihLeft hl hLeft hcl
    | right =>
      simp only [insertPath, hDir]
      exact ihRight hr hRight hcr

/- Insertion keeps the balance. -/
theorem insertTree_balanced (cmp : N → N → Side) (n : N)
    {t : Tree N} {k : Nat} (hTree : t.Balanced k) : ∃ j, (insertTree cmp n t).Balanced j := by
  have hHole : Hole 0 (insertPath cmp n t []) :=
    hole_insertPath cmp n hTree trivial (Or.inr trivial)
  exact insertRepair_balanced hHole (Or.inl ⟨rfl, rfl, rfl, rfl⟩)

end

---
-- The Call Refines the Tree
---

open List Option
variable {N : Type} [DecidableEq N]

variable {cmp : N → N → Side} {m : Mem N} {r : Link N}
  {stack : Stack N} {fs : List (Frame N)} {t : Tree N}

omit [DecidableEq N] in
/- The descent follows `insertPath` while there is room. -/
theorem insertDescend_spec {n : N} {room : Nat} (hFocus : Focus m stack fs r t)
    (hRoom : insertDepth cmp n t ≤ room) :
    ∃ r' stack',
      insertDescend cmp n m room r stack =
          some (r', stack') ∧
        Focus m stack' (insertPath cmp n t fs) r' .nil := by
  induction t generalizing room r stack fs with
  | nil =>
    have hRead : m.read r = none := hFocus.repr
    refine ⟨r, stack, ?_, hFocus⟩
    unfold insertDescend
    simp [hRead]
  | node c l q right ihLeft ihRight =>
    have hRead : m.read r = some q := hFocus.repr.1
    cases room with
    | zero =>
      cases hDir : cmp q n <;> simp [insertDepth, hDir] at hRoom
    | succ room =>
      unfold insertDescend
      simp only [hRead]
      cases hDir : cmp q n with
      | left =>
        simp only [insertDepth, hDir] at hRoom
        simp only [insertPath, hDir]
        exact ihLeft (Focus.push (d := .left) hFocus).2 (by omega)
      | right =>
        simp only [insertDepth, hDir] at hRoom
        simp only [insertPath, hDir]
        exact ihRight (Focus.push (d := .right) hFocus).2 (by omega)

omit [DecidableEq N] in
/- Without room the descent writes behind the stack. -/
theorem insertDescend_eq_none {n : N} {room : Nat} (hFocus : Focus m stack fs r t)
    (hRoom : room < insertDepth cmp n t) : insertDescend cmp n m room r stack = none := by
  induction t generalizing room r stack fs with
  | nil => simp [insertDepth] at hRoom
  | node c l q right ihLeft ihRight =>
    have hRead : m.read r = some q := hFocus.repr.1
    unfold insertDescend
    cases room with
    | zero => simp [hRead]
    | succ room =>
      simp only [hRead]
      cases hDir : cmp q n with
      | left =>
        simp only [insertDepth, hDir] at hRoom
        exact ihLeft (Focus.push (d := .left) hFocus).2 (by omega)
      | right =>
        simp only [insertDepth, hDir] at hRoom
        exact ihRight (Focus.push (d := .right) hFocus).2 (by omega)

/- The rotating branch of the loop. -/
theorem insertRotate_spec {f : Frame N} {ac : Color} {c : Tree N} {a : N} {d : Tree N}
    (hFocus : Focus m stack fs r (f.fill (Tree.mk f.side ac c a d))) :
    ∃ m', insertRotate m r f.label a f.side = some m' ∧
      Focus m' stack fs r (rotateInsert f (Tree.mk f.side ac c a d)) := by
  rcases f with ⟨side, color, n, sibling⟩
  simp only [Frame.fill] at hFocus
  have hNodup : (Tree.mk side color (Tree.mk side ac c a d) n
        sibling).toList.Nodup := (nodup_append.mp hFocus.nodup).1
  have hRepr := hFocus.repr
  have hRead : m.read r = some n := (repr_mk.mp hRepr).1
  rw [hRead] at hRepr
  have hInner := (repr_mk.mp hRepr).2.2.1
  have hNear := (repr_mk.mp hInner).2.2.1
  have hFar := (repr_mk.mp hInner).2.2.2
  -- The rotation goes the other way.
  have hFlip : Tree.mk side color (Tree.mk side ac c a d) n sibling =
      Tree.mk side.flip color sibling n (Tree.mk side.flip ac d a c) :=
      by
    rw [Tree.mk_flip, Tree.mk_flip]
  have hList := toList_rotateInsert ⟨side, color, n, sibling⟩ (Tree.mk side ac c a d)
  unfold insertRotate
  unfold rotateInsert at hList ⊢
  simp only [Tree.view_mk] at hList ⊢
  by_cases hNearRed : c.color = .red
  · rw [if_pos ((isRed_iff hNear).mpr hNearRed)]
    rw [if_pos hNearRed] at hList ⊢
    rw [hFlip] at hRepr hNodup
    rcases singleRotation_spec hRepr hNodup with ⟨m', hRotate, hEq, hTop⟩
    rw [Tree.mk_flip, Tree.mk_flip] at hTop
    refine ⟨m'.write r (some a), by simp [hRotate], ?_⟩
    refine hFocus.rewriteWrite (hEq.mono ?_) hTop hList
    intro k hk
    simp only [mem_cons, not_mem_nil, or_false] at hk
    simp only [Tree.mem_toList_mk]
    tauto
  · rw [if_neg (fun h => hNearRed ((isRed_iff hNear).mp h))]
    rw [if_neg hNearRed] at hList ⊢
    cases hView : d.view side with
    | none =>
      have hBlack : ¬ m.isRed ((m.node a).son side.flip) = true := by
        rw [isRed_iff hFar, Tree.view_eq_none hView]
        simp [Tree.color]
      rw [if_neg hBlack]
      exact ⟨m, rfl, hFocus⟩
    | some node =>
      rcases node with ⟨dc, d₁, p, d₂⟩
      have hd := Tree.view_eq_some hView
      subst hd
      cases dc with
      | black =>
        have hBlack : ¬ m.isRed ((m.node a).son side.flip) =
              true := by
          rw [isRed_iff hFar]
          simp
        rw [if_neg hBlack]
        exact ⟨m, rfl, hFocus⟩
      | red =>
        have hRed : m.isRed ((m.node a).son side.flip) = true := (isRed_iff hFar).mpr (by simp)
        rw [if_pos hRed]
        simp only [hView] at hList
        have hFlip₂ : Tree.mk side .red d₁ p d₂ = Tree.mk side.flip .red d₂ p d₁ := by
          rw [Tree.mk_flip]
        rw [hFlip, hFlip₂] at hRepr hNodup
        rcases doubleRotation_spec hRepr hNodup with ⟨m', hRotate, hEq, hTop⟩
        simp only [Tree.mk_flip] at hTop
        refine ⟨m'.write r (some p), by simp [hRotate], ?_⟩
        refine hFocus.rewriteWrite (hEq.mono ?_) hTop hList
        intro k hk
        simp only [mem_cons, not_mem_nil, or_false] at hk
        simp only [Tree.mem_toList_mk]
        tauto

/- The loop follows `insertRepair`. -/
theorem insertRebalance_spec {a : Tree N}
    (hFocus : Focus m stack fs r a) :
    ∃ m', insertRebalance m stack = some m' ∧ Repr m' m'.root (insertRepair a fs) := by
  induction fs generalizing m stack r a with
  | nil =>
    cases stack with
    | cons entry stack => exact hFocus.path.elim
    | nil => exact ⟨m, rfl, hFocus.toRoot.1⟩
  | cons f fs ih =>
    cases stack with
    | nil => exact hFocus.path.elim
    | cons entry stack =>
      rcases entry with ⟨up, dir⟩
      rcases hFocus.pop with ⟨rfl, hUp⟩
      rcases repr_mk.mp hUp.repr with ⟨hRead, -, hNear, hFar⟩
      unfold insertRebalance insertRepair
      simp only [hRead, bind_eq_bind, bind_some]
      cases hView : a.view f.side with
      | none =>
        have ha := Tree.view_eq_none hView
        subst ha
        rw [repr_nil] at hNear
        simp only [hNear, Tree.color, if_true]
        exact ⟨m, rfl, hFocus.toRoot.1⟩
      | some node =>
        rcases node with ⟨ac, c, an, d⟩
        have ha := Tree.view_eq_some hView
        subst ha
        rcases repr_mk.mp hNear with ⟨hSon, hColor, -, -⟩
        simp only [hSon, hColor, Tree.color_mk]
        split
        · exact ⟨m, rfl, hFocus.toRoot.1⟩
        · by_cases hRed : f.sibling.color = .red
          · rw [if_pos ((isRed_iff hFar).mpr hRed), if_pos hRed]
            cases hSib : f.sibling.view f.side with
            | none =>
              rw [Tree.view_eq_none hSib] at hRed
              simp [Tree.color] at hRed
            | some node =>
              rcases node with ⟨bc, e, b, e'⟩
              have hs := Tree.view_eq_some hSib
              rw [hs] at hFar
              rw [(repr_mk.mp hFar).1]
              rw [Frame.fill, hs, ← Tree.mk_flip] at hUp
              have hNext := hUp.recolor .red
              rw [Tree.mk_flip] at hNext
              rw [hs, Tree.blacken_mk, Tree.blacken_mk]
              exact ih hNext
          · rw [if_neg (fun h => hRed ((isRed_iff hFar).mp h)), if_neg hRed]
            rcases insertRotate_spec hUp with ⟨m', hRotate, hNext⟩
            rw [hRotate]
            exact ih hNext

/-
  When the stack suffices, inserting a new node gives the
  memory of `insertTree`.
-/
theorem inlineInsert_spec {n : N} (hRepr : Repr m m.root t)
    (hNodup : t.toList.Nodup) (hNew : n ∉ t.toList)
    (hRoom : insertDepth cmp n t ≤ stackSize) :
    ∃ m', inlineInsert cmp m n = some m' ∧
      Repr m' m'.root (insertTree cmp n t) ∧ (insertTree cmp n t).toList.Nodup := by
  have hPerm := toList_insertTree_perm cmp n t
  have hNodupNew : (insertTree cmp n t).toList.Nodup := by
    rw [hPerm.nodup_iff]
    exact nodup_cons.mpr ⟨hNew, hNodup⟩
  rcases insertDescend_spec (focus_root hRepr hNodup) hRoom with ⟨r, stack, hDescend, hFocus⟩
  have hOld : (labels (insertPath cmp n t [])).Perm t.toList := by
    have hFill := toList_fill_perm (insertPath cmp n t []) .nil
    rw [fill_insertPath_nil] at hFill
    simpa using hFill.symm
  have hFresh : n ∉ labels (insertPath cmp n t []) := fun h => hNew (hOld.mem_iff.mp h)
  let m₁ := nodeInit (m.write r (some n)) n
  have hEq : EqOff [n] (m.write r (some n)) m₁ := by
    refine ⟨rfl, fun k hk => ?_⟩
    have hNe : k ≠ n := by
      simpa using hk
    simp [m₁, nodeInit, Function.update_of_ne hNe]
  have hStart : Focus m₁ stack (insertPath cmp n t []) r (.node .red .nil n .nil) := by
    refine hFocus.replace hEq ?_ ?_ (by simp) ?_
    · intro k hk hMem
      rw [mem_singleton] at hMem
      exact hFresh (hMem ▸ hk)
    · simp [Repr, m₁, nodeInit]
    · intro k hk
      have hk' : k = n := by simpa using hk
      rw [hk']
      exact hFresh
  rcases insertRebalance_spec hStart with ⟨m₂, hLoop, hTree⟩
  have hNodupLoop : (insertRepair (.node .red .nil n .nil)
        (insertPath cmp n t [])).toList.Nodup := by
    simpa [insertTree] using hNodupNew
  refine ⟨blackenRoot m₂, ?_, blackenRoot_spec hTree hNodupLoop, hNodupNew⟩
  simp only [inlineInsert, hDescend, bind_eq_bind, bind_some]
  have hLoop' : insertRebalance (nodeInit (m.write r (some n)) n) stack = some m₂ := hLoop
  rw [hLoop']
  rfl

/- When the way to the leaf is longer, it does not return. -/
theorem inlineInsert_eq_none {n : N} (hRepr : Repr m m.root t) (hNodup : t.toList.Nodup)
    (hRoom : stackSize < insertDepth cmp n t) : inlineInsert cmp m n = none := by
  simp [inlineInsert, insertDescend_eq_none (focus_root hRepr hNodup) hRoom]

end Efl.Eina.Rbtree
