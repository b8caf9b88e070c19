import Efl.Eina.Rbtree.Model
import Efl.Eina.Rbtree.Repair

/-
  How the memory of an `Eina_Rbtree` represents a tree.

  `Repr` reads the subtree below a node pointer, `Path` reads
  the stack of links as the frames around the link that is
  being worked on, and `Focus` puts the two together.

  Main declarations:
    * `Rbtree.Repr`
    * `Rbtree.Path`
    * `Rbtree.Focus.pop`
    * `Rbtree.Focus.replace`
-/

---
-- Subtrees
---

namespace Efl.Eina.Rbtree

open RedBlack List Function

variable {N : Type}

/- The node pointer `p` is the root of the tree. -/
def Repr (m : Mem N) : Option N → Tree N → Prop
  | p, .nil => p = none
  | p, .node c l n r =>
    p = some n ∧ (m.node n).color = c ∧
      Repr m ((m.node n).son .left) l ∧
      Repr m ((m.node n).son .right) r

variable {m : Mem N} {p : Option N}

@[simp] theorem repr_nil : Repr m p .nil ↔ p = none := Iff.rfl

variable {c : Color}

theorem repr_mk {d : Side} {a : Tree N} {n : N} {b : Tree N} :
    Repr m p (Tree.mk d c a n b) ↔
      p = some n ∧ (m.node n).color = c ∧
        Repr m ((m.node n).son d) a ∧ Repr m ((m.node n).son d.flip) b := by
  cases d
  · exact Iff.rfl
  · constructor
    · rintro ⟨hp, hc, hl, hr⟩
      exact ⟨hp, hc, hr, hl⟩
    · rintro ⟨hp, hc, hr, hl⟩
      exact ⟨hp, hc, hl, hr⟩

variable {m' : Mem N} {t : Tree N}

/- Only the nodes of the tree matter. -/
theorem Repr.congr (hRepr : Repr m p t)
    (hEq : ∀ n ∈ t.toList, m'.node n = m.node n) : Repr m' p t := by
  induction t generalizing p with
  | nil => exact hRepr
  | node c l n r ihLeft ihRight =>
    rcases hRepr with ⟨hp, hc, hl, hr⟩
    have hNode : m'.node n = m.node n := hEq n (by simp)
    refine ⟨hp, ?_, ?_, ?_⟩
    · rw [hNode]
      exact hc
    · rw [hNode]
      exact ihLeft hl (fun k hk => hEq k (by simp [hk]))
    · rw [hNode]
      exact ihRight hr (fun k hk => hEq k (by simp [hk]))

/- A memory represents one tree at most. -/
theorem Repr.unique {u : Tree N} (hLeft : Repr m p t) (hRight : Repr m p u) : t = u := by
  induction t generalizing p u with
  | nil =>
    cases u with
    | nil => rfl
    | node c l n r => simp_all [Repr]
  | node c l n r ihLeft ihRight =>
    cases u with
    | nil => simp_all [Repr]
    | node c' l' n' r' =>
      rcases hLeft with ⟨hp, hc, hl, hr⟩
      rcases hRight with ⟨hp', hc', hl', hr'⟩
      obtain rfl : n = n' := by simp_all
      rw [ihLeft hl hl', ihRight hr hr', ← hc, ← hc']

theorem isRed_iff (hRepr : Repr m p t) : m.isRed p = true ↔ t.color = .red := by
  cases t with
  | nil => simp_all [Mem.isRed, Tree.color]
  | node c l n r =>
    rcases hRepr with ⟨rfl, hc, -⟩
    simp [Mem.isRed, Tree.color, hc]

/- The two memories agree on the nodes outside `s`. -/
def EqOff (s : List N) (m m' : Mem N) : Prop :=
  m'.root = m.root ∧ ∀ n, n ∉ s → m'.node n = m.node n

theorem EqOff.refl (s : List N) (m : Mem N) : EqOff s m m := ⟨rfl, fun _ _ => rfl⟩

variable {s : List N}

theorem EqOff.trans {m'' : Mem N} (hFirst : EqOff s m m')
    (hSecond : EqOff s m' m'') : EqOff s m m'' :=
  ⟨hSecond.1.trans hFirst.1, fun n hn =>
    (hSecond.2 n hn).trans (hFirst.2 n hn)⟩

theorem EqOff.mono {s' : List N} (hEq : EqOff s m m') (hSub : s ⊆ s') :
    EqOff s' m m' := ⟨hEq.1, fun n hn => hEq.2 n (fun h => hn (hSub h))⟩

theorem Repr.eqOff (hRepr : Repr m p t) (hEq : EqOff s m m')
    (hDisjoint : ∀ n ∈ t.toList, n ∉ s) : Repr m' p t :=
  hRepr.congr (fun n hn => hEq.2 n (hDisjoint n hn))

variable [DecidableEq N]

theorem eqOff_setColor {n : N} (hMem : n ∈ s) : EqOff s m (m.setColor n c) := by
  refine ⟨rfl, fun k hk => ?_⟩
  have hNe : k ≠ n := by
    rintro rfl
    exact hk hMem
  simp [Mem.setColor, update_of_ne hNe]

theorem eqOff_write_son {n : N} {d : Side} (hMem : n ∈ s) : EqOff s m (m.write (.son n d) p) := by
  refine ⟨rfl, fun k hk => ?_⟩
  have hNe : k ≠ n := by
    rintro rfl
    exact hk hMem
  simp [Mem.write, update_of_ne hNe]

/- A write at one link commutes with changes inside `s`. -/
theorem EqOff.write {r : Link N} (hEq : EqOff s m m') : EqOff s (m.write r p) (m'.write r p) := by
  cases r with
  | root => exact ⟨rfl, hEq.2⟩
  | son n d =>
    refine ⟨hEq.1, fun k hk => ?_⟩
    have hNode := hEq.2 k hk
    by_cases hk' : k = n
    · subst hk'
      simp [Mem.write, hNode]
    · simp [Mem.write, update_of_ne hk', hNode]

theorem Mem.write_read (m : Mem N) (r : Link N) : m.write r (m.read r) = m := by
  cases r with
  | root => rfl
  | son n d => simp [Mem.write, Mem.read]

/- Recolouring the root of a tree. -/
theorem Repr.setColor {d : Side} {a : Tree N} {n : N} {b : Tree N}
    (c' : Color) (hRepr : Repr m p (Tree.mk d c a n b))
    (hNodup : (Tree.mk d c a n b).toList.Nodup) :
    Repr (m.setColor n c') p (Tree.mk d c' a n b) := by
  rw [repr_mk] at hRepr ⊢
  rcases hRepr with ⟨hp, -, hNear, hFar⟩
  rw [(Tree.toList_mk_perm d c a n b).nodup_iff, nodup_cons, mem_append] at hNodup
  have hEq : EqOff [n] m (m.setColor n c') := eqOff_setColor (by simp)
  have hSon : ((m.setColor n c').node n).son = (m.node n).son := by
    simp [Mem.setColor]
  refine ⟨hp, by simp [Mem.setColor], ?_, ?_⟩
  · rw [hSon]
    refine hNear.eqOff hEq ?_
    rintro k hk hMem
    rw [mem_singleton] at hMem
    exact hNodup.1 (Or.inl (hMem ▸ hk))
  · rw [hSon]
    refine hFar.eqOff hEq ?_
    rintro k hk hMem
    rw [mem_singleton] at hMem
    exact hNodup.1 (Or.inr (hMem ▸ hk))

/- Recolouring a node outside the tree. -/
theorem Repr.setColor_of_notMem {n : N} (hRepr : Repr m p t)
    (hMem : n ∉ t.toList) : Repr (m.setColor n c) p t := by
  refine hRepr.eqOff (s := [n]) (eqOff_setColor (by simp)) ?_
  rintro k hk hEq
  rw [mem_singleton] at hEq
  exact hMem (hEq ▸ hk)

end Efl.Eina.Rbtree

---
-- The Stack of Links
---

namespace Efl.Eina.Rbtree

open RedBlack List Function

variable {N : Type}

/-
  The stack describes the frames between the link `base` and
  the link `r` of the hole.
-/
def Seg (m : Mem N) : Stack N → List (Frame N) → Link N → Link N → Prop
  | [], [], r, base => r = base
  | (up, d) :: stack, f :: fs, r, base =>
    d = f.side ∧ r = .son f.label f.side ∧
      m.read up = some f.label ∧
      (m.node f.label).color = f.color ∧
      Repr m ((m.node f.label).son f.side.flip) f.sibling ∧
      Seg m stack fs up base
  | _, _, _, _ => False

/- The stack describes the frames below the root pointer. -/
def Path (m : Mem N) (stack : Stack N) (fs : List (Frame N)) (r : Link N) : Prop :=
  Seg m stack fs r .root

variable {m : Mem N} {stack : Stack N} {fs : List (Frame N)}
    {r base : Link N}

theorem Seg.length_eq (hSeg : Seg m stack fs r base) : stack.length = fs.length := by
  induction stack generalizing fs r with
  | nil =>
    cases fs with
    | nil => rfl
    | cons f fs => exact hSeg.elim
  | cons entry stack ih =>
    cases fs with
    | nil => exact hSeg.elim
    | cons f fs =>
      rcases hSeg with ⟨-, -, -, -, -, hSeg⟩
      simp [ih hSeg]

theorem seg_append {above : Stack N} {gs : List (Frame N)}
    {mid : Link N} (hLow : Seg m stack gs r mid)
    (hHigh : Seg m above fs mid base) : Seg m (stack ++ above) (gs ++ fs) r base := by
  induction stack generalizing gs r with
  | nil =>
    cases gs with
    | nil =>
      rw [show r = mid from hLow]
      exact hHigh
    | cons g gs => exact hLow.elim
  | cons entry stack ih =>
    cases gs with
    | nil => exact hLow.elim
    | cons g gs =>
      rcases hLow with ⟨hd, hr, hRead, hc, hSib, hLow⟩
      exact ⟨hd, hr, hRead, hc, hSib, ih hLow⟩

variable {m' : Mem N}

/-
  A segment is kept by a memory that agrees on its labels
  and still finds its first node at the base.
-/
theorem Seg.congr (hSeg : Seg m stack fs r base) (hEq : ∀ n ∈ labels fs, m'.node n = m.node n)
    (hBase : m'.read base = m.read base) : Seg m' stack fs r base := by
  induction stack generalizing fs r with
  | nil =>
    cases fs with
    | nil => exact hSeg
    | cons f fs => exact hSeg.elim
  | cons entry stack ih =>
    cases fs with
    | nil => exact hSeg.elim
    | cons f fs =>
      rcases hSeg with ⟨hd, hr, hRead, hc, hSib, hSeg⟩
      have hNode : m'.node f.label = m.node f.label := hEq f.label (by simp)
      have hRest : ∀ n ∈ labels fs, m'.node n = m.node n := fun n hn => hEq n (by simp [hn])
      have hUp : m'.read entry.1 = m.read entry.1 := by
        cases stack with
        | nil =>
          cases fs with
          | nil =>
            rw [show entry.1 = base from hSeg]
            exact hBase
          | cons g gs => exact hSeg.elim
        | cons next stack =>
          cases fs with
          | nil => exact hSeg.elim
          | cons g gs =>
            rw [hSeg.2.1]
            simp [Mem.read, hRest g.label (by simp)]
      refine ⟨hd, hr, hUp.trans hRead, ?_, ?_, ih hSeg hRest⟩
      · rw [hNode]
        exact hc
      · rw [hNode]
        exact hSib.congr (fun n hn => hEq n (by simp [hn]))

/- A hole under a frame hangs on the node of the frame. -/
theorem Path.link (hPath : Path m stack fs r) :
    r = .root ∧ fs = [] ∨ ∃ f gs, fs = f :: gs ∧ r = .son f.label f.side := by
  cases stack with
  | nil =>
    cases fs with
    | nil => exact Or.inl ⟨hPath, rfl⟩
    | cons f fs => exact hPath.elim
  | cons entry stack =>
    cases fs with
    | nil => exact hPath.elim
    | cons f fs => exact Or.inr ⟨f, fs, rfl, hPath.2.1⟩

variable [DecidableEq N]

variable {p : Option N}

/-
  The path to a link survives a write at that link and any
  change to nodes that are not on the path.
-/
theorem Path.replace {s : List N} (hPath : Path m stack fs r) (hEq : EqOff s (m.write r p) m')
    (hDisjoint : ∀ n ∈ labels fs, n ∉ s) (hNodup : (labels fs).Nodup) :
    Path m' stack fs r ∧ m'.read r = p := by
  cases stack with
  | nil =>
    cases fs with
    | cons f fs => exact hPath.elim
    | nil =>
      rw [show r = .root from hPath] at hEq ⊢
      exact ⟨rfl, hEq.1⟩
  | cons entry stack =>
    cases fs with
    | nil => exact hPath.elim
    | cons f fs =>
      rcases hPath with ⟨hd, rfl, hRead, hc, hSib, hSeg⟩
      rw [labels_cons, nodup_cons] at hNodup
      have hLabel : m'.node f.label =
            { m.node f.label with
              son := update (m.node f.label).son f.side p } := by
        rw [hEq.2 f.label (hDisjoint _ (by simp))]
        simp [Mem.write]
      have hOther : ∀ n ∈ f.sibling.toList ++ labels fs, m'.node n = m.node n := by
        intro n hn
        have hNe : n ≠ f.label := by
          rintro rfl
          exact hNodup.1 hn
        rw [hEq.2 n (hDisjoint n (by
          simp only [labels_cons]
          exact mem_cons_of_mem _ hn))]
        simp [Mem.write, update_of_ne hNe]
      have hUp : Seg m' stack fs entry.1 .root := by
        refine hSeg.congr (fun n hn => hOther n (by simp [hn])) ?_
        exact hEq.1
      have hUpRead : m'.read entry.1 = m.read entry.1 := by
        rcases Path.link hSeg with ⟨hr, -⟩ | ⟨g, gs, rfl, hr⟩
        · rw [hr]
          exact hEq.1
        · rw [hr]
          simp [Mem.read, hOther g.label (by simp)]
      refine ⟨⟨hd, rfl, hUpRead.trans hRead, ?_, ?_, hUp⟩, ?_⟩
      · rw [hLabel]
        exact hc
      · rw [hLabel]
        simp only [update_of_ne (Side.flip_ne _)]
        exact hSib.congr (fun n hn => hOther n (by simp [hn]))
      · simp [Mem.read, hLabel]

/-
  A tree hangs on link `r`, the stack describes the way to
  it, and no node occurs twice.
-/
structure Focus (m : Mem N) (stack : Stack N) (fs : List (Frame N)) (r : Link N)
    (t : Tree N) : Prop where
  path : Path m stack fs r
  repr : Repr m (m.read r) t
  nodup : (t.toList ++ labels fs).Nodup

variable {t : Tree N}

omit [DecidableEq N] in
/- The whole memory, seen from its root pointer. -/
theorem focus_root (hRepr : Repr m m.root t) (hNodup : t.toList.Nodup) :
    Focus m [] [] .root t := ⟨rfl, hRepr, by simpa using hNodup⟩

variable {d : Side}

omit [DecidableEq N] in
/- Popping the stack gives the tree one frame further up. -/
theorem Focus.pop {up : Link N} {f : Frame N}
    (hFocus : Focus m ((up, d) :: stack) (f :: fs) r t) :
    d = f.side ∧ Focus m stack fs up (f.fill t) := by
  rcases hFocus with ⟨hPath, hRepr, hNodup⟩
  rcases hPath with ⟨hd, rfl, hRead, hc, hSib, hSeg⟩
  refine ⟨hd, hSeg, ?_, ?_⟩
  · rw [hRead]
    exact repr_mk.mpr ⟨rfl, hc, hRepr, hSib⟩
  · have hPerm : ((f.fill t).toList ++ labels fs).Perm (t.toList ++ labels (f :: fs)) :=
      (toList_fill_perm fs (f.fill t)).symm.trans (toList_fill_perm (f :: fs) t)
    exact hPerm.nodup_iff.mpr hNodup

omit [DecidableEq N] in
/- Going down to a child pushes an entry. -/
theorem Focus.push {c : Color} {a : Tree N} {n : N} {b : Tree N}
    (hFocus : Focus m stack fs r (Tree.mk d c a n b)) :
    m.read r = some n ∧ Focus m ((r, d) :: stack) (⟨d, c, n, b⟩ :: fs) (.son n d) a := by
  rcases hFocus with ⟨hPath, hRepr, hNodup⟩
  rcases repr_mk.mp hRepr with ⟨hRead, hc, hNear, hFar⟩
  refine ⟨hRead, ⟨rfl, rfl, hRead, hc, hFar, hPath⟩, hNear, ?_⟩
  have hPerm : ((Tree.mk d c a n b).toList ++ labels fs).Perm
        (a.toList ++ labels (⟨d, c, n, b⟩ :: fs)) :=
    (toList_fill_perm fs _).symm.trans (toList_fill_perm (⟨d, c, n, b⟩ :: fs) a)
  exact hPerm.nodup_iff.mp hNodup

variable (hFocus : Focus m stack fs r t)

include hFocus

omit [DecidableEq N] in
/- The tree in focus fills the tree of the whole memory. -/
theorem Focus.toRoot :
    Repr m m.root (fill fs t) ∧ (fill fs t).toList.Nodup := by
  induction fs generalizing stack r t with
  | nil =>
    rcases hFocus with ⟨hPath, hRepr, hNodup⟩
    rcases hPath.link with ⟨rfl, -⟩ | ⟨f, gs, hEq, -⟩
    · exact ⟨hRepr, by simpa using hNodup⟩
    · cases hEq
  | cons f fs ih =>
    cases stack with
    | nil => exact hFocus.path.elim
    | cons entry stack => exact ih hFocus.pop.2

variable {t' : Tree N}

/-
  A step that rewrites the tree in focus, changing only nodes
  of `s`, keeps the focus.
-/
theorem Focus.replace {s : List N} (hEq : EqOff s (m.write r p) m')
    (hDisjoint : ∀ n ∈ labels fs, n ∉ s) (hRepr : Repr m' p t') (hNodup : t'.toList.Nodup)
    (hLabels : ∀ n ∈ t'.toList, n ∉ labels fs) : Focus m' stack fs r t' := by
  have hFrames : (labels fs).Nodup := (nodup_append.mp hFocus.nodup).2.1
  rcases hFocus.path.replace hEq hDisjoint hFrames with ⟨hPath, hRead⟩
  refine ⟨hPath, ?_, ?_⟩
  · rw [hRead]
    exact hRepr
  · rw [nodup_append]
    refine ⟨hNodup, hFrames, ?_⟩
    intro a ha b hb hab
    exact hLabels a ha (hab ▸ hb)

/- The usual step keeps the labels of the tree in focus. -/
theorem Focus.rewrite
    (hEq : EqOff t.toList (m.write r p) m') (hRepr : Repr m' p t')
    (hList : t'.toList = t.toList) : Focus m' stack fs r t' := by
  have hApart := hFocus.nodup
  rw [nodup_append] at hApart
  refine hFocus.replace hEq ?_ hRepr ?_ ?_
  · intro n hn hMem
    exact hApart.2.2 n hMem n hn rfl
  · rw [hList]
    exact hApart.1
  · intro n hn hMem
    rw [hList] at hn
    exact hApart.2.2 n hn n hMem rfl

omit [DecidableEq N] in
/- The link of the hole does not hang on a node in focus. -/
theorem Focus.link_notMem :
    r = .root ∨ ∃ k d, r = .son k d ∧ k ∉ t.toList := by
  rcases hFocus.path.link with ⟨hr, -⟩ | ⟨f, gs, rfl, hr⟩
  · exact Or.inl hr
  · refine Or.inr ⟨f.label, f.side, hr, ?_⟩
    intro hMem
    have hApart := hFocus.nodup
    rw [nodup_append] at hApart
    exact hApart.2.2 f.label hMem f.label (by simp) rfl

/- Rewrite the tree in focus, then store its new root. -/
theorem Focus.rewriteWrite
    (hEq : EqOff t.toList m m') (hRepr : Repr m' p t')
    (hList : t'.toList = t.toList) : Focus (m'.write r p) stack fs r t' := by
  refine hFocus.rewrite hEq.write ?_ hList
  refine hRepr.congr ?_
  intro n hn
  rcases hFocus.link_notMem with rfl | ⟨k, d, rfl, hk⟩
  · rfl
  · have hNe : n ≠ k := by
      rintro rfl
      exact hk (hList ▸ hn)
    simp [Mem.write, update_of_ne hNe]

/- Rewrite the tree in focus below the same root. -/
theorem Focus.rewriteKeep
    (hEq : EqOff t.toList m m') (hRepr : Repr m' (m.read r) t')
    (hList : t'.toList = t.toList) : Focus m' stack fs r t' := by
  refine hFocus.rewrite ?_ hRepr hList
  rw [Mem.write_read]
  exact hEq

omit hFocus

---
-- Rotations
---

omit [DecidableEq N] in
/- The labels of a node with a node on its far side. -/
theorem toList_nested_perm (d : Side) (c qc : Color)
    (x : Tree N) (n : N) (e : Tree N) (q : N) (b : Tree N) :
    (Tree.mk d c x n (Tree.mk d qc e q b)).toList.Perm
      (n :: q :: (x.toList ++ (e.toList ++ b.toList))) := by
  refine (Tree.toList_mk_perm d c x n _).trans ?_
  apply List.Perm.cons
  refine ((Tree.toList_mk_perm d qc e q b).append_left x.toList).trans ?_
  exact perm_middle

/-
  A single rotation brings the node `q` above `n`, which
  becomes red.
-/
theorem singleRotation_spec {c qc : Color} {x : Tree N} {n : N} {e : Tree N} {q : N} {b : Tree N}
    (hRepr : Repr m (some n) (Tree.mk d c x n (Tree.mk d qc e q b)))
    (hNodup : (Tree.mk d c x n (Tree.mk d qc e q b)).toList.Nodup) :
    ∃ m', singleRotation m n d = some (m', q) ∧
      EqOff [n, q] m m' ∧ Repr m' (some q) (Tree.mk d .black (Tree.mk d .red x n e) q b) := by
  rw [(toList_nested_perm d c qc x n e q b).nodup_iff] at hNodup
  simp only [nodup_cons, mem_cons, mem_append, not_or] at hNodup
  rcases hNodup with ⟨⟨hnq, hnx, hne, hnb⟩, ⟨hqx, hqe, hqb⟩, -⟩
  have hqn : q ≠ n := fun h => hnq h.symm
  simp only [repr_mk] at hRepr
  rcases hRepr with ⟨-, -, hx, hq, -, he, hb⟩
  let m' : Mem N := ((((m.write (.son n d.flip) ((m.node q).son d)).write
    (.son q d) (some n)).setColor n .red).setColor q .black)
  have hEq : EqOff [n, q] m m' := by
    refine ⟨rfl, fun k hk => ?_⟩
    simp only [mem_cons, not_mem_nil, or_false, not_or] at hk
    simp [m', Mem.write, Mem.setColor, update_of_ne hk.1, update_of_ne hk.2]
  have hNodeN : m'.node n =
        { son := update (m.node n).son d.flip ((m.node q).son d)
          color := .red } := by
    simp [m', Mem.write, Mem.setColor, update_of_ne hnq]
  have hNodeQ : m'.node q =
        { son := update (m.node q).son d (some n)
          color := .black } := by
    simp [m', Mem.write, Mem.setColor, update_of_ne hqn]
  refine ⟨m', ?_, hEq, ?_⟩
  · have hSame : ((m.write (.son n d.flip) ((m.node q).son d)).node q) = m.node q := by
      simp [Mem.write, update_of_ne hqn]
    simp [singleRotation, hq, m']
  · have hKeep : ∀ t : Tree N, n ∉ t.toList → q ∉ t.toList → ∀ p, Repr m p t → Repr m' p t := by
      intro t hn hq' p ht
      refine ht.eqOff hEq ?_
      intro k hk hMem
      rcases mem_cons.mp hMem with rfl | hMem
      · exact hn hk
      · rw [mem_singleton] at hMem
        exact hq' (hMem ▸ hk)
    refine repr_mk.mpr ⟨rfl, by rw [hNodeQ],
      repr_mk.mpr ⟨by simp [hNodeQ], by rw [hNodeN], ?_, ?_⟩, ?_⟩
    · rw [hNodeN]
      simp only [update_of_ne (Side.ne_flip d)]
      exact hKeep x hnx hqx _ hx
    · rw [hNodeN]
      simp only [update_self]
      exact hKeep e hne hqe _ he
    · rw [hNodeQ]
      simp only [update_of_ne (Side.flip_ne d)]
      exact hKeep b hnb hqb _ hb

/-
  A double rotation brings the inner grandchild `p` above
  both `n` and `q`, which become red.
-/
theorem doubleRotation_spec {c qc ec : Color} {x : Tree N} {n : N}
    {e₁ : Tree N} {p : N} {e₂ : Tree N} {q : N} {b : Tree N} (hRepr :
      Repr m (some n) (Tree.mk d c x n (Tree.mk d qc (Tree.mk d ec e₁ p e₂) q b)))
    (hNodup : (Tree.mk d c x n
      (Tree.mk d qc (Tree.mk d ec e₁ p e₂) q b)).toList.Nodup) :
    ∃ m', doubleRotation m n d = some (m', p) ∧
      EqOff [n, q, p] m m' ∧ Repr m' (some p) (Tree.mk d .black (Tree.mk d .red x n e₁) p
        (Tree.mk d .red e₂ q b)) := by
  have hInnerNodup : (Tree.mk d qc (Tree.mk d ec e₁ p e₂) q b).toList.Nodup := by
    rw [(Tree.toList_mk_perm d c x n _).nodup_iff] at hNodup
    exact (nodup_append.mp (nodup_cons.mp hNodup).2).2.1
  have hParts := hRepr
  rw [repr_mk] at hParts
  rcases hParts with ⟨-, hColor, hx, hInner⟩
  have hSon : (m.node n).son d.flip = some q := by
    exact (repr_mk.mp hInner).1
  -- The inner rotation is a rotation on the other side.
  have hFlip : Tree.mk d qc (Tree.mk d ec e₁ p e₂) q b =
        Tree.mk d.flip qc b q (Tree.mk d.flip ec e₂ p e₁) := by
    rw [Tree.mk_flip, Tree.mk_flip]
  rw [hSon, hFlip] at hInner
  have hInnerNodup' := hInnerNodup
  rw [hFlip] at hInnerNodup'
  rcases singleRotation_spec hInner hInnerNodup' with ⟨m₁, hFirst, hEqFirst, hReprFirst⟩
  rw [Tree.mk_flip, Tree.mk_flip] at hReprFirst
  have hPerm : (Tree.mk d c x n (Tree.mk d qc
        (Tree.mk d ec e₁ p e₂) q b)).toList.Perm (n :: (x.toList ++
        (Tree.mk d qc (Tree.mk d ec e₁ p e₂) q b).toList)) := Tree.toList_mk_perm d c x n _
  have hAll := hNodup
  rw [hPerm.nodup_iff, nodup_cons, mem_append, nodup_append] at hAll
  rcases hAll with ⟨hnOut, hxNodup, -, hApart⟩
  have hnInner : n ≠ q ∧ n ≠ p ∧ n ∉ e₁.toList ∧ n ∉ e₂.toList ∧ n ∉ b.toList := by
    simp only [Tree.mem_toList_mk, not_or] at hnOut
    tauto
  let m₂ := m₁.write (.son n d.flip) (some p)
  have hNodeFirst : m₁.node n = m.node n := by
    apply hEqFirst.2
    simp [hnInner.1, hnInner.2.1]
  have hNodeSecond : m₂.node n =
        { m.node n with
          son := update (m.node n).son d.flip (some p) } := by
    simp [m₂, Mem.write, hNodeFirst]
  have hEqSecond : EqOff [n] m₁ m₂ := eqOff_write_son (by simp)
  have hReprSecond : Repr m₂ (some n) (Tree.mk d c x n
          (Tree.mk d .black e₁ p (Tree.mk d .red e₂ q b))) := by
    rw [repr_mk, hNodeSecond]
    refine ⟨rfl, hColor, ?_, ?_⟩
    · simp only [update_of_ne (Side.ne_flip d)]
      refine (hx.eqOff hEqFirst ?_).eqOff hEqSecond ?_
      · intro k hk hMem
        simp_all
      · intro k hk hMem
        rw [mem_singleton] at hMem
        exact hnOut (Or.inl (hMem ▸ hk))
    · simp only [update_self]
      refine hReprFirst.eqOff hEqSecond ?_
      intro k hk hMem
      rw [mem_singleton] at hMem
      subst hMem
      simp [hnInner] at hk
  have hListSecond : (Tree.mk d c x n (Tree.mk d .black e₁ p
          (Tree.mk d .red e₂ q b))).toList =
      (Tree.mk d c x n (Tree.mk d qc (Tree.mk d ec e₁ p e₂) q b)).toList := by
    cases d <;> simp [Tree.mk]
  rcases singleRotation_spec hReprSecond (hListSecond ▸ hNodup) with
    ⟨m₃, hThird, hEqThird, hReprThird⟩
  refine ⟨m₃, ?_, ?_, hReprThird⟩
  · simp only [doubleRotation, hSon, hFirst, Option.bind_eq_bind, Option.bind_some]
    exact hThird
  · refine ((hEqFirst.mono ?_).trans (hEqSecond.mono ?_)).trans (hEqThird.mono ?_)
    · intro k hk
      simp_all
    · intro k hk
      simp_all
    · intro k hk
      simp_all
      tauto

---
-- Colours
---

/- Colour the root of the tree in focus and blacken its sons. -/
theorem Focus.recolor {d₁ d₂ : Side} {nc ac bc : Color} {a₁ : Tree N}
    {a : N} {a₂ : Tree N} {n : N} {b₁ : Tree N} {b : N} {b₂ : Tree N}
    (hFocus :
      Focus m stack fs r (Tree.mk d nc (Tree.mk d₁ ac a₁ a a₂) n
        (Tree.mk d₂ bc b₁ b b₂))) (c : Color) :
    Focus (((m.setColor n c).setColor a .black).setColor b .black) stack
      fs r (Tree.mk d c (Tree.mk d₁ .black a₁ a a₂) n (Tree.mk d₂ .black b₁ b b₂)) := by
  have hNodup := (nodup_append.mp hFocus.nodup).1
  have hList : (Tree.mk d c (Tree.mk d₁ .black a₁ a a₂) n
        (Tree.mk d₂ .black b₁ b b₂)).toList =
      (Tree.mk d nc (Tree.mk d₁ ac a₁ a a₂) n (Tree.mk d₂ bc b₁ b b₂)).toList := by
    cases d <;> cases d₁ <;> cases d₂ <;> simp [Tree.mk]
  have hApart := hNodup
  rw [(Tree.toList_mk_perm d nc _ n _).nodup_iff, nodup_cons, mem_append, nodup_append] at hApart
  rcases hApart with ⟨hn, hNodupNear, hNodupFar, hDisjoint⟩
  have hFirst := hFocus.repr.setColor c hNodup
  rcases repr_mk.mp hFirst with ⟨hp, hc, hNear, hFar⟩
  have hbNear : b ∉ (Tree.mk d₁ .black a₁ a a₂).toList := by
    rw [Tree.toList_mk_color d₁ .black ac]
    exact fun h => hDisjoint b h b (by simp) rfl
  have haFar : a ∉ (Tree.mk d₂ bc b₁ b b₂).toList := fun h => hDisjoint a (by simp) a h rfl
  have hna : n ≠ a := fun h => hn (Or.inl (by simp [h]))
  have hnb : n ≠ b := fun h => hn (Or.inr (by simp [h]))
  have hNear' := (hNear.setColor .black hNodupNear).setColor_of_notMem (c := .black) hbNear
  have hFar' := (hFar.setColor_of_notMem (c := .black) haFar).setColor .black hNodupFar
  refine hFocus.rewriteKeep ?_ ?_ hList
  · refine (EqOff.trans (eqOff_setColor ?_) (eqOff_setColor ?_)).trans (eqOff_setColor ?_) <;> simp
  · rw [repr_mk]
    have hNode : (((m.setColor n c).setColor a .black).setColor
          b .black).node n = (m.setColor n c).node n := by
      simp [Mem.setColor, update_of_ne hna, update_of_ne hnb]
    rw [hNode]
    exact ⟨hp, hc, hNear', hFar'⟩

---
-- The Root
---

/- The last assignment of both calls. -/
theorem blackenRoot_spec (hRepr : Repr m m.root t)
    (hNodup : t.toList.Nodup) : Repr (blackenRoot m) (blackenRoot m).root t.blacken := by
  cases t with
  | nil =>
    rw [repr_nil] at hRepr
    simp [blackenRoot, hRepr, Tree.blacken]
  | node c l n r =>
    have hRoot : m.root = some n := hRepr.1
    have hColored := Repr.setColor (d := .left) .black hRepr hNodup
    simpa [blackenRoot, hRoot, Mem.setColor, Tree.mk, Tree.blacken] using hColored

end Efl.Eina.Rbtree
