import Mathlib.Algebra.Group.Nat.Defs
import Mathlib.Data.List.Perm.Basic
import Mathlib.Data.List.Pairwise

/-
  Red-black trees with labels, and trees with a hole.

  A tree is read through a side, so that a statement about
  the left child and its mirror image are one statement.  A
  list of frames, innermost first, is a tree with a hole.

  Main declarations:
    * `RedBlack.Tree`
    * `RedBlack.Tree.mk`
    * `RedBlack.balanced_fill`
    * `RedBlack.toList_fill_congr`
-/

---
-- Sides, Colours and Trees
---

namespace Efl.RedBlack

/- One of the two children of a node. -/
inductive Side where
  | left
  | right
  deriving DecidableEq, Repr

namespace Side

/- The other child. -/
def flip : Side → Side
  | left => right
  | right => left

@[simp] theorem flip_flip (d : Side) : d.flip.flip = d := by
  cases d <;> rfl

@[simp] theorem flip_ne (d : Side) : d.flip ≠ d := by
  cases d <;> simp [flip]

@[simp] theorem ne_flip (d : Side) : d ≠ d.flip := by
  cases d <;> simp [flip]

/- A side is `d` or its opposite. -/
theorem eq_or_eq_flip (d e : Side) : e = d ∨ e = d.flip := by
  cases d <;> cases e <;> simp [flip]

end Side

inductive Color where
  | red
  | black
  deriving DecidableEq, Repr

inductive Tree (N : Type) where
  | nil
  | node (c : Color) (l : Tree N) (n : N) (r : Tree N)
  deriving DecidableEq, Repr

namespace Tree

variable {N : Type}

/- The node whose child on side `d` is `near`. -/
def mk (d : Side) (c : Color) (near : Tree N) (n : N) (far : Tree N) : Tree N :=
  match d with
  | .left => node c near n far
  | .right => node c far n near

theorem mk_flip (d : Side) (c : Color) (a : Tree N) (n : N)
    (b : Tree N) : mk d.flip c a n b = mk d c b n a := by
  cases d <;> rfl

/-
  A node seen from side `d`: its colour, its child on `d`,
  its label and its other child.
-/
def view (d : Side) : Tree N → Option (Color × Tree N × N × Tree N)
  | nil => none
  | node c l n r =>
    match d with
    | .left => some (c, l, n, r)
    | .right => some (c, r, n, l)

@[simp] theorem view_nil (d : Side) : (nil : Tree N).view d = none := rfl

@[simp] theorem view_mk (d : Side) (c : Color)
    (a : Tree N) (n : N) (b : Tree N) : (mk d c a n b).view d = some (c, a, n, b) := by
  cases d <;> rfl

theorem view_eq_none {d : Side} {t : Tree N} (hView : t.view d = none) : t = nil := by
  cases t with
  | nil => rfl
  | node c l n r => cases d <;> simp [view] at hView

theorem view_eq_some {d : Side} {t : Tree N} {c : Color} {a : Tree N}
    {n : N} {b : Tree N} (hView : t.view d = some (c, a, n, b)) : t = mk d c a n b := by
  cases t with
  | nil => simp at hView
  | node c' l n' r =>
    cases d <;> simp [view] at hView <;> simp [mk, hView]

/- The colour of the root, where the empty tree is black. -/
def color : Tree N → Color
  | nil => .black
  | node c _ _ _ => c

/- Colour the root black. -/
def blacken : Tree N → Tree N
  | nil => nil
  | node _ l n r => node .black l n r

@[simp] theorem color_mk (d : Side) (c : Color)
    (a : Tree N) (n : N) (b : Tree N) : (mk d c a n b).color = c := by
  cases d <;> rfl

@[simp] theorem blacken_mk (d : Side) (c : Color)
    (a : Tree N) (n : N) (b : Tree N) : (mk d c a n b).blacken = mk d .black a n b := by
  cases d <;> rfl

@[simp] theorem color_blacken (t : Tree N) : t.blacken.color = .black := by
  cases t <;> rfl

/- The labels from left to right. -/
def toList : Tree N → List N
  | nil => []
  | node _ l n r => l.toList ++ n :: r.toList

@[simp] theorem toList_nil : (nil : Tree N).toList = [] := rfl

@[simp] theorem toList_node
    (c : Color) (l : Tree N) (n : N) (r : Tree N) :
    (node c l n r).toList = l.toList ++ n :: r.toList := rfl

@[simp] theorem toList_blacken (t : Tree N) : t.blacken.toList = t.toList := by
  cases t <;> rfl

/- The colour of a node does not matter for its labels. -/
theorem toList_mk_color (d : Side) (c c' : Color)
    (a : Tree N) (n : N) (b : Tree N) : (mk d c a n b).toList = (mk d c' a n b).toList := by
  cases d <;> rfl

theorem toList_mk_perm (d : Side) (c : Color)
    (a : Tree N) (n : N) (b : Tree N) :
    (mk d c a n b).toList.Perm (n :: (a.toList ++ b.toList)) := by
  cases d
  · exact List.perm_middle
  · exact List.perm_middle.trans (List.Perm.cons n List.perm_append_comm)

@[simp] theorem mem_toList_mk {d : Side} {c : Color}
    {a : Tree N} {n : N} {b : Tree N} {x : N} :
    x ∈ (mk d c a n b).toList ↔ x = n ∨ x ∈ a.toList ∨ x ∈ b.toList := by
  rw [(toList_mk_perm d c a n b).mem_iff]
  simp

/- The number of inner nodes on the longest path. -/
def height : Tree N → Nat
  | nil => 0
  | node _ l _ r => max l.height r.height + 1

end Tree

end Efl.RedBlack

---
-- The Red-Black Balance
---

namespace Efl.RedBlack.Tree

variable {N : Type}

/-
  A tree with `k` black nodes on every path from the root
  to a leaf and no red node with a red child.
-/
def Balanced : Nat → Tree N → Prop
  | k, nil => k = 0
  | k, node .red l _ r =>
    l.color = .black ∧ r.color = .black ∧
      Balanced k l ∧ Balanced k r
  | 0, node .black _ _ _ => False
  | k + 1, node .black l _ r => Balanced k l ∧ Balanced k r

variable {k : Nat}

@[simp] theorem balanced_nil : Balanced k (nil : Tree N) ↔ k = 0 := Iff.rfl

variable {a b : Tree N}

@[simp] theorem balanced_mk_red {d : Side} {n : N} :
    Balanced k (mk d .red a n b) ↔
      (a.color = .black ∧ b.color = .black) ∧ Balanced k a ∧ Balanced k b := by
  cases d <;> simp only [mk, Balanced] <;> tauto

@[simp] theorem balanced_mk_black_succ {d : Side} {n : N} :
    Balanced (k + 1) (mk d .black a n b) ↔ Balanced k a ∧ Balanced k b := by
  cases d <;> simp only [mk, Balanced]
  exact and_comm

@[simp] theorem not_balanced_mk_black_zero {d : Side} {n : N} :
    ¬ Balanced 0 (mk d .black a n b) := by
  cases d <;> simp [mk, Balanced]

/- A black node costs one level. -/
theorem Balanced.exists_of_mk_black {d : Side} {n : N}
    (hTree : Balanced k (mk d .black a n b)) : ∃ j, k = j + 1 ∧ Balanced j a ∧ Balanced j b := by
  cases k with
  | zero => simp at hTree
  | succ j => exact ⟨j, rfl, balanced_mk_black_succ.mp hTree⟩

variable {t : Tree N}

/- Blackening a balanced tree leaves it balanced. -/
theorem Balanced.blacken (hTree : Balanced k t) : ∃ j, Balanced j t.blacken := by
  cases t with
  | nil => exact ⟨k, hTree⟩
  | node c l n r =>
    cases c with
    | red => exact ⟨k + 1, hTree.2.2.1, hTree.2.2.2⟩
    | black => exact ⟨k, hTree⟩

/- A tree of `k` black levels has `2 ^ k - 1` labels or more. -/
theorem Balanced.pow_le_size (hTree : Balanced k t) : 2 ^ k ≤ t.toList.length + 1 := by
  induction t generalizing k with
  | nil =>
    rw [balanced_nil] at hTree
    simp [hTree]
  | node c l n r ihLeft ihRight =>
    have hSize : (node c l n r).toList.length = l.toList.length + r.toList.length + 1 := by
      simp
      omega
    cases c with
    | red =>
      have hLeft := ihLeft hTree.2.2.1
      omega
    | black =>
      cases k with
      | zero => exact hTree.elim
      | succ k =>
        have hLeft := ihLeft hTree.1
        have hRight := ihRight hTree.2
        rw [Nat.pow_succ]
        omega

/-
  A path alternates at worst: two nodes for each black level,
  and one more for a red root.
-/
theorem Balanced.height_le (hTree : Balanced k t) :
    t.height ≤ 2 * k + (if t.color = .red then 1 else 0) := by
  induction t generalizing k with
  | nil => simp [height]
  | node c l n r ihLeft ihRight =>
    cases c with
    | red =>
      have hLeft := ihLeft hTree.2.2.1
      have hRight := ihRight hTree.2.2.2
      simp only [hTree.1, hTree.2.1, reduceCtorEq, if_false] at hLeft hRight
      simp only [height, color, if_true]
      omega
    | black =>
      cases k with
      | zero => exact hTree.elim
      | succ k =>
        have hLeft := ihLeft hTree.1
        have hRight := ihRight hTree.2
        simp only [height, color, reduceCtorEq, if_false]
        split at hLeft <;> split at hRight <;> omega

end Efl.RedBlack.Tree

---
-- Trees with a Hole
---

namespace Efl.RedBlack

variable {N : Type}

/- A node one of whose children is the hole. -/
structure Frame (N : Type) where
  side : Side
  color : Color
  label : N
  sibling : Tree N
  deriving DecidableEq, Repr

/- Put a tree into the hole of one frame. -/
def Frame.fill (f : Frame N) (t : Tree N) : Tree N :=
  Tree.mk f.side f.color t f.label f.sibling

/- Put a tree into the innermost hole. -/
def fill : List (Frame N) → Tree N → Tree N
  | [], t => t
  | f :: fs, t => fill fs (f.fill t)

@[simp] theorem fill_nil (t : Tree N) : fill [] t = t := rfl

@[simp] theorem fill_cons
    (f : Frame N) (fs : List (Frame N)) (t : Tree N) : fill (f :: fs) t = fill fs (f.fill t) := rfl

theorem fill_append (fs gs : List (Frame N)) (t : Tree N) :
    fill (fs ++ gs) t = fill gs (fill fs t) := by
  induction fs generalizing t with
  | nil => rfl
  | cons f fs ih => exact ih (f.fill t)

/- The labels of a tree with a hole. -/
def labels : List (Frame N) → List N
  | [] => []
  | f :: fs => f.label :: (f.sibling.toList ++ labels fs)

@[simp] theorem labels_nil : labels ([] : List (Frame N)) = [] := rfl

@[simp] theorem labels_cons (f : Frame N) (fs : List (Frame N)) :
    labels (f :: fs) = f.label :: (f.sibling.toList ++ labels fs) := rfl

theorem labels_append (fs gs : List (Frame N)) : labels (fs ++ gs) = labels fs ++ labels gs := by
  induction fs with
  | nil => rfl
  | cons f fs ih => simp [ih]

/- A filled tree holds the labels of both parts. -/
theorem toList_fill_perm (fs : List (Frame N)) (t : Tree N) :
    (fill fs t).toList.Perm (t.toList ++ labels fs) := by
  induction fs generalizing t with
  | nil => simp
  | cons f fs ih =>
    have hFrame := Tree.toList_mk_perm f.side f.color t f.label f.sibling
    calc (fill (f :: fs) t).toList.Perm ((f.fill t).toList ++ labels fs) := ih (f.fill t)
      List.Perm _ ((f.label :: (t.toList ++ f.sibling.toList)) ++ labels fs) :=
        hFrame.append_right _
      List.Perm _ (t.toList ++ labels (f :: fs)) := by
        simpa using (@List.perm_middle _ f.label t.toList (f.sibling.toList ++ labels fs)).symm

/- The order of the labels depends on the part in the hole. -/
theorem toList_fill_congr {fs : List (Frame N)} {t u : Tree N}
    (hList : t.toList = u.toList) : (fill fs t).toList = (fill fs u).toList := by
  induction fs generalizing t u with
  | nil => exact hList
  | cons f fs ih =>
    apply ih
    cases hSide : f.side <;> simp [Frame.fill, Tree.mk, hSide, hList]

/-
  A recoloured or relabelled path keeps the order when the
  list around the hole is kept.
-/
theorem exists_toList_fill (fs : List (Frame N)) :
    ∃ before after, ∀ t, (fill fs t).toList = before ++ t.toList ++ after := by
  induction fs with
  | nil => exact ⟨[], [], by simp⟩
  | cons f fs ih =>
    rcases ih with ⟨before, after, hFill⟩
    cases hSide : f.side with
    | left =>
      refine ⟨before, f.label :: f.sibling.toList ++ after, ?_⟩
      intro t
      simp [hFill, Frame.fill, Tree.mk, hSide]
    | right =>
      refine ⟨before ++ f.sibling.toList ++ [f.label], after, ?_⟩
      intro t
      simp [hFill, Frame.fill, Tree.mk, hSide]

/- The node above the hole, if there is one, is black. -/
def HeadBlack : List (Frame N) → Prop
  | [] => True
  | f :: _ => f.color = .black

/- The frames of a balanced tree whose hole has height `k`. -/
def Hole : Nat → List (Frame N) → Prop
  | _, [] => True
  | k, ⟨_, .red, _, sibling⟩ :: fs =>
    sibling.color = .black ∧ sibling.Balanced k ∧
      HeadBlack fs ∧ Hole k fs
  | k, ⟨_, .black, _, sibling⟩ :: fs =>
    sibling.Balanced k ∧ Hole (k + 1) fs

/- A tree that fits the hole makes the whole tree balanced. -/
theorem balanced_fill {fs : List (Frame N)} {k : Nat}
    {t : Tree N} (hHole : Hole k fs) (hTree : t.Balanced k)
    (hColor : t.color = .black ∨ HeadBlack fs) : ∃ j, (fill fs t).Balanced j := by
  induction fs generalizing k t with
  | nil => exact ⟨k, hTree⟩
  | cons f fs ih =>
    rcases f with ⟨side, color, label, sibling⟩
    cases color with
    | red =>
      rcases hHole with ⟨hSibling, hBalanced, hHead, hHole⟩
      have hBlack : t.color = .black := by
        simpa [HeadBlack] using hColor
      refine ih hHole ?_ (Or.inr hHead)
      exact Tree.balanced_mk_red.mpr ⟨⟨hBlack, hSibling⟩, hTree, hBalanced⟩
    | black =>
      rcases hHole with ⟨hBalanced, hHole⟩
      refine ih hHole ?_ (Or.inl (Tree.color_mk _ _ _ _ _))
      exact Tree.balanced_mk_black_succ.mpr ⟨hTree, hBalanced⟩

/-
  Going down from a node in a hole leaves a hole for each of
  its children, next to the other one.
-/
theorem Hole.children {fs : List (Frame N)} {k : Nat} {c : Color}
    {l : Tree N} {n : N} {r : Tree N} (hHole : Hole k fs) (hTree : (Tree.node c l n r).Balanced k)
    (hColor : c = .black ∨ HeadBlack fs) (label : N) :
    ∃ j, (l.Balanced j ∧ (l.color = .black ∨ c = .black) ∧
        Hole j (⟨.left, c, label, r⟩ :: fs)) ∧
      (r.Balanced j ∧ (r.color = .black ∨ c = .black) ∧ Hole j (⟨.right, c, label, l⟩ :: fs)) := by
  cases c with
  | red =>
    rcases hTree with ⟨hLeft, hRight, hl, hr⟩
    have hHead : HeadBlack fs := by
      simpa using hColor
    exact ⟨k, ⟨hl, Or.inl hLeft, hRight, hr, hHead, hHole⟩,
      ⟨hr, Or.inl hRight, hLeft, hl, hHead, hHole⟩⟩
  | black =>
    cases k with
    | zero => exact hTree.elim
    | succ k =>
      rcases hTree with ⟨hl, hr⟩
      exact ⟨k, ⟨hl, Or.inr rfl, hr, hHole⟩, ⟨hr, Or.inr rfl, hl, hHole⟩⟩

end Efl.RedBlack
