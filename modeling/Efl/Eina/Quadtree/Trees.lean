import Efl.Eina.Quadtree.Model

/-
  The trees of `eina_quadtree`: what the operations do with
  their items, and that the lists of sorted nodes stay sorted.

  Main declarations:
    * `TreeOk`
    * `Admitted`
    * `items_remove`, `TreeOk.remove`, `TreeOk.unsort`
    * `merge_spec`, `collideTree_spec`
-/

---
-- Nodes
---

namespace Efl.Eina.Quadtree

open List

section

variable {I : Type} {key key' : I → Nat}

theorem Ascending.congr {l : List I} (hSame : ∀ x ∈ l, key' x = key x)
    (hAscending : Ascending key l) : Ascending key' l := by
  apply List.Pairwise.imp_of_mem _ hAscending
  intro x y hx hy hLess
  rw [hSame x hx, hSame y hy]
  exact hLess

/- The list of each node that is flagged sorted is sorted. -/
def TreeOk (key : I → Nat) : Tree I → Prop
  | .nil => True
  | .node both sorted left right =>
    (sorted = true → Ascending key both) ∧
      TreeOk key left ∧ TreeOk key right

variable {t : Tree I}

theorem TreeOk.congr (hSame : ∀ x ∈ t.items, key' x = key x)
    (hOk : TreeOk key t) : TreeOk key' t := by
  induction t with
  | nil => trivial
  | node both sorted left right ihLeft ihRight =>
    rcases hOk with ⟨hBoth, hLeft, hRight⟩
    simp only [Tree.items, mem_append] at hSame
    refine ⟨?_, ?_, ?_⟩
    · intro hSorted
      exact (hBoth hSorted).congr fun x hx => hSame x (.inl hx)
    · exact ihLeft (fun x hx => hSame x (.inr (.inl hx))) hLeft
    · exact ihRight (fun x hx => hSame x (.inr (.inr hx))) hRight

theorem TreeOk.parts (hOk : TreeOk key t) :
    (t.parts.2.1 = true → Ascending key t.parts.1) ∧
      TreeOk key t.parts.2.2.1 ∧ TreeOk key t.parts.2.2.2 := by
  cases t with
  | nil => exact ⟨fun _ => List.Pairwise.nil, trivial, trivial⟩
  | node both sorted left right => exact hOk

theorem items_parts (t : Tree I) :
    t.items = t.parts.1 ++ (t.parts.2.2.1.items ++ t.parts.2.2.2.items) := by
  cases t <;> rfl

theorem items_prune (t : Tree I) : t.prune.items = t.items := by
  unfold Tree.prune
  split <;> rfl

theorem TreeOk.prune (hOk : TreeOk key t) : TreeOk key t.prune := by
  unfold Tree.prune
  split
  · trivial
  · exact hOk

variable [DecidableEq I]

theorem items_remove (x : I) (t : Tree I) : (t.remove x).items = t.items.erase x := by
  induction t with
  | nil => rfl
  | node both sorted left right ihLeft ihRight =>
    unfold Tree.remove
    by_cases hBoth : x ∈ both
    · rw [if_pos hBoth, items_prune]
      exact (erase_append_left _ hBoth).symm
    · rw [if_neg hBoth, Tree.items, erase_append_right _ hBoth]
      by_cases hLeft : x ∈ left.items
      · rw [if_pos hLeft, Tree.items, ihLeft, erase_append_left _ hLeft]
      · rw [if_neg hLeft, Tree.items, ihRight, erase_append_right _ hLeft]

theorem TreeOk.remove (x : I) (hOk : TreeOk key t) : TreeOk key (t.remove x) := by
  induction t with
  | nil => trivial
  | node both sorted left right ihLeft ihRight =>
    rcases hOk with ⟨hBoth, hLeft, hRight⟩
    unfold Tree.remove
    split
    · apply TreeOk.prune
      refine ⟨?_, hLeft, hRight⟩
      intro hSorted
      exact (hBoth hSorted).sublist erase_sublist
    · split
      · exact ⟨hBoth, ihLeft hLeft, hRight⟩
      · exact ⟨hBoth, hLeft, ihRight hRight⟩

theorem items_unsort (x : I) (t : Tree I) : (t.unsort x).items = t.items := by
  induction t with
  | nil => rfl
  | node both sorted left right ihLeft ihRight =>
    unfold Tree.unsort
    split
    · rfl
    · split
      · rw [Tree.items, ihLeft, Tree.items]
      · rw [Tree.items, ihRight, Tree.items]

/- An item gets another index. -/
theorem TreeOk.unsort {x : I} (hNodup : t.items.Nodup)
    (hSame : ∀ y, y ≠ x → key' y = key y) (hOk : TreeOk key t) : TreeOk key' (t.unsort x) := by
  induction t with
  | nil => trivial
  | node both sorted left right ihLeft ihRight =>
    rcases hOk with ⟨hBoth, hLeft, hRight⟩
    rw [Tree.items, nodup_append, nodup_append] at hNodup
    rcases hNodup with ⟨-, ⟨hLeftNodup, hRightNodup, hSides⟩, hApart⟩
    have hOther : ∀ {l : List I}, x ∉ l → ∀ y ∈ l, key' y = key y := by
      intro l hNot y hy
      apply hSame
      rintro rfl
      exact hNot hy
    unfold Tree.unsort
    by_cases hIn : x ∈ both
    · have hOut : x ∉ left.items ++ right.items := fun hx => hApart x hIn x hx rfl
      rw [mem_append, not_or] at hOut
      rw [if_pos hIn]
      refine ⟨by simp, ?_, ?_⟩
      · exact hLeft.congr (hOther hOut.1)
      · exact hRight.congr (hOther hOut.2)
    · rw [if_neg hIn]
      have hBoth' : sorted = true → Ascending key' both :=
        fun hSorted => (hBoth hSorted).congr (hOther hIn)
      by_cases hInLeft : x ∈ left.items
      · have hOut : x ∉ right.items := fun hx => hSides x hInLeft x hx rfl
        rw [if_pos hInLeft]
        exact ⟨hBoth', ihLeft hLeftNodup hLeft, hRight.congr (hOther hOut)⟩
      · rw [if_neg hInLeft]
        exact ⟨hBoth', hLeft.congr (hOther hInLeft), ihRight hRightNodup hRight⟩

end

---
-- Merging
---

open Option
variable {I : Type}

/-
  The first loop merges what it goes through, and stops in
  front of an item that comes behind its last one.
-/
theorem mergeLoop_spec (key : I → Nat) (visible : I → Bool)
    (moving both : List I) :
    let result := (mergeLoop key visible moving both).1
    let rest := (mergeLoop key visible moving both).2
    (result ++ rest.filter visible).Perm
        (moving ++ both.filter visible) ∧
      (Ascending key moving → Ascending key both →
        Ascending key (result ++ rest.filter visible)) ∧
      (moving ≠ [] → ∃ last, result.getLast? = some last ∧ ∀ b bs,
        rest = b :: bs → visible b = true ∧ key last < key b) := by
  fun_induction mergeLoop key visible moving both with
  | case1 moving =>
    refine ⟨List.Perm.refl _, ?_, ?_⟩
    · intro hMoving _
      simpa using hMoving
    · intro hSome
      refine ⟨moving.getLast hSome, getLast?_eq_some_getLast hSome, ?_⟩
      intro b bs hNil
      exact nomatch hNil
  | case2 b both =>
    refine ⟨List.Perm.refl _, ?_, ?_⟩
    · intro _ hBoth
      exact hBoth.sublist filter_sublist
    · intro hSome
      exact absurd rfl hSome
  | case3 item moving b both hHidden ih =>
    rcases ih with ⟨hPerm, hSorted, hLast⟩
    refine ⟨?_, ?_, hLast⟩
    · rw [filter_cons_of_neg (by simp [hHidden])]
      exact hPerm
    · intro hMoving hBoth
      exact hSorted hMoving (List.Pairwise.of_cons hBoth)
  | case4 item moving b both hShown hLess result rest hEq ih =>
    rw [hEq] at ih
    rcases ih with ⟨hPerm, hSorted, hLast⟩
    refine ⟨hPerm.cons item, ?_, ?_⟩
    · intro hMoving hBoth
      have hRest := hSorted (List.Pairwise.of_cons hMoving) hBoth
      refine pairwise_cons.mpr ⟨?_, hRest⟩
      intro y hy
      rcases mem_append.mp (hPerm.mem_iff.mp hy) with hy | hy
      · exact rel_of_pairwise_cons hMoving hy
      · rcases mem_cons.mp (mem_of_mem_filter hy) with
          rfl | hy
        · exact hLess.le
        · exact hLess.le.trans (rel_of_pairwise_cons hBoth hy)
    · intro _
      cases moving with
      | nil =>
        have hEnd : mergeLoop key visible [] (b :: both) = ([], b :: both) := by
          unfold mergeLoop
          rfl
        rw [hEnd] at hEq
        obtain ⟨rfl, rfl⟩ := Prod.mk.inj hEq
        refine ⟨item, rfl, ?_⟩
        intro b' bs hCons
        obtain ⟨rfl, -⟩ := List.cons.inj hCons
        exact ⟨by simpa using hShown, hLess⟩
      | cons next moving =>
        rcases hLast (cons_ne_nil _ _) with ⟨last, hGet, hStop⟩
        exact ⟨last, by rw [getLast?_cons, hGet]; rfl, hStop⟩
  | case5 item moving b both hShown hNotLess result rest hEq ih =>
    rw [hEq] at ih
    rcases ih with ⟨hPerm, hSorted, hLast⟩
    have hVisible : visible b = true := by simpa using hShown
    refine ⟨?_, ?_, ?_⟩
    · rw [filter_cons_of_pos hVisible]
      exact (hPerm.cons b).trans perm_middle.symm
    · intro hMoving hBoth
      have hRest := hSorted hMoving (List.Pairwise.of_cons hBoth)
      refine pairwise_cons.mpr ⟨?_, hRest⟩
      intro y hy
      rcases mem_append.mp (hPerm.mem_iff.mp hy) with hy | hy
      · rcases mem_cons.mp hy with rfl | hy
        · exact Nat.le_of_not_lt hNotLess
        · exact (Nat.le_of_not_lt hNotLess).trans (rel_of_pairwise_cons hMoving hy)
      · exact rel_of_pairwise_cons hBoth (mem_of_mem_filter hy)
    · intro _
      rcases hLast (cons_ne_nil _ _) with ⟨last, hGet, hStop⟩
      exact ⟨last, by rw [getLast?_cons, hGet]; rfl, hStop⟩

/- So the second loop has nothing to do. -/
theorem mergeLast_stop {key : I → Nat} {visible : I → Bool} {last : Nat} {rest : List I}
    (hStop : ∀ b bs, rest = b :: bs → visible b = true ∧ last < key b) :
    mergeLast key visible last rest = ([], rest) := by
  cases rest with
  | nil => rfl
  | cons b bs =>
    rcases hStop b bs rfl with ⟨hVisible, hLess⟩
    unfold mergeLast
    rw [if_neg (by simp [hVisible]), if_pos hLess]

/- The visible items of a list are merged into the result. -/
theorem merge_spec (key : I → Nat) (visible : I → Bool)
    (result both : List I) :
    (merge key visible result both).Perm
        (result ++ both.filter visible) ∧
      (Ascending key result → Ascending key both →
        Ascending key (merge key visible result both)) := by
  cases both with
  | nil =>
    simp only [merge, filter_nil, append_nil]
    exact ⟨List.Perm.refl _, fun hResult _ => hResult⟩
  | cons b both =>
    cases result with
    | nil =>
      refine ⟨List.Perm.refl _, ?_⟩
      intro _ hBoth
      exact hBoth.sublist filter_sublist
    | cons item result =>
      have hSpec := mergeLoop_spec key visible (item :: result) (b :: both)
      dsimp only at hSpec
      rcases hSpec with ⟨hPerm, hSorted, hLast⟩
      rcases hLast (cons_ne_nil _ _) with ⟨last, hGet, hStop⟩
      have hMerge : merge key visible (item :: result) (b :: both) =
          (mergeLoop key visible (item :: result) (b :: both)).1 ++
          (mergeLoop key visible (item :: result) (b :: both)).2.filter
          visible := by
        simp only [merge, hGet, mergeLast_stop hStop, append_nil]
        rw [dropLast_append_getLast? last hGet]
      rw [hMerge]
      exact ⟨hPerm, hSorted⟩

/- What a search leaves of a tree, and what it has found. -/
structure Found (st : Store I) (t : Tree I) (result : List I)
    (found : Tree I × List I) : Prop where
  items : found.1.items.Perm t.items
  ok : TreeOk st.index found.1
  ascending : Ascending st.index found.2
  mem : ∀ x ∈ found.2, x ∈ result ∨ x ∈ t.items

/- One child of a node, which is searched or is not. -/
def visitTree (ops : ListOps I) (st : Store I) (target : Size)
    (direction : Bool) (size : Size) (t : Tree I) (result : List I) : Tree I × List I :=
  if size.meets target direction then
    collideTree ops st target t result (!direction) size
  else
    (t, result)

theorem collideTree_node (ops : ListOps I) (st : Store I)
    (target : Size) (both : List I) (sorted : Bool)
    (left right : Tree I) (result : List I) (direction : Bool)
    (size : Size) :
    collideTree ops st target (.node both sorted left right)
        result direction size =
      let both := if sorted then both else ops.sort st.index both
      let first := visitTree ops st target direction (size.low direction) left
        (merge st.index st.visible result both)
      let second := visitTree ops st target direction (size.high direction) right first.2
      (.node both true first.1 second.1, second.2) := rfl

/-
  The search keeps the items of a tree, sorts its nodes, and
  merges lists that are sorted.
-/
theorem collideTree_spec (ops : ListOps I) (st : Store I)
    (target : Size) (t : Tree I) :
    ∀ (result : List I) (direction : Bool) (size : Size),
      TreeOk st.index t →
      Ascending st.index result →
      Found st t result (collideTree ops st target t result direction size) := by
  induction t with
  | nil =>
    intro result direction size _ hResult
    exact ⟨List.Perm.refl _, trivial, hResult, fun x hx => .inl hx⟩
  | node both sorted left right ihLeft ihRight =>
    intro result direction size hOk hResult
    rcases hOk with ⟨hBoth, hLeft, hRight⟩
    rw [collideTree_node]
    extract_lets both' first second
    have hPerm : both'.Perm both := by
      unfold both'
      split
      · exact List.Perm.refl _
      · exact ops.perm_sort _ _
    have hSorted : Ascending st.index both' := by
      unfold both'
      split
      · rename_i hFlag
        exact hBoth hFlag
      · exact ops.ascending_sort _ _
    have hMerge := merge_spec st.index st.visible result both'
    have hFirst : Found st left (merge st.index st.visible result both') first := by
      unfold first visitTree
      split
      · exact ihLeft _ _ _ hLeft (hMerge.2 hResult hSorted)
      · exact ⟨List.Perm.refl _, hLeft, hMerge.2 hResult hSorted, fun x hx => .inl hx⟩
    have hSecond : Found st right first.2 second := by
      unfold second visitTree
      split
      · exact ihRight _ _ _ hRight hFirst.ascending
      · exact ⟨List.Perm.refl _, hRight, hFirst.ascending, fun x hx => .inl hx⟩
    refine ⟨?_, ?_, hSecond.ascending, ?_⟩
    · exact hPerm.append (hFirst.items.append hSecond.items)
    · exact ⟨fun _ => hSorted, hFirst.ok, hSecond.ok⟩
    · intro x hx
      simp only [Tree.items, mem_append]
      rcases hSecond.mem x hx with hx | hx
      · rcases hFirst.mem x hx with hx | hx
        · rcases mem_append.mp (hMerge.1.mem_iff.mp hx) with hx | hx
          · exact .inl hx
          · exact .inr (.inl (hPerm.mem_iff.mp (mem_of_mem_filter hx)))
        · exact .inr (.inr (.inl hx))
      · exact .inr (.inr (.inr hx))

---
-- Updates
---

/- An object that is to be in the tree -/
def Store.comes (st : Store I) (x : I) : Bool :=
  st.visible x && !(st.items x).deleteMe

/-
  Some objects do not wait any more; otherwise only the list
  of the hidden items may differ.
-/
structure Cleared (st st' : Store I) (objects : List I) : Prop where
  index : ∀ x, st'.index x = st.index x
  visible : ∀ x, st'.visible x = st.visible x
  deleteMe : ∀ x,
    (st'.items x).deleteMe = (st.items x).deleteMe
  change : ∀ x, (st'.items x).change = true ↔
    (st.items x).change = true ∧ x ∉ objects

variable {st st' : Store I}

theorem Cleared.of_items (hItems : st'.items = st.items) : Cleared st st' [] where
  index x := by
    unfold Store.index
    rw [hItems]
  visible x := by
    unfold Store.visible
    rw [hItems]
  deleteMe x := by rw [hItems]
  change x := by
    rw [hItems]
    simp

variable {xs ys : List I}

theorem Cleared.trans {st₁ st₂ : Store I} (hFirst : Cleared st st₁ xs)
    (hSecond : Cleared st₁ st₂ ys) : Cleared st st₂ (xs ++ ys) where
  index x := (hSecond.index x).trans (hFirst.index x)
  visible x := (hSecond.visible x).trans (hFirst.visible x)
  deleteMe x := (hSecond.deleteMe x).trans (hFirst.deleteMe x)
  change x := by
    rw [hSecond.change, hFirst.change, mem_append]
    tauto

theorem Cleared.comes (hCleared : Cleared st st' xs) : st'.comes = st.comes := by
  funext x
  unfold Store.comes
  rw [hCleared.visible, hCleared.deleteMe]

theorem Cleared.index_eq (hCleared : Cleared st st' xs) : st'.index = st.index :=
  funext hCleared.index

/- What an update does with the objects that it is given. -/
structure Admitted (st st' : Store I) (objects : List I) : Prop extends Cleared st st' objects where
  live : ∀ x, x ∈ st'.live ↔
    x ∈ st.live ∧ ¬ (x ∈ objects ∧ st.visible x = true ∧ (st.items x).deleteMe = true)

theorem Cleared.admitted {objects : List I}
    (hCleared : Cleared st st' objects) (hLive : st'.live = st.live)
    (hKept : ∀ x ∈ objects, ¬ (st.visible x = true ∧
      (st.items x).deleteMe = true)) : Admitted st st' objects where
  toCleared := hCleared
  live x := by
    rw [hLive]
    constructor
    · exact fun h => ⟨h, fun hGone => hKept x hGone.1 hGone.2⟩
    · exact And.left

theorem Admitted.refl (st : Store I) : Admitted st st [] :=
  (Cleared.of_items rfl).admitted rfl (by simp)

theorem Admitted.trans {st₁ st₂ : Store I}
    (hFirst : Admitted st st₁ xs) (hSecond : Admitted st₁ st₂ ys) : Admitted st st₂ (xs ++ ys) where
  toCleared := hFirst.toCleared.trans hSecond.toCleared
  live x := by
    rw [hSecond.live, hFirst.live, hFirst.visible, hFirst.deleteMe, mem_append]
    tauto

theorem Admitted.congr (hAdmitted : Admitted st st' xs)
    (hSame : ∀ x, x ∈ xs ↔ x ∈ ys) : Admitted st st' ys where
  index := hAdmitted.index
  visible := hAdmitted.visible
  deleteMe := hAdmitted.deleteMe
  change x := by
    rw [hAdmitted.change, hSame]
  live x := by
    rw [hAdmitted.live, hSame]

/- The objects that a callback puts on one side -/
def sideOf (comes : I → Bool) (func : I → Quad) (side : Quad) (objects : List I) : List I :=
  (objects.filter comes).filter fun x => func x = side

/- Each object that comes is on one side. -/
theorem sideOf_perm (comes : I → Bool) (func : I → Quad)
    (objects : List I) :
    (sideOf comes func .both objects ++ (sideOf comes func .left
        objects ++ sideOf comes func .right objects)).Perm (objects.filter comes) := by
  unfold sideOf
  induction objects.filter comes with
  | nil => exact List.Perm.refl _
  | cons x kept ih =>
    cases hSide : func x with
    | both =>
      simp only [filter_cons, hSide]
      exact ih.cons x
    | left =>
      simp only [filter_cons, hSide]
      exact perm_middle.trans (ih.cons x)
    | right =>
      simp only [filter_cons, hSide]
      rw [← append_assoc] at ih ⊢
      exact perm_middle.trans (ih.cons x)

theorem filter_sideOf (comes : I → Bool) (func : I → Quad)
    (side : Quad) (objects : List I) :
    (sideOf comes func side objects).filter comes = sideOf comes func side objects := by
  apply filter_eq_self.mpr
  intro x hx
  exact (mem_filter.mp (mem_of_mem_filter hx)).2

/-
  The objects that come into an inner node that is flagged
  sorted are put behind the items of its list, and come with
  ascending indices.
-/
def InOrder (key : I → Nat) (comes : I → Bool) (func : Callbacks I) :
    Nat → Tree I → List I → Bool → Size → Prop
  | _, _, [], _, _ => True
  | 0, _, _ :: _, _, _ => True
  | n + 1, root, x :: objects, direction, size =>
    let side (q : Quad) :=
      sideOf comes (func.side direction size) q (x :: objects)
    let (both, sorted, left, right) := root.parts
    4 < size.middle direction →
      (sorted = true →
        Ascending key (side .both) ∧
          ∀ b ∈ both, ∀ y ∈ side .both, key b ≤ key y) ∧
      InOrder key comes func n left (side .left)
        (!direction) (size.low direction) ∧
      InOrder key comes func n right (side .right)
        (!direction) (size.high direction)

def Size.extent (size : Size) : Nat :=
  size.w.toNat + size.h.toNat

/- Below an inner node there is less space. -/
theorem extent_lt (size : Size) (direction : Bool)
    (hInner : 4 < size.middle direction) :
    (size.low direction).extent < size.extent ∧ (size.high direction).extent < size.extent := by
  have hHalf : ∀ e : Int, 4 < e.tdiv 2 → (e - e.tdiv 2).toNat < e.toNat := by
    intro e he
    have hPos : 0 ≤ e := by
      by_contra hNeg
      have hNonneg := Int.tdiv_nonneg (a := -e) (b := 2) (by omega) (by decide)
      rw [Int.neg_tdiv] at hNonneg
      omega
    rw [Int.tdiv_eq_ediv_of_nonneg hPos] at he ⊢
    omega
  cases direction with
  | true =>
    have := hHalf size.w hInner
    simp only [Size.low, Size.high, Size.extent, if_true]
    exact ⟨by simpa [Size.middle] using this, by simpa [Size.middle] using this⟩
  | false =>
    have := hHalf size.h hInner
    exact ⟨by simpa [Size.low, Size.extent, Size.middle] using this,
      by simpa [Size.high, Size.low, Size.extent, Size.middle] using this⟩

variable [DecidableEq I]

/- Flags of an item that the order does not depend on. -/
theorem cleared_setItem {x : I} {item : Item} {objects : List I}
    (hItems : st'.items = Function.update st.items x item)
    (hIndex : item.index = (st.items x).index) (hVisible : item.visible = (st.items x).visible)
    (hDelete : item.deleteMe = (st.items x).deleteMe)
    (hChange : item.change = true ↔
      (st.items x).change = true ∧ x ∉ objects)
    (hOthers : ∀ y, y ≠ x → y ∉ objects) : Cleared st st' objects := by
  have hAt : ∀ y, (y = x ∧ st'.items y = item) ∨ (y ≠ x ∧ st'.items y = st.items y) := by
    intro y
    rw [hItems]
    by_cases hEq : y = x
    · subst hEq
      exact .inl ⟨rfl, Function.update_self ..⟩
    · exact .inr ⟨hEq, Function.update_of_ne hEq ..⟩
  refine ⟨?_, ?_, ?_, ?_⟩
  · intro y
    unfold Store.index
    rcases hAt y with ⟨rfl, hEq⟩ | ⟨-, hEq⟩
    · rw [hEq, hIndex]
    · rw [hEq]
  · intro y
    unfold Store.visible
    rcases hAt y with ⟨rfl, hEq⟩ | ⟨-, hEq⟩
    · rw [hEq, hVisible]
    · rw [hEq]
  · intro y
    rcases hAt y with ⟨rfl, hEq⟩ | ⟨-, hEq⟩
    · rw [hEq, hDelete]
    · rw [hEq]
  · intro y
    rcases hAt y with ⟨rfl, hEq⟩ | ⟨hNe, hEq⟩
    · rw [hEq, hChange]
    · rw [hEq]
      exact ⟨fun h => ⟨h, hOthers y hNe⟩, And.left⟩

theorem cleared_hide (st : Store I) (x : I) : Cleared st (st.hide x) [] :=
  cleared_setItem rfl rfl rfl rfl (by simp) (by simp)

theorem cleared_unhide (st : Store I) (x : I) : Cleared st (st.unhide x) [] :=
  cleared_setItem rfl rfl rfl rfl (by simp) (by simp)

/- One object -/
theorem accept_spec (st : Store I) (x : I) :
    (accept st x).2 = st.comes x ∧ Admitted st (accept st x).1 [x] := by
  unfold accept
  extract_lets item st₁ st₂
  have hClear : Cleared st st₁ [x] := cleared_setItem rfl rfl rfl rfl (by simp) (by simp)
  have hHidden : Cleared st₁ st₂ [] ∧ st₂.live = st₁.live := by
    unfold st₂
    split
    · exact ⟨cleared_unhide st₁ x, rfl⟩
    · exact ⟨.of_items rfl, rfl⟩
  have hBoth := hClear.trans hHidden.1
  by_cases hVisible : st.visible x = true
  · rw [if_pos ((hClear.visible x).trans hVisible)]
    by_cases hDelete : (st.items x).deleteMe = true
    · rw [if_pos ((hBoth.deleteMe x).trans hDelete)]
      have hFreed : Cleared st (st₂.free x) [x] := hBoth.trans (.of_items rfl)
      refine ⟨by simp [Store.comes, hDelete], hFreed, ?_⟩
      intro y
      have hLive : (st₂.free x).live = st.live.erase x := congrArg (Finset.erase · x) hHidden.2
      rw [hLive, Finset.mem_erase, mem_singleton]
      constructor
      · rintro ⟨hNe, hLive⟩
        exact ⟨hLive, fun h => hNe h.1⟩
      · rintro ⟨hLive, hNot⟩
        refine ⟨?_, hLive⟩
        rintro rfl
        exact hNot ⟨rfl, hVisible, hDelete⟩
    · rw [if_neg (by rw [hBoth.deleteMe]; exact hDelete)]
      refine ⟨by simp [Store.comes, hVisible, hDelete], ?_⟩
      apply Cleared.admitted hBoth hHidden.2
      intro y hy
      obtain rfl := mem_singleton.mp hy
      exact fun h => hDelete h.2
  · rw [if_neg (by rw [hClear.visible]; exact hVisible)]
    refine ⟨by simp [Store.comes, hVisible], ?_⟩
    have hKept : ∀ y ∈ [x], ¬ (st.visible y = true ∧ (st.items y).deleteMe = true) := by
      intro y hy
      obtain rfl := mem_singleton.mp hy
      exact fun h => hVisible h.1
    dsimp only
    split
    · exact hClear.admitted rfl hKept
    · exact (hClear.trans (cleared_hide st₁ x)).admitted rfl hKept

/- The objects that come into a leaf -/
theorem split_leaf (ops : ListOps I) (func : I → Quad)
    (sorted : Bool) (objects : List I) :
    ∀ (st : Store I) (both left right : List I),
      ∃ st' both', split ops true func sorted objects st both
          left right = (st', both', left, right) ∧
        Admitted st st' objects ∧
        both'.Perm (both ++ objects.filter st.comes) ∧
        (sorted = true → Ascending st.index both → Ascending st.index both') := by
  induction objects with
  | nil =>
    intro st both left right
    refine ⟨st, both, rfl, .refl st, by simp, ?_⟩
    exact fun _ hBoth => hBoth
  | cons x objects ih =>
    intro st both left right
    have hAdmit := accept_spec st x
    rcases hEq : accept st x with ⟨st₁, comes⟩
    rw [hEq] at hAdmit
    rcases hAdmit with ⟨rfl, hAdmitted⟩
    unfold split
    rw [hEq]
    dsimp only
    cases hComes : st.comes x with
    | false =>
      rw [if_neg (by simp)]
      rcases ih st₁ both left right with ⟨st', both', hRun, hRest, hPerm, hSorted⟩
      refine ⟨st', both', hRun, hAdmitted.trans hRest, ?_, ?_⟩
      · rw [filter_cons_of_neg (by simp [hComes]), ← hAdmitted.comes]
        exact hPerm
      · rw [← hAdmitted.index_eq]
        exact hSorted
    | true =>
      rw [if_pos rfl, if_pos rfl]
      rcases ih st₁ (if sorted = true then
          ops.sortedInsert st₁.index both x
        else both ++ [x]) left right with ⟨st', both', hRun, hRest, hPerm, hSorted⟩
      refine ⟨st', both', hRun, hAdmitted.trans hRest, ?_, ?_⟩
      · rw [filter_cons_of_pos hComes, ← hAdmitted.comes]
        refine hPerm.trans ?_
        have hMiddle : (x :: both ++ objects.filter st₁.comes).Perm
            (both ++ x :: objects.filter st₁.comes) := perm_middle.symm
        refine List.Perm.trans ?_ hMiddle
        apply List.Perm.append_right
        split
        · exact ops.perm_sortedInsert _ _ _
        · exact perm_append_singleton x both
      · intro hFlag hBoth
        rw [← hAdmitted.index_eq] at hBoth ⊢
        apply hSorted hFlag
        rw [if_pos hFlag]
        exact ops.ascending_sortedInsert _ _ _ hBoth

/- The objects that come into an inner node -/
theorem split_inner (ops : ListOps I) (func : I → Quad)
    (sorted : Bool) (objects : List I) :
    ∀ (st : Store I) (both left right : List I),
      ∃ st', split ops false func sorted objects st both left
          right =
          (st', both ++ sideOf st.comes func .both objects,
            left ++ sideOf st.comes func .left objects,
            right ++ sideOf st.comes func .right objects) ∧
        Admitted st st' objects := by
  induction objects with
  | nil =>
    intro st both left right
    exact ⟨st, by simp [split, sideOf], .refl st⟩
  | cons x objects ih =>
    intro st both left right
    have hAdmit := accept_spec st x
    rcases hEq : accept st x with ⟨st₁, comes⟩
    rw [hEq] at hAdmit
    rcases hAdmit with ⟨rfl, hAdmitted⟩
    have hStays : ∀ side, st.comes x = false →
        sideOf st.comes func side (x :: objects) = sideOf st₁.comes func side objects := by
      intro side hComes
      rw [hAdmitted.comes]
      simp [sideOf, hComes]
    have hGoes : ∀ side, st.comes x = true →
        sideOf st.comes func side (x :: objects) =
          if func x = side then
            x :: sideOf st₁.comes func side objects
          else
            sideOf st₁.comes func side objects := by
      intro side hComes
      rw [hAdmitted.comes]
      unfold sideOf
      rw [filter_cons_of_pos hComes, filter_cons]
      simp
    unfold split
    rw [hEq]
    dsimp only
    cases hComes : st.comes x with
    | false =>
      rw [if_neg (by simp)]
      rcases ih st₁ both left right with ⟨st', hRun, hRest⟩
      refine ⟨st', ?_, hAdmitted.trans hRest⟩
      rw [hRun, hStays _ hComes, hStays _ hComes, hStays _ hComes]
    | true =>
      rw [if_pos rfl, if_neg (by simp), hGoes _ hComes, hGoes _ hComes, hGoes _ hComes]
      cases func x with
      | left =>
        rcases ih st₁ both (left ++ [x]) right with ⟨st', hRun, hRest⟩
        refine ⟨st', ?_, hAdmitted.trans hRest⟩
        simp [hRun]
      | right =>
        rcases ih st₁ both left (right ++ [x]) with ⟨st', hRun, hRest⟩
        refine ⟨st', ?_, hAdmitted.trans hRest⟩
        simp [hRun]
      | both =>
        rcases ih st₁ (both ++ [x]) left right with ⟨st', hRun, hRest⟩
        refine ⟨st', ?_, hAdmitted.trans hRest⟩
        simp [hRun]

theorem update_nil (ops : ListOps I) (func : Callbacks I) (n : Nat)
    (st : Store I) (root : Tree I) (direction : Bool) (size : Size) :
    update ops func n st root [] direction size = some (st, root) := by
  cases n <;> rfl

/-
  An update comes to its end, the objects that come are in
  the tree, and its lists stay sorted.
-/
theorem update_spec (ops : ListOps I) (func : Callbacks I) (n : Nat) :
    ∀ (st : Store I) (root : Tree I) (objects : List I) (direction : Bool) (size : Size),
      size.extent < n →
      TreeOk st.index root →
      InOrder st.index st.comes func n root objects direction size →
      ∃ st' root',
        update ops func n st root objects direction size =
          some (st', root') ∧
        Admitted st st' objects ∧
        root'.items.Perm (root.items ++ objects.filter st.comes) ∧ TreeOk st.index root' := by
  induction n with
  | zero =>
    intro st root objects direction size hFuel
    omega
  | succ n ih =>
    intro st root objects direction size hFuel hOk hOrder
    cases objects with
    | nil => exact ⟨st, root, rfl, .refl st, by simp, hOk⟩
    | cons x objects =>
      rcases hOk.parts with ⟨hBoth, hLeft, hRight⟩
      rw [items_parts root]
      unfold InOrder at hOrder
      unfold update
      rcases hParts : root.parts with ⟨both, sorted, left, right⟩
      rw [hParts] at hBoth hLeft hRight hOrder
      dsimp only at hBoth hLeft hRight hOrder ⊢
      by_cases hLeaf : size.middle direction ≤ 4
      · rcases split_leaf ops (func.side direction size) sorted (x :: objects) st both [] [] with
          ⟨st', both', hSplit, hAdmitted, hPerm, hSorted⟩
        rw [decide_eq_true hLeaf, hSplit]
        simp only [update_nil, bind_eq_bind, bind_some]
        refine ⟨st', _, rfl, hAdmitted, ?_, ?_⟩
        · have hRest := hPerm.append_right (left.items ++ right.items)
          rw [append_assoc] at hRest ⊢
          exact hRest.trans (List.perm_append_comm.append_left both)
        · exact ⟨fun hFlag => hSorted hFlag (hBoth hFlag), hLeft, hRight⟩
      · rcases split_inner ops (func.side direction size)
          sorted (x :: objects) st both [] [] with ⟨st₁, hSplit, hAdmitted₁⟩
        rcases hOrder (by omega) with ⟨hHere, hLeftOrder, hRightOrder⟩
        have hLess := extent_lt size direction (by omega)
        rw [decide_eq_false hLeaf, hSplit]
        simp only [nil_append, bind_eq_bind]
        rw [← hAdmitted₁.index_eq] at hLeft
        rw [← hAdmitted₁.index_eq, ← hAdmitted₁.comes] at hLeftOrder
        rcases ih st₁ left _ (!direction) (size.low direction) (by omega) hLeft hLeftOrder with
          ⟨st₂, left', hRunLeft, hAdmitted₂, hPermLeft, hOkLeft⟩
        have hKeys := hAdmitted₁.trans hAdmitted₂
        rw [← hKeys.index_eq] at hRight
        rw [← hKeys.index_eq, ← hKeys.comes] at hRightOrder
        rcases ih st₂ right _ (!direction) (size.high direction) (by omega) hRight hRightOrder with
          ⟨st₃, right', hRunRight, hAdmitted₃, hPermRight, hOkRight⟩
        rw [hAdmitted₁.comes] at hRunLeft hPermLeft
        rw [hKeys.comes] at hRunRight hPermRight
        rw [filter_sideOf] at hPermLeft hPermRight
        rw [hRunLeft, bind_some]
        dsimp only
        rw [hRunRight, bind_some]
        refine ⟨st₃, _, rfl, ?_, ?_, ?_, ?_, ?_⟩
        · apply (hKeys.trans hAdmitted₃).congr
          intro y
          have hSub : ∀ side, y ∈ sideOf st.comes (func.side direction size) side
              (x :: objects) → y ∈ x :: objects :=
            fun side hy => mem_of_mem_filter (mem_of_mem_filter hy)
          rw [hAdmitted₁.comes, hKeys.comes]
          simp only [mem_append]
          constructor
          · rintro ((hy | hy) | hy)
            · exact hy
            · exact hSub _ hy
            · exact hSub _ hy
          · exact fun hy => .inl (.inl hy)
        · have hSides := sideOf_perm st.comes (func.side direction size) (x :: objects)
          apply perm_iff_count.mpr
          intro y
          have hCount := hSides.count_eq y
          have hCountLeft := hPermLeft.count_eq y
          have hCountRight := hPermRight.count_eq y
          simp only [Tree.items, count_append] at hCount hCountLeft hCountRight ⊢
          omega
        · intro hFlag
          rcases hHere hFlag with ⟨hNew, hBehind⟩
          exact pairwise_append.mpr ⟨hBoth hFlag, hNew, hBehind⟩
        · rw [← hAdmitted₁.index_eq]
          exact hOkLeft
        · rw [← hKeys.index_eq]
          exact hOkRight

/- The items of the old tree, of which the visible ones come -/
theorem rebuildItems_spec (both : List I) :
    ∀ (st : Store I) (change : List I),
      ∃ st', both.foldl rebuildItem (st, change) =
          (st', change ++ both.filter st.visible) ∧
        Admitted st st' [] := by
  induction both with
  | nil =>
    intro st change
    exact ⟨st, by simp, .refl st⟩
  | cons x both ih =>
    intro st change
    have hStep : ∃ st', rebuildItem (st, change) x =
        (st', change ++ [x].filter st.visible) ∧ Cleared st st' [] ∧ st'.live = st.live := by
      unfold rebuildItem
      dsimp only
      by_cases hVisible : st.visible x = true
      · rw [if_pos hVisible]
        exact ⟨st, by simp [hVisible], .of_items rfl, rfl⟩
      · rw [if_neg hVisible]
        split
        · exact ⟨st, by simp [hVisible], .of_items rfl, rfl⟩
        · exact ⟨st.hide x, by simp [hVisible], cleared_hide st x, rfl⟩
    rcases hStep with ⟨st₁, hEq, hCleared, hLive⟩
    rcases ih st₁ (change ++ [x].filter st.visible) with ⟨st', hRun, hRest⟩
    refine ⟨st', ?_, (hCleared.admitted hLive (by simp)).trans hRest⟩
    have hVisible : st₁.visible = st.visible := funext hCleared.visible
    rw [foldl_cons, hEq, hRun, hVisible, append_assoc, ← filter_append]
    rfl

theorem rebuildPre_spec (t : Tree I) :
    ∀ (st : Store I) (change : List I),
      ∃ st', rebuildPre t (st, change) =
          (st', change ++ t.items.filter st.visible) ∧
        Admitted st st' [] := by
  induction t with
  | nil =>
    intro st change
    exact ⟨st, by simp [rebuildPre, Tree.items], .refl st⟩
  | node both sorted left right ihLeft ihRight =>
    intro st change
    rcases rebuildItems_spec both st change with ⟨st₁, hBoth, hAdmitted₁⟩
    rcases ihLeft st₁ (change ++ both.filter st.visible) with ⟨st₂, hLeft, hAdmitted₂⟩
    rcases ihRight st₂ (change ++ both.filter st.visible ++
      left.items.filter st₁.visible) with ⟨st₃, hRight, hAdmitted₃⟩
    have hFirst := hAdmitted₁.trans hAdmitted₂
    refine ⟨st₃, ?_, hFirst.trans hAdmitted₃⟩
    unfold rebuildPre
    rw [hBoth, hLeft, hRight, funext hAdmitted₁.visible,
      funext hFirst.visible, Tree.items, filter_append, filter_append]
    simp only [append_assoc]

end Efl.Eina.Quadtree
