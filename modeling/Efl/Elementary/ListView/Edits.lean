import Efl.Elementary.ListView.Contents

/-
  What an append and a removal do, where they are right.

  Main declarations:
    * `Room`, `Removable`
    * `insertObject_spec`
    * `remove_spec`
-/

---
-- The Last Segment
---

namespace Efl.Elementary.ListView

open CInt RedBlack List Function

/-
  An item can be appended: the sums are numbers, what the
  lookup finds is the last segment, and the way to a new last
  segment fits on the stack.
-/
structure Room (pd : SegArray) : Prop where
  small : pd.count + pd.stepSize ≤ intMax
  last : ∀ n, lookup pd (insertLookup pd pd.count) =
      some (some n) →
    ∃ ns, Eina.Rbtree.inorder pd.tree pd.nodes pd.tree.root =
      some (n :: ns)
  depth : lookup pd (insertLookup pd pd.count) = some none →
    ∀ t, Eina.Rbtree.Repr pd.tree pd.tree.root t →
      Eina.Rbtree.leftDepth t ≤ Eina.Rbtree.stackSize

/- Only segments were added. -/
structure SameItems (pd pd' : SegArray) : Prop where
  item : pd'.item = pd.item
  items : pd'.items = pd.items
  count : pd'.count = pd.count
  step : pd'.stepSize = pd.stepSize

/- The last segment has room for an item. -/
structure LastRoom (pd : SegArray) (t : RedBlack.Tree Nat) (n : Nat) : Prop where
  last : ∃ ns, t.toList = n :: ns
  room : (pd.node n).length < (pd.node n).max

variable {pd : SegArray} {t : RedBlack.Tree Nat} {its : List Nat}

variable {n : Nat}

theorem Inv.found_last (hInv : Inv pd t its) (hRoom : Room pd)
    (hFound : lookup pd (insertLookup pd pd.count) = some (some n)) : LastRoom pd t n := by
  rcases hRoom.last n hFound with ⟨ns, hOrder⟩
  rw [Eina.Rbtree.inorder_spec hInv.repr hInv.fuel] at hOrder
  have hList := Option.some.inj hOrder
  have hHere := (Eina.Rbtree.inlineLookup_eq_some hInv.repr hFound).2
  have hCovers := hInv.covers
  rw [hList] at hCovers
  rcases hCovers with ⟨before, own, rfl, -, hFirst, hHolds⟩
  have hCount := hInv.count
  have hSmall := hRoom.small
  have hStep := hInv.step
  have hLength := hHolds.length
  have hMax := hHolds.max
  rw [length_append] at hCount
  refine ⟨⟨ns, hList⟩, ?_⟩
  unfold insertLookup at hHere
  have hWrap : wrap ((pd.node n).first + (pd.node n).max) =
      (pd.node n).first + (pd.node n).max := by
    apply wrap_of_inRange
    unfold InRange
    unfold intMax at hSmall
    omega
  rw [hWrap] at hHere
  split at hHere
  · exact absurd hHere (by decide)
  split at hHere
  · omega
  · exact absurd hHere (by decide)

/- All segments start before the end. -/
theorem Inv.first_lt (hInv : Inv pd t its) (hRoom : Room pd)
    (hFound : lookup pd (insertLookup pd pd.count) = some none) :
    ∀ q ∈ t.toList, (pd.node q).first < pd.count := by
  have hCovers := hInv.covers
  have hCount := hInv.count
  have hSmall := hRoom.small
  have hStep := hInv.step
  unfold intMax at hSmall
  cases hList : t.toList with
  | nil => exact fun q hq => absurd hq (by simp)
  | cons k ns =>
    have hLeft : ∀ q ∈ t.toList, insertLookup pd pd.count q ≤ 0 := by
      intro q hq
      have hBounds := hInv.covers.bounds hq
      unfold insertLookup
      rw [if_neg (by omega)]
      split <;> decide
    have hEnd := Eina.Rbtree.inlineLookup_left_end hInv.repr hList hLeft hFound
    rw [hList] at hCovers
    rcases hCovers with ⟨before, own, rfl, hBefore, hFirst, hHolds⟩
    have hMax := hHolds.max
    rw [length_append] at hCount
    have hWrap : wrap ((pd.node k).first + (pd.node k).max) =
        (pd.node k).first + (pd.node k).max := by
      apply wrap_of_inRange
      unfold InRange
      omega
    unfold insertLookup at hEnd
    rw [hWrap, if_neg (by omega)] at hEnd
    split at hEnd
    · exact absurd hEnd (by decide)
    intro q hq
    rcases mem_cons.mp hq with rfl | hq
    · omega
    · have hBounds := hBefore.bounds hq
      omega

/- A new last segment, without items. -/
theorem Inv.allocNode (hInv : Inv pd t its) (hFirst : ∀ q ∈ t.toList, (pd.node q).first < pd.count)
    (hDepth : Eina.Rbtree.leftDepth t ≤ Eina.Rbtree.stackSize) :
    ∃ pd' t', allocNode pd pd.count = some (pd', pd.nodes) ∧
      Inv pd' t' its ∧ LastRoom pd' t' pd.nodes ∧ SameItems pd pd' := by
  have hFresh : ∀ q ∈ t.toList, q ≠ pd.nodes := fun q hq => (hInv.nodes q hq).ne
  have hNew : pd.nodes ∉ t.toList := fun hMem => hFresh _ hMem rfl
  generalize hPd : ({ pd with nodes := pd.nodes + 1 } :
    SegArray).setNode pd.nodes ⟨0, pd.stepSize, pd.count,
        List.replicate pd.stepSize.toNat none⟩ = pd₁
  have hTree : pd₁.tree = pd.tree := by rw [← hPd]; rfl
  have hNode : pd₁.node pd.nodes = ⟨0, pd.stepSize, pd.count,
      List.replicate pd.stepSize.toNat none⟩ := by
    rw [← hPd]
    exact update_self _ _ _
  have hOther : ∀ q ∈ t.toList, pd₁.node q = pd.node q := by
    intro q hq
    rw [← hPd]
    exact update_of_ne (hFresh q hq) _ _
  have hLeft : ∀ q ∈ t.toList, compare pd₁ q pd.nodes = .left := by
    intro q hq
    unfold compare
    rw [hNode, hOther q hq]
    exact if_pos (hFirst q hq)
  have hInsertDepth := Eina.Rbtree.insertDepth_left hLeft
  rcases Eina.Rbtree.inlineInsert_spec (hTree ▸ hInv.repr)
      hInv.nodup hNew (hInsertDepth.trans_le hDepth) with ⟨tree, hInsert, hRepr, hNodup⟩
  have hList := Eina.Rbtree.toList_insertTree_left hLeft
  have hCovers : Covers pd₁ t.toList 0 its := by
    apply hInv.covers.congr
    · rw [← hPd]; rfl
    · exact hOther
    · rw [← hPd]; exact fun _ _ => rfl
  refine ⟨{ pd₁ with
      tree := tree, nodeCount := wrap (pd₁.nodeCount + 1) },
    Eina.Rbtree.insertTree (compare pd₁) pd.nodes t, ?_, ?_, ⟨⟨t.toList, hList⟩, ?_⟩, ?_⟩
  · unfold ListView.allocNode
    dsimp only
    rw [hPd, hInsert]
    rfl
  · constructor
    case repr => exact hRepr
    case nodup => exact hNodup
    case nodes =>
      intro n hn
      rw [hList] at hn
      rw [← hPd]
      rcases mem_cons.mp hn with rfl | hn
      · exact Nat.lt_succ_self _
      · exact Nat.lt_succ_of_lt (hInv.nodes n hn)
    case covers =>
      rw [hList]
      refine ⟨its, [], (append_nil _).symm, ?_, ?_, ?_⟩
      · exact hCovers.congr rfl (fun _ _ => rfl) fun _ _ => rfl
      · show (pd₁.node pd.nodes).first = _
        rw [hNode]
        show pd.count = (0 : Nat) + (its.length : Int)
        rw [hInv.count]
        simp
      · have hStep : pd₁.stepSize = pd.stepSize := by
          rw [← hPd]; rfl
        constructor
        case length => exact congrArg Node.length hNode
        case max => exact (congrArg Node.max hNode).trans hStep.symm
        case size =>
          show (pd₁.node pd.nodes).pointers.length = pd₁.stepSize.toNat
          rw [hNode, hStep, length_replicate]
        case pointers => exact List.nil_prefix
        case treeNode => exact fun x hx => absurd hx (by simp)
        case indexOffset => exact fun i h => absurd h (by simp)
    case itemsNodup => exact hInv.itemsNodup
    case items => rw [← hPd]; exact hInv.items
    case count => rw [← hPd]; exact hInv.count
    case small => exact hInv.small
    case step => rw [← hPd]; exact hInv.step
  · show (pd₁.node pd.nodes).length < (pd₁.node pd.nodes).max
    rw [hNode]
    exact hInv.step
  · rw [← hPd]
    exact ⟨rfl, rfl, rfl, rfl⟩

---
-- Append
---

open Option
variable {pd' : SegArray}

variable {x : Nat} {rest : List (Option Nat)}

/- A segment with a new last item. -/
theorem Holds.append {own : List Nat} (hHolds : Holds pd n own) (hStep : pd'.stepSize = pd.stepSize)
    (hNode : pd'.node n = { pd.node n with
        length := (pd.node n).length + 1
        pointers := own.map some ++ ([some x] ++ rest) })
    (hSize : (own.map some ++ ([some x] ++ rest)).length =
      (pd.node n).pointers.length)
    (hItem : (pd'.item x).treeNode = n ∧ (pd'.item x).indexOffset = own.length)
    (hItems : ∀ y ∈ own, pd'.item y = pd.item y) : Holds pd' n (own ++ [x]) where
  length := by
    rw [hNode, length_append]
    show (pd.node n).length + 1 = _
    rw [hHolds.length]
    rfl
  max := by
    rw [hNode, hStep]
    exact hHolds.max
  size := by
    rw [hNode, hStep]
    exact hSize.trans hHolds.size
  pointers := by
    rw [hNode, map_append]
    exact ⟨rest, append_assoc _ _ _⟩
  treeNode y hy := by
    rcases mem_append.mp hy with hy | hy
    · rw [hItems y hy, hHolds.treeNode y hy]
    · rw [mem_singleton.mp hy, hItem.1]
  indexOffset i h := by
    rw [length_append, length_singleton] at h
    by_cases hOld : i < own.length
    · rw [getElem_append_left hOld, hItems _ (getElem_mem hOld), hHolds.indexOffset i hOld]
    · obtain rfl : i = own.length := by omega
      rw [getElem_append_right (Nat.le_refl _)]
      simpa using hItem.2

/- The part of `insertObject` behind the lookup -/
def appendItem (pd : SegArray) (n : Nat) (index : Int) (children : Nat) : Option SegArray :=
  if (pd.node n).length < (pd.node n).max then do
    let (pd, x) := createItemPartial pd children
    let pd ← setPointer pd n (pd.node n).length (some x)
    let pd := place pd x n (wrap (index - (pd.node n).first))
    some { pd with count := wrap (pd.count + 1) }
  else
    none

theorem insertObject_of_found {index : Int} (children : Nat)
    (hFound : lookup pd (insertLookup pd index) = some (some n)) :
    insertObject pd index children = appendItem pd n index children := by
  unfold insertObject
  rw [hFound]
  rfl

theorem insertObject_of_new {index : Int} (children : Nat)
    (hFound : lookup pd (insertLookup pd index) = some none)
    (hNew : allocNode pd index = some (pd', n)) :
    insertObject pd index children = appendItem pd' n index children := by
  unfold insertObject
  rw [hFound]
  dsimp only [bind_eq_bind, bind_some]
  rw [hNew]
  rfl

/- What an item is appended to -/
def withItem (pd : SegArray) (n children offset : Nat)
    (pointers : List (Option Nat)) : SegArray :=
  { pd with
    node := update pd.node n
      { pd.node n with
        length := (pd.node n).length + 1
        pointers := pointers }
    item := update pd.item pd.items
      ⟨children, offset, n⟩
    items := pd.items + 1
    count := pd.count + 1 }

theorem withItem_node (pd : SegArray) (n children offset : Nat)
    (pointers : List (Option Nat)) :
    (withItem pd n children offset pointers).node n =
      { pd.node n with
        length := (pd.node n).length + 1
        pointers := pointers } := update_self _ _ _

theorem withItem_node_ne {q : Nat} (children offset : Nat)
    (pointers : List (Option Nat)) (hOther : q ≠ n) :
    (withItem pd n children offset pointers).node q = pd.node q := update_of_ne hOther _ _

theorem withItem_item (pd : SegArray) (n children offset : Nat)
    (pointers : List (Option Nat)) :
    (withItem pd n children offset pointers).item pd.items =
      ⟨children, offset, n⟩ := update_self _ _ _

theorem withItem_item_ne {y : Nat} (n children offset : Nat)
    (pointers : List (Option Nat)) (hOther : y ≠ pd.items) :
    (withItem pd n children offset pointers).item y = pd.item y := update_of_ne hOther _ _

theorem appendItem_eq {offset : Nat} {index : Int} (children : Nat)
    {pointers : List (Option Nat)} (hRoom : (pd.node n).length < (pd.node n).max)
    (hWrite : Block.write (pd.node n).pointers
      (pd.node n).length.toNat [some pd.items] = some pointers)
    (hOffset : wrap (index - (pd.node n).first) = offset)
    (hLength : InRange ((pd.node n).length + 1))
    (hCount : InRange (pd.count + 1)) :
    appendItem pd n index children = some (withItem pd n children offset pointers) := by
  unfold appendItem
  rw [if_pos hRoom]
  dsimp only [createItemPartial, setPointer]
  have hNode : (({ pd.setItem pd.items ⟨children, 0, 0⟩ with
      items := pd.items + 1 } : SegArray).node n) = pd.node n := rfl
  rw [hNode, hWrite]
  dsimp only [bind_eq_bind, bind_some, place, SegArray.setNode, SegArray.setItem]
  rw [update_self, update_self, update_idem, update_idem]
  dsimp only
  rw [hOffset, wrap_of_inRange hLength, wrap_of_inRange hCount]
  rfl

/- What is kept, and what is new, when an item is appended -/
structure Appended (pd pd' : SegArray) (children : Nat) : Prop where
  kept : ∀ x < pd.items,
    (pd'.item x).children = (pd.item x).children
  new : (pd'.item pd.items).children = children

theorem Inv.appendItem (children : Nat) (hInv : Inv pd t its)
    (hLast : LastRoom pd t n) (hSmall : pd.count + 1 ≤ intMax) :
    ∃ pd', appendItem pd n pd.count children = some pd' ∧
      Inv pd' t (its ++ [pd.items]) ∧ Appended pd pd' children := by
  rcases hLast.last with ⟨ns, hList⟩
  have hCovers := hInv.covers
  rw [hList] at hCovers
  rcases hCovers with ⟨before, own, rfl, hBefore, hFirst, hHolds⟩
  have hLength := hHolds.length
  have hMax := hHolds.max
  have hSize := hHolds.size
  have hRoom := hLast.room
  have hCount := hInv.count
  have hItemsBound := hInv.items
  rw [length_append] at hCount
  unfold intMax at hSmall
  rcases hHolds.pointers with ⟨rest, hPointers⟩
  have hPointersLength := congrArg List.length hPointers
  rw [length_append, length_map] at hPointersLength
  have hBlock := Block.write_end (own.map some)
    (show [some pd.items].length ≤ rest.length by
      rw [length_singleton]; omega)
  have hWriteSize := Block.length_write hBlock
  have hAt : (own.map some).length = (pd.node n).length.toNat := by
    rw [length_map]
    omega
  rw [hPointers, hAt] at hBlock
  rw [hPointers] at hWriteSize
  have hOffset : wrap (pd.count - (pd.node n).first) = own.length := by
    rw [wrap_of_inRange] <;> [skip; unfold InRange] <;> omega
  have hResult := appendItem_eq children hRoom hBlock hOffset
    (by unfold InRange; omega) (by unfold InRange; omega)
  have hNs : n ∉ ns := by
    have hNodup := hInv.nodup
    rw [hList] at hNodup
    exact (nodup_cons.mp hNodup).1
  have hNotNew : ∀ y ∈ before ++ own, y ≠ pd.items := fun y hy => (hItemsBound y hy).ne
  refine ⟨_, hResult, ?_, ?_⟩
  · constructor
    case repr => exact hInv.repr
    case nodup => exact hInv.nodup
    case nodes => exact hInv.nodes
    case covers =>
      rw [hList]
      refine ⟨before, own ++ [pd.items], append_assoc _ _ _, ?_, ?_, ?_⟩
      · refine Covers.congr hBefore rfl ?_ ?_
        · intro q hq
          exact withItem_node_ne _ _ _ (fun h => hNs (h ▸ hq))
        · intro y hy
          exact withItem_item_ne _ _ _ _ (hNotNew y (by simp [hy]))
      · rw [withItem_node]
        exact hFirst
      · refine hHolds.append rfl (withItem_node _ _ _ _ _) hWriteSize ?_ ?_
        · rw [withItem_item]
          exact ⟨rfl, rfl⟩
        · intro y hy
          exact withItem_item_ne _ _ _ _ (hNotNew y (by simp [hy]))
    case itemsNodup =>
      refine nodup_append.mpr ⟨hInv.itemsNodup, nodup_singleton _, ?_⟩
      intro a ha b hb
      rw [mem_singleton.mp hb]
      exact hNotNew a ha
    case items =>
      intro x hx
      rcases mem_append.mp hx with hx | hx
      · exact Nat.lt_succ_of_lt (hItemsBound x hx)
      · rw [mem_singleton.mp hx]
        exact Nat.lt_succ_self _
    case count =>
      show pd.count + 1 = _
      rw [hCount]
      simp only [length_append, length_singleton]
      omega
    case small =>
      unfold intMax
      simp only [length_append, length_singleton]
      omega
    case step => exact hInv.step
  · constructor
    case kept =>
      intro x hx
      rw [withItem_item_ne _ _ _ _ hx.ne]
    case new => rw [withItem_item]

/- An item at the end -/
theorem insertObject_spec (children : Nat) (hInv : Inv pd t its)
    (hRoom : Room pd) :
    ∃ pd' t', insertObject pd pd.count children = some pd' ∧
      Inv pd' t' (its ++ [pd.items]) ∧ Appended pd pd' children := by
  have hStep := hInv.step
  have hSmall := hRoom.small
  have hOne : pd.count + 1 ≤ intMax := by omega
  rcases Eina.Rbtree.inlineLookup_isSome
      (insertLookup pd pd.count) hInv.repr hInv.fuel with ⟨found, hFound⟩
  cases found with
  | some n =>
    rcases hInv.appendItem children (hInv.found_last hRoom hFound) hOne with
      ⟨pd', hAppend, hInv', hAppended⟩
    exact ⟨pd', t, (insertObject_of_found children hFound).trans hAppend, hInv', hAppended⟩
  | none =>
    rcases hInv.allocNode (hInv.first_lt hRoom hFound)
        (hRoom.depth hFound t hInv.repr) with ⟨pd₁, t₁, hNew, hInv₁, hLast, hSame⟩
    rcases hInv₁.appendItem children hLast (hSame.count ▸ hOne) with
      ⟨pd', hAppend, hInv', hAppended⟩
    rw [hSame.count] at hAppend
    rw [hSame.items] at hInv'
    refine ⟨pd', t₁, (insertObject_of_new children hFound hNew).trans hAppend, hInv', ?_, ?_⟩
    · intro x hx
      rw [hAppended.kept x (hSame.items ▸ hx), hSame.item]
    · rw [← hSame.items]
      exact hAppended.new

---
-- Removal
---

/-
  An item can be removed: the lookup finds the segment that it
  is in, and all later segments are to the left of that.
-/
def Removable (pd : SegArray) (index : Int) : Prop :=
  ∃ n, lookup pd (insertLookup pd index) = some (some n) ∧
    index - (pd.node n).first < (pd.node n).length ∧
    ∃ later earlier,
      Eina.Rbtree.inorder pd.tree pd.nodes pd.tree.root =
        some (later ++ n :: earlier) ∧
      Eina.Rbtree.inorder pd.tree pd.nodes
        ((pd.tree.node n).son .left) = some later

/- `first` of other segments is moved. -/
theorem moveLater_spec {later : List Nat} (d : Int) (hLater :
    Eina.Rbtree.inorder pd.tree pd.nodes ((pd.tree.node n).son .left) =
    some later) (hNodup : later.Nodup) :
    ∃ node, moveLater pd n d = some { pd with node := node } ∧
      (∀ q ∈ later, node q =
        { pd.node q with first := wrap ((pd.node q).first + d) }) ∧
      ∀ q ∉ later, node q = pd.node q := by
  unfold moveLater
  rw [hLater]
  dsimp only [bind_eq_bind, bind_some]
  clear hLater
  induction later generalizing pd with
  | nil =>
    exact ⟨pd.node, rfl, fun q hq => absurd hq (by simp), fun _ _ => rfl⟩
  | cons k later ih =>
    rcases nodup_cons.mp hNodup with ⟨hk, hRest⟩
    have hNext := @ih (pd.setNode k { pd.node k with
      first := wrap ((pd.node k).first + d) }) hRest
    rcases hNext with ⟨node, hFold, hMoved, hSame⟩
    refine ⟨node, hFold, ?_, ?_⟩
    · intro q hq
      rcases mem_cons.mp hq with rfl | hq
      · rw [hSame q hk]
        exact update_self _ _ _
      · rw [hMoved q hq]
        have hNe : q ≠ k := fun h => hk (h ▸ hq)
        unfold SegArray.setNode
        dsimp only
        rw [update_of_ne hNe]
    · intro q hq
      have hNe : q ≠ k := fun h => hq (by simp [h])
      rw [hSame q fun h => hq (by simp [h])]
      exact update_of_ne hNe _ _

/- The items behind the removed one -/
theorem shiftItems_spec {own : List Nat} {front : List (Option Nat)}
    {y : Option Nat} (hPointers : (pd.node n).pointers =
      front ++ y :: (own.map some ++ rest)) (hNodup : own.Nodup)
    (hRange : ∀ x ∈ own, InRange ((pd.item x).indexOffset - 1)) :
    ∃ node item z,
      shiftItems n own.length front.length pd =
        some { pd with node := node, item := item } ∧
      node n = { pd.node n with
        pointers := front ++ (own.map some ++ z :: rest) } ∧
      (∀ q, q ≠ n → node q = pd.node q) ∧
      (∀ x ∈ own, item x =
        { pd.item x with
          indexOffset := (pd.item x).indexOffset - 1 }) ∧
      ∀ x, x ∉ own → item x = pd.item x := by
  induction own generalizing pd front y with
  | nil =>
    rw [map_nil, nil_append] at hPointers
    refine ⟨pd.node, pd.item, y, rfl, ?_, fun _ _ => rfl,
      fun x hx => absurd hx (by simp), fun _ _ => rfl⟩
    rw [map_nil, nil_append, ← hPointers]
  | cons x own ih =>
    rcases nodup_cons.mp hNodup with ⟨hx, hRest⟩
    rw [map_cons, cons_append] at hPointers
    have hNext : (pd.node n).pointers[front.length + 1]? = some (some x) := by
      rw [hPointers, getElem?_append_right (by omega)]
      simp
    have hWrite : Block.write (pd.node n).pointers front.length [some x] = some (front ++
      ([some x] ++ (some x :: (own.map some ++ rest)))) := by
      rw [hPointers]
      exact Block.write_append front (b := [y]) _ rfl
    generalize hPd : (pd.setNode n { pd.node n with
        pointers := front ++ ([some x] ++
          (some x :: (own.map some ++ rest))) }).setItem x
      { pd.item x with
        indexOffset := (pd.item x).indexOffset - 1 } = pd₁
    have hNode : pd₁.node n = { pd.node n with
        pointers := front ++ ([some x] ++
          (some x :: (own.map some ++ rest))) } := by
      rw [← hPd]
      exact update_self _ _ _
    have hNodeNe : ∀ q, q ≠ n → pd₁.node q = pd.node q := by
      intro q hq
      rw [← hPd]
      exact update_of_ne hq _ _
    have hItem : pd₁.item x = { pd.item x with
        indexOffset := (pd.item x).indexOffset - 1 } := by
      rw [← hPd]
      exact update_self _ _ _
    have hItemNe : ∀ z, z ≠ x → pd₁.item z = pd.item z := by
      intro z hz
      rw [← hPd]
      exact update_of_ne hz _ _
    have hOwnNe : ∀ z ∈ own, z ≠ x := fun z hz h => hx (h ▸ hz)
    have hPointers₁ : (pd₁.node n).pointers =
        (front ++ [some x]) ++ some x :: (own.map some ++ rest) := by
      rw [hNode, append_assoc]
    rcases ih hPointers₁ hRest (by
        intro z hz
        rw [hItemNe z (hOwnNe z hz)]
        exact hRange z (by simp [hz])) with ⟨node, item, z, hShift, hHere, hOther, hMoved, hSame⟩
    refine ⟨node, item, z, ?_, ?_, ?_, ?_, ?_⟩
    · rw [length_cons, shiftItems, hNext]
      unfold setPointer
      dsimp only [bind_eq_bind, bind_some]
      rw [Int.toNat_natCast, hWrite]
      dsimp only [bind_some]
      rw [show (pd.setNode n { pd.node n with
          pointers := front ++ ([some x] ++
            (some x :: (own.map some ++ rest))) }).item x = pd.item x from rfl,
        wrap_of_inRange (hRange x (by simp)), hPd]
      rw [length_append, length_singleton] at hShift
      rw [hShift, ← hPd]
      rfl
    · rw [hHere, hNode]
      simp
    · intro q hq
      rw [hOther q hq, hNodeNe q hq]
    · intro w hw
      rcases mem_cons.mp hw with rfl | hw
      · rw [hSame w hx, hItem]
      · rw [hMoved w hw, hItemNe w (hOwnNe w hw)]
    · intro w hw
      have hNe : w ≠ x := fun h => hw (by simp [h])
      rw [hSame w fun h => hw (by simp [h]), hItemNe w hNe]

/- A segment without one of its items -/
theorem Holds.erase {pd' : SegArray} {own₁ own₂ : List Nat}
    {z : Option Nat} (hHolds : Holds pd n (own₁ ++ x :: own₂))
    (hStep : pd'.stepSize = pd.stepSize)
    (hNode : pd'.node n = { pd.node n with
        length := (pd.node n).length - 1
        pointers := own₁.map some ++ (own₂.map some ++ z :: rest) })
    (hSize : (own₁.map some ++ (own₂.map some ++
        z :: rest)).length = (pd.node n).pointers.length)
    (hFront : ∀ y ∈ own₁, pd'.item y = pd.item y)
    (hBack : ∀ y ∈ own₂, pd'.item y =
      { pd.item y with
        indexOffset := (pd.item y).indexOffset - 1 }) :
    Holds pd' n (own₁ ++ own₂) where
  length := by
    have hLength := hHolds.length
    rw [hNode]
    simp only [length_append, length_cons] at *
    omega
  max := by
    rw [hNode, hStep]
    exact hHolds.max
  size := by
    rw [hNode, hStep]
    exact hSize.trans hHolds.size
  pointers := by
    rw [hNode, map_append]
    exact ⟨z :: rest, append_assoc _ _ _⟩
  treeNode y hy := by
    rcases mem_append.mp hy with hy | hy
    · rw [hFront y hy, hHolds.treeNode y (by simp [hy])]
    · rw [hBack y hy]
      exact hHolds.treeNode y (by simp [hy])
  indexOffset i h := by
    by_cases hOld : i < own₁.length
    · have hOffset := hHolds.indexOffset i (by rw [length_append]; omega)
      rw [getElem_append_left hOld] at hOffset ⊢
      rw [hFront _ (getElem_mem hOld), hOffset]
    · have hOffset := hHolds.indexOffset (i + 1)
        (by simp only [length_append, length_cons] at *
            omega)
      rw [getElem_append_right (by omega)] at hOffset ⊢
      rw [hBack _ (getElem_mem _)]
      have hNext : i + 1 - own₁.length = (i - own₁.length) + 1 := by omega
      simp only [hNext, getElem_cons_succ] at hOffset
      dsimp only
      rw [hOffset]
      omega

theorem Holds.offset_bounds {own : List Nat} (hHolds : Holds pd n own)
    (hMem : x ∈ own) : 0 ≤ (pd.item x).indexOffset ∧ (pd.item x).indexOffset < own.length := by
  rcases getElem_of_mem hMem with ⟨i, hi, rfl⟩
  rw [hHolds.indexOffset i hi]
  omega

/- What is at an index, in a list of three parts -/
theorem eraseIdx_middle {α : Type} (a b c d : List α) (x : α) :
    (a ++ (b ++ x :: c) ++ d).eraseIdx (a.length + b.length) = a ++ (b ++ c) ++ d := by
  have hParts : a ++ (b ++ x :: c) ++ d = (a ++ b) ++ (x :: (c ++ d)) := by simp
  rw [hParts, ← length_append, eraseIdx_append_of_length_le (Nat.le_refl _),
    Nat.sub_self, eraseIdx_cons_zero]
  simp

/- The item at an index is taken out. -/
theorem remove_spec {i : Nat} (hInv : Inv pd t its)
    (hIndex : i < its.length) (hRemovable : Removable pd i) :
    ∃ pd', remove pd i = some (pd', some its[i]) ∧
      Inv pd' t (its.eraseIdx i) ∧ ∀ x, (pd'.item x).children = (pd.item x).children := by
  rcases hRemovable with ⟨n, hFound, hOffset, later, earlier, hOrder, hLater⟩
  rw [Eina.Rbtree.inorder_spec hInv.repr hInv.fuel] at hOrder
  have hList := some.inj hOrder
  have hNodup := hInv.nodup
  rw [hList] at hNodup
  rcases nodup_append.mp hNodup with ⟨hLaterNodup, hRestNodup, hApart⟩
  have hNotEarlier := (nodup_cons.mp hRestNodup).1
  have hNotLater : n ∉ later := fun h => hApart n h n (by simp) rfl
  have hHere : (pd.node n).first ≤ i := by
    have hCmp := (Eina.Rbtree.inlineLookup_eq_some hInv.repr hFound).2
    unfold insertLookup at hCmp
    split at hCmp
    · exact absurd hCmp (by decide)
    · omega
  have hCovers := hInv.covers
  rw [hList] at hCovers
  rcases covers_append.mp hCovers with ⟨front, back, rfl,
      ⟨before, own, rfl, hBefore, hFirst, hHolds⟩, hBack⟩
  have hOwnLength := hHolds.length
  obtain ⟨k, rfl⟩ : ∃ k, i = before.length + k := ⟨i - before.length, by omega⟩
  have hk : k < own.length := by omega
  obtain ⟨own₁, x, own₂, rfl, rfl⟩ : ∃ a x b, own = a ++ x :: b ∧ a.length = k :=
    ⟨own.take k, own[k], own.drop (k + 1),
      by rw [getElem_cons_drop, take_append_drop], length_take_of_le hk.le⟩
  rcases hHolds.pointers with ⟨rest, hPointers⟩
  rw [map_append, map_cons, append_assoc, cons_append] at hPointers
  have hCount := hInv.count
  have hSmall := hInv.small
  have hItemsNodup := hInv.itemsNodup
  unfold intMax at hSmall
  simp only [length_append, length_cons] at hCount hSmall hOwnLength
  -- What the call computes, before it changes items
  have hOff : ((before.length + own₁.length : Nat) : Int) -
      (pd.node n).first = own₁.length := by omega
  have hLen : wrap ((pd.node n).length - 1) = (own₁.length + own₂.length : Nat) := by
    rw [wrap_of_inRange] <;> [skip; unfold InRange] <;> omega
  have hNewCount : wrap (pd.count - 1) = pd.count - 1 := by
    apply wrap_of_inRange
    unfold InRange
    omega
  have hGet : (pd.node n).pointers[own₁.length]? = some (some x) := by
    rw [← hPointers, getElem?_append_right (by rw [length_map])]
    simp
  generalize hPd : ({ pd with count := pd.count - 1 } :
    SegArray).setNode n { pd.node n with
      length := (own₁.length + own₂.length : Nat) } = pd₁
  have hNode : pd₁.node n = { pd.node n with
      length := (own₁.length + own₂.length : Nat) } := by
    rw [← hPd]
    exact update_self _ _ _
  have hNodeNe : ∀ q, q ≠ n → pd₁.node q = pd.node q := by
    intro q hq
    rw [← hPd]
    exact update_of_ne hq _ _
  have hItem : pd₁.item = pd.item := by rw [← hPd]; rfl
  have hTree : pd₁.tree = pd.tree := by rw [← hPd]; rfl
  have hNodes : pd₁.nodes = pd.nodes := by rw [← hPd]; rfl
  have hPointers₁ : (pd₁.node n).pointers = own₁.map some ++ some x :: (own₂.map some ++ rest) := by
    rw [hNode, hPointers]
  rcases nodup_append.mp hItemsNodup with ⟨hFrontNodup, -, hApartBack⟩
  rcases nodup_append.mp hFrontNodup with ⟨-, hOwnNodup, hApartOwn⟩
  rcases nodup_append.mp hOwnNodup with ⟨-, hBehindNodup, hApartIn⟩
  have hBackNodup := (nodup_cons.mp hBehindNodup).2
  have hRange : ∀ y ∈ own₂, InRange ((pd₁.item y).indexOffset - 1) := by
    intro y hy
    rw [hItem]
    have hBounds := hHolds.offset_bounds (x := y) (by simp [hy])
    simp only [length_append, length_cons] at hBounds
    unfold InRange
    omega
  rcases shiftItems_spec hPointers₁ hBackNodup hRange with ⟨node, item,
    z, hShift, hShiftNode, hShiftOther, hMoved, hSame⟩
  rw [length_map] at hShift
  have hLater' : Eina.Rbtree.inorder { pd₁ with node := node, item := item : SegArray }.tree
      { pd₁ with node := node, item := item : SegArray }.nodes
      (({ pd₁ with node := node, item := item :
        SegArray }.tree.node n).son .left) = some later := by
    show Eina.Rbtree.inorder pd₁.tree pd₁.nodes ((pd₁.tree.node n).son .left) = some later
    rw [hTree, hNodes]
    exact hLater
  rcases moveLater_spec (-1) hLater' hLaterNodup with ⟨node', hMove, hFirstMoved, hFirstSame⟩
  refine ⟨{ pd₁ with node := node', item := item }, ?_, ?_, ?_⟩
  · unfold remove
    rw [hFound]
    dsimp only [bind_eq_bind, bind_some]
    rw [hOff, hLen, hNewCount, if_neg (by rw [hOwnLength]; omega), Int.toNat_natCast, hGet]
    dsimp only [bind_some]
    have hSteps : (((own₁.length + own₂.length : Nat) : Int) -
        own₁.length).toNat = own₂.length := by omega
    rw [hSteps]
    have hStart : ({ pd with count := pd.count - 1 } :
        SegArray).setNode n
          { ({ pd with count := pd.count - 1 } : SegArray).node n
            with length := (own₁.length + own₂.length : Nat) } =
        pd₁ := hPd
    rw [hStart, hShift]
    dsimp only [bind_some]
    rw [hMove]
    simp
  · rw [eraseIdx_middle]
    have hSub : (before ++ (own₁ ++ own₂) ++ back).Sublist
        (before ++ (own₁ ++ x :: own₂) ++ back) :=
      ((List.Sublist.refl before).append ((List.Sublist.refl own₁).append
        (sublist_cons_self x own₂))).append (List.Sublist.refl back)
    have hKeep : ∀ y, y ∈ before ∨ y ∈ own₁ ∨ y ∈ back → item y = pd.item y := by
      intro y hy
      rw [hSame y ?_, hItem]
      intro hIn
      rcases hy with hy | hy | hy
      · exact hApartOwn y hy y (by simp [hIn]) rfl
      · exact hApartIn y hy y (by simp [hIn]) rfl
      · exact hApartBack y (by simp [hIn]) y hy rfl
    have hLess : (pd.node n).length - 1 =
        (own₁.length + own₂.length : Nat) := by omega
    have hNodeHere : node' n = { pd.node n with
        length := (pd.node n).length - 1
        pointers := own₁.map some ++ (own₂.map some ++ z :: rest) } := by
      rw [hFirstSame n hNotLater, hLess]
      show node n = _
      rw [hShiftNode, hNode]
    have hNodeNe' : ∀ q ∈ later ++ earlier, node q = pd.node q := by
      intro q hq
      have hNe : q ≠ n := by
        rintro rfl
        rcases mem_append.mp hq with hq | hq
        · exact hNotLater hq
        · exact hNotEarlier hq
      rw [hShiftOther q hNe, hNodeNe q hNe]
    have hStep : pd₁.stepSize = pd.stepSize := by
      rw [← hPd]; rfl
    constructor
    case repr => rw [← hPd]; exact hInv.repr
    case nodup => exact hInv.nodup
    case nodes => rw [← hPd]; exact hInv.nodes
    case covers =>
      rw [hList]
      refine covers_append.mpr ⟨before ++ (own₁ ++ own₂), back, rfl,
        ⟨before, own₁ ++ own₂, rfl, ?_, ?_, ?_⟩, ?_⟩
      · refine Covers.congr hBefore hStep ?_ ?_
        · intro q hq
          have hLate : q ∉ later := fun h => hApart q h q (by simp [hq]) rfl
          exact (hFirstSame q hLate).trans (hNodeNe' q (by simp [hq]))
        · exact fun y hy => hKeep y (Or.inl hy)
      · exact (congrArg Node.first hNodeHere).trans hFirst
      · refine hHolds.erase hStep hNodeHere ?_ ?_ ?_
        · rw [← hPointers]
          simp only [length_append, length_cons]
          omega
        · exact fun y hy => hKeep y (Or.inr (Or.inl hy))
        · intro y hy
          rw [← hItem]
          exact hMoved y hy
      · refine Covers.moved hBack hStep ?_ ?_
        · intro q hq
          have hBounds := hBack.bounds hq
          have hNode' := hNodeNe' q (by simp [hq])
          show node' q = _
          rw [hFirstMoved q hq]
          show { node q with
            first := wrap ((node q).first + -1) } = _
          simp only [length_append, length_cons] at hBounds ⊢
          rw [hNode', wrap_of_inRange] <;> [congr 1; unfold InRange] <;> omega
        · exact fun y hy => hKeep y (Or.inr (Or.inr hy))
    case itemsNodup => exact hItemsNodup.sublist hSub
    case items =>
      rw [← hPd]
      exact fun y hy => hInv.items y (hSub.mem hy)
    case count =>
      rw [← hPd]
      show pd.count - 1 = _
      simp only [length_append]
      omega
    case small =>
      simp only [length_append]
      unfold intMax
      omega
    case step => rw [← hPd]; exact hInv.step
  · intro y
    show (item y).children = _
    by_cases hy : y ∈ own₂
    · rw [hMoved y hy, hItem]
    · rw [hSame y hy, hItem]

end Efl.Elementary.ListView
