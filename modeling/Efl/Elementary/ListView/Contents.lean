import Efl.Elementary.ListView.SegArray

/-
  What the segments have.

  The segments are listed as in the tree, the last one first.

  Main declarations:
    * `Holds`, `Covers`
    * `Inv`
    * `covers_append`, `Covers.congr`, `Covers.moved`
    * `Inv.getAt`
-/

---
-- Segments
---

namespace Efl.Elementary.ListView

open CInt List

/- A segment has these items. -/
structure Holds (pd : SegArray) (n : Nat) (own : List Nat) : Prop where
  length : (pd.node n).length = own.length
  max : (pd.node n).max = pd.stepSize
  size : (pd.node n).pointers.length = pd.stepSize.toNat
  pointers : own.map some <+: (pd.node n).pointers
  treeNode : ∀ x ∈ own, (pd.item x).treeNode = n
  indexOffset : ∀ i (h : i < own.length),
    (pd.item own[i]).indexOffset = i

/- The segments have these items, from an index on. -/
def Covers (pd : SegArray) : List Nat → Nat → List Nat → Prop
  | [], _, its => its = []
  | n :: ns, base, its =>
    ∃ before own, its = before ++ own ∧
      Covers pd ns base before ∧
      (pd.node n).first = base + before.length ∧
      Holds pd n own

section

variable {pd pd' : SegArray} {n : Nat} {own its ns : List Nat}
  {base : Nat}

theorem Holds.congr (hHolds : Holds pd n own) (hStep : pd'.stepSize = pd.stepSize)
    (hLength : (pd'.node n).length = (pd.node n).length) (hMax : (pd'.node n).max = (pd.node n).max)
    (hPointers : (pd'.node n).pointers = (pd.node n).pointers)
    (hItems : ∀ x ∈ own, pd'.item x = pd.item x) : Holds pd' n own where
  length := hLength.trans hHolds.length
  max := by rw [hMax, hStep, hHolds.max]
  size := by rw [hPointers, hStep, hHolds.size]
  pointers := hPointers ▸ hHolds.pointers
  treeNode x hx := by rw [hItems x hx, hHolds.treeNode x hx]
  indexOffset i h := by
    rw [hItems _ (getElem_mem h), hHolds.indexOffset i h]

section

variable (hCovers : Covers pd ns base its)

include hCovers

/- Segments that are moved as a whole -/
theorem Covers.moved {base' : Nat}
    (hStep : pd'.stepSize = pd.stepSize)
    (hNodes : ∀ n ∈ ns, pd'.node n = { pd.node n with
        first := (pd.node n).first + (base' - base) })
    (hItems : ∀ x ∈ its, pd'.item x = pd.item x) : Covers pd' ns base' its := by
  induction ns generalizing its with
  | nil => exact hCovers
  | cons n ns ih =>
    rcases hCovers with ⟨before, own, rfl, hBefore, hFirst, hHolds⟩
    have hNode := hNodes n (by simp)
    refine ⟨before, own, rfl, ?_, ?_, ?_⟩
    · exact ih hBefore (fun k hk => hNodes k (by simp [hk])) (fun x hx => hItems x (by simp [hx]))
    · rw [hNode]
      dsimp only
      omega
    · apply hHolds.congr hStep
      · rw [hNode]
      · rw [hNode]
      · rw [hNode]
      · exact fun x hx => hItems x (by simp [hx])

theorem Covers.congr
    (hStep : pd'.stepSize = pd.stepSize) (hNodes : ∀ n ∈ ns, pd'.node n = pd.node n)
    (hItems : ∀ x ∈ its, pd'.item x = pd.item x) : Covers pd' ns base its := by
  apply hCovers.moved hStep ?_ hItems
  intro n hn
  rw [hNodes n hn, sub_self, add_zero]

omit hCovers in
theorem covers_append {later earlier : List Nat} :
    Covers pd (later ++ earlier) base its ↔
      ∃ front back, its = front ++ back ∧
        Covers pd earlier base front ∧ Covers pd later (base + front.length) back := by
  induction later generalizing its with
  | nil =>
    constructor
    · exact fun hCovers =>
        ⟨its, [], (append_nil _).symm, hCovers, rfl⟩
    · rintro ⟨front, back, rfl, hCovers, rfl⟩
      rw [append_nil]
      exact hCovers
  | cons n later ih =>
    constructor
    · rintro ⟨before, own, rfl, hBefore, hFirst, hHolds⟩
      rcases ih.mp hBefore with ⟨front, back, rfl, hEarlier, hLater⟩
      refine ⟨front, back ++ own, append_assoc _ _ _, hEarlier, back, own, rfl, hLater, ?_, hHolds⟩
      rw [hFirst, length_append]
      push_cast
      ring
    · rintro ⟨front, back, rfl, hEarlier, before, own, rfl, hLater, hFirst, hHolds⟩
      refine ⟨front ++ before, own, (append_assoc _ _ _).symm,
        ih.mpr ⟨front, before, rfl, hEarlier, hLater⟩, ?_, hHolds⟩
      rw [hFirst, length_append]
      push_cast
      ring

/- Where the segments start and end -/
theorem Covers.bounds
    (hMem : n ∈ ns) :
    base ≤ (pd.node n).first ∧ 0 ≤ (pd.node n).length ∧
      (pd.node n).first + (pd.node n).length ≤ base + its.length := by
  induction ns generalizing its with
  | nil => exact absurd hMem (by simp)
  | cons k ns ih =>
    rcases hCovers with ⟨before, own, rfl, hBefore, hFirst, hHolds⟩
    rw [length_append]
    rcases mem_cons.mp hMem with rfl | hMem
    · have hLength := hHolds.length
      omega
    · have hRest := ih hBefore hMem
      omega

/- The segment that an index is in -/
theorem Covers.split {i : Nat}
    (hIndex : i < its.length) :
    ∃ later n earlier own, ns = later ++ n :: earlier ∧
      Holds pd n own ∧
      (pd.node n).first ≤ (base + i : Nat) ∧
      own[((base + i : Nat) - (pd.node n).first).toNat]? =
        some its[i] ∧
      (∀ q ∈ later, (base + i : Nat) < (pd.node q).first) ∧ ∀ q ∈ earlier,
        (pd.node q).first ≤ (base + i : Nat) ∧
        (pd.node q).first + (pd.node q).length ≤ (base + i : Nat) := by
  induction ns generalizing its with
  | nil =>
    obtain rfl : its = [] := hCovers
    exact absurd hIndex (by simp)
  | cons k ns ih =>
    rcases hCovers with ⟨before, own, rfl, hBefore, hFirst, hHolds⟩
    by_cases hHere : before.length ≤ i
    · refine ⟨[], k, ns, own, rfl, hHolds, ?_, ?_, ?_, ?_⟩
      · omega
      · have hOffset : ((base + i : Nat) - (pd.node k).first).toNat = i - before.length := by
          omega
        rw [hOffset, getElem_append_right hHere, getElem?_eq_getElem]
      · exact fun q hq => absurd hq (by simp)
      · intro q hq
        have hBounds := hBefore.bounds hq
        omega
    · rcases ih hBefore (by omega) with ⟨later, n, earlier, own', rfl,
        hHolds', hFirst', hGet, hLater, hEarlier⟩
      refine ⟨k :: later, n, earlier, own', rfl, hHolds', hFirst', ?_, ?_, hEarlier⟩
      · rw [hGet, getElem_append_left]
      · intro q hq
        rcases mem_cons.mp hq with rfl | hq
        · omega
        · exact hLater q hq

end

end

---
-- Access
---

open RedBlack

/- The segments of the tree have the items. -/
structure Inv (pd : SegArray) (t : RedBlack.Tree Nat) (its : List Nat) : Prop where
  repr : Eina.Rbtree.Repr pd.tree pd.tree.root t
  nodup : t.toList.Nodup
  nodes : ∀ n ∈ t.toList, n < pd.nodes
  covers : Covers pd t.toList 0 its
  itemsNodup : its.Nodup
  items : ∀ x ∈ its, x < pd.items
  count : pd.count = its.length
  small : its.length ≤ intMax
  step : 0 < pd.stepSize

variable {pd : SegArray} {t : RedBlack.Tree Nat} {its : List Nat}

theorem Inv.fuel (hInv : Inv pd t its) : t.toList.length ≤ pd.nodes := by
  have hSub : t.toList ⊆ List.range pd.nodes := fun n hn => mem_range.mpr (hInv.nodes n hn)
  have hLe := (hInv.nodup.subperm hSub).length_le
  rwa [length_range] at hLe

theorem Inv.getAt (hInv : Inv pd t its) {i : Nat}
    (hIndex : i < its.length) : getAt pd i = some (true, some its[i]) ∧ indexGet pd its[i] = i := by
  rcases hInv.covers.split hIndex with ⟨later, n, earlier, own, hSplit,
    hHolds, hFirst, hGet, hLater, hEarlier⟩
  rw [Nat.zero_add] at hFirst hGet hLater hEarlier
  have hSmall := hInv.small
  unfold intMax at hSmall
  have hWrap : ∀ q ∈ t.toList,
      wrap ((pd.node q).first + (pd.node q).length) = (pd.node q).first + (pd.node q).length := by
    intro q hq
    have hBounds := hInv.covers.bounds hq
    apply wrap_of_inRange
    unfold InRange
    omega
  rcases List.getElem?_eq_some_iff.mp hGet with ⟨hOwn, hItem⟩
  have hLength := hHolds.length
  have hMem : n ∈ t.toList := by simp [hSplit]
  have hEnd : (i : Int) < (pd.node n).first + (pd.node n).length := by omega
  have hFound : lookup pd (searchLookup pd i) = some (some n) := by
    apply Eina.Rbtree.inlineLookup_of_split hInv.repr hSplit
    · unfold searchLookup
      rw [hWrap n hMem, if_neg (by omega), if_pos hEnd]
    · intro q hq
      unfold searchLookup
      rw [if_pos (hLater q hq)]
      decide
    · intro q hq
      have hBefore := hEarlier q hq
      unfold searchLookup
      rw [hWrap q (by simp [hSplit, hq]), if_neg (by omega), if_neg (by omega)]
      decide
    · exact hInv.fuel
  constructor
  · unfold ListView.getAt
    rw [hFound]
    dsimp only [Option.bind_eq_bind, Option.bind_some]
    rw [hWrap n hMem, if_pos ⟨hFirst, hEnd⟩]
    rcases hHolds.pointers with ⟨rest, hPointers⟩
    rw [← hPointers, getElem?_append_left (by rw [length_map]; exact hOwn), getElem?_map, hGet]
    rfl
  · unfold indexGet
    rw [← hItem, hHolds.indexOffset _ hOwn, hHolds.treeNode _ (getElem_mem hOwn)]
    have hSum : (((i : Int) - (pd.node n).first).toNat : Int) + (pd.node n).first = i := by omega
    rw [hSum]
    apply wrap_of_inRange
    unfold InRange
    omega

end Efl.Elementary.ListView
