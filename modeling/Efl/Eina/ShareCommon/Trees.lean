import Efl.Eina.ShareCommon.Lists

/-
  The trees of the heads.

  A tree has at most 256 heads, so no call runs over the stack
  of the red-black tree.

  Main declarations:
    * `Bucketed`
    * `Bucketed.findHash`
    * `Bucketed.insert`, `Bucketed.erase`
-/

---
-- Keys
---

namespace Efl.Eina.Rbtree

open RedBlack

variable {N K : Type} [LinearOrder K]

/- Only the keys of the nodes in the tree matter. -/
theorem IsTree.congr [DecidableEq N] {key key' : N → K} {s : State N}
    {t : Tree N} (hTree : IsTree key s t)
    (hSame : ∀ n ∈ s.present, key' n = key n) : IsTree key' s t where
  repr := hTree.repr
  black := hTree.black
  balanced := hTree.balanced
  ascending := by
    have hKeys : ∀ n ∈ t.toList, key' n = key n := fun n hMem => hSame n ((hTree.mem_iff n).mp hMem)
    refine hTree.ascending.imp_of_mem ?_
    intro a b hA hB hLess
    rw [hKeys a hA, hKeys b hB]
    exact hLess
  mem_iff := hTree.mem_iff

/- Nodes of a tree with one key are one node. -/
theorem IsTree.injOn [DecidableEq N] {key : N → K} {s : State N}
    {t : Tree N} (hTree : IsTree key s t) {a b : N} (hA : a ∈ s.present)
    (hB : b ∈ s.present) (hSame : key a = key b) : a = b := by
  have hNodup : (t.toList.map key).Nodup :=
    (List.pairwise_map.mpr hTree.ascending).imp fun hLess => ne_of_lt hLess
  exact List.inj_on_of_nodup_map hNodup ((hTree.mem_iff a).mpr hA) ((hTree.mem_iff b).mpr hB) hSame

end Efl.Eina.Rbtree

---
-- Buckets
---

namespace Efl.Eina.ShareCommon

open Function

variable {N : Type} [DecidableEq N]

/- The heads of a bucket -/
def inBucket (s : Share N) (b : Nat) : Finset N :=
  s.heads.live.filter fun h =>
    bucketIdx (s.heads.node h).hash = b

omit [DecidableEq N] in
theorem mem_inBucket {s : Share N} {b : Nat} {h : N} :
    h ∈ inBucket s b ↔
      h ∈ s.heads.live ∧ bucketIdx (s.heads.node h).hash = b := Finset.mem_filter

/- The key that the trees are sorted by -/
def treeKey (s : Share N) (h : N) : Int :=
  -nodeHash (s.heads.node h).hash

/- The tree of each bucket has its heads. -/
def Bucketed (s : Share N) : Prop :=
  ∀ b, ∃ t,
    Rbtree.IsTree (treeKey s) ⟨s.buckets b, inBucket s b⟩ t

omit [DecidableEq N] in
theorem consistent_nodeCmp (s : Share N) : Rbtree.Consistent (nodeCmp s) (treeKey s) := by
  intro a b hLess
  unfold treeKey at hLess
  unfold nodeCmp
  exact ⟨if_neg (by omega), if_pos (by omega)⟩

variable {s s' : Share N} {h : N}

section

variable (hBucketed : Bucketed s)

include hBucketed

/- The hashes and the buckets are all that matters. -/
theorem Bucketed.congr (hLive : s'.heads.live = s.heads.live)
    (hHash : ∀ h, (s'.heads.node h).hash = (s.heads.node h).hash)
    (hBuckets : s'.buckets = s.buckets) : Bucketed s' := by
  intro b
  rcases hBucketed b with ⟨t, hTree⟩
  have hIn : inBucket s' b = inBucket s b := by
    unfold inBucket
    rw [hLive]
    simp only [hHash]
  refine ⟨t, ?_⟩
  rw [hIn, hBuckets]
  apply hTree.congr
  intro n _
  unfold treeKey
  rw [hHash]

theorem Bucketed.eq_of_hash {k : N} (hHead :
    h ∈ s.heads.live) (hOther : k ∈ s.heads.live) (hIdx : bucketIdx
    (s.heads.node h).hash = bucketIdx (s.heads.node k).hash) (hHash :
    nodeHash (s.heads.node h).hash = nodeHash (s.heads.node k).hash) : h = k := by
  rcases hBucketed (bucketIdx (s.heads.node k).hash) with ⟨t, hTree⟩
  apply hTree.injOn
  · exact mem_inBucket.mpr ⟨hHead, hIdx⟩
  · exact mem_inBucket.mpr ⟨hOther, rfl⟩
  · unfold treeKey
    rw [hHash]

/- The head for a hash, if there is one -/
theorem Bucketed.findHash (hash : Int) :
    (∃ h ∈ s.heads.live,
      bucketIdx (s.heads.node h).hash = bucketIdx hash ∧
      nodeHash (s.heads.node h).hash = nodeHash hash ∧
      findHash s (bucketIdx hash) (nodeHash hash) =
        some (some h)) ∨
    (findHash s (bucketIdx hash) (nodeHash hash) = some none ∧ ∀ h ∈ s.heads.live,
      bucketIdx (s.heads.node h).hash = bucketIdx hash →
      nodeHash (s.heads.node h).hash ≠ nodeHash hash) := by
  rcases hBucketed (bucketIdx hash) with ⟨t, hTree⟩
  have hFuel : t.toList.length ≤ s.heads.live.card := by
    rw [hTree.length_eq]
    exact Finset.card_filter_le _ _
  by_cases hSome : ∃ h ∈ s.heads.live,
      bucketIdx (s.heads.node h).hash = bucketIdx hash ∧
      nodeHash (s.heads.node h).hash = nodeHash hash
  · rcases hSome with ⟨h, hHead, hIdx, hHash⟩
    refine Or.inl ⟨h, hHead, hIdx, hHash, ?_⟩
    apply Rbtree.inlineLookup_of_mem hTree.repr hTree.ascending
    · exact (hTree.mem_iff h).mpr (mem_inBucket.mpr ⟨hHead, hIdx⟩)
    · unfold cmp
      rw [hHash, Int.sub_self]
    · intro q _ hLess
      unfold treeKey at hLess
      unfold cmp
      omega
    · intro q _ hLess
      unfold treeKey at hLess
      unfold cmp
      omega
    · exact hFuel
  · refine Or.inr ⟨?_, fun h hHead hIdx hHash =>
      hSome ⟨h, hHead, hIdx, hHash⟩⟩
    apply Rbtree.inlineLookup_of_notMem hTree.repr _ hFuel
    intro q hMem hZero
    rcases mem_inBucket.mp ((hTree.mem_iff q).mp hMem) with ⟨hHead, hIdx⟩
    unfold cmp at hZero
    exact hSome ⟨q, hHead, hIdx, by omega⟩

/- There are 256 hashes of nodes. -/
omit hBucketed in
theorem card_le_of_isTree {t : RedBlack.Tree N} {m : Rbtree.Mem N}
    {hs : Finset N} (hTree : Rbtree.IsTree (treeKey s) ⟨m, hs⟩ t) : hs.card ≤ 256 := by
  rw [← Finset.card_range 256]
  apply Finset.card_le_card_of_injOn (fun h => (nodeHash (s.heads.node h).hash).toNat)
  · intro h _
    unfold nodeHash
    simp only [Finset.coe_range, Set.mem_Iio]
    omega
  · intro a hA b hB hSame
    apply hTree.injOn hA hB
    unfold treeKey nodeHash at *
    dsimp only at hSame
    omega

/- A new head is put into its tree. -/
theorem Bucketed.insert {head : Head N}
    (hFresh : h ∉ s.heads.live) (hNew : ∀ k ∈ s.heads.live,
      bucketIdx (s.heads.node k).hash = bucketIdx head.hash →
      nodeHash (s.heads.node k).hash ≠ nodeHash head.hash)
    (hLive : s'.heads = s.heads.alloc h head) :
    ∃ tree, Rbtree.inlineInsert (nodeCmp s')
      (s.buckets (bucketIdx head.hash)) h = some tree ∧
      Bucketed { s' with
        buckets := update s.buckets (bucketIdx head.hash) tree } := by
  have hSelf : (s'.heads.node h).hash = head.hash := by
    rw [hLive, Heap.node_alloc, update_self]
  have hOther : ∀ k, k ≠ h → (s'.heads.node k).hash = (s.heads.node k).hash := by
    intro k hApart
    rw [hLive, Heap.node_alloc, update_of_ne hApart]
  -- The old heads have their old keys.
  have hOld : ∀ b, ∃ t, Rbtree.IsTree (treeKey s') ⟨s.buckets b, inBucket s b⟩ t := by
    intro b
    rcases hBucketed b with ⟨t, hTree⟩
    refine ⟨t, hTree.congr fun k hMem => ?_⟩
    unfold treeKey
    rw [hOther]
    rintro rfl
    exact hFresh (mem_inBucket.mp hMem).1
  rcases hOld (bucketIdx head.hash) with ⟨t, hTree⟩
  have hAdmissible : Rbtree.Admissible (treeKey s') ⟨s.buckets (bucketIdx head.hash),
    inBucket s (bucketIdx head.hash)⟩ (.insert h) := by
    intro k hMem hSame
    rcases mem_inBucket.mp hMem with ⟨hK, hIdx⟩
    have hApart : k ≠ h := by
      rintro rfl
      exact hFresh hK
    unfold treeKey at hSame
    rw [hSelf, hOther k hApart] at hSame
    exact hNew k hK hIdx (by omega)
  have hCard := card_le_of_isTree hTree
  have hFits : Rbtree.Fits (nodeCmp s') _ (.insert h) :=
    Rbtree.fits_of_card hTree (by dsimp only; omega)
  rcases Rbtree.step_isTree (consistent_nodeCmp s') hTree
    hAdmissible hFits with ⟨state, t', hStep, hTree'⟩
  rw [Rbtree.step, Option.map_eq_some_iff] at hStep
  rcases hStep with ⟨tree, hInsert, rfl⟩
  refine ⟨tree, hInsert, fun b => ?_⟩
  by_cases hB : b = bucketIdx head.hash
  · subst hB
    refine ⟨t', ?_⟩
    have hSet : inBucket { s' with
        buckets := update s.buckets
          (bucketIdx head.hash) tree } (bucketIdx head.hash) =
          Insert.insert h (inBucket s (bucketIdx head.hash)) := by
      ext k
      rw [mem_inBucket, Finset.mem_insert, mem_inBucket]
      dsimp only
      rw [hLive, Heap.live_alloc, Finset.mem_insert, ← hLive]
      by_cases hSame : k = h
      · subst hSame
        simp [hSelf]
      · simp [hSame, hOther k hSame]
    dsimp only
    rw [hSet, update_self]
    exact hTree'
  · rcases hOld b with ⟨t'', hTree''⟩
    refine ⟨t'', ?_⟩
    have hSet : inBucket { s' with
        buckets := update s.buckets
          (bucketIdx head.hash) tree } b = inBucket s b := by
      ext k
      rw [mem_inBucket, mem_inBucket]
      dsimp only
      rw [hLive, Heap.live_alloc, Finset.mem_insert, ← hLive]
      by_cases hSame : k = h
      · subst hSame
        simp [hSelf, Ne.symm hB, hFresh]
      · simp [hSame, hOther k hSame]
    dsimp only
    rw [hSet, update_of_ne hB]
    exact hTree''

/- A head is taken out of its tree. -/
theorem Bucketed.erase (hLive : s'.heads.live = s.heads.live.erase h)
    (hNode : s'.heads.node = s.heads.node) :
    ∃ tree, Rbtree.inlineRemove (nodeCmp s)
      (s.buckets (bucketIdx (s.heads.node h).hash)) h =
        some tree ∧
      Bucketed { s' with
        buckets := update s.buckets
          (bucketIdx (s.heads.node h).hash) tree } := by
  rcases hBucketed (bucketIdx (s.heads.node h).hash) with ⟨t, hTree⟩
  have hCard := card_le_of_isTree hTree
  have hFits : Rbtree.Fits (nodeCmp s) _ (.remove h) :=
    Rbtree.fits_of_card hTree (by dsimp only; omega)
  have hAdmissible : Rbtree.Admissible (treeKey s) ⟨s.buckets (bucketIdx (s.heads.node h).hash),
    inBucket s (bucketIdx (s.heads.node h).hash)⟩ (.remove h) := trivial
  rcases Rbtree.step_isTree (consistent_nodeCmp s) hTree
    hAdmissible hFits with ⟨state, t', hStep, hTree'⟩
  rw [Rbtree.step, Option.map_eq_some_iff] at hStep
  rcases hStep with ⟨tree, hRemove, rfl⟩
  refine ⟨tree, hRemove, fun b => ?_⟩
  have hKey : treeKey { s' with
      buckets := update s.buckets
        (bucketIdx (s.heads.node h).hash) tree } = treeKey s := by
    funext k
    unfold treeKey
    dsimp only
    rw [hNode]
  rw [hKey]
  by_cases hB : b = bucketIdx (s.heads.node h).hash
  · subst hB
    refine ⟨t', ?_⟩
    have hSet : inBucket { s' with
        buckets := update s.buckets (bucketIdx (s.heads.node h).hash) tree }
        (bucketIdx (s.heads.node h).hash) =
          (inBucket s (bucketIdx (s.heads.node h).hash)).erase h := by
      ext k
      rw [mem_inBucket, Finset.mem_erase, mem_inBucket]
      dsimp only
      rw [hLive, hNode, Finset.mem_erase, and_assoc]
    dsimp only
    rw [hSet, update_self]
    exact hTree'
  · rcases hBucketed b with ⟨t'', hTree''⟩
    refine ⟨t'', ?_⟩
    have hSet : inBucket { s' with
        buckets := update s.buckets
          (bucketIdx (s.heads.node h).hash) tree } b = inBucket s b := by
      ext k
      rw [mem_inBucket, mem_inBucket]
      dsimp only
      rw [hLive, hNode, Finset.mem_erase]
      constructor
      · rintro ⟨⟨-, hK⟩, hIdx⟩
        exact ⟨hK, hIdx⟩
      · rintro ⟨hK, hIdx⟩
        refine ⟨⟨?_, hK⟩, hIdx⟩
        rintro rfl
        exact hB hIdx.symm
    dsimp only
    rw [hSet, update_of_ne hB]
    exact hTree''

end

end Efl.Eina.ShareCommon
