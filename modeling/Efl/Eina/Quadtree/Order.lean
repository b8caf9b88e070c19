import Efl.Eina.Quadtree.Trees
import Efl.Lib.Runs

/-
  In which order `eina_quadtree_collide` returns items.

  Main declarations:
    * `QuadTree.Inv`
    * `Allowed`
    * `Inv.collide`
    * `ordered_run`
-/

---
-- Items
---

namespace Efl.Eina.Quadtree

open List Function

variable {I : Type}

/-
  Items wait or are in the tree, lists that are flagged sorted
  are, and the indices were ascending when the cached list was
  made.
-/
structure QuadTree.Inv (s : QuadTree I) : Prop where
  nodup : (s.change ++ s.root.items).Nodup
  live : ∀ x ∈ s.change ++ s.root.items, x ∈ s.live
  change : ∀ x ∈ s.live,
    ((s.items x).change = true ↔ x ∈ s.change)
  sorted : TreeOk s.toStore.index s.root
  cached : s.cached = s.shown.map Prod.fst
  shown : (s.shown.map Prod.snd).Pairwise (· ≤ ·)

namespace QuadTree

theorem inv_new {w h : Nat} {items : I → Item} {s : QuadTree I}
    (hNew : new w h items = some s) : s.Inv := by
  unfold new at hNew
  split at hNew
  · exact nomatch hNew
  · obtain rfl := Option.some.inj hNew
    exact ⟨nodup_nil, by simp [Tree.items], by simp,
      trivial, rfl, List.Pairwise.nil⟩

namespace Inv

variable {s : QuadTree I} {x : I}

theorem lost (hInv : s.Inv) : ({ s with lost := true } : QuadTree I).Inv :=
  ⟨hInv.nodup, hInv.live, hInv.change, hInv.sorted, hInv.cached, hInv.shown⟩

theorem resized (hInv : s.Inv) (w h : Nat) : (s.resized w h).Inv := by
  unfold QuadTree.resized
  split
  · exact hInv
  · exact ⟨hInv.nodup, hInv.live, hInv.change, hInv.sorted, hInv.cached, hInv.shown⟩

/- A list that is returned again -/
theorem again (hInv : s.Inv) (hSame : ∀ p ∈ s.shown,
      p.1 ∈ s.live ∧ s.toStore.index p.1 = p.2) :
    (∀ x ∈ s.cached, x ∈ s.live) ∧ Ascending s.toStore.index s.cached := by
  rw [hInv.cached]
  constructor
  · intro x hx
    rcases mem_map.mp hx with ⟨p, hp, rfl⟩
    exact (hSame p hp).1
  · refine pairwise_map.mpr ?_
    refine List.Pairwise.imp_of_mem ?_ (pairwise_map.mp hInv.shown)
    intro p q hp hq hLess
    rw [(hSame p hp).2, (hSame q hq).2]
    exact hLess

variable [DecidableEq I]

section

variable (hInv : s.Inv)

include hInv

theorem add (hFree : x ∉ s.live) : (s.add x).Inv := by
  have hNew : x ∉ s.change ++ s.root.items := fun hx => hFree (hInv.live x hx)
  have hOther : ∀ y, y ≠ x → (s.add x).items y = s.items y := fun y hEq => update_of_ne hEq ..
  have hSelf : ((s.add x).items x).change = true := by
    simp [QuadTree.add, Store.setItem]
  refine ⟨?_, ?_, ?_, ?_, hInv.cached, hInv.shown⟩
  · have hPerm : (x :: (s.change ++ s.root.items)).Perm (s.change ++ [x] ++ s.root.items) := by
      rw [append_assoc]
      exact perm_middle.symm
    exact hPerm.nodup_iff.mp (nodup_cons.mpr ⟨hNew, hInv.nodup⟩)
  · intro y hy
    simp only [QuadTree.add, mem_append, mem_singleton] at hy
    simp only [QuadTree.add, Finset.mem_insert]
    by_cases hEq : y = x
    · exact .inl hEq
    · refine .inr (hInv.live y (mem_append.mpr ?_))
      tauto
  · intro y hy
    simp only [QuadTree.add, Finset.mem_insert] at hy
    by_cases hEq : y = x
    · subst hEq
      exact ⟨fun _ => mem_append_right _ (by simp), fun _ => hSelf⟩
    · rw [hOther y hEq, hInv.change y (hy.resolve_left hEq)]
      simp [QuadTree.add, hEq]
  · apply hInv.sorted.congr
    intro y hy
    unfold Store.index
    rw [hOther y]
    rintro rfl
    exact hNew (mem_append_right _ hy)

/- An item is taken out of the tree. -/
theorem out_of_tree (x : I) :
    (s.change ++ (s.root.remove x).items).Nodup ∧
      x ∉ (s.root.remove x).items ∧ ∀ y ∈ s.change ++ (s.root.remove x).items,
        y ∈ s.change ++ s.root.items := by
  have hSub : (s.change ++ (s.root.remove x).items).Sublist (s.change ++ s.root.items) := by
    rw [items_remove]
    exact (erase_sublist).append_left s.change
  refine ⟨hInv.nodup.sublist hSub, ?_, fun y hy => hSub.mem hy⟩
  rw [items_remove]
  exact List.Nodup.not_mem_erase (nodup_append.mp hInv.nodup).2.1

/- Flags of an item that is not freed -/
theorem setItem (x : I) (item : Item) (hIndex : item.index = (s.items x).index)
    (hChange : item.change = (s.items x).change) :
    ({ s with toStore := s.toStore.setItem x item } : QuadTree I).Inv := by
  have hAt : ∀ y, (s.toStore.setItem x item).index y =
        s.toStore.index y ∧
      ((s.toStore.setItem x item).items y).change = (s.items y).change := by
    intro y
    unfold Store.index Store.setItem
    by_cases hEq : y = x
    · subst hEq
      simp [hIndex, hChange]
    · simp [hEq]
  refine ⟨hInv.nodup, hInv.live, ?_, ?_, hInv.cached, hInv.shown⟩
  · intro y hy
    dsimp only
    rw [(hAt y).2]
    exact hInv.change y hy
  · exact hInv.sorted.congr fun y _ => (hAt y).1

theorem remove (x : I) : ({ s with root := s.root.remove x } : QuadTree I).Inv := by
  rcases hInv.out_of_tree x with ⟨hNodup, -, hSub⟩
  exact ⟨hNodup, fun y hy => hInv.live y (hSub y hy),
    hInv.change, hInv.sorted.remove x, hInv.cached, hInv.shown⟩

theorem del (hLive : x ∈ s.live) : (s.del x).Inv := by
  unfold QuadTree.del
  extract_lets s₁
  have hInv₁ : s₁.Inv := hInv.remove x
  split
  · exact hInv₁.setItem x _ rfl rfl
  · rename_i hChange
    rcases hInv.out_of_tree x with ⟨-, hOut, hSub⟩
    have hNot : x ∉ s.change := fun hx =>
      hChange ((hInv.change x hLive).mpr hx)
    refine ⟨hInv₁.nodup, ?_, ?_, hInv₁.sorted, hInv₁.cached, hInv₁.shown⟩
    · intro y hy
      refine Finset.mem_erase.mpr ⟨?_, hInv₁.live y hy⟩
      rintro rfl
      rcases mem_append.mp hy with hy | hy
      · exact hNot hy
      · exact hOut hy
    · intro y hy
      exact hInv₁.change y (Finset.mem_of_mem_erase hy)

theorem changed (hLive : x ∈ s.live) : (s.changed x).Inv := by
  unfold QuadTree.changed
  split
  · exact hInv
  · split
    · exact hInv
    · rcases hInv.out_of_tree x with ⟨hNodup, hOut, hSub⟩
      have hIff := hInv.change x hLive
      have hAt : ∀ y, (s.toStore.setItem x
          { s.items x with change := true }).index y =
            s.toStore.index y ∧
          (y ≠ x → (s.toStore.setItem x
            { s.items x with change := true }).items y =
              s.items y) ∧
          ((s.toStore.setItem x
            { s.items x with change := true }).items x).change =
              true := by
        intro y
        unfold Store.index Store.setItem
        refine ⟨?_, fun hEq => update_of_ne hEq .., by simp⟩
        by_cases hEq : y = x
        · subst hEq
          simp
        · simp [hEq]
      refine ⟨?_, ?_, ?_, ?_, hInv.cached, hInv.shown⟩
      · dsimp only
        split
        · exact hNodup
        · rename_i hFlag
          have hNot : x ∉ s.change ++ (s.root.remove x).items := by
            intro hx
            rcases mem_append.mp hx with hx | hx
            · exact hFlag (hIff.mpr hx)
            · exact hOut hx
          rw [append_assoc]
          exact perm_middle.symm.nodup_iff.mp (nodup_cons.mpr ⟨hNot, hNodup⟩)
      · intro y hy
        dsimp only at hy ⊢
        by_cases hEq : y = x
        · exact hEq ▸ hLive
        · apply hInv.live y (hSub y _)
          split at hy
          · exact hy
          · simpa [hEq] using hy
      · intro y hy
        dsimp only
        by_cases hEq : y = x
        · subst hEq
          rw [(hAt y).2.2]
          split
          · rename_i hFlag
            simp [hIff.mp hFlag]
          · simp
        · rw [(hAt y).2.1 hEq, hInv.change y hy]
          split
          · exact Iff.rfl
          · simp [hEq]
      · exact (hInv.sorted.remove x).congr fun y _ => (hAt y).1

theorem setVisible (x : I) (visible : Bool) : (s.setVisible x visible).Inv :=
  hInv.setItem x _ rfl rfl

theorem «show» (hLive : x ∈ s.live) : (s.show x).Inv := by
  unfold QuadTree.show
  extract_lets s₁ s₂
  have hInv₂ : s₂.Inv := hInv.lost.setVisible x true
  split
  · exact hInv.lost
  · split
    · exact hInv₂
    · exact hInv₂.changed hLive

theorem increase (x : I) : (s.increase x).Inv := by
  have hNodup := (nodup_append.mp hInv.nodup).2.1
  unfold QuadTree.increase
  extract_lets tmp s₁
  split
  · exact ⟨hInv.nodup, hInv.live, hInv.change, hInv.sorted, hInv.cached, hInv.shown⟩
  · have hOther : ∀ y, y ≠ x → (s.toStore.setItem x
          { s.items x with index := tmp }).items y = s.items y := fun y hEq => update_of_ne hEq ..
    refine ⟨?_, ?_, ?_, ?_, hInv.cached, hInv.shown⟩
    · rw [items_unsort]
      exact hInv.nodup
    · intro y hy
      rw [items_unsort] at hy
      exact hInv.live y hy
    · intro y hy
      have hIff := hInv.change y hy
      by_cases hEq : y = x
      · subst hEq
        rw [← hIff]
        have hSelf : (s.toStore.setItem y
            { s.items y with index := tmp }).items y =
            { s.items y with index := tmp } := update_self ..
        exact (congrArg (fun i => i.change = true) hSelf).to_iff
      · rw [← hIff]
        exact (congrArg (fun i => i.change = true) (hOther y hEq)).to_iff
    · apply hInv.sorted.unsort hNodup
      intro y hEq
      unfold Store.index
      exact congrArg Item.index (hOther y hEq)

end

end Inv

end QuadTree

---
-- Collisions
---

/- `Inv`, while items of the old tree come into a new one. -/
structure QuadTree.Pending (s : QuadTree I) : Prop where
  nodup : (s.change ++ s.root.items).Nodup
  live : ∀ x ∈ s.change ++ s.root.items, x ∈ s.live
  change : ∀ x ∈ s.live,
    (s.items x).change = true → x ∈ s.change
  sorted : TreeOk s.toStore.index s.root
  cached : s.cached = s.shown.map Prod.fst
  shown : (s.shown.map Prod.snd).Pairwise (· ≤ ·)

/- As deep as the canvas is large -/
theorem extent_canvas (s : QuadTree I) : s.canvas.extent < s.depth := by
  have hSize : ∀ n : Nat, ((n : Int).bmod (2 ^ 32)).toNat ≤ n := by
    intro n
    unfold Int.bmod
    dsimp only
    split <;> omega
  have hw := hSize s.w
  have hh := hSize s.h
  unfold QuadTree.depth QuadTree.canvas Size.extent
  dsimp only
  omega

/- A list that is computed anew is in order. -/
theorem find_spec {s : QuadTree I} (ops : ListOps I)
    (hInv : s.Inv) (hLost : s.lost = true) :
    (s.find ops).Inv ∧
      (∀ x ∈ (s.find ops).cached, x ∈ (s.find ops).live) ∧
      Ascending (s.find ops).toStore.index (s.find ops).cached := by
  have hFound := collideTree_spec ops s.toStore s.target s.root
    [] false s.canvas hInv.sorted List.Pairwise.nil
  unfold QuadTree.find
  rw [if_pos hLost]
  rcases hEq : collideTree ops s.toStore s.target s.root [] false s.canvas with ⟨root, result⟩
  rw [hEq] at hFound
  have hPerm : (s.change ++ root.items).Perm (s.change ++ s.root.items) :=
    hFound.items.append_left s.change
  refine ⟨⟨?_, ?_, hInv.change, hFound.ok, ?_, ?_⟩, ?_, hFound.ascending⟩
  · exact hPerm.nodup_iff.mpr hInv.nodup
  · intro x hx
    exact hInv.live x (hPerm.mem_iff.mp hx)
  · simp [Function.comp_def]
  · rw [List.map_map]
    exact pairwise_map.mpr hFound.ascending
  · intro x hx
    have hTree := (hFound.mem x hx).resolve_left not_mem_nil
    exact hInv.live x (mem_append_right _ hTree)

section

variable [DecidableEq I]

/- A rebuild takes the visible items out of the tree. -/
theorem rebuild_spec {s : QuadTree I} (hInv : s.Inv) :
    s.rebuild.Pending ∧
      Admitted s.toStore s.rebuild.toStore [] ∧
      s.rebuild.shown = s.shown ∧ s.rebuild.target = s.target ∧ s.rebuild.lost = s.lost := by
  unfold QuadTree.rebuild
  split
  · rcases rebuildPre_spec s.root s.toStore s.change with ⟨st, hRun, hAdmitted⟩
    rw [hRun]
    dsimp only
    have hSub : (s.change ++ s.root.items.filter s.toStore.visible ++
        Tree.items Tree.nil).Sublist (s.change ++ s.root.items) := by
      rw [Tree.items, append_nil]
      exact List.filter_sublist.append_left s.change
    have hLive : ∀ x, x ∈ st.live ↔ x ∈ s.live := by
      intro x
      rw [hAdmitted.live]
      simp
    refine ⟨⟨hInv.nodup.sublist hSub, ?_, ?_, trivial,
      hInv.cached, hInv.shown⟩, hAdmitted, rfl, rfl, rfl⟩
    · intro x hx
      exact (hLive x).mpr (hInv.live x (hSub.mem hx))
    · intro x hx hFlag
      have hOld := ((hAdmitted.change x).mp hFlag).1
      exact mem_append_left _ ((hInv.change x ((hLive x).mp hx)).mp hOld)
  · exact ⟨⟨hInv.nodup, hInv.live, fun x hx => (hInv.change x hx).mp,
      hInv.sorted, hInv.cached, hInv.shown⟩, .refl _, rfl, rfl, rfl⟩

/- The changed items come into inner nodes in order. -/
def QuadTree.Ordered (s : QuadTree I) (func : Callbacks I) : Prop :=
  InOrder s.toStore.index s.toStore.comes func s.depth s.root
    s.change false s.canvas

/- All items that wait come into the tree. -/
theorem insert_spec {s : QuadTree I} {func : Callbacks I}
    (ops : ListOps I) (hPending : s.Pending) (hOrder : s.Ordered func) :
    ∃ s', s.insert ops func = some s' ∧ s'.Inv ∧
      s'.shown = s.shown ∧ s'.target = s.target ∧
      (s.change = [] → s' = s) ∧ (s.change ≠ [] → s'.lost = true) := by
  unfold QuadTree.insert
  split
  · rename_i hNil
    refine ⟨s, rfl, ?_, rfl, rfl, fun _ => rfl, fun h => absurd hNil h⟩
    refine ⟨hPending.nodup, hPending.live, ?_, hPending.sorted, hPending.cached, hPending.shown⟩
    intro x hx
    refine ⟨hPending.change x hx, ?_⟩
    rw [hNil]
    exact fun hMem => absurd hMem not_mem_nil
  · rename_i hSome
    rcases update_spec ops func s.depth s.toStore s.root s.change
      false s.canvas (extent_canvas s) hPending.sorted hOrder with
      ⟨st, root, hRun, hAdmitted, hPerm, hSorted⟩
    rw [hRun]
    refine ⟨_, rfl, ?_, rfl, rfl, ?_, fun _ => rfl⟩
    · have hApart := nodup_append.mp hPending.nodup
      have hSub : (s.root.items ++ s.change.filter s.toStore.comes).Sublist
          (s.root.items ++ s.change) := List.filter_sublist.append_left s.root.items
      have hNodup : (s.root.items ++ s.change).Nodup := perm_append_comm.nodup_iff.mp hPending.nodup
      refine ⟨?_, ?_, ?_, ?_, hPending.cached, hPending.shown⟩
      · exact hPerm.nodup_iff.mpr (hNodup.sublist hSub)
      · intro x hx
        refine (hAdmitted.live x).mpr ?_
        rcases mem_append.mp (hPerm.mem_iff.mp hx) with hx | hx
        · refine ⟨hPending.live x (mem_append_right _ hx), ?_⟩
          rintro ⟨hChange, -, -⟩
          exact hApart.2.2 x hChange x hx rfl
        · rcases mem_filter.mp hx with ⟨hChange, hComes⟩
          refine ⟨hPending.live x (mem_append_left _ hChange), ?_⟩
          rintro ⟨-, -, hDelete⟩
          simp [Store.comes, hDelete] at hComes
      · intro x hx
        have hOld := ((hAdmitted.live x).mp hx).1
        constructor
        · intro hFlag
          have hBoth := (hAdmitted.change x).mp hFlag
          exact absurd (hPending.change x hOld hBoth.1) hBoth.2
        · intro hMem
          cases hMem
      · dsimp only
        rw [hAdmitted.index_eq]
        exact hSorted
    · intro hNil
      cases hNil.symm.trans hSome

end

---
-- Runs
---

variable {I : Type} [DecidableEq I]

/- The call makes the list of what is found anew. -/
def QuadTree.Finds (s : QuadTree I) (target : Size) : Prop :=
  s.rebuild.change ≠ [] ∨ s.target ≠ target ∨ s.lost = true

/-
  Items are used until they are freed.  In a collision, items
  that come into an inner node that is flagged sorted come
  behind those that are there, and a list that is returned
  again has items that are still there, with the indices they
  had.
-/
def Allowed (s : QuadTree I) : Call I → Prop
  | .add x => x ∉ s.live
  | .del x => x ∈ s.live
  | .change x => x ∈ s.live
  | .hide x => x ∈ s.live
  | .show x => x ∈ s.live
  | .increase x => x ∈ s.live
  | .cycle => True
  | .resize _ _ => True
  | .collide func target =>
    s.rebuild.Ordered func ∧
      (¬ s.Finds target → ∀ p ∈ s.shown,
        p.1 ∈ s.live ∧ s.toStore.index p.1 = p.2)

namespace QuadTree

variable {s : QuadTree I}

/- One collision -/
theorem Inv.collide {func : Callbacks I} {target : Size} (ops : ListOps I) (hInv : s.Inv)
    (hAllowed : Allowed s (.collide func target)) :
    ∃ s', s.collide ops func target = some s' ∧ s'.Inv ∧ Ascending s'.toStore.index s'.cached := by
  rcases hAllowed with ⟨hOrder, hSame⟩
  rcases rebuild_spec hInv with ⟨hPending, hAdmitted, hShown, hTarget, hLost⟩
  rcases insert_spec ops hPending hOrder with ⟨s₁, hInsert, hInv₁, hShown₁, hTarget₁, hNone, hSome⟩
  have hAim : (s₁.aim target).Inv ∧ ((s₁.aim target).lost = true ∨
      (s₁.aim target = s₁ ∧ s₁.target = target ∧ s₁.lost = false)) := by
    unfold aim
    split
    · rename_i hEq
      refine ⟨hInv₁, ?_⟩
      cases hCase : s₁.lost with
      | true => exact .inl rfl
      | false => exact .inr ⟨rfl, hEq, rfl⟩
    · exact ⟨⟨hInv₁.nodup, hInv₁.live, hInv₁.change,
        hInv₁.sorted, hInv₁.cached, hInv₁.shown⟩, .inl rfl⟩
  have hDone : ((s₁.aim target).find ops).Inv ∧ (∀ x ∈ ((s₁.aim target).find ops).cached,
    x ∈ ((s₁.aim target).find ops).live) ∧ Ascending ((s₁.aim target).find ops).toStore.index
      ((s₁.aim target).find ops).cached := by
    rcases hAim.2 with hFinds | ⟨hEq, hHere, hKept⟩
    · exact find_spec ops hAim.1 hFinds
    · have hIdle : s.rebuild.change = [] := by
        by_contra hWaits
        rw [hSome hWaits] at hKept
        exact nomatch hKept
      have hFirst := hNone hIdle
      have hNot : ¬ s.Finds target := by
        rintro (hWaits | hNew | hStale)
        · exact hWaits hIdle
        · rw [← hTarget, ← hTarget₁] at hNew
          exact hNew hHere
        · rw [hFirst, hLost, hStale] at hKept
          exact nomatch hKept
      have hFind : (s₁.aim target).find ops = s₁ := by
        rw [hEq]
        unfold find
        rw [if_neg (by rw [hKept]; exact Bool.false_ne_true)]
      rw [hFind]
      refine ⟨hInv₁, hInv₁.again ?_⟩
      intro p hp
      rw [hShown₁, hShown] at hp
      rw [hFirst, hAdmitted.live, hAdmitted.index]
      rcases hSame hNot p hp with ⟨hLive, hIndex⟩
      exact ⟨⟨hLive, by simp⟩, hIndex⟩
  unfold QuadTree.collide
  rw [hInsert]
  refine ⟨_, ?_, hDone.1, hDone.2.2⟩
  exact if_pos hDone.2.1

end QuadTree

/- One operation -/
theorem QuadTree.Inv.step {s : QuadTree I} (ops : ListOps I)
    (a : Call I) (hInv : s.Inv) (hAllowed : Allowed s a) :
    ∃ s', step ops s a = some s' ∧ s'.Inv := by
  cases a with
  | add x => exact ⟨_, if_neg hAllowed, hInv.add hAllowed⟩
  | del x => exact ⟨_, if_pos hAllowed, hInv.del hAllowed⟩
  | change x => exact ⟨_, if_pos hAllowed, hInv.changed hAllowed⟩
  | hide x => exact ⟨_, if_pos hAllowed, hInv.setVisible x false⟩
  | «show» x => exact ⟨_, if_pos hAllowed, hInv.show hAllowed⟩
  | increase x => exact ⟨_, if_pos hAllowed, hInv.increase x⟩
  | cycle =>
    exact ⟨_, rfl, hInv.nodup, hInv.live, hInv.change, hInv.sorted, hInv.cached, hInv.shown⟩
  | resize w h => exact ⟨_, rfl, hInv.resized w h⟩
  | collide func target =>
    rcases hInv.collide ops hAllowed with ⟨s', hRun, hNext, -⟩
    exact ⟨s', hRun, hNext⟩

/-
  While the condition is met, the lists that are flagged
  sorted are sorted in every state, and every collision
  returns the items in the order of their indices.
-/
theorem ordered_run (ops : ListOps I) (w h : Nat)
    (items : I → Item) (s : QuadTree I) (calls : List (Call I))
    (hNew : QuadTree.new w h items = some s)
    (hGuarded : Runs.Guarded (step ops) Allowed s calls) :
    ∃ s', Runs.run (step ops) s calls = some s' ∧
      TreeOk s'.toStore.index s'.root ∧
      ∀ func target, Allowed s' (.collide func target) →
        ∃ s'', step ops s' (.collide func target) = some s'' ∧
          TreeOk s''.toStore.index s''.root ∧
          Ascending s''.toStore.index s''.cached := by
  rcases Runs.run_of_guarded QuadTree.Inv
    (fun s a => QuadTree.Inv.step ops a)
    (QuadTree.inv_new hNew) hGuarded with ⟨s', hRun, hInv⟩
  refine ⟨s', hRun, hInv.sorted, ?_⟩
  intro func target hAllowed
  rcases hInv.collide ops hAllowed with
    ⟨s'', hCollide, hNext, hAscending⟩
  exact ⟨s'', hCollide, hNext.sorted, hAscending⟩

/- The order of the indices -/
def notAbove (key : I → Nat) (x y : I) : Prop :=
  key x ≤ key y

instance (key : I → Nat) : DecidableRel (notAbove key) :=
  fun x y => inferInstanceAs (Decidable (key x ≤ key y))

instance (key : I → Nat) : Std.Total (notAbove key) := ⟨fun x y => Nat.le_total (key x) (key y)⟩

instance (key : I → Nat) : IsTrans I (notAbove key) := ⟨fun _ _ _ => Nat.le_trans⟩

/- Lists as the library has them -/
def libraryOps : ListOps I where
  sortedInsert key l x := l.orderedInsert (notAbove key) x
  sort key l := l.insertionSort (notAbove key)
  perm_sortedInsert _ l x := List.perm_orderedInsert _ x l
  ascending_sortedInsert _ l x hSorted :=
    List.Pairwise.orderedInsert x l hSorted
  perm_sort _ l := List.perm_insertionSort _ l
  ascending_sort _ l := List.pairwise_insertionSort _ l

/- All objects are on both sides of each line. -/
def allBoth : Callbacks Nat where
  v _ _ := .both
  h _ _ := .both

def blank (_ : Nat) : Item where
  index := 0
  change := false
  deleteMe := false
  visible := false
  hidden := false

def target : Size where
  x := 0
  y := 0
  w := 10
  h := 10

instance (key : I → Nat) (l : List I) : Decidable (Ascending key l) :=
  inferInstanceAs
    (Decidable (l.Pairwise fun x y => key x ≤ key y))

/- A tree without items -/
def empty : QuadTree Nat where
  items := blank
  live := ∅
  hiddenItems := []
  root := .nil
  change := []
  cached := []
  shown := []
  target := ⟨0, 0, 0, 0⟩
  index := 0
  resize := false
  lost := true
  w := 100
  h := 100

theorem ordered_run_sample :
    ∃ s', Runs.run (step libraryOps) empty [.add 1, .add 2] =
        some s' ∧
      TreeOk s'.toStore.index s'.root ∧
      ∃ s'', step libraryOps s' (.collide allBoth target) =
          some s'' ∧
        TreeOk s''.toStore.index s''.root ∧
        Ascending s''.toStore.index s''.cached := by
  rcases ordered_run libraryOps 100 100 blank empty [.add 1, .add 2] rfl
    ⟨by simp [Allowed, empty], fun s hs => by
      obtain rfl := Option.some.inj hs
      refine ⟨by simp [Allowed, empty, QuadTree.add], ?_⟩
      exact fun _ _ => trivial⟩ with ⟨s', hRun, hOk, hAll⟩
  refine ⟨s', hRun, hOk, hAll allBoth target ?_⟩
  obtain rfl := Option.some.inj hRun
  refine ⟨fun _ => ⟨fun _ => ⟨?_, ?_⟩, trivial, trivial⟩, ?_⟩
  · decide
  · intro b hb
    exact nomatch hb
  · intro hNot
    exact absurd (.inr (.inr rfl)) hNot

/-
  Item 1 is below item 2, but comes behind it when it is
  changed; and it is still first when it has been raised.
-/
theorem changed_item_first :
    (∃ s, Runs.run (step libraryOps) empty [.add 1, .add 2, .collide
        allBoth target, .change 1, .collide allBoth target] = some s ∧
        s.root.items = [2, 1] ∧ ¬ TreeOk s.toStore.index s.root ∧
        ¬ Ascending s.toStore.index s.cached) ∧
    ∃ s, Runs.run (step libraryOps) empty
        [.add 1, .add 2, .collide allBoth target, .increase 1,
          .collide allBoth target] = some s ∧
      ¬ Ascending s.toStore.index s.cached := by
  constructor
  · refine ⟨_, rfl, rfl, ?_, ?_⟩
    · exact fun hOk => absurd (hOk.1 rfl) (by decide)
    · decide
  · exact ⟨_, rfl, by decide⟩

end Efl.Eina.Quadtree
