import Efl.Eina.Mempool.Chunks

/-
  The calls keep the chunks, the list and the tree of a pool
  consistent.

  Main declarations:
    * `Sound`
    * `allocIn_spec`, `freeIn_spec`
    * `malloc_spec`, `free_spec`
-/

---
-- Items of Other Chunks
---

namespace Efl.Eina.Mempool

open List

variable {cfg : Config} {live : List Nat} {p a : Nat}

theorem mem_items : a ∈ items cfg live p ↔ a ∈ live ∧ Inside cfg p a := by
  unfold items
  rw [mem_filter, decide_eq_true_eq]

theorem items_cons_inside (hInside : Inside cfg p a) :
    items cfg (a :: live) p = a :: items cfg live p := by
  unfold items
  rw [filter_cons_of_pos (by simpa using hInside)]

theorem items_cons_outside (hOutside : ¬ Inside cfg p a) :
    items cfg (a :: live) p = items cfg live p := by
  unfold items
  rw [filter_cons_of_neg (by simpa using hOutside)]

theorem items_erase : items cfg (live.erase a) p = (items cfg live p).erase a := by
  unfold items
  exact (erase_filter ..).symm

theorem items_erase_outside (hOutside : ¬ Inside cfg p a) :
    items cfg (live.erase a) p = items cfg live p := by
  rw [items_erase, erase_of_not_mem]
  intro hMem
  exact hOutside (mem_items.mp hMem).2

---
-- The Tree
---

open RedBlack

/- The tree has the chunks in descending order. -/
def key (p : Nat) : Natᵒᵈ :=
  OrderDual.toDual p

theorem consistent_poolCmp : Rbtree.Consistent poolCmp key := by
  intro a b hLess
  have hLess : b < a := hLess
  unfold poolCmp
  rw [if_neg (Nat.lt_asymm hLess), if_pos hLess]
  exact ⟨rfl, rfl⟩

/- The chunks are in the tree. -/
def Treed (tree : Rbtree.Mem Nat) (live : Finset Nat) : Prop :=
  ∃ t, Rbtree.IsTree key ⟨tree, live⟩ t

theorem Treed.insert {tree : Rbtree.Mem Nat} {live : Finset Nat}
    {p : Nat} (hTreed : Treed tree live) (hNew : p ∉ live)
    (hFits : Rbtree.Fits poolCmp ⟨tree, live⟩ (.insert p)) :
    ∃ tree', Rbtree.inlineInsert poolCmp tree p = some tree' ∧ Treed tree' (insert p live) := by
  rcases hTreed with ⟨t, hTree⟩
  have hAdmissible : Rbtree.Admissible key ⟨tree, live⟩ (.insert p) := by
    intro q hMem hSame
    obtain rfl : q = p := hSame
    exact hNew hMem
  rcases Rbtree.step_isTree consistent_poolCmp hTree hAdmissible hFits with ⟨s', t', hStep, hTree'⟩
  rw [Rbtree.step, Option.map_eq_some_iff] at hStep
  rcases hStep with ⟨tree', hInsert, rfl⟩
  exact ⟨tree', hInsert, t', hTree'⟩

theorem Treed.remove {tree : Rbtree.Mem Nat} {live : Finset Nat}
    {p : Nat} (hTreed : Treed tree live)
    (hFits : Rbtree.Fits poolCmp ⟨tree, live⟩ (.remove p)) :
    ∃ tree', Rbtree.inlineRemove poolCmp tree p = some tree' ∧ Treed tree' (live.erase p) := by
  rcases hTreed with ⟨t, hTree⟩
  have hAdmissible : Rbtree.Admissible key ⟨tree, live⟩ (.remove p) := trivial
  rcases Rbtree.step_isTree consistent_poolCmp hTree hAdmissible hFits with ⟨s', t', hStep, hTree'⟩
  rw [Rbtree.step, Option.map_eq_some_iff] at hStep
  rcases hStep with ⟨tree', hRemove, rfl⟩
  exact ⟨tree', hRemove, t', hTree'⟩

---
-- Pools
---

open Option Function

/- The list `cs` of chunks, and the items in them. -/
structure Sound (cfg : Config) (pool : Pool) (live : List Nat) (cs : List Nat) : Prop where
  holds : Inlist.Holds pool.links pool.first cs
  treed : Treed pool.tree pool.chunks.live
  mem_iff : ∀ p, p ∈ cs ↔ p ∈ pool.chunks.live
  apart : ∀ p ∈ cs, ∀ q ∈ cs, p ≠ q → Apart cfg.allocSize p q
  chunk : ∀ p ∈ cs, ∃ trash mark,
    Represents cfg pool.word p (pool.chunks.node p)
      (items cfg live p) trash mark
  nodup : live.Nodup
  inside : ∀ a ∈ live, ∃ p ∈ cs, Inside cfg p a
  order : cs.Pairwise fun p q =>
    (pool.chunks.node p).Full → (pool.chunks.node q).Full
  fill : ∀ p, pool.firstFill = some p → p ∈ cs
  usage : pool.usage = CInt.wrap live.length

/- Every chunk has an item. -/
def Busy (cfg : Config) (live cs : List Nat) : Prop :=
  ∀ p ∈ cs, items cfg live p ≠ []

section

variable {cfg : Config} {pool : Pool} {live cs : List Nat}

/- A chunk of an item is the only one. -/
theorem Sound.outside (hSized : Sized cfg)
    (hSound : Sound cfg pool live cs) {p q a : Nat} (hp : p ∈ cs)
    (hq : q ∈ cs) (hNe : q ≠ p) (hInside : Inside cfg p a) : ¬ Inside cfg q a := by
  intro hOther
  exact hOther.unique hSized hInside (hSound.apart q hq p hp hNe)

/- One chunk changes, its items and the order of the list. -/
theorem Sound.set (hSized : Sized cfg) (hSound : Sound cfg pool live cs)
    {p : Nat} {c : Chunk} {live' trash cs' : List Nat} {mark : Nat}
    {word : Nat → Option Nat} {links : Inlist.Memory Nat} {first :
    Option Nat} {usage : Int} (hHolds : Inlist.Holds links first cs') (hMem : ∀ q, q ∈ cs' ↔ q ∈ cs)
    (hRep : Represents cfg word p c (items cfg live' p) trash mark)
    (hItems : ∀ q ∈ cs, q ≠ p → items cfg live' q = items cfg live q)
    (hWord : ∀ q ∈ cs, q ≠ p → ∀ a, Inside cfg q a →
    word a = pool.word a) (hNodup : live'.Nodup) (hInside : ∀ a ∈ live',
    ∃ q ∈ cs, Inside cfg q a) (hOrder : cs'.Pairwise fun q r =>
      (update pool.chunks.node p c q).Full →
        (update pool.chunks.node p c r).Full)
    (hUsage : usage = CInt.wrap live'.length) :
    Sound cfg
      { pool with
        links := links
        first := first
        chunks := pool.chunks.set p c
        word := word
        usage := usage } live' cs' := by
  refine ⟨hHolds, hSound.treed, ?_, ?_, ?_, hNodup, ?_, hOrder, ?_, hUsage⟩
  · intro q
    exact (hMem q).trans (hSound.mem_iff q)
  · intro q hq r hr
    exact hSound.apart q ((hMem q).mp hq) r ((hMem r).mp hr)
  · intro q hq
    rw [hMem] at hq
    dsimp only
    rw [Heap.node_set]
    by_cases hSame : q = p
    · subst hSame
      rw [update_self]
      exact ⟨trash, mark, hRep⟩
    · rw [update_of_ne hSame, hItems q hq hSame]
      rcases hSound.chunk q hq with ⟨trash', mark', hRep'⟩
      refine ⟨trash', mark', hRep'.congr hSized ?_⟩
      intro a hIn _
      exact hWord q hq hSame a hIn
  · intro a ha
    rcases hInside a ha with ⟨q, hq, hIn⟩
    exact ⟨q, (hMem q).mpr hq, hIn⟩
  · intro q hFill
    exact (hMem q).mpr (hSound.fill q hFill)

/- The order does not depend on a chunk that is not there. -/
theorem order_update {node : Nat → Chunk} {p : Nat} (c : Chunk)
    (hOrder : cs.Pairwise fun q r => (node q).Full → (node r).Full)
    (hOut : p ∉ cs) :
    cs.Pairwise fun q r => (update node p c q).Full → (update node p c r).Full := by
  refine hOrder.imp_of_mem fun hq hr hFull => ?_
  rw [update_of_ne, update_of_ne]
  · exact hFull
  · rintro rfl
    exact hOut hr
  · rintro rfl
    exact hOut hq

/-
  The outcome of an allocation of `a` in the chunk `p`, where
  `chunks` are the chunks that there are then.
-/
structure Gives (cfg : Config) (pool : Pool) (live : List Nat) (p : Nat)
    (chunks : Finset Nat) (pool' : Pool) (a : Nat) (cs' : List Nat) : Prop where
  sound : Sound cfg pool' (a :: live) cs'
  inside : Inside cfg p a
  chunks : pool'.chunks.live = chunks
  fill : pool'.firstFill = some p
  node : ∀ q, q ≠ p → pool'.chunks.node q = pool.chunks.node q

/- Every chunk has an item again. -/
theorem Gives.busy {pool pool' : Pool} {p a : Nat} {chunks : Finset Nat}
    {cs' : List Nat} (hGives : Gives cfg pool live p chunks pool' a cs')
    (hBusy : Busy cfg live cs) (hOld : ∀ q ∈ chunks, q ≠ p → q ∈ cs) :
    Busy cfg (a :: live) cs' := by
  intro q hq
  by_cases hInside : Inside cfg q a
  · rw [items_cons_inside hInside]
    exact cons_ne_nil _ _
  · rw [items_cons_outside hInside]
    apply hBusy q
    apply hOld q
    · rw [← hGives.chunks]
      exact (hGives.sound.mem_iff q).mp hq
    · rintro rfl
      exact hInside hGives.inside

/- An item is taken from a chunk that has room. -/
theorem allocIn_spec (hSized : Sized cfg)
    (hSound : Sound cfg pool live cs) {p : Nat} (hMem : p ∈ cs)
    (hRoom : ¬ (pool.chunks.node p).Full)
    (hFill : pool.firstFill = some p) :
    ∃ pool' a cs', allocIn cfg pool p = some (pool', some a) ∧
      Gives cfg pool live p pool.chunks.live pool' a cs' := by
  rcases hSound.chunk p hMem with ⟨trash, mark, hRep⟩
  rcases takeItem_spec hSized hRep hRoom with ⟨c', a, trash', mark', hTake, hUsage, hRep', hNew⟩
  have hInside : Inside cfg p a := hRep'.inside hSized (by simp)
  have hLive : a ∉ live := fun h =>
    hNew (mem_items.mpr ⟨h, hInside⟩)
  rw [← items_cons_inside hInside] at hRep'
  have hItems : ∀ q ∈ cs, q ≠ p →
      items cfg (a :: live) q = items cfg live q :=
    fun q hq hNe => items_cons_outside (hSound.outside hSized hMem hq hNe hInside)
  have hRead : pool.chunks.read p = some (pool.chunks.node p) :=
    Heap.read_of_mem ((hSound.mem_iff p).mp hMem)
  have hIn : ∀ b ∈ a :: live, ∃ q ∈ cs, Inside cfg q b := by
    intro b hb
    rcases mem_cons.mp hb with rfl | hb
    · exact ⟨p, hMem, hInside⟩
    · exact hSound.inside b hb
  have hCount : CInt.wrap (pool.usage + 1) = CInt.wrap ((a :: live).length : Nat) := by
    rw [hSound.usage, length_cons]
    unfold CInt.wrap
    omega
  rw [← hUsage] at hRep'
  have hOther : ∀ q, q ≠ p → (pool.chunks.set p { c' with
      usage := CInt.wrap (c'.usage + 1) }).node q = pool.chunks.node q := by
    intro q hNe
    rw [Heap.node_set, update_of_ne hNe]
  by_cases hFull : c'.Full
  · -- The chunk goes to the end of the list.
    rcases append_of_mem hMem with ⟨as, bs, rfl⟩
    have hOut := hSound.holds.apart
    have hPerm : (as ++ bs ++ [p]).Perm (as ++ p :: bs) := by
      refine (perm_append_singleton p (as ++ bs)).trans ?_
      exact perm_middle.symm
    have hSub : (as ++ bs).Sublist (as ++ p :: bs) := (sublist_cons_self p bs).append_left as
    rcases Inlist.demote_spec pool.chunks.live.card hSound.holds
      with ⟨links, first, hDemote, hHolds⟩
    refine ⟨_, a, as ++ bs ++ [p], ?_, hSound.set hSized hHolds
      (fun q => hPerm.mem_iff) hRep' hItems
      (fun q hq hNe b hb => rfl) (hSound.nodup.cons hLive) hIn ?_
      hCount, hInside, rfl, hFill, hOther⟩
    · unfold allocIn
      rw [hRead]
      dsimp only [bind_eq_bind, bind_some]
      rw [hTake]
      dsimp only
      rw [if_pos hFull, hDemote]
      rfl
    · refine pairwise_append.mpr ⟨order_update _ (hSound.order.sublist hSub) hOut,
      pairwise_singleton _ p, ?_⟩
      intro q _ r hr _
      obtain rfl := mem_singleton.mp hr
      rw [update_self]
      exact hFull
  · refine ⟨_, a, cs, ?_, hSound.set hSized hSound.holds (fun q => Iff.rfl) hRep' hItems
      (fun q hq hNe b hb => rfl) (hSound.nodup.cons hLive) hIn ?_
      hCount, hInside, rfl, hFill, hOther⟩
    · unfold allocIn
      rw [hRead]
      dsimp only [bind_eq_bind, bind_some]
      rw [hTake]
      dsimp only
      rw [if_neg hFull]
    · -- It has room, before and after.
      refine hSound.order.imp ?_
      intro q r hFullness hq
      by_cases hSameR : r = p
      · subst hSameR
        by_cases hSameQ : q = r
        · rwa [hSameQ] at hq
        · rw [update_of_ne hSameQ] at hq
          exact absurd (hFullness hq) hRoom
      · by_cases hSameQ : q = p
        · subst hSameQ
          rw [update_self] at hq
          exact absurd hq hFull
        · rw [update_of_ne hSameQ] at hq
          rw [update_of_ne hSameR]
          exact hFullness hq

/- An item goes back to its chunk. -/
theorem freeIn_spec (hSized : Sized cfg)
    (hSound : Sound cfg pool live cs) (hBusy : Busy cfg live cs)
    {p a : Nat} (hMem : p ∈ cs) (hLive : a ∈ live)
    (hInside : Inside cfg p a) (hFits : items cfg live p = [a] →
      Rbtree.Fits poolCmp ⟨pool.tree, pool.chunks.live⟩ (.remove p)) :
    ∃ pool' released cs',
      freeIn pool p a = some (pool', released) ∧
      Sound cfg pool' (live.erase a) cs' ∧
      Busy cfg (live.erase a) cs' ∧ pool'.chunks.live ⊆ pool.chunks.live := by
  rcases hSound.chunk p hMem with ⟨trash, mark, hRep⟩
  have hItem : a ∈ items cfg live p := mem_items.mpr ⟨hLive, hInside⟩
  have hRep' := pushItem_spec hSized hRep hItem
  rw [← items_erase] at hRep'
  have hOutside : ∀ q ∈ cs, q ≠ p → ¬ Inside cfg q a :=
    fun q hq hNe => hSound.outside hSized hMem hq hNe hInside
  have hItems : ∀ q ∈ cs, q ≠ p →
      items cfg (live.erase a) q = items cfg live q :=
    fun q hq hNe => items_erase_outside (hOutside q hq hNe)
  have hWord : ∀ q ∈ cs, q ≠ p → ∀ b, Inside cfg q b →
      update pool.word a (pool.chunks.node p).base b = pool.word b := by
    intro q hq hNe b hb
    rw [update_of_ne]
    rintro rfl
    exact hOutside q hq hNe hb
  have hRead : pool.chunks.read p = some (pool.chunks.node p) :=
    Heap.read_of_mem ((hSound.mem_iff p).mp hMem)
  have hLength := length_erase_of_mem hLive
  have hPos := length_pos_of_mem hLive
  have hCount : CInt.wrap (pool.usage - 1) = CInt.wrap ((live.erase a).length : Nat) := by
    rw [hSound.usage, hLength]
    unfold CInt.wrap
    omega
  rcases append_of_mem hMem with ⟨as, bs, rfl⟩
  have hOut := hSound.holds.apart
  have hSub : (as ++ bs).Sublist (as ++ p :: bs) := (sublist_cons_self p bs).append_left as
  have hPermOut : (as ++ p :: bs).Perm (p :: (as ++ bs)) := perm_middle
  by_cases hLast : items cfg (live.erase a) p = []
  · -- The chunk is freed.
    have hUsage : CInt.wrap ((pool.chunks.node p).usage - 1) = (0 : Int) := by
      rw [show CInt.wrap ((pool.chunks.node p).usage - 1) = _ from
        hRep'.usage, hLast]
      rfl
    have hOne : items cfg live p = [a] := by
      rw [items_erase] at hLast
      rw [← perm_singleton, ← hLast]
      exact perm_cons_erase hItem
    rcases hSound.treed.remove (hFits hOne) with ⟨tree, hRemove, hTreed⟩
    have hHolds := Inlist.remove_spec hSound.holds
    have hNe : ∀ q ∈ as ++ bs, q ≠ p := by
      rintro q hq rfl
      exact hOut hq
    refine ⟨{ pool with
      links := (Inlist.remove pool.links pool.first p).1
      first := (Inlist.remove pool.links pool.first p).2
      tree := tree
      chunks := ⟨pool.chunks.live.erase p, update
        pool.chunks.node p { pool.chunks.node p with
          base := some a
          usage := CInt.wrap ((pool.chunks.node p).usage - 1) }⟩
      word := update pool.word a (pool.chunks.node p).base
      usage := CInt.wrap (pool.usage - 1)
      firstFill :=
        if pool.firstFill = some p then
          (Inlist.remove pool.links pool.first p).2
        else pool.firstFill }, true, as ++ bs, ?_,
      ⟨hHolds, hTreed, ?_, ?_, ?_, hSound.nodup.erase a, ?_, ?_,
        ?_, hCount⟩, ?_, Finset.erase_subset _ _⟩
    · have hFree := Heap.free_of_mem (h := pool.chunks.set p
        { pool.chunks.node p with
          base := some a
          usage := CInt.wrap ((pool.chunks.node p).usage - 1) }) ((hSound.mem_iff p).mp hMem)
      unfold freeIn
      rw [hRead]
      dsimp only [bind_eq_bind, bind_some]
      rw [if_pos hUsage, hRemove]
      dsimp only [bind_some]
      rw [hFree]
      rfl
    · intro q
      rw [Finset.mem_erase, ← hSound.mem_iff]
      constructor
      · intro hq
        exact ⟨hNe q hq, hSub.subset hq⟩
      · rintro ⟨hSame, hq⟩
        rw [hPermOut.mem_iff, mem_cons] at hq
        exact hq.resolve_left hSame
    · intro q hq r hr
      exact hSound.apart q (hSub.subset hq) r (hSub.subset hr)
    · intro q hq
      dsimp only
      rw [update_of_ne (hNe q hq), hItems q (hSub.subset hq) (hNe q hq)]
      rcases hSound.chunk q (hSub.subset hq) with ⟨trash', mark', hRepQ⟩
      exact ⟨trash', mark', hRepQ.congr hSized fun b hb _ =>
        hWord q (hSub.subset hq) (hNe q hq) b hb⟩
    · intro b hb
      have hbLive := mem_of_mem_erase hb
      rcases hSound.inside b hbLive with ⟨q, hq, hIn⟩
      have hSame : q ≠ p := by
        rintro rfl
        have hItemB := mem_items.mpr ⟨hb, hIn⟩
        rw [hLast] at hItemB
        exact nomatch hItemB
      rw [hPermOut.mem_iff, mem_cons] at hq
      exact ⟨q, hq.resolve_left hSame, hIn⟩
    · exact order_update _ (hSound.order.sublist hSub) hOut
    · intro q hFill
      dsimp only at hFill
      split at hFill
      · rw [hHolds.head] at hFill
        exact mem_of_head? hFill
      · have hq := hSound.fill q hFill
        have hSame : q ≠ p := by
          rintro rfl
          contradiction
        rw [hPermOut.mem_iff, mem_cons] at hq
        exact hq.resolve_left hSame
    · intro q hq
      rw [hItems q (hSub.subset hq) (hNe q hq)]
      exact hBusy q (hSub.subset hq)
  · -- The chunk goes to the front of the list.
    have hUsage : CInt.wrap ((pool.chunks.node p).usage - 1) ≠ (0 : Int) := by
      rw [show CInt.wrap ((pool.chunks.node p).usage - 1) = _ from
        hRep'.usage]
      have hLengthPos := length_pos_iff.mpr hLast
      omega
    rcases Inlist.promote_spec hSound.holds with ⟨links, hPromote, hHolds⟩
    refine ⟨_, false, p :: (as ++ bs), ?_, hSound.set hSized hHolds
      (fun q => hPermOut.symm.mem_iff) hRep' hItems hWord
      (hSound.nodup.erase a) ?_ ?_ hCount, ?_, Finset.Subset.refl _⟩
    · unfold freeIn
      rw [hRead]
      dsimp only [bind_eq_bind, bind_some]
      rw [if_neg hUsage, hPromote]
      rfl
    · intro b hb
      exact hSound.inside b (mem_of_mem_erase hb)
    · refine pairwise_cons.mpr ⟨?_, order_update _ (hSound.order.sublist hSub) hOut⟩
      intro q _ hFull
      rw [update_self] at hFull
      exact nomatch hFull.1
    · intro q hq
      rw [← hPermOut.mem_iff] at hq
      by_cases hSame : q = p
      · rwa [hSame]
      · rw [hItems q hq hSame]
        exact hBusy q hq

end

---
-- Allocation
---

section

variable {cfg : Config} {pool : Pool} {live cs : List Nat}

theorem isFull_of_mem (hSound : Sound cfg pool live cs)
    {p : Nat} (hMem : p ∈ cs) : pool.isFull p = some (decide (pool.chunks.node p).Full) := by
  unfold Pool.isFull
  rw [Heap.read_of_mem ((hSound.mem_iff p).mp hMem)]
  rfl

/- A chunk that has room is chosen, or a new one is needed. -/
theorem choose_spec (hSound : Sound cfg pool live cs) :
    choose pool = some (none, none) ∨
      ∃ p q, choose pool = some (some p, some q) ∧ p ∈ cs ∧ ¬ (pool.chunks.node p).Full := by
  unfold choose
  cases hFill : pool.firstFill with
  | none => exact Or.inl rfl
  | some p =>
    have hMem := hSound.fill p hFill
    dsimp only
    rw [isFull_of_mem hSound hMem]
    dsimp only [bind_eq_bind, bind_some]
    by_cases hFull : (pool.chunks.node p).Full
    · rw [if_pos (decide_eq_true hFull)]
      have hHead := hSound.holds.head
      cases cs with
      | nil => exact nomatch hMem
      | cons first rest =>
        rw [head?_cons] at hHead
        rw [hHead]
        dsimp only
        rw [isFull_of_mem hSound mem_cons_self]
        dsimp only [bind_eq_bind, bind_some]
        by_cases hFirst : (pool.chunks.node first).Full
        · rw [if_pos (decide_eq_true hFirst)]
          exact Or.inl rfl
        · rw [if_neg (by simpa using hFirst)]
          exact Or.inr ⟨first, p, rfl, mem_cons_self, hFirst⟩
    · rw [if_neg (by simpa using hFull)]
      exact Or.inr ⟨p, p, rfl, hMem, hFull⟩

section

variable (hSized : Sized cfg)

include hSized

section

variable (hSound : Sound cfg pool live cs)

include hSound

/- No item is in a block that is apart from the chunks. -/
theorem Sound.items_apart_nil {p : Nat}
    (hApart : ∀ q ∈ cs, Apart cfg.allocSize p q) : items cfg live p = [] := by
  rw [eq_nil_iff_forall_not_mem]
  intro a hMem
  rcases mem_items.mp hMem with ⟨ha, hInside⟩
  rcases hSound.inside a ha with ⟨q, hq, hOther⟩
  exact hInside.unique hSized hOther (hApart q hq)

/- A new chunk in front of the others. -/
theorem Sound.new
    {p : Nat} {tree : Rbtree.Mem Nat} {links : Inlist.Memory Nat}
    (hNew : p ∉ cs) (hApart : ∀ q ∈ cs, Apart cfg.allocSize p q)
    (hHolds : Inlist.Holds links (some p) (p :: cs))
    (hTreed : Treed tree (insert p pool.chunks.live)) :
    Sound cfg
      { poolNew cfg pool p with
        firstFill := some p
        links := links
        first := some p
        tree := tree } live (p :: cs) := by
  have hItems := hSound.items_apart_nil hSized hApart
  have hNe : ∀ q ∈ cs, q ≠ p := by
    rintro q hq rfl
    exact hNew hq
  refine ⟨hHolds, hTreed, ?_, ?_, ?_, hSound.nodup, ?_, ?_, ?_, hSound.usage⟩
  · intro q
    change q ∈ p :: cs ↔ q ∈ insert p pool.chunks.live
    rw [mem_cons, Finset.mem_insert, hSound.mem_iff]
  · intro q hq r hr hDistinct
    rw [mem_cons] at hq hr
    rcases hq with rfl | hOldQ
    · exact hApart r (hr.resolve_left hDistinct.symm)
    · rcases hr with rfl | hOldR
      · exact (hApart q hOldQ).symm
      · exact hSound.apart q hOldQ r hOldR hDistinct
  · intro q hq
    dsimp only [poolNew, Heap.node_alloc]
    rcases mem_cons.mp hq with rfl | hq
    · rw [update_self, hItems]
      exact ⟨[], 0, represents_new hSized pool.word q⟩
    · rw [update_of_ne (hNe q hq)]
      exact hSound.chunk q hq
  · intro a ha
    rcases hSound.inside a ha with ⟨q, hq, hInside⟩
    exact ⟨q, mem_cons_of_mem p hq, hInside⟩
  · dsimp only [poolNew, Heap.node_alloc]
    refine pairwise_cons.mpr ⟨?_, order_update _ hSound.order hNew⟩
    intro q _ hFull
    rw [update_self] at hFull
    exact nomatch hFull.2
  · intro q hFill
    obtain rfl := some.inj hFill
    exact mem_cons_self

omit hSound in
theorem not_apart_self (p : Nat) : ¬ Apart cfg.allocSize p p := by
  have hFits := hSized.fits
  unfold headerSize at hFits
  unfold Apart
  omega

/- A new chunk is needed. -/
def NeedsChunk (pool : Pool) : Prop :=
  choose pool = some (none, none)

/- An item of a chunk that has room -/
theorem malloc_old (memory : Option Nat) {p q : Nat}
    (hChoose : choose pool = some (some p, some q)) (hMem : p ∈ cs)
    (hRoom : ¬ (pool.chunks.node p).Full) :
    ∃ pool' a cs', malloc cfg pool memory =
        some (pool', some a) ∧
      Gives cfg pool live p pool.chunks.live pool' a cs' := by
  have hFilled : Sound cfg { pool with firstFill := some p } live
      cs := by
    refine { hSound with fill := ?_ }
    intro r hFill
    obtain rfl := some.inj hFill
    exact hMem
  rcases allocIn_spec hSized hFilled hMem hRoom rfl with ⟨pool', a, cs', hAlloc, hGives⟩
  refine ⟨pool', a, cs', ?_, hGives.sound, hGives.inside, hGives.chunks, hGives.fill, hGives.node⟩
  unfold malloc
  rw [hChoose]
  exact hAlloc

/- The first item of a new chunk -/
theorem malloc_new {p : Nat} (hNeeds : NeedsChunk pool)
    (hApart : ∀ q ∈ pool.chunks.live, Apart cfg.allocSize p q) (hFits :
    Rbtree.Fits poolCmp ⟨pool.tree, pool.chunks.live⟩ (.insert p)) :
    ∃ pool' a cs', malloc cfg pool (some p) =
        some (pool', some a) ∧
      Gives cfg pool live p (insert p pool.chunks.live) pool' a
        cs' := by
  have hNew : p ∉ pool.chunks.live := fun hMem =>
    not_apart_self hSized p (hApart p hMem)
  have hNewList : p ∉ cs := fun hMem =>
    hNew ((hSound.mem_iff p).mp hMem)
  rcases Inlist.prepend_holds hSound.holds hNewList with ⟨links, hPrepend, hHolds⟩
  rcases hSound.treed.insert hNew hFits with ⟨tree, hInsert, hTreed⟩
  have hSound' := hSound.new hSized hNewList (fun q hq =>
    hApart q ((hSound.mem_iff q).mp hq)) hHolds hTreed
  rcases allocIn_spec hSized hSound' mem_cons_self
    (by simp [poolNew, Chunk.Full]) rfl with ⟨pool', a, cs', hAlloc, hGives⟩
  refine ⟨pool', a, cs', ?_, hGives.sound, hGives.inside, hGives.chunks, hGives.fill, ?_⟩
  · unfold malloc
    rw [hNeeds]
    dsimp only [bind_eq_bind, bind_some]
    rw [show Inlist.prepend (poolNew cfg pool p).links
        (poolNew cfg pool p).first p = _ from hPrepend,
      show Rbtree.inlineInsert poolCmp (poolNew cfg pool p).tree p = _ from hInsert]
    exact hAlloc
  · intro q hNe
    rw [hGives.node q hNe]
    dsimp only [poolNew, Heap.node_alloc]
    rw [update_of_ne hNe]

end

end

/- The memory is short. -/
theorem malloc_none (hSound : Sound cfg pool live cs)
    (hNeeds : NeedsChunk pool) :
    malloc cfg pool none =
        some ({ pool with firstFill := none }, none) ∧
      Sound cfg { pool with firstFill := none } live cs := by
  constructor
  · unfold malloc
    rw [hNeeds]
    rfl
  · exact { hSound with fill := fun q hFill => nomatch hFill }

theorem malloc_spec (hSized : Sized cfg)
    (hSound : Sound cfg pool live cs) (hBusy : Busy cfg live cs)
    {memory : Option Nat} (hApart : ∀ p, memory = some p →
      ∀ q ∈ pool.chunks.live, Apart cfg.allocSize p q)
    (hFits : ∀ p, memory = some p → NeedsChunk pool →
      Rbtree.Fits poolCmp ⟨pool.tree, pool.chunks.live⟩ (.insert p)) :
    ∃ pool' mem cs', malloc cfg pool memory =
        some (pool', mem) ∧
      Sound cfg pool' (mem.toList ++ live) cs' ∧ Busy cfg (mem.toList ++ live) cs' := by
  rcases choose_spec hSound with hNeeds | ⟨p, q, hChoose, hMem, hRoom⟩
  · cases memory with
    | none =>
      rcases malloc_none hSound hNeeds with ⟨hRun, hSound'⟩
      exact ⟨_, none, cs, hRun, hSound', hBusy⟩
    | some p =>
      rcases malloc_new hSized hSound hNeeds (hApart p rfl)
        (hFits p rfl hNeeds) with ⟨pool', a, cs', hRun, hGives⟩
      refine ⟨pool', some a, cs', hRun, hGives.sound, hGives.busy hBusy ?_⟩
      intro r hr hNe
      rw [Finset.mem_insert] at hr
      exact (hSound.mem_iff r).mpr (hr.resolve_left hNe)
  · rcases malloc_old hSized hSound memory hChoose hMem hRoom with ⟨pool', a, cs', hRun, hGives⟩
    refine ⟨pool', some a, cs', hRun, hGives.sound, hGives.busy hBusy ?_⟩
    intro r hr _
    exact (hSound.mem_iff r).mpr hr

/- The chunk of an item is found. -/
theorem free_spec (hSized : Sized cfg) (hSound : Sound cfg pool live cs)
    (hBusy : Busy cfg live cs) {a : Nat} (hLive : a ∈ live)
    (hFits : ∀ p ∈ pool.chunks.live, items cfg live p = [a] →
    Rbtree.Fits poolCmp ⟨pool.tree, pool.chunks.live⟩ (.remove p)) :
    ∃ pool' cs', free pool a = some pool' ∧
      Sound cfg pool' (live.erase a) cs' ∧
      Busy cfg (live.erase a) cs' ∧ pool'.chunks.live ⊆ pool.chunks.live := by
  rcases hSound.inside a hLive with ⟨p, hMem, hInside⟩
  have hMem' := (hSound.mem_iff p).mp hMem
  rcases freeIn_spec hSized hSound hBusy hMem hLive hInside (hFits p hMem') with
    ⟨pool', released, cs', hFree, hAfter⟩
  rcases hSound.treed with ⟨t, hTree⟩
  have hIn : ∀ q, q ∈ t.toList ↔ q ∈ cs := fun q =>
    (hTree.mem_iff q).trans (hSound.mem_iff q).symm
  have hLimit : ∀ q ∈ cs, (pool.chunks.node q).limit = q + headerSize + cfg.groupSize := by
    intro q hq
    rcases hSound.chunk q hq with ⟨trash, mark, hRep⟩
    rw [hRep.limit, hSized.group]
    rfl
  have hFits := hSized.fits
  have hHeader : headerSize = 80 := rfl
  obtain ⟨hLow, hHigh⟩ : p + headerSize ≤ a ∧ a < p + headerSize + cfg.groupSize := hInside
  have hLookup : Rbtree.inlineLookup (keyCmp pool a) pool.tree
      pool.chunks.live.card pool.tree.root = some (some p) := by
    refine Rbtree.inlineLookup_of_mem hTree.repr hTree.ascending
      ((hIn p).mpr hMem) ?_ ?_ ?_ hTree.length_eq.le
    · unfold keyCmp
      rw [hLimit p hMem, if_neg (by omega), if_neg (by omega)]
    · intro q hq hLess
      have hLess : p < q := hLess
      have hApart := hSound.apart p hMem q ((hIn q).mp hq) hLess.ne
      unfold Apart at hApart
      unfold keyCmp
      rw [hLimit q ((hIn q).mp hq), if_neg (by omega), if_pos (by omega)]
      decide
    · intro q hq hLess
      have hLess : q < p := hLess
      have hApart := hSound.apart p hMem q ((hIn q).mp hq) hLess.ne'
      unfold Apart at hApart
      unfold keyCmp
      rw [hLimit q ((hIn q).mp hq), if_pos (by omega)]
      decide
  refine ⟨pool', cs', ?_, hAfter⟩
  unfold free
  rw [hLookup]
  dsimp only [bind_eq_bind, bind_some]
  rw [hFree]
  rfl

end

end Efl.Eina.Mempool
