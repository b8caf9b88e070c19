import Efl.Eina.Mempool.Calls

/-
  Runs of allocations and releases.

  Main declarations:
    * `Consistent`
    * `Fits`
    * `Sound.consistent`
    * `pool_correct`
-/

---
-- Consistent Pools
---

namespace Efl.Eina.Mempool

open RedBlack List

def ExactlyOne (a b c : Prop) : Prop :=
  a ∧ ¬ b ∧ ¬ c ∨ ¬ a ∧ b ∧ ¬ c ∨ ¬ a ∧ ¬ b ∧ c

/- The slot was not handed out yet. -/
def Chunk.Above (c : Chunk) (a : Nat) : Prop :=
  ∃ last, c.last = some last ∧ last ≤ a

/- The chunks of the list and of the tree -/
structure SameChunks (pool : Pool) (cs : List Nat) : Prop where
  holds : Inlist.Holds pool.links pool.first cs
  tree : ∃ t, Rbtree.Repr pool.tree pool.tree.root t ∧
    t.toList.Perm cs
  mem_iff : ∀ p, p ∈ cs ↔ p ∈ pool.chunks.live

/- What holds of a pool and the items of its callers. -/
structure Consistent (cfg : Config) (st : State) : Prop where
  slot : ∀ a ∈ st.live, ∃ p ∈ st.pool.chunks.live,
    ∃ i < cfg.poolSize, a = slot cfg p i
  nodup : st.live.Nodup
  apart : ∀ a ∈ st.live, ∀ b ∈ st.live, a ≠ b →
    Apart cfg.itemAlloc a b
  once : ∀ p ∈ st.pool.chunks.live, ∃ trash,
    Chain.Seg st.pool.word (st.pool.chunks.node p).base trash ∧
      ∀ i < cfg.poolSize, ExactlyOne
        (Mempool.slot cfg p i ∈ st.live)
        (Mempool.slot cfg p i ∈ trash)
        ((st.pool.chunks.node p).Above (Mempool.slot cfg p i))
  chunkUsage : ∀ p ∈ st.pool.chunks.live,
    (st.pool.chunks.node p).usage = (items cfg st.live p).length
  poolUsage : st.pool.usage = st.live.length
  order : ∃ cs, SameChunks st.pool cs ∧
    cs.Pairwise fun p q =>
      (items cfg st.live p).length = cfg.poolSize →
        (items cfg st.live q).length = cfg.poolSize
  fill : ∀ p, st.pool.firstFill = some p →
    p ∈ st.pool.chunks.live
  busy : ∀ p ∈ st.pool.chunks.live, items cfg st.live p ≠ []

variable {cfg : Config} {pool : Pool} {live cs : List Nat}

/- A slot is in one of the three places. -/
theorem Represents.exactlyOne (hSized : Sized cfg)
    {word : Nat → Option Nat} {p : Nat} {c : Chunk} {trash : List Nat} {mark : Nat}
    (hRep : Represents cfg word p c (items cfg live p) trash mark)
    {i : Nat} (hi : i < cfg.poolSize) :
    ExactlyOne (slot cfg p i ∈ live) (slot cfg p i ∈ trash) (c.Above (slot cfg p i)) := by
  have hTaken : slot cfg p i ∈ live ↔ slot cfg p i ∈ items cfg live p := by
    rw [mem_items]
    exact ⟨fun h => ⟨h, slot_inside hSized hi⟩, And.left⟩
  have hAbove : c.Above (slot cfg p i) ↔ mark ≤ i := by
    unfold Chunk.Above
    rw [hRep.last]
    split
    case isTrue hLess =>
      rw [← slot_le_iff hSized (p := p)]
      simp
    case isFalse hEnd =>
      simp only [reduceCtorEq, false_and, exists_false, false_iff]
      omega
  have hSlots : slot cfg p i ∈ items cfg live p ++ trash ↔ i < mark := by
    rw [hRep.slots.mem_iff, List.mem_map]
    constructor
    · rintro ⟨j, hj, hSame⟩
      rw [slot_injective hSized p hSame] at hj
      exact mem_range.mp hj
    · intro hLess
      exact ⟨i, mem_range.mpr hLess, rfl⟩
  have hNodup := (nodup_append.mp (hRep.nodup hSized)).2.2 (slot cfg p i)
  rw [mem_append] at hSlots
  unfold ExactlyOne
  rw [hTaken, hAbove]
  by_cases hA : slot cfg p i ∈ items cfg live p
  · have hB : slot cfg p i ∉ trash := fun hB =>
      hNodup hA _ hB rfl
    have hLess := hSlots.mp (Or.inl hA)
    exact Or.inl ⟨hA, hB, by omega⟩
  · by_cases hB : slot cfg p i ∈ trash
    · have hLess := hSlots.mp (Or.inr hB)
      exact Or.inr (Or.inl ⟨hA, hB, by omega⟩)
    · have hMore : ¬ i < mark := fun hLess =>
        (hSlots.mpr hLess).elim hA hB
      exact Or.inr (Or.inr ⟨hA, hB, by omega⟩)

/- Items are slots of chunks, and have no byte in common. -/
theorem Sound.slot_of_mem (hSound : Sound cfg pool live cs)
    {a : Nat} (hMem : a ∈ live) : ∃ p ∈ cs, ∃ i < cfg.poolSize, a = slot cfg p i := by
  rcases hSound.inside a hMem with ⟨p, hp, hInside⟩
  rcases hSound.chunk p hp with ⟨trash, mark, hRep⟩
  rcases hRep.slot_of_mem (mem_append_left _ (mem_items.mpr ⟨hMem, hInside⟩)) with ⟨i, hi, hEq⟩
  exact ⟨p, hp, i, hi.trans_le hRep.mark_le, hEq.symm⟩

theorem Sound.items_apart (hSized : Sized cfg) (hSound : Sound cfg pool live cs) {a b : Nat}
    (ha : a ∈ live) (hb : b ∈ live) (hNe : a ≠ b) : Apart cfg.itemAlloc a b := by
  rcases hSound.slot_of_mem ha with ⟨p, hp, i, hi, rfl⟩
  rcases hSound.slot_of_mem hb with ⟨q, hq, j, hj, rfl⟩
  by_cases hSame : p = q
  · subst hSame
    apply slot_apart
    rintro rfl
    exact hNe rfl
  · have hApart := hSound.apart p hp q hq hSame
    have hFits := hSized.fits
    have hGroup := hSized.group
    have hi : cfg.itemAlloc * (i + 1) ≤ cfg.itemAlloc * cfg.poolSize := Nat.mul_le_mul_left _ hi
    have hj : cfg.itemAlloc * (j + 1) ≤ cfg.itemAlloc * cfg.poolSize := Nat.mul_le_mul_left _ hj
    rw [Nat.mul_succ] at hi hj
    unfold Apart at hApart ⊢
    unfold slot
    omega

theorem Sound.consistent (hSized : Sized cfg)
    (hSound : Sound cfg pool live cs) (hBusy : Busy cfg live cs)
    (hFew : (live.length : Int) ≤ CInt.intMax) : Consistent cfg ⟨pool, live⟩ := by
  have hMem : ∀ p ∈ pool.chunks.live, p ∈ cs := fun p hp =>
    (hSound.mem_iff p).mpr hp
  refine ⟨?_, hSound.nodup, ?_, ?_, ?_, ?_, ?_, ?_, ?_⟩
  · intro a ha
    rcases hSound.slot_of_mem ha with ⟨p, hp, hSlot⟩
    exact ⟨p, (hSound.mem_iff p).mp hp, hSlot⟩
  · intro a ha b hb hNe
    exact hSound.items_apart hSized ha hb hNe
  · intro p hp
    rcases hSound.chunk p (hMem p hp) with ⟨trash, mark, hRep⟩
    exact ⟨trash, hRep.chain, fun i hi =>
      hRep.exactlyOne hSized hi⟩
  · intro p hp
    rcases hSound.chunk p (hMem p hp) with ⟨trash, mark, hRep⟩
    exact hRep.usage
  · change pool.usage = live.length
    rw [hSound.usage]
    apply CInt.wrap_of_inRange
    unfold CInt.intMax at hFew
    unfold CInt.InRange
    omega
  · refine ⟨cs, ⟨hSound.holds, ?_, hSound.mem_iff⟩, ?_⟩
    · rcases hSound.treed with ⟨t, hTree⟩
      refine ⟨t, hTree.repr, ?_⟩
      rw [perm_ext_iff_of_nodup hTree.ascending.nodup hSound.holds.linked.nodup]
      intro p
      exact (hTree.mem_iff p).trans (hSound.mem_iff p).symm
    · refine hSound.order.imp_of_mem ?_
      intro p q hp hq hFull
      rcases hSound.chunk p hp with ⟨trash, mark, hRep⟩
      rcases hSound.chunk q hq with ⟨trash', mark', hRep'⟩
      rwa [hRep.full_iff, hRep'.full_iff] at hFull
  · intro p hFill
    exact (hSound.mem_iff p).mp (hSound.fill p hFill)
  · intro p hp
    exact hBusy p (hMem p hp)

---
-- Runs
---

open Option Function

/- The tree of the chunks does not run over its stack. -/
def Fits (cfg : Config) (st : State) : Op → Prop
  | .malloc memory =>
    ∀ p, memory = some p → NeedsChunk st.pool →
      Rbtree.Fits poolCmp ⟨st.pool.tree, st.pool.chunks.live⟩
        (.insert p)
  | .free ptr =>
    ∀ p ∈ st.pool.chunks.live,
      items cfg st.live p = [ptr] →
        Rbtree.Fits poolCmp
          ⟨st.pool.tree, st.pool.chunks.live⟩ (.remove p)
  | .write _ _ => True

/- The `int` that counts the items does not overflow. -/
def Counts (st : State) : Op → Prop
  | .malloc _ => (st.live.length : Int) < CInt.intMax
  | _ => True

/- What every call keeps, whether or not the count is right -/
def Kept (cfg : Config) (st : State) : Prop :=
  ∃ cs, Sound cfg st.pool st.live cs ∧ Busy cfg st.live cs

theorem kept_start (cfg : Config) : Kept cfg .start := by
  have hZero : CInt.wrap ((0 : Nat) : Int) = 0 := CInt.wrap_of_inRange (by decide)
  refine ⟨[], ⟨?_, ?_, ?_, ?_, ?_, nodup_nil, ?_, .nil, ?_, hZero.symm⟩, ?_⟩
  · exact ⟨DList.linked_nil, rfl, fun h hHead => nomatch hHead⟩
  · exact ⟨.nil, Rbtree.isTree_empty rfl⟩
  · intro p
    constructor
    · intro h
      exact nomatch h
    · intro h
      exact absurd h (Finset.notMem_empty p)
  · exact fun p hp => nomatch hp
  · exact fun p hp => nomatch hp
  · exact fun a ha => nomatch ha
  · exact fun p hFill => nomatch hFill
  · exact fun p hp => nomatch hp

/- The callers write to items only. -/
theorem Sound.write (hSized : Sized cfg)
    (hSound : Sound cfg pool live cs) {ptr : Nat} (word : Option Nat)
    (hLive : ptr ∈ live) : Sound cfg { pool with word := update pool.word ptr word } live cs := by
  refine { hSound with chunk := ?_ }
  intro p hp
  rcases hSound.chunk p hp with ⟨trash, mark, hRep⟩
  refine ⟨trash, mark, hRep.congr hSized ?_⟩
  intro a hInside hOther
  dsimp only
  rw [update_of_ne]
  rintro rfl
  exact hOther (mem_items.mpr ⟨hLive, hInside⟩)

variable {st : State}

/- One call keeps the pool. -/
theorem step_kept {op : Op} (hSized : Sized cfg) (hKept : Kept cfg st)
    (hAllowed : Allowed cfg st op) (hFits : Fits cfg st op) :
    ∃ st', step cfg st op = some st' ∧ Kept cfg st' := by
  rcases hKept with ⟨cs, hSound, hBusy⟩
  cases op with
  | malloc memory =>
    rcases malloc_spec hSized hSound hBusy hAllowed hFits with
      ⟨pool', mem, cs', hRun, hSound', hBusy'⟩
    refine ⟨⟨pool', mem.toList ++ st.live⟩, ?_, cs', hSound', hBusy'⟩
    rw [step, hRun]
    rfl
  | free ptr =>
    rcases free_spec hSized hSound hBusy hAllowed hFits with ⟨pool', cs', hRun, hSound', hBusy', -⟩
    refine ⟨⟨pool', st.live.erase ptr⟩, ?_, cs', hSound', hBusy'⟩
    rw [step, hRun]
    rfl
  | write ptr word =>
    exact ⟨_, rfl, cs, hSound.write hSized word hAllowed, hBusy⟩

/- The number of items that a call adds. -/
theorem length_step {st' : State} {op : Op} (hCounts : Counts st op)
    (hFew : (st.live.length : Int) ≤ CInt.intMax)
    (hStep : step cfg st op = some st') : (st'.live.length : Int) ≤ CInt.intMax := by
  cases op with
  | malloc memory =>
    rw [step, bind_eq_bind, bind_eq_some_iff] at hStep
    rcases hStep with ⟨⟨pool, mem⟩, -, hEq⟩
    obtain rfl := some.inj hEq
    have hCounts : (st.live.length : Int) < CInt.intMax := hCounts
    have hOne : mem.toList.length ≤ 1 := by
      cases mem <;> simp
    dsimp only
    rw [length_append]
    omega
  | free ptr =>
    rw [step, bind_eq_bind, bind_eq_some_iff] at hStep
    rcases hStep with ⟨pool, -, hEq⟩
    obtain rfl := some.inj hEq
    have hErase := length_erase_le (a := ptr) (l := st.live)
    dsimp only
    omega
  | write ptr word =>
    obtain rfl := some.inj hStep
    exact hFew

/-
  A chunk is freed with its last item, and not with another
  one.
-/
theorem released_iff {ptr : Nat} (hSized : Sized cfg) (hKept : Kept cfg st) (hLive : ptr ∈ st.live)
    (hFits : Fits cfg st (.free ptr)) :
    ∃ st', step cfg st (.free ptr) = some st' ∧ ∀ p ∈ st.pool.chunks.live,
      p ∉ st'.pool.chunks.live ↔ items cfg st.live p = [ptr] := by
  rcases hKept with ⟨cs, hSound, hBusy⟩
  rcases free_spec hSized hSound hBusy hLive hFits with ⟨pool', cs', hRun, hSound', hBusy', hSubset⟩
  refine ⟨⟨pool', st.live.erase ptr⟩, by rw [step, hRun]; rfl, ?_⟩
  intro p hp
  dsimp only
  have hList := (hSound.mem_iff p).mpr hp
  rw [← hSound'.mem_iff]
  constructor
  · intro hGone
    -- Another item would be in another chunk.
    have hNone : items cfg (st.live.erase ptr) p = [] := by
      rw [eq_nil_iff_forall_not_mem]
      intro b hb
      rcases mem_items.mp hb with ⟨hbLive, hInside⟩
      rcases hSound'.inside b hbLive with ⟨q, hq, hOther⟩
      have hq' := hSubset ((hSound'.mem_iff q).mp hq)
      have hNe : q ≠ p := by
        rintro rfl
        exact hGone hq
      exact hSound.outside hSized hList ((hSound.mem_iff q).mpr hq') hNe hInside hOther
    rw [items_erase] at hNone
    have hSome := hBusy p hList
    by_cases hMem : ptr ∈ items cfg st.live p
    · rw [← perm_singleton, ← hNone]
      exact perm_cons_erase hMem
    · rw [erase_of_not_mem hMem] at hNone
      exact absurd hNone hSome
  · intro hOne hIn
    apply hBusy' p hIn
    rw [items_erase, hOne, erase_cons_head]

/-
  The pool is consistent after every run, and a chunk is freed
  exactly with its last item.
-/
theorem pool_correct {cfg : Config} {pageSize itemSize poolSize : Nat}
    (hInit : Config.init pageSize itemSize poolSize = some cfg)
    (hSlots : 0 < cfg.poolSize) {ops : List Op}
    (hGuarded : Runs.Guarded (step cfg) (fun st op =>
    Allowed cfg st op ∧ Counts st op ∧ Fits cfg st op) .start ops) :
    ∃ st, Runs.run (step cfg) .start ops = some st ∧
      Consistent cfg st ∧
      ∀ ptr ∈ st.live, Fits cfg st (.free ptr) →
        ∃ st', step cfg st (.free ptr) = some st' ∧
          ∀ p ∈ st.pool.chunks.live,
            p ∉ st'.pool.chunks.live ↔
              items cfg st.live p = [ptr] := by
  have hSized := sized_of_init hInit hSlots
  rcases Runs.run_of_guarded (fun st => Kept cfg st ∧
      (st.live.length : Int) ≤ CInt.intMax) (fun st op hInv hOk => by
      rcases step_kept hSized hInv.1 hOk.1 hOk.2.2 with
        ⟨st', hStep, hKept⟩
      exact ⟨st', hStep, hKept, length_step hOk.2.1 hInv.2 hStep⟩)
    ⟨kept_start cfg, show (0 : Int) ≤ _ by decide⟩ hGuarded with
    ⟨st, hRun, hKept, hFew⟩
  refine ⟨st, hRun, ?_, fun ptr hLive hFits =>
    released_iff hSized hKept hLive hFits⟩
  rcases hKept with ⟨cs, hSound, hBusy⟩
  exact hSound.consistent hSized hBusy hFew

---
-- A Short Run
---

open RedBlack

/- The sizes of a pool for `int`, in units of 256 -/
def intPool : Config :=
  ⟨8, 502, 4016, 4096⟩

theorem init_intPool : Config.init 4096 4 256 = some intPool := by
  decide

/- Two items, of which the first one is given back -/
def sample : List Op :=
  [.malloc (some 4096), .malloc none, .free 4176]

theorem pool_correct_sample :
    ∃ st, Runs.run (step intPool) .start sample = some st ∧
      Consistent intPool st ∧
      ∀ ptr ∈ st.live, Fits intPool st (.free ptr) →
        ∃ st', step intPool st (.free ptr) = some st' ∧
          ∀ p ∈ st.pool.chunks.live,
            p ∉ st'.pool.chunks.live ↔
              items intPool st.live p = [ptr] := by
  apply pool_correct init_intPool (by decide)
  refine ⟨⟨?_, show (0 : Int) < _ by decide, ?_⟩, ?_⟩
  · exact fun p _ c hc => absurd hc (Finset.notMem_empty c)
  · intro p _ _ t hRepr
    obtain rfl := hRepr.unique (u := .nil) rfl
    exact Nat.zero_le _
  intro st₁ hFirst
  obtain rfl := some.inj hFirst
  refine ⟨⟨fun p hp => (nomatch hp),
    show (1 : Int) < _ by decide, fun p hp => (nomatch hp)⟩, ?_⟩
  intro st₂ hSecond
  obtain rfl := some.inj hSecond
  refine ⟨⟨show 4176 ∈ [4184, 4176] by decide, trivial, ?_⟩,
    fun _ _ => trivial⟩
  intro p hp hOne
  obtain rfl : p = 4096 := by
    have hp : p ∈ insert 4096 (∅ : Finset Nat) := hp
    simpa using hp
  have hTwo : items intPool [4184, 4176] 4096 = [4176] := hOne
  exact absurd hTwo (by decide)

---
-- Too Many Items
---

/- A block of its own for each call. -/
def blockAt (j : Nat) : Nat :=
  4096 * (j + 1)

def mallocs (n : Nat) : List Op :=
  (List.range n).map fun j => .malloc (some (blockAt j))

/- All chunks but the first one to fill are full. -/
structure Filled (n : Nat) (st : State) : Prop where
  kept : Kept intPool st
  length : st.live.length = n
  block : ∀ p ∈ st.pool.chunks.live, ∃ j < n, p = blockAt j
  filling :
    n = 0 ∧ st.pool.firstFill = none ∧ st.pool.chunks.live = ∅ ∨
    ∃ p ∈ st.pool.chunks.live, st.pool.firstFill = some p ∧
      (∀ q ∈ st.pool.chunks.live, q ≠ p →
        (st.pool.chunks.node q).Full) ∧
      502 * st.pool.chunks.live.card + (items intPool st.live
        p).length = n + 502

theorem sized_intPool : Sized intPool := sized_of_init init_intPool (by decide)

/- There is room in the chunk, or all are full. -/
theorem choose_of_fill (hSound : Sound cfg pool live cs) {p : Nat} (hFill : pool.firstFill = some p)
    (hRoom : ¬ (pool.chunks.node p).Full) : choose pool = some (some p, some p) := by
  unfold choose
  rw [hFill]
  dsimp only
  rw [isFull_of_mem hSound (hSound.fill p hFill)]
  dsimp only [bind_eq_bind, bind_some]
  rw [if_neg (by simpa using hRoom)]

theorem needsChunk_of_full (hSound : Sound cfg pool live cs)
    (hFull : ∀ p ∈ cs, (pool.chunks.node p).Full) : NeedsChunk pool := by
  rcases choose_spec hSound with hNeeds | ⟨p, q, -, hMem, hRoom⟩
  · exact hNeeds
  · exact absurd (hFull p hMem) hRoom

/- The next item is in the same chunk. -/
theorem malloc_same {n p : Nat} (memory : Option Nat) (hFilled : Filled n st)
    (hSound : Sound intPool st.pool st.live cs)
    (hBusy : Busy intPool st.live cs) (hFill : st.pool.firstFill = some p)
    (hOthers : ∀ q ∈ st.pool.chunks.live, q ≠ p →
      (st.pool.chunks.node q).Full)
    (hSum : 502 * st.pool.chunks.live.card + (items intPool st.live p).length = n + 502)
    (hRoom : ¬ (st.pool.chunks.node p).Full) :
    ∃ st', step intPool st (.malloc memory) = some st' ∧ Filled (n + 1) st' := by
  have hMem := hSound.fill p hFill
  rcases malloc_old sized_intPool hSound memory
    (choose_of_fill hSound hFill hRoom) hMem hRoom with ⟨pool', a, cs', hRun, hGives⟩
  refine ⟨⟨pool', a :: st.live⟩, by rw [step, hRun]; rfl,
    ⟨cs', hGives.sound, ?_⟩, ?_, ?_, Or.inr ⟨p, ?_⟩⟩
  · exact hGives.busy hBusy fun r hr _ =>
      (hSound.mem_iff r).mpr hr
  · rw [length_cons, hFilled.length]
  · intro q hq
    rw [hGives.chunks] at hq
    rcases hFilled.block q hq with ⟨j, hj, hEq⟩
    exact ⟨j, by omega, hEq⟩
  · dsimp only
    rw [hGives.chunks, items_cons_inside hGives.inside, length_cons]
    refine ⟨(hSound.mem_iff p).mp hMem, hGives.fill, ?_, by omega⟩
    intro q hq hNe
    rw [hGives.node q hNe]
    exact hOthers q hq hNe

/- The next item is in a new chunk. -/
theorem malloc_next {n : Nat} (hn : n < 2 ^ 31) (hFilled : Filled n st)
    (hSound : Sound intPool st.pool st.live cs) (hBusy : Busy intPool st.live cs)
    (hApart : ∀ q ∈ st.pool.chunks.live, Apart intPool.allocSize (blockAt n) q)
    (hFull : ∀ q ∈ st.pool.chunks.live, (st.pool.chunks.node q).Full)
    (hSum : 502 * st.pool.chunks.live.card = n) :
    ∃ st', step intPool st (.malloc (some (blockAt n))) =
        some st' ∧
      Filled (n + 1) st' := by
  have hApart' : ∀ q ∈ cs, Apart intPool.allocSize (blockAt n) q :=
    fun q hq => hApart q ((hSound.mem_iff q).mp hq)
  have hNeeds := needsChunk_of_full hSound fun q hq =>
    hFull q ((hSound.mem_iff q).mp hq)
  have hFits : Rbtree.Fits poolCmp ⟨st.pool.tree, st.pool.chunks.live⟩ (.insert (blockAt n)) := by
    rcases hSound.treed with ⟨t, hTree⟩
    apply Rbtree.fits_of_card hTree
    dsimp only
    omega
  have hNew : blockAt n ∉ st.pool.chunks.live := fun hMem =>
    not_apart_self sized_intPool _ (hApart _ hMem)
  rcases malloc_new sized_intPool hSound hNeeds hApart hFits with ⟨pool', a, cs', hRun, hGives⟩
  refine ⟨⟨pool', a :: st.live⟩, by rw [step, hRun]; rfl,
    ⟨cs', hGives.sound, ?_⟩, ?_, ?_, Or.inr ⟨blockAt n, ?_⟩⟩
  · apply hGives.busy hBusy
    intro r hr hNe
    rw [Finset.mem_insert] at hr
    exact (hSound.mem_iff r).mpr (hr.resolve_left hNe)
  · rw [length_cons, hFilled.length]
  · intro q hq
    rw [hGives.chunks, Finset.mem_insert] at hq
    rcases hq with rfl | hq
    · exact ⟨n, by omega, rfl⟩
    · rcases hFilled.block q hq with ⟨j, hj, hEq⟩
      exact ⟨j, by omega, hEq⟩
  · dsimp only
    rw [hGives.chunks, items_cons_inside hGives.inside,
      hSound.items_apart_nil sized_intPool hApart',
      Finset.card_insert_of_notMem hNew, length_singleton]
    refine ⟨Finset.mem_insert_self _ _, hGives.fill, ?_, by omega⟩
    intro q hq hNe
    rw [hGives.node q hNe]
    rw [Finset.mem_insert] at hq
    exact hFull q (hq.resolve_left hNe)

theorem malloc_filled {n : Nat} (hn : n < 2 ^ 31)
    (hFilled : Filled n st) :
    Allowed intPool st (.malloc (some (blockAt n))) ∧
      ∃ st', step intPool st (.malloc (some (blockAt n))) =
          some st' ∧
        Filled (n + 1) st' := by
  rcases hFilled.kept with ⟨cs, hSound, hBusy⟩
  have hApart : ∀ q ∈ st.pool.chunks.live, Apart intPool.allocSize (blockAt n) q := by
    intro q hq
    rcases hFilled.block q hq with ⟨j, hj, rfl⟩
    right
    change blockAt j + 4096 ≤ blockAt n
    unfold blockAt
    omega
  refine ⟨?_, ?_⟩
  · intro p hp
    obtain rfl := some.inj hp
    exact hApart
  · rcases hFilled.filling with ⟨hZero, -, hEmpty⟩ | ⟨p, hp, hFill, hOthers, hSum⟩
    · apply malloc_next hn hFilled hSound hBusy hApart
      · rw [hEmpty]
        exact fun q hq => absurd hq (Finset.notMem_empty q)
      · rw [hEmpty, Finset.card_empty, hZero]
    · by_cases hRoom : (st.pool.chunks.node p).Full
      · rcases hSound.chunk p ((hSound.mem_iff p).mpr hp) with ⟨trash, mark, hRep⟩
        have hAll : (items intPool st.live p).length = 502 := hRep.full_iff.mp hRoom
        apply malloc_next hn hFilled hSound hBusy hApart
        · intro q hq
          by_cases hSame : q = p
          · rwa [hSame]
          · exact hOthers q hq hSame
        · omega
      · exact malloc_same _ hFilled hSound hBusy hFill hOthers hSum hRoom

theorem filled_start : Filled 0 .start where
  kept := kept_start intPool
  length := rfl
  block p hp := absurd hp (Finset.notMem_empty p)
  filling := Or.inl ⟨rfl, rfl, rfl⟩

theorem mallocs_succ (n : Nat) : mallocs (n + 1) = mallocs n ++ [.malloc (some (blockAt n))] := by
  unfold mallocs
  rw [range_succ, map_append]
  rfl

/- The number of items that an `int` cannot count -/
@[irreducible]
def tooMany : Nat :=
  2 ^ 31

theorem tooMany_eq : tooMany = 2 ^ 31 := by
  unfold tooMany
  rfl

/- So many items are handed out, one after the other. -/
theorem mallocs_filled {n : Nat} (hn : n ≤ tooMany) :
    Runs.Guarded (step intPool) (Allowed intPool) .start (mallocs n) ∧
        ∃ st, Runs.run (step intPool) .start (mallocs n) =
          some st ∧
        Filled n st := by
  have hMany := tooMany_eq
  induction n with
  | zero => exact ⟨trivial, .start, rfl, filled_start⟩
  | succ n ih =>
    rcases ih (by omega) with ⟨hGuarded, st, hRun, hFilled⟩
    rcases malloc_filled (by omega) hFilled with ⟨hAllowed, st', hStep, hFilled'⟩
    rw [mallocs_succ]
    refine ⟨hGuarded.append ?_, st', ?_, hFilled'⟩
    · intro s hs
      obtain rfl : st = s := some.inj (hRun.symm.trans hs)
      exact ⟨hAllowed, fun _ _ => trivial⟩
    · rw [Runs.run_append, hRun, bind_some, Runs.run_cons, hStep]
      rfl

/-
  With `2 ^ 31` items of the callers, the count of the pool is
  negative.
-/
theorem usage_overflow :
    Config.init 4096 4 256 = some intPool ∧
      Runs.Guarded (step intPool) (Allowed intPool) .start
        (mallocs tooMany) ∧
      ∃ st, Runs.run (step intPool) .start (mallocs tooMany) =
          some st ∧
        st.live.length = tooMany ∧
        st.pool.usage < 0 ∧
        ¬ Consistent intPool st := by
  rcases mallocs_filled (Nat.le_refl tooMany) with
    ⟨hGuarded, st, hRun, hFilled⟩
  rcases hFilled.kept with ⟨cs, hSound, -⟩
  have hUsage : st.pool.usage < 0 := by
    rw [hSound.usage, hFilled.length, tooMany_eq]
    decide
  refine ⟨init_intPool, hGuarded, st, hRun, hFilled.length,
    hUsage, fun hConsistent => ?_⟩
  have hCount := hConsistent.poolUsage
  omega

end Efl.Eina.Mempool
