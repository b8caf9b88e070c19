import Efl.Io.Queue.Model

/-
  What is in a queue, and what each call does to it.

  Main declarations:
    * `Layout`, `Inv`
    * `Same`
    * `adjust_spec`, `realloc_spec`, `adjustAndRealloc_spec`
    * `write_spec`, `limitSet_spec`
-/

---
-- Layout
---

namespace Efl.Io.Queue

open Bytes List Option

/- The block has the contents between the two positions. -/
structure Layout (pd : Data) (contents : List Byte) : Prop where
  parts : ∃ before after,
    pd.bytes = before ++ (contents ++ after) ∧
      pd.positionRead = before.length ∧
      pd.positionWrite = before.length + contents.length
  block : pd.allocated ≤ CSize.blockMax

/- Only the block and the positions are changed. -/
structure Same (pd pd' : Data) : Prop where
  preallocated : pd'.preallocated = pd.preallocated
  limit : pd'.limit = pd.limit
  pendingEos : pd'.pendingEos = pd.pendingEos
  eos : pd'.eos = pd.eos
  closed : pd'.closed = pd.closed
  canRead : pd'.canRead = pd.canRead
  canWrite : pd'.canWrite = pd.canWrite

theorem Same.refl (pd : Data) : Same pd pd := ⟨rfl, rfl, rfl, rfl, rfl, rfl, rfl⟩

theorem Same.trans {pd pd' pd'' : Data} (hFirst : Same pd pd')
    (hSecond : Same pd' pd'') : Same pd pd'' where
  preallocated := hSecond.preallocated.trans hFirst.preallocated
  limit := hSecond.limit.trans hFirst.limit
  pendingEos := hSecond.pendingEos.trans hFirst.pendingEos
  eos := hSecond.eos.trans hFirst.eos
  closed := hSecond.closed.trans hFirst.closed
  canRead := hSecond.canRead.trans hFirst.canRead
  canWrite := hSecond.canWrite.trans hFirst.canWrite

section

variable {pd : Data} {contents : List Byte}

section

variable (hLayout : Layout pd contents)

include hLayout

theorem Layout.bounds :
    pd.positionRead + contents.length = pd.positionWrite ∧
      pd.positionWrite ≤ pd.allocated ∧ pd.allocated ≤ CSize.blockMax := by
  rcases hLayout.parts with ⟨before, after, hBytes, hRead, hWrite⟩
  have hBlock := hLayout.block
  unfold Data.allocated at *
  rw [hBytes] at hBlock ⊢
  simp only [length_append] at *
  omega

/- The difference of the positions does not wrap. -/
theorem Layout.usage_eq : pd.usage = contents.length := by
  have hBounds := hLayout.bounds
  unfold CSize.blockMax at hBounds
  unfold Data.usage
  rw [CSize.sub_of_le (by omega)]
  · omega
  · unfold CSize.bound
    omega

theorem Layout.read_slice
    {n : Nat} (hLe : n ≤ contents.length) :
    Block.read pd.bytes pd.positionRead n = some (contents.take n) := by
  rcases hLayout.parts with ⟨before, after, hBytes, hRead, hWrite⟩
  have hRead' := Block.read_append before (contents.take n) (contents.drop n ++ after)
  rw [← append_assoc (contents.take n), take_append_drop,
    length_take, Nat.min_eq_left hLe] at hRead'
  rw [hBytes, hRead]
  exact hRead'

/- The contents are moved to the start of the block. -/
theorem adjust_spec :
    ∃ pd', adjust pd = some pd' ∧ Layout pd' contents ∧
      Same pd pd' ∧ pd'.positionRead = 0 ∧ pd'.allocated = pd.allocated := by
  rcases hLayout.parts with ⟨before, after, hBytes, hRead, hWrite⟩
  rcases Block.move_back [] before contents after with ⟨rest, hMove⟩
  simp only [nil_append, length_nil, Nat.zero_add] at hMove
  rw [← hBytes, ← hRead] at hMove
  have hLength := Block.length_move hMove
  refine ⟨{ pd with
      bytes := contents ++ rest
      positionWrite := pd.usage
      positionRead := 0 }, ?_, ⟨⟨[], rest, rfl, rfl, ?_⟩, ?_⟩,
    ⟨rfl, rfl, rfl, rfl, rfl, rfl, rfl⟩, rfl, hLength⟩
  · unfold adjust
    simp only [hLayout.usage_eq, hMove, bind_eq_bind, bind_some]
  · simp only [hLayout.usage_eq, length_nil, Nat.zero_add]
  · exact hLength.trans_le hLayout.block

end

/- The size that `realloc` is asked for -/
def target (pd : Data) (size : Nat) : Nat :=
  if 0 < pd.limit ∧ pd.limit < size then pd.limit else size

/- A block that has room for the contents keeps them. -/
theorem realloc_spec (memory : Option (Nat → Byte)) (hLayout : Layout pd contents) (size : Nat)
    (hRoom : pd.positionWrite ≤ target pd size) :
    Layout (realloc memory pd size) contents ∧
      Same pd (realloc memory pd size) ∧
      (realloc memory pd size).positionRead = pd.positionRead ∧
      (realloc memory pd size).positionWrite = pd.positionWrite ∧
      ((realloc memory pd size).allocated = target pd size ∨
        (realloc memory pd size).allocated = pd.allocated ∧
          (memory = none ∨ CSize.blockMax < target pd size)) := by
  rcases hLayout.parts with ⟨before, after, hBytes, hRead, hWrite⟩
  have hTarget : (if 0 < pd.limit ∧ pd.limit < size then pd.limit
      else size) = target pd size := rfl
  unfold realloc
  simp only [hTarget]
  split
  case isTrue hSame =>
    exact ⟨hLayout, Same.refl pd, rfl, rfl, Or.inl hSame⟩
  case isFalse =>
    split
    case isTrue hZero =>
      rw [hZero] at hRoom
      refine ⟨⟨⟨[], [], ?_, ?_, ?_⟩, ?_⟩,
        ⟨rfl, rfl, rfl, rfl, rfl, rfl, rfl⟩, rfl, rfl, Or.inl hZero.symm⟩
      · have hNil : contents = [] := length_eq_zero_iff.mp (by omega)
        rw [hNil]
        rfl
      · dsimp only
        rw [length_nil]
        omega
      · dsimp only
        rw [length_nil]
        omega
      · exact Nat.zero_le _
    case isFalse =>
      cases memory with
      | none =>
        exact ⟨hLayout, Same.refl pd, rfl, rfl, Or.inr ⟨rfl, Or.inl rfl⟩⟩
      | some junk =>
        simp only
        split
        case isFalse hLarge =>
          exact ⟨hLayout, Same.refl pd, rfl, rfl, Or.inr ⟨rfl, Or.inr (Nat.not_le.mp hLarge)⟩⟩
        case isTrue hSmall =>
          rcases Block.realloc_append junk (before ++ contents)
            after (n := target pd size) (by
              rw [length_append]
              omega) with ⟨rest, hRest⟩
          have hLength := Block.length_realloc junk pd.bytes (target pd size)
          refine ⟨⟨⟨before, rest, ?_, hRead, hWrite⟩, ?_⟩,
            ⟨rfl, rfl, rfl, rfl, rfl, rfl, rfl⟩, rfl, rfl, Or.inl hLength⟩
          · simp only [hBytes]
            rw [← append_assoc, hRest, append_assoc]
          · exact hLength.trans_le hSmall

---
-- Slack
---

theorem slackGet_le (pd : Data) : slackGet pd ≤ 4096 := by
  unfold slackGet
  dsimp only
  split
  · exact Nat.le_refl _
  · split
    · decide
    · split <;> decide

/- A larger size than the positions need, up to the limit -/
theorem le_target {size : Nat} (hLimit : 0 < pd.limit → pd.positionWrite ≤ pd.limit)
    (hSize : pd.positionWrite ≤ size) : pd.positionWrite ≤ target pd size := by
  unfold target
  split
  case isTrue hOver => exact hLimit hOver.1
  case isFalse => exact hSize

theorem target_le (size : Nat) (hLimit : 0 < pd.limit) : target pd size ≤ pd.limit := by
  unfold target
  split <;> omega

theorem adjustIfNeeded_spec (slack : Nat)
    (hLayout : Layout pd contents) :
    ∃ pd', adjustIfNeeded pd slack = some pd' ∧
      Layout pd' contents ∧ Same pd pd' ∧ pd'.allocated = pd.allocated := by
  rcases adjust_spec hLayout with ⟨pd', hAdjust, hLayout', hSame, -, hBlock⟩
  unfold adjustIfNeeded
  split
  · split
    · exact ⟨pd', hAdjust, hLayout', hSame, hBlock⟩
    · exact ⟨pd, rfl, hLayout, Same.refl pd, rfl⟩
  · split
    · exact ⟨pd', hAdjust, hLayout', hSame, hBlock⟩
    · exact ⟨pd, rfl, hLayout, Same.refl pd, rfl⟩

/- The spare memory is given back; the contents stay. -/
theorem adjustAndRealloc_spec (memory : Option (Nat → Byte))
    (hLayout : Layout pd contents) (hLimit : 0 < pd.limit → pd.allocated ≤ pd.limit)
    (hRound : Roundable pd.preallocated) :
    ∃ pd', adjustAndRealloc memory pd = some pd' ∧
      Layout pd' contents ∧ Same pd pd' ∧ (0 < pd'.limit → pd'.allocated ≤ pd'.limit) := by
  have hSlack := slackGet_le pd
  rcases adjustIfNeeded_spec (slackGet pd) hLayout with ⟨pd₁, hMoved, hLayout₁, hSame, hBlock⟩
  have hBounds := hLayout₁.bounds
  have hLimit₁ : 0 < pd₁.limit → pd₁.allocated ≤ pd₁.limit := by
    rw [hSame.limit, hBlock]
    exact hLimit
  unfold adjustAndRealloc
  simp only [hMoved, bind_eq_bind, bind_some]
  split
  case isFalse => exact ⟨pd₁, rfl, hLayout₁, hSame, hLimit₁⟩
  case isTrue =>
    have hSum : CSize.add pd₁.positionWrite (slackGet pd) = pd₁.positionWrite + slackGet pd := by
      unfold CSize.blockMax at hBounds
      apply CSize.add_of_lt
      unfold CSize.bound
      omega
    rw [hSum, hSame.preallocated]
    have hRounded : ∀ size, pd₁.positionWrite ≤ size →
        Roundable size → pd₁.positionWrite ≤ target pd₁ (rounded size) := by
      intro size hSize hFits
      apply le_target
      · intro hPos
        have hUnder := hLimit₁ hPos
        omega
      · have hMore := lt_rounded hFits
        omega
    have hSize : pd₁.positionWrite ≤ target pd₁ (rounded
        (if pd₁.positionWrite + slackGet pd < pd.preallocated then
          pd.preallocated
        else pd₁.positionWrite + slackGet pd)) := by
      split
      case isTrue hLess => exact hRounded _ (by omega) hRound
      case isFalse =>
        apply hRounded _ (by omega)
        unfold Roundable CSize.bound
        unfold CSize.blockMax at hBounds
        omega
    rcases realloc_spec memory hLayout₁ _ hSize with ⟨hLayout', hSame', -, -, hAllocated⟩
    refine ⟨_, rfl, hLayout', hSame.trans hSame', ?_⟩
    intro hPos
    have hLess := target_le (rounded
        (if pd₁.positionWrite + slackGet pd < pd.preallocated then
          pd.preallocated
        else pd₁.positionWrite + slackGet pd)) (show 0 < pd₁.limit by rwa [← hSame'.limit])
    have hUnder := hLimit₁ (by rwa [← hSame'.limit])
    unfold reallocRounded at hPos ⊢
    rw [hSame'.limit]
    rcases hAllocated with hNew | ⟨hOld, -⟩
    · rw [hNew]
      exact hLess
    · rw [hOld]
      exact hUnder

end

---
-- What Every Call Keeps
---

/- An open queue, with its contents -/
structure Inv (pd : Data) (contents : List Byte) : Prop where
  layout : Layout pd contents
  isOpen : pd.closed = false
  limit : 0 < pd.limit → pd.allocated ≤ pd.limit
  round : Roundable pd.preallocated

variable {pd : Data} {contents : List Byte}

theorem inv_new : Inv Data.new [] := ⟨⟨⟨[], [], rfl, rfl, rfl⟩, Nat.zero_le _⟩, rfl,
  fun hPos => absurd hPos (Nat.lt_irrefl 0), by decide⟩

section

variable (hInv : Inv pd contents)

include hInv

/- With a limit there are not more bytes. -/
theorem Inv.usage_le (hPos : 0 < pd.limit) :
    contents.length ≤ pd.limit := by
  have hBounds := hInv.layout.bounds
  have hLimit := hInv.limit hPos
  omega

/- Only the block, the positions and what limits them matter. -/
theorem Inv.congr {pd' : Data}
    (hBytes : pd'.bytes = pd.bytes) (hRead : pd'.positionRead = pd.positionRead)
    (hWrite : pd'.positionWrite = pd.positionWrite) (hLimit : pd'.limit = pd.limit)
    (hPrealloc : pd'.preallocated = pd.preallocated)
    (hClosed : pd'.closed = pd.closed) : Inv pd' contents := by
  refine ⟨⟨?_, ?_⟩, ?_, ?_, ?_⟩
  · rw [hBytes, hRead, hWrite]
    exact hInv.layout.parts
  · unfold Data.allocated
    rw [hBytes]
    exact hInv.layout.block
  · rw [hClosed]
    exact hInv.isOpen
  · unfold Data.allocated
    rw [hBytes, hLimit]
    exact hInv.limit
  · rw [hPrealloc]
    exact hInv.round

/- The flags that `_efl_io_queue_update_cans` sets -/
structure Updated (pd pd' : Data) (used : Nat) : Prop where
  limit : pd'.limit = pd.limit
  pendingEos : pd'.pendingEos = pd.pendingEos
  eos : pd'.eos = pd.eos
  canRead : pd'.canRead = decide (0 < used)
  canWrite : pd'.canWrite =
    (!pd.pendingEos && decide (pd.limit = 0 ∨ used < pd.limit))

omit hInv in
theorem updateCans_eq (hOpen : pd.closed = false) :
    updateCans pd =
      { pd with
        canRead := decide (0 < pd.usage)
        canWrite := !pd.pendingEos &&
          decide (pd.limit = 0 ∨ pd.usage < pd.limit) } := by
  rcases pd with ⟨bytes, preallocated, limit, positionRead,
    positionWrite, pendingEos, eos, closed, canRead, canWrite⟩
  obtain rfl : closed = false := hOpen
  cases pendingEos with
  | true => rfl
  | false => rfl

theorem updateCans_spec :
    Inv (updateCans pd) contents ∧ Updated pd (updateCans pd) contents.length := by
  rw [updateCans_eq hInv.isOpen, hInv.layout.usage_eq]
  exact ⟨hInv.congr rfl rfl rfl rfl rfl rfl,
    rfl, rfl, rfl, rfl, rfl⟩

/- The flags of a queue that has refused bytes -/
structure Refused (pd pd' : Data) : Prop where
  limit : pd'.limit = pd.limit
  pendingEos : pd'.pendingEos = pd.pendingEos
  eos : pd'.eos = pd.eos
  canRead : pd'.canRead = pd.canRead
  canWrite : pd'.canWrite = false

omit hInv in
theorem refused_spec {pd' : Data} (hInv : Inv pd' contents)
    (hSame : Same pd pd') :
    Inv (canWriteSet pd' false) contents ∧ Refused pd (canWriteSet pd' false) := by
  unfold canWriteSet
  rw [if_neg (by simp [hInv.isOpen])]
  exact ⟨hInv.congr rfl rfl rfl rfl rfl rfl, hSame.limit,
    hSame.pendingEos, hSame.eos, hSame.canRead, rfl⟩

---
-- Writing
---

/-
  No byte is taken: the block has the size of the limit and
  not enough room, or it is full and there is no other one.
-/
def NoRoom (memory : Option (Nat → Byte)) (pd : Data) (len : Nat) : Prop :=
  (0 < pd.limit ∧ pd.allocated = pd.limit ∧
      pd.limit < pd.usage + len) ∨
    (memory = none ∧ pd.usage = pd.allocated ∧ 0 < len)

/- The block and the slice are in the same half of the memory. -/
def InMemory (pd : Data) (len : Nat) : Prop :=
  pd.allocated + len + 4096 ≤ CSize.blockMax

instance (pd : Data) (len : Nat) : Decidable (InMemory pd len) :=
  inferInstanceAs (Decidable (_ ≤ _))

theorem Inv.adjust :
    ∃ pd', Queue.adjust pd = some pd' ∧ Inv pd' contents ∧
      Same pd pd' ∧ pd'.positionRead = 0 ∧ pd'.allocated = pd.allocated := by
  rcases adjust_spec hInv.layout with ⟨pd', hAdjust, hLayout, hSame, hRead, hBlock⟩
  refine ⟨pd', hAdjust, ⟨hLayout, ?_, ?_, ?_⟩, hSame, hRead, hBlock⟩
  · rw [hSame.closed]
    exact hInv.isOpen
  · rw [hSame.limit, hBlock]
    exact hInv.limit
  · rw [hSame.preallocated]
    exact hInv.round

omit hInv in
theorem Inv.adjustAndRealloc (memory : Option (Nat → Byte))
    (hInv : Inv pd contents) :
    ∃ pd', Queue.adjustAndRealloc memory pd = some pd' ∧ Inv pd' contents ∧ Same pd pd' := by
  rcases adjustAndRealloc_spec memory hInv.layout hInv.limit
    hInv.round with ⟨pd', hAdjust, hLayout, hSame, hLimit⟩
  refine ⟨pd', hAdjust, ⟨hLayout, ?_, hLimit, ?_⟩, hSame⟩
  · exact hSame.closed.trans hInv.isOpen
  · rw [hSame.preallocated]
    exact hInv.round

/- A larger size, rounded up, keeps the contents. -/
omit hInv in
theorem Inv.reallocRounded (memory : Option (Nat → Byte)) (hInv : Inv pd contents) (size : Nat)
    (hSize : pd.positionWrite ≤ size) (hRound : Roundable size) :
    Inv (reallocRounded memory pd size) contents ∧
      Same pd (Queue.reallocRounded memory pd size) ∧
      (Queue.reallocRounded memory pd size).positionWrite =
      pd.positionWrite ∧ ((Queue.reallocRounded memory pd
      size).allocated = target pd (rounded size) ∨
      (Queue.reallocRounded memory pd size).allocated = pd.allocated ∧
      (memory = none ∨ CSize.blockMax < target pd (rounded size))) := by
  have hBounds := hInv.layout.bounds
  have hMore := lt_rounded hRound
  have hRoom : pd.positionWrite ≤ target pd (rounded size) := by
    apply le_target
    · intro hPos
      have hLimit := hInv.limit hPos
      omega
    · omega
  rcases realloc_spec memory hInv.layout _ hRoom with ⟨hLayout, hSame, -, hWrite, hBlock⟩
  refine ⟨⟨hLayout, ?_, ?_, ?_⟩, hSame, hWrite, hBlock⟩
  · exact hSame.closed.trans hInv.isOpen
  · intro hPos
    have hOldPos : 0 < pd.limit := hSame.limit ▸ hPos
    have hUnder := hInv.limit hOldPos
    have hTarget := target_le (rounded size) hOldPos
    unfold Queue.reallocRounded at hPos ⊢
    rw [hSame.limit]
    omega
  · exact (congrArg Roundable hSame.preallocated).mpr hInv.round

/- A larger block has room for a byte at least. -/
theorem lt_target (size : Nat)
    (hMore : ¬ (0 < pd.limit ∧ pd.allocated = pd.limit))
    (hSize : pd.positionWrite < size) : pd.positionWrite < target pd size := by
  have hBounds := hInv.layout.bounds
  unfold target
  split
  case isTrue hLimited =>
    have hUnder := hInv.limit hLimited.1
    omega
  case isFalse => exact hSize

/-
  A larger block is made, and is filled as far as there is
  one.
-/
omit hInv in
theorem growRoom_spec (memory : Option (Nat → Byte))
    (hInv : Inv pd contents) {len : Nat} (hMemory : InMemory pd len)
    (hMore : ¬ (0 < pd.limit ∧ pd.allocated = pd.limit))
    (hOver : pd.allocated < pd.positionWrite + len) :
    Inv (growRoom memory pd len).1 contents ∧
      Same pd (growRoom memory pd len).1 ∧
      (∀ n, (growRoom memory pd len).2 = some n →
        n ≤ len ∧ (growRoom memory pd len).1.positionWrite + n ≤
          (growRoom memory pd len).1.allocated) ∧
      ((growRoom memory pd len).2 = none → memory = none ∧
        pd.positionWrite = pd.allocated ∧ 0 < len) := by
  have hBounds := hInv.layout.bounds
  unfold InMemory at hMemory
  have hBlockMax : CSize.blockMax + CSize.blockMax < CSize.bound := by decide
  have hSize : CSize.add pd.positionWrite len = pd.positionWrite + len := CSize.add_of_lt (by omega)
  have hRound : Roundable (pd.positionWrite + len) := by
    unfold Roundable
    omega
  rcases hInv.reallocRounded memory _ (Nat.le_add_right _ len)
    hRound with ⟨hInv', hSame, hPos, hNew⟩
  unfold growRoom
  simp only [hSize]
  generalize reallocRounded memory pd (pd.positionWrite + len) = pd' at *
  have hBounds' := hInv'.layout.bounds
  have hLeft : CSize.sub pd'.allocated pd'.positionWrite = pd'.allocated - pd'.positionWrite :=
    CSize.sub_of_le hBounds'.2.1 (by omega)
  rw [hLeft]
  refine ⟨hInv', hSame, fun n hn => ?_, fun hNone => ?_⟩
  · rw [ite_none_left_eq_some] at hn
    obtain ⟨-, rfl⟩ := And.imp_right some.inj hn
    split <;> omega
  · have hZero : (if pd.positionWrite + len ≤ pd'.allocated
        then len
        else pd'.allocated - pd'.positionWrite) = 0 := by
      by_contra hNe
      rw [if_neg hNe] at hNone
      exact nomatch hNone
    have hFull : pd'.allocated = pd.positionWrite ∧ 0 < len := by
      split at hZero <;> omega
    have hLess := lt_rounded hRound
    have hTarget := lt_target hInv (rounded (pd.positionWrite + len)) hMore (by omega)
    have hSmall : target pd (rounded (pd.positionWrite + len)) ≤ CSize.blockMax := by
      have hLe := rounded_le (pd.positionWrite + len)
      unfold target
      split <;> omega
    rcases hNew with hNew | ⟨hOld, hNoMemory⟩
    · omega
    · exact ⟨hNoMemory.resolve_right (by omega), by omega, hFull.2⟩

/- The room for the bytes that are taken -/
omit hInv in
theorem makeRoom_spec (memory : Option (Nat → Byte))
    (hInv : Inv pd contents) {len : Nat} (hMemory : InMemory pd len) :
    ∃ pd' todo, makeRoom memory pd len = some (pd', todo) ∧
      Inv pd' contents ∧ Same pd pd' ∧
      (∀ n, todo = some n →
        n ≤ len ∧ pd'.positionWrite + n ≤ pd'.allocated) ∧
      (todo = none → NoRoom memory pd len) := by
  have hBounds := hInv.layout.bounds
  have hUsage := hInv.layout.usage_eq
  have hBlockMax : CSize.blockMax < CSize.bound := by decide
  have hWrite : CSize.sub pd.allocated pd.positionWrite =
      pd.allocated - pd.positionWrite := CSize.sub_of_le hBounds.2.1 (by omega)
  have hTotal : CSize.add (pd.allocated - pd.positionWrite)
      pd.positionRead = pd.allocated - contents.length := by
    rw [CSize.add_of_lt (by omega)]
    omega
  rcases hInv.adjust with ⟨pd₁, hAdjust, hInv₁, hSame, hRead, hBlock⟩
  have hBounds₁ := hInv₁.layout.bounds
  unfold makeRoom
  simp only [hWrite, hTotal, hAdjust, bind_eq_bind, bind_some]
  split
  case isTrue hFits =>
    refine ⟨pd, some len, rfl, hInv, Same.refl pd, ?_, by simp⟩
    intro n hn
    obtain rfl := some.inj hn
    omega
  case isFalse =>
    split
    case isTrue hFits =>
      refine ⟨pd₁, some len, rfl, hInv₁, hSame, ?_, by simp⟩
      intro n hn
      obtain rfl := some.inj hn
      omega
    case isFalse hOver =>
      split
      case isTrue hFull =>
        refine ⟨pd, none, rfl, hInv, Same.refl pd, by simp, fun _ => Or.inl ⟨hFull.1, hFull.2, ?_⟩⟩
        rw [hUsage]
        omega
      case isFalse hMore =>
        rcases growRoom_spec memory hInv₁ (by unfold InMemory at *; rwa [hBlock])
          (by rwa [hSame.limit, hBlock]) (by omega) with ⟨hInv', hSame', hTodo, hNone⟩
        refine ⟨_, _, rfl, hInv', hSame.trans hSame', hTodo, fun hZero => ?_⟩
        rcases hNone hZero with ⟨hNoMemory, hFull, hLen⟩
        refine Or.inr ⟨hNoMemory, ?_, hLen⟩
        rw [hUsage]
        omega

/- The bytes are put behind the contents. -/
omit hInv in
theorem Layout.append (hLayout : Layout pd contents) {bs : List Byte}
    (hFits : pd.positionWrite + bs.length ≤ pd.allocated) :
    ∃ bytes, Block.write pd.bytes pd.positionWrite bs = some bytes ∧ Layout
      { pd with
        bytes := bytes
        positionWrite := CSize.add pd.positionWrite bs.length }
      (contents ++ bs) ∧ bytes.length = pd.allocated := by
  rcases hLayout.parts with ⟨before, after, hBytes, hRead, hWrite⟩
  have hBlock := hLayout.block
  have hBound : CSize.blockMax < CSize.bound := by decide
  have hRoom : bs.length ≤ after.length := by
    unfold Data.allocated at hFits
    rw [hBytes] at hFits
    simp only [length_append] at hFits
    omega
  have hDone := Block.write_end (before ++ contents) hRoom
  rw [append_assoc, ← hBytes, length_append, ← hWrite] at hDone
  have hLength := Block.length_write hDone
  refine ⟨_, hDone, ⟨⟨before, after.drop bs.length, ?_, hRead, ?_⟩, ?_⟩, hLength⟩
  · simp only [append_assoc]
  · dsimp only
    rw [CSize.add_of_lt (by omega), hWrite, length_append, Nat.add_assoc]
  · exact hLength.trans_le hBlock

/- A write appends what it takes, and tells how much. -/
omit hInv in
theorem write_spec (alloc : Alloc) (hInv : Inv pd contents)
    {slice : List Byte} (hMemory : InMemory pd slice.length) :
    ∃ pd' n err, write alloc pd slice = some (pd', n, err) ∧
      Inv pd' (contents ++ slice.take n) ∧
      (err = none ∧ pd.pendingEos = false ∧ n ≤ slice.length ∧
          Updated pd pd' (contents.length + n) ∨ err ≠ none ∧ n = 0 ∧
          Refused pd pd' ∧ (pd.pendingEos = true ∨ NoRoom (alloc 0) pd slice.length)) := by
  unfold write
  rw [if_neg (by simp [hInv.isOpen])]
  split
  case isTrue hPending =>
    rcases refused_spec hInv (Same.refl pd) with ⟨hInv', hRefused⟩
    refine ⟨_, 0, _, rfl, ?_, Or.inr ⟨by simp, rfl, hRefused, Or.inl hPending⟩⟩
    rw [take_zero, append_nil]
    exact hInv'
  case isFalse hNotPending =>
    rcases makeRoom_spec (alloc 0) hInv hMemory with ⟨pd₁, todo, hRoom, hInv₁, hSame, hTodo, hNone⟩
    simp only [hRoom, bind_eq_bind, bind_some]
    cases todo with
    | none =>
      rcases refused_spec hInv₁ hSame with ⟨hInv', hRefused⟩
      refine ⟨_, 0, _, rfl, ?_, Or.inr ⟨by simp, rfl, hRefused, Or.inr (hNone rfl)⟩⟩
      rw [take_zero, append_nil]
      exact hInv'
    | some n =>
      rcases hTodo n rfl with ⟨hLen, hFits⟩
      have hTake : (slice.take n).length = n := by
        rw [length_take]
        exact Nat.min_eq_left hLen
      rw [← hTake] at hFits
      rcases hInv₁.layout.append hFits with ⟨bytes, hWrite, hLayout₂, hBlock₂⟩
      rw [hTake] at hLayout₂
      simp only [hWrite, bind_some]
      have hInv₂ : Inv
          { pd₁ with
            bytes := bytes
            positionWrite := CSize.add pd₁.positionWrite n } (contents ++ slice.take n) := by
        refine ⟨hLayout₂, hInv₁.isOpen, fun hPos => ?_, hInv₁.round⟩
        exact hBlock₂.trans_le (hInv₁.limit hPos)
      rcases hInv₂.adjustAndRealloc (alloc 1) with ⟨pd₃, hAdjust, hInv₃, hSame₃⟩
      rcases updateCans_spec hInv₃ with ⟨hInv', hUpdated⟩
      rw [length_append, hTake] at hUpdated
      simp only [hAdjust, bind_some, hInv₃.isOpen, Bool.false_eq_true, if_false]
      refine ⟨_, n, none, rfl, hInv', Or.inl ⟨rfl, by simpa using hNotPending, hLen, ?_⟩⟩
      have hPending : pd₃.pendingEos = pd.pendingEos := hSame₃.pendingEos.trans hSame.pendingEos
      have hLimit : pd₃.limit = pd.limit := hSame₃.limit.trans hSame.limit
      refine ⟨hUpdated.limit.trans hLimit, hUpdated.pendingEos.trans hPending,
        hUpdated.eos.trans (hSame₃.eos.trans hSame.eos), hUpdated.canRead, ?_⟩
      rw [hUpdated.canWrite, hPending, hLimit]

---
-- Reading
---

/- The first bytes are taken away. -/
theorem Inv.drop {n : Nat}
    (hLe : n ≤ contents.length) :
    Inv { pd with positionRead := CSize.add pd.positionRead n } (contents.drop n) := by
  rcases hInv.layout.parts with ⟨before, after, hBytes, hRead, hWrite⟩
  have hBounds := hInv.layout.bounds
  have hBound : CSize.blockMax < CSize.bound := by decide
  refine ⟨⟨⟨before ++ contents.take n, after, ?_, ?_, ?_⟩,
    hInv.layout.block⟩, hInv.isOpen, hInv.limit, hInv.round⟩
  · rw [append_assoc, ← append_assoc (contents.take n), take_append_drop]
    exact hBytes
  · dsimp only
    rw [CSize.add_of_lt (by omega), length_append, length_take]
    omega
  · dsimp only
    rw [length_append, length_take, length_drop]
    omega

/- The flags after bytes were taken -/
structure Taken (pd pd' : Data) (left : Nat) : Prop where
  limit : pd'.limit = pd.limit
  canRead : pd'.canRead = decide (0 < left)
  canWrite : pd'.canWrite = pd.canWrite
  pending : left ≠ 0 ∨ pd.pendingEos = false →
    pd'.pendingEos = pd.pendingEos ∧ pd'.eos = pd.eos
  reached : left = 0 → pd.pendingEos = true → pd.eos = false →
    pd'.pendingEos = false ∧ pd'.eos = true

omit hInv in
theorem taken_eq (hOpen : pd.closed = false) :
    taken pd =
      if pd.pendingEos = true ∧ pd.usage = 0 ∧ pd.eos = false then
        { pd with
          canRead := decide (pd.positionRead < pd.positionWrite)
          eos := true
          pendingEos := false }
      else
        { pd with
          canRead :=
            decide (pd.positionRead < pd.positionWrite) } := by
  rcases pd with ⟨bytes, preallocated, limit, positionRead,
    positionWrite, pendingEos, eos, closed, canRead, canWrite⟩
  obtain rfl : closed = false := hOpen
  unfold taken canReadSet eosSet Data.usage
  cases pendingEos with
  | false => simp
  | true =>
    cases eos with
    | false => simp
    | true => simp

theorem taken_spec :
    Inv (taken pd) contents ∧ Taken pd (taken pd) contents.length := by
  have hBounds := hInv.layout.bounds
  have hLess : decide (pd.positionRead < pd.positionWrite) =
      decide (0 < contents.length) := by
    congr 1
    apply propext
    omega
  rw [taken_eq hInv.isOpen, hInv.layout.usage_eq, hLess]
  split
  case isTrue hReached =>
    rcases hReached with ⟨hPending, hNone, hEos⟩
    refine ⟨hInv.congr rfl rfl rfl rfl rfl rfl,
      rfl, rfl, rfl, fun hSome => ?_, fun _ _ _ => ⟨rfl, rfl⟩⟩
    rcases hSome with hSome | hNot
    · exact absurd hNone hSome
    · rw [hPending] at hNot
      exact nomatch hNot
  case isFalse hNot =>
    refine ⟨hInv.congr rfl rfl rfl rfl rfl rfl,
      rfl, rfl, rfl, fun _ => ⟨rfl, rfl⟩, fun hNone hPending hEos =>
        absurd ⟨hPending, hNone, hEos⟩ hNot⟩

omit hInv in
theorem drop_min_length (bs : List Byte) (n : Nat) : bs.drop (min n bs.length) = bs.drop n := by
  rcases Nat.le_total n bs.length with hLe | hLe
  · rw [Nat.min_eq_left hLe]
  · rw [Nat.min_eq_right hLe, drop_length, drop_eq_nil_of_le hLe]

/- A read gives the oldest bytes, unless there are none. -/
theorem read_spec (len : Nat) :
    ∃ pd' bytes err, read pd len = some (pd', bytes, err) ∧
      bytes = contents.take len ∧ Inv pd' (contents.drop len) ∧
      (pd' = pd ∧ contents = [] ∨ err = none ∧ Taken pd pd' (contents.drop len).length) := by
  have hUsage := hInv.layout.usage_eq
  unfold read
  rw [if_neg (by simp [hInv.isOpen])]
  simp only [hUsage]
  split
  case isTrue hAgain =>
    have hNil : contents = [] := length_eq_zero_iff.mp hAgain.2
    subst hNil
    exact ⟨pd, [], _, rfl, take_nil.symm, by rw [drop_nil]; exact hInv, Or.inl ⟨rfl, rfl⟩⟩
  case isFalse =>
    have hLen : (if contents.length < len then contents.length
        else len) = min len contents.length := by
      split <;> omega
    have hMin : min len contents.length ≤ contents.length := Nat.min_le_right _ _
    rw [hLen, hInv.layout.read_slice hMin]
    simp only [bind_eq_bind, bind_some]
    rcases taken_spec (hInv.drop hMin) with ⟨hInv', hTaken⟩
    rw [drop_min_length] at hInv' hTaken
    refine ⟨_, _, none, rfl, ?_, hInv', Or.inr ⟨rfl, ?_⟩⟩
    · rw [← take_eq_take_min]
    · exact ⟨hTaken.limit, hTaken.canRead, hTaken.canWrite, hTaken.pending, hTaken.reached⟩

theorem discard_spec (amount : Nat) :
    Inv (discard pd amount) (contents.drop amount) ∧
      (discard pd amount = pd ∧ contents = [] ∨
      Taken pd (discard pd amount) (contents.drop amount).length) := by
  have hUsage := hInv.layout.usage_eq
  unfold discard
  rw [if_neg (by simp [hInv.isOpen])]
  simp only [hUsage]
  split
  case isTrue hAgain =>
    have hNil : contents = [] := length_eq_zero_iff.mp hAgain.2
    subst hNil
    rw [drop_nil]
    exact ⟨hInv, Or.inl ⟨rfl, rfl⟩⟩
  case isFalse =>
    have hLen : (if contents.length < amount then contents.length
        else amount) = min amount contents.length := by
      split <;> omega
    have hMin : min amount contents.length ≤ contents.length := Nat.min_le_right _ _
    rw [hLen]
    rcases taken_spec (hInv.drop hMin) with ⟨hInv', hTaken⟩
    have hDrop : contents.drop (min amount contents.length) = contents.drop amount := by
      rcases Nat.le_total amount contents.length with hLe | hLe
      · rw [Nat.min_eq_left hLe]
      · rw [Nat.min_eq_right hLe, drop_length, drop_eq_nil_of_le hLe]
    rw [hDrop] at hInv' hTaken
    exact ⟨hInv', Or.inr ⟨hTaken.limit, hTaken.canRead,
      hTaken.canWrite, hTaken.pending, hTaken.reached⟩⟩

---
-- Limits and Ends
---

omit hInv in
theorem preallocate_spec (alloc : Alloc) (hInv : Inv pd contents)
    {size : Nat} (hRound : Roundable size) :
    Inv (preallocate alloc pd size) contents ∧
      (preallocate alloc pd size).limit = pd.limit ∧
      (preallocate alloc pd size).pendingEos = pd.pendingEos ∧
      (preallocate alloc pd size).eos = pd.eos ∧
      (preallocate alloc pd size).canRead = pd.canRead ∧
      (preallocate alloc pd size).canWrite = pd.canWrite := by
  have hBounds := hInv.layout.bounds
  unfold preallocate
  rw [if_neg (by simp [hInv.isOpen])]
  split
  case isTrue hLess =>
    rcases hInv.reallocRounded (alloc 0) size (by omega) hRound with ⟨hInv', hSame, -, -⟩
    exact ⟨⟨⟨hInv'.layout.parts, hInv'.layout.block⟩,
      hInv'.isOpen, hInv'.limit, hRound⟩, hSame.limit,
      hSame.pendingEos, hSame.eos, hSame.canRead, hSame.canWrite⟩
  case isFalse =>
    exact ⟨⟨⟨hInv.layout.parts, hInv.layout.block⟩,
      hInv.isOpen, hInv.limit, hRound⟩, rfl, rfl, rfl, rfl, rfl⟩

/-
  The block is given back down to the limit; what does not
  fit is cut off.
-/
omit hInv in
theorem cut_shrink (memory : Option (Nat → Byte)) {limit : Nat}
    (hLayout : Layout pd contents) (hStart : pd.positionRead = 0)
    (hLimit : pd.limit = limit) (hPos : 0 < limit)
    (hMemory : limit < pd.allocated → memory ≠ none) :
    Layout (cut (shrink memory pd limit) limit) (contents.take limit) ∧
        Same pd (cut (shrink memory pd limit) limit) ∧
        (cut (shrink memory pd limit) limit).allocated ≤ limit := by
  have hBounds := hLayout.bounds
  unfold shrink
  split
  case isFalse hSmall =>
    have hNone : cut pd limit = pd := if_neg (by omega)
    rw [hNone, take_of_length_le (by omega)]
    exact ⟨hLayout, Same.refl pd, by omega⟩
  case isTrue hLarge =>
    cases memory with
    | none => exact absurd rfl (hMemory hLarge)
    | some junk =>
      have hTarget : target pd limit = limit := if_neg (by omega)
      by_cases hCut : limit < pd.positionWrite
      · rcases hLayout.parts with ⟨before, after, hBytes, hRead, hWrite⟩
        have hNil : before = [] := length_eq_zero_iff.mp (by omega)
        subst hNil
        have hOver : limit ≤ contents.length := by
          simp only [length_nil] at hWrite
          omega
        have hNew : Block.realloc junk pd.bytes limit = contents.take limit := by
          unfold Data.allocated at hLarge
          unfold Block.realloc
          rw [show limit - pd.bytes.length = 0 by omega, range_zero,
            map_nil, append_nil, hBytes, nil_append, take_append_of_le_length hOver]
        have hRealloc : realloc (some junk) pd limit =
            { pd with bytes := contents.take limit } := by
          have hSize : (if 0 < pd.limit ∧ pd.limit < limit then
              pd.limit else limit) = limit := hTarget
          unfold realloc
          simp only [hSize]
          rw [if_neg (by omega), if_neg (by omega), if_pos (by omega), hNew]
        have hTake : (contents.take limit).length = limit := by
          rw [length_take]
          exact Nat.min_eq_left hOver
        have hDone : cut (realloc (some junk) pd limit) limit =
            { pd with
              bytes := contents.take limit
              positionWrite := limit
              positionRead := 0 } := by
          rw [hRealloc]
          unfold cut
          dsimp only
          rw [if_pos hCut, hStart, if_neg (Nat.not_lt_zero _)]
        rw [hDone]
        refine ⟨⟨⟨[], [], ?_, rfl, ?_⟩, ?_⟩, ⟨rfl, rfl, rfl, rfl, rfl, rfl, rfl⟩, hTake.le⟩
        · simp only [nil_append, append_nil]
        · simp only [hTake, length_nil, Nat.zero_add]
        · unfold Data.allocated
          dsimp only
          omega
      · rcases realloc_spec (some junk) hLayout limit
          (by omega) with ⟨hLayout', hSame, -, hWrite, hBlock⟩
        have hNone : cut (realloc (some junk) pd limit) limit =
            realloc (some junk) pd limit := if_neg (by omega)
        rw [hNone, take_of_length_le (by omega)]
        refine ⟨hLayout', hSame, ?_⟩
        rcases hBlock with hNew | ⟨-, hNoMemory⟩
        · omega
        · rcases hNoMemory with hNone | hHuge
          · exact nomatch hNone
          · omega

/- What a limit leaves of the contents -/
def limited (contents : List Byte) (limit : Nat) : List Byte :=
  if limit = 0 then contents else contents.take limit

/- A new limit cuts off what is above it. -/
omit hInv in
theorem limitSet_spec (alloc : Alloc) (hInv : Inv pd contents) {limit :
    Nat} (hMemory : 0 < limit → limit < pd.allocated → alloc 0 ≠ none) :
    ∃ pd', limitSet alloc pd limit = some pd' ∧
      Inv pd' (limited contents limit) ∧
      (pd' = pd ∧ pd.limit = limit ∨ Updated { pd with limit :=
        limit } pd' (limited contents limit).length) := by
  unfold limitSet limited
  rw [if_neg (by simp [hInv.isOpen])]
  split
  case isTrue hSame =>
    refine ⟨pd, rfl, ?_, Or.inl ⟨rfl, hSame⟩⟩
    split
    · exact hInv
    case isFalse hPos =>
      rw [take_of_length_le]
      · exact hInv
      · rw [← hSame]
        exact hInv.usage_le (by omega)
  case isFalse =>
    split
    case isTrue hZero =>
      have hInv' : Inv { pd with limit := limit } contents :=
        ⟨⟨hInv.layout.parts, hInv.layout.block⟩, hInv.isOpen,
          fun hPos => absurd hPos (by simp [hZero]), hInv.round⟩
      rcases updateCans_spec hInv' with ⟨hDone, hUpdated⟩
      exact ⟨_, rfl, hDone, Or.inr hUpdated⟩
    case isFalse hPos =>
      have hLayout : Layout { pd with limit := limit } contents :=
        ⟨hInv.layout.parts, hInv.layout.block⟩
      rcases adjust_spec hLayout with ⟨pd₁, hAdjust, hLayout₁, hSame₁, hStart, hBlock₁⟩
      have hRise : 0 < limit := Nat.pos_of_ne_zero hPos
      rcases cut_shrink (alloc 0) hLayout₁ hStart
        hSame₁.limit hRise (fun hLess => hMemory hRise (by
          rw [hBlock₁] at hLess
          exact hLess)) with ⟨hLayout₂, hSame₂, hBlock₂⟩
      have hAll := hSame₁.trans hSame₂
      have hInv₂ : Inv (cut (shrink (alloc 0) pd₁ limit) limit) (contents.take limit) := by
        refine ⟨hLayout₂, hAll.closed.trans hInv.isOpen, fun _ => ?_, ?_⟩
        · rw [hAll.limit]
          exact hBlock₂
        · rw [hAll.preallocated]
          exact hInv.round
      rcases hInv₂.adjustAndRealloc (alloc 1) with ⟨pd₃, hLast, hInv₃, hSame₃⟩
      rcases updateCans_spec hInv₃ with ⟨hInv', hUpdated⟩
      have hFull := hAll.trans hSame₃
      simp only [hAdjust, hLast, bind_eq_bind, bind_some,
        hInv₃.isOpen, Bool.false_eq_true, if_false]
      refine ⟨_, rfl, hInv', Or.inr ⟨hUpdated.limit.trans hFull.limit,
        hUpdated.pendingEos.trans hFull.pendingEos,
        hUpdated.eos.trans hFull.eos, hUpdated.canRead, ?_⟩⟩
      rw [hUpdated.canWrite, hFull.pendingEos, hFull.limit]

/- All bytes are dropped. -/
theorem clear_spec :
    Inv (clear pd) [] ∧
      (clear pd).limit = pd.limit ∧
      (clear pd).canRead = false ∧
      (clear pd).canWrite = pd.canWrite ∧
      (pd.pendingEos = false → (clear pd).pendingEos = false ∧
        (clear pd).eos = pd.eos) ∧
      (pd.pendingEos = true → pd.eos = false →
        (clear pd).pendingEos = false ∧ (clear pd).eos = true) := by
  rcases hInv with ⟨⟨-, hBlock⟩, hOpen, hLimit, hRound⟩
  rcases pd with ⟨bytes, preallocated, limit, positionRead,
    positionWrite, pendingEos, eos, closed, canRead, canWrite⟩
  obtain rfl : closed = false := hOpen
  have hNone : ∀ pendingEos eos canRead canWrite,
      Inv ⟨bytes, preallocated, limit, 0, 0, pendingEos, eos, false,
        canRead, canWrite⟩ [] := fun _ _ _ _ =>
    ⟨⟨⟨[], bytes, rfl, rfl, rfl⟩, hBlock⟩, rfl, hLimit, hRound⟩
  unfold clear canReadSet eosSet
  cases pendingEos with
  | false =>
    exact ⟨hNone _ _ _ _, rfl, rfl, rfl, fun _ => ⟨rfl, rfl⟩, fun hPending => nomatch hPending⟩
  | true =>
    cases eos with
    | false =>
      exact ⟨hNone _ _ _ _, rfl, rfl, rfl, fun hPending =>
        (nomatch hPending), fun _ _ => ⟨rfl, rfl⟩⟩
    | true =>
      exact ⟨hNone _ _ _ _, rfl, rfl, rfl, fun hPending =>
        (nomatch hPending), fun _ hEos => (nomatch hEos)⟩

/- The end comes at once when there is nothing to read. -/
theorem eosMark_spec :
    Inv (eosMark pd) contents ∧
      (eosMark pd).limit = pd.limit ∧
      (eosMark pd).canRead = pd.canRead ∧
      (eosMark pd).canWrite = pd.canWrite ∧
      (pd.eos = true → eosMark pd = pd) ∧
      (pd.eos = false → contents ≠ [] → (eosMark pd).pendingEos = true ∧
        (eosMark pd).eos = false) ∧
      (pd.eos = false → contents = [] →
        (eosMark pd).pendingEos = false ∧ (eosMark pd).eos = true) := by
  have hUsage := hInv.layout.usage_eq
  have hOpen := hInv.isOpen
  unfold eosMark
  split
  case isTrue hEos =>
    exact ⟨hInv, rfl, rfl, rfl, fun _ => rfl, fun hNot => absurd (hEos.symm.trans hNot) (by simp),
      fun hNot => absurd (hEos.symm.trans hNot) (by simp)⟩
  case isFalse hEos =>
    rw [hUsage]
    split
    case isTrue hSome =>
      refine ⟨hInv.congr rfl rfl rfl rfl rfl rfl, rfl, rfl, rfl,
        fun hYes => absurd hYes hEos, fun hNot _ => ⟨rfl, hNot⟩, fun _ hNil => ?_⟩
      rw [hNil] at hSome
      exact absurd hSome (Nat.lt_irrefl 0)
    case isFalse hNone =>
      unfold eosSet
      rw [if_neg (by simp [hOpen]), if_neg hEos, if_pos rfl]
      refine ⟨hInv.congr rfl rfl rfl rfl rfl rfl, rfl, rfl, rfl,
        fun hYes => absurd hYes hEos, fun _ hSome => ?_, fun _ _ => ⟨rfl, rfl⟩⟩
      exact absurd (length_pos_iff.mpr hSome) hNone

end

end Efl.Io.Queue
