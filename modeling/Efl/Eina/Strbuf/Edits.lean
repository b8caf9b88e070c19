import Efl.Eina.Strbuf.Contents
import Mathlib.Data.List.DropRight

/-
  What is removed from a buffer, and what is changed in place.

  Main declarations:
    * `copy_spec`
    * `remove_spec`, `reset_spec`
-/

---
-- Remove and Reset
---

namespace Efl.Strbuf

open Bytes List Option

theorem Gives.trans {s₁ s₂ s₃ : Buffer} {l₁ l₂ l₃ : List Byte}
    (hFirst : Gives s₁ l₁ l₂ s₂) (hSecond : Gives s₂ l₂ l₃ s₃) : Gives s₁ l₁ l₃ s₃ :=
  ⟨hSecond.holds, hFirst.kept.trans hSecond.kept, fun hWhole => hSecond.whole (hFirst.whole hWhole)⟩

section

variable {l : List Byte} {s : Buffer}

/- After the copy the content is in memory of the buffer. -/
theorem copy_spec (junk : Nat → Byte)
    (hState : Holds l s ∨ Borrowed l s) :
    ∃ s', copy (some junk) s = some (s', true) ∧ Gives s l l s' := by
  unfold copy
  cases hRo : s.ro with
  | false =>
    rcases hState with hHolds | hBorrowed
    · exact ⟨s, rfl, hHolds, .refl s, id⟩
    · exact nomatch hRo.symm.trans hBorrowed.ro
  | true =>
    have hParts : s.len = l.length ∧ l.length + 1 ≤ s.size ∧ 0 < s.step ∧ s.step ≤ maxStep := by
      rcases hState with hHolds | hBorrowed
      · exact ⟨hHolds.len, hHolds.room, hHolds.step_pos, hHolds.step_le⟩
      · exact ⟨hBorrowed.len, hBorrowed.size.ge, hBorrowed.step_pos, hBorrowed.step_le⟩
    rcases hParts with ⟨hLen, hRoom, hStep⟩
    rcases write_fresh junk s.size (show l.length ≤ s.size by omega) with
      ⟨own, hWrite, hLength, hContent⟩
    rw [if_pos rfl]
    dsimp only
    rw [read_content hState]
    dsimp only [bind_eq_bind, bind_some]
    rw [hWrite]
    refine ⟨_, rfl, ⟨rfl, hLen, hContent, hRoom, hLength.ge,
      hStep.1, hStep.2⟩, ⟨rfl, rfl⟩, fun hWhole => ?_⟩
    exact nomatch hRo.symm.trans hWhole.ro

/- An empty buffer, as it is created. -/
theorem init_spec (junk : Nat → Byte) (s : Buffer) :
    ∃ s', init (some junk) s = (s', true) ∧ Ends s [] s' := by
  refine ⟨_, rfl, ⟨rfl, rfl, List.nil_prefix, ?_, ?_, ?_, ?_⟩, ⟨rfl, rfl⟩, ?_, fun _ => rfl⟩
  · exact show 0 + 1 ≤ initSize by decide
  · rw [length_replicate]
  · exact show 0 < initStep by decide
  · exact show initStep ≤ maxStep by decide
  · exact ⟨List.replicate 31 0, rfl⟩

/- The removal of a part that has bytes in it. -/
theorem remove_spec {alloc : Alloc} {start stop : Nat}
    (hAlloc : ∀ i, alloc i ≠ none) (hState : Holds l s ∨ Borrowed l s)
    (hSome : start < min stop l.length) (hLimit : l.length < limit) :
    ∃ s', remove alloc s start stop = some (s', true) ∧
      Gives s l (l.take start ++ l.drop (max start stop)) s' := by
  rcases ne_none_iff_exists'.mp (hAlloc 0) with ⟨junk₀, h₀⟩
  rcases ne_none_iff_exists'.mp (hAlloc 1) with ⟨junk₁, h₁⟩
  have hLen : s.len = l.length := by
    rcases hState with hHolds | hBorrowed
    · exact hHolds.len
    · exact hBorrowed.len
  rcases copy_spec junk₀ hState with ⟨s₁, hCopy, hGives⟩
  have hHolds := hGives.holds
  have hStop : (if s.len ≤ stop then s.len else stop) = min stop l.length := by
    rw [hLen]
    split <;> omega
  have hDrop : l.drop (max start stop) = l.drop (min stop l.length) := by
    rcases Nat.le_total stop l.length with hLe | hGe
    · rw [Nat.min_eq_left hLe, Nat.max_eq_right (by omega)]
    · rw [Nat.min_eq_right hGe, drop_of_length_le, drop_of_length_le le_rfl]
      omega
  unfold remove
  dsimp only
  rw [hStop, if_neg (by omega), h₀, h₁, hCopy, bind_eq_bind, bind_some, hDrop]
  have hStopLe : min stop l.length ≤ l.length := Nat.min_le_right _ _
  generalize min stop l.length = stop' at *
  dsimp only
  rw [if_pos rfl]
  split
  case isTrue hAll =>
    rw [hHolds.len] at hAll
    rcases init_spec junk₁ s₁ with ⟨s₂, hInit, hEnds⟩
    have hEmpty : l.take start ++ l.drop stop' = [] := by
      rw [show start = 0 by omega, show stop' = l.length by omega]
      simp
    rw [hInit, hEmpty]
    exact ⟨s₂, rfl, hEnds.holds, hGives.kept.trans hEnds.kept,
      fun hWhole => (hEnds.gives.whole (hGives.whole hWhole))⟩
  case isFalse hPart =>
    rcases hHolds.rest with ⟨rest, hOwn, hRest⟩
    have hRoom := hHolds.room
    cases hRestCases : rest with
    | nil =>
      rw [hRestCases, length_nil] at hRest
      omega
    | cons r rest' =>
      have hTake : (l.take start).length = start := by
        rw [length_take]
        omega
      have hGap : ((l.take stop').drop start).length = stop' - start := by
        rw [length_drop, length_take]
        omega
      have hSplit : l = l.take start ++ ((l.take stop').drop start ++ l.drop stop') := by
        have hFront : l.take start ++ (l.take stop').drop start = l.take stop' := by
          conv_rhs => rw [← take_append_drop start (l.take stop'),
            take_take, Nat.min_eq_left (by omega)]
        rw [← append_assoc, hFront, take_append_drop]
      have hOwn' : s₁.own = l.take start ++
          ((l.take stop').drop start ++ ((l.drop stop' ++ [r]) ++ rest')) := by
        rw [hOwn, hRestCases]
        conv_lhs => rw [hSplit]
        simp only [append_assoc, singleton_append]
      have hCount : (l.drop stop' ++ [r]).length = s₁.len - stop' + 1 := by
        rw [length_append, length_drop, hHolds.len]
        rfl
      rcases Block.move_back (l.take start) ((l.take stop').drop start)
        (l.drop stop' ++ [r]) rest' with ⟨rest'', hMove⟩
      have hTo : start + (stop' - start) = stop' := by omega
      rw [← hOwn', hTake, hGap, hTo, hCount] at hMove
      have hNew : s₁.len - (stop' - start) = (l.take start ++ l.drop stop').length := by
        rw [length_append, length_drop, hTake, hHolds.len]
        omega
      have hShorter : (l.take start ++ l.drop stop').length ≤ l.length := by
        rw [← hNew, hHolds.len]
        omega
      have hContent : l.take start ++ l.drop stop' <+:
          l.take start ++ (l.drop stop' ++ [r] ++ rest'') :=
        ⟨[r] ++ rest'', by simp only [append_assoc]⟩
      have hHolds' := hHolds.of_own (Block.length_move hMove) hContent (by omega)
      rcases resize_spec junk₁ (Or.inl hHolds') le_rfl (by omega) with ⟨s₃, hResize, hGives', -, -⟩
      rw [move_owned hHolds.place hMove]
      dsimp only [bind_eq_bind, bind_some]
      rw [hNew, hResize]
      refine ⟨s₃, rfl, (hGives.trans ?_).trans hGives'⟩
      refine ⟨hHolds', ⟨rfl, rfl⟩, fun hWhole =>
        ⟨hWhole.ro, ?_⟩⟩
      have hEnded := hWhole.ended
      rw [hOwn, hRestCases, prefix_append_right_inj, cons_prefix_cons] at hEnded
      refine ⟨rest'', ?_⟩
      rw [← hEnded.1]
      simp only [append_assoc]

/- Nothing is removed. -/
theorem remove_nothing {alloc : Alloc} {start stop : Nat} (hState : Holds l s ∨ Borrowed l s)
    (hNone : min stop l.length ≤ start) :
    remove alloc s start stop = some (s, true) ∧ l.take start ++ l.drop (max start stop) = l := by
  have hLen : s.len = l.length := by
    rcases hState with hHolds | hBorrowed
    · exact hHolds.len
    · exact hBorrowed.len
  constructor
  · unfold remove
    dsimp only
    rw [hLen, if_pos]
    split <;> omega
  · by_cases hBeyond : l.length ≤ start
    · have hAll : l.length ≤ max start stop := hBeyond.trans (Nat.le_max_left _ _)
      rw [take_of_length_le hBeyond, drop_of_length_le hAll, append_nil]
    · rw [Nat.max_eq_left (by omega), take_append_drop]

theorem reset_spec (junk : Nat → Byte)
    (hState : Holds l s ∨ Borrowed l s) : ∃ s', reset (some junk) s = some s' ∧ Ends s [] s' := by
  unfold reset
  cases hRo : s.ro with
  | true =>
    rcases init_spec junk s with ⟨s', hInit, hEnds⟩
    rw [if_pos rfl, hInit]
    exact ⟨s', rfl, hEnds⟩
  | false =>
    rcases hState with hHolds | hBorrowed
    · have hRoom := hHolds.room
      have hHolds' : Holds [] { s with len := 0, step := initStep, ro := false } :=
        ⟨hHolds.place, rfl, List.nil_prefix,
          show 0 + 1 ≤ s.size by omega, hHolds.size_le,
          show 0 < initStep by decide,
          show initStep ≤ maxStep by decide⟩
      rw [if_neg Bool.false_ne_true]
      exact terminate_spec hHolds' ⟨rfl, rfl⟩ fun _ => rfl
    · exact nomatch hRo.symm.trans hBorrowed.ro

end

---
-- Trim and Lower Case
---

open CStr

theorem rtrimLen_spec (l rest : List Byte) :
    rtrimLen (l ++ rest) l.length = some (l.rdropWhile isSpace).length := by
  induction l using List.reverseRecOn generalizing rest with
  | nil => rfl
  | append_singleton l c ih =>
    have hAt : (l ++ [c] ++ rest)[l.length]? = some c := by
      rw [append_assoc, getElem?_append_right le_rfl, Nat.sub_self]
      rfl
    rw [length_append, length_singleton, rtrimLen, hAt, bind_eq_bind, bind_some]
    by_cases hSpace : isSpace c = true
    · rw [if_pos hSpace, rdropWhile_concat_pos _ _ _ hSpace, append_assoc, ih]
    · rw [if_neg hSpace, rdropWhile_concat_neg _ _ _ hSpace, length_append, length_singleton]

theorem ltrimFrom_spec (before l rest : List Byte) :
    ltrimFrom (before ++ (l ++ rest)) l.length before.length =
      some (before.length + (l.takeWhile isSpace).length, (l.dropWhile isSpace).length) := by
  induction l generalizing before with
  | nil => rfl
  | cons c cs ih =>
    have hAt : (before ++ ((c :: cs) ++ rest))[before.length]? = some c := by
      rw [getElem?_append_right le_rfl, Nat.sub_self]
      rfl
    rw [length_cons, ltrimFrom, hAt, bind_eq_bind, bind_some]
    by_cases hSpace : isSpace c = true
    · have hNext := ih (before ++ [c])
      rw [append_assoc, length_append, length_singleton] at hNext
      have hCount :
          before.length + ((cs.takeWhile isSpace).length + 1) =
            before.length + 1 + (cs.takeWhile isSpace).length := by
        omega
      rw [if_pos hSpace, takeWhile_cons_of_pos hSpace,
        dropWhile_cons_of_pos hSpace, length_cons, hCount, ← hNext]
      rfl
    · rw [if_neg hSpace, takeWhile_cons_of_neg hSpace, dropWhile_cons_of_neg hSpace]
      rfl

section

variable {l : List Byte} {s : Buffer}

section

variable (hHolds : Holds l s)

include hHolds

/- A part of the content moves to the start. -/
theorem shift_spec {gap l' rest : List Byte} (hOwn : s.own = gap ++ (l' ++ rest))
    (hShorter : l'.length ≤ l.length) :
    ∃ s₁ s₂,
      { s with len := l'.length }.move 0 gap.length l'.length =
        some s₁ ∧
      s₁.write l'.length [0] = some s₂ ∧ Ends s l' s₂ := by
  rcases Block.move_back [] gap l' rest with ⟨rest', hMove⟩
  rw [length_nil, Nat.zero_add, nil_append, nil_append, ← hOwn] at hMove
  have hRoom := hHolds.room
  have hHolds' := hHolds.of_own (Block.length_move hMove) (prefix_append l' rest') (by omega)
  have hKept : Kept s { s with
      own := l' ++ rest'
      len := l'.length } := ⟨rfl, rfl⟩
  rcases terminate_spec hHolds' hKept id with ⟨s₂, hEnd, hEnds⟩
  refine ⟨_, s₂, move_owned ?_ hMove, hEnd, hEnds⟩
  exact hHolds.place

theorem trim_spec :
    ∃ s', trim s = some s' ∧ Ends s ((l.rdropWhile isSpace).dropWhile isSpace) s' := by
  rcases hHolds.rest with ⟨rest, hOwn, -⟩
  rcases List.rdropWhile_prefix isSpace l with ⟨end', hEnd⟩
  have hLen := rtrimLen_spec l rest
  rw [← hOwn, ← hHolds.len] at hLen
  have hStart := ltrimFrom_spec [] (l.rdropWhile isSpace) (end' ++ rest)
  rw [nil_append, ← append_assoc, hEnd, ← hOwn, length_nil, Nat.zero_add] at hStart
  have hSplit : s.own = (l.rdropWhile isSpace).takeWhile isSpace ++
      ((l.rdropWhile isSpace).dropWhile isSpace ++ (end' ++ rest)) := by
    rw [← append_assoc, takeWhile_append_dropWhile, ← append_assoc, hEnd, hOwn]
  have hShorter : ((l.rdropWhile isSpace).dropWhile isSpace).length ≤ l.length := by
    have hFirst := (dropWhile_suffix isSpace (l := l.rdropWhile isSpace)).length_le
    have hSecond := (List.rdropWhile_prefix isSpace l).length_le
    omega
  rcases shift_spec hHolds hSplit hShorter with ⟨s₁, s₂, hMove, hWrite, hEnds⟩
  unfold trim
  rw [hHolds.bytes_eq, hLen]
  dsimp only [bind_eq_bind, bind_some]
  rw [hStart]
  dsimp only [bind_some]
  rw [hMove]
  exact ⟨s₂, hWrite, hEnds⟩

theorem ltrim_spec : ∃ s', ltrim s = some s' ∧ Ends s (l.dropWhile isSpace) s' := by
  rcases hHolds.rest with ⟨rest, hOwn, -⟩
  have hStart := ltrimFrom_spec [] l rest
  rw [nil_append, ← hOwn, length_nil, Nat.zero_add, ← hHolds.len] at hStart
  have hSplit : s.own = l.takeWhile isSpace ++ (l.dropWhile isSpace ++ rest) := by
    rw [← append_assoc, takeWhile_append_dropWhile, hOwn]
  rcases shift_spec hHolds hSplit (dropWhile_suffix isSpace).length_le with
    ⟨s₁, s₂, hMove, hWrite, hEnds⟩
  unfold ltrim
  rw [hHolds.bytes_eq, hStart]
  dsimp only [bind_eq_bind, bind_some]
  rw [hMove]
  exact ⟨s₂, hWrite, hEnds⟩

theorem rtrim_spec : ∃ s', rtrim s = some s' ∧ Ends s (l.rdropWhile isSpace) s' := by
  rcases hHolds.rest with ⟨rest, hOwn, -⟩
  have hLen := rtrimLen_spec l rest
  rw [← hOwn, ← hHolds.len] at hLen
  have hPrefix := List.rdropWhile_prefix isSpace l
  have hShorter := hPrefix.length_le
  have hRoom := hHolds.room
  have hHolds' := hHolds.of_own rfl (hPrefix.trans hHolds.content) (by omega)
  unfold rtrim
  rw [hHolds.bytes_eq, hLen]
  exact terminate_spec hHolds' ⟨rfl, rfl⟩ id

end

theorem lowerText_spec {text : List Byte} (t : List Byte)
    (hNoNul : 0 ∉ text) : lowerText (text ++ 0 :: t) = some (text.map lower ++ 0 :: t) := by
  induction text with
  | nil => rfl
  | cons c cs ih =>
    rw [mem_cons, not_or] at hNoNul
    rw [cons_append, lowerText, if_neg (Ne.symm hNoNul.1), ih hNoNul.2]
    rfl

theorem tolower_spec (hHolds : Holds l s)
    (hEnded : l ++ [0] <+: s.own) :
    ∃ s', tolower s = some s' ∧ Ends s ((text l).map lower ++ beyond l) s' := by
  rcases hEnded with ⟨rest, hOwn⟩
  rw [append_assoc, singleton_append] at hOwn
  rcases terminated_text l rest with ⟨t, hText, hBeyond⟩
  have hLower := lowerText_spec t (zero_notMem_text l)
  rw [← hText, hOwn, ← hBeyond] at hLower
  have hLength : ((text l).map lower ++ beyond l).length = l.length := by
    conv_rhs => rw [← text_append_beyond l]
    rw [length_append, length_append, length_map]
  have hSame : ((text l).map lower ++ (beyond l ++ 0 :: rest)).length = s.own.length := by
    rw [← hOwn, ← append_assoc, length_append, hLength, length_append]
  have hEnds : (text l).map lower ++ beyond l ++ [0] <+:
      (text l).map lower ++ (beyond l ++ 0 :: rest) :=
    ⟨rest, by
      simp only [append_assoc, singleton_append]⟩
  have hPlace : s.place ≠ .null := by
    rw [hHolds.place]
    exact Place.noConfusion
  have hStrlen := strlen_text t (zero_notMem_text l)
  rw [← hText, hOwn] at hStrlen
  unfold tolower
  rw [if_neg hPlace, hHolds.bytes_eq, hStrlen, hLower]
  dsimp only [bind_eq_bind, bind_some]
  split
  case isTrue hZero =>
    have hSplit := text_append_beyond l
    rw [length_eq_zero_iff.mp hZero] at hSplit ⊢
    rw [map_nil, hSplit]
    refine ⟨s, rfl, hHolds, .refl s, ⟨rest, ?_⟩, id⟩
    rw [append_assoc]
    exact hOwn
  case isFalse =>
    rw [setBytes_owned _ hHolds.place]
    refine ⟨_, rfl, ⟨hHolds.place, ?_, ?_, ?_, ?_,
      hHolds.step_pos, hHolds.step_le⟩, ⟨rfl, rfl⟩, hEnds, id⟩
    · rw [hLength]
      exact hHolds.len
    · exact (prefix_append _ _).trans hEnds
    · rw [hLength]
      exact hHolds.room
    · exact hSame ▸ hHolds.size_le

end

end Efl.Strbuf
