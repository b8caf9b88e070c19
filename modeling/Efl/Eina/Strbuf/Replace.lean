import Efl.Eina.Strbuf.Edits

/-
  Replacements in a buffer of its own memory.

  Main declarations:
    * `Replacing`, the invariant of the loop of `replaceAll`
    * `findNth_spec`, `replace_spec`
    * `overwriteAll_spec`, `replaceLoop_spec`
-/

---
-- One Occurrence
---

namespace Efl.Strbuf

open Bytes CStr List Option

/- The loop finds the n-th of the occurrences. -/
theorem findNth_spec {str text : List Byte} (t : List Byte) {pos : Nat}
    (hStr : 0 ∉ str) (hNonempty : str ≠ []) (hNoNul : 0 ∉ text)
    (hPos : pos ≤ text.length) (n : Nat) :
    findNth (text ++ 0 :: t) str (n + 1) pos = some (occurrences str (text.drop pos) pos)[n]? := by
  induction n generalizing pos with
  | zero =>
    rw [findNth, strstr_text t hStr hNonempty hNoNul hPos]
    cases hFound : occurrences str (text.drop pos) pos with
    | nil => rfl
    | cons p ps =>
      have hEnd := occurrence_end hPos (hFound ▸ mem_cons_self)
      have hAt : (text ++ 0 :: t)[p]? = some text[p] := by
        rw [getElem?_append_left hEnd.2.1, getElem?_eq_getElem hEnd.2.1]
      have hNe : text[p] ≠ 0 := by
        intro hZero
        exact hNoNul (hZero ▸ getElem_mem hEnd.2.1)
      simp only [bind_eq_bind, bind_some, head?_cons, hAt]
      rw [if_neg hNe]
      rfl
  | succ n ih =>
    rw [findNth, strstr_text t hStr hNonempty hNoNul hPos]
    cases hFound : occurrences str (text.drop pos) pos with
    | nil => rfl
    | cons p ps =>
      have hEnd := occurrence_end hPos (hFound ▸ mem_cons_self)
      have hAt : (text ++ 0 :: t)[p]? = some text[p] := by
        rw [getElem?_append_left hEnd.2.1, getElem?_eq_getElem hEnd.2.1]
      have hNe : text[p] ≠ 0 := by
        intro hZero
        exact hNoNul (hZero ▸ getElem_mem hEnd.2.1)
      have hRest := occurrences_drop hFound
      rw [drop_drop,
        show pos + (p + 1 - pos) = p + 1 by omega] at hRest
      have hNext := @ih (p + 1) (by omega)
      rw [hRest] at hNext
      simp only [bind_eq_bind, bind_some, head?_cons, hAt]
      rw [if_neg hNe, if_neg (Nat.succ_ne_zero n), hNext]
      rfl

/- A text around an occurrence. -/
theorem split_occurrence {s : List Byte} {p n : Nat}
    (hEnd : p + n ≤ s.length) :
    ∃ mid, mid.length = n ∧ s = s.take p ++ (mid ++ s.drop (p + n)) := by
  refine ⟨(s.drop p).take n, ?_, ?_⟩
  · rw [length_take, length_drop]
    omega
  · rw [← drop_drop, take_append_drop, take_append_drop]

section

variable {l : List Byte} {s : Buffer}

/- A part of the content gets the length of another string. -/
theorem makeRoom_spec (junk : Nat → Byte) {a mid b : List Byte}
    {n : Nat} (hHolds : Holds l s) (hSplit : l = a ++ (mid ++ b))
    (hLimit : a.length + n + b.length < limit) :
    ∃ (s' : Buffer) (gap rest : List Byte), makeRoom (some junk) s a.length mid.length n
      (a.length + n + b.length) = some (s', true) ∧
      gap.length = n ∧ s'.own = a ++ (gap ++ (b ++ rest)) ∧
      Holds a { s' with len := a.length } ∧
      a.length + n + b.length + 1 ≤ s'.size ∧ Kept s s' ∧ (s.ro = false → s'.ro = false) := by
  unfold makeRoom
  have hLength : l.length = a.length + (mid.length + b.length) := by
    rw [hSplit, length_append, length_append]
  by_cases hSame : mid.length = n
  · rcases hHolds.rest with ⟨rest, hOwn, -⟩
    have hRoom := hHolds.room
    rw [if_neg (not_not.mpr hSame)]
    refine ⟨s, mid, rest, rfl, hSame, ?_, hHolds.of_own rfl ?_ (by omega), by omega, .refl s, id⟩
    · rw [hOwn, hSplit]
      simp only [append_assoc]
    · rw [hOwn, hSplit]
      simp only [append_assoc]
      exact prefix_append _ _
  · rcases grow_spec junk (Or.inl hHolds) hLimit with ⟨s₁, hGrow, hGives, hSize, hRo⟩
    have hHolds₁ := hGives.holds
    rcases hHolds₁.rest with ⟨rest, hOwn, hRest⟩
    have hOwn' : s₁.own = a ++ (mid ++ (b ++ rest)) := by
      rw [hOwn, hSplit]
      simp only [append_assoc]
    rcases Block.move_over a mid b rest
      (show n ≤ mid.length + rest.length by omega) with ⟨gap, rest', hGap, hMove⟩
    have hCount : s₁.len - a.length - mid.length = b.length := by
      rw [hHolds₁.len]
      omega
    rw [← hOwn', ← hCount] at hMove
    rw [if_pos hSame, hGrow]
    dsimp only [bind_eq_bind, bind_some]
    rw [if_pos rfl, if_neg (by rw [hHolds₁.len]; omega), move_owned hHolds₁.place hMove]
    refine ⟨_, gap, rest', rfl, hGap, rfl, hHolds₁.of_own
      (Block.length_move hMove) (prefix_append _ _) (by omega), hSize,
      ⟨hGives.kept.given, hGives.kept.written⟩, hRo⟩

/- The replacement of one occurrence. -/
theorem replace_spec {alloc : Alloc} {str new : CString} {n : Nat}
    {text' : List Byte} (hAlloc : ∀ i, alloc i ≠ none)
    (hHolds : Holds l s) (hWhole : Whole l s) (hNonempty : str.chars ≠ [])
    (hReplace : replaceNth str.chars new.chars n (text l) = some text')
    (hLimit : (text' ++ beyond l).length < limit) :
    ∃ s', replace alloc s str new n = some (s', true) ∧ Ends s (text' ++ beyond l) s' := by
  rcases ne_none_iff_exists'.mp (hAlloc 1) with ⟨junk, hJunk⟩
  cases n with
  | zero => exact nomatch hReplace
  | succ n =>
    rw [replaceNth, map_eq_some_iff] at hReplace
    rcases hReplace with ⟨p, hFound, hText'⟩
    have hEnd := occurrence_end (Nat.zero_le (text l).length) (mem_of_getElem? hFound)
    rcases hWhole.ended with ⟨rest₀, hOwn₀⟩
    rw [append_assoc, singleton_append] at hOwn₀
    rcases terminated_text l rest₀ with ⟨t, hText, -⟩
    have hNth := findNth_spec t str.noNul hNonempty
      (zero_notMem_text l) (Nat.zero_le (text l).length) n
    rw [← hText, hOwn₀, drop_zero, hFound] at hNth
    rcases split_occurrence hEnd.2.2 with ⟨mid, hMid, hSplit⟩
    -- The content around the occurrence.
    have hContent : l = (text l).take p ++ (mid ++
        ((text l).drop (p + str.chars.length) ++ beyond l)) := by
      conv_lhs => rw [← text_append_beyond l, hSplit]
      simp only [append_assoc]
    have hTake : ((text l).take p).length = p := by
      rw [length_take]
      omega
    generalize (text l).take p = a at *
    generalize hRest : (text l).drop (p + str.chars.length) ++ beyond l = b at *
    have hNew : text' ++ beyond l = a ++ (new.chars ++ b) := by
      rw [← hText', ← hRest]
      simp only [append_assoc]
    have hLength : l.length = a.length + (mid.length + b.length) := by
      conv_lhs => rw [hContent]
      rw [length_append, length_append]
    have hLength' : (a ++ (new.chars ++ b)).length = a.length + new.chars.length + b.length := by
      rw [length_append, length_append]
      omega
    rw [hNew, hLength'] at hLimit
    rcases makeRoom_spec junk hHolds hContent hLimit with ⟨s₁, gap,
      rest, hRoom, hGap, hOwn, hHolds₁, hSize, hKept, hRo⟩
    have hPlace : s₁.place = .owned := hHolds₁.place
    have hWrite := Block.write_append a (b ++ rest) hGap.symm
    rw [← hOwn] at hWrite
    have hHolds₂ := hHolds₁.of_own (Block.length_write hWrite) (show a ++
      (new.chars ++ b) <+: a ++ (new.chars ++ (b ++ rest)) from ⟨rest,
      by simp only [append_assoc]⟩) (by rw [hLength']; exact hSize)
    rcases terminate_spec hHolds₂ ⟨hKept.given, hKept.written⟩ hRo with ⟨s₂, hEndWrite, hEnds⟩
    have hLen : (s.len + sizeMax - str.chars.length + new.chars.length)
        % sizeMax = a.length + new.chars.length + b.length := by
      have hLimit' : limit = sizeMax - 4096 - 1 := rfl
      rw [hHolds.len, show l.length + sizeMax -
        str.chars.length + new.chars.length =
        a.length + new.chars.length + b.length + sizeMax by
          omega, Nat.add_mod_right]
      exact Nat.mod_eq_of_lt (by omega)
    have hCopy : copy (alloc 0) s = some (s, true) := by
      unfold copy
      rw [hWhole.ro]
      rfl
    rw [hTake, hMid] at hRoom
    rw [hTake] at hWrite
    unfold replace
    rw [if_neg (Nat.succ_ne_zero n), hHolds.bytes_eq, hNth]
    dsimp only [bind_eq_bind, bind_some]
    rw [hCopy]
    dsimp only [bind_some]
    rw [if_pos rfl, hWhole.ro, if_neg Bool.false_ne_true, hLen, hJunk, hTake, hRoom]
    dsimp only [bind_some]
    rw [if_pos rfl, write_owned hPlace hWrite]
    dsimp only [bind_some]
    rw [hLength', hTake] at hEndWrite
    rw [hEndWrite, hNew]
    exact ⟨s₂, rfl, hEnds⟩

end

---
-- All Occurrences
---

/- The loop in place, behind what it has done. -/
theorem overwriteAll_spec {str new text : List Byte} (done t : List Byte) {p : Nat}
    (n : Nat) {ps : List Nat} (hStr : 0 ∉ str)
    (hNonempty : str ≠ []) (hSame : new.length = str.length) (hNoNul : 0 ∉ text)
    (hFirst : occurrences str text done.length = p :: ps)
    (fuel : Nat) (hFuel : text.length < fuel) :
    ∃ count, overwriteAll str new fuel
        (done ++ (text ++ 0 :: t)) p n =
      some (done ++ (CStr.replaceAll str new text ++ 0 :: t), count) := by
  induction fuel generalizing text done p n ps with
  | zero => exact absurd hFuel (Nat.not_lt_zero _)
  | succ fuel ih =>
    have hPos := length_pos_iff.mpr hNonempty
    have hMem : p ∈ occurrences str text done.length := hFirst ▸ mem_cons_self
    rcases mem_occurrences hMem with ⟨hLow, hHigh, hPrefix⟩
    have hEnd := hPrefix.length_le
    rw [length_drop] at hEnd
    rcases split_occurrence
      (show p - done.length + str.length ≤ text.length by
        omega) with ⟨mid, hMid, hSplit⟩
    have hAll := replaceAll_of_find new hNonempty hFirst
    have hTake : (text.take (p - done.length)).length = p - done.length := by
      rw [length_take]
      omega
    generalize text.take (p - done.length) = a at *
    generalize text.drop (p - done.length + str.length) = b at *
    have hLength : text.length = a.length + (mid.length + b.length) := by
      rw [hSplit, length_append, length_append]
    have hAt : p = (done ++ a).length := by
      rw [length_append]
      omega
    have hNext : p + new.length = (done ++ (a ++ new)).length := by
      rw [hAt]
      simp only [length_append]
      omega
    have hWrite := Block.write_append (done ++ a) (b ++ 0 :: t) (hSame.trans hMid.symm)
    have hMemory : done ++ (text ++ 0 :: t) = (done ++ a) ++ (mid ++ (b ++ 0 :: t)) := by
      rw [hSplit]
      simp only [append_assoc]
    have hMemory' : (done ++ a) ++ (new ++ (b ++ 0 :: t)) =
        (done ++ (a ++ new)) ++ (b ++ 0 :: t) := by
      simp only [append_assoc]
    have hNoNul' : 0 ∉ b := by
      intro hIn
      apply hNoNul
      rw [hSplit]
      exact mem_append_right _ (mem_append_right _ hIn)
    have hSearch : strstr ((done ++ (a ++ new)) ++ (b ++ 0 :: t))
        (p + new.length) str = some (occurrences str b (done ++ (a ++ new)).length).head? := by
      unfold strstr
      rw [hNext, drop_left]
      exact strstrFrom_text t hStr hNonempty hNoNul' _
    rw [overwriteAll, hMemory, hAt, hWrite, ← hAt, hMemory']
    dsimp only [bind_eq_bind, bind_some]
    rw [hSearch]
    dsimp only [bind_some]
    cases hFound : occurrences str b (done ++ (a ++ new)).length with
    | nil =>
      rw [replaceAll_of_nil new hFound] at hAll
      rw [hAll]
      refine ⟨n + 1, ?_⟩
      simp only [head?_nil, append_assoc]
    | cons p' ps' =>
      rcases ih _ (n + 1) hNoNul' hFound (by omega) with ⟨count, hRest⟩
      refine ⟨count, ?_⟩
      simp only [head?_cons]
      rw [hRest, hAll]
      simp only [append_assoc]

section

variable {l : List Byte} {s : Buffer}

/- The length does not matter to a buffer of its own memory. -/
theorem grow_len (memory : Memory) (n len : Nat)
    (hPlace : s.place = .owned) (hRo : s.ro = false) :
    grow memory { s with len := len } n =
      (grow memory s n).map fun r =>
        ({ r.1 with len := len }, r.2) := by
  rcases s with ⟨given, written, own, place, len₀, size, step, ro⟩
  obtain rfl : place = .owned := hPlace
  obtain rfl : ro = false := hRo
  have hStep : ∀ k, newStepOf ⟨given, written, own, .owned, len, size,
      step, false⟩ k =
      newStepOf ⟨given, written, own, .owned, len₀, size, step, false⟩
        k := fun _ => rfl
  unfold grow resize newMemory
  dsimp only
  rw [hStep]
  split
  case isTrue => rfl
  case isFalse =>
    split
    case isTrue => rfl
    case isFalse =>
      split
      case isTrue => rfl
      case isFalse =>
        cases memory with
        | none => rfl
        | some junk => rfl

/-
  What the loop keeps: `done` is in the new memory, and is what
  the old text gives up to `startTmp`.
-/
structure Replacing (l str new done : List Byte) (s : Buffer) (p : Progress) : Prop where
  holds : Holds done { p.buffer with len := done.length }
  ro : p.buffer.ro = false
  kept : Kept s p.buffer
  start : p.start = done.length
  startTmp : p.startTmp ≤ (text l).length
  len : p.len = done.length + (l.drop p.startTmp).length
  room : p.len + 1 ≤ p.buffer.size
  below : p.len < limit
  result :
    done ++ CStr.replaceAll str new ((text l).drop p.startTmp) =
      CStr.replaceAll str new (text l)

/- One round of the loop, up to the next search. -/
theorem replaceRound_spec {alloc : Alloc} {str new done : List Byte}
    {p : Progress} {posTmp : Nat} {ps : List Nat} (rest₀ : List Byte)
    (hAlloc : ∀ i, alloc i ≠ none) (hNonempty : str ≠ [])
    (hInv : Replacing l str new done s p) (hFirst : occurrences str
    ((text l).drop p.startTmp) p.startTmp = posTmp :: ps) (hLimit :
    (CStr.replaceAll str new (text l) ++ beyond l).length < limit) :
    ∃ s₁ s₂ bs, grow (alloc (p.count + 1 + 1)) p.buffer
      ((p.len + new.length + sizeMax - str.length) % sizeMax) =
        some (s₁, true) ∧
      Block.read (l ++ 0 :: rest₀) p.startTmp
        (p.start + posTmp - p.startTmp - p.start) = some bs ∧
      (s₁.write p.start bs).bind
        (fun s => s.write (p.start + posTmp - p.startTmp) new) =
          some s₂ ∧
      Replacing l str new (done ++ (bs ++ new)) s
        ⟨s₂, (p.len + new.length + sizeMax - str.length) % sizeMax,
            p.start + posTmp - p.startTmp + new.length, posTmp + str.length, p.count + 1⟩ := by
  rcases hInv with ⟨hHolds, hRo, hKept, hStart, hStartTmp, hLen, hRoom, hBelow, hResult⟩
  rcases ne_none_iff_exists'.mp (hAlloc (p.count + 1 + 1)) with ⟨junk, hJunk⟩
  have hEnd := occurrence_end hStartTmp (hFirst ▸ mem_cons_self)
  have hAll := replaceAll_of_find new hNonempty hFirst
  rw [drop_drop, show p.startTmp + (posTmp - p.startTmp +
    str.length) = posTmp + str.length by omega] at hAll
  have hTake : (((text l).drop p.startTmp).take
      (posTmp - p.startTmp)).length = posTmp - p.startTmp := by
    rw [length_take, length_drop]
    omega
  have hSegment : l ++ 0 :: rest₀ = l.take p.startTmp ++
      (((text l).drop p.startTmp).take (posTmp - p.startTmp) ++ (((text l).drop p.startTmp).drop
        (posTmp - p.startTmp) ++ (beyond l ++ 0 :: rest₀))) := by
    have hFront : l.take p.startTmp = (text l).take p.startTmp := by
      conv_lhs => rw [← text_append_beyond l]
      exact take_append_of_le_length hStartTmp
    rw [hFront, ← append_assoc (List.take _ (List.drop _ _)),
      take_append_drop, ← append_assoc, take_append_drop, ← append_assoc, text_append_beyond]
  have hTakeL : (l.take p.startTmp).length = p.startTmp := by
    have hLe : (text l).length ≤ l.length := by
      conv_rhs => rw [← text_append_beyond l]
      rw [length_append]
      omega
    rw [length_take]
    omega
  have hWhole : l.length = (text l).length + (beyond l).length := by
    conv_lhs => rw [← text_append_beyond l]
    rw [length_append]
  have hLeRest : str.length ≤ new.length →
      ((text l).drop (posTmp + str.length)).length ≤ (CStr.replaceAll str new ((text l).drop
        (posTmp + str.length))).length := fun hLe =>
    length_le_replaceFrom hNonempty hLe 0 _
  rw [length_drop] at hLen hLeRest
  have hTotal := congrArg List.length hResult
  rw [hAll] at hTotal
  simp only [length_append] at hTotal hLimit
  generalize hA : ((text l).drop p.startTmp).take (posTmp - p.startTmp) = a at *
  have hLimitIs : limit = sizeMax - 4096 - 1 := rfl
  -- The new length stays below the limit.
  have hBelow' : p.len + new.length - str.length < limit := by
    by_cases hShrinks : new.length ≤ str.length
    · omega
    · have := hLeRest (by omega)
      omega
  have hLen' : (p.len + new.length + sizeMax - str.length) %
      sizeMax = p.len + new.length - str.length := by
    rw [show p.len + new.length + sizeMax - str.length = p.len +
      new.length - str.length + sizeMax by omega, Nat.add_mod_right]
    exact Nat.mod_eq_of_lt (by omega)
  rw [hLen', hJunk]
  rcases grow_spec junk (Or.inl hHolds) hBelow' with ⟨s', hGrow, hGives, hSize, hRo'⟩
  have hPlace : p.buffer.place = .owned := hHolds.place
  rw [grow_len _ _ _ hPlace hRo, map_eq_some_iff] at hGrow
  rcases hGrow with ⟨⟨s₁, ok⟩, hGrow, hS'⟩
  obtain ⟨rfl, rfl⟩ := Prod.mk.inj hS'
  have hHolds₁ := hGives.holds
  have hPlace₁ : s₁.place = .owned := hHolds₁.place
  rcases hHolds₁.rest with ⟨rest, hOwn, hRest⟩
  dsimp only at hOwn hRest hSize
  have hWrite := Block.write_end done (show a.length ≤ rest.length by omega)
  rw [← hOwn, ← hStart] at hWrite
  have hAt : p.start + posTmp - p.startTmp = (done ++ a).length := by
    rw [length_append]
    omega
  have hWrite' := Block.write_end (done ++ a)
    (show new.length ≤ (rest.drop a.length).length by
      rw [length_drop]
      omega)
  rw [← hAt, append_assoc] at hWrite'
  have hLength : _ = s₁.own.length := (Block.length_write hWrite').trans (Block.length_write hWrite)
  have hDone : (done ++ (a ++ new)).length = done.length + (a.length + new.length) := by
    rw [length_append, length_append]
  refine ⟨s₁, { s₁ with
      own := (done ++ a) ++ (new ++
        (rest.drop a.length).drop new.length) }, a, hGrow, ?_, ?_, ?_⟩
  · rw [hSegment, show p.start + posTmp - p.startTmp - p.start =
      a.length by omega]
    have hRead := Block.read_append (l.take p.startTmp) a
      (((text l).drop p.startTmp).drop (posTmp - p.startTmp) ++ (beyond l ++ 0 :: rest₀))
    rw [hTakeL] at hRead
    exact hRead
  · have hPlace₂ : ({ s₁ with
        own := done ++ (a ++ rest.drop a.length) } :
          Buffer).place = .owned := hPlace₁
    rw [write_owned hPlace₁ hWrite]
    dsimp only [bind_some]
    rw [write_owned hPlace₂ hWrite']
  · refine ⟨hHolds₁.of_own hLength ?_ ?_, hRo' hRo, ⟨hGives.kept.given.trans hKept.given,
    hGives.kept.written.trans hKept.written⟩, ?_, ?_, ?_, ?_, hBelow', ?_⟩
    · exact ⟨(rest.drop a.length).drop new.length, by
        simp only [append_assoc]⟩
    · dsimp only
      omega
    · dsimp only
      omega
    · exact hEnd.2.2
    · dsimp only
      rw [length_drop]
      omega
    · dsimp only
      omega
    · dsimp only
      rw [← hResult, hAll]
      simp only [append_assoc]

/- The loop replaces what is left. -/
theorem replaceLoop_spec {alloc : Alloc} {str new done : List Byte}
    {p : Progress} {posTmp : Nat} {ps : List Nat} (rest₀ : List Byte)
    (hAlloc : ∀ i, alloc i ≠ none) (hStr : 0 ∉ str) (hNonempty : str ≠
    []) (hInv : Replacing l str new done s p) (hFirst : occurrences str
    ((text l).drop p.startTmp) p.startTmp = posTmp :: ps) (hLimit :
    (CStr.replaceAll str new (text l) ++ beyond l).length < limit)
    (fuel : Nat) (hFuel : ((text l).drop p.startTmp).length < fuel) :
    ∃ p' done', replaceLoop alloc (l ++ 0 :: rest₀) str new fuel posTmp
      (p.start + posTmp - p.startTmp) p = some p' ∧
      Replacing l str new done' s p' ∧ done' ++
      (text l).drop p'.startTmp = CStr.replaceAll str new (text l) := by
  induction fuel generalizing done p posTmp ps with
  | zero => exact absurd hFuel (Nat.not_lt_zero _)
  | succ fuel ih =>
    have hPos := length_pos_iff.mpr hNonempty
    have hEnd := occurrence_end hInv.startTmp (hFirst ▸ mem_cons_self)
    rcases replaceRound_spec rest₀ hAlloc hNonempty hInv hFirst hLimit with
      ⟨s₁, s₂, bs, hGrow, hRead, hWrites, hInv'⟩
    rcases bind_eq_some_iff.mp hWrites with ⟨s', hWrite, hWrite'⟩
    rcases terminated_text l rest₀ with ⟨t, hText, -⟩
    have hSearch := strstr_text t hStr hNonempty (zero_notMem_text l) hInv'.startTmp
    rw [← hText] at hSearch
    unfold replaceLoop
    dsimp only at hSearch ⊢
    rw [hGrow]
    dsimp only [bind_eq_bind, bind_some]
    rw [if_pos rfl, hRead]
    dsimp only [bind_some]
    rw [hWrite]
    dsimp only [bind_some]
    rw [hWrite']
    dsimp only [bind_some]
    rw [hSearch]
    dsimp only [bind_some]
    cases hFound : occurrences str ((text l).drop (posTmp + str.length)) (posTmp + str.length) with
    | nil =>
      refine ⟨_, _, rfl, hInv', ?_⟩
      rw [← hInv'.result]
      dsimp only
      rw [replaceAll_of_nil new hFound]
    | cons posTmp' ps' =>
      have hShorter :
          ((text l).drop (posTmp + str.length)).length <
            fuel := by
        rw [length_drop] at hFuel ⊢
        omega
      exact ih hInv' hFound hShorter

/- A text without the string is left alone. -/
theorem replaceAll_none {alloc : Alloc} {str new : CString}
    (hHolds : Holds l s) (hWhole : Whole l s) (hNonempty : str.chars ≠ [])
    (hNone : occurrences str.chars (text l) 0 = []) : replaceAll alloc s str new = some (s, 0) := by
  rcases hWhole.ended with ⟨rest₀, hOwn⟩
  rw [append_assoc, singleton_append] at hOwn
  rcases terminated_text l rest₀ with ⟨t, hText, -⟩
  have hSearch := strstr_text t str.noNul hNonempty
    (zero_notMem_text l) (Nat.zero_le (text l).length)
  rw [← hText, hOwn, drop_zero, hNone] at hSearch
  unfold replaceAll
  rw [hHolds.bytes_eq, hSearch]
  rfl

/- The replacement of all occurrences. -/
theorem replaceAll_spec {alloc : Alloc} {str new : CString} {p : Nat}
    {ps : List Nat} (hAlloc : ∀ i, alloc i ≠ none)
    (hHolds : Holds l s) (hWhole : Whole l s) (hNonempty : str.chars ≠ [])
    (hFirst : occurrences str.chars (text l) 0 = p :: ps) (hBefore : l.length < limit)
    (hLimit : (CStr.replaceAll str.chars new.chars (text l) ++
      beyond l).length < limit) :
    ∃ s' count, replaceAll alloc s str new = some (s', count) ∧
      Ends s (CStr.replaceAll str.chars new.chars (text l) ++ beyond l) s' := by
  rcases ne_none_iff_exists'.mp (hAlloc 1) with ⟨junk, hJunk⟩
  rcases hWhole.ended with ⟨rest₀, hOwn⟩
  rw [append_assoc, singleton_append] at hOwn
  rcases terminated_text l rest₀ with ⟨t, hText, hBeyond⟩
  have hMem : p ∈ occurrences str.chars ((text l).drop 0) 0 := by
    rw [drop_zero, hFirst]
    exact mem_cons_self
  have hEnd := occurrence_end (Nat.zero_le (text l).length) hMem
  have hSearch := strstr_text t str.noNul hNonempty
    (zero_notMem_text l) (Nat.zero_le (text l).length)
  rw [← hText, hOwn, drop_zero, hFirst] at hSearch
  have hAt : s.own[p]? = some (text l)[p] := by
    rw [← hOwn, hText, getElem?_append_left hEnd.2.1, getElem?_eq_getElem hEnd.2.1]
  have hNe : (text l)[p] ≠ 0 := by
    intro hZero
    exact zero_notMem_text l (hZero ▸ getElem_mem hEnd.2.1)
  have hCopy : copy (alloc 0) s = some (s, true) := by
    unfold copy
    rw [hWhole.ro]
    rfl
  have hNotRo : ¬ s.ro = true := by
    rw [hWhole.ro]
    exact Bool.false_ne_true
  unfold replaceAll
  rw [hHolds.bytes_eq, hSearch]
  dsimp only [bind_eq_bind, bind_some, head?_cons]
  rw [hAt]
  dsimp only [bind_some]
  rw [if_neg hNe, hCopy]
  dsimp only [bind_some]
  rw [if_pos rfl]
  split
  case isTrue hSame =>
    have hFuel : (text l).length < s.own.length + 1 := by
      rw [← hOwn, hText, length_append]
      omega
    rcases overwriteAll_spec [] t 0 str.noNul hNonempty hSame.symm (zero_notMem_text l) hFirst
      (s.own.length + 1) hFuel with ⟨count, hLoop⟩
    rw [nil_append, nil_append, ← hText, hOwn] at hLoop
    have hKeep := length_replaceFrom hNonempty hSame.symm (Nat.zero_le (text l).length)
    change (CStr.replaceAll str.chars new.chars (text l)).length + 0 = _ at hKeep
    have hLength : (CStr.replaceAll str.chars new.chars (text l) ++
        beyond l).length = l.length := by
      conv_rhs => rw [← text_append_beyond l]
      rw [length_append, length_append]
      omega
    have hMemory : CStr.replaceAll str.chars new.chars (text l) ++
        0 :: t = (CStr.replaceAll str.chars new.chars (text l) ++ beyond l) ++ 0 :: rest₀ := by
      rw [append_assoc, hBeyond]
    rw [hMemory] at hLoop
    have hSame' : ((CStr.replaceAll str.chars new.chars (text l) ++
        beyond l) ++ 0 :: rest₀).length = s.own.length := by
      rw [← hOwn, length_append, hLength, length_append]
    rw [hLoop]
    dsimp only [bind_some]
    rw [setBytes_owned _ hHolds.place]
    refine ⟨_, count, rfl, ⟨hHolds.place, ?_, ?_, ?_, ?_,
      hHolds.step_pos, hHolds.step_le⟩, ⟨rfl, rfl⟩, ?_, id⟩
    · rw [hLength]
      exact hHolds.len
    · exact prefix_append _ _
    · rw [hLength]
      exact hHolds.room
    · exact hSame' ▸ hHolds.size_le
    · exact ⟨rest₀, by simp⟩
  case isFalse hDiffer =>
    have hRoom := hHolds.room
    have hStart : Replacing l str.chars new.chars [] s ⟨{ s with
            own := Block.fresh junk s.size
            place := .owned }, s.len, 0, 0, 0⟩ := by
      refine ⟨⟨rfl, rfl, List.nil_prefix, ?_,
        (Block.length_fresh _ _).ge, hHolds.step_pos, hHolds.step_le⟩,
        hWhole.ro, ⟨rfl, rfl⟩, rfl, Nat.zero_le _, ?_, ?_, ?_, rfl⟩
      · exact show 0 + 1 ≤ s.size by omega
      · exact hHolds.len.trans (Nat.zero_add _).symm
      · exact show s.len + 1 ≤ s.size from hHolds.len ▸ hHolds.room
      · exact show s.len < limit from hHolds.len ▸ hBefore
    have hFuel : ((text l).drop 0).length < s.own.length + 1 := by
      rw [← hOwn, hText, drop_zero, length_append]
      omega
    rcases replaceLoop_spec rest₀ hAlloc str.noNul hNonempty
      hStart hFirst hLimit (s.own.length + 1) hFuel with ⟨p', done, hLoop, hInv, hResult⟩
    rcases hInv with ⟨hHolds', hRo', hKept', hStart', hTmp, hLen, hSize, -, -⟩
    dsimp only at hLoop
    rw [show 0 + p - 0 = p by omega, hOwn] at hLoop
    have hPlace' : p'.buffer.place = .owned := hHolds'.place
    rcases hHolds'.rest with ⟨rest, hOwn', hRest⟩
    dsimp only at hOwn' hRest
    have hTake : (l.take p'.startTmp).length = p'.startTmp := by
      have hLe : (text l).length ≤ l.length := by
        conv_rhs => rw [← text_append_beyond l]
        rw [length_append]
        omega
      rw [length_take]
      omega
    have hRead := Block.read_append (l.take p'.startTmp) (l.drop p'.startTmp) (0 :: rest₀)
    rw [← append_assoc, take_append_drop, hOwn, hTake,
      show (l.drop p'.startTmp).length = p'.len - p'.start by
        omega] at hRead
    have hWrite := Block.write_end done (show (l.drop p'.startTmp).length ≤ rest.length by omega)
    rw [← hOwn', ← hStart'] at hWrite
    have hContent : done ++ l.drop p'.startTmp =
        CStr.replaceAll str.chars new.chars (text l) ++ beyond l := by
      have hDrop : l.drop p'.startTmp = (text l).drop p'.startTmp ++ beyond l := by
        conv_lhs => rw [← text_append_beyond l]
        exact drop_append_of_le_length hTmp
      rw [hDrop, ← append_assoc, hResult]
    have hFinal : p'.len = (done ++ l.drop p'.startTmp).length := by
      rw [length_append]
      exact hLen
    have hHolds₂ := hHolds'.of_own (Block.length_write hWrite)
      (show done ++ l.drop p'.startTmp <+: done ++
      (l.drop p'.startTmp ++ rest.drop (l.drop p'.startTmp).length) from
      ⟨rest.drop (l.drop p'.startTmp).length, by
          simp only [append_assoc]⟩)
      (by rw [← hFinal]; exact hSize)
    rcases terminate_spec hHolds₂ ⟨hKept'.given, hKept'.written⟩
      (fun _ => hRo') with ⟨s₂, hEndWrite, hEnds⟩
    rw [hJunk]
    dsimp only
    rw [hLoop]
    dsimp only [bind_some]
    rw [hRead]
    dsimp only [bind_some]
    rw [write_owned hPlace' hWrite]
    dsimp only [bind_some]
    dsimp only at hEndWrite
    rw [← hFinal] at hEndWrite
    rw [hEndWrite, ← hContent]
    exact ⟨s₂, p'.count, rfl, hEnds⟩

end

end Efl.Strbuf
