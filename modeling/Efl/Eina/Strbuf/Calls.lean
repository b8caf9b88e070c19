import Efl.Eina.Strbuf.Replace

/-
  The calls on a buffer, and what they do to a list of bytes.

  The search strings, the lower case and the substrings are for
  text: `View` tells what of a list they see.

  Main declarations:
    * `Call`, `Call.run`
    * `View`, `Call.apply`
    * `call_spec`
-/

---
-- Calls
---

namespace Efl.Strbuf

open Bytes CStr List Option

inductive Call where
  | append (str : CString)
  | appendN (str : CString) (maxlen : Nat)
  | appendLength (str : List Byte)
  | appendSlice (slice : List Byte)
  | appendChar (c : Byte)
  | insert (str : CString) (pos : Nat)
  | insertN (str : CString) (maxlen pos : Nat)
  | insertLength (str : List Byte) (pos : Nat)
  | insertSlice (slice : List Byte) (pos : Nat)
  | insertChar (c : Byte) (pos : Nat)
  | remove (start stop : Nat)
  | replace (str new : CString) (n : Nat)
  | replaceAll (str new : CString)
  | trim
  | ltrim
  | rtrim
  | tolower
  | reset

/- The buffer after the call. -/
def Call.run (alloc : Alloc) (s : Buffer) : Call → Option Buffer
  | .append str => (Strbuf.append (alloc 0) s str).map Prod.fst
  | .appendN str maxlen =>
    (Strbuf.appendN (alloc 0) s str maxlen).map Prod.fst
  | .appendLength str =>
    (Strbuf.appendLength (alloc 0) s str).map Prod.fst
  | .appendSlice slice =>
    (Strbuf.appendSlice (alloc 0) s slice).map Prod.fst
  | .appendChar c => (Strbuf.appendChar (alloc 0) s c).map Prod.fst
  | .insert str pos => (Strbuf.insert (alloc 0) s str pos).map Prod.fst
  | .insertN str maxlen pos =>
    (Strbuf.insertN (alloc 0) s str maxlen pos).map Prod.fst
  | .insertLength str pos =>
    (Strbuf.insertLength (alloc 0) s str pos).map Prod.fst
  | .insertSlice slice pos =>
    (Strbuf.insertSlice (alloc 0) s slice pos).map Prod.fst
  | .insertChar c pos =>
    (Strbuf.insertChar (alloc 0) s c pos).map Prod.fst
  | .remove start stop =>
    (Strbuf.remove alloc s start stop).map Prod.fst
  | .replace str new n =>
    (Strbuf.replace alloc s str new n).map Prod.fst
  | .replaceAll str new =>
    (Strbuf.replaceAll alloc s str new).map Prod.fst
  | .trim => Strbuf.trim s
  | .ltrim => Strbuf.ltrim s
  | .rtrim => Strbuf.rtrim s
  | .tolower => Strbuf.tolower s
  | .reset => Strbuf.reset (alloc 0) s

/- What calls for text see of a list, and what is behind it. -/
structure View where
  seen : List Byte → List Byte
  unseen : List Byte → List Byte

/- They see all bytes. -/
def View.whole : View :=
  ⟨id, fun _ => []⟩

/- They see the bytes before the first NUL. -/
def View.textual : View :=
  ⟨text, beyond⟩

/- `bs` in a list of bytes, at `pos` or at its end -/
def insertBytes (l bs : List Byte) (pos : Nat) : List Byte :=
  l.take pos ++ (bs ++ l.drop pos)

/- The list of bytes after the call. -/
def Call.apply (view : View) (l : List Byte) : Call → List Byte
  | .append str => l ++ str.chars
  | .appendN str maxlen => l ++ str.chars.take maxlen
  | .appendLength str => l ++ str
  | .appendSlice slice => l ++ slice
  | .appendChar c => l ++ [c]
  | .insert str pos => insertBytes l str.chars pos
  | .insertN str maxlen pos => insertBytes l (str.chars.take maxlen) pos
  | .insertLength str pos => insertBytes l str pos
  | .insertSlice slice pos => insertBytes l slice pos
  | .insertChar c pos => insertBytes l [c] pos
  | .remove start stop => l.take start ++ l.drop (max start stop)
  | .replace str new n =>
    match replaceNth str.chars new.chars n (view.seen l) with
    | none => l
    | some text => text ++ view.unseen l
  | .replaceAll str new =>
    CStr.replaceAll str.chars new.chars (view.seen l) ++
      view.unseen l
  | .trim => (l.rdropWhile isSpace).dropWhile isSpace
  | .ltrim => l.dropWhile isSpace
  | .rtrim => l.rdropWhile isSpace
  | .tolower => (view.seen l).map lower ++ view.unseen l
  | .reset => []

/- The strings that are searched for are not empty. -/
def Call.Searchable : Call → Prop
  | .replace str _ _ => str.chars ≠ []
  | .replaceAll str _ => str.chars ≠ []
  | _ => True

/- The bytes that a call adds. -/
def Call.added : Call → Option (List Byte)
  | .append str => some str.chars
  | .appendN str maxlen => some (str.chars.take maxlen)
  | .appendLength str => some str
  | .appendSlice slice => some slice
  | .appendChar c => some [c]
  | .insert str _ => some str.chars
  | .insertN str maxlen _ => some (str.chars.take maxlen)
  | .insertLength str _ => some str
  | .insertSlice slice _ => some slice
  | .insertChar c _ => some [c]
  | _ => none

/- The buffer has memory of its own. -/
def Buffer.Owned (s : Buffer) : Prop :=
  s.place = .owned

/- There is a NUL behind the content. -/
def Buffer.Terminated (s : Buffer) : Prop :=
  s.bytes[s.len]? = some 0

/-
  When a call does what it should: bytes are changed in memory
  of the buffer; there the text ends with the content, and a
  position of the text is still one after the copy; or nothing
  is found to change.
-/
def Safe (s : Buffer) : Call → Prop
  | .replace str _ n =>
    s.Owned ∧ s.Terminated ∧ s.ro = false ∨
      n = 0 ∨ findNth s.bytes str.chars n 0 = some none
  | .replaceAll str _ =>
    s.Owned ∧ s.Terminated ∧ s.ro = false ∨
      strstr s.bytes 0 str.chars = some none
  | .trim => s.Owned
  | .ltrim => s.Owned
  | .rtrim => s.Owned
  | .tolower => s.Owned ∧ s.Terminated ∨ strlen s.bytes = some 0
  | .remove _ _ => True
  | .reset => True
  | call => s.Owned ∨ call.added ≠ some []

---
-- Searches That Find Nothing
---

theorem zero_mem_of_findNth {m str : List Byte} {n pos : Nat}
    (hNone : findNth m str n pos = some none) : 0 ∈ m := by
  induction n generalizing pos with
  | zero => exact nomatch hNone
  | succ n ih =>
    rw [findNth, bind_eq_bind, bind_eq_some_iff] at hNone
    rcases hNone with ⟨found, hSearch, hNone⟩
    cases found with
    | none => exact mem_of_mem_drop (zero_mem_of_strstrFrom hSearch)
    | some p =>
      dsimp only at hNone
      rw [bind_eq_bind, bind_eq_some_iff] at hNone
      rcases hNone with ⟨c, hAt, hNone⟩
      split at hNone
      case isTrue hZero => exact hZero ▸ mem_of_getElem? hAt
      case isFalse => exact ih hNone

/- The text of the content has not so many occurrences. -/
theorem replaceNth_of_findNth {l m str : List Byte} {n : Nat}
    (new : List Byte) (hContent : l <+: m) (hStr : 0 ∉ str) (hNonempty : str ≠ [])
    (hNone : n = 0 ∨ findNth m str n 0 = some none) : replaceNth str new n (text l) = none := by
  cases n with
  | zero => rfl
  | succ n =>
    have hNone := hNone.resolve_left (Nat.succ_ne_zero n)
    rcases text_of_zero_mem (zero_mem_of_findNth hNone) with ⟨t, hText⟩
    rw [hText, findNth_spec t hStr hNonempty (zero_notMem_text m)
      (Nat.zero_le (text m).length), drop_zero] at hNone
    have hPrefix : occurrences str (text l) 0 <+: occurrences str (text m) 0 :=
      occurrences_prefix (text_start hContent) 0
    have hLe := hPrefix.length_le
    have hBeyond := List.getElem?_eq_none_iff.mp (some.inj hNone)
    rw [replaceNth, getElem?_eq_none]
    · rfl
    · exact hLe.trans hBeyond

theorem replaceAll_of_strstr {l m str : List Byte} (new : List Byte)
    (hContent : l <+: m) (hStr : 0 ∉ str) (hNonempty : str ≠ [])
    (hNone : strstr m 0 str = some none) : CStr.replaceAll str new (text l) = text l := by
  rcases text_of_zero_mem (mem_of_mem_drop (zero_mem_of_strstrFrom hNone)) with ⟨t, hText⟩
  rw [hText, strstr_text t hStr hNonempty (zero_notMem_text m)
    (Nat.zero_le (text m).length), drop_zero] at hNone
  have hEmpty := head?_eq_none_iff.mp (some.inj hNone)
  have hPrefix : occurrences str (text l) 0 <+: occurrences str (text m) 0 :=
    occurrences_prefix (text_start hContent) 0
  rw [hEmpty, prefix_nil] at hPrefix
  exact replaceAll_of_nil new hPrefix

---
-- One Call
---

/- The content of the buffer, wherever it is. -/
def Stands (l : List Byte) (s : Buffer) : Prop :=
  Holds l s ∨ Borrowed l s

/- The outcome of a call. -/
structure Leaves (s : Buffer) (l l' : List Byte) (s' : Buffer) : Prop where
  stands : Stands l' s'
  kept : Kept s s'
  whole : Holds l s ∧ Whole l s → Holds l' s' ∧ Whole l' s'

section

variable {l l' : List Byte} {s s' : Buffer}

theorem Gives.leaves (hGives : Gives s l l' s') : Leaves s l l' s' :=
  ⟨Or.inl hGives.holds, hGives.kept, fun hBoth =>
    ⟨hGives.holds, hGives.whole hBoth.2⟩⟩

section

variable (hStands : Stands l s)

include hStands

theorem Leaves.refl : Leaves s l l s := ⟨hStands, .refl s, id⟩

theorem Stands.len : s.len = l.length := by
  rcases hStands with hHolds | hBorrowed
  · exact hHolds.len
  · exact hBorrowed.len

theorem Stands.content : l <+: s.bytes := by
  rcases hStands with hHolds | hBorrowed
  · rw [hHolds.bytes_eq]
    exact hHolds.content
  · unfold Buffer.bytes
    rw [hBorrowed.place]
    exact hBorrowed.content

theorem Stands.holds (hOwned : s.Owned) : Holds l s := by
  rcases hStands with hHolds | hBorrowed
  · exact hHolds
  · exact nomatch hOwned.symm.trans hBorrowed.place

end

/- The NUL of a terminated content. -/
theorem Holds.ended (hHolds : Holds l s) (hTerminated : s.Terminated) : l ++ [0] <+: s.own := by
  rcases hHolds.rest with ⟨rest, hOwn, -⟩
  unfold Buffer.Terminated at hTerminated
  rw [hHolds.bytes_eq, hOwn, hHolds.len, getElem?_append_right le_rfl, Nat.sub_self] at hTerminated
  cases rest with
  | nil => exact nomatch hTerminated
  | cons r rest =>
    obtain rfl : r = 0 := some.inj hTerminated
    exact ⟨rest, by rw [hOwn]; simp⟩

theorem Holds.terminated (hHolds : Holds l s) (hEnded : l ++ [0] <+: s.own) : s.Terminated := by
  rcases hEnded with ⟨rest, hOwn⟩
  unfold Buffer.Terminated
  rw [hHolds.bytes_eq, hHolds.len, ← hOwn, append_assoc, getElem?_append_right le_rfl, Nat.sub_self]
  rfl

/- Bytes are written, or the memory is of the buffer. -/
theorem Stands.more {str : List Byte} (hStands : Stands l s)
    (hSafe : s.Owned ∨ some str ≠ some []) : Holds l s ∨ Borrowed l s ∧ 0 < str.length := by
  rcases hSafe with hOwned | hSome
  · exact Or.inl (hStands.holds hOwned)
  · refine hStands.imp_right fun hBorrowed => ⟨hBorrowed, ?_⟩
    rw [length_pos_iff]
    rintro rfl
    exact hSome rfl

theorem insertBytes_end {bs : List Byte} {pos : Nat}
    (hEnd : l.length ≤ pos) : insertBytes l bs pos = l ++ bs := by
  unfold insertBytes
  rw [take_of_length_le hEnd, drop_of_length_le hEnd, append_nil]

theorem length_insertBytes (l bs : List Byte) (pos : Nat) :
    (insertBytes l bs pos).length = l.length + bs.length := by
  unfold insertBytes
  rw [length_append, length_append, length_take, length_drop]
  omega

theorem insertLength_spec (junk : Nat → Byte) (str : List Byte) (pos : Nat)
    (hStands : Stands l s) (hSafe : s.Owned ∨ some str ≠ some [])
    (hLimit : (insertBytes l str pos).length < limit) :
    ∃ s', insertLength (some junk) s str pos =
        some (s', true) ∧
      Leaves s l (insertBytes l str pos) s' := by
  rw [length_insertBytes] at hLimit
  unfold insertLength
  rw [hStands.len]
  split
  case isTrue hEnd =>
    rw [insertBytes_end hEnd]
    rcases appendLength_spec junk str (hStands.more hSafe) hLimit with ⟨s', hAppend, hEnds⟩
    exact ⟨s', hAppend, hEnds.gives.leaves⟩
  case isFalse hInside =>
    rcases insertAt_spec junk str (hStands.more hSafe)
      (show pos ≤ l.length by omega) hLimit with ⟨s', hInsert, hEnds⟩
    exact ⟨s', hInsert, hEnds.gives.leaves⟩

theorem insert_spec (junk : Nat → Byte) (str : CString) (pos : Nat)
    (hStands : Stands l s) (hSafe : s.Owned ∨ some str.chars ≠ some [])
    (hLimit : (insertBytes l str.chars pos).length < limit) :
    ∃ s', insert (some junk) s str pos = some (s', true) ∧
      Leaves s l (insertBytes l str.chars pos) s' := by
  rw [length_insertBytes] at hLimit
  unfold insert
  rw [hStands.len]
  split
  case isTrue hEnd =>
    rw [insertBytes_end hEnd]
    rcases append_spec junk str (hStands.more hSafe) hLimit with ⟨s', hAppend, hEnds⟩
    exact ⟨s', hAppend, hEnds.gives.leaves⟩
  case isFalse hInside =>
    rcases insertAt_spec junk str.chars (hStands.more hSafe)
      (show pos ≤ l.length by omega) hLimit with ⟨s', hInsert, hEnds⟩
    exact ⟨s', hInsert, hEnds.gives.leaves⟩

theorem appendLength_leaves (junk : Nat → Byte) (str : List Byte)
    (hStands : Stands l s) (hSafe : s.Owned ∨ some str ≠ some [])
    (hLimit : (l ++ str).length < limit) :
    ∃ s', appendLength (some junk) s str = some (s', true) ∧ Leaves s l (l ++ str) s' := by
  rw [length_append] at hLimit
  rcases appendLength_spec junk str (hStands.more hSafe) hLimit with ⟨s', hAppend, hEnds⟩
  exact ⟨s', hAppend, hEnds.gives.leaves⟩

theorem replace_leaves {alloc : Alloc} {str new : CString} {n : Nat}
    (hAlloc : ∀ i, alloc i ≠ none) (hStands : Stands l s) (hNonempty :
    str.chars ≠ []) (hSafe : Safe s (.replace str new n)) (hLimit :
    ((Call.replace str new n).apply .textual l).length < limit) :
    ∃ s' ok, replace alloc s str new n = some (s', ok) ∧
      Leaves s l ((Call.replace str new n).apply .textual l)
        s' := by
  rcases hSafe with ⟨hOwned, hTerminated, hRo⟩ | hNone
  · have hHolds := hStands.holds hOwned
    have hWhole : Whole l s := ⟨hRo, hHolds.ended hTerminated⟩
    cases hReplace : replaceNth str.chars new.chars n (text l) with
    | some text' =>
      have hApply : (Call.replace str new n).apply .textual l = text' ++ beyond l := by
        simp only [Call.apply, View.textual, hReplace]
      rw [hApply] at hLimit ⊢
      rcases replace_spec hAlloc hHolds hWhole hNonempty hReplace hLimit with ⟨s', hRun, hEnds⟩
      exact ⟨s', true, hRun, hEnds.gives.leaves⟩
    | none =>
      have hApply : (Call.replace str new n).apply .textual l =
          l := by
        simp only [Call.apply, View.textual, hReplace]
      rw [hApply]
      refine ⟨s, false, ?_, .refl hStands⟩
      cases n with
      | zero => rfl
      | succ n =>
        rcases hWhole.ended with ⟨rest, hOwn⟩
        rw [append_assoc, singleton_append] at hOwn
        rcases terminated_text l rest with ⟨t, hText, -⟩
        have hFind := findNth_spec t str.noNul hNonempty
          (zero_notMem_text l) (Nat.zero_le (text l).length) n
        rw [← hText, hOwn, drop_zero, map_eq_none_iff.mp hReplace] at hFind
        unfold replace
        rw [if_neg (Nat.succ_ne_zero n), hHolds.bytes_eq, hFind]
        rfl
  · have hReplace := replaceNth_of_findNth new.chars hStands.content str.noNul hNonempty hNone
    have hApply : (Call.replace str new n).apply .textual l =
        l := by
      simp only [Call.apply, View.textual, hReplace]
    rw [hApply]
    refine ⟨s, false, ?_, .refl hStands⟩
    unfold replace
    split
    case isTrue => rfl
    case isFalse hPos =>
      rw [hNone.resolve_left hPos]
      rfl

theorem replaceAll_leaves {alloc : Alloc} {str new : CString}
    (hAlloc : ∀ i, alloc i ≠ none) (hStands : Stands l s)
    (hBelow : l.length < limit) (hNonempty : str.chars ≠ [])
    (hSafe : Safe s (.replaceAll str new)) (hLimit :
    ((Call.replaceAll str new).apply .textual l).length < limit) :
    ∃ s' count, replaceAll alloc s str new = some (s', count) ∧
      Leaves s l ((Call.replaceAll str new).apply .textual l)
        s' := by
  have hSame : CStr.replaceAll str.chars new.chars (text l) = text l →
      (Call.replaceAll str new).apply .textual l = l := by
    intro hText
    change CStr.replaceAll _ _ (text l) ++ beyond l = l
    rw [hText, text_append_beyond]
  rcases hSafe with ⟨hOwned, hTerminated, hRo⟩ | hNone
  · have hHolds := hStands.holds hOwned
    have hWhole : Whole l s := ⟨hRo, hHolds.ended hTerminated⟩
    cases hFirst : occurrences str.chars (text l) 0 with
    | nil =>
      rw [hSame (replaceAll_of_nil new.chars hFirst)]
      exact ⟨s, 0, replaceAll_none hHolds hWhole hNonempty hFirst, .refl hStands⟩
    | cons p ps =>
      rcases replaceAll_spec hAlloc hHolds hWhole hNonempty
        hFirst hBelow hLimit with ⟨s', count, hRun, hEnds⟩
      exact ⟨s', count, hRun, hEnds.gives.leaves⟩
  · rw [hSame (replaceAll_of_strstr new.chars hStands.content str.noNul hNonempty hNone)]
    refine ⟨s, 0, ?_, .refl hStands⟩
    unfold replaceAll
    rw [hNone]
    rfl

theorem tolower_leaves (hStands : Stands l s)
    (hSafe : Safe s .tolower) :
    ∃ s', tolower s = some s' ∧ Leaves s l ((text l).map lower ++ beyond l) s' := by
  rcases hSafe with ⟨hOwned, hTerminated⟩ | hZero
  · have hHolds := hStands.holds hOwned
    rcases tolower_spec hHolds (hHolds.ended hTerminated) with ⟨s', hRun, hEnds⟩
    exact ⟨s', hRun, hEnds.gives.leaves⟩
  · have hBytes : ∃ t, s.bytes = 0 :: t := by
      cases hMemory : s.bytes with
      | nil =>
        rw [hMemory] at hZero
        exact nomatch hZero
      | cons c cs =>
        rw [hMemory, strlen] at hZero
        split at hZero
        case isTrue hIs => exact ⟨cs, by rw [hIs]⟩
        case isFalse =>
          rw [map_eq_some_iff] at hZero
          rcases hZero with ⟨n, -, hSucc⟩
          exact nomatch hSucc
    rcases hBytes with ⟨t, hBytes⟩
    have hText : text l = [] := by
      cases l with
      | nil => rfl
      | cons c cs =>
        have hContent := hStands.content
        rw [hBytes, cons_prefix_cons] at hContent
        rw [text_cons, if_pos hContent.1]
    have hSame : (text l).map lower ++ beyond l = l := by
      rw [hText, map_nil]
      conv_rhs => rw [← text_append_beyond l, hText]
    rw [hSame]
    refine ⟨s, ?_, .refl hStands⟩
    unfold tolower
    rw [hZero, hBytes]
    split <;> rfl

theorem remove_leaves {alloc : Alloc} {start stop : Nat}
    (hAlloc : ∀ i, alloc i ≠ none) (hStands : Stands l s)
    (hBelow : l.length < limit) :
    ∃ s', remove alloc s start stop = some (s', true) ∧
      Leaves s l (l.take start ++ l.drop (max start stop)) s' := by
  by_cases hSome : start < min stop l.length
  · rcases remove_spec hAlloc hStands hSome hBelow with ⟨s', hRemove, hGives⟩
    exact ⟨s', hRemove, hGives.leaves⟩
  · rcases remove_nothing hStands (Nat.not_lt.mp hSome) with ⟨hRemove, hSame⟩
    rw [hSame]
    exact ⟨s, hRemove, .refl hStands⟩

/- A safe call does to the content what it does to the list. -/
theorem call_spec {alloc : Alloc} {call : Call}
    (hAlloc : ∀ i, alloc i ≠ none) (hStands : Stands l s)
    (hBelow : l.length < limit) (hSearchable : call.Searchable) (hSafe : Safe s call)
    (hLimit : (call.apply .textual l).length < limit) :
    ∃ s', call.run alloc s = some s' ∧ Leaves s l (call.apply .textual l) s' := by
  rcases ne_none_iff_exists'.mp (hAlloc 0) with ⟨junk, hJunk⟩
  -- The flag that is returned does not matter.
  have hFirst : ∀ {β : Type} {run : Option (Buffer × β)} {l'' : List Byte},
      (∃ s' b, run = some (s', b) ∧ Leaves s l l'' s') →
      ∃ s', run.map Prod.fst = some s' ∧ Leaves s l l'' s' := by
    rintro β run l'' ⟨s', b, rfl, hLeaves⟩
    exact ⟨s', rfl, hLeaves⟩
  cases call with
  | append str =>
    rcases append_spec junk str (hStands.more hSafe) (length_append ▸ hLimit) with ⟨s', hRun, hEnds⟩
    exact hFirst ⟨s', true, by rw [hJunk, hRun], hEnds.gives.leaves⟩
  | appendN str maxlen =>
    rcases appendLength_leaves junk (str.chars.take maxlen)
      hStands hSafe hLimit with ⟨s', hRun, hLeaves⟩
    exact hFirst ⟨s', true, by rw [hJunk]; exact hRun, hLeaves⟩
  | appendLength str =>
    rcases appendLength_leaves junk str hStands hSafe hLimit with ⟨s', hRun, hLeaves⟩
    exact hFirst ⟨s', true, by rw [hJunk, hRun], hLeaves⟩
  | appendSlice slice =>
    rcases appendLength_leaves junk slice hStands hSafe hLimit with ⟨s', hRun, hLeaves⟩
    exact hFirst ⟨s', true, by rw [hJunk]; exact hRun, hLeaves⟩
  | appendChar c =>
    rcases appendLength_leaves junk [c] hStands hSafe hLimit with ⟨s', hRun, hLeaves⟩
    exact hFirst ⟨s', true, by rw [hJunk]; exact hRun, hLeaves⟩
  | insert str pos =>
    rcases insert_spec junk str pos hStands hSafe hLimit with ⟨s', hRun, hLeaves⟩
    exact hFirst ⟨s', true, by rw [hJunk, hRun], hLeaves⟩
  | insertN str maxlen pos =>
    rcases insertLength_spec junk (str.chars.take maxlen) pos
      hStands hSafe hLimit with ⟨s', hRun, hLeaves⟩
    exact hFirst ⟨s', true, by rw [hJunk]; exact hRun, hLeaves⟩
  | insertLength str pos =>
    rcases insertLength_spec junk str pos hStands hSafe hLimit with ⟨s', hRun, hLeaves⟩
    exact hFirst ⟨s', true, by rw [hJunk, hRun], hLeaves⟩
  | insertSlice slice pos =>
    rcases insertLength_spec junk slice pos hStands hSafe hLimit with ⟨s', hRun, hLeaves⟩
    exact hFirst ⟨s', true, by rw [hJunk]; exact hRun, hLeaves⟩
  | insertChar c pos =>
    rcases insertLength_spec junk [c] pos hStands hSafe hLimit with ⟨s', hRun, hLeaves⟩
    exact hFirst ⟨s', true, by rw [hJunk]; exact hRun, hLeaves⟩
  | remove start stop =>
    rcases remove_leaves hAlloc hStands hBelow with ⟨s', hRun, hLeaves⟩
    exact hFirst ⟨s', true, hRun, hLeaves⟩
  | replace str new n =>
    rcases replace_leaves hAlloc hStands hSearchable hSafe hLimit with ⟨s', ok, hRun, hLeaves⟩
    exact hFirst ⟨s', ok, hRun, hLeaves⟩
  | replaceAll str new =>
    rcases replaceAll_leaves hAlloc hStands hBelow hSearchable
      hSafe hLimit with ⟨s', count, hRun, hLeaves⟩
    exact hFirst ⟨s', count, hRun, hLeaves⟩
  | trim =>
    rcases trim_spec (hStands.holds hSafe) with ⟨s', hRun, hEnds⟩
    exact ⟨s', hRun, hEnds.gives.leaves⟩
  | ltrim =>
    rcases ltrim_spec (hStands.holds hSafe) with ⟨s', hRun, hEnds⟩
    exact ⟨s', hRun, hEnds.gives.leaves⟩
  | rtrim =>
    rcases rtrim_spec (hStands.holds hSafe) with ⟨s', hRun, hEnds⟩
    exact ⟨s', hRun, hEnds.gives.leaves⟩
  | tolower => exact tolower_leaves hStands hSafe
  | reset =>
    rcases reset_spec junk hStands with ⟨s', hRun, hEnds⟩
    refine ⟨s', ?_, hEnds.gives.leaves⟩
    change reset (alloc 0) s = some s'
    rw [hJunk, hRun]

/- All calls are safe for a buffer that is whole. -/
theorem safe_of_whole (hHolds : Holds l s) (hWhole : Whole l s) (call : Call) : Safe s call := by
  have hTerminated := hHolds.terminated hWhole.ended
  have hOwned : s.Owned := hHolds.place
  cases call with
  | replace str new n => exact Or.inl ⟨hOwned, hTerminated, hWhole.ro⟩
  | replaceAll str new => exact Or.inl ⟨hOwned, hTerminated, hWhole.ro⟩
  | trim => exact hOwned
  | ltrim => exact hOwned
  | rtrim => exact hOwned
  | tolower => exact Or.inl ⟨hOwned, hTerminated⟩
  | remove start stop => trivial
  | reset => trivial
  | append str => exact Or.inl hOwned
  | appendN str maxlen => exact Or.inl hOwned
  | appendLength str => exact Or.inl hOwned
  | appendSlice slice => exact Or.inl hOwned
  | appendChar c => exact Or.inl hOwned
  | insert str pos => exact Or.inl hOwned
  | insertN str maxlen pos => exact Or.inl hOwned
  | insertLength str pos => exact Or.inl hOwned
  | insertSlice slice pos => exact Or.inl hOwned
  | insertChar c pos => exact Or.inl hOwned

end

end Efl.Strbuf
