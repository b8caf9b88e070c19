import Efl.Eina.Strbuf.Calls
import Efl.Lib.Lists
import Efl.Lib.Runs

/-
  Runs of calls on string buffers.

  Main declarations:
    * `State`, `Op`, `step`, for buffers of their own memory
    * `Session`, `sessionStep`, for one read-only buffer
    * `contents_correct`
    * `given_kept`
-/

---
-- Substrings
---

namespace Efl.Strbuf

open Bytes CStr List Option

theorem strncpy_spec (before part rest : List Byte) :
    ∃ zeros : List Byte, (∀ b ∈ zeros, b = 0) ∧
      (text part ++ zeros).length = part.length ∧ strncpy (before ++ (part ++ rest)) before.length
        part.length = some (text part ++ zeros) := by
  induction part generalizing before with
  | nil =>
    refine ⟨[], fun b hMem => ?_, rfl, rfl⟩
    exact nomatch hMem
  | cons c cs ih =>
    have hAt : (before ++ (c :: cs ++ rest))[before.length]? = some c := by
      rw [getElem?_append_right le_rfl, Nat.sub_self]
      rfl
    rw [length_cons, strncpy, hAt, text_cons, bind_eq_bind, bind_some]
    by_cases hZero : c = 0
    · rw [if_pos hZero, if_pos hZero]
      exact ⟨List.replicate (cs.length + 1) 0, fun b hMem =>
        eq_of_mem_replicate hMem, length_replicate, rfl⟩
    · rcases ih (before ++ [c]) with ⟨zeros, hZeros, hLength, hCopy⟩
      rw [append_assoc, length_append, length_singleton] at hCopy
      rw [if_neg hZero, if_neg hZero]
      refine ⟨zeros, hZeros, ?_, ?_⟩
      · rw [cons_append, length_cons, hLength]
      · change (strncpy (before ++ ([c] ++ (cs ++ rest))) (before.length + 1) cs.length).bind _ = _
        rw [hCopy]
        rfl

/- The substring is a buffer of its own memory. -/
theorem substrGet_spec {alloc : Alloc} {l : List Byte} {s : Buffer}
    {pos len : Nat} (hAlloc : ∀ i, alloc i ≠ none) (hHolds : Holds l s)
    (hBelow : l.length < limit) (hInside : pos + len ≤ l.length) :
    ∃ s', substrGet alloc s pos len = some (some s') ∧
      Holds (text ((l.drop pos).take len)) s' ∧ Whole (text ((l.drop pos).take len)) s' := by
  rcases ne_none_iff_exists'.mp (hAlloc 0) with ⟨junk₀, h₀⟩
  rcases ne_none_iff_exists'.mp (hAlloc 1) with ⟨junk₁, h₁⟩
  rcases hHolds.rest with ⟨rest, hOwn, -⟩
  have hLimit : limit = sizeMax - 4096 - 1 := rfl
  have hWrap : (pos + len) % sizeMax = pos + len := Nat.mod_eq_of_lt (by omega)
  have hWrap' : (len + 1) % sizeMax = len + 1 := Nat.mod_eq_of_lt (by omega)
  have hTake : (l.take pos).length = pos := by
    rw [length_take]
    omega
  have hPart : ((l.drop pos).take len).length = len := by
    rw [length_take, length_drop]
    omega
  have hMemory : s.own = l.take pos ++
      ((l.drop pos).take len ++ ((l.drop pos).drop len ++ rest)) := by
    rw [hOwn, ← append_assoc ((l.drop pos).take len),
      take_append_drop, ← append_assoc, take_append_drop]
  generalize (l.drop pos).take len = part at *
  rcases strncpy_spec (l.take pos) part ((l.drop pos).drop len ++
    rest) with ⟨zeros, hZeros, hLength, hCopy⟩
  rw [← hMemory, hTake, hPart] at hCopy
  rw [hPart] at hLength
  have hFits : (text part ++ zeros).length ≤ (List.replicate (len + 1) (0 : Byte)).length := by
    rw [hLength, length_replicate]
    omega
  have hWrite := Block.write_zero hFits
  have hEnd : (List.replicate (len + 1) (0 : Byte)).drop (text part ++ zeros).length = [0] := by
    rw [hLength, drop_replicate, Nat.add_sub_cancel_left]
    rfl
  rw [hEnd] at hWrite
  have hNul : ∃ t, zeros ++ [0] = (0 : Byte) :: t := by
    cases zeros with
    | nil => exact ⟨[], rfl⟩
    | cons z zs =>
      obtain rfl : z = 0 := hZeros z mem_cons_self
      exact ⟨zs ++ [0], rfl⟩
  rcases hNul with ⟨t, hNul⟩
  have hStr : text part ++ zeros ++ [0] = text part ++ 0 :: t := by
    rw [append_assoc, hNul]
  have hStrlen := strlen_text t (zero_notMem_text part)
  rw [← hStr] at hStrlen
  refine ⟨manageNew (text part ++ zeros ++ [0])
    (text part).length, ?_, ⟨rfl, rfl, ?_, le_rfl, ?_, ?_, ?_⟩,
    rfl, ?_⟩
  · unfold substrGet
    rw [hWrap, hWrap', hHolds.len, if_neg (by omega), h₀, h₁, hHolds.bytes_eq, hCopy]
    dsimp only [bind_eq_bind, bind_some]
    rw [hWrite]
    dsimp only [bind_some]
    rw [hStrlen]
    rfl
  · exact ⟨zeros ++ [0], (append_assoc _ _ _).symm⟩
  · change (text part).length + 1 ≤ (text part ++ zeros ++ [0]).length
    rw [hStr, length_append, length_cons]
    omega
  · exact show 0 < initStep by decide
  · exact show initStep ≤ maxStep by decide
  · exact ⟨t, by
      change _ = text part ++ zeros ++ [0]
      rw [hStr]
      simp⟩

---
-- Buffers of Their Own Memory
---

/- The buffers, and the lists of bytes that they stand for. -/
structure State where
  buffers : List Buffer
  contents : List (List Byte)

inductive Op where
  | new (alloc : Alloc)
  | manage (alloc : Alloc) (str : List Byte)
  | substr (alloc : Alloc) (i pos len : Nat)
  | call (alloc : Alloc) (i : Nat) (call : Call)

/- The substring of a list of bytes. -/
def substrBytes (view : View) (l : List Byte) (pos len : Nat) : Option (List Byte) :=
  if l.length < pos + len then
    none
  else
    some (view.seen ((l.drop pos).take len))

def step (view : View) (st : State) : Op → Option State
  | .new alloc => do
    let s ← Strbuf.new alloc
    some ⟨st.buffers ++ [s], st.contents ++ [[]]⟩
  | .manage alloc str => do
    let s ← manageNewLength alloc str
    some ⟨st.buffers ++ [s], st.contents ++ [str]⟩
  | .substr alloc i pos len => do
    let s ← st.buffers[i]?
    let l ← st.contents[i]?
    let answer ← substrGet alloc s pos len
    some
      ⟨st.buffers ++ answer.toList,
        st.contents ++ (substrBytes view l pos len).toList⟩
  | .call alloc i call => do
    let s ← st.buffers[i]?
    let l ← st.contents[i]?
    let s ← call.run alloc s
    some
      ⟨st.buffers.set i s,
        st.contents.set i (call.apply view l)⟩

/-
  Memory can be allocated, search strings are not empty, and
  lengths are below the limit.
-/
def Allowed (view : View) (st : State) : Op → Prop
  | .new alloc => ∀ k, alloc k ≠ none
  | .manage alloc str => (∀ k, alloc k ≠ none) ∧ str.length < limit
  | .substr alloc i pos len =>
    (∀ k, alloc k ≠ none) ∧ i < st.contents.length ∧
      pos + len < sizeMax
  | .call alloc i call =>
    (∀ k, alloc k ≠ none) ∧ call.Searchable ∧
      ∃ l, st.contents[i]? = some l ∧
        (call.apply view l).length < limit

/- The buffer stands for the list of bytes. -/
structure Agree (l : List Byte) (s : Buffer) : Prop where
  content : s.bytes.take s.len = l
  len : s.len = l.length
  ended : s.bytes[s.len]? = some 0
  room : s.len + 1 ≤ s.size
  size_le : s.size ≤ s.bytes.length

/- What is kept of a buffer and its list. -/
structure Good (l : List Byte) (s : Buffer) : Prop where
  holds : Holds l s
  whole : Whole l s
  below : l.length < limit

theorem Good.agree {l : List Byte} {s : Buffer} (hGood : Good l s) : Agree l s := by
  rcases hGood with ⟨hHolds, hWhole, -⟩
  refine ⟨?_, hHolds.len, hHolds.terminated hWhole.ended, ?_, ?_⟩
  · rcases hHolds.content with ⟨rest, hOwn⟩
    rw [hHolds.bytes_eq, hHolds.len, ← hOwn, take_left]
  · rw [hHolds.len]
    exact hHolds.room
  · rw [hHolds.bytes_eq]
    exact hHolds.size_le

/- A buffer that is made for a terminated string. -/
theorem manageNew_good {str : List Byte} (hLimit : str.length < limit) :
    Good str (manageNew (str ++ [0]) str.length) := by
  refine ⟨⟨rfl, rfl, prefix_append _ _, le_rfl, ?_, ?_, ?_⟩, ⟨rfl, prefix_rfl⟩, hLimit⟩
  · change str.length + 1 ≤ (str ++ [0]).length
    rw [length_append, length_singleton]
  · exact show 0 < initStep by decide
  · exact show initStep ≤ maxStep by decide

/- One operation keeps all buffers and lists together. -/
theorem step_good {st : State} {op : Op} (hGood : List.Forall₂ Good st.contents st.buffers)
    (hAllowed : Allowed .textual st op) :
    ∃ st', step .textual st op = some st' ∧ List.Forall₂ Good st'.contents st'.buffers := by
  have hLength := hGood.length_eq
  cases op with
  | new alloc =>
    rcases ne_none_iff_exists'.mp (hAllowed 0) with ⟨junk₀, h₀⟩
    rcases ne_none_iff_exists'.mp (hAllowed 1) with ⟨junk₁, h₁⟩
    rcases init_spec junk₁ ⟨[], false, [], .null, 0, 0, 0, false⟩ with ⟨s, hInit, hEnds⟩
    have hNew : Strbuf.new alloc = some s := by
      unfold Strbuf.new
      rw [h₀, h₁, hInit]
      rfl
    refine ⟨_, by rw [step, hNew]; rfl, ?_⟩
    apply rel_append hGood
    exact .cons ⟨hEnds.holds, ⟨hEnds.ro rfl, hEnds.ended⟩, by decide⟩ .nil
  | manage alloc str =>
    rcases ne_none_iff_exists'.mp (hAllowed.1 0) with ⟨junk, hJunk⟩
    have hNew : manageNewLength alloc str = some (manageNew (str ++ [0]) str.length) := by
      unfold manageNewLength
      rw [hJunk]
      rfl
    refine ⟨_, by rw [step, hNew]; rfl, ?_⟩
    apply rel_append hGood
    exact .cons (manageNew_good hAllowed.2) .nil
  | substr alloc i pos len =>
    rcases hAllowed with ⟨hAlloc, hIndex, hSum⟩
    have hIndex' : i < st.buffers.length := hLength ▸ hIndex
    have hHere := hGood.get hIndex hIndex'
    simp only [get_eq_getElem] at hHere
    have hAnswer : ∃ answer,
        substrGet alloc st.buffers[i] pos len = some answer ∧
        List.Forall₂ Good (substrBytes .textual st.contents[i] pos len).toList answer.toList := by
      unfold substrBytes
      split
      case isTrue hBeyond =>
        refine ⟨none, ?_, .nil⟩
        unfold substrGet
        rw [Nat.mod_eq_of_lt hSum, hHere.holds.len, if_pos hBeyond]
      case isFalse hInside =>
        rcases substrGet_spec hAlloc hHere.holds hHere.below
          (Nat.not_lt.mp hInside) with ⟨s, hSubstr, hHolds, hWhole⟩
        refine ⟨some s, hSubstr, .cons ⟨hHolds, hWhole, ?_⟩ .nil⟩
        have hText := (List.takeWhile_prefix (· ≠ 0)
          (l := (st.contents[i].drop pos).take len)).length_le
        have hTake : ((st.contents[i].drop pos).take len).length ≤ st.contents[i].length := by
          rw [length_take, length_drop]
          omega
        exact (hText.trans hTake).trans_lt hHere.below
    rcases hAnswer with ⟨answer, hSubstr, hBoth⟩
    refine ⟨⟨st.buffers ++ answer.toList, st.contents ++
      (substrBytes .textual st.contents[i] pos len).toList⟩, ?_, rel_append hGood hBoth⟩
    rw [step, getElem?_eq_getElem hIndex', getElem?_eq_getElem hIndex]
    dsimp only [bind_eq_bind, bind_some]
    rw [hSubstr]
    rfl
  | call alloc i call =>
    rcases hAllowed with ⟨hAlloc, hSearchable, l, hAt, hLimit⟩
    rcases List.getElem?_eq_some_iff.mp hAt with ⟨hIndex, rfl⟩
    have hIndex' : i < st.buffers.length := hLength ▸ hIndex
    have hHere := hGood.get hIndex hIndex'
    simp only [get_eq_getElem] at hHere
    rcases call_spec hAlloc (Or.inl hHere.holds) hHere.below
      hSearchable (safe_of_whole hHere.holds hHere.whole call) hLimit with ⟨s', hRun, hLeaves⟩
    rcases hLeaves.whole ⟨hHere.holds, hHere.whole⟩ with ⟨hHolds', hWhole'⟩
    refine ⟨⟨st.buffers.set i s', st.contents.set i (call.apply .textual st.contents[i])⟩, ?_, ?_⟩
    · rw [step, getElem?_eq_getElem hIndex', getElem?_eq_getElem hIndex]
      dsimp only [bind_eq_bind, bind_some]
      rw [hRun]
      rfl
    · exact Lists.forall₂_set i hGood ⟨hHolds', hWhole', hLimit⟩

/-
  The buffers stand for the lists of bytes after every run, and
  no run fails.
-/
theorem contents_correct (ops : List Op) (hAllowed :
    Runs.Guarded (step .textual) (Allowed .textual) ⟨[], []⟩ ops) :
    ∃ st, Runs.run (step .textual) ⟨[], []⟩ ops = some st ∧
      List.Forall₂ Agree st.contents st.buffers := by
  rcases Runs.run_of_guarded
    (fun st : State => List.Forall₂ Good st.contents st.buffers)
    (fun st op hGood hOk => step_good hGood hOk)
    (show List.Forall₂ Good [] [] from .nil) hAllowed with
    ⟨st, hRun, hGood⟩
  exact ⟨st, hRun, hGood.imp fun l s hBoth => hBoth.agree⟩

/- Memory that is never short, with zeros in it -/
def plenty : Alloc :=
  fun _ => some fun _ => 0

/- "aB" is made, changed to "ab", and "b" is cut out of it. -/
def sample : List Op :=
  [.manage plenty [97, 66], .call plenty 0 .tolower,
    .substr plenty 0 1 1]

theorem contents_correct_sample :
    ∃ st, Runs.run (step .textual) ⟨[], []⟩ sample = some st ∧
      List.Forall₂ Agree st.contents st.buffers := by
  have hPlenty : ∀ k, plenty k ≠ none := fun k hNone =>
    nomatch hNone
  apply contents_correct
  refine ⟨⟨hPlenty, by decide⟩, fun st hNext => ?_⟩
  obtain rfl := some.inj hNext
  refine ⟨⟨hPlenty, trivial, [97, 66], rfl, by decide⟩,
    fun st hNext => ?_⟩
  obtain rfl := some.inj hNext
  exact ⟨⟨hPlenty, by decide, by decide⟩, fun st hNext => trivial⟩

/- "\0A" is made, and its lower case taken. -/
def nulSample : List Op :=
  [.manage plenty [0, 65], .call plenty 0 .tolower]

/- The text functions do not look behind a NUL. -/
theorem contents_not_whole :
    Runs.Guarded (step .whole) (Allowed .whole) ⟨[], []⟩ nulSample ∧
        ∃ st, Runs.run (step .whole) ⟨[], []⟩ nulSample =
          some st ∧
        ¬ List.Forall₂ Agree st.contents st.buffers := by
  have hPlenty : ∀ k, plenty k ≠ none := fun k hNone =>
    nomatch hNone
  refine ⟨⟨⟨hPlenty, by decide⟩, fun st hNext => ?_⟩, _, rfl, ?_⟩
  · obtain rfl := some.inj hNext
    exact ⟨⟨hPlenty, trivial, [0, 65], rfl, by decide⟩,
      fun st hNext => trivial⟩
  · intro hAgree
    have hFirst := hAgree.get (i := 0) (by decide) (by decide)
    exact absurd hFirst.content (by decide)

---
-- Read-Only Memory
---

/-
  A buffer over memory that it was given, and the list of bytes
  that it stands for.
-/
structure Session where
  buffer : Buffer
  content : List Byte

/- `eina_strbuf_manage_read_only_new_length` -/
def Session.start (m : List Byte) (len : Nat) : Session where
  buffer := manageRoNew m len
  content := m.take len

def sessionStep (st : Session) : Alloc × Call → Option Session
  | (alloc, call) => do
    let s ← call.run alloc st.buffer
    some ⟨s, call.apply .whole st.content⟩

/-
  Memory can be allocated, search strings are not empty, and
  lengths are below the limit.
-/
structure Ready (st : Session) (op : Alloc × Call) : Prop where
  alloc : ∀ k, op.1 k ≠ none
  searchable : op.2.Searchable
  below : (op.2.apply .whole st.content).length < limit

/-
  The call is safe, and what it does to the text before a NUL
  is what it does to all bytes.
-/
structure Proper (st : Session) (op : Alloc × Call) : Prop where
  ready : Ready st op
  safe : Safe st.buffer op.2
  plain : op.2.apply .textual st.content =
    op.2.apply .whole st.content

/- What is kept of a buffer over the memory `m`. -/
structure Intact (m : List Byte) (st : Session) : Prop where
  stands : Stands st.content st.buffer
  below : st.content.length < limit
  given : st.buffer.given = m
  written : st.buffer.written = false

theorem intact_start {m : List Byte} {len : Nat}
    (hLen : len ≤ m.length) (hLimit : len < limit) : Intact m (.start m len) := by
  have hLength : (m.take len).length = len := by
    rw [length_take]
    omega
  refine ⟨Or.inr ⟨rfl, rfl, hLength.symm, List.take_prefix _ _, ?_, ?_, ?_⟩, ?_, rfl, rfl⟩
  · change len + 1 = (m.take len).length + 1
    rw [hLength]
  · exact show 0 < initStep by decide
  · exact show initStep ≤ maxStep by decide
  · change (m.take len).length < limit
    rwa [hLength]

theorem sessionStep_intact {m : List Byte} {st : Session} {op : Alloc × Call}
    (hIntact : Intact m st) (hProper : Proper st op) :
    ∃ st', sessionStep st op = some st' ∧ Intact m st' := by
  rcases op with ⟨alloc, call⟩
  rcases hProper with ⟨⟨hAlloc, hSearchable, hBelow⟩, hSafe, hPlain⟩
  dsimp only at hAlloc hSearchable hBelow hSafe hPlain
  rcases call_spec hAlloc hIntact.stands hIntact.below
    hSearchable hSafe (hPlain ▸ hBelow) with ⟨s', hRun, hLeaves⟩
  refine ⟨⟨s', call.apply .whole st.content⟩, ?_,
    hPlain ▸ hLeaves.stands, hBelow, hLeaves.kept.given.trans hIntact.given,
    hLeaves.kept.written.trans hIntact.written⟩
  rw [sessionStep, hRun]
  rfl

/-
  The memory is never written, and the buffer stands for the
  list of bytes.
-/
theorem given_kept {m : List Byte} {len : Nat} (hLen : len ≤ m.length)
    (hLimit : len < limit) (ops : List (Alloc × Call))
    (hProper : Runs.Guarded sessionStep Proper (.start m len) ops) :
    ∃ st, Runs.run sessionStep (.start m len) ops = some st ∧
      st.buffer.given = m ∧
      st.buffer.written = false ∧
      st.buffer.len = st.content.length ∧
      st.buffer.bytes.take st.buffer.len = st.content := by
  rcases Runs.run_of_guarded (Intact m)
    (fun st op hIntact hOk => sessionStep_intact hIntact hOk)
    (intact_start hLen hLimit) hProper with ⟨st, hRun, hIntact⟩
  refine ⟨st, hRun, hIntact.given, hIntact.written,
    hIntact.stands.len, ?_⟩
  rcases hIntact.stands.content with ⟨rest, hBytes⟩
  rw [hIntact.stands.len, ← hBytes, take_left]

/- "x" is appended to "ab", and then "a" removed. -/
def readOnlySample : List (Alloc × Call) :=
  [(plenty, .appendLength [120]), (plenty, .remove 0 1)]

theorem given_kept_sample :
    ∃ st, Runs.run sessionStep (.start [97, 98, 0] 2)
        readOnlySample = some st ∧
      st.buffer.given = [97, 98, 0] ∧
      st.buffer.written = false ∧
      st.buffer.len = st.content.length ∧
      st.buffer.bytes.take st.buffer.len = st.content := by
  have hPlenty : ∀ k, plenty k ≠ none := fun k hNone =>
    nomatch hNone
  apply given_kept (by decide) (by decide)
  refine ⟨⟨⟨hPlenty, trivial, by decide⟩,
    Or.inr (by decide), rfl⟩, fun st hNext => ?_⟩
  obtain rfl := some.inj hNext
  exact ⟨⟨⟨hPlenty, trivial, by decide⟩, trivial, rfl⟩,
    fun st hNext => trivial⟩

/- "a" -/
def charA : CString where
  chars := [97]
  noNul := noNul_a

/- "c" -/
def charC : CString where
  chars := [99]
  noNul := by decide

/-
  "a" is replaced by "c" in "ab": this is done in the memory
  that was given, and not in the copy.
-/
theorem given_written :
    Runs.Guarded sessionStep Ready (.start [97, 98, 0] 2)
        [(plenty, .replaceAll charA charC)] ∧
      ∃ st, Runs.run sessionStep (.start [97, 98, 0] 2)
          [(plenty, .replaceAll charA charC)] = some st ∧
        st.content = [99, 98] ∧
        st.buffer.bytes.take st.buffer.len = [97, 98] ∧
        st.buffer.given = [99, 98, 0] ∧
        st.buffer.written = true := by
  have hPlenty : ∀ k, plenty k ≠ none := fun k hNone =>
    nomatch hNone
  refine ⟨⟨⟨hPlenty, cons_ne_nil 97 [], by decide⟩,
    fun st hNext => trivial⟩, ⟨⟨[99, 98, 0], true, [97, 98, 0],
      .owned, 2, 3, initStep, true⟩, [99, 98]⟩, ?_, rfl, rfl, rfl,
    rfl⟩
  rfl

end Efl.Strbuf
