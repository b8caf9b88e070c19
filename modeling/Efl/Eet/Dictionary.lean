import Efl.Eet.Model
import Efl.Lib.Links
import Efl.Lib.Lists
import Efl.Lib.Runs

/-
  The dictionary of a file.

  The reader takes over the links of the hash chains as they
  are in the file, so lookups stay inside of the table, and
  end, exactly when these links do.

  Main declarations:
    * `Dictionary.WellFormed`
    * `Dictionary.AddOk`
    * `Dictionary.stringAdd_spec`
    * `read2_wellFormed_iff`
-/

---
-- Well-Formed Dictionaries
---

namespace Efl.Eet.Dictionary

open List Option Function

/- The indices `next`. -/
def links (ed : Dictionary) : List Int :=
  ed.all.map fun s => s.next

/-
  All heads and links are -1 or the index of a string, and
  each chain ends after at most as many steps as there are
  strings.
-/
structure WellFormed (ed : Dictionary) : Prop where
  size : ed.all.length = ed.count.toNat
  room : ed.count ≤ ed.total ∧ ed.total ≤ CInt.intMax
  full : ed.count < 0 → ed.total = ed.count
  head : ∀ h, ed.hash h = -1 ∨
    0 ≤ ed.hash h ∧ ed.hash h < ed.count
  next : ∀ s ∈ ed.all, s.next = -1 ∨
    0 ≤ s.next ∧ s.next < ed.count
  ends : ∀ h,
    Links.walk ed.links ed.all.length (ed.hash h) = -1

theorem length_links (ed : Dictionary) : ed.links.length = ed.all.length := length_map ..

variable {ed : Dictionary}

/- Indices of strings. -/
theorem valid_iff {c : Int} (hSize : ed.all.length = ed.count.toNat) :
    Links.Valid ed.links c ↔ c = -1 ∨ 0 ≤ c ∧ c < ed.count := by
  unfold Links.Valid
  rw [length_links, hSize]
  omega

theorem WellFormed.allValid (hWell : WellFormed ed) : Links.AllValid ed.links := by
  intro l hl
  rcases mem_map.mp hl with ⟨s, hs, rfl⟩
  exact (valid_iff hWell.size).mpr (hWell.next s hs)

theorem WellFormed.valid_head (h : Nat) (hWell : WellFormed ed) :
    Links.Valid ed.links (ed.hash h) := (valid_iff hWell.size).mpr (hWell.head h)

/- The loop ends on a chain that does. -/
theorem lookupFrom_spec {fuel : Nat} {current : Int} (string : Str)
    (len : Int) (hAll : Links.AllValid ed.links) (hValid : Links.Valid ed.links current)
    (hEnds : Links.walk ed.links fuel current = -1) :
    ∃ i, ed.lookupFrom string len fuel current = some i ∧
      (i ≠ -1 → ∃ s, ed.get? i = some s ∧ Matches s string len) := by
  induction fuel generalizing current with
  | zero =>
    obtain rfl : current = -1 := hEnds
    exact ⟨-1, by simp [lookupFrom], by simp⟩
  | succ fuel ih =>
    rcases hValid with rfl | ⟨hLow, hHigh⟩
    · exact ⟨-1, by simp [lookupFrom], by simp⟩
    · rw [length_links] at hHigh
      have hIndex : current.toNat < ed.all.length := by omega
      have hGet : ed.get? current = some ed.all[current.toNat] := by
        unfold get?
        rw [if_neg (by omega), getElem?_eq_getElem hIndex]
      have hOpen : current ≠ -1 := by omega
      by_cases hFound : Matches ed.all[current.toNat] string len
      · refine ⟨current, ?_, fun _ => ⟨_, hGet, hFound⟩⟩
        simp [lookupFrom, hOpen, hGet, hFound]
      · have hNext : Links.next ed.links current = ed.all[current.toNat].next := by
          refine Links.next_of_getElem? hLow ?_
          simp [links, getElem?_eq_getElem hIndex]
        rw [Links.walk, hNext] at hEnds
        have hNextValid := Links.next_valid hAll (Or.inr ⟨hLow, by rw [length_links]; omega⟩)
        rw [hNext] at hNextValid
        rcases ih hNextValid hEnds with ⟨i, hRun, hMatch⟩
        refine ⟨i, ?_, hMatch⟩
        simp [lookupFrom, hOpen, hGet, hFound, hRun]

/- Every lookup ends inside of the table. -/
theorem lookup_spec (string : Str) (hWell : WellFormed ed) :
    ∃ i, ed.lookup string = some i ∧
      (i ≠ -1 → ∃ s, ed.get? i = some s ∧
        Matches s string (sizeOf string)) :=
  lookupFrom_spec string _ hWell.allValid (hWell.valid_head _) (hWell.ends _)

/-
  The call does not have to make a table larger that has close
  to `INT_MAX` entries, nor one with a negative count (from a
  file with 2^31 strings or more) that gets positive so.
-/
def AddOk (ed : Dictionary) (string : Str) (memory : Memory) : Prop :=
  ed.lookup string = some (-1) → memory.share.isSome →
    ed.total = ed.count →
      ed.total + 64 ≤ CInt.intMax ∧
        (ed.count < 0 → memory.grows → ed.total + 64 ≤ 0)

/- `grow` -/
theorem grow_spec {memory : Memory} (hWell : WellFormed ed)
    (hOk : ed.total = ed.count →
      ed.total + 64 ≤ CInt.intMax ∧
        (ed.count < 0 → memory.grows → ed.total + 64 ≤ 0)) :
    ∃ grown, ed.grow memory = some grown ∧
      ∀ ed', grown = some ed' →
        ed'.all = ed.all ∧ ed'.hash = ed.hash ∧
        ed'.count = ed.count ∧ 0 ≤ ed.count ∧ ed.count < ed'.total ∧ ed'.total ≤ CInt.intMax := by
  have hRoom := hWell.room
  unfold grow
  split
  · rename_i hFull
    rcases hOk hFull with ⟨hMax, hLow⟩
    rw [if_neg (by omega)]
    split
    · rename_i hGrows
      refine ⟨_, rfl, ?_⟩
      rintro ed' ⟨⟩
      refine ⟨rfl, rfl, rfl, ?_, ?_, hMax⟩
      · by_contra hNegative
        have hSmall := hLow (by omega) hGrows.1
        omega
      · show ed.count < ed.total + 64
        omega
    · exact ⟨none, rfl, by simp⟩
  · rename_i hFree
    refine ⟨_, rfl, ?_⟩
    rintro ed' ⟨⟩
    refine ⟨rfl, rfl, rfl, ?_, by omega, hRoom.2⟩
    by_contra hNegative
    exact hFree (hWell.full (by omega))

/- A dictionary with one more string, in front of its chain. -/
theorem WellFormed.add {hash : Nat} {total : Int} (s : DictString)
    (hWell : WellFormed ed) (hCount : 0 ≤ ed.count)
    (hTotal : ed.count < total ∧ total ≤ CInt.intMax)
    (hNext : s.next = ed.hash hash) :
    WellFormed
      { all := ed.all ++ [s]
        hash := update ed.hash hash ed.count
        count := ed.count + 1
        total := total } := by
  have hSize := hWell.size
  have hLinks : links
      { all := ed.all ++ [s]
        hash := update ed.hash hash ed.count
        count := ed.count + 1
        total := total } = ed.links ++ [s.next] := by
    simp [links]
  refine ⟨?_, ?_, ?_, ?_, ?_, ?_⟩
  · rw [length_append, length_singleton, hSize]
    show ed.count.toNat + 1 = (ed.count + 1).toNat
    omega
  · show ed.count + 1 ≤ total ∧ total ≤ CInt.intMax
    omega
  · intro hNegative
    have h : ed.count + 1 < 0 := hNegative
    omega
  · intro h
    show update ed.hash hash ed.count h = -1 ∨
      0 ≤ update ed.hash hash ed.count h ∧ update ed.hash hash ed.count h < ed.count + 1
    by_cases hSame : h = hash
    · subst hSame
      rw [update_self]
      omega
    · rw [update_of_ne hSame]
      have hHead := hWell.head h
      omega
  · intro s' hs'
    show s'.next = -1 ∨ 0 ≤ s'.next ∧ s'.next < ed.count + 1
    rcases mem_append.mp hs' with hs' | hs'
    · have hOld := hWell.next s' hs'
      omega
    · rw [mem_singleton.mp hs', hNext]
      have hHead := hWell.head hash
      omega
  · intro h
    have hOld : ∀ h, Links.walk (ed.links ++ [s.next]) ed.all.length (ed.hash h) = -1 := by
      intro h
      rw [Links.walk_append _ _ hWell.allValid (hWell.valid_head h)]
      exact hWell.ends h
    rw [hLinks, length_append, length_singleton]
    show Links.walk _ (ed.all.length + 1) (update ed.hash hash ed.count h) = -1
    by_cases hSame : h = hash
    · subst hSame
      rw [update_self, Links.walk, Links.next_of_getElem? hCount (l := s.next)]
      · rw [hNext]
        have hHead := hOld h
        rwa [hNext] at hHead
      · rw [← hSize, ← length_links]
        simp
    · rw [update_of_ne hSame]
      exact Links.walk_end_of_le (hOld h) (by omega)

/- `eet_dictionary_string_add` -/
theorem stringAdd_spec {string : Str} {memory : Memory}
    (hWell : WellFormed ed) (hOk : ed.AddOk string memory) :
    ∃ ed' i, ed.stringAdd string memory = some (ed', i) ∧ WellFormed ed' := by
  rcases lookup_spec string hWell with ⟨i, hLookup, -⟩
  unfold stringAdd
  simp only [hLookup, bind_eq_bind, bind_some]
  split
  · exact ⟨ed, i, rfl, hWell⟩
  rename_i hNew
  rw [ne_eq, not_not] at hNew
  subst hNew
  cases hShare : memory.share with
  | none => exact ⟨ed, -1, rfl, hWell⟩
  | some addr =>
    rcases grow_spec hWell (hOk hLookup (by simp [hShare])) with ⟨grown, hGrow, hGrown⟩
    simp only [hGrow, bind_some]
    cases grown with
    | none => exact ⟨ed, -1, rfl, hWell⟩
    | some ed' =>
      rcases hGrown ed' rfl with ⟨hAll, hHash, hCount, hLow, hTotal⟩
      simp only [hAll, hHash, hCount, if_neg (not_lt.mpr hLow)]
      exact ⟨_, _, rfl, hWell.add _ hLow hTotal rfl⟩

end Efl.Eet.Dictionary

---
-- Dictionaries of Files
---

namespace Efl.Eet

open Bytes List Option Function

/- The numbers of entries that the header of a file has. -/
def entryCount (m : Mapped) : Nat :=
  (m.word 4).toNat

def stringCount (m : Mapped) : Int :=
  CInt.wrap (m.word 8).toNat

/- The entries of the dictionary in a file. -/
def fileStrings (m : Mapped) : List StringEntry :=
  (List.range (stringCount m).toNat).map fun j =>
    stringEntry m (12 + 24 * entryCount m + 20 * j)

/- The last entry of its hash that has no `prev`. -/
def IsHead (es : List StringEntry) (j : Nat) : Prop :=
  ∃ e, es[j]? = some e ∧ e.prev = -1 ∧
    ∀ k e', j < k → es[k]? = some e' → e'.hash = e.hash →
      e'.prev ≠ -1

/-
  The links in the file: `next` is -1 or the index of an
  entry, and following it from the head of a chain meets no
  entry twice.
-/
structure ChainsEnd (m : Mapped) : Prop where
  next : ∀ e ∈ fileStrings m, e.next = -1 ∨
    0 ≤ e.next ∧ e.next < stringCount m
  once : ∀ j, IsHead (fileStrings m) j → ∀ a b, a < b →
    let links := (fileStrings m).map fun e => e.next
    Links.walk links a j = Links.walk links b j →
      Links.walk links a j = -1

variable {m : Mapped}

/- What the entries that are read are. -/
theorem readString_eq {entries base j : Nat} {e : StringEntry}
    (hRead : readString m entries base j = some e) :
    e = stringEntry m (12 + 24 * entries + 20 * j) ∧
      e.hash < 256 ∧ 0 < e.len ∧ base < e.offset ∧
      e.last < m.size ∧ m.byte (e.offset + (e.len - 1).toNat) = 0 := by
  unfold readString at hRead
  dsimp only at hRead
  split at hRead
  · simp at hRead
  rename_i hHash
  split at hRead
  · simp at hRead
  rename_i hRange
  split at hRead
  · simp at hRead
  rename_i hEnd
  obtain rfl := some.inj hRead
  rw [not_not] at hRange hEnd
  exact ⟨rfl, not_le.mp hHash, hRange.1, hRange.2.1, hRange.2.2, hEnd⟩

/- What is known of a file that is opened. -/
structure Opened (m : Mapped) (opening : Opening) (contents : Contents)
    (efns : List FileNode) (es : List StringEntry) : Prop where
  magic : m.word 0 = magicFile2
  fits : tableBytes (entryCount m) (m.word 8).toNat ≤ m.size
  entries : (List.range (entryCount m)).mapM (readNode m opening
    (tableBytes (entryCount m) (m.word 8).toNat)) = some efns
  nodes : contents.nodes = efns.foldl Nodes.push fun _ => []
  strings : (List.range (stringCount m).toNat).mapM
    (readString m (entryCount m)
      (tableBytes (entryCount m) (m.word 8).toNat)) = some es
  ed : ∀ ed, contents.ed = some ed →
    ed = loadDictionary m (m.word 8).toNat es
  noEd : contents.ed = none → es = []

variable {contents : Contents}

variable {opening : Opening}

/- `eet_internal_read2` -/
theorem read2_opened (hRead : read2 m opening = some contents) :
    ∃ efns es, Opened m opening contents efns es := by
  unfold read2 at hRead
  dsimp only at hRead
  split at hRead
  · simp at hRead
  rename_i hMagic
  split at hRead
  · simp at hRead
  split at hRead
  · simp at hRead
  rename_i hFits
  rw [bind_eq_bind, bind_eq_some_iff] at hRead
  rcases hRead with ⟨efns, hEfns, hRead⟩
  split at hRead
  · rename_i hZero
    have hNone : (List.range (stringCount m).toNat).mapM (readString m
        (entryCount m) (tableBytes (entryCount m) (m.word 8).toNat)) = some [] := by
      unfold stringCount
      rw [hZero]
      rfl
    split at hRead
    · simp at hRead
    · obtain rfl := some.inj hRead
      exact ⟨efns, [], not_not.mp hMagic, not_lt.mp hFits, hEfns, rfl, hNone, by simp, fun _ => rfl⟩
  · split at hRead
    · simp at hRead
    · rw [bind_eq_bind, bind_eq_some_iff] at hRead
      rcases hRead with ⟨es, hEs, hRead⟩
      split at hRead
      · simp at hRead
      · obtain rfl := some.inj hRead
        refine ⟨efns, es, not_not.mp hMagic, not_lt.mp hFits, hEfns, rfl, hEs, ?_, by simp⟩
        intro ed hEd
        exact (some.inj hEd).symm

/- The entries that were read are those of the file. -/
theorem Opened.es_eq {efns : List FileNode} {es : List StringEntry}
    (hOpened : Opened m opening contents efns es) : es = fileStrings m :=
  Lists.eq_map_of_mapM hOpened.strings fun _ _ hRead => (readString_eq hRead).1

/- The heads of the chains, with those of earlier entries. -/
theorem headsFrom_spec (es : List StringEntry) (j : Nat)
    (hash : Nat → Int) (h : Nat) :
    (∃ k, IsHead es k ∧ headsFrom j hash es h = (j + k : Nat) ∧
        ∃ e, es[k]? = some e ∧ e.hash = h) ∨
      headsFrom j hash es h = hash h ∧ ∀ e ∈ es, e.hash = h → e.prev ≠ -1 := by
  induction es generalizing j hash with
  | nil => exact Or.inr ⟨rfl, by simp⟩
  | cons e es ih =>
    unfold headsFrom
    rcases ih (j + 1) (if e.prev = -1 then
        update hash e.hash j else hash) with
      ⟨k, ⟨e', hAt, hPrev, hLast⟩, hHead, e'', hAt', hHash⟩ | ⟨hHead, hNone⟩
    · refine Or.inl ⟨k + 1, ⟨e', hAt, hPrev, ?_⟩, ?_, e'', hAt', hHash⟩
      · intro k' d hLess hd
        cases k' with
        | zero => omega
        | succ k' => exact hLast k' d (by omega) hd
      · rw [hHead]
        congr 1
        omega
    · by_cases hHere : e.prev = -1 ∧ e.hash = h
      · refine Or.inl ⟨0, ⟨e, rfl, hHere.1, ?_⟩, ?_, e, rfl, hHere.2⟩
        · intro k' d hLess hd hSame
          cases k' with
          | zero => omega
          | succ k' =>
            refine hNone d (mem_of_getElem? hd) ?_
            exact hSame.trans hHere.2
        · rw [hHead, if_pos hHere.1, ← hHere.2, update_self, Nat.add_zero]
      · refine Or.inr ⟨?_, ?_⟩
        · rw [hHead]
          split
          · rename_i hPrev
            rw [update_of_ne]
            exact fun hSame => hHere ⟨hPrev, hSame.symm⟩
          · rfl
        · intro d hd hHash hPrev
          rcases mem_cons.mp hd with rfl | hd
          · exact hHere ⟨hPrev, hHash⟩
          · exact hNone d hd hHash hPrev

/- Every head entry is the head of its chain. -/
theorem headsFrom_of_isHead {es : List StringEntry} {k : Nat}
    {e : StringEntry} (j : Nat) (hash : Nat → Int) (hHead : IsHead es k)
    (hAt : es[k]? = some e) : headsFrom j hash es e.hash = (j + k : Nat) := by
  rcases headsFrom_spec es j hash e.hash with ⟨k',
    ⟨d', hd', hPrev', hLast'⟩, hEq, d, hd, hHash⟩ | ⟨-, hNone⟩
  · obtain rfl : d' = d := some.inj (hd'.symm.trans hd)
    rcases hHead with ⟨e', hAt', hPrev, hLast⟩
    obtain rfl : e' = e := some.inj (hAt'.symm.trans hAt)
    rcases Nat.lt_trichotomy k k' with hLess | rfl | hLess
    · exact (hLast k' d' hLess hd hHash hPrev').elim
    · exact hEq
    · exact (hLast' k e' hLess hAt hHash.symm hPrev).elim
  · rcases hHead with ⟨e', hAt', hPrev, -⟩
    obtain rfl : e' = e := some.inj (hAt'.symm.trans hAt)
    exact (hNone e' (mem_of_getElem? hAt) rfl hPrev).elim

theorem load_hash (m : Mapped) (strings : Nat) (es : List StringEntry) :
    (loadDictionary m strings es).hash = headsFrom 0 (fun _ => -1) es := rfl

theorem load_count (m : Mapped) (es : List StringEntry) :
    (loadDictionary m (m.word 8).toNat es).count = stringCount m := rfl

theorem load_total (m : Mapped) (es : List StringEntry) :
    (loadDictionary m (m.word 8).toNat es).total = stringCount m := rfl

theorem load_all (m : Mapped) (strings : Nat) (es : List StringEntry) :
    (loadDictionary m strings es).all = es.map fun e => e.load m := rfl

/-
  The loaded dictionary is well formed exactly when the links
  of the file are.
-/
theorem read2_wellFormed_iff {ed : Dictionary} (hRead : read2 m opening = some contents)
    (hEd : contents.ed = some ed) : ed.WellFormed ↔ ChainsEnd m := by
  rcases read2_opened hRead with ⟨efns, es, hOpened⟩
  have hLoad := hOpened.ed ed hEd
  rw [hOpened.es_eq] at hLoad
  have hLength : (fileStrings m).length = (stringCount m).toNat := by
    unfold fileStrings
    simp
  have hRange : CInt.InRange (stringCount m) := CInt.inRange_wrap _
  have hIndex : ∀ (k : Nat) e, (fileStrings m)[k]? = some e → (k : Int) < stringCount m := by
    intro k e hAt
    have hLess := (List.getElem?_eq_some_iff.mp hAt).1
    rw [hLength] at hLess
    omega
  have hHash : ed.hash = headsFrom 0 (fun _ => -1) (fileStrings m) := by
    rw [hLoad, load_hash]
  have hCount : ed.count = stringCount m := by
    rw [hLoad, load_count]
  have hTotal : ed.total = stringCount m := by
    rw [hLoad, load_total]
  have hStrings : ed.all = (fileStrings m).map fun e => e.load m := by
    rw [hLoad, load_all]
  have hAll : ed.all.length = (stringCount m).toNat := by
    rw [hStrings, length_map, hLength]
  have hLinks : ed.links = (fileStrings m).map fun e => e.next := by
    unfold Dictionary.links
    rw [hStrings, List.map_map]
    rfl
  constructor
  · intro hWell
    refine ⟨?_, ?_⟩
    · intro e he
      have hNext := hWell.next (e.load m) (by rw [hStrings]; exact List.mem_map_of_mem he)
      rw [hCount] at hNext
      exact hNext
    · intro j hHead a b hLess
      rcases hHead with ⟨e, hAt, hPrev, hLast⟩
      have hEnds := hWell.ends e.hash
      have hFirst : ed.hash e.hash = (j : Int) := by
        rw [hHash, headsFrom_of_isHead 0 (fun _ => -1) ⟨e, hAt, hPrev, hLast⟩ hAt, Nat.zero_add]
      have hValid := hWell.valid_head e.hash
      rw [hFirst] at hEnds hValid
      rw [← Dictionary.length_links] at hEnds
      have hOnce := (Links.ends_iff_no_repeat hWell.allValid hValid).mp hEnds a b hLess
      rw [hLinks] at hOnce
      exact hOnce
  · intro hChains
    have hHead : ∀ h, ed.hash h = -1 ∨
        ∃ k, IsHead (fileStrings m) k ∧ ed.hash h = (k : Int) ∧ (k : Int) < stringCount m := by
      intro h
      rw [hHash]
      rcases headsFrom_spec (fileStrings m) 0 (fun _ => -1) h
        with ⟨k, hk, hEq, e, hAt, -⟩ | ⟨hEq, -⟩
      · rw [Nat.zero_add] at hEq
        exact Or.inr ⟨k, hk, hEq, hIndex k e hAt⟩
      · exact Or.inl hEq
    have hValid : Links.AllValid ed.links := by
      rw [hLinks]
      intro l hl
      rcases List.mem_map.mp hl with ⟨e, he, rfl⟩
      have hNext := hChains.next e he
      unfold Links.Valid
      rw [length_map, hLength]
      omega
    refine ⟨by rw [hAll, hCount], ?_, ?_, ?_, ?_, ?_⟩
    · rw [hCount, hTotal]
      exact ⟨le_refl _, hRange.2⟩
    · intro _
      rw [hCount, hTotal]
    · intro h
      rw [hCount]
      rcases hHead h with hNone | ⟨k, -, hEq, hLess⟩
      · exact Or.inl hNone
      · rw [hEq]
        exact Or.inr ⟨by omega, hLess⟩
    · intro s hs
      rw [hStrings] at hs
      rcases List.mem_map.mp hs with ⟨e, he, rfl⟩
      rw [hCount]
      exact hChains.next e he
    · intro h
      rcases hHead h with hNone | ⟨k, hIs, hEq, hLess⟩
      · rw [hNone, Links.walk_end]
      · rw [hEq, ← Dictionary.length_links]
        refine (Links.ends_iff_no_repeat hValid ?_).mpr ?_
        · unfold Links.Valid
          rw [Dictionary.length_links, hAll]
          omega
        · rw [hLinks]
          exact hChains.once k hIs

---
-- Additions to a Dictionary
---

/- A call of `eet_dictionary_string_add`. -/
structure Add where
  string : Str
  memory : Dictionary.Memory

def addStep (ed : Dictionary) (op : Add) : Option Dictionary :=
  (ed.stringAdd op.string op.memory).map fun r => r.1

/- Additions keep a dictionary well formed. -/
theorem adds_wellFormed {ed : Dictionary} {ops : List Add}
    (hWell : ed.WellFormed) (hGuarded : Runs.Guarded addStep
      (fun ed op => ed.AddOk op.string op.memory) ed ops) :
    ∃ ed', Runs.run addStep ed ops = some ed' ∧ ed'.WellFormed := by
  refine Runs.run_of_guarded Dictionary.WellFormed ?_ hWell hGuarded
  intro ed op hWell hOk
  rcases Dictionary.stringAdd_spec hWell hOk with ⟨ed', i, hRun, hWell'⟩
  exact ⟨ed', by simp [addStep, hRun], hWell'⟩

/-
  The dictionary of a file that is opened stays well formed
  under additions, and its lookups end inside of the table,
  exactly when the links in the file end.
-/
theorem dictionary_correct
    {m : Mapped} {opening : Opening} {contents : Contents}
    {ed : Dictionary} (hRead : read2 m opening = some contents)
    (hEd : contents.ed = some ed) :
    ChainsEnd m ↔
      ∀ ops, Runs.Guarded addStep
          (fun ed op => ed.AddOk op.string op.memory) ed ops →
        ∃ ed', Runs.run addStep ed ops = some ed' ∧
          ed'.WellFormed ∧
          ∀ string, ∃ i, ed'.lookup string = some i := by
  rw [← read2_wellFormed_iff hRead hEd]
  constructor
  · intro hWell ops hGuarded
    rcases adds_wellFormed hWell hGuarded with ⟨ed', hRun, hWell'⟩
    refine ⟨ed', hRun, hWell', ?_⟩
    intro string
    rcases Dictionary.lookup_spec string hWell' with ⟨i, h, -⟩
    exact ⟨i, h⟩
  · intro hAll
    rcases hAll [] trivial with ⟨ed', hRun, hWell, -⟩
    obtain rfl : ed = ed' := some.inj hRun
    exact hWell

/- A file of these bytes, with zeros behind it. -/
def sampleFile (bytes : List Byte) : Mapped where
  addr := 0
  size := bytes.length
  byte i := bytes.getD i 0

/- It is opened for reading and has no signature. -/
def sampleOpening : Opening where
  readOnly := true
  copies _ := false
  identity _ := true

/-
  A file without entries, and with the string "a" whose link
  is `next`.
-/
def stringFile (next : Word) : Mapped :=
  sampleFile (be32 magicFile2 ++ be32 0 ++ be32 1 ++
    be32 97 ++ be32 33 ++ be32 2 ++ be32 (-1) ++ be32 next ++
    [0, 97, 0, 0])

/- The dictionary of this file. -/
def stringFileEd (next : Word) : Option Dictionary :=
  (read2 (stringFile next) sampleOpening).bind fun r => r.ed

/- A file with a chain that ends. -/
theorem dictionary_correct_sample :
    ∃ ed, stringFileEd (-1) = some ed ∧
      (ChainsEnd (stringFile (-1)) ↔ ∀ ops, Runs.Guarded addStep
        (fun ed op => ed.AddOk op.string op.memory) ed ops → ∃ ed',
        Runs.run addStep ed ops = some ed' ∧ ed'.WellFormed ∧ ∀ string,
        ∃ i, ed'.lookup string = some i) :=
  ⟨(stringFileEd (-1)).get (by decide), (some_get _).symm,
    dictionary_correct (m := stringFile (-1)) (some_get (by decide :
    (read2 (stringFile (-1)) sampleOpening).isSome)).symm
    (some_get _).symm⟩

/-
  A file with a string that is its own successor is opened,
  and the lookup of another string with this hash never ends.
-/
theorem dictionary_loops :
    ∃ ed, stringFileEd 0 = some ed ∧
      hashGen [96, 2] = 97 ∧
      ∀ fuel, ed.lookupFrom ⟨1000, [96, 2]⟩ 3 fuel
        (ed.hash 97) = none := by
  refine ⟨(stringFileEd 0).get (by decide),
    (some_get _).symm, by decide, ?_⟩
  have hHead : ((stringFileEd 0).get (by decide)).hash 97 = 0 := by
    decide
  have hGet : ((stringFileEd 0).get (by decide)).get? 0 =
      some ⟨⟨33, [97]⟩, 2, 0, 97⟩ := by
    decide
  rw [hHead]
  intro fuel
  induction fuel with
  | zero => simp [Dictionary.lookupFrom]
  | succ fuel ih =>
    rw [Dictionary.lookupFrom]
    simp only [hGet]
    exact ih

end Efl.Eet
