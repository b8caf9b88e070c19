import Efl.Eet.Writer
import Efl.Lib.Runs
import Mathlib.Data.List.Nodup

/-
  What the calls keep true of a file that is being written.

  Main declarations:
    * `lastBefore`
    * `Dictionary.Sound`, `Nodes.Sound`, `File.Sound`
    * `Dictionary.Sound.lookup_eq`
    * `Dictionary.Sound.stringAdd`
-/

---
-- Chains of a Dictionary
---

namespace Efl.Eet

open List Option Function

/- The last index below `n` with the hash `h`, or -1. -/
def lastBefore (hashes : List Nat) (h : Nat) : Nat → Int
  | 0 => -1
  | n + 1 =>
    if hashes[n]? = some h then n
    else lastBefore hashes h n

/- Later strings do not matter. -/
theorem lastBefore_append (hashes more : List Nat) (h : Nat) {n : Nat}
    (hLe : n ≤ hashes.length) : lastBefore (hashes ++ more) h n = lastBefore hashes h n := by
  induction n with
  | zero => rfl
  | succ n ih =>
    rw [lastBefore, lastBefore, getElem?_append_left (by omega), ih (by omega)]

theorem lastBefore_cases (hashes : List Nat) (h n : Nat) :
    (lastBefore hashes h n = -1 ∧ ∀ i, i < n → hashes[i]? ≠ some h) ∨
        ∃ i, i < n ∧ lastBefore hashes h n = (i : Int) ∧ hashes[i]? = some h := by
  induction n with
  | zero => exact Or.inl ⟨rfl, by simp⟩
  | succ n ih =>
    rw [lastBefore]
    by_cases hHere : hashes[n]? = some h
    · rw [if_pos hHere]
      exact Or.inr ⟨n, by omega, rfl, hHere⟩
    · rw [if_neg hHere]
      rcases ih with ⟨hNone, hAll⟩ | ⟨i, hLess, hEq, hAt⟩
      · refine Or.inl ⟨hNone, ?_⟩
        intro i hi
        rcases Nat.lt_succ_iff_lt_or_eq.mp hi with h' | rfl
        · exact hAll i h'
        · exact hHere
      · exact Or.inr ⟨i, by omega, hEq, hAt⟩

namespace Dictionary

/- The hashes of the strings. -/
def hashes (ed : Dictionary) : List Nat :=
  ed.all.map fun s => s.hash

/-
  Each string is in the chain of its hash, behind those that
  were added later, and no string is there twice.
-/
structure Sound (ed : Dictionary) : Prop where
  count : ed.count = ed.all.length
  hash : ∀ h, ed.hash h =
    lastBefore ed.hashes h ed.all.length
  next : ∀ (j : Nat) s, ed.all[j]? = some s →
    s.next = lastBefore ed.hashes s.hash j
  own : ∀ s ∈ ed.all, s.hash = hashGen s.str.chars ∧
    s.len = sizeOf s.str ∧ 0 ∉ s.str.chars
  once : (ed.all.map fun s => s.str.chars).Nodup

theorem new_sound : new.Sound where
  count := rfl
  hash _ := rfl
  next _ _ h := by simp [new] at h
  own _ h := by simp [new] at h
  once := by simp [new]

theorem get?_natCast (ed : Dictionary) (i : Nat) : ed.get? (i : Int) = ed.all[i]? := by
  unfold get?
  rw [if_neg (by omega), Int.toNat_natCast]

/- The walk through a chain. -/
theorem Sound.lookupFrom_eq {ed : Dictionary} {n fuel : Nat}
    (hSound : ed.Sound) (string : Str) (len : Int) (h : Nat)
    (hLe : n ≤ ed.all.length) (hFuel : n ≤ fuel) :
    (ed.lookupFrom string len fuel
          (lastBefore ed.hashes h n) = some (-1) ∧
        ∀ i s, i < n → ed.all[i]? = some s → s.hash = h →
          ¬ Matches s string len) ∨
      ∃ (i : Nat) (s : DictString), i < n ∧
        ed.all[i]? = some s ∧ Matches s string len ∧ ed.lookupFrom string len fuel
          (lastBefore ed.hashes h n) = some (i : Int) := by
  induction n generalizing fuel with
  | zero =>
    refine Or.inl ⟨?_, by simp⟩
    unfold lastBefore lookupFrom
    simp
  | succ n ih =>
    have hAt : ed.all[n]? = some ed.all[n] := getElem?_eq_getElem (by omega)
    have hHash : ed.hashes[n]? = some ed.all[n].hash := by
      simp [hashes, hAt]
    rw [lastBefore, hHash]
    by_cases hSame : ed.all[n].hash = h
    · rw [if_pos (by rw [hSame])]
      rcases Nat.exists_eq_add_of_lt hFuel with ⟨k, rfl⟩
      have hOpen : (n : Int) ≠ -1 := by omega
      rw [lookupFrom, if_neg hOpen, get?_natCast, hAt]
      rw [bind_eq_bind, bind_some]
      by_cases hMatch : Matches ed.all[n] string len
      · rw [if_pos hMatch]
        exact Or.inr ⟨n, _, by omega, hAt, hMatch, rfl⟩
      · rw [if_neg hMatch, hSound.next n _ hAt, hSame]
        rcases ih (by omega) (show n ≤ n + k by omega) with ⟨hNone, hAll⟩ | ⟨i, s, hLess, hFound⟩
        · refine Or.inl ⟨hNone, ?_⟩
          intro i s hi hString hIs
          rcases Nat.lt_succ_iff_lt_or_eq.mp hi with h' | rfl
          · exact hAll i s h' hString hIs
          · rw [hAt] at hString
            obtain rfl := some.inj hString
            exact hMatch
        · exact Or.inr ⟨i, s, by omega, hFound⟩
    · rw [if_neg (fun hEq => hSame (some.inj hEq))]
      rcases ih (by omega) (show n ≤ fuel by omega) with ⟨hNone, hAll⟩ | ⟨i, s, hLess, hFound⟩
      · refine Or.inl ⟨hNone, ?_⟩
        intro i s hi hString hIs
        rcases Nat.lt_succ_iff_lt_or_eq.mp hi with h' | rfl
        · exact hAll i s h' hString hIs
        · rw [hAt] at hString
          obtain rfl := some.inj hString
          exact (hSame hIs).elim
      · exact Or.inr ⟨i, s, by omega, hFound⟩

/- A lookup finds a string that matches, if there is one. -/
theorem Sound.lookup_cases {ed : Dictionary} (hSound : ed.Sound)
    (string : Str) :
    (ed.lookup string = some (-1) ∧
        ∀ s ∈ ed.all, s.str.chars ≠ string.chars) ∨
      ∃ (i : Nat) (s : DictString), ed.all[i]? = some s ∧
        Matches s string (sizeOf string) ∧ ed.lookup string = some (i : Int) := by
  unfold lookup
  rw [hSound.hash]
  rcases hSound.lookupFrom_eq string (sizeOf string)
    (hashGen string.chars) (le_refl _) (le_refl _) with
    ⟨hNone, hAll⟩ | ⟨i, s, -, hString, hMatch, hFound⟩
  · refine Or.inl ⟨hNone, ?_⟩
    intro s hMem hChars
    rcases mem_iff_getElem?.mp hMem with ⟨i, hString⟩
    have hLess := (List.getElem?_eq_some_iff.mp hString).1
    rcases hSound.own s hMem with ⟨hHash, hLen, -⟩
    refine hAll i s hLess hString (by rw [hHash, hChars]) (Or.inr ⟨?_, hChars⟩)
    rw [hLen]
    unfold sizeOf
    rw [hChars]
  · exact Or.inr ⟨i, s, hString, hMatch, hFound⟩

/- The characters tell the strings apart. -/
theorem Sound.index_unique {ed : Dictionary} {i j : Nat}
    {s t : DictString} (hSound : ed.Sound) (hLeft : ed.all[i]? = some s)
    (hRight : ed.all[j]? = some t) (hChars : s.str.chars = t.str.chars) : i = j := by
  have hBound := (List.getElem?_eq_some_iff.mp hLeft).1
  refine (getElem?_inj (by simpa using hBound) hSound.once).mp ?_
  simp [hLeft, hRight, hChars]

/-
  A string is found under its index, wherever it is in memory,
  when it is not where another string of the table is.
-/
theorem Sound.lookup_eq {ed : Dictionary} {i : Nat} {s : DictString}
    {string : Str} (hSound : ed.Sound) (hString : ed.all[i]? = some s)
    (hChars : string.chars = s.str.chars) (hMemory : ∀ t ∈ ed.all,
    t.str.addr = string.addr → t.str.chars = string.chars) : ed.lookup string = some (i : Int) := by
  rcases hSound.lookup_cases string with ⟨-, hAll⟩ | ⟨j, t, hFound, hMatch, hLookup⟩
  · exact (hAll s (mem_of_getElem? hString) hChars.symm).elim
  · have hSame : t.str.chars = string.chars := by
      rcases hMatch with hAddr | ⟨-, hSame⟩
      · exact hMemory t (mem_of_getElem? hFound) hAddr
      · exact hSame
    rw [hLookup, hSound.index_unique hFound hString (hSame.trans hChars)]

/- The dictionary with one more string. -/
theorem Sound.add {ed : Dictionary} {addr : Nat}
    {chars : List Bytes.Byte} (hSound : ed.Sound) (total : Int)
    (hNew : ∀ s ∈ ed.all, s.str.chars ≠ chars) (hNoNul : 0 ∉ chars) :
    Sound
      { all := ed.all ++
          [{ str := ⟨addr, chars⟩
             len := sizeOf ⟨addr, chars⟩
             next := ed.hash (hashGen chars)
             hash := hashGen chars }]
        hash := update ed.hash (hashGen chars) ed.count
        count := ed.count + 1
        total := total } := by
  have hLength : ed.hashes.length = ed.all.length := length_map ..
  have hLast : (ed.hashes ++ [hashGen chars])[ed.all.length]? = some (hashGen chars) := by
    rw [← hLength]
    simp
  refine ⟨?_, ?_, ?_, ?_, ?_⟩
  · simp [hSound.count]
  · intro h
    simp only [hashes, map_append, map_cons, map_nil, length_append, length_singleton]
    rw [← hashes, lastBefore, hLast]
    by_cases hSame : h = hashGen chars
    · subst hSame
      rw [update_self, if_pos rfl, hSound.count]
    · rw [update_of_ne hSame, if_neg (fun hEq =>
        hSame (some.inj hEq).symm), lastBefore_append _ _ _ hLength.ge]
      exact hSound.hash h
  · intro j s hString
    simp only [hashes, map_append, map_cons, map_nil]
    rw [← hashes]
    by_cases hLess : j < ed.all.length
    · rw [getElem?_append_left hLess] at hString
      rw [lastBefore_append _ _ _ (by omega)]
      exact hSound.next j s hString
    · have hBound := (List.getElem?_eq_some_iff.mp hString).1
      rw [length_append, length_singleton] at hBound
      obtain rfl : j = ed.all.length := by omega
      rw [getElem?_concat_length] at hString
      obtain rfl := some.inj hString
      rw [lastBefore_append _ _ _ hLength.ge]
      exact hSound.hash _
  · intro s hMem
    rcases mem_append.mp hMem with hOld | hOwn
    · exact hSound.own s hOld
    · obtain rfl := mem_singleton.mp hOwn
      exact ⟨rfl, rfl, hNoNul⟩
  · rw [map_append, nodup_append]
    refine ⟨hSound.once, by simp, ?_⟩
    intro c hc c' hc'
    rcases mem_map.mp hc with ⟨s, hs, rfl⟩
    obtain rfl : c' = chars := by simpa using hc'
    exact hNew s hs

/- `eet_dictionary_string_add` -/
theorem Sound.stringAdd {ed ed' : Dictionary} {string : Str} {memory : Memory}
    {i : Int} (hSound : ed.Sound) (hNoNul : 0 ∉ string.chars)
    (hAdd : ed.stringAdd string memory = some (ed', i)) : ed'.Sound := by
  unfold Dictionary.stringAdd at hAdd
  rcases hSound.lookup_cases string with ⟨hNone, hNew⟩ | ⟨j, s, -, -, hFound⟩
  · rw [hNone, bind_eq_bind, bind_some, if_neg (by simp)] at hAdd
    cases hShare : memory.share with
    | none =>
      rw [hShare] at hAdd
      obtain rfl := (Prod.mk.inj (some.inj hAdd)).1
      exact hSound
    | some addr =>
      rw [hShare] at hAdd
      dsimp only at hAdd
      rw [bind_eq_bind, bind_eq_some_iff] at hAdd
      rcases hAdd with ⟨grown, hGrow, hAdd⟩
      cases grown with
      | none =>
        obtain rfl := (Prod.mk.inj (some.inj hAdd)).1
        exact hSound
      | some grown =>
        have hGrown : ∃ total, grown = { ed with total := total } := by
          unfold grow at hGrow
          split at hGrow
          · split at hGrow
            · simp at hGrow
            · split at hGrow
              · exact ⟨_, (some.inj (some.inj hGrow)).symm⟩
              · simp at hGrow
          · exact ⟨ed.total, (some.inj (some.inj hGrow)).symm⟩
        rcases hGrown with ⟨total, rfl⟩
        dsimp only at hAdd
        split at hAdd
        · simp at hAdd
        · obtain rfl := (Prod.mk.inj (some.inj hAdd)).1
          exact hSound.add total hNew hNoNul
  · rw [hFound, bind_eq_bind, bind_some, if_pos (by omega)] at hAdd
    obtain rfl := (Prod.mk.inj (some.inj hAdd)).1
    exact hSound

end Dictionary

---
-- Directories
---

open Bytes

/- What is known of an entry in the bucket `h`. -/
structure FileNode.Sound (efn : FileNode) (h : Nat) : Prop where
  hash : hashGen efn.name = h
  noNul : 0 ∉ efn.name
  nameSize : efn.nameSize = efn.name.length + 1
  data : ∃ data, efn.data = some data ∧
    efn.size = data.length ∧ 0 < efn.size
  dataSize : efn.dataSize = efn.size
  compression : efn.compression = false
  compressionType : efn.compressionType = 0
  ciphered : efn.ciphered = false

/- A directory whose names are all different. -/
structure Nodes.Sound (nodes : Nodes) : Prop where
  entry : ∀ h, ∀ efn ∈ nodes h, efn.Sound h
  once : ∀ h, ((nodes h).map fun efn => efn.name).Nodup

theorem Nodes.empty_sound : Nodes.Sound fun _ => [] where
  entry _ _ h := by simp at h
  once _ := by simp

/- One bucket is changed. -/
theorem Nodes.Sound.update {nodes : Nodes} {h : Nat} {bucket : List FileNode}
    (hSound : nodes.Sound) (hEntry : ∀ efn ∈ bucket, efn.Sound h)
    (hOnce : (bucket.map fun efn => efn.name).Nodup) : Nodes.Sound (update nodes h bucket) := by
  constructor
  · intro k
    by_cases hSame : k = h
    · subst hSame
      rw [update_self]
      exact hEntry
    · rw [update_of_ne hSame]
      exact hSound.entry k
  · intro k
    by_cases hSame : k = h
    · subst hSame
      rw [update_self]
      exact hOnce
    · rw [update_of_ne hSame]
      exact hSound.once k

/- The first node with a name keeps it. -/
theorem defineFirst_some {name : List Byte}
    {define : FileNode → FileNode} {efns bucket : List FileNode}
    (hName : ∀ efn, (define efn).name = efn.name)
    (hDefine : defineFirst name define efns = some bucket) :
    bucket.map (fun efn => efn.name) = efns.map (fun efn => efn.name) ∧
        ∀ efn ∈ bucket, efn ∈ efns ∨ ∃ efn' ∈ efns, efn = define efn' := by
  induction efns generalizing bucket with
  | nil => simp [defineFirst] at hDefine
  | cons e efns ih =>
    unfold defineFirst at hDefine
    split at hDefine
    · obtain rfl := some.inj hDefine
      refine ⟨by simp [hName], ?_⟩
      intro efn hMem
      rcases mem_cons.mp hMem with rfl | hMem
      · exact Or.inr ⟨e, by simp, rfl⟩
      · exact Or.inl (by simp [hMem])
    · rw [map_eq_some_iff] at hDefine
      rcases hDefine with ⟨bucket', hRest, rfl⟩
      rcases ih hRest with ⟨hNames, hAll⟩
      refine ⟨by simp [hNames], ?_⟩
      intro efn hMem
      rcases mem_cons.mp hMem with rfl | hMem
      · exact Or.inl (by simp)
      · rcases hAll efn hMem with h | ⟨efn', h, hEq⟩
        · exact Or.inl (by simp [h])
        · exact Or.inr ⟨efn', by simp [h], hEq⟩

theorem defineFirst_none {name : List Byte} {define : FileNode → FileNode} {efns : List FileNode}
    (hDefine : defineFirst name define efns = none) : ∀ efn ∈ efns, efn.name ≠ name := by
  induction efns with
  | nil => simp
  | cons e efns ih =>
    unfold defineFirst at hDefine
    split at hDefine
    · simp at hDefine
    · rename_i hOther
      rw [map_eq_none_iff] at hDefine
      intro efn hMem
      rcases mem_cons.mp hMem with rfl | hMem
      · exact hOther
      · exact ih hDefine efn hMem

/- Entries whose data is defined are sound. -/
def Defines (define : FileNode → FileNode) : Prop :=
  (∀ efn, (define efn).name = efn.name) ∧
    ∀ (efn : FileNode) h, hashGen efn.name = h →
      0 ∉ efn.name →
      efn.nameSize = efn.name.length + 1 →
      (define efn).Sound h

theorem defineData_defines (ef : File) {allocs : Allocs} {data : List Byte} (isAlias : Bool)
    (hCopy : allocs.copy = true) (hData : data ≠ []) :
    Defines fun efn =>
      { defineData ef allocs efn (some data) data.length with
        isAlias := isAlias } := by
  refine ⟨fun efn => rfl, ?_⟩
  intro efn h hHash hNoNul hSize
  have hPos := length_pos_iff.mpr hData
  refine ⟨hHash, hNoNul, hSize, ⟨data, ?_, rfl, hPos⟩, rfl, rfl,
    rfl, rfl⟩
  simp [defineData, hData, hCopy]

/- What is known of a file. -/
structure File.Sound (ef : File) : Prop where
  nodes : ∀ nodes, ef.nodes = some nodes → nodes.Sound
  ed : ∀ ed, ef.ed = some ed → ed.Sound

theorem File.new_sound (hasDictionary : Bool) : (File.new hasDictionary).Sound := by
  constructor
  · intro nodes h
    simp [File.new] at h
  · intro ed h
    cases hasDictionary with
    | false => simp [File.new] at h
    | true =>
      obtain rfl := some.inj h
      exact Dictionary.new_sound

/- A new table is empty. -/
theorem File.Sound.table {ef : File} {allocs : Allocs} {nodes : Nodes}
    (hSound : ef.Sound) (hTable : ef.table allocs = some nodes) : nodes.Sound := by
  unfold File.table at hTable
  split at hTable
  · rename_i nodes' hNodes
    obtain rfl := some.inj hTable
    exact hSound.nodes _ hNodes
  · split at hTable
    · obtain rfl := some.inj hTable
      exact Nodes.empty_sound
    · simp at hTable

/- An entry is defined. -/
theorem File.Sound.define {ef ef' : File} {allocs : Allocs} {nodes : Nodes}
    {name : CString} {define : FileNode → FileNode}
    (hSound : ef.Sound) (hNodes : nodes.Sound) (hDefines : Defines define)
    (hRun : ef.define allocs nodes name define = some ef') : ef'.Sound := by
  unfold File.define at hRun
  dsimp only at hRun
  split at hRun
  · rename_i bucket hFirst
    obtain rfl := some.inj hRun
    rcases defineFirst_some hDefines.1 hFirst with ⟨hNames, hAll⟩
    refine ⟨?_, hSound.ed⟩
    intro nodes' h
    obtain rfl := some.inj h
    refine hNodes.update ?_ ?_
    · intro efn hMem
      rcases hAll efn hMem with hOld | ⟨efn', hOld, rfl⟩
      · exact hNodes.entry _ efn hOld
      · have hOwn := hNodes.entry _ efn' hOld
        exact hDefines.2 efn' _ hOwn.hash hOwn.noNul hOwn.nameSize
    · rw [hNames]
      exact hNodes.once _
  · rename_i hNone
    split at hRun
    · obtain rfl := some.inj hRun
      refine ⟨?_, hSound.ed⟩
      intro nodes' h
      obtain rfl := some.inj h
      exact hNodes
    · split at hRun
      · simp at hRun
      · obtain rfl := some.inj hRun
        refine ⟨?_, hSound.ed⟩
        intro nodes' h
        obtain rfl := some.inj h
        refine hNodes.update ?_ ?_
        · intro efn hMem
          rcases mem_cons.mp hMem with rfl | hOld
          · exact hDefines.2 (newNode name) _ rfl name.noNul rfl
          · exact hNodes.entry _ efn hOld
        · rw [map_cons, nodup_cons, hDefines.1]
          refine ⟨?_, hNodes.once _⟩
          intro hMem
          rcases mem_map.mp hMem with ⟨efn, hOld, hEq⟩
          exact defineFirst_none hNone efn hOld hEq

/-
  There is memory for what the call does not check: the name,
  the copy of the data and, in `eet_write`, the buffer.
-/
def Call.MemoryOk : Call → Prop
  | .write allocs _ _ =>
    allocs.buffer = true ∧ allocs.name = true ∧
      allocs.copy = true
  | .aliasTo allocs _ _ => allocs.name = true ∧ allocs.copy = true
  | .delete _ => True
  | .stringAdd _ _ _ => True

/- A call keeps what is known. -/
theorem callStep_sound {ef ef' : File} {call : Call} (hSound : ef.Sound)
    (hMemory : call.MemoryOk) (hStep : callStep ef call = some ef') : ef'.Sound := by
  cases call with
  | write allocs name data =>
    rcases hMemory with ⟨hBuffer, -, hCopy⟩
    simp only [callStep, File.write, hBuffer, if_true] at hStep
    split at hStep
    · obtain rfl := some.inj hStep
      exact hSound
    · rename_i hData
      split at hStep
      · obtain rfl := some.inj hStep
        exact hSound
      · rename_i nodes hTable
        exact hSound.define (hSound.table hTable) (defineData_defines ef false hCopy hData) hStep
  | aliasTo allocs name destination =>
    rcases hMemory with ⟨-, hCopy⟩
    simp only [callStep, File.aliasTo] at hStep
    split at hStep
    · obtain rfl := some.inj hStep
      exact hSound
    · rename_i nodes hTable
      have hNodes := hSound.table hTable
      split at hStep
      · obtain rfl := some.inj hStep
        refine ⟨?_, hSound.ed⟩
        intro nodes' h
        obtain rfl := some.inj h
        exact hNodes
      · have hData : destination.chars ++ [0] ≠ [] := by
          simp
        have hDefines := defineData_defines ef true hCopy hData
        rw [length_append, length_singleton] at hDefines
        exact hSound.define hNodes hDefines hStep
  | delete name =>
    obtain rfl := some.inj hStep
    unfold File.delete
    split
    · exact hSound
    · rename_i nodes hTable
      have hNodes := hSound.nodes nodes hTable
      dsimp only
      split
      · refine ⟨?_, hSound.ed⟩
        intro nodes' h
        obtain rfl := some.inj h
        refine hNodes.update ?_ ?_
        · intro efn hMem
          exact hNodes.entry _ efn (mem_of_mem_eraseP hMem)
        · exact ((eraseP_sublist).map _).nodup (hNodes.once _)
      · exact hSound
  | stringAdd memory addr string =>
    simp only [callStep, File.stringAdd] at hStep
    split at hStep
    · obtain rfl := some.inj hStep
      exact hSound
    · rename_i ed hEd
      rw [map_eq_some_iff] at hStep
      rcases hStep with ⟨⟨ed', i⟩, hAdd, rfl⟩
      refine ⟨hSound.nodes, ?_⟩
      intro ed'' h
      obtain rfl := some.inj h
      exact (hSound.ed ed hEd).stringAdd string.noNul hAdd

/- All runs of calls keep it. -/
theorem calls_sound {hasDictionary : Bool} {calls : List Call}
    {ef : File} (hGuarded : Runs.Guarded callStep (fun _ call =>
    call.MemoryOk) (File.new hasDictionary) calls)
    (hRun : Runs.run callStep (File.new hasDictionary) calls =
      some ef) :
    ef.Sound :=
  Runs.inv_of_run File.Sound (fun _ _ _ hSound hOk hStep =>
      callStep_sound hSound hOk hStep) (File.new_sound hasDictionary) hGuarded hRun

end Efl.Eet
