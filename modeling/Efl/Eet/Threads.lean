import Efl.Eet.Sound

/-
  Threads that add strings to one dictionary.

  A call of `eet_dictionary_string_add` looks the string up
  under the read lock, and inserts it under the write lock;
  in between, other threads have the lock.  Each of the two
  sections is one step.

  Main declarations:
    * `Dictionary.readSection`, `Dictionary.writeSection`
    * `Threads`, `Threads.step`
    * `Threads.step_of_alone`
    * `Threads.interleaved_correct_iff`
-/

---
-- The Two Sections of a Call
---

namespace Efl.Eet

open Option Function

/-
  How far a call is: in front of its lookup, between the
  locks with its shared copy, or back with an index; `failed`
  is the -1 of `on_error`.
-/
inductive Phase where
  | looking
  | missed (addr : Nat)
  | returned (idx : Int)
  | failed
  deriving DecidableEq

namespace Dictionary

/-
  What is done under the read lock; `share` is what
  `eina_stringshare_add` returns.
-/
def readSection (ed : Dictionary) (string : Str) (share : Option Nat) : Option Phase := do
  let idx ← ed.lookup string
  if idx ≠ -1 then
    some (.returned idx)
  else
    match share with
    | none => some .failed
    | some addr => some (.missed addr)

/- What is done under the write lock. -/
def writeSection (ed : Dictionary) (string : Str) (addr : Nat)
    (grows : Bool) : Option (Dictionary × Phase) := do
  let grown ← ed.grow ⟨some addr, grows⟩
  match grown with
  | none => some (ed, .failed)
  | some ed =>
    if ed.count < 0 then
      none
    else
      let hash := hashGen string.chars
      let s : DictString :=
        { str := ⟨addr, string.chars⟩
          len := sizeOf string
          next := ed.hash hash
          hash := hash }
      some
        ({ ed with
          all := ed.all ++ [s]
          hash := update ed.hash hash ed.count
          count := ed.count + 1 }, .returned ed.count)

/- What a call returns when it is in this phase. -/
def Phase.value : Phase → Int
  | .looking => -1
  | .missed _ => -1
  | .returned idx => idx
  | .failed => -1

/- The string that a call inserts. -/
def added (ed : Dictionary) (string : Str) (addr : Nat) : DictString where
  str := ⟨addr, string.chars⟩
  len := sizeOf string
  next := ed.hash (hashGen string.chars)
  hash := hashGen string.chars

/- The section that has the memory it needs. -/
theorem writeSection_adds {ed : Dictionary} {grows : Bool}
    (string : Str) (addr : Nat) (hCount : 0 ≤ ed.count) (hTotal : 0 ≤ ed.total)
    (hRoom : ed.total = ed.count → ed.total + 64 ≤ CInt.intMax)
    (hGrows : ed.total = ed.count → grows = true) :
    ∃ total, 0 ≤ total ∧
      ed.writeSection string addr grows =
        some
          ({ all := ed.all ++ [ed.added string addr]
             hash := update ed.hash (hashGen string.chars) ed.count
             count := ed.count + 1
             total := total }, .returned ed.count) := by
  by_cases hFull : ed.total = ed.count
  · refine ⟨ed.total + 64, by omega, ?_⟩
    have hGrow : ed.grow ⟨some addr, grows⟩ = some (some { ed with total := ed.total + 64 }) := by
      unfold grow
      rw [if_pos hFull, if_neg (not_lt.mpr (hRoom hFull)), if_pos ⟨hGrows hFull, by omega⟩]
    unfold writeSection
    rw [hGrow, bind_eq_bind, bind_some]
    exact if_neg (not_lt.mpr hCount)
  · refine ⟨ed.total, hTotal, ?_⟩
    have hGrow : ed.grow ⟨some addr, grows⟩ = some (some ed) := by
      unfold grow
      rw [if_neg hFull]
    unfold writeSection
    rw [hGrow, bind_eq_bind, bind_some]
    exact if_neg (not_lt.mpr hCount)

/- The section that cannot make the table larger. -/
theorem writeSection_fails {ed : Dictionary} {string : Str} {addr : Nat}
    (hFull : ed.total = ed.count)
    (hRoom : ed.total + 64 ≤ CInt.intMax) :
    ed.writeSection string addr false = some (ed, .failed) := by
  have hGrow : ed.grow ⟨some addr, false⟩ = some none := by
    unfold grow
    rw [if_pos hFull, if_neg (not_lt.mpr hRoom), if_neg (by simp)]
  unfold writeSection
  rw [hGrow]
  rfl

/- The size of the table overflows. -/
theorem writeSection_overflow {ed : Dictionary} {string : Str} {addr : Nat} {grows : Bool}
    (hFull : ed.total = ed.count)
    (hRoom : ¬ ed.total + 64 ≤ CInt.intMax) : ed.writeSection string addr grows = none := by
  have hGrow : ed.grow ⟨some addr, grows⟩ = none := by
    unfold grow
    rw [if_pos hFull, if_pos (not_le.mp hRoom)]
  unfold writeSection
  rw [hGrow]
  rfl

/- The section leaves the strings that are there. -/
theorem writeSection_grows {ed : Dictionary} {string : Str} {addr : Nat}
    {grows : Bool} {r : Dictionary × Phase}
    (hWrite : ed.writeSection string addr grows = some r) : ed.all <+: r.1.all := by
  unfold writeSection at hWrite
  rcases bind_eq_some_iff.mp hWrite with ⟨grown, hGrow, hAdd⟩
  cases grown with
  | none =>
    obtain rfl := some.inj hAdd
    exact List.prefix_refl _
  | some grown =>
    have hAll : grown.all = ed.all := by
      unfold grow at hGrow
      split at hGrow
      · split at hGrow
        · simp at hGrow
        · split at hGrow
          · obtain rfl := some.inj (some.inj hGrow)
            rfl
          · simp at hGrow
      · obtain rfl := some.inj (some.inj hGrow)
        rfl
    dsimp only at hAdd
    split at hAdd
    · simp at hAdd
    · obtain rfl := some.inj hAdd
      rw [← hAll]
      exact List.prefix_append ..

/- The index that a lookup gives is that of the string. -/
theorem readSection_spec {ed : Dictionary} {string : Str} (share : Option Nat) (hSound : ed.Sound)
    (hMemory : ∀ t ∈ ed.all, t.str.addr = string.addr →
      t.str.chars = string.chars) :
    ∃ phase, ed.readSection string share = some phase ∧
      ∀ i, phase = .returned i →
        ∃ (j : Nat) (t : DictString), i = (j : Int) ∧
          ed.all[j]? = some t ∧ t.str.chars = string.chars := by
  unfold readSection
  rcases hSound.lookup_cases string with ⟨hNone, -⟩ | ⟨j, t, hAt, hMatch, hFound⟩
  · rw [hNone, bind_eq_bind, bind_some, if_neg (by simp)]
    cases share with
    | none => exact ⟨.failed, rfl, by simp⟩
    | some addr => exact ⟨.missed addr, rfl, by simp⟩
  · rw [hFound, bind_eq_bind, bind_some, if_pos (by omega)]
    refine ⟨.returned j, rfl, ?_⟩
    intro i hi
    refine ⟨j, t, (Phase.returned.inj hi).symm, hAt, ?_⟩
    rcases hMatch with hAddr | ⟨-, hSame⟩
    · exact hMemory t (List.mem_of_getElem? hAt) hAddr
    · exact hSame

end Dictionary

---
-- Interleavings
---

/- A call of some thread. -/
structure Caller where
  string : Str
  phase : Phase
  deriving DecidableEq

/- The dictionary, and all calls that were made. -/
structure Threads where
  ed : Dictionary
  callers : List Caller

namespace Threads

/- A thread calls, or call `k` gets one of the locks. -/
inductive Step where
  | call (string : Str)
  | read (k : Nat) (share : Option Nat)
  | write (k : Nat) (grows : Bool)

/-
  One step; a call that does not wait for the lock does
  nothing.  `none` is a fault of a section.
-/
def step (s : Threads) : Step → Option Threads
  | .call string =>
    some { s with callers := s.callers ++ [⟨string, .looking⟩] }
  | .read k share =>
    match s.callers[k]? with
    | some ⟨string, .looking⟩ => do
      let phase ← s.ed.readSection string share
      some { s with callers := s.callers.set k ⟨string, phase⟩ }
    | _ => some s
  | .write k grows =>
    match s.callers[k]? with
    | some ⟨string, .missed addr⟩ => do
      let r ← s.ed.writeSection string addr grows
      some ⟨r.1, s.callers.set k ⟨string, r.2⟩⟩
    | _ => some s

/- `eet_dictionary_add`, and no call yet. -/
def new : Threads :=
  ⟨Dictionary.new, []⟩

/-
  Calls with equal strings have the same index, calls with
  different strings different ones, and no string is stored
  at two indices.
-/
structure Correct (s : Threads) : Prop where
  same : ∀ c ∈ s.callers, ∀ c' ∈ s.callers, ∀ i i',
    c.phase = .returned i → c'.phase = .returned i' →
    c.string.chars = c'.string.chars → i = i'
  different : ∀ c ∈ s.callers, ∀ c' ∈ s.callers, ∀ i i',
    c.phase = .returned i → c'.phase = .returned i' →
    c.string.chars ≠ c'.string.chars → i ≠ i'
  once : ∀ (i j : Nat) t u, s.ed.all[i]? = some t →
    s.ed.all[j]? = some u → t.str.chars = u.str.chars → i = j

/-
  The arguments are C strings, and an address at which a
  string of the table is has no other string.
-/
def MemoryOk (s : Threads) : Step → Prop
  | .call string => 0 ∉ string.chars
  | .read k _ => ∀ c, s.callers[k]? = some c →
      ∀ t ∈ s.ed.all, t.str.addr = c.string.addr →
        t.str.chars = c.string.chars
  | .write _ _ => True

/-
  A call that gets the write lock, and the memory it needs,
  does not find its string in the table by then.
-/
def Alone (s : Threads) : Step → Prop
  | .call _ => True
  | .read _ _ => True
  | .write k grows => ∀ string addr,
      s.callers[k]? = some ⟨string, .missed addr⟩ →
      (s.ed.total = s.ed.count →
        s.ed.total + 64 ≤ CInt.intMax) ∧
      ((s.ed.total = s.ed.count → grows = true) →
        ∀ t ∈ s.ed.all, t.str.chars ≠ string.chars)

/-
  The calls that are back have the index of their string.
-/
structure Good (s : Threads) : Prop where
  sound : s.ed.Sound
  total : 0 ≤ s.ed.total
  chars : ∀ c ∈ s.callers, 0 ∉ c.string.chars
  index : ∀ c ∈ s.callers, ∀ i, c.phase = .returned i →
    ∃ (j : Nat) (t : DictString), i = (j : Int) ∧
      s.ed.all[j]? = some t ∧ t.str.chars = c.string.chars

theorem new_good : Good new where
  sound := Dictionary.new_sound
  total := le_refl _
  chars := by simp [new]
  index := by simp [new]

theorem Good.correct {s : Threads} (hGood : Good s) : Correct s where
  same := by
    intro c hc c' hc' i i' hPhase hPhase' hSame
    rcases hGood.index c hc i hPhase with ⟨j, t, rfl, hAt, hChars⟩
    rcases hGood.index c' hc' i' hPhase' with ⟨j', t', rfl, hAt', hChars'⟩
    rw [hGood.sound.index_unique hAt hAt' (hChars.trans (hSame.trans hChars'.symm))]
  different := by
    intro c hc c' hc' i i' hPhase hPhase' hDifferent hEq
    rcases hGood.index c hc i hPhase with ⟨j, t, rfl, hAt, hChars⟩
    rcases hGood.index c' hc' i' hPhase' with ⟨j', t', rfl, hAt', hChars'⟩
    obtain rfl : j = j' := by exact_mod_cast hEq
    rw [hAt] at hAt'
    obtain rfl := Option.some.inj hAt'
    exact hDifferent (hChars.symm.trans hChars')
  once := fun _ _ _ _ hAt hAt' hChars =>
    hGood.sound.index_unique hAt hAt' hChars

end Threads

end Efl.Eet

---
-- Steps
---

namespace Efl.Eet.Threads

open List Option

/- Call `k` gets to another phase. -/
theorem mem_set {callers : List Caller} {k : Nat} {c d : Caller}
    (hMem : d ∈ callers.set k c) : d = c ∨ d ∈ callers := (mem_or_eq_of_mem_set hMem).symm

variable {s : Threads}

theorem Good.chars_set {k : Nat} {c : Caller} (hGood : Good s)
    (hCaller : s.callers[k]? = some c) (phase : Phase) :
    ∀ d ∈ s.callers.set k ⟨c.string, phase⟩, 0 ∉ d.string.chars := by
  intro d hd
  rcases mem_set hd with rfl | hd
  · exact hGood.chars c (mem_of_getElem? hCaller)
  · exact hGood.chars d hd

/-
  What a step keeps, unless a string is inserted that is in
  the table.
-/
theorem step_of_alone (a : Step) (hGood : Good s)
    (hMemory : MemoryOk s a) (hAlone : Alone s a) : ∃ s', step s a = some s' ∧ Good s' := by
  cases a with
  | call string =>
    refine ⟨_, rfl, hGood.sound, hGood.total, ?_, ?_⟩
    · intro c hc
      rcases mem_append.mp hc with hc | hc
      · exact hGood.chars c hc
      · obtain rfl := mem_singleton.mp hc
        exact hMemory
    · intro c hc i hPhase
      rcases mem_append.mp hc with hc | hc
      · exact hGood.index c hc i hPhase
      · obtain rfl := mem_singleton.mp hc
        simp at hPhase
  | read k share =>
    unfold step
    dsimp only
    split
    · rename_i string hCaller
      rcases Dictionary.readSection_spec share hGood.sound
        (hMemory _ hCaller) with ⟨phase, hRead, hIndex⟩
      rw [hRead]
      refine ⟨_, rfl, hGood.sound, hGood.total, ?_, ?_⟩
      · exact hGood.chars_set hCaller phase
      · intro c hc i hPhase
        rcases mem_set hc with rfl | hc
        · exact hIndex i hPhase
        · exact hGood.index c hc i hPhase
    · exact ⟨s, rfl, hGood⟩
  | write k grows =>
    unfold step
    dsimp only
    split
    · rename_i string addr hCaller
      have hCallerMem := mem_of_getElem? hCaller
      rcases hAlone string addr hCaller with ⟨hRoom, hNew⟩
      have hCount : 0 ≤ s.ed.count := by
        rw [hGood.sound.count]
        omega
      by_cases hGrows : s.ed.total = s.ed.count → grows = true
      · rcases Dictionary.writeSection_adds string addr
          hCount hGood.total hRoom hGrows with ⟨total, hTotal, hWrite⟩
        rw [hWrite]
        refine ⟨_, rfl, hGood.sound.add total (hNew hGrows)
          (hGood.chars _ hCallerMem), hTotal, ?_, ?_⟩
        · exact hGood.chars_set hCaller _
        · intro c hc i hPhase
          rcases mem_set hc with rfl | hc
          · refine ⟨s.ed.all.length, s.ed.added string addr, ?_, ?_, rfl⟩
            · rw [← hGood.sound.count]
              exact (Phase.returned.inj hPhase).symm
            · exact getElem?_concat_length ..
          · rcases hGood.index c hc i hPhase with ⟨j, t, rfl, hAt, hChars⟩
            refine ⟨j, t, rfl, ?_, hChars⟩
            exact (getElem?_append_left (List.getElem?_eq_some_iff.mp hAt).1).trans hAt
      · rcases Classical.not_imp.mp hGrows with ⟨hFull, hNo⟩
        obtain rfl : grows = false := by simpa using hNo
        rw [Dictionary.writeSection_fails hFull (hRoom hFull)]
        refine ⟨_, rfl, hGood.sound, hGood.total, ?_, ?_⟩
        · exact hGood.chars_set hCaller _
        · intro c hc i hPhase
          rcases mem_set hc with rfl | hc
          · simp at hPhase
          · exact hGood.index c hc i hPhase
    · exact ⟨s, rfl, hGood⟩

/- A string is stored at two indices. -/
def Twice (ed : Dictionary) : Prop :=
  ∃ (i j : Nat) (t u : DictString), i ≠ j ∧
    ed.all[i]? = some t ∧ ed.all[j]? = some u ∧
    t.str.chars = u.str.chars

theorem Twice.not_correct (hTwice : Twice s.ed) : ¬ Correct s := by
  rintro hCorrect
  rcases hTwice with ⟨i, j, t, u, hNe, hAt, hAt', hChars⟩
  exact hNe (hCorrect.once i j t u hAt hAt' hChars)

variable {s' : Threads}

/- Otherwise there is a fault, or a string is stored twice. -/
theorem step_of_not_alone {a : Step} (hGood : Good s)
    (hAlone : ¬ Alone s a) (hStep : step s a = some s') : Twice s'.ed := by
  cases a with
  | call string => exact (hAlone trivial).elim
  | read k share => exact (hAlone trivial).elim
  | write k grows =>
    unfold Alone at hAlone
    push Not at hAlone
    rcases hAlone with ⟨string, addr, hCaller, hNot⟩
    unfold step at hStep
    simp only [hCaller] at hStep
    have hCount : 0 ≤ s.ed.count := by
      rw [hGood.sound.count]
      omega
    by_cases hRoom : s.ed.total = s.ed.count →
        s.ed.total + 64 ≤ CInt.intMax
    · rcases hNot hRoom with ⟨hGrows, t, ht, hChars⟩
      rcases Dictionary.writeSection_adds string addr
        hCount hGood.total hRoom hGrows with ⟨total, -, hWrite⟩
      rw [hWrite, bind_eq_bind, bind_some] at hStep
      obtain rfl := some.inj hStep
      rcases mem_iff_getElem?.mp ht with ⟨i, hAt⟩
      have hLess := (List.getElem?_eq_some_iff.mp hAt).1
      refine ⟨i, s.ed.all.length, t, s.ed.added string addr, by omega, ?_, ?_, hChars⟩
      · exact (getElem?_append_left hLess).trans hAt
      · exact getElem?_concat_length ..
    · rcases Classical.not_imp.mp hRoom with ⟨hFull, hOver⟩
      rw [Dictionary.writeSection_overflow hFull hOver] at hStep
      simp at hStep

/- The table only grows. -/
theorem step_grows {a : Step} (hStep : step s a = some s') : s.ed.all <+: s'.ed.all := by
  cases a with
  | call string =>
    obtain rfl := some.inj hStep
    exact prefix_refl _
  | read k share =>
    unfold step at hStep
    dsimp only at hStep
    split at hStep
    · rcases bind_eq_some_iff.mp hStep with ⟨phase, -, hEq⟩
      obtain rfl := some.inj hEq
      exact prefix_refl _
    · obtain rfl := some.inj hStep
      exact prefix_refl _
  | write k grows =>
    unfold step at hStep
    dsimp only at hStep
    split at hStep
    · rcases bind_eq_some_iff.mp hStep with ⟨r, hWrite, hEq⟩
      obtain rfl := some.inj hEq
      exact Dictionary.writeSection_grows hWrite
    · obtain rfl := some.inj hStep
      exact prefix_refl _

theorem run_grows {steps : List Step}
    (hRun : Runs.run step s steps = some s') : s.ed.all <+: s'.ed.all := by
  induction steps generalizing s with
  | nil =>
    obtain rfl := some.inj hRun
    exact prefix_refl _
  | cons a steps ih =>
    rw [Runs.run_cons, bind_eq_some_iff] at hRun
    rcases hRun with ⟨s₁, hStep, hRest⟩
    exact (step_grows hStep).trans (ih hRest)

/- A string that is stored twice stays so. -/
theorem Twice.run {steps : List Step} (hTwice : Twice s.ed)
    (hRun : Runs.run step s steps = some s') : Twice s'.ed := by
  rcases hTwice with ⟨i, j, t, u, hNe, hAt, hAt', hChars⟩
  rcases run_grows hRun with ⟨more, hMore⟩
  have hKeep : ∀ (n : Nat) v, s.ed.all[n]? = some v → s'.ed.all[n]? = some v := by
    intro n v hv
    rw [← hMore, getElem?_append_left (List.getElem?_eq_some_iff.mp hv).1, hv]
  exact ⟨i, j, t, u, hNe, hKeep i t hAt, hKeep j u hAt', hChars⟩

---
-- Runs
---

theorem run_correct_iff (steps : List Step) (hGood : Good s)
    (hMemory : Runs.Guarded step MemoryOk s steps) :
    (∃ s', Runs.run step s steps = some s' ∧ Correct s') ↔ Runs.Guarded step Alone s steps := by
  induction steps generalizing s with
  | nil => exact ⟨fun _ => trivial, fun _ => ⟨s, rfl, hGood.correct⟩⟩
  | cons a steps ih =>
    rcases hMemory with ⟨hHere, hLater⟩
    rw [Runs.run_cons]
    by_cases hAlone : Alone s a
    · rcases step_of_alone a hGood hHere hAlone with ⟨s₁, hStep, hGood₁⟩
      rw [hStep, bind_some, ih hGood₁ (hLater s₁ hStep)]
      constructor
      · intro hRest
        refine ⟨hAlone, ?_⟩
        intro s' hEq
        rw [hStep] at hEq
        obtain rfl := some.inj hEq
        exact hRest
      · intro hGuarded
        exact hGuarded.2 s₁ hStep
    · constructor
      · rintro ⟨s', hRun, hCorrect⟩
        rcases bind_eq_some_iff.mp hRun with ⟨s₁, hStep, hRest⟩
        have hTwice := step_of_not_alone hGood hAlone hStep
        exact ((hTwice.run hRest).not_correct hCorrect).elim
      · intro hGuarded
        exact (hAlone hGuarded.1).elim

/-
  An interleaving is correct exactly when every string that is
  inserted is not in the table at that time.
-/
theorem interleaved_correct_iff (steps : List Step)
    (hMemory : Runs.Guarded step MemoryOk new steps) :
    (∃ s, Runs.run step new steps = some s ∧ Correct s) ↔
      Runs.Guarded step Alone new steps :=
  run_correct_iff steps new_good hMemory

/- Two calls with different strings at different addresses. -/
def sampleSteps : List Step :=
  [.call ⟨1, [97]⟩, .call ⟨2, [98]⟩, .read 0 (some 3),
    .read 1 (some 4), .write 1 true, .write 0 true]

/- The steps of these calls find what they need. -/
theorem sampleSteps_memory : Runs.Guarded step MemoryOk new sampleSteps := by
  refine ⟨by simp [MemoryOk], fun s hs => ?_⟩
  obtain rfl := some.inj hs
  refine ⟨by simp [MemoryOk], fun s hs => ?_⟩
  obtain rfl := some.inj hs
  refine ⟨fun c _ t ht => (nomatch ht), fun s hs => ?_⟩
  obtain rfl := some.inj hs
  refine ⟨fun c _ t ht => (nomatch ht), fun s hs => ?_⟩
  obtain rfl := some.inj hs
  exact ⟨trivial, fun _ _ => ⟨trivial, fun _ _ => trivial⟩⟩

theorem sampleSteps_alone : Runs.Guarded step Alone new sampleSteps := by
  refine ⟨trivial, fun s hs => ?_⟩
  obtain rfl := some.inj hs
  refine ⟨trivial, fun s hs => ?_⟩
  obtain rfl := some.inj hs
  refine ⟨trivial, fun s hs => ?_⟩
  obtain rfl := some.inj hs
  refine ⟨trivial, fun s hs => ?_⟩
  obtain rfl := some.inj hs
  refine ⟨?_, fun s hs => ?_⟩
  · intro string addr hCaller
    exact ⟨fun _ => by decide, fun _ t ht => (nomatch ht)⟩
  · obtain rfl := some.inj hs
    refine ⟨?_, fun _ _ => trivial⟩
    intro string addr hCaller
    have hString : string = ⟨1, [97]⟩ := (congrArg Caller.string (some.inj hCaller)).symm
    refine ⟨fun _ => by decide, fun _ t ht => ?_⟩
    obtain rfl := mem_singleton.mp ht
    rw [hString]
    decide

theorem interleaved_correct_sample :
    ∃ s, Runs.run step new sampleSteps = some s ∧
      Correct s :=
  (interleaved_correct_iff sampleSteps
    sampleSteps_memory).mpr sampleSteps_alone

/-
  Two calls with the same string that both look it up before
  one of them inserts it.
-/
def twoCalls : List Step :=
  [.call ⟨1, [97]⟩, .call ⟨1, [97]⟩, .read 0 (some 3),
    .read 1 (some 3), .write 0 true, .write 1 true]

theorem twoCalls_memory : Runs.Guarded step MemoryOk new twoCalls := by
  refine ⟨by simp [MemoryOk], fun s hs => ?_⟩
  obtain rfl := some.inj hs
  refine ⟨by simp [MemoryOk], fun s hs => ?_⟩
  obtain rfl := some.inj hs
  refine ⟨fun c _ t ht => (nomatch ht), fun s hs => ?_⟩
  obtain rfl := some.inj hs
  refine ⟨fun c _ t ht => (nomatch ht), fun s hs => ?_⟩
  obtain rfl := some.inj hs
  exact ⟨trivial, fun _ _ => ⟨trivial, fun _ _ => trivial⟩⟩

/- They get two indices. -/
theorem added_twice :
    Runs.Guarded step MemoryOk new twoCalls ∧
      ∃ s, Runs.run step new twoCalls = some s ∧
        s.callers = [⟨⟨1, [97]⟩, .returned 0⟩,
          ⟨⟨1, [97]⟩, .returned 1⟩] ∧
        ¬ Correct s := by
  refine ⟨twoCalls_memory, _, rfl, rfl, ?_⟩
  intro hCorrect
  have hSame := hCorrect.same _ (mem_cons_self ..) _
    (mem_cons_of_mem _ (mem_cons_self ..)) 0 1
    rfl rfl rfl
  exact absurd hSame (by decide)

end Efl.Eet.Threads
