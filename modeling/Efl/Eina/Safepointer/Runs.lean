import Efl.Eina.Safepointer.Registrations
import Efl.Lib.Lists
import Efl.Lib.Runs

/-
  Runs of registrations, with what they should have left.

  Beside the tables, a state has the ids that are live with
  their targets, the ids that were unregistered with how
  often their entry was registered since, and the generation
  that each entry had at last.

  Main declarations:
    * `State`, `Op`, `step`
    * `Allowed`
    * `Good.correct`
    * `register_good`, `unregister_good`
-/

---
-- States
---

namespace Efl.Eina.Safepointer

variable {T : Type}

structure State (T : Type) where
  memory : Memory T
  live : List (Nat × T)
  stale : List (Nat × Nat)
  last : Nat → Nat → Nat → Nat

inductive Op (T : Type) where
  | register (target : Option T)
  | unregister (safe : Nat)

/- Before the first registration -/
def start : State T where
  memory := .new
  live := []
  stale := []
  last _ _ _ := 0

/- The ids are of one entry. -/
def SameEntry (id id' : Nat) : Prop :=
  midOf id = midOf id' ∧ tabOf id = tabOf id' ∧
    entryOf id = entryOf id'

instance (id id' : Nat) : Decidable (SameEntry id id') :=
  inferInstanceAs (Decidable (_ ∧ _ ∧ _))

/- The id of a target is live. -/
def State.registered (s : State T) (memory : Memory T) (id : Nat) (t : T) : State T where
  memory := memory
  live := (id, t) :: s.live
  stale := s.stale.map fun p =>
    if SameEntry p.1 id then (p.1, p.2 + 1) else p
  last m b e :=
    if m = midOf id ∧ b = tabOf id ∧ e = entryOf id then
      generationOf id
    else
      s.last m b e

/- The id that a word is read as is live no longer. -/
def State.unregistered (s : State T) (memory : Memory T) (safe : Nat) : State T where
  memory := memory
  live := s.live.filter fun p => p.1 ≠ canonical safe
  stale :=
    if canonical safe ∈ s.live.map Prod.fst then
      (canonical safe, 0) :: s.stale
    else
      s.stale
  last := s.last

def step (s : State T) : Op T → Option (State T)
  | .register none => do
    let (memory, _) ← register s.memory none
    some { s with memory := memory }
  | .register (some t) => do
    let (memory, id) ← register s.memory (some t)
    some (s.registered memory id t)
  | .unregister safe => do
    let memory ← unregister s.memory safe
    some (s.unregistered memory safe)

/-
  A table that is put at an empty place has the generations
  that the entries of this place had at last.
-/
def Kept (s : State T) : Prop :=
  ∀ mid tab, (tableFind s.memory).2 = some (mid, tab) →
    s.memory.tableAt mid tab = none →
    ∀ e, s.last mid tab e ≠ 0 →
      ((s.memory.emptyTable.getD .zero).entries e).generation =
        s.last mid tab e

/-
  Fewer targets are live than the tables can hold; generations
  are not lost; an id has the index of a table.
-/
def Allowed (s : State T) : Op T → Prop
  | .register none => True
  | .register (some _) =>
    s.live.length <
      maxMidTableId * (maxTableId * maxEntryId) ∧ Kept s
  | .unregister safe => Inside s.memory safe

/- Live ids give their targets, others nothing. -/
structure Correct (s : State T) : Prop where
  distinct : (s.live.map Prod.fst).Nodup
  nonzero : ∀ p ∈ s.live, p.1 ≠ 0
  live :
    ∀ p ∈ s.live, get s.memory p.1 = some (some (.target p.2))
  stale :
    ∀ p ∈ s.stale, p.2 < maxGenerations - 1 →
      get s.memory p.1 = some none ∧
        unregister s.memory p.1 = some s.memory
  inside :
    ∀ safe,
      ((get s.memory safe).isSome ↔ Inside s.memory safe) ∧
      ((unregister s.memory safe).isSome ↔
        Inside s.memory safe)

---
-- The Invariant
---

/-
  The tables are in order, and the generations in them are
  the last ones.
-/
structure Good (s : State T) : Prop where
  tables : Tables s.memory
  entries :
    ∀ id t, (id, t) ∈ s.live ↔
      ∃ mid tab e g, ActiveAt s.memory mid tab e t g ∧
        id = compose mid tab e g
  nodup : (s.live.map Prod.fst).Nodup
  last :
    ∀ mid tab table, s.memory.tableAt mid tab = some table →
      ∀ e, (table.entries e).active = true ∨
          s.last mid tab e ≠ 0 →
        (table.entries e).generation = s.last mid tab e
  stale :
    ∀ p ∈ s.stale, ∃ mid tab e g, InRange mid tab e g ∧
      p.1 = compose mid tab e g ∧
      s.last mid tab e = advance^[p.2] g ∧
      (p.2 = 0 → ∀ t k, ¬ ActiveAt s.memory mid tab e t k)

theorem start_good : Good (start : State T) := by
  have hNone : ∀ mid tab table, (start : State T).memory.tableAt mid tab ≠ some table := by
    intro mid tab table hAt
    exact nomatch hAt
  refine ⟨⟨?_, ?_, ?_, ?_, ?_, ?_⟩, ?_, List.nodup_nil, ?_, ?_⟩
  · intro mid tab table hAt
    exact absurd hAt (hNone mid tab table)
  · intro mid tab table hAt
    exact absurd hAt (hNone mid tab table)
  · intro mid tab table hAt
    exact absurd hAt (hNone mid tab table)
  · intro mid tab table hAt
    exact absurd hAt (hNone mid tab table)
  · intro table hSpare
    exact nomatch hSpare
  · intro table hSpare
    exact nomatch hSpare
  · intro id t
    constructor
    · intro hMem
      exact nomatch hMem
    · rintro ⟨mid, tab, e, g, ⟨table, hAt, -⟩, -⟩
      exact absurd hAt (hNone mid tab table)
  · intro mid tab table hAt
    exact absurd hAt (hNone mid tab table)
  · intro p hMem
    exact nomatch hMem

section

variable {s : State T}

/- A live id is of an active entry. -/
theorem Good.activeAt (hGood : Good s) {p : Nat × T}
    (hLive : p ∈ s.live) :
    ∃ mid tab e g, InRange mid tab e g ∧
      ActiveAt s.memory mid tab e p.2 g ∧ p.1 = compose mid tab e g := by
  rcases (hGood.entries p.1 p.2).mp hLive with ⟨mid, tab, e, g, hActive, hId⟩
  exact ⟨mid, tab, e, g, hGood.tables.inRange hActive, hActive, hId⟩

/- The generation of an active entry is the last one. -/
theorem Good.last_eq (hGood : Good s) {mid tab e g : Nat} {t : T}
    (hActive : ActiveAt s.memory mid tab e t g) : s.last mid tab e = g := by
  rcases hActive with ⟨table, hAt, hEntry⟩
  have hLast := hGood.last mid tab table hAt e (Or.inl (by rw [hEntry]))
  rw [hEntry] at hLast
  exact hLast.symm

theorem Good.correct (hGood : Good s) : Correct s := by
  refine ⟨hGood.nodup, ?_, ?_, ?_, ?_⟩
  · intro p hLive
    rcases hGood.activeAt hLive with ⟨mid, tab, e, g, hRange, -, hId⟩
    rw [hId]
    exact hRange.ne_zero
  · intro p hLive
    rcases hGood.activeAt hLive with ⟨mid, tab, e, g, hRange, hActive, hId⟩
    rw [hId]
    exact get_of_tells hGood.tables ((hRange.tells p.2).mpr hActive)
  · intro p hStale hFew
    rcases hGood.stale p hStale with ⟨mid, tab, e, g, hRange, hId, hLast, hFree⟩
    have hNot : ∀ t, ¬ Tells s.memory p.1 t := by
      intro t hTells
      rw [hId, hRange.tells] at hTells
      have hSame := hGood.last_eq hTells
      rw [hLast] at hSame
      have hZero := advance_iterate_eq hRange.pos hRange.generation hFew hSame
      exact hFree hZero t g hTells
    have hInside : Inside s.memory p.1 := by
      rw [hId]
      exact hRange.inside s.memory
    exact ⟨get_of_not_tells hGood.tables hInside hNot,
      unregister_of_not_tells hGood.tables hInside hNot⟩
  · exact fun safe => ⟨get_isSome s.memory safe, unregister_isSome s.memory safe⟩

/- Some table is not full. -/
theorem Good.room (hGood : Good s) (hRoom : s.live.length <
      maxMidTableId * (maxTableId * maxEntryId)) :
    ∃ mid tab, mid < 2048 ∧ tab < 2046 ∧ ¬ Full s.memory mid tab := by
  by_contra hFull
  push Not at hFull
  have hAll : ∀ mid tab e, mid < maxMidTableId →
      tab < maxTableId → e < maxEntryId →
      (mid, tab, e) ∈ s.live.map fun p =>
        (midOf p.1, tabOf p.1, entryOf p.1) := by
    intro mid tab e hMid hTab hEntry
    rcases hFull mid tab hMid hTab with ⟨table, hAt, hNone⟩
    have hOk := hGood.tables.ok mid tab table hAt
    rcases hOk.entry_eq (hOk.active_of_full hNone hEntry) with ⟨t, hSame⟩
    have hActive : ActiveAt s.memory mid tab e t (table.entries e).generation := ⟨table, hAt, hSame⟩
    have hRange := hGood.tables.inRange hActive
    have hLive := (hGood.entries _ t).mpr ⟨mid, tab, e, _, hActive, rfl⟩
    refine List.mem_map.mpr ⟨_, hLive, ?_⟩
    dsimp only
    rw [hRange.midOf_eq, hRange.tabOf_eq, hRange.entryOf_eq]
  have hLength := Lists.mul_le_length hAll
  rw [List.length_map] at hLength
  exact Nat.not_lt.mpr hLength hRoom

end

---
-- One Operation
---

open List Function

/- What is known of the table that gets the new target -/
theorem Registered.last {s : State T} {s' : Memory T} {t : T} {mid tab e : Nat}
    {base table : Table T} (hNew : Registered s.memory s' t mid tab e base table)
    (hGood : Good s) (hKept : Kept s) {n : Nat}
    (hKnown : (base.entries n).active = true ∨ s.last mid tab n ≠ 0) :
    (base.entries n).generation = s.last mid tab n := by
  rcases hNew.source with ⟨hAt, -⟩ | ⟨hNone, hEntries, -⟩
  · exact hGood.last mid tab base hAt n hKnown
  · rw [hEntries] at hKnown ⊢
    rcases hKnown with hActive | hLast
    · rw [hGood.tables.getD.2 n] at hActive
      exact nomatch hActive
    · exact hKept mid tab hNew.found hNone n hLast

theorem State.last_registered {mid tab e g : Nat} (s : State T)
    (memory : Memory T) (t : T) (hRange : InRange mid tab e g)
    (m b n : Nat) :
    (s.registered memory (compose mid tab e g) t).last m b n =
      if m = mid ∧ b = tab ∧ n = e then g
      else s.last m b n := by
  unfold State.registered
  dsimp only
  rw [hRange.midOf_eq, hRange.tabOf_eq, hRange.entryOf_eq, hRange.generationOf_eq]

theorem InRange.sameEntry {mid tab e g mid' tab' e' g' : Nat}
    (hRange : InRange mid tab e g) (hRange' : InRange mid' tab' e' g') :
    SameEntry (compose mid tab e g) (compose mid' tab' e' g') ↔
        mid = mid' ∧ tab = tab' ∧ e = e' := by
  unfold SameEntry
  rw [hRange.midOf_eq, hRange.tabOf_eq, hRange.entryOf_eq,
    hRange'.midOf_eq, hRange'.tabOf_eq, hRange'.entryOf_eq]

section

variable {s : State T}

/- The generations after a registration are the last ones. -/
theorem Registered.last_good {s' : Memory T} {t : T} {mid tab e : Nat}
    {base table : Table T} (hNew : Registered s.memory s' t mid tab e base table)
    (hGood : Good s) (hKept : Kept s)
    (hRange : InRange mid tab e (advance (base.entries e).generation))
    {m b : Nat} {u : Table T} (hAt : s'.tableAt m b = some u)
    (n : Nat) :
    let last := (s.registered s' (compose mid tab e
      (advance (base.entries e).generation)) t).last m b n
    (u.entries n).active = true ∨ last ≠ 0 → (u.entries n).generation = last := by
  dsimp only
  rw [s.last_registered s' t hRange]
  rw [hNew.tableAt] at hAt
  split at hAt
  case isTrue hPlace =>
    rcases hPlace with ⟨rfl, rfl⟩
    obtain rfl := Option.some.inj hAt
    rw [hNew.entries]
    by_cases hEntry : n = e
    · subst hEntry
      rw [update_self, if_pos ⟨rfl, rfl, rfl⟩]
      exact fun _ => rfl
    · rw [update_of_ne hEntry, if_neg fun hAll => hEntry hAll.2.2]
      exact hNew.last hGood hKept
  case isFalse hPlace =>
    rw [if_neg fun hAll => hPlace ⟨hAll.1, hAll.2.1⟩]
    exact hGood.last m b u hAt n

/- Ids of the entry are older by one registration. -/
theorem Registered.stale_good {s' : Memory T} {t : T} {mid tab e : Nat}
    {base table : Table T} (hNew : Registered s.memory s' t mid tab e base table)
    (hGood : Good s) (hKept : Kept s)
    (hRange : InRange mid tab e (advance (base.entries e).generation))
    {p : Nat × Nat} (hStale : p ∈ (s.registered s' (compose mid tab e
      (advance (base.entries e).generation)) t).stale) :
    ∃ m b n k, InRange m b n k ∧ p.1 = compose m b n k ∧
      (s.registered s' (compose mid tab e (advance
      (base.entries e).generation)) t).last m b n = advance^[p.2] k ∧
      (p.2 = 0 → ∀ o j, ¬ ActiveAt s' m b n o j) := by
  rcases mem_map.mp hStale with ⟨q, hQ, rfl⟩
  rcases hGood.stale q hQ with ⟨m, b, n, k, hRange', hId, hLast, hFree⟩
  refine ⟨m, b, n, k, hRange', ?_⟩
  have hSameEntry := hRange'.sameEntry hRange
  rw [← hId] at hSameEntry
  rw [s.last_registered s' t hRange]
  by_cases hSame : m = mid ∧ b = tab ∧ n = e
  · rw [if_pos hSame, if_pos (hSameEntry.mpr hSame)]
    rcases hSame with ⟨rfl, rfl, rfl⟩
    refine ⟨hId, ?_, fun hZero => absurd hZero (by simp)⟩
    have hPos : s.last m b n ≠ 0 := by
      rw [hLast, advance_iterate q.2 hRange'.pos hRange'.generation]
      exact Nat.succ_ne_zero _
    rw [hNew.last hGood hKept (Or.inr hPos), hLast, ← Function.iterate_succ_apply' advance]
  · rw [if_neg hSame, if_neg fun hEntry => hSame (hSameEntry.mp hEntry)]
    refine ⟨hId, hLast, ?_⟩
    intro hZero o j hActive
    rw [hNew.activeAt hGood.tables] at hActive
    rcases hActive with ⟨hMid, hTab, hEntry, -⟩ | hActive
    · exact hSame ⟨hMid, hTab, hEntry⟩
    · exact hFree hZero o j hActive

/- A registration gives a new id. -/
theorem register_good {t : T} (hGood : Good s)
    (hAllowed : Allowed s (.register (some t))) :
    ∃ s', step s (.register (some t)) = some s' ∧ Good s' := by
  rcases hAllowed with ⟨hLength, hKept⟩
  rcases hGood.room hLength with ⟨m₀, b₀, hMid, hTab, hRoom⟩
  rcases register_spec t hGood.tables hMid hTab hRoom with
    ⟨s', mid, tab, e, base, table, hRegister, hNew⟩
  have hTables := hNew.tables hGood.tables
  have hActive := hNew.activeAt hGood.tables
  have hRange := hTables.inRange ((hActive mid tab e t _).mpr (Or.inl ⟨rfl, rfl, rfl, rfl, rfl⟩))
  refine ⟨_, by rw [step, hRegister]; rfl, hTables, ?_, ?_, ?_, ?_⟩
  · intro id o
    change (id, o) ∈ _ :: s.live ↔ _
    rw [mem_cons, hGood.entries]
    constructor
    · rintro (hSame | ⟨m, b, n, k, hOld, hId⟩)
      · obtain ⟨rfl, rfl⟩ := Prod.mk.inj hSame
        exact ⟨mid, tab, e, _, (hActive mid tab e o _).mpr (Or.inl ⟨rfl, rfl, rfl, rfl, rfl⟩), rfl⟩
      · exact ⟨m, b, n, k, (hActive m b n o k).mpr (Or.inr hOld), hId⟩
    · rintro ⟨m, b, n, k, hIs, hId⟩
      rcases (hActive m b n o k).mp hIs with ⟨rfl, rfl, rfl, rfl, rfl⟩ | hOld
      · exact Or.inl (Prod.ext hId rfl)
      · exact Or.inr ⟨m, b, n, k, hOld, hId⟩
  · refine nodup_cons.mpr ⟨?_, hGood.nodup⟩
    intro hMem
    rcases mem_map.mp hMem with ⟨p, hLive, hSame⟩
    rcases hGood.activeAt hLive with ⟨m, b, n, k, hRange', hOld, hId⟩
    obtain ⟨rfl, rfl, rfl, rfl⟩ := hRange'.injective hRange (hId.symm.trans hSame)
    exact hNew.not_activeAt hGood.tables p.2 _ hOld
  · intro m b u hAt n
    exact hNew.last_good hGood hKept hRange hAt n
  · intro p hStale
    exact hNew.stale_good hGood hKept hRange hStale

/- The id of a word that is live becomes stale. -/
theorem unregister_good {safe : Nat} (hGood : Good s)
    (hAllowed : Allowed s (.unregister safe)) :
    ∃ s', step s (.unregister safe) = some s' ∧ Good s' := by
  by_cases hSome : ∃ t, Tells s.memory safe t
  · rcases hSome with ⟨t, hTells⟩
    have hRange := hGood.tables.inRange hTells
    rcases unregister_of_tells hGood.tables hTells with ⟨s', table, hUnregister, hEnd⟩
    have hActive := hEnd.activeAt
    have hLive : canonical safe ∈ s.live.map Prod.fst :=
      mem_map.mpr ⟨_, (hGood.entries _ t).mpr ⟨_, _, _, _, hTells, rfl⟩, rfl⟩
    refine ⟨_, by rw [step, hUnregister]; rfl, hEnd.tables hGood.tables, ?_, ?_, ?_, ?_⟩
    · intro id o
      change (id, o) ∈ s.live.filter _ ↔ _
      rw [mem_filter, decide_eq_true_iff, hGood.entries]
      constructor
      · rintro ⟨⟨m, b, n, k, hOld, rfl⟩, hNe⟩
        refine ⟨m, b, n, k, (hActive m b n o k).mpr ⟨hOld, ?_⟩, rfl⟩
        rintro ⟨rfl, rfl, rfl⟩
        rw [(hOld.unique hTells).2] at hNe
        exact hNe rfl
      · rintro ⟨m, b, n, k, hIs, rfl⟩
        rcases (hActive m b n o k).mp hIs with ⟨hOld, hPlace⟩
        refine ⟨⟨m, b, n, k, hOld, rfl⟩, ?_⟩
        intro hSame
        have hRange' := hGood.tables.inRange hOld
        obtain ⟨rfl, rfl, rfl, -⟩ := hRange'.injective hRange hSame
        exact hPlace ⟨rfl, rfl, rfl⟩
    · exact hGood.nodup.sublist (List.filter_sublist.map Prod.fst)
    · intro m b u hAt n hKnown
      change s'.tableAt m b = some u at hAt
      change _ = s.last m b n
      change _ ∨ s.last m b n ≠ 0 at hKnown
      by_cases hPlace : m = midOf safe ∧ b = tabOf safe
      · rcases hPlace with ⟨rfl, rfl⟩
        rcases hEnd.after with hAfter | ⟨hNone, -⟩
        · rw [hAfter] at hAt
          obtain rfl := Option.some.inj hAt
          have hBefore := hGood.last _ _ table hEnd.before n
          rw [Table.entries_recycle] at hKnown ⊢
          by_cases hEntry : n = entryOf safe
          · subst hEntry
            rw [update_self]
            exact hBefore (Or.inl hEnd.active)
          · rw [update_of_ne hEntry] at hKnown ⊢
            exact hBefore hKnown
        · rw [hNone] at hAt
          exact nomatch hAt
      · rw [hEnd.other m b hPlace] at hAt
        exact hGood.last m b u hAt n hKnown
    · intro p hStale
      unfold State.unregistered at hStale
      dsimp only at hStale
      rw [if_pos hLive, mem_cons] at hStale
      rcases hStale with rfl | hStale
      · refine ⟨_, _, _, _, hRange, rfl, hGood.last_eq hTells, ?_⟩
        intro _ o k hIs
        exact ((hActive _ _ _ o k).mp hIs).2 ⟨rfl, rfl, rfl⟩
      · rcases hGood.stale p hStale with ⟨m, b, n, k, hRange', hId, hLast, hFree⟩
        refine ⟨m, b, n, k, hRange', hId, hLast, ?_⟩
        intro hZero o j hIs
        exact hFree hZero o j ((hActive m b n o j).mp hIs).1
  · have hNot := not_exists.mp hSome
    have hUnregister := unregister_of_not_tells hGood.tables hAllowed hNot
    have hOut : canonical safe ∉ s.live.map Prod.fst := by
      intro hMem
      rcases mem_map.mp hMem with ⟨p, hLive, hId⟩
      rcases hGood.activeAt hLive with ⟨m, b, n, k, hRange, hActive, hId'⟩
      have hSame : compose m b n k = canonical safe := hId'.symm.trans hId
      have hParts : m = midOf safe ∧ b = tabOf safe ∧
          n = entryOf safe ∧ k = generationOf safe := hRange.canonical_parts hSame
      rcases hParts with ⟨rfl, rfl, rfl, rfl⟩
      exact hNot p.2 hActive
    have hAll : (s.live.filter fun p => p.1 ≠ canonical safe) = s.live := by
      rw [filter_eq_self]
      intro p hLive
      rw [decide_eq_true_iff]
      intro hSame
      exact hOut (mem_map.mpr ⟨p, hLive, hSame⟩)
    refine ⟨s, ?_, hGood⟩
    rw [step, hUnregister]
    change some (s.unregistered s.memory safe) = some s
    unfold State.unregistered
    rw [hAll, if_neg hOut]

theorem step_good {op : Op T} (hGood : Good s)
    (hAllowed : Allowed s op) : ∃ s', step s op = some s' ∧ Good s' := by
  cases op with
  | register target =>
    cases target with
    | none => exact ⟨s, rfl, hGood⟩
    | some t => exact register_good hGood hAllowed
  | unregister safe => exact unregister_good hGood hAllowed

end

---
-- Runs
---

/- After every run live ids and stale ids are told apart. -/
theorem safepointers_correct {T : Type} (ops : List (Op T))
    (hAllowed : Runs.Guarded step Allowed start ops) :
    ∃ s, Runs.run step start ops = some s ∧ Correct s := by
  rcases Runs.run_of_guarded Good (fun s op hGood hOk =>
      step_good hGood hOk) start_good hAllowed with ⟨s, hRun, hGood⟩
  exact ⟨s, hRun, hGood.correct⟩

/- A registration, and its end. -/
theorem safepointers_correct_sample :
    ∃ s, Runs.run step start
        [.register (some 7), .unregister 4] = some s ∧
      Correct s := by
  apply safepointers_correct
  refine ⟨⟨by decide, ?_⟩, fun s hFirst =>
    ⟨Or.inl (by decide), fun _ _ => trivial⟩⟩
  intro mid tab hFind hNone e hLast
  exact absurd rfl hLast

/- A word with a table index behind the mid table -/
theorem get_outside :
    (Runs.run step start [.register (some 7)]).map (fun s =>
      (get s.memory (2046 <<< 25),
        (unregister s.memory (2046 <<< 25)).isSome)) =
      some (none, false) := by
  rfl

end Efl.Eina.Safepointer
