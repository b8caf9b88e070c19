import Efl.Ecore.Future.Model
import Efl.Lib.Runs

/-
  Runs of the scheduler of futures: an entry that was
  scheduled is called once or recalled, and not both.

  Recall only searches the list of the scheduler, so this
  holds when no entry is recalled that a dispatch which has
  not returned holds.

  Main declarations:
    * `Op`, `step`
    * `Allowed`, `Searched`
    * `future_correct`
-/

---
-- Steps
---

namespace Efl.Ecore.Future

variable {A C F V : Type}

inductive Op (A C F V : Type) where
  | schedule
      (malloc : Option A) (cb : C) (future : F) (value : V)
  | futureRecall (a : A)
  | dispatch
  | advance
  | shutdown

/- What waits to be called -/
def waiting (s : Sched A C F V) : List A :=
  s.futureEntries ++ s.frames.flatMap Frame.entries

/- What has been called and has not returned -/
def running (s : Sched A C F V) : List A :=
  s.frames.flatMap fun f => f.running.toList

/- What the log says of one entry -/
def Note.serial : Note C F V → Nat
  | .scheduled entry => entry.serial
  | .recalled serial => serial
  | .called _ entry => entry.serial
  | .flushed serial _ => serial
  | .freed serial => serial

def life (s : Sched A C F V) (i : Nat) : List (Note C F V) :=
  s.log.filter fun note => note.serial = i

/- The entries that one dispatch called, in order -/
def calls (log : List (Note C F V)) (d : Nat) : List Nat :=
  log.filterMap fun
    | .called d' entry => if d' = d then some entry.serial else none
    | _ => none

variable [DecidableEq A]

def step (s : Sched A C F V) : Op A C F V → Option (Sched A C F V)
  | .schedule malloc cb future value =>
    some (schedule s malloc cb future value)
  | .futureRecall a => do
    let entry ← s.memory a
    futureRecall
      { s with log := s.log ++ [.recalled entry.serial] } a
  | .dispatch => some (dispatch s)
  | .advance => advance s
  | .shutdown => some (shutdown s)

/-
  The pool gives memory that is not in use, what is recalled
  waits to be called, and the loop calls what is on it.
-/
def Allowed (s : Sched A C F V) : Op A C F V → Prop
  | .schedule malloc _ _ _ => ∀ a, malloc = some a → s.memory a = none
  | .futureRecall a => a ∈ waiting s
  | .dispatch => s.handlers ≠ 0
  | .advance => s.frames ≠ []
  | .shutdown => True

/- No dispatch holds what is recalled. -/
def Searched (s : Sched A C F V) : Op A C F V → Prop
  | .futureRecall a =>
    s.shuttingDown = false ∧ ∀ f ∈ s.frames, a ∉ f.entries
  | _ => True

end Efl.Ecore.Future

---
-- What Holds
---

namespace Efl.Ecore.Future

open List

section

variable {A C F V : Type}

/-
  An entry that is no longer there was called once, or
  recalled and its value flushed, and then freed.
-/
def Over (e : Entry C F V) (notes : List (Note C F V)) : Prop :=
  (∃ d, notes = [.scheduled e, .called d e, .freed e.serial]) ∨
    notes =
      [.scheduled e, .recalled e.serial,
        .flushed e.serial e.value, .freed e.serial]

/- An entry waits, runs, or is over. -/
def Lived (s : Sched A C F V) (e : Entry C F V) : Prop :=
  (∃ a ∈ waiting s, s.memory a = some e ∧
      life s e.serial = [.scheduled e]) ∨
    (∃ a ∈ running s, s.memory a = some e ∧
      ∃ d, life s e.serial = [.scheduled e, .called d e]) ∨
    ((∀ a e', s.memory a = some e' → e'.serial ≠ e.serial) ∧
      Over e (life s e.serial))

/-
  Every entry is in one of the three states, a dispatch calls
  in the order of scheduling, and the loop has the callbacks
  once when an entry is in the list.
-/
structure Correct (s : Sched A C F V) : Prop where
  lived : ∀ i < s.scheduled, ∃ e : Entry C F V,
    e.serial = i ∧ Lived s e
  ordered : ∀ d, (calls s.log d).Pairwise (· < ·)
  handlers : s.handlers = if s.futureEntries = [] then 0 else 1

---
-- The Log
---

/- The life of an entry that the new notes are not about -/
theorem filter_append_of_ne {log notes : List (Note C F V)} {i : Nat}
    (hOther : ∀ note ∈ notes, note.serial ≠ i) :
    (log ++ notes).filter (fun note => note.serial = i) =
      log.filter fun note => note.serial = i := by
  have hNone : notes.filter (fun note => note.serial = i) = [] := by
    rw [filter_eq_nil_iff]
    intro note hMem
    simp [hOther note hMem]
  rw [filter_append, hNone, append_nil]

/- The life of the entry that they are all about -/
theorem filter_append_of_eq {log notes : List (Note C F V)} {i : Nat}
    (hSame : ∀ note ∈ notes, note.serial = i) :
    (log ++ notes).filter (fun note => note.serial = i) =
      (log.filter fun note => note.serial = i) ++ notes := by
  have hAll : notes.filter (fun note => note.serial = i) =
      notes := by
    rw [filter_eq_self]
    intro note hMem
    simp [hSame note hMem]
  rw [filter_append, hAll]

/- Notes of no call -/
theorem calls_append_of_quiet {log notes : List (Note C F V)}
    (hQuiet : ∀ note ∈ notes, ∀ d e, note ≠ .called d e) (d : Nat) :
    calls (log ++ notes) d = calls log d := by
  have hNone : calls notes d = [] := by
    rw [calls, filterMap_eq_nil_iff]
    intro note hMem
    cases note with
    | called d' e => exact absurd rfl (hQuiet _ hMem d' e)
    | _ => rfl
  rw [calls, filterMap_append]
  exact (congrArg _ hNone).trans (append_nil _)

theorem calls_append_called
    (log : List (Note C F V)) (d d' : Nat) (e : Entry C F V) :
    calls (log ++ [.called d' e]) d =
      if d' = d then calls log d ++ [e.serial]
      else calls log d := by
  rw [calls, filterMap_append]
  by_cases hSame : d' = d
  · simp [hSame, calls]
  · simp [hSame, calls]

---
-- The Invariant
---

/- Every place an entry is in -/
def places (s : Sched A C F V) : List A :=
  s.futureEntries ++
    s.frames.flatMap fun f => f.running.toList ++ f.entries

/- Scheduled in the order of the list -/
def Sorted (memory : A → Option (Entry C F V)) (l : List A) : Prop :=
  l.Pairwise fun a b =>
    ∀ e e', memory a = some e → memory b = some e' →
      e.serial < e'.serial

/- The entries of the pool are in one place each. -/
structure Placed (s : Sched A C F V) : Prop where
  nodup : (places s).Nodup
  live : ∀ a, s.memory a ≠ none ↔ a ∈ places s
  below : ∀ a e, s.memory a = some e → e.serial < s.scheduled
  apart : ∀ a b e e', s.memory a = some e →
    s.memory b = some e' → e.serial = e'.serial → a = b

/- The log of each entry is what its place says. -/
structure Logged (s : Sched A C F V) : Prop where
  waits : ∀ a ∈ waiting s, ∀ e, s.memory a = some e →
    life s e.serial = [.scheduled e]
  runs : ∀ a ∈ running s, ∀ e, s.memory a = some e →
    ∃ d, life s e.serial = [.scheduled e, .called d e]
  finished : ∀ i < s.scheduled,
    (∀ a e, s.memory a = some e → e.serial ≠ i) →
      ∃ e, e.serial = i ∧ Over e (life s i)
  fresh : ∀ i, s.scheduled ≤ i → life s i = []

/- What a dispatch has called comes before what it holds. -/
structure Ordered (s : Sched A C F V) : Prop where
  list : Sorted s.memory s.futureEntries
  frames : ∀ f ∈ s.frames, Sorted s.memory f.entries ∧
    ∀ i ∈ calls s.log f.number, ∀ a ∈ f.entries,
      ∀ e, s.memory a = some e → i < e.serial
  increasing : ∀ d, (calls s.log d).Pairwise (· < ·)
  numbers : (s.frames.map Frame.number).Nodup
  known : ∀ f ∈ s.frames, f.number < s.dispatches
  fresh : ∀ d, s.dispatches ≤ d → calls s.log d = []

structure Inv (s : Sched A C F V) : Prop where
  placed : Placed s
  logged : Logged s
  ordered : Ordered s
  handlers : s.handlers = if s.futureEntries = [] then 0 else 1

theorem Inv.start : Inv (Sched.start : Sched A C F V) where
  placed :=
    { nodup := nodup_nil
      live := by simp [Sched.start, places]
      below := by simp [Sched.start]
      apart := by simp [Sched.start] }
  logged :=
    { waits := by simp [Sched.start, waiting]
      runs := by simp [Sched.start, running]
      finished := by simp [Sched.start]
      fresh := by simp [Sched.start, life] }
  ordered :=
    { list := List.Pairwise.nil
      frames := by simp [Sched.start]
      increasing := by simp [Sched.start, calls]
      numbers := nodup_nil
      known := by simp [Sched.start]
      fresh := by simp [Sched.start, calls] }
  handlers := rfl

theorem mem_places {s : Sched A C F V} {a : A} : a ∈ places s ↔ a ∈ waiting s ∨ a ∈ running s := by
  simp only [places, waiting, running, mem_append, mem_flatMap]
  constructor
  · rintro (hList | ⟨f, hFrame, hRunning | hHeld⟩)
    · exact Or.inl (Or.inl hList)
    · exact Or.inr ⟨f, hFrame, hRunning⟩
    · exact Or.inl (Or.inr ⟨f, hFrame, hHeld⟩)
  · rintro ((hList | ⟨f, hFrame, hHeld⟩) | ⟨f, hFrame, hRunning⟩)
    · exact Or.inl hList
    · exact Or.inr ⟨f, hFrame, Or.inr hHeld⟩
    · exact Or.inr ⟨f, hFrame, Or.inl hRunning⟩

theorem Sorted.congr {memory memory' : A → Option (Entry C F V)}
    {l : List A} (hSorted : Sorted memory l)
    (hSame : ∀ a ∈ l, memory' a = memory a) : Sorted memory' l := by
  refine List.Pairwise.imp_of_mem ?_ hSorted
  intro a b hA hB hBefore e e' hE hE'
  rw [hSame a hA] at hE
  rw [hSame b hB] at hE'
  exact hBefore e e' hE hE'

/- The invariant says what is to be shown. -/
theorem Inv.correct {s : Sched A C F V} (hInv : Inv s) : Correct s where
  lived := by
    intro i hKnown
    by_cases hLive : ∃ a e, s.memory a = some e ∧ e.serial = i
    · rcases hLive with ⟨a, e, hEntry, rfl⟩
      refine ⟨e, rfl, ?_⟩
      have hPlace : a ∈ places s := (hInv.placed.live a).mp (by simp [hEntry])
      rcases mem_places.mp hPlace with hWait | hRun
      · exact Or.inl ⟨a, hWait, hEntry, hInv.logged.waits a hWait e hEntry⟩
      · exact Or.inr (Or.inl ⟨a, hRun, hEntry, hInv.logged.runs a hRun e hEntry⟩)
    · have hGone : ∀ a e, s.memory a = some e → e.serial ≠ i :=
        fun a e hEntry hSame => hLive ⟨a, e, hEntry, hSame⟩
      rcases hInv.logged.finished i hKnown hGone with ⟨e, rfl, hOver⟩
      exact ⟨e, rfl, Or.inr (Or.inr ⟨hGone, hOver⟩)⟩
  ordered := hInv.ordered.increasing
  handlers := hInv.handlers

end

---
-- What a Step Keeps
---

open Function
section

variable {A C F V : Type}
variable {s s' : Sched A C F V} {a : A} {e : Entry C F V}

theorem places_perm (s : Sched A C F V) : (places s).Perm (waiting s ++ running s) := by
  unfold places waiting running
  rw [append_assoc]
  refine List.Perm.append_left _ ?_
  induction s.frames with
  | nil => exact List.Perm.refl _
  | cons f frames ih =>
    simp only [flatMap_cons]
    refine (List.perm_append_comm.append ih).trans ?_
    rw [append_assoc, append_assoc]
    refine List.Perm.append_left _ ?_
    rw [← append_assoc, ← append_assoc]
    exact List.perm_append_comm.append_right _

theorem Placed.nodup_waiting (hPlaced : Placed s) :
    (waiting s).Nodup ∧ ∀ a ∈ waiting s, a ∉ running s := by
  have hNodup := (places_perm s).nodup_iff.mp hPlaced.nodup
  rw [nodup_append] at hNodup
  exact ⟨hNodup.1, fun a hWait hRun =>
    hNodup.2.2 a hWait a hRun rfl⟩

/- The entries stay where they are. -/
theorem Placed.same (hPlaced : Placed s)
    (hPlaces : places s' = places s) (hMemory : s'.memory = s.memory)
    (hScheduled : s'.scheduled = s.scheduled) : Placed s' where
  nodup := hPlaces ▸ hPlaced.nodup
  live := by
    rw [hPlaces, hMemory]
    exact hPlaced.live
  below := by
    rw [hMemory, hScheduled]
    exact hPlaced.below
  apart := by
    rw [hMemory]
    exact hPlaced.apart

/- An entry is freed. -/
theorem Placed.remove [DecidableEq A] (hPlaced : Placed s)
    (hPlaces : places s' = (places s).erase a) (hMemory : s'.memory = update s.memory a none)
    (hScheduled : s'.scheduled = s.scheduled) : Placed s' := by
  have hOld : ∀ b e, s'.memory b = some e → b ≠ a ∧ s.memory b = some e := by
    intro b e hEntry
    rw [hMemory] at hEntry
    by_cases hSame : b = a
    · subst hSame
      rw [update_self] at hEntry
      exact nomatch hEntry
    · rw [update_of_ne hSame] at hEntry
      exact ⟨hSame, hEntry⟩
  constructor
  · rw [hPlaces]
    exact hPlaced.nodup.erase a
  · intro b
    rw [hPlaces, hPlaced.nodup.mem_erase_iff, ← hPlaced.live, hMemory]
    by_cases hSame : b = a
    · subst hSame
      simp
    · simp [hSame]
  · intro b e hEntry
    rw [hScheduled]
    exact hPlaced.below b e (hOld b e hEntry).2
  · intro b c e e' hEntry hEntry'
    exact hPlaced.apart b c e e' (hOld b e hEntry).2 (hOld c e' hEntry').2

/- What is noted is about one entry of the pool. -/
theorem Logged.touch {notes : List (Note C F V)} (hLogged : Logged s)
    (hPlaced : Placed s) (hEntry : s.memory a = some e) (hLog : s'.log =
    s.log ++ notes) (hNotes : ∀ note ∈ notes, note.serial = e.serial)
    (hScheduled : s'.scheduled = s.scheduled) (hMemory : ∀ b, b ≠ a →
    s'.memory b = s.memory b) (hWaiting : ∀ b ∈ waiting s', b ≠ a ∧
    b ∈ waiting s) (hRunning : ∀ b ∈ running s', b ≠ a → b ∈ running s)
    (hHere : (s'.memory a = none ∧ Over e (life s e.serial ++ notes)) ∨ (s'.memory a = some e ∧ ∃ d,
    life s e.serial ++ notes = [.scheduled e, .called d e])) : Logged s' := by
  have hSelf : life s' e.serial = life s e.serial ++ notes := by
    rw [life, hLog, filter_append_of_eq hNotes]
    rfl
  have hOther : ∀ i, i ≠ e.serial → life s' i = life s i := by
    intro i hNe
    rw [life, hLog, filter_append_of_ne]
    · rfl
    · intro note hMem hSerial
      exact hNe (hSerial.symm.trans (hNotes note hMem))
  have hApart : ∀ b e', b ≠ a → s.memory b = some e' →
      e'.serial ≠ e.serial := fun b e' hNe hB hSame =>
    hNe (hPlaced.apart b a e' e hB hEntry hSame)
  constructor
  · intro b hB e' hE'
    rcases hWaiting b hB with ⟨hNe, hOld⟩
    rw [hMemory b hNe] at hE'
    rw [hOther _ (hApart b e' hNe hE')]
    exact hLogged.waits b hOld e' hE'
  · intro b hB e' hE'
    by_cases hSame : b = a
    · subst hSame
      rcases hHere with ⟨hNone, -⟩ | ⟨hSome, d, hLife⟩
      · rw [hNone] at hE'
        exact nomatch hE'
      · rw [hSome] at hE'
        cases hE'
        exact ⟨d, hSelf.trans hLife⟩
    · rw [hMemory b hSame] at hE'
      rw [hOther _ (hApart b e' hSame hE')]
      exact hLogged.runs b (hRunning b hB hSame) e' hE'
  · intro i hKnown hGone
    rw [hScheduled] at hKnown
    by_cases hSame : i = e.serial
    · subst hSame
      rcases hHere with ⟨-, hOver⟩ | ⟨hSome, -⟩
      · exact ⟨e, rfl, hSelf ▸ hOver⟩
      · exact absurd rfl (hGone a e hSome)
    · rw [hOther i hSame]
      refine hLogged.finished i hKnown ?_
      intro b e' hE'
      by_cases hB : b = a
      · subst hB
        rw [hEntry] at hE'
        cases hE'
        exact fun hIs => hSame hIs.symm
      · exact hGone b e' ((hMemory b hB).trans hE')
  · intro i hFresh
    rw [hScheduled] at hFresh
    have hBelow := hPlaced.below a e hEntry
    rw [hOther i (by omega)]
    exact hLogged.fresh i hFresh

/-
  Nothing is called, and the lists get shorter; what is freed
  is not in them any more.
-/
theorem Ordered.shorter (hOrdered : Ordered s) (hCalls : ∀ d, calls s'.log d = calls s.log d)
    (hMemory : ∀ b ∈ waiting s', s'.memory b = s.memory b)
    (hList : s'.futureEntries.Sublist s.futureEntries) (hFrames : ∀ f' ∈ s'.frames, ∃ f ∈ s.frames,
      f'.number = f.number ∧ f'.entries = f.entries)
    (hNumbers : (s'.frames.map Frame.number).Sublist (s.frames.map Frame.number))
    (hDispatches : s'.dispatches = s.dispatches) : Ordered s' := by
  constructor
  · have hShort : Sorted s.memory s'.futureEntries := List.Pairwise.sublist hList hOrdered.list
    refine hShort.congr ?_
    intro b hB
    exact hMemory b (mem_append_left _ hB)
  · intro f' hF'
    rcases hFrames f' hF' with ⟨f, hF, hNumber, hEntries⟩
    rcases hOrdered.frames f hF with ⟨hSorted, hAfter⟩
    have hKept : ∀ b ∈ f'.entries, s'.memory b = s.memory b :=
      fun b hB => hMemory b (mem_append_right _ (mem_flatMap.mpr ⟨f', hF', hB⟩))
    constructor
    · rw [← hEntries] at hSorted
      exact hSorted.congr hKept
    · intro i hI b hB e' hE'
      rw [hCalls, hNumber] at hI
      rw [hKept b hB] at hE'
      rw [hEntries] at hB
      exact hAfter i hI b hB e' hE'
  · intro d
    rw [hCalls]
    exact hOrdered.increasing d
  · exact List.Pairwise.sublist hNumbers hOrdered.numbers
  · intro f' hF'
    rcases hFrames f' hF' with ⟨f, hF, hNumber, -⟩
    rw [hDispatches, hNumber]
    exact hOrdered.known f hF
  · intro d hFresh
    rw [hCalls]
    exact hOrdered.fresh d (hDispatches ▸ hFresh)

end

---
-- A New Entry
---

section

variable {A C F V : Type} [DecidableEq A]
variable {s s' : Sched A C F V} {a : A} {e : Entry C F V}

/- What the pool holds after an entry was added to it -/
theorem memory_add (hMemory : s'.memory = update s.memory a (some e))
    {b : A} {e' : Entry C F V} (hEntry : s'.memory b = some e') :
    (b = a ∧ e' = e) ∨ (b ≠ a ∧ s.memory b = some e') := by
  rw [hMemory] at hEntry
  by_cases hSame : b = a
  · subst hSame
    rw [update_self] at hEntry
    exact Or.inl ⟨rfl, (Option.some.inj hEntry).symm⟩
  · rw [update_of_ne hSame] at hEntry
    exact Or.inr ⟨hSame, hEntry⟩

theorem Placed.add (hPlaced : Placed s) (hNew : a ∉ places s)
    (hPlaces : (places s').Perm (a :: places s)) (hMemory : s'.memory = update s.memory a (some e))
    (hSerial : e.serial = s.scheduled)
    (hScheduled : s'.scheduled = s.scheduled + 1) : Placed s' := by
  constructor
  · rw [hPlaces.nodup_iff, nodup_cons]
    exact ⟨hNew, hPlaced.nodup⟩
  · intro b
    rw [hPlaces.mem_iff, mem_cons, ← hPlaced.live, hMemory]
    by_cases hSame : b = a
    · subst hSame
      simp
    · simp [hSame]
  · intro b e' hE'
    rw [hScheduled]
    rcases memory_add hMemory hE' with ⟨-, rfl⟩ | ⟨-, hE'⟩
    · omega
    · have := hPlaced.below b e' hE'
      omega
  · intro b c e₁ e₂ hE₁ hE₂ hSame
    rcases memory_add hMemory hE₁ with ⟨hB, hIs⟩ | ⟨-, hOld⟩ <;>
      rcases memory_add hMemory hE₂ with ⟨hC, hIs'⟩ | ⟨-, hOld'⟩
    · rw [hB, hC]
    · have := hPlaced.below c e₂ hOld'
      rw [hIs] at hSame
      omega
    · have := hPlaced.below b e₁ hOld
      rw [hIs'] at hSame
      omega
    · exact hPlaced.apart b c e₁ e₂ hOld hOld' hSame

theorem Logged.add (hLogged : Logged s) (hPlaced : Placed s)
    (hNew : a ∉ places s) (hMemory : s'.memory = update s.memory a (some e))
    (hSerial : e.serial = s.scheduled) (hScheduled : s'.scheduled = s.scheduled + 1)
    (hLog : s'.log = s.log ++ [.scheduled e]) (hWaiting : ∀ b ∈ waiting s', b = a ∨ b ∈ waiting s)
    (hRunning : ∀ b ∈ running s', b ∈ running s) : Logged s' := by
  have hSelf : life s' s.scheduled = [.scheduled e] := by
    rw [life, hLog, filter_append_of_eq (by simp [Note.serial, hSerial])]
    show life s s.scheduled ++ _ = _
    rw [hLogged.fresh _ (Nat.le_refl _)]
    rfl
  have hOther : ∀ i, i ≠ s.scheduled → life s' i = life s i := by
    intro i hNe
    rw [life, hLog, filter_append_of_ne]
    · rfl
    · simp [Note.serial, hSerial, hNe.symm]
  constructor
  · intro b hB e' hE'
    rcases memory_add hMemory hE' with ⟨-, rfl⟩ | ⟨hNe, hE'⟩
    · rw [hSerial]
      exact hSelf
    · have := hPlaced.below b e' hE'
      rw [hOther _ (by omega)]
      exact hLogged.waits b ((hWaiting b hB).resolve_left hNe) e' hE'
  · intro b hB e' hE'
    rcases memory_add hMemory hE' with ⟨rfl, -⟩ | ⟨hNe, hE'⟩
    · exact absurd (mem_places.mpr (Or.inr (hRunning _ hB))) hNew
    · have := hPlaced.below b e' hE'
      rw [hOther _ (by omega)]
      exact hLogged.runs b (hRunning b hB) e' hE'
  · intro i hKnown hGone
    rw [hScheduled] at hKnown
    have hNe : i ≠ s.scheduled := by
      intro hSame
      refine hGone a e ?_ (hSerial.trans hSame.symm)
      rw [hMemory, update_self]
    rw [hOther i hNe]
    refine hLogged.finished i (by omega) ?_
    intro b e' hE'
    refine hGone b e' ?_
    have hB : b ≠ a := by
      rintro rfl
      exact hNew ((hPlaced.live b).mp (by simp [hE']))
    rw [hMemory, update_of_ne hB]
    exact hE'
  · intro i hFresh
    rw [hScheduled] at hFresh
    rw [hOther i (by omega)]
    exact hLogged.fresh i (by omega)

theorem Ordered.add (hOrdered : Ordered s) (hPlaced : Placed s)
    (hNew : a ∉ places s) (hMemory : s'.memory = update s.memory a (some e))
    (hSerial : e.serial = s.scheduled) (hCalls : ∀ d, calls s'.log d = calls s.log d)
    (hList : s'.futureEntries = s.futureEntries ++ [a]) (hFrames : s'.frames = s.frames)
    (hDispatches : s'.dispatches = s.dispatches) : Ordered s' := by
  have hKept : ∀ b ∈ waiting s, s'.memory b = s.memory b := by
    intro b hB
    have hNe : b ≠ a := by
      rintro rfl
      exact hNew (mem_places.mpr (Or.inl hB))
    rw [hMemory, update_of_ne hNe]
  have hListed : ∀ b ∈ s.futureEntries,
      s'.memory b = s.memory b := fun b hB =>
    hKept b (mem_append_left _ hB)
  constructor
  · rw [hList, Sorted, pairwise_append]
    refine ⟨hOrdered.list.congr hListed, pairwise_singleton _ _, ?_⟩
    intro b hB c hC e₁ e₂ hE₁ hE₂
    cases mem_singleton.mp hC
    rw [hMemory, update_self] at hE₂
    cases hE₂
    rw [hListed b hB] at hE₁
    rw [hSerial]
    exact hPlaced.below b e₁ hE₁
  · intro f hF
    rw [hFrames] at hF
    have hHeld : ∀ b ∈ f.entries, s'.memory b = s.memory b :=
      fun b hB => hKept b (mem_append_right _ (mem_flatMap.mpr ⟨f, hF, hB⟩))
    refine ⟨(hOrdered.frames f hF).1.congr hHeld, ?_⟩
    intro i hI b hB e' hE'
    rw [hCalls] at hI
    rw [hHeld b hB] at hE'
    exact (hOrdered.frames f hF).2 i hI b hB e' hE'
  · intro d
    rw [hCalls]
    exact hOrdered.increasing d
  · rw [hFrames]
    exact hOrdered.numbers
  · rw [hFrames, hDispatches]
    exact hOrdered.known
  · intro d hFresh
    rw [hCalls]
    exact hOrdered.fresh d (hDispatches ▸ hFresh)

end

---
-- Steps Keep the Invariant
---

section

variable {A C F V : Type}
variable {s : Sched A C F V} {a : A}

theorem Inv.entry (hInv : Inv s) (hPlace : a ∈ places s) : ∃ e, s.memory a = some e :=
  Option.ne_none_iff_exists'.mp ((hInv.placed.live a).mpr hPlace)

theorem Inv.shutdown (hInv : Inv s) : Inv (shutdown s) := by
  rcases hInv with ⟨⟨h₁, h₂, h₃, h₄⟩, ⟨h₅, h₆, h₇, h₈⟩, ⟨h₉, h₁₀, h₁₁, h₁₂, h₁₃, h₁₄⟩, h₁₅⟩
  exact ⟨⟨h₁, h₂, h₃, h₄⟩, ⟨h₅, h₆, h₇, h₈⟩, ⟨h₉, h₁₀, h₁₁, h₁₂, h₁₃, h₁₄⟩, h₁₅⟩

/- The list becomes the list of a dispatch. -/
theorem Inv.dispatch (hInv : Inv s) (hCalled : s.handlers ≠ 0) : Inv (dispatch s) := by
  rcases hInv with ⟨hPlaced, hLogged, hOrdered, hHandlers⟩
  have hOne : s.handlers = 1 := by
    by_cases hNil : s.futureEntries = []
    · rw [if_pos hNil] at hHandlers
      exact absurd hHandlers hCalled
    · rwa [if_neg hNil] at hHandlers
  have hWaiting : waiting (Future.dispatch s) = waiting s := by
    simp [waiting, Future.dispatch]
  have hRunning : running (Future.dispatch s) = running s := by
    simp [running, Future.dispatch]
  refine ⟨hPlaced.same ?_ rfl rfl, ⟨?_, ?_, ?_, ?_⟩,
    ⟨List.Pairwise.nil, ?_, hOrdered.increasing, ?_, ?_, ?_⟩, ?_⟩
  · simp [places, Future.dispatch]
  · rw [hWaiting]
    exact hLogged.waits
  · rw [hRunning]
    exact hLogged.runs
  · exact hLogged.finished
  · exact hLogged.fresh
  · intro f hF
    rcases mem_cons.mp hF with rfl | hF
    · refine ⟨hOrdered.list, ?_⟩
      intro i hI
      rw [show calls (Future.dispatch s).log s.dispatches = [] from
        hOrdered.fresh _ (Nat.le_refl _)] at hI
      exact nomatch hI
    · exact hOrdered.frames f hF
  · show (s.dispatches :: s.frames.map Frame.number).Nodup
    rw [nodup_cons]
    refine ⟨?_, hOrdered.numbers⟩
    intro hMem
    rcases mem_map.mp hMem with ⟨f, hF, hSame⟩
    have := hOrdered.known f hF
    omega
  · intro f hF
    show _ < s.dispatches + 1
    rcases mem_cons.mp hF with rfl | hF
    · exact Nat.lt_succ_self _
    · have := hOrdered.known f hF
      omega
  · intro d hFresh
    have hFresh : s.dispatches + 1 ≤ d := hFresh
    exact hOrdered.fresh d (by omega)
  · show s.handlers - 1 = 0
    omega

variable [DecidableEq A]

theorem Inv.schedule (hInv : Inv s) (malloc : Option A) (cb : C) (future : F) (value : V)
    (hFree : ∀ a, malloc = some a → s.memory a = none) :
    Inv (schedule s malloc cb future value) := by
  cases malloc with
  | none => exact hInv
  | some a =>
    have hNew : a ∉ places s := fun hMem =>
      (hInv.placed.live a).mpr hMem (hFree a rfl)
    refine ⟨hInv.placed.add hNew ?_ rfl rfl rfl,
      hInv.logged.add hInv.placed hNew rfl rfl rfl rfl ?_ ?_,
      hInv.ordered.add hInv.placed hNew rfl rfl ?_ rfl rfl rfl, ?_⟩
    · show (s.futureEntries ++ [a] ++ _).Perm _
      rw [append_assoc]
      exact perm_middle
    · intro b hB
      have hB : b ∈ s.futureEntries ++ [a] ++ _ := hB
      simp only [mem_append, mem_singleton] at hB
      simp only [waiting, mem_append]
      tauto
    · exact fun b hB => hB
    · exact calls_append_of_quiet (by simp)
    · show (if s.futureEntries = [] then s.handlers + 1
        else s.handlers) =
          if s.futureEntries ++ [a] = [] then 0 else 1
      rw [hInv.handlers]
      by_cases hNil : s.futureEntries = [] <;> simp [hNil]

---
-- Recalling
---

/- The entry is found, its value flushed, and it is freed. -/
theorem recall_spec (hInv : Inv s) (hOn : s.shuttingDown = false)
    (hList : a ∈ s.futureEntries) : ∃ s', step s (.futureRecall a) = some s' ∧ Inv s' := by
  rcases hInv.entry (mem_places.mpr (Or.inl (mem_append_left _ hList))) with ⟨e, hEntry⟩
  let rest := s.futureEntries.erase a
  let s' : Sched A C F V :=
    { s with
      futureEntries := rest
      handlers := if rest = [] then s.handlers - 1 else s.handlers
      memory := update s.memory a none
      log := s.log ++ [.recalled e.serial] ++
        [.flushed e.serial e.value, .freed e.serial] }
  have hStep : step s (.futureRecall a) = some s' := by
    simp [step, futureRecall, hEntry, hOn, hList, s', rest]
  have hNodup : (waiting s).Nodup := hInv.placed.nodup_waiting.1
  have hWaiting : waiting s' = (waiting s).erase a := (erase_append_left _ hList).symm
  have hPlaces : places s' = (places s).erase a := (erase_append_left _ hList).symm
  have hWait : ∀ b ∈ waiting s', b ≠ a ∧ b ∈ waiting s := by
    intro b hB
    rw [hWaiting] at hB
    exact hNodup.mem_erase_iff.mp hB
  have hOther : ∀ b, b ≠ a → s'.memory b = s.memory b := fun b hNe => update_of_ne hNe _ _
  refine ⟨s', hStep, hInv.placed.remove hPlaces rfl rfl, ?_, ?_, ?_⟩
  · have hLog : s'.log = s.log ++
        [.recalled e.serial, .flushed e.serial e.value, .freed e.serial] := append_assoc _ _ _
    refine hInv.logged.touch hInv.placed hEntry hLog ?_ rfl hOther hWait ?_ ?_
    · simp [Note.serial]
    · exact fun b hB _ => hB
    · refine Or.inl ⟨update_self .., Or.inr ?_⟩
      rw [hInv.logged.waits a (mem_append_left _ hList) e hEntry]
      rfl
  · refine hInv.ordered.shorter ?_ ?_ erase_sublist ?_ (List.Sublist.refl _) rfl
    · intro d
      show calls (s.log ++ _ ++ _) d = _
      rw [append_assoc]
      exact calls_append_of_quiet (by simp) d
    · exact fun b hB => hOther b (hWait b hB).1
    · exact fun f hF => ⟨f, hF, rfl, rfl⟩
  · show (if rest = [] then s.handlers - 1 else s.handlers) = _
    rw [hInv.handlers, if_neg (ne_nil_of_mem hList)]

end

---
-- Dispatching
---

variable {A C F V : Type} [DecidableEq A]
variable {s : Sched A C F V} {a : A}
variable {f : Frame A} {frames : List (Frame A)}

/- The callback has returned. -/
theorem return_spec (hInv : Inv s) (hFrames : s.frames = f :: frames)
    (hRunning : f.running = some a) : ∃ s', advance s = some s' ∧ Inv s' := by
  have hRuns : running s = a :: running { s with frames } := by
    simp [running, hFrames, hRunning]
  have hRun : a ∈ running s := by
    rw [hRuns]
    exact mem_cons_self
  rcases hInv.entry (mem_places.mpr (Or.inr hRun)) with ⟨e, hEntry⟩
  let s' : Sched A C F V :=
    { s with
      memory := update s.memory a none
      frames := { f with running := none } :: frames
      log := s.log ++ [.freed e.serial] }
  have hStep : advance s = some s' := by
    simp [advance, hFrames, hRunning, hEntry, s']
  have hNotWait : a ∉ waiting s := fun hWait =>
    hInv.placed.nodup_waiting.2 a hWait hRun
  have hWaiting : waiting s' = waiting s := by
    simp [waiting, hFrames, s']
  have hAfter : running s' = running { s with frames } := by
    simp [running, s']
  have hNotList : a ∉ s.futureEntries := fun hMem =>
    hNotWait (mem_append_left _ hMem)
  have hPlaces : places s' = (places s).erase a := by
    unfold places
    rw [erase_append_right _ hNotList, hFrames]
    simp [s', hRunning]
  have hOther : ∀ b, b ≠ a → s'.memory b = s.memory b := fun b hNe => update_of_ne hNe _ _
  have hWait : ∀ b ∈ waiting s', b ≠ a ∧ b ∈ waiting s := by
    intro b hB
    rw [hWaiting] at hB
    exact ⟨fun hSame => hNotWait (hSame ▸ hB), hB⟩
  refine ⟨s', hStep, hInv.placed.remove hPlaces rfl rfl, ?_, ?_, hInv.handlers⟩
  · refine hInv.logged.touch hInv.placed hEntry rfl ?_ rfl hOther hWait ?_ ?_
    · simp [Note.serial]
    · intro b hB _
      rw [hAfter] at hB
      rw [hRuns]
      exact mem_cons_of_mem _ hB
    · rcases hInv.logged.runs a hRun e hEntry with ⟨d, hLife⟩
      refine Or.inl ⟨update_self .., Or.inl ⟨d, ?_⟩⟩
      rw [hLife]
      rfl
  · refine hInv.ordered.shorter (calls_append_of_quiet (by simp)) ?_ (List.Sublist.refl _) ?_ ?_ rfl
    · exact fun b hB => hOther b (hWait b hB).1
    · intro f' hF'
      rw [hFrames]
      rcases mem_cons.mp hF' with rfl | hF'
      · exact ⟨f, mem_cons_self, rfl, rfl⟩
      · exact ⟨f', mem_cons_of_mem _ hF', rfl, rfl⟩
    · rw [hFrames]
      exact List.Sublist.refl _

/- The dispatch is through its list. -/
theorem leave_spec (hInv : Inv s) (hFrames : s.frames = f :: frames)
    (hRunning : f.running = none) (hEntries : f.entries = []) :
    ∃ s', advance s = some s' ∧ Inv s' := by
  let s' : Sched A C F V := { s with frames := frames }
  have hStep : advance s = some s' := by
    simp [advance, hFrames, hRunning, hEntries, s']
  have hWaiting : waiting s' = waiting s := by
    simp [waiting, hFrames, hEntries, s']
  have hAfter : running s' = running s := by
    simp [running, hFrames, hRunning, s']
  refine ⟨s', hStep, hInv.placed.same ?_ rfl rfl,
    ⟨?_, ?_, hInv.logged.finished, hInv.logged.fresh⟩, ?_, hInv.handlers⟩
  · simp [places, hFrames, hRunning, hEntries, s']
  · rw [hWaiting]
    exact hInv.logged.waits
  · rw [hAfter]
    exact hInv.logged.runs
  · refine hInv.ordered.shorter (fun d => rfl) (fun b hB => rfl) (List.Sublist.refl _) ?_ ?_ rfl
    · intro f' hF'
      rw [hFrames]
      exact ⟨f', mem_cons_of_mem _ hF', rfl, rfl⟩
    · rw [hFrames]
      exact sublist_cons_self _ _

/- The next entry is called. -/
theorem call_spec {rest : List A} (hInv : Inv s)
    (hFrames : s.frames = f :: frames) (hRunning : f.running = none)
    (hEntries : f.entries = a :: rest) : ∃ s', advance s = some s' ∧ Inv s' := by
  have hMem : f ∈ s.frames := by
    rw [hFrames]
    exact mem_cons_self
  have hHeld : a ∈ f.entries := by
    rw [hEntries]
    exact mem_cons_self
  have hIn : a ∈ waiting s := mem_append_right _ (mem_flatMap.mpr ⟨f, hMem, hHeld⟩)
  rcases hInv.entry (mem_places.mpr (Or.inl hIn)) with ⟨e, hEntry⟩
  let s' : Sched A C F V :=
    { s with
      frames := { f with running := some a, entries := rest } :: frames
      log := s.log ++ [.called f.number e] }
  have hStep : advance s = some s' := by
    simp [advance, hFrames, hRunning, hEntries, hEntry, s']
  have hWaits : (waiting s).Perm (a :: waiting s') := by
    have hSplit : waiting s = s.futureEntries ++ a :: (rest ++ frames.flatMap Frame.entries) := by
      simp [waiting, hFrames, hEntries]
    have hSplit' : waiting s' = s.futureEntries ++ (rest ++ frames.flatMap Frame.entries) := by
      simp [waiting, s']
    rw [hSplit, hSplit']
    exact perm_middle
  have hAfter : running s' = a :: running s := by
    simp [running, hFrames, hRunning, s']
  have hWait : ∀ b ∈ waiting s', b ≠ a ∧ b ∈ waiting s := by
    intro b hB
    have hNodup := hInv.placed.nodup_waiting.1
    rw [hWaits.nodup_iff, nodup_cons] at hNodup
    refine ⟨?_, hWaits.mem_iff.mpr (mem_cons_of_mem _ hB)⟩
    rintro rfl
    exact hNodup.1 hB
  refine ⟨s', hStep, hInv.placed.same ?_ rfl rfl, ?_, ?_, hInv.handlers⟩
  · simp [places, hFrames, hRunning, hEntries, s']
  · refine hInv.logged.touch hInv.placed hEntry rfl ?_ rfl (fun b _ => rfl) hWait ?_ ?_
    · simp [Note.serial]
    · intro b hB hNe
      rw [hAfter] at hB
      exact (mem_cons.mp hB).resolve_left hNe
    · refine Or.inr ⟨hEntry, f.number, ?_⟩
      rw [hInv.logged.waits a hIn e hEntry]
      rfl
  · have hSplit : s.frames.map Frame.number = f.number :: frames.map Frame.number := by
      rw [hFrames]
      rfl
    have hNumbers := hInv.ordered.numbers
    rw [hSplit, nodup_cons] at hNumbers
    rcases hInv.ordered.frames f hMem with ⟨hSorted, hAfter⟩
    rw [hEntries, Sorted, pairwise_cons] at hSorted
    have hCalls : ∀ d, calls s'.log d =
        if f.number = d then calls s.log d ++ [e.serial]
        else calls s.log d := fun d =>
      calls_append_called _ _ _ _
    refine ⟨hInv.ordered.list, ?_, ?_, ?_, ?_, ?_⟩
    · intro f' hF'
      rcases mem_cons.mp hF' with rfl | hF'
      · -- its calls are those before and this one
        refine ⟨hSorted.2, ?_⟩
        intro i hI b hB e' hE'
        have hI : i ∈ calls s'.log f.number := hI
        rw [hCalls, if_pos rfl, mem_append, mem_singleton] at hI
        rcases hI with hI | rfl
        · refine hAfter i hI b ?_ e' hE'
          rw [hEntries]
          exact mem_cons_of_mem _ hB
        · exact hSorted.1 b hB e e' hEntry hE'
      · have hOther : f.number ≠ f'.number := by
          intro hSame
          rw [hSame] at hNumbers
          exact hNumbers.1 (List.mem_map_of_mem hF')
        rw [hCalls, if_neg hOther]
        refine hInv.ordered.frames f' ?_
        rw [hFrames]
        exact mem_cons_of_mem _ hF'
    · intro d
      rw [hCalls]
      split
      · next hSame =>
          subst hSame
          rw [pairwise_append]
          refine ⟨hInv.ordered.increasing _, pairwise_singleton _ _, ?_⟩
          intro i hI j hJ
          cases mem_singleton.mp hJ
          exact hAfter i hI a hHeld e hEntry
      · exact hInv.ordered.increasing d
    · have hSame := hInv.ordered.numbers
      rw [hSplit] at hSame
      exact hSame
    · intro f' hF'
      rcases mem_cons.mp hF' with rfl | hF'
      · exact hInv.ordered.known f hMem
      · refine hInv.ordered.known f' ?_
        rw [hFrames]
        exact mem_cons_of_mem _ hF'
    · intro d hFresh
      have hKnown := hInv.ordered.known f hMem
      have hFresh : s.dispatches ≤ d := hFresh
      rw [hCalls, if_neg (by omega)]
      exact hInv.ordered.fresh d hFresh

theorem advance_spec (hInv : Inv s) (hSome : s.frames ≠ []) :
    ∃ s', advance s = some s' ∧ Inv s' := by
  cases hFrames : s.frames with
  | nil => exact absurd hFrames hSome
  | cons f frames =>
    cases hRunning : f.running with
    | some a => exact return_spec hInv hFrames hRunning
    | none =>
      cases hEntries : f.entries with
      | nil => exact leave_spec hInv hFrames hRunning hEntries
      | cons a rest => exact call_spec hInv hFrames hRunning hEntries

---
-- Every Run
---

open Option

theorem step_spec (s : Sched A C F V) (op : Op A C F V)
    (hInv : Inv s) (hAllowed : Allowed s op ∧ Searched s op) :
    ∃ s', step s op = some s' ∧ Inv s' := by
  rcases hAllowed with ⟨hAllowed, hSearched⟩
  cases op with
  | schedule malloc cb future value =>
    exact ⟨_, rfl, hInv.schedule malloc cb future value hAllowed⟩
  | futureRecall a =>
    rcases hSearched with ⟨hOn, hNone⟩
    rcases mem_append.mp hAllowed with hList | hHeld
    · exact recall_spec hInv hOn hList
    · rcases mem_flatMap.mp hHeld with ⟨f, hF, hIn⟩
      exact absurd hIn (hNone f hF)
  | dispatch => exact ⟨_, rfl, hInv.dispatch hAllowed⟩
  | advance => exact advance_spec hInv hAllowed
  | shutdown => exact ⟨_, rfl, hInv.shutdown⟩

/- Called once or recalled, whatever the callbacks do -/
theorem future_correct (ops : List (Op A C F V))
    (hGuarded : Runs.Guarded step
      (fun s op => Allowed s op ∧ Searched s op) .start ops) :
    ∃ s, Runs.run step .start ops = some s ∧ Correct s := by
  rcases Runs.run_of_guarded Inv step_spec Inv.start hGuarded
    with ⟨s, hRun, hInv⟩
  exact ⟨s, hRun, hInv.correct⟩

/-
  Two entries: one is called, schedules a third and recalls
  it, and the other one is called after it.
-/
def sampleRun : List (Op Nat Nat Nat Nat) :=
  [.schedule (some 0) 5 10 20, .schedule (some 1) 5 11 21,
    .dispatch, .advance, .schedule (some 2) 5 12 22, .futureRecall 2,
    .advance, .advance, .advance]

theorem future_correct_sample :
    ∃ s, Runs.run step .start sampleRun = some s ∧
      Correct s := by
  apply future_correct
  refine ⟨⟨fun a _ => rfl, trivial⟩, fun s₁ h₁ => ?_⟩
  obtain rfl := some.inj h₁
  refine ⟨⟨fun a hA => ?_, trivial⟩, fun s₂ h₂ => ?_⟩
  · cases hA
    rfl
  obtain rfl := some.inj h₂
  refine ⟨⟨show 1 ≠ 0 by decide, trivial⟩, fun s₃ h₃ => ?_⟩
  obtain rfl := some.inj h₃
  refine ⟨⟨cons_ne_nil _ _, trivial⟩, fun s₄ h₄ => ?_⟩
  obtain rfl := some.inj h₄
  refine ⟨⟨fun a hA => ?_, trivial⟩, fun s₅ h₅ => ?_⟩
  · cases hA
    rfl
  obtain rfl := some.inj h₅
  refine ⟨⟨mem_cons_self, rfl, fun f hF => ?_⟩, fun s₆ h₆ => ?_⟩
  · cases mem_singleton.mp hF
    decide
  obtain rfl := some.inj h₆
  refine ⟨⟨cons_ne_nil _ _, trivial⟩, fun s₇ h₇ => ?_⟩
  obtain rfl := some.inj h₇
  refine ⟨⟨cons_ne_nil _ _, trivial⟩, fun s₈ h₈ => ?_⟩
  obtain rfl := some.inj h₈
  exact ⟨⟨cons_ne_nil _ _, trivial⟩, fun _ _ => trivial⟩

/- The first of two entries recalls the other. -/
def raceRun : List (Op Nat Nat Nat Nat) :=
  [.schedule (some 0) 5 10 20, .schedule (some 1) 5 11 21,
    .dispatch, .advance, .futureRecall 1, .advance, .advance]

/- What was recalled is called. -/
theorem recalled_is_called :
    Runs.Guarded step Allowed .start raceRun ∧
      ∃ s, Runs.run step .start raceRun = some s ∧
        life s 1 =
          [.scheduled ⟨5, 11, 21, 1⟩, .recalled 1,
            .called 0 ⟨5, 11, 21, 1⟩] ∧
        ¬ Correct s := by
  refine ⟨?_, _, rfl, rfl, fun hCorrect => ?_⟩
  · refine ⟨fun a _ => rfl, fun s₁ h₁ => ?_⟩
    obtain rfl := some.inj h₁
    refine ⟨fun a hA => ?_, fun s₂ h₂ => ?_⟩
    · cases hA
      rfl
    obtain rfl := some.inj h₂
    refine ⟨show 1 ≠ 0 by decide, fun s₃ h₃ => ?_⟩
    obtain rfl := some.inj h₃
    refine ⟨cons_ne_nil _ _, fun s₄ h₄ => ?_⟩
    obtain rfl := some.inj h₄
    refine ⟨mem_cons_self, fun s₅ h₅ => ?_⟩
    obtain rfl := some.inj h₅
    refine ⟨cons_ne_nil _ _, fun s₆ h₆ => ?_⟩
    obtain rfl := some.inj h₆
    exact ⟨cons_ne_nil _ _, fun _ _ => trivial⟩
  · rcases hCorrect.lived 1 (by decide) with ⟨e, hSerial, hLived⟩
    rw [Lived, hSerial] at hLived
    rcases hLived with ⟨a, -, -, hLife⟩ |
      ⟨a, -, -, d, hLife⟩ | ⟨-, ⟨d, hLife⟩ | hLife⟩
    · exact absurd (show 3 = 1 from congrArg List.length hLife)
        (by decide)
    · exact absurd (show 3 = 2 from congrArg List.length hLife)
        (by decide)
    · injection hLife with _ hLife
      injection hLife with hLife _
      exact nomatch hLife
    · exact absurd (show 3 = 4 from congrArg List.length hLife)
        (by decide)

end Efl.Ecore.Future
