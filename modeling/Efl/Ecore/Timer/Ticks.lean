import Efl.Ecore.Timer.Steps

/-
  The ticks of a pass, and of the passes inside it.

  `expired` are the timers that have to tick.  The ones that
  have ticked and the ones that are left make them up, and
  those left are behind the current timer.

  Main declarations:
    * `Due`, `Strands`, `Kept`
    * `Place`, `Ticking`
    * `Ticking.start`, `Ticking.step`
    * `timers_correct`
-/

---
-- Expired Timers
---

namespace Efl.Ecore.Timer

open Eina

variable {K : Type} [LinearOrder K]

/- Enabled, expired and not frozen -/
structure Due (l : Loop K) (when' : K) (n : Nat) : Prop where
  live : l.live n = true
  enabled : (l.timer n).justAdded = false
  expired : (l.timer n).atTime ≤ when'
  thawed : (l.timer n).frozen = false
  counted : (l.timer n).freezeCount = 0

/-
  The call takes the current timer away from an expired one
  behind it.
-/
def Strands (l : Loop K) (op : Op K) : Prop :=
  ∃ c as bs, l.timerCurrent = some c ∧ op.relinks c ∧
    Inlist.Strung l.nodes l.timers (as ++ c :: bs) ∧
    ∃ n ∈ bs, Due l l.lastCheck n

/- The callbacks of a pass leave the expired timers behind. -/
def Kept (s : Machine K) : Input K → Prop
  | .op op => op ≠ .enableNew ∧ ¬ Strands s.loop op
  | _ => True

variable {l : Loop K} {when' : K} {n : Nat}

theorem Ordered.mem_of_due {ts ss : List Nat}
    (hOrdered : Ordered l ts ss) (hDue : Due l when' n) : n ∈ ts := by
  cases (hOrdered.live n).mp hDue.live with
  | inl hMem => exact hMem
  | inr hMem =>
    cases hOrdered.resting n hMem with
    | inl hAdded => exact nomatch hAdded.symm.trans hDue.enabled
    | inr hFrozen => exact nomatch hFrozen.symm.trans hDue.thawed

---
-- Places
---

open List

/- The walk is at `c` or before it, and `rest` is left. -/
def Ahead (c : Nat) (rest ts : List Nat) : Prop :=
  (c :: rest).Sublist ts ∨ rest.head? = some c ∧ rest.Sublist ts

theorem ahead_head {d : Nat} {rest bs : List Nat}
    (hSub : rest.Sublist (d :: bs)) (hRest : rest ≠ []) : Ahead d rest (d :: bs) := by
  cases hSub with
  | cons _ hSub => exact Or.inl (hSub.cons_cons d)
  | cons_cons _ hSub => exact Or.inr ⟨rfl, hSub.cons_cons d⟩

/- A part of a list that does not have the timer that moves -/
theorem sublist_of_others {rest ts ts' : List Nat} (hSub : rest.Sublist ts) (hNot : n ∉ rest)
    (hOthers : ts'.filter (· ≠ n) = ts.filter (· ≠ n)) : rest.Sublist ts' := by
  have hSelf : rest.filter (· ≠ n) = rest := by
    rw [filter_eq_self]
    intro m hMem
    rw [decide_eq_true_eq]
    rintro rfl
    exact hNot hMem
  rw [← hSelf]
  exact (hSub.filter (· ≠ n)).trans (hOthers ▸ filter_sublist)

variable {c : Nat}

theorem Ahead.of_others {rest ts ts' : List Nat}
    (hAhead : Ahead c rest ts) (hNe : c ≠ n) (hNot : n ∉ rest)
    (hOthers : ts'.filter (· ≠ n) = ts.filter (· ≠ n)) : Ahead c rest ts' := by
  cases hAhead with
  | inl hSub =>
    refine Or.inl (sublist_of_others hSub ?_ hOthers)
    intro hMem
    cases hMem with
    | head => exact hNe rfl
    | tail _ hMem => exact hNot hMem
  | inr hHead =>
    exact Or.inr ⟨hHead.1, sublist_of_others hHead.2 hNot hOthers⟩

/- What is behind a timer in a list -/
theorem sublist_behind {rest as bs : List Nat}
    (hSub : (c :: rest).Sublist (as ++ c :: bs)) (hNot : c ∉ as) : rest.Sublist bs := by
  induction as with
  | nil => exact cons_sublist_cons.mp hSub
  | cons a as ih =>
    rw [cons_append] at hSub
    cases hSub with
    | cons _ hSub =>
      exact ih hSub fun hMem =>
        hNot (mem_cons_of_mem _ hMem)
    | cons_cons _ hSub => exact absurd mem_cons_self hNot

section

variable {K : Type} {l : Loop K} {ts ss rest : List Nat} {c : Nat}

section

variable (hLists : Lists l ts ss)

include hLists

section

variable (hSub : (c :: rest).Sublist ts)

include hSub

theorem Lists.behind : ∃ as bs, ts = as ++ c :: bs ∧ rest.Sublist bs := by
  have hMem := hSub.subset mem_cons_self
  rcases append_of_mem hMem with ⟨as, bs, rfl⟩
  refine ⟨as, bs, rfl, sublist_behind hSub fun hAs => ?_⟩
  exact nodup_out hLists.timers.linked.nodup (mem_append_left _ hAs)

theorem Lists.not_mem_rest : c ∉ rest := (nodup_cons.mp (hLists.timers.linked.nodup.sublist hSub)).1

/- The next timer is not behind what is left. -/
theorem Lists.ahead_next
    (hRest : rest ≠ []) : ∃ d, (l.nodes c).next = some d ∧ d ≠ c ∧ Ahead d rest ts := by
  rcases hLists.behind hSub with ⟨as, bs, rfl, hBehind⟩
  have hNext : (l.nodes c).next = bs.head? := hLists.timers.linked.next_eq
  have hOut := nodup_out hLists.timers.linked.nodup
  cases bs with
  | nil => exact absurd (sublist_nil.mp hBehind) hRest
  | cons d bs =>
    refine ⟨d, hNext, ?_, ?_⟩
    · rintro rfl
      exact hOut (mem_append_right _ mem_cons_self)
    · have hSuffix : (d :: bs).Sublist (as ++ c :: d :: bs) :=
        (sublist_cons_self c _).trans (sublist_append_right as _)
      exact (ahead_head hBehind hRest).imp (fun hSub => hSub.trans hSuffix)
        (fun hHead => ⟨hHead.1, hHead.2.trans hSuffix⟩)

/- The pass moves on, and the timer behind it moves elsewhere. -/
theorem Lists.ahead_moved {l₁ l' : Loop K} {ts' : List Nat}
    (hRest : rest ≠ []) (hNext : l₁.timerCurrent = (l.nodes c).next)
    (hMoved : Moved c l₁ l' ts ts') : ∃ d, l'.timerCurrent = some d ∧ Ahead d rest ts' := by
  rcases hLists.ahead_next hSub hRest with ⟨d, hD, hNe, hAhead⟩
  have hCurrent : l₁.timerCurrent = some d := hNext.trans hD
  refine ⟨d, ?_, hAhead.of_others hNe (hLists.not_mem_rest hSub) hMoved.others⟩
  rw [hMoved.current, hCurrent]
  rw [hCurrent]
  exact fun hEq => hNe (Option.some.inj hEq)

end

end

end

---
-- What Is Left
---

/- Where a pass is, while timers are left -/
inductive Place (s : Machine K) (ts rest : List Nat) : Prop where
  | walking {c : Nat}
      (hWalking : s.walking = some s.loop.lastCheck)
      (hCurrent : s.loop.timerCurrent = some c)
      (hAhead : Ahead c rest ts)
  | ticking {f : Frame K} {frames : List (Frame K)}
      (hWalking : s.walking = none)
      (hFrames : s.frames = f :: frames)
      (hWhen : f.when' = s.loop.lastCheck)
      (hCurrent : s.loop.timerCurrent = some f.timer)
      (hBehind : (f.timer :: rest).Sublist ts)

/- A timer that is left waits for its tick. -/
structure Waiting (l : Loop K) (ts : List Nat) (r : Nat) : Prop where
  mem : r ∈ ts
  enabled : (l.timer r).justAdded = false
  expired : (l.timer r).atTime ≤ l.lastCheck
  counted : (l.timer r).freezeCount = 0

/- The ticks of the expired timers, and what is left of them -/
structure Ticking (expired : List Nat) (s : Machine K) (ts rest : List Nat) : Prop where
  parts : s.ticks.filter (· ∈ expired) ++ rest = expired
  ticked : ∀ x ∈ s.ticks, x ∈ ts →
    (s.loop.timer x).justAdded = true ∨
      s.walking = none ∧ s.loop.timerCurrent = some x ∧
        ∃ f frames, s.frames = f :: frames ∧ f.timer = x
  waiting : ∀ r ∈ rest, Waiting s.loop ts r
  place : rest ≠ [] → Place s ts rest

variable {s : Machine K} {expired ts ss rest : List Nat}

variable {r : Nat}

section

variable (hTicking : Ticking expired s ts rest)

include hTicking

theorem Ticking.mem_expired (hMem : r ∈ rest) : r ∈ expired := by
  rw [← hTicking.parts]
  exact mem_append_right _ hMem

/- While a pass walks, what ticked is not enabled. -/
theorem Ticking.added_of_walking (hWalking : s.walking = some when') :
    ∀ x ∈ s.ticks, x ∈ ts → (s.loop.timer x).justAdded = true := by
  intro x hTick hMem
  cases hTicking.ticked x hTick hMem with
  | inl hAdded => exact hAdded
  | inr hNone => exact nomatch hWalking.symm.trans hNone.1

/- A walk is at its current timer. -/
theorem Ticking.place_walking
    (hWalking : s.walking = some when') (hRest : rest ≠ []) :
    when' = s.loop.lastCheck ∧ ∃ c, s.loop.timerCurrent = some c ∧ Ahead c rest ts := by
  cases hTicking.place hRest with
  | walking hWalking' hCurrent hAhead =>
    exact ⟨Option.some.inj (hWalking.symm.trans hWalking'), _, hCurrent, hAhead⟩
  | ticking hWalking' hFrames hWhen hCurrent hBehind =>
    exact nomatch hWalking.symm.trans hWalking'

/- A callback is one of the current timer. -/
theorem Ticking.place_ticking
    (hWalking : s.walking = none) (hRest : rest ≠ []) :
    ∃ f frames, s.frames = f :: frames ∧
      f.when' = s.loop.lastCheck ∧
      s.loop.timerCurrent = some f.timer ∧ (f.timer :: rest).Sublist ts := by
  cases hTicking.place hRest with
  | walking hWalking' hCurrent hAhead =>
    exact nomatch hWalking.symm.trans hWalking'
  | ticking hWalking' hFrames hWhen hCurrent hBehind =>
    exact ⟨_, _, hFrames, hWhen, hCurrent, hBehind⟩

end

variable {l' : Loop K}

section

variable (hWaiting : Waiting l ts r)

include hWaiting

/- A timer that is left does not care about another one. -/
theorem Waiting.moved {ts' : List Nat}
    (hNe : r ≠ n) (hMoved : Moved n l l' ts ts') : Waiting l' ts' r := by
  have hTimer := hMoved.timer r hNe
  refine ⟨(hMoved.mem_iff hNe).mpr hWaiting.mem, ?_, ?_, ?_⟩
  · rw [hTimer]
    exact hWaiting.enabled
  · rw [hTimer, hMoved.lastCheck]
    exact hWaiting.expired
  · rw [hTimer]
    exact hWaiting.counted

theorem Waiting.quiet {ts' : List Nat} (hMoved : Moved n l l' ts ts')
    (hQuiet : r = n → Quiet n l l' ts ts') : Waiting l' ts' r := by
  by_cases hEq : r = n
  · have hQ := hQuiet hEq
    subst hEq
    refine ⟨hQ.timers ▸ hWaiting.mem, ?_, ?_, ?_⟩
    · rw [hQ.justAdded]
      exact hWaiting.enabled
    · rw [hQ.atTime, hMoved.lastCheck]
      exact hWaiting.expired
    · exact hQ.freezeCount hWaiting.mem hWaiting.counted
  · exact hWaiting.moved hEq hMoved

theorem Waiting.due (hOrdered : Ordered l ts ss) : Due l l.lastCheck r :=
  ⟨(hOrdered.live r).mpr (Or.inl hWaiting.mem), hWaiting.enabled, hWaiting.expired,
    (hOrdered.ticking r hWaiting.mem).2, hWaiting.counted⟩

end

/- The walk is not past a timer that is left. -/
theorem Ahead.le (hAhead : Ahead c rest ts) (hSorted : Sorted l ts)
    (hRest : rest ≠ []) (hWaiting : ∀ r ∈ rest, Waiting l ts r) :
    (l.timer c).atTime ≤ l.lastCheck := by
  cases hAhead with
  | inl hSub =>
    rcases exists_mem_of_ne_nil rest hRest with ⟨r, hR⟩
    have hLe := (pairwise_cons.mp (hSorted.sublist hSub)).1 r hR
    exact le_trans hLe (hWaiting r hR).expired
  | inr hHead => exact (hWaiting c (mem_of_head? hHead.1)).expired

/- A timer that is not left is before what is left. -/
theorem Ahead.of_not_mem (hAhead : Ahead c rest ts) (hNot : c ∉ rest) : (c :: rest).Sublist ts := by
  cases hAhead with
  | inl hSub => exact hSub
  | inr hHead => exact absurd (mem_of_head? hHead.1) hNot

---
-- Callbacks
---

open Option

/- A call that a callback makes, on the timer `n` -/
theorem Ticking.op {op : Op K} {ts' : List Nat}
    (hTicking : Ticking expired s ts rest) (hFine : Fine s ts ss)
    (hWalking : s.walking = none) (hApplied : Applied op n s.loop l ts ts')
    (hKept : ¬ Strands s.loop op)
    (hCalm : ∀ r ∈ expired, ¬ op.disturbs r) : Ticking expired { s with loop := l } ts' rest := by
  have hMoved := hApplied.moved
  have hQuiet : ∀ r ∈ rest, r = n → Quiet n s.loop l ts ts' := by
    rintro r hR rfl
    exact hApplied.calm (hTicking.waiting r hR).mem (Or.inl (hCalm r (hTicking.mem_expired hR)))
  refine ⟨hTicking.parts, ?_, fun r hR =>
    (hTicking.waiting r hR).quiet hMoved (hQuiet r hR), ?_⟩
  · intro x hTick hMem
    by_cases hEq : x = n
    · subst hEq
      cases hApplied.settled with
      | inl hQ =>
        rw [hQ.timers] at hMem
        rw [hQ.justAdded]
        show _ ∨ _ ∧ l.timerCurrent = some x ∧ _
        rw [hQ.timerCurrent]
        exact hTicking.ticked x hTick hMem
      | inr hAdded => exact Or.inl (hAdded hMem)
    · have hOld := (hMoved.mem_iff hEq).mp hMem
      rw [hMoved.timer x hEq]
      refine (hTicking.ticked x hTick hOld).imp_right ?_
      rintro ⟨hNone, hCurrent, hFrame⟩
      refine ⟨hNone, ?_, hFrame⟩
      show l.timerCurrent = some x
      rw [hMoved.current, hCurrent]
      rw [hCurrent]
      exact fun hN => hEq (some.inj hN)
  · intro hRest
    rcases hTicking.place_ticking hWalking hRest with ⟨f, frames, hFrames, hWhen, hCurrent, hSub⟩
    -- the current timer keeps its place
    have hStays : f.timer = n → Quiet n s.loop l ts ts' := by
      rintro rfl
      refine hApplied.calm (hSub.subset mem_cons_self) (Or.inr ⟨hCurrent, fun hRelinks => hKept ?_⟩)
      rcases hFine.ordered.lists.behind hSub with ⟨as, bs, rfl, hBehind⟩
      rcases exists_mem_of_ne_nil rest hRest with ⟨r, hR⟩
      exact ⟨f.timer, as, bs, hCurrent, hRelinks,
        hFine.ordered.lists.timers.strung, r, hBehind.subset hR,
        (hTicking.waiting r hR).due hFine.ordered⟩
    have hPlace : l.timerCurrent = some f.timer ∧ (f.timer :: rest).Sublist ts' := by
      by_cases hIn : n ∈ f.timer :: rest
      · have hQ : Quiet n s.loop l ts ts' := by
          rw [mem_cons] at hIn
          cases hIn with
          | inl hEq => exact hStays hEq.symm
          | inr hMem => exact hQuiet n hMem rfl
        exact ⟨hQ.timerCurrent.trans hCurrent, hQ.timers ▸ hSub⟩
      · refine ⟨?_, sublist_of_others hSub hIn hMoved.others⟩
        rw [hMoved.current, hCurrent]
        rw [hCurrent]
        intro hEq
        exact hIn (some.inj hEq ▸ mem_cons_self)
    exact .ticking hWalking hFrames (hWhen.trans hMoved.lastCheck.symm) hPlace.1 hPlace.2

/-
  The timer `c` ticked, or does not, and the pass is on to the
  next one.
-/
theorem Ticking.next (l₁ : Loop K) {ts' : List Nat} {s' : Machine K}
    (hTicking : Ticking expired s ts rest) (hLists : Lists s.loop ts ss)
    (hWaiting : ∀ r ∈ rest, Waiting l₁ ts r)
    (hAdded : ∀ x ∈ s.ticks, x ∈ ts → x ≠ c →
      (l₁.timer x).justAdded = true) (hBehind : rest ≠ [] → (c :: rest).Sublist ts)
    (hNext : rest ≠ [] → l₁.timerCurrent = (s.loop.nodes c).next)
    (hMoved : Moved c l₁ l ts ts') (hDone : c ∈ ts' → (l.timer c).justAdded = true)
    (hLoop : s'.loop = l) (hTicks : s'.ticks = s.ticks)
    (hWalking : rest ≠ [] → s'.walking = some l.lastCheck) : Ticking expired s' ts' rest := by
  have hNe : ∀ r ∈ rest, r ≠ c := by
    rintro r hR rfl
    have hRest : rest ≠ [] := ne_nil_of_mem hR
    exact hLists.not_mem_rest (hBehind hRest) hR
  refine ⟨hTicks ▸ hTicking.parts, ?_, ?_, ?_⟩
  · intro x hTick hMem
    rw [hTicks] at hTick
    rw [hLoop]
    refine Or.inl ?_
    by_cases hEq : x = c
    · rw [hEq] at hMem ⊢
      exact hDone hMem
    · rw [hMoved.timer x hEq]
      exact hAdded x hTick ((hMoved.mem_iff hEq).mp hMem) hEq
  · intro r hR
    rw [hLoop]
    exact (hWaiting r hR).moved (hNe r hR) hMoved
  · intro hRest
    rcases hLists.ahead_moved (hBehind hRest) hRest (hNext hRest) hMoved with ⟨d, hCurrent, hAhead⟩
    refine .walking ?_ (hLoop.symm ▸ hCurrent) hAhead
    rw [hLoop]
    exact hWalking hRest

---
-- Walks of a Pass
---

omit [LinearOrder K] in
theorem moveOn_current (hCurrent : l.timerCurrent = some c) :
    (moveOn l).timerCurrent = (l.nodes c).next := by
  unfold moveOn
  rw [hCurrent]

theorem waiting_moveOn (hWaiting : Waiting l ts r) : Waiting (moveOn l) ts r := by
  have hSame := moveOn_same l
  refine ⟨hWaiting.mem, ?_, ?_, ?_⟩
  · rw [hSame.1]
    exact hWaiting.enabled
  · rw [hSame.1, hSame.2.2.2.2.2]
    exact hWaiting.expired
  · rw [hSame.1]
    exact hWaiting.counted

section

variable (hTicking : Ticking expired s ts rest)

include hTicking

section

variable (hFine : Fine s ts ss)

include hFine

section

variable (hWalking : s.walking = some when')

include hWalking

section

variable (hCurrent : s.loop.timerCurrent = some c)

include hCurrent

/- The walk skips a timer that was added. -/
theorem Ticking.added (hNot : c ∉ rest)
    (hAdded : (s.loop.timer c).justAdded = true) :
    Ticking expired { s with loop := moveOn s.loop } ts
      rest := by
  have hSame := moveOn_same s.loop
  refine hTicking.next (moveOn s.loop) (l := moveOn s.loop) (c := c) hFine.ordered.lists
    (fun r hR => waiting_moveOn (hTicking.waiting r hR)) ?_ ?_
    (fun _ => moveOn_current hCurrent) (Moved.refl c _ ts) ?_
    rfl rfl ?_
  · intro x hTick hMem _
    rw [hSame.1]
    exact hTicking.added_of_walking hWalking x hTick hMem
  · intro hRest
    rcases (hTicking.place_walking hWalking hRest).2 with ⟨d, hD, hAhead⟩
    obtain rfl := some.inj (hCurrent.symm.trans hD)
    exact hAhead.of_not_mem hNot
  · intro _
    rw [hSame.1]
    exact hAdded
  · intro hRest
    show s.walking = _
    rw [hWalking, hSame.2.2.2.2.2, (hTicking.place_walking hWalking hRest).1]

/- A timer ticks, one that is left or another one. -/
theorem Ticking.tick (hIn : c ∈ ts)
    (hAdded : (s.loop.timer c).justAdded = false) :
    ∃ rest', Ticking expired
      { s with
        frames := ⟨c, when'⟩ :: s.frames
        walking := none
        ticks := s.ticks ++ [c] } ts rest' := by
  have hNotTick : c ∉ s.ticks := fun hTick => nomatch hAdded.symm.trans
    (hTicking.added_of_walking hWalking c hTick hIn)
  have hTicked : ∀ x ∈ s.ticks ++ [c], x ∈ ts →
      (s.loop.timer x).justAdded = true ∨
        (none : Option K) = none ∧ s.loop.timerCurrent = some x ∧
          ∃ f frames, (⟨c, when'⟩ : Frame K) :: s.frames = f :: frames ∧ f.timer = x := by
    intro x hTick hMem
    rw [mem_append, mem_singleton] at hTick
    cases hTick with
    | inl hTick =>
      exact Or.inl (hTicking.added_of_walking hWalking x hTick hMem)
    | inr hEq =>
      subst hEq
      exact Or.inr ⟨rfl, hCurrent, _, _, rfl, rfl⟩
  have hPlace : ∀ rest', rest ≠ [] → (c :: rest').Sublist ts →
      Place { s with
        frames := ⟨c, when'⟩ :: s.frames
        walking := none
        ticks := s.ticks ++ [c] } ts rest' := by
    intro rest' hRest hSub
    exact .ticking rfl rfl (hTicking.place_walking hWalking hRest).1 hCurrent hSub
  have hParts := hTicking.parts
  by_cases hMem : c ∈ rest
  · have hRest : rest ≠ [] := ne_nil_of_mem hMem
    rcases (hTicking.place_walking hWalking hRest).2 with ⟨d, hD, hAhead⟩
    obtain rfl := some.inj (hCurrent.symm.trans hD)
    cases hAhead with
    | inl hSub =>
      exact absurd hMem (hFine.ordered.lists.not_mem_rest hSub)
    | inr hHead =>
      rcases hHead with ⟨hHead, hSub⟩
      cases rest with
      | nil => exact nomatch hHead
      | cons r rest =>
        obtain rfl : r = c := some.inj hHead
        refine ⟨rest, ?_, hTicked, fun r' hR =>
          hTicking.waiting r' (mem_cons_of_mem _ hR),
          fun _ => hPlace rest hRest hSub⟩
        have hExpired := hTicking.mem_expired (r := r) mem_cons_self
        rw [filter_append, filter_cons_of_pos (by simpa using hExpired), filter_nil, append_assoc]
        exact hParts
  · refine ⟨rest, ?_, hTicked, hTicking.waiting, fun hRest => ?_⟩
    · have hNot : c ∉ expired := by
        rw [← hParts, mem_append, mem_filter]
        exact fun hEither => hEither.elim (fun hTick => hNotTick hTick.1) hMem
      rw [filter_append, filter_cons_of_neg (by simpa using hNot), filter_nil, append_nil]
      exact hParts
    · rcases (hTicking.place_walking hWalking hRest).2 with ⟨d, hD, hAhead⟩
      obtain rfl := some.inj (hCurrent.symm.trans hD)
      exact hPlace rest hRest (hAhead.of_not_mem hMem)

/- The walk passes over a timer whose events are frozen. -/
theorem Ticking.blocked {ts' : List Nat}
    (hBlocked : (s.loop.timer c).freezeCount ≠ 0) (hMoved : Moved c (moveOn s.loop) l ts ts')
    (hDone : c ∈ ts' → (l.timer c).justAdded = true) :
    Ticking expired { s with loop := l } ts' rest := by
  have hSame := moveOn_same s.loop
  have hNot : c ∉ rest := fun hR =>
    hBlocked (hTicking.waiting c hR).counted
  refine hTicking.next (moveOn s.loop) (c := c) hFine.ordered.lists
    (fun r hR => waiting_moveOn (hTicking.waiting r hR)) ?_ ?_ (fun _ =>
    moveOn_current hCurrent) hMoved hDone rfl rfl ?_
  · intro x hTick hMem _
    rw [hSame.1]
    exact hTicking.added_of_walking hWalking x hTick hMem
  · intro hRest
    rcases (hTicking.place_walking hWalking hRest).2 with ⟨d, hD, hAhead⟩
    obtain rfl := some.inj (hCurrent.symm.trans hD)
    exact hAhead.of_not_mem hNot
  · intro hRest
    show s.walking = _
    rw [hWalking, hMoved.lastCheck, hSame.2.2.2.2.2, (hTicking.place_walking hWalking hRest).1]

end

end

/- A callback returns. -/
theorem Ticking.ret {f : Frame K} {frames : List (Frame K)} {ts' : List Nat}
    (hWalking : s.walking = none) (hFrames : s.frames = f :: frames)
    (hMoved : Moved f.timer (moveOn s.loop) l ts ts')
    (hDone : f.timer ∈ ts' → (l.timer f.timer).justAdded = true) :
    Ticking expired
      { s with
        loop := l
        frames := frames
        walking := some f.when' } ts' rest := by
  have hSame := moveOn_same s.loop
  have hPlace : rest ≠ [] → f.when' = s.loop.lastCheck ∧
      s.loop.timerCurrent = some f.timer ∧ (f.timer :: rest).Sublist ts := by
    intro hRest
    rcases hTicking.place_ticking hWalking hRest with ⟨g, frames', hFrames', hPlace⟩
    obtain ⟨rfl, -⟩ := List.cons.inj (hFrames.symm.trans hFrames')
    exact hPlace
  refine hTicking.next (moveOn s.loop) (c := f.timer) hFine.ordered.lists
    (fun r hR => waiting_moveOn (hTicking.waiting r hR)) ?_ (fun hRest => (hPlace hRest).2.2)
    (fun hRest => moveOn_current (hPlace hRest).2.1) hMoved hDone rfl rfl ?_
  · intro x hTick hMem hNe
    rw [hSame.1]
    cases hTicking.ticked x hTick hMem with
    | inl hAdded => exact hAdded
    | inr hTop =>
      rcases hTop.2.2 with ⟨g, frames', hFrames', hEq⟩
      obtain ⟨rfl, -⟩ := List.cons.inj (hFrames.symm.trans hFrames')
      exact absurd hEq.symm hNe
  · intro hRest
    show some f.when' = _
    rw [hMoved.lastCheck, hSame.2.2.2.2.2, (hPlace hRest).1]

end

end

---
-- Passes in Passes
---

variable {s' : Machine K} {ts' : List Nat}

variable {l₁ : Loop K}

/- A timer that is left is so after a check of the time. -/
theorem Waiting.checked (hWaiting : Waiting l ts r)
    (hChecked : Checked l l₁ when' ts) (current : Option Nat) :
    Waiting { l₁ with timerCurrent := current } ts r := by
  refine ⟨hWaiting.mem, ?_, ?_, ?_⟩
  · exact (hChecked.justAdded r).trans hWaiting.enabled
  · show (l₁.timer r).atTime ≤ l₁.lastCheck
    rw [hChecked.lastCheck]
    exact hChecked.expired r hWaiting.mem hWaiting.expired
  · exact (hChecked.freezeCount r).trans hWaiting.counted

/- A callback runs a pass. -/
theorem Ticking.pass (hTicking : Ticking expired s ts rest)
    (hFine : Fine s ts ss) (hWalking : s.walking = none) (hChecked : Checked s.loop l₁ when' ts)
    (hStarted : Started s.loop l₁ ts l ts') :
    Ticking expired { s with loop := l, walking := some when' } ts' rest := by
  have hPlace := fun hRest =>
    hTicking.place_ticking hWalking hRest
  cases hStarted with
  | head hNone =>
    have hEmpty : rest = [] := by
      by_contra hRest
      rcases hPlace hRest with ⟨f, frames, -, -, hCurrent, -⟩
      exact nomatch hNone.symm.trans hCurrent
    subst hEmpty
    refine ⟨hTicking.parts, ?_, nofun, fun hRest => absurd rfl hRest⟩
    intro x hTick hMem
    refine Or.inl ((hChecked.justAdded x).trans ?_)
    cases hTicking.ticked x hTick hMem with
    | inl hAdded => exact hAdded
    | inr hTop => exact nomatch hNone.symm.trans hTop.2.1
  | @next _ _ c hCurrent hMoved hAdded =>
    refine hTicking.next { l₁ with timerCurrent := (l₁.nodes c).next } (c := c) hFine.ordered.lists
      (fun r hR => (hTicking.waiting r hR).checked hChecked _) ?_ ?_ ?_ hMoved hAdded rfl rfl ?_
    · intro x hTick hMem hNe
      refine (hChecked.justAdded x).trans ?_
      cases hTicking.ticked x hTick hMem with
      | inl hAdded => exact hAdded
      | inr hTop =>
        exact absurd (some.inj (hTop.2.1.symm.trans hCurrent)) hNe
    · intro hRest
      rcases hPlace hRest with ⟨f, frames, -, -, hF, hSub⟩
      obtain rfl := some.inj (hCurrent.symm.trans hF)
      exact hSub
    · intro _
      show (l₁.nodes c).next = _
      rw [hChecked.nodes]
    · intro _
      show some when' = some l.lastCheck
      rw [hMoved.lastCheck]
      exact congrArg some hChecked.lastCheck.symm

/- A pass starts in a machine without one. -/
theorem Ticking.start (hFine : Fine s ts ss) (hIdle : s.idle)
    (hStepped : Stepped s ts (.pass when') s' ts') (hSub : expired.Sublist ts)
    (hDue : ∀ n ∈ expired, Due s.loop when' n) : Ticking expired s' ts' expired := by
  have hEmpty : s.frames.isEmpty = true := by
    rw [hIdle.1]
    rfl
  cases hStepped with
  | empty hWalking hNone =>
    subst hNone
    obtain rfl := sublist_nil.mp hSub
    rw [if_pos hEmpty]
    exact ⟨rfl, nofun, nofun, fun hRest => absurd rfl hRest⟩
  | @pass _ l₁ l _ hWalking hChecked hStarted =>
    rw [if_pos hEmpty]
    cases hStarted with
    | next hCurrent hMoved hAdded =>
      exact nomatch (hFine.idle hIdle).symm.trans hCurrent
    | head hNone =>
      refine ⟨rfl, nofun, ?_, fun hRest => ?_⟩
      · intro r hR
        have hMem := hSub.subset hR
        have hD := hDue r hR
        refine ⟨hMem, ?_, ?_, ?_⟩
        · exact (hChecked.justAdded r).trans hD.enabled
        · show (l₁.timer r).atTime ≤ l₁.lastCheck
          rw [hChecked.lastCheck]
          exact hChecked.earlier r hMem hD.expired
        · exact (hChecked.freezeCount r).trans hD.counted
      · have hHead : l₁.timers = ts.head? := hChecked.timers.trans hFine.ordered.lists.timers.head
        cases ts with
        | nil => exact absurd (sublist_nil.mp hSub) hRest
        | cons d ts =>
          exact .walking (congrArg some hChecked.lastCheck.symm) hHead (ahead_head hSub hRest)

/- A step of a pass -/
theorem Ticking.step {i : Input K} (hTicking :
    Ticking expired s ts rest) (hFine : Fine s ts ss) (hBusy : ¬ s.idle)
    (hStepped : Stepped s ts i s' ts') (hKept : Kept s i)
    (hCalm : ∀ op, i = .op op → ∀ r ∈ expired, ¬ op.disturbs r) :
    ∃ rest', Ticking expired s' ts' rest' := by
  have hFrames : s.walking = none → ¬ s.frames.isEmpty = true := by
    intro hWalking hEmpty
    exact hBusy ⟨List.isEmpty_iff.mp hEmpty, hWalking⟩
  cases hStepped with
  | op hWalking hApplied =>
    exact ⟨rest, hTicking.op hFine hWalking hApplied hKept.2 (hCalm _ rfl)⟩
  | enable hWalking hCurrent => exact absurd rfl hKept.1
  | empty hWalking hEmpty =>
    rw [if_neg (hFrames hWalking)]
    exact ⟨rest, hTicking⟩
  | pass hWalking hChecked hStarted =>
    rw [if_neg (hFrames hWalking)]
    exact ⟨rest, hTicking.pass hFine hWalking hChecked hStarted⟩
  | done hWalking hCurrent =>
    have hEmpty : rest = [] := by
      by_contra hRest
      rcases (hTicking.place_walking hWalking hRest).2 with ⟨c, hC, -⟩
      exact nomatch hCurrent.symm.trans hC
    subst hEmpty
    exact ⟨[], hTicking.parts, fun x hTick hMem => Or.inl
      (hTicking.added_of_walking hWalking x hTick hMem), nofun, fun hRest => absurd rfl hRest⟩
  | @late w c hWalking hCurrent hIn hLate =>
    have hEmpty : rest = [] := by
      by_contra hRest
      rcases hTicking.place_walking hWalking hRest with ⟨rfl, d, hD, hAhead⟩
      obtain rfl := some.inj (hCurrent.symm.trans hD)
      exact absurd hLate (not_lt.mpr (hAhead.le hFine.ordered.sorted hRest hTicking.waiting))
    subst hEmpty
    exact ⟨[], hTicking.parts, fun x hTick hMem => Or.inl
      (hTicking.added_of_walking hWalking x hTick hMem), nofun, fun hRest => absurd rfl hRest⟩
  | @added w c hWalking hCurrent hIn hAdded =>
    refine ⟨rest, hTicking.added hFine hWalking hCurrent ?_ hAdded⟩
    intro hR
    exact nomatch hAdded.symm.trans (hTicking.waiting c hR).enabled
  | tick hWalking hCurrent hIn hAdded =>
    exact hTicking.tick hFine hWalking hCurrent hIn hAdded
  | blocked hWalking hCurrent hIn hBlocked hMoved hDone =>
    exact ⟨rest, hTicking.blocked hFine hWalking hCurrent hBlocked hMoved hDone⟩
  | ret hWalking hFramesEq hMoved hDone =>
    exact ⟨rest, hTicking.ret hFine hWalking hFramesEq hMoved hDone⟩

/- At the end of a pass all the expired timers have ticked. -/
theorem Ticking.done
    (hTicking : Ticking expired s ts rest) (hIdle : s.idle) :
    s.ticks.filter (· ∈ expired) = expired := by
  have hEmpty : rest = [] := by
    by_contra hRest
    rcases hTicking.place_ticking hIdle.2 hRest with ⟨f, frames, hFrames, -⟩
    exact nomatch hIdle.1.symm.trans hFrames
  subst hEmpty
  have hParts := hTicking.parts
  rw [List.append_nil] at hParts
  exact hParts

end Efl.Ecore.Timer
