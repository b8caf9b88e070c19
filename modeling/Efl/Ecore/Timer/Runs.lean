import Efl.Ecore.Timer.Ticks

/-
  The timers of a loop in every run.

  Main declarations:
    * `InOrder`, `TopPass`, `Ticked`
    * `timers_correct`
-/

---
-- Runs
---

namespace Efl.Ecore.Timer

open Eina List Option

variable {K : Type} [LinearOrder K]

/-
  The timers are sorted, and every timer that is not deleted is
  in just one of the lists.
-/
def InOrder (l : Loop K) : Prop :=
  ∃ ts ss, Inlist.Strung l.nodes l.timers ts ∧
    Inlist.Strung l.nodes l.suspended ss ∧ Sorted l ts ∧
    ∀ n, l.live n = true →
      n ∈ ts ∧ n ∉ ss ∨ n ∉ ts ∧ n ∈ ss

theorem Ordered.inOrder {l : Loop K} {ts ss : List Nat}
    (hOrdered : Ordered l ts ss) : InOrder l := by
  refine ⟨ts, ss, hOrdered.lists.timers.strung,
    hOrdered.lists.suspended, hOrdered.sorted, fun n hLive => ?_⟩
  cases (hOrdered.live n).mp hLive with
  | inl hTs => exact Or.inl ⟨hTs, hOrdered.lists.apart n hTs⟩
  | inr hSs =>
    exact Or.inr ⟨fun hTs => hOrdered.lists.apart n hTs hSs, hSs⟩

/- No callback delays, freezes or deletes the timer. -/
def Untouched (body : List (Input K)) (n : Nat) : Prop :=
  ∀ op, Input.op op ∈ body → ¬ op.disturbs n

/-
  Every expired timer that is left alone ticked once, and after
  those that expired before it.
-/
def Ticked (s s' : Machine K) (when' : K) (body : List (Input K)) : Prop :=
  ∀ n, Due s.loop when' n → Untouched body n →
    s'.ticks.count n = 1 ∧
    ∀ m, Due s.loop when' m → Untouched body m →
      (s.loop.timer m).atTime < (s.loop.timer n).atTime →
      [m, n].Sublist s'.ticks

variable [AddCommGroup K]

/-
  A pass that runs from a machine without one until the machine
  is without one again
-/
structure TopPass (hang : K) (s : Machine K) (when' : K)
    (body : List (Input K)) (s' : Machine K) : Prop where
  idle : s.idle
  run : Runs.run (step hang) s (.pass when' :: body) = some s'
  busy : ∀ s₁, step hang s (.pass when') = some s₁ →
    Runs.Guarded (step hang) (fun s _ => ¬ s.idle) s₁ body
  returned : s'.idle

variable [IsOrderedAddMonoid K]

theorem TopPass.ticked {hang when' : K} {s s' : Machine K}
    {ts ss : List Nat} {body : List (Input K)} (hFine : Fine s ts ss)
    (hPass : TopPass hang s when' body s')
    (hGuarded : Runs.Guarded (step hang) (fun s i =>
    (Possible s i ∧ Listed s i) ∧ Kept s i) s (.pass when' :: body)) :
    Ticked s s' when' body := by
  classical
  have hOrdered := hFine.ordered
  let expired := ts.filter fun n =>
    Due s.loop when' n ∧ Untouched body n
  have hSub : expired.Sublist ts := filter_sublist
  have hIff : ∀ n, n ∈ expired ↔ Due s.loop when' n ∧ Untouched body n := by
    intro n
    rw [mem_filter, decide_eq_true_eq]
    exact and_iff_right_of_imp fun hBoth =>
      hOrdered.mem_of_due hBoth.1
  have hNodup : expired.Nodup := hOrdered.lists.timers.linked.nodup.sublist hSub
  -- the pass starts
  rcases hFine.step hang hGuarded.1.1.1 hGuarded.1.1.2 with ⟨s₁, ts₁, ss₁, hStart, hFine₁, hStepped⟩
  have hTicking := Ticking.start hFine hPass.idle hStepped hSub fun n hMem => ((hIff n).mp hMem).1
  have hRun := hPass.run
  rw [Runs.run_cons, hStart, bind_some] at hRun
  -- and goes on
  have hCalm : ∀ i ∈ body, ∀ op, i = .op op → ∀ r ∈ expired,
      ¬ op.disturbs r := fun i hMem op hEq r hR =>
    ((hIff r).mp hR).2 op (hEq ▸ hMem)
  have hOk := ((hGuarded.2 s₁ hStart).and (hPass.busy s₁ hStart)).and_forall hCalm
  have hDone := Runs.inv_of_run (fun s => ∃ ts ss rest, Fine s ts ss ∧
    Ticking expired s ts rest) (by
      rintro s i s' ⟨ts, ss, rest, hFine, hTicking⟩
        ⟨⟨⟨⟨hPossible, hListed⟩, hKept⟩, hBusy⟩, hCalm⟩ hNext
      rcases hFine.step hang hPossible hListed with ⟨s₂, ts', ss', hStep, hFine', hStepped⟩
      obtain rfl := some.inj (hStep.symm.trans hNext)
      rcases hTicking.step hFine hBusy hStepped hKept hCalm with ⟨rest', hTicking'⟩
      exact ⟨ts', ss', rest', hFine', hTicking'⟩) ⟨ts₁, ss₁, expired, hFine₁, hTicking⟩ hOk hRun
  rcases hDone with ⟨ts', ss', rest, -, hTicking'⟩
  have hTicks := hTicking'.done hPass.returned
  intro n hDue hCalm
  have hMem := (hIff n).mpr ⟨hDue, hCalm⟩
  constructor
  · rw [← count_filter (p := (decide <| · ∈ expired))
      (by simpa using hMem), hTicks, count_eq_one_of_mem hNodup hMem]
  · intro m hDueM hCalmM hLess
    have hMemM := (hIff m).mpr ⟨hDueM, hCalmM⟩
    refine List.Sublist.trans ?_ (hTicks ▸ filter_sublist)
    rcases append_of_mem hMem with ⟨as, bs, hParts⟩
    have hSorted : Sorted s.loop expired := hOrdered.sorted.sublist hSub
    rw [hParts] at hMemM hSorted ⊢
    have hBefore : m ∈ as := by
      rw [mem_append, mem_cons] at hMemM
      rcases hMemM with hAs | rfl | hBs
      · exact hAs
      · exact absurd hLess (lt_irrefl _)
      · have hLe := (pairwise_cons.mp (pairwise_append.mp hSorted).2.1).1 m hBs
        exact absurd hLess (not_lt.mpr hLe)
    exact (singleton_sublist.mpr hBefore).append (cons_sublist_cons.mpr (nil_sublist bs))

/-
  In a run in which no timer is taken out of the wrong list,
  the lists are in order, and in each pass whose callbacks
  keep the expired timers behind the current one in reach,
  these tick once and in their order.
-/
theorem timers_correct (hang time loopTime : K) {inputs :
    List (Input K)} (hGuarded : Runs.Guarded (step hang) (fun s i =>
    Possible s i ∧ Listed s i) (Machine.new time loopTime) inputs) :
    ∃ s, Runs.run (step hang) (Machine.new time loopTime)
        inputs = some s ∧
      InOrder s.loop ∧
      ∀ when' body s', TopPass hang s when' body s' →
        Runs.Guarded (step hang)
          (fun s i => (Possible s i ∧ Listed s i) ∧ Kept s i) s
          (.pass when' :: body) →
        Ticked s s' when' body := by
  rcases Runs.run_of_guarded (fun s => ∃ ts ss, Fine s ts ss)
      (fun s i hFine hOk => by
        rcases hFine with ⟨ts, ss, hFine⟩
        rcases hFine.step hang hOk.1 hOk.2 with
          ⟨s', ts', ss', hStep, hFine', -⟩
        exact ⟨s', hStep, ts', ss', hFine'⟩)
      ⟨[], [], fine_new time loopTime⟩ hGuarded with
    ⟨s, hRun, ts, ss, hFine⟩
  exact ⟨s, hRun, hFine.ordered.inOrder,
    fun _ _ _ hPass hOk => hPass.ticked hFine hOk⟩

/- The conditions of a step that can be checked -/
def allowed (s : Machine Int) : Input Int → Bool
  | .op op => s.walking.isNone && op.timer.all s.loop.live
  | .pass _ => s.walking.isNone
  | .walk => s.walking.isSome
  | .ret => s.walking.isNone && !s.frames.isEmpty

theorem possible_of_allowed {s : Machine Int} {i : Input Int}
    (hAllowed : allowed s i = true) : Possible s i := by
  cases i with
  | op op =>
    rw [allowed, Bool.and_eq_true, isNone_iff_eq_none] at hAllowed
    exact hAllowed
  | pass when' => exact isNone_iff_eq_none.mp hAllowed
  | walk => exact hAllowed
  | ret =>
    rw [allowed, Bool.and_eq_true, isNone_iff_eq_none] at hAllowed
    refine ⟨hAllowed.1, fun hNil => ?_⟩
    rw [hNil] at hAllowed
    exact nomatch hAllowed.2

/- No timer is suspended. -/
def unsuspended (s : Machine Int) (i : Input Int) : Bool :=
  allowed s i && s.loop.suspended.isNone

theorem listed_of_unsuspended {s : Machine Int} {i : Input Int}
    (hCheck : unsuspended s i = true) : Possible s i ∧ Listed s i := by
  rw [unsuspended, Bool.and_eq_true, isNone_iff_eq_none] at hCheck
  refine ⟨possible_of_allowed hCheck.1, ?_⟩
  cases i with
  | ret =>
    rintro f frames - ⟨-, -, hSuspended, -⟩
    exact nomatch hCheck.2.symm.trans hSuspended
  | op op => trivial
  | pass when' => trivial
  | walk => trivial

/- Two timers that expire at 2 and at 3, and are enabled -/
def twoTimers : List (Input Int) :=
  [.op (.add 1 1), .op (.add 1 2), .op .enableNew]

/- A pass runs, or a callback. -/
def busy (s : Machine Int) (_ : Input Int) : Bool :=
  !(s.frames.isEmpty && s.walking.isNone)

theorem idle_of_not_busy {s : Machine Int}
    (hRest : (s.frames.isEmpty && s.walking.isNone) = true) : s.idle := by
  rw [Bool.and_eq_true, List.isEmpty_iff, isNone_iff_eq_none] at hRest
  exact hRest

/- What can be checked of a pass on two timers -/
theorem twoTimers_pass (body : List (Input Int)) (ticks : List Nat) {s : Machine Int}
    (hRun : Runs.run (step 15) (Machine.new 1 1) twoTimers = some s)
    (hBusy : (Runs.run (step 15) (Machine.new (1 : Int) 1) (twoTimers ++ [.pass 10])).all
      (fun s => Runs.guard (step 15) busy s body) = true)
    (hDone : (Runs.run (step 15) (Machine.new (1 : Int) 1)
      (twoTimers ++ .pass 10 :: body)).any (fun s =>
        s.frames.isEmpty && s.walking.isNone &&
          s.ticks = ticks) = true) : ∃ s', TopPass 15 s 10 body s' ∧ s'.ticks = ticks := by
  rw [Runs.run_append, hRun, bind_some] at hBusy hDone
  rcases (Option.any_eq_true _ _).mp hDone with ⟨s', hBody, hCheck⟩
  rw [Bool.and_eq_true, decide_eq_true_eq] at hCheck
  have hIdle : (Runs.run (step 15) (Machine.new (1 : Int) 1)
      twoTimers).all (fun s =>
        s.frames.isEmpty && s.walking.isNone) = true := by
    decide
  rw [hRun] at hIdle
  refine ⟨s', ⟨idle_of_not_busy hIdle, hBody, ?_, idle_of_not_busy hCheck.1⟩, hCheck.2⟩
  intro s₁ hStep
  rw [Runs.run_cons, hStep] at hBusy
  refine (Runs.guarded_of_guard hBusy).mono fun s _ hOk => ?_
  rintro ⟨hFrames, hWalking⟩
  rw [busy, hFrames, hWalking] at hOk
  exact nomatch hOk

/- The first one changes its interval, both return. -/
def quietBody : List (Input Int) :=
  [.walk, .op (.intervalSet 0 3), .ret, .walk, .ret, .walk,
    .walk]

theorem timers_correct_sample :
    ∃ s s', Runs.run (step 15) (Machine.new (1 : Int) 1)
        twoTimers = some s ∧
      InOrder s.loop ∧ TopPass 15 s 10 quietBody s' ∧
      Ticked s s' 10 quietBody ∧ s'.ticks = [0, 1] := by
  have hSetup := Runs.guarded_of_guard (show Runs.guard (step 15)
    unsuspended (Machine.new (1 : Int) 1) twoTimers = true by decide)
  rcases timers_correct 15 1 1
      (hSetup.mono fun s i => listed_of_unsuspended) with
    ⟨s, hRun, hOrder, hPasses⟩
  rcases twoTimers_pass quietBody [0, 1] hRun (by decide)
    (by decide) with ⟨s', hPass, hTicks⟩
  refine ⟨s, s', hRun, hOrder, hPass,
    hPasses 10 quietBody s' hPass ?_, hTicks⟩
  have hBody : (Runs.run (step 15) (Machine.new (1 : Int) 1)
      twoTimers).all (fun s => Runs.guard (step 15) unsuspended s
        (.pass 10 :: quietBody)) = true := by
    decide
  rw [hRun] at hBody
  have hListed := (Runs.guarded_of_guard hBody).mono
    fun s i => listed_of_unsuspended
  have hKept : ∀ i ∈ .pass 10 :: quietBody,
      ∀ s : Machine Int, Kept s i := by
    intro i hMem s
    simp only [quietBody, mem_cons, not_mem_nil, or_false] at hMem
    rcases hMem with rfl | rfl | rfl | rfl | rfl | rfl | rfl | rfl
    · trivial
    · trivial
    · constructor
      · intro hEq
        cases hEq
      · rintro ⟨_, _, _, _, hRelinks, _⟩
        exact hRelinks
    · trivial
    · trivial
    · trivial
    · trivial
    · trivial
  exact (hListed.and_forall hKept).mono fun s i hOk => ⟨hOk.1, hOk.2 s⟩

/- The first timer is deleted when it ticks. -/
def deletingBody : List (Input Int) :=
  [.walk, .op (.del 0), .ret, .walk]

/-
  A third timer is frozen, and the first one is delayed to
  before the epoch when it ticks.
-/
def delayingRun : List (Input Int) :=
  [.op (.add 1 1), .op (.add 1 2), .op (.add 1 5),
    .op (.freeze 2), .op .enableNew, .pass 10, .walk,
    .op (.delay 0 (-100)), .ret]

/-
  A timer that is taken out of the wrong list loses others,
  and a timer that is deleted in its tick costs the next one
  its own.
-/
theorem timers_are_lost :
    (¬ ∀ inputs s, Runs.Guarded (step 15) Possible
        (Machine.new (1 : Int) 1) inputs →
      Runs.run (step 15) (Machine.new (1 : Int) 1) inputs =
        some s →
      InOrder s.loop) ∧
    ¬ ∀ inputs s, Runs.Guarded (step 15) Possible
        (Machine.new (1 : Int) 1) inputs →
      Runs.run (step 15) (Machine.new (1 : Int) 1) inputs =
        some s →
      ∀ when' body s', TopPass 15 s when' body s' →
        Runs.Guarded (step 15) (fun s i => Possible s i ∧
          i ≠ .op .enableNew) s (.pass when' :: body) →
        Ticked s s' when' body := by
  constructor
  · intro hClaim
    have hGuard := Runs.guarded_of_guard (show Runs.guard (step 15)
      allowed (Machine.new (1 : Int) 1) delayingRun = true by decide)
    have hLost :
        (Runs.run (step 15) (Machine.new (1 : Int) 1) delayingRun).any
        (fun s => s.loop.live 1 && (s.loop.nodes 1).prev.isNone &&
        s.loop.timers = some 2 && s.loop.suspended = none) = true := by
      decide
    rcases (Option.any_eq_true _ _).mp hLost with ⟨s, hRun, hCheck⟩
    simp only [Bool.and_eq_true, decide_eq_true_eq,
      isNone_iff_eq_none] at hCheck
    rcases hCheck with ⟨⟨⟨hLive, hPrev⟩, hTimers⟩, hSuspended⟩
    rcases hClaim delayingRun s
        (hGuard.mono fun s i => possible_of_allowed) hRun with
      ⟨ts, ss, hTs, hSs, -, hOne⟩
    rcases hOne 1 hLive with hIn | hIn
    · cases hTimers.symm.trans (hTs.eq_of_prev hIn.1 hPrev)
    · cases hSuspended.symm.trans (hSs.eq_of_prev hIn.2 hPrev)
  · intro hClaim
    have hGuard := Runs.guarded_of_guard (show Runs.guard (step 15)
      allowed (Machine.new (1 : Int) 1) twoTimers = true by decide)
    have hDue :
        (Runs.run (step 15) (Machine.new (1 : Int) 1) twoTimers).any
        (fun s => s.loop.live 1 && (s.loop.timer 1).justAdded = false &&
        (s.loop.timer 1).atTime ≤ 10 && (s.loop.timer 1).frozen =
        false && (s.loop.timer 1).freezeCount = 0 && Runs.guard
        (step 15) allowed s (.pass 10 :: deletingBody)) = true := by
      decide
    rcases (Option.any_eq_true _ _).mp hDue with ⟨s, hRun, hCheck⟩
    simp only [Bool.and_eq_true, decide_eq_true_eq] at hCheck
    rcases hCheck
      with ⟨⟨⟨⟨⟨hLive, hEnabled⟩, hExpired⟩, hThawed⟩, hCounted⟩, hBody⟩
    rcases twoTimers_pass deletingBody [0] hRun (by decide)
      (by decide) with ⟨s', hPass, hTicks⟩
    have hNew : ∀ i ∈ .pass 10 :: deletingBody,
        i ≠ .op .enableNew := by
      intro i hMem
      simp only [deletingBody, mem_cons, not_mem_nil, or_false] at hMem
      rcases hMem with rfl | rfl | rfl | rfl | rfl
      all_goals
        intro hEq
        cases hEq
    have hTicked := hClaim twoTimers s (hGuard.mono fun s i =>
      possible_of_allowed) hRun 10 deletingBody s' hPass
      (((Runs.guarded_of_guard hBody).mono fun s i =>
      possible_of_allowed).and_forall hNew)
    have hOnce := (hTicked 1
      ⟨hLive, hEnabled, hExpired, hThawed, hCounted⟩ (by
        intro op hMem
        simp only [deletingBody, mem_cons, not_mem_nil, reduceCtorEq,
          Input.op.injEq, false_or, or_false] at hMem
        subst hMem
        intro hEq
        cases hEq)).1
    rw [hTicks] at hOnce
    cases hOnce

end Efl.Ecore.Timer
