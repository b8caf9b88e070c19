import Efl.Ecore.Timer.Passes

/-
  What a step of the machine can do, and that it keeps the
  lists in order.

  Main declarations:
    * `Possible`, `Fine`
    * `Stepped`
    * `Fine.step`, `fine_new`
-/

---
-- Machines
---

namespace Efl.Ecore.Timer

section

variable {K : Type}

/- What can come next -/
def Possible (s : Machine K) : Input K → Prop
  | .op op => s.walking = none ∧ op.timer.all s.loop.live = true
  | .pass _ => s.walking = none
  | .walk => s.walking.isSome = true
  | .ret => s.walking = none ∧ s.frames ≠ []

/-
  No timer is taken out of the wrong list when its callback
  returns.
-/
def Listed (s : Machine K) : Input K → Prop
  | .ret => ∀ f frames, s.frames = f :: frames →
      ¬ WrongList s.loop f.timer
  | _ => True

/- No pass runs. -/
def Machine.idle (s : Machine K) : Prop :=
  s.frames = [] ∧ s.walking = none

variable [LinearOrder K]

/- A machine whose lists are in order -/
structure Fine (s : Machine K) (ts ss : List Nat) : Prop where
  ordered : Ordered s.loop ts ss
  frames : ∀ f ∈ s.frames, f.timer < s.loop.created
  walking : s.walking ≠ none → CurrentIn s.loop ts
  idle : s.idle → s.loop.timerCurrent = none

variable [AddCommGroup K]

/- What a step does to `loop->timers` and to the machine -/
inductive Stepped (s : Machine K) (ts : List Nat) : Input K → Machine K → List Nat → Prop where
  | op {op : Op K} {n : Nat} {l : Loop K} {ts' : List Nat}
      (hWalking : s.walking = none)
      (hApplied : Applied op n s.loop l ts ts') :
      Stepped s ts (.op op) { s with loop := l } ts'
  | enable {l : Loop K}
      (hWalking : s.walking = none)
      (hCurrent : l.timerCurrent = s.loop.timerCurrent) :
      Stepped s ts (.op .enableNew) { s with loop := l } ts
  | empty {when' : K}
      (hWalking : s.walking = none) (hEmpty : ts = []) :
      Stepped s ts (.pass when')
        { s with
          ticks := if s.frames.isEmpty then [] else s.ticks } ts
  | pass {when' : K} {l₁ l : Loop K} {ts' : List Nat}
      (hWalking : s.walking = none)
      (hChecked : Checked s.loop l₁ when' ts)
      (hStarted : Started s.loop l₁ ts l ts') :
      Stepped s ts (.pass when')
        { s with
          loop := l
          walking := some when'
          ticks := if s.frames.isEmpty then [] else s.ticks }
        ts'
  | done {when' : K}
      (hWalking : s.walking = some when')
      (hCurrent : s.loop.timerCurrent = none) :
      Stepped s ts .walk { s with walking := none } ts
  | late {when' : K} {c : Nat}
      (hWalking : s.walking = some when')
      (hCurrent : s.loop.timerCurrent = some c) (hIn : c ∈ ts)
      (hLate : when' < (s.loop.timer c).atTime) :
      Stepped s ts .walk
        { s with
          loop := { s.loop with timerCurrent := none }
          walking := none } ts
  | added {when' : K} {c : Nat}
      (hWalking : s.walking = some when')
      (hCurrent : s.loop.timerCurrent = some c) (hIn : c ∈ ts)
      (hAdded : (s.loop.timer c).justAdded = true) :
      Stepped s ts .walk { s with loop := moveOn s.loop } ts
  | tick {when' : K} {c : Nat}
      (hWalking : s.walking = some when')
      (hCurrent : s.loop.timerCurrent = some c) (hIn : c ∈ ts)
      (hAdded : (s.loop.timer c).justAdded = false) :
      Stepped s ts .walk
        { s with
          frames := ⟨c, when'⟩ :: s.frames
          walking := none
          ticks := s.ticks ++ [c] } ts
  | blocked {when' : K} {c : Nat} {l : Loop K} {ts' : List Nat}
      (hWalking : s.walking = some when')
      (hCurrent : s.loop.timerCurrent = some c) (hIn : c ∈ ts)
      (hBlocked : (s.loop.timer c).freezeCount ≠ 0)
      (hMoved : Moved c (moveOn s.loop) l ts ts')
      (hDone : c ∈ ts' → (l.timer c).justAdded = true) :
      Stepped s ts .walk { s with loop := l } ts'
  | ret {f : Frame K} {frames : List (Frame K)} {l : Loop K}
      {ts' : List Nat}
      (hWalking : s.walking = none)
      (hFrames : s.frames = f :: frames)
      (hMoved : Moved f.timer (moveOn s.loop) l ts ts')
      (hDone : f.timer ∈ ts' →
        (l.timer f.timer).justAdded = true) :
      Stepped s ts .ret
        { s with
          loop := l
          frames := frames
          walking := some f.when' } ts'

end

---
-- Steps
---

variable {K : Type} [LinearOrder K] [AddCommGroup K]
variable {s : Machine K} {ts ss : List Nat}

omit [AddCommGroup K] in
/- The timers of the callbacks are still there. -/
theorem Fine.frames_le (hFine : Fine s ts ss) {created : Nat}
    (hCreated : s.loop.created ≤ created) : ∀ f ∈ s.frames, f.timer < created :=
  fun f hMem => Nat.lt_of_lt_of_le (hFine.frames f hMem) hCreated

omit [LinearOrder K] [AddCommGroup K] in
/- Without a pass, no timer is the current one. -/
theorem Applied.current_none {op : Op K} {n : Nat} {l l' : Loop K}
    {ts' : List Nat} (hApplied : Applied op n l l' ts ts')
    (hNone : l.timerCurrent = none) : l'.timerCurrent = none := by
  rw [hApplied.moved.current, hNone]
  rw [hNone]
  exact nofun

section

variable (hFine : Fine s ts ss)

include hFine

theorem Fine.op {op : Op K}
    (hPossible : Possible s (.op op)) (hang : K) :
    ∃ s' ts' ss', step hang s (.op op) = some s' ∧
      Fine s' ts' ss' ∧ Stepped s ts (.op op) s' ts' := by
  rcases hPossible with ⟨hWalking, hLive⟩
  have hNot : ¬ s.walking.isSome = true := by
    rw [hWalking]
    exact Bool.false_ne_true
  unfold step
  dsimp only
  rw [if_neg hNot]
  by_cases hOp : op = .enableNew
  · subst hOp
    rcases hFine.ordered.enableNew with ⟨l, hRun, hOrdered, hCreated, hCurrent⟩
    refine ⟨{ s with loop := l }, ts, ss, ?_, ⟨hOrdered, ?_, ?_, ?_⟩, .enable hWalking hCurrent⟩
    · show (Timer.enableNew s.loop).map _ = _
      rw [hRun]
      rfl
    · exact hFine.frames_le (Nat.le_of_eq hCreated.symm)
    · exact fun hNot => absurd hWalking hNot
    · exact fun hIdle => hCurrent.trans (hFine.idle hIdle)
  · rcases hFine.ordered.apply s.held hOp hLive with ⟨l, n, ts', ss', hRun, hOrdered, hApplied⟩
    refine ⟨{ s with loop := l }, ts', ss', ?_, ⟨hOrdered, ?_, ?_, ?_⟩, .op hWalking hApplied⟩
    · show (Timer.apply s.loop s.held op).map _ = _
      rw [hRun]
      rfl
    · exact hFine.frames_le hApplied.moved.created
    · exact fun hNot => absurd hWalking hNot
    · exact fun hIdle =>
        hApplied.current_none (hFine.idle hIdle)

theorem Fine.pass [IsOrderedAddMonoid K]
    {when' : K} (hWalking : s.walking = none) (hang : K) :
    ∃ s' ts' ss', step hang s (.pass when') = some s' ∧
      Fine s' ts' ss' ∧ Stepped s ts (.pass when') s' ts' := by
  unfold step
  rw [hWalking]
  show ∃ s' ts' ss', Timer.pass hang s when' = some s' ∧ _
  unfold Timer.pass
  dsimp only
  by_cases hTimers : s.loop.timers = none
  · rw [if_pos hTimers]
    have hEmpty : ts = [] := by
      have hHead := hFine.ordered.lists.timers.head
      rw [hTimers] at hHead
      exact List.head?_eq_none_iff.mp hHead.symm
    exact ⟨_, ts, ss, rfl, ⟨hFine.ordered, hFine.frames,
      hFine.walking, hFine.idle⟩, .empty hWalking hEmpty⟩
  · rw [if_neg hTimers]
    rcases hFine.ordered.passStart hang when' with ⟨l₁, l, ts', ss',
      hRun, hOrdered₁, hOrdered, hChecked, hStarted, hIn⟩
    rw [hRun]
    refine ⟨_, ts', ss', rfl, ⟨hOrdered, ?_, fun _ => hIn, fun hIdle =>
      nomatch hIdle.2⟩, .pass hWalking hChecked hStarted⟩
    refine hFine.frames_le ?_
    rw [← hChecked.created]
    cases hStarted with
    | head hNone => exact Nat.le_refl _
    | next hCurrent hMoved hAdded => exact hMoved.created

/- The walk of a pass, when the loop of the machine changes -/
theorem Fine.walk
    (hWalking : s.walking.isSome = true) (hang : K) :
    ∃ s' ts' ss', step hang s .walk = some s' ∧ Fine s' ts' ss' ∧ Stepped s ts .walk s' ts' := by
  rcases Option.isSome_iff_exists.mp hWalking with ⟨w, hW⟩
  unfold step
  rw [hW]
  show ∃ s' ts' ss', Timer.walk hang s w = some s' ∧ _
  have hIn := hFine.walking (by rw [hW]; exact nofun)
  have hOrdered := hFine.ordered
  unfold Timer.walk
  cases hCurrent : s.loop.timerCurrent with
  | none =>
    exact ⟨_, ts, ss, rfl, ⟨hOrdered, hFine.frames, fun hNot =>
      absurd rfl hNot, fun _ => hCurrent⟩, .done hW hCurrent⟩
  | some c =>
    have hMem := hIn c hCurrent
    dsimp only
    by_cases hLate : w < (s.loop.timer c).atTime
    · rw [if_pos hLate]
      refine ⟨_, ts, ss, rfl, ⟨?_, hFine.frames, fun hNot =>
        absurd rfl hNot, fun _ => rfl⟩, .late hW hCurrent hMem hLate⟩
      exact ⟨hOrdered.lists.of_links rfl rfl rfl (Nat.le_refl _),
        hOrdered.sorted, hOrdered.ticking, hOrdered.live,
        hOrdered.initialized, nofun, hOrdered.resting⟩
    · rw [if_neg hLate]
      cases hAdded : (s.loop.timer c).justAdded with
      | true =>
        rw [if_pos rfl]
        refine ⟨_, ts, ss, rfl, ⟨hOrdered.moveOn.1, ?_, fun _ =>
          hOrdered.moveOn.2, ?_⟩, .added hW hCurrent hMem hAdded⟩
        · refine hFine.frames_le ?_
          rw [(moveOn_same s.loop).2.2.2.2.1]
        · exact fun hIdle => nomatch hW.symm.trans hIdle.2
      | false =>
        rw [if_neg Bool.false_ne_true]
        have hListening := (hOrdered.ticking c hMem).1
        by_cases hZero : (s.loop.timer c).freezeCount = 0
        · rw [if_pos ⟨hZero, hListening⟩]
          refine ⟨_, ts, ss, rfl, ⟨hOrdered, ?_, fun hNot =>
            absurd rfl hNot, ?_⟩, .tick hW hCurrent hMem hAdded⟩
          · intro f hF
            cases hF with
            | head => exact (hOrdered.current c hCurrent).1
            | tail _ hF => exact hFine.frames f hF
          · exact fun hIdle => nomatch hIdle.1
        · rw [if_neg fun hBoth => hZero hBoth.1]
          have hWrong : ¬ WrongList s.loop c := by
            intro hWrong
            exact (hOrdered.current c hCurrent).2 (List.mem_of_head?
              (hOrdered.lists.suspended.head.symm.trans hWrong.2.2.1))
          rcases hOrdered.tickEnd hang w (s.held.contains c)
            (hOrdered.current c hCurrent).1 hWrong with
            ⟨l, ts', ss', hRun, hOrdered', hMoved, hDone, hIn'⟩
          rw [hRun]
          refine ⟨_, ts', ss', rfl, ⟨hOrdered', ?_, fun _ => hIn', ?_⟩,
            .blocked hW hCurrent hMem hZero hMoved hDone⟩
          · refine hFine.frames_le ?_
            rw [← (moveOn_same s.loop).2.2.2.2.1]
            exact hMoved.created
          · exact fun hIdle => nomatch hW.symm.trans hIdle.2

theorem Fine.tickReturn
    (hPossible : Possible s .ret) (hListed : Listed s .ret) (hang : K) :
    ∃ s' ts' ss', step hang s .ret = some s' ∧ Fine s' ts' ss' ∧ Stepped s ts .ret s' ts' := by
  unfold step
  rw [hPossible.1]
  show ∃ s' ts' ss', Timer.tickReturn hang s = some s' ∧ _
  unfold Timer.tickReturn
  cases hFrames : s.frames with
  | nil => exact absurd hFrames hPossible.2
  | cons f frames =>
    have hLess := hFine.frames f (by rw [hFrames]; simp)
    rcases hFine.ordered.tickEnd hang f.when' ((frames.map Frame.timer).contains f.timer) hLess
      (hListed f frames hFrames) with ⟨l, ts', ss', hRun, hOrdered, hMoved, hDone, hIn⟩
    dsimp only
    rw [hRun]
    refine ⟨_, ts', ss', rfl, ⟨hOrdered, ?_, fun _ => hIn, fun hIdle =>
      nomatch hIdle.2⟩, .ret hPossible.1 hFrames hMoved hDone⟩
    intro g hG
    refine hFine.frames_le ?_ g (hFrames ▸ List.mem_cons_of_mem _ hG)
    rw [← (moveOn_same s.loop).2.2.2.2.1]
    exact hMoved.created

end

variable [IsOrderedAddMonoid K]

/- Every step that can come next goes through. -/
theorem Fine.step (hFine : Fine s ts ss) {i : Input K} (hang : K)
    (hPossible : Possible s i) (hListed : Listed s i) :
    ∃ s' ts' ss', Timer.step hang s i = some s' ∧ Fine s' ts' ss' ∧ Stepped s ts i s' ts' := by
  cases i with
  | op op => exact hFine.op hPossible hang
  | pass when' => exact hFine.pass hPossible hang
  | walk => exact hFine.walk hPossible hang
  | ret => exact hFine.tickReturn hPossible hListed hang

omit [IsOrderedAddMonoid K] in
theorem fine_new (time loopTime : K) : Fine (Machine.new time loopTime) [] [] := by
  refine ⟨⟨⟨?_, ?_, nofun, fun _ _ _ => ⟨rfl, rfl⟩, ?_⟩,
    List.Pairwise.nil, nofun, ?_, nofun, nofun, nofun⟩, nofun,
    fun hNot => absurd rfl hNot, fun _ => rfl⟩
  · exact ⟨DList.linked_nil, rfl, nofun⟩
  · exact ⟨DList.linked_nil, rfl⟩
  · exact fun n hMem => (nomatch hMem)
  · intro n
    refine iff_of_false ?_ (fun hMem => nomatch hMem)
    rw [live_iff]
    exact fun hLive => Nat.not_lt_zero _ hLive.1

end Efl.Ecore.Timer
