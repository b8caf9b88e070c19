import Efl.Ecore.Timer.Calls

/-
  The steps of a pass keep the lists of a loop in order, when
  no timer is taken out of the wrong list.

  Main declarations:
    * `WrongList`
    * `Ordered.reschedule`
    * `Ordered.tickEnd`, `Ordered.passStart`
-/

---
-- The Wrong List
---

namespace Efl.Ecore.Timer

open Eina List

section

variable {K : Type}

/-
  A timer that is rescheduled is taken out of `loop->timers`
  while it is the head of `loop->suspended`.
-/
def WrongList (l : Loop K) (n : Nat) : Prop :=
  (l.timer n).frozen = false ∧
    (l.timer n).invalidated = false ∧
    l.suspended = some n ∧ (l.nodes n).next ≠ none ∧
    l.timers ≠ none

/-
  Behind the head of `loop->suspended`, the wrong list does no
  harm.
-/
theorem Lists.removeForeign {l : Loop K} {ts as bs : List Nat}
    {n t : Nat} (hLists : Lists l ts (as ++ n :: bs)) (hAs : as ≠ [])
    (hTimers : l.timers = some t) : Lists (Timer.removeTimer l n) ts (as ++ bs) := by
  have hIn : n ∈ as ++ n :: bs := by simp
  have hNotTs : n ∉ ts := fun hMem => hLists.apart n hMem hIn
  have hPrev : (l.nodes n).prev = as.getLast? := hLists.suspended.linked.prev_eq
  have hPrevSome : (l.nodes n).prev ≠ none := by
    rw [hPrev]
    exact fun hNone =>
      hAs (getLast?_eq_none_iff.mp hNone)
  rcases Option.ne_none_iff_exists'.mp hPrevSome with ⟨p, hP⟩
  have hSelf := hLists.suspended.self_ne hIn
  have hFrame : ∀ m, m ∉ as ++ n :: bs → (Inlist.remove l.nodes l.timers n).1 m = l.nodes m := by
    intro m hMem
    have hNe := hLists.suspended.next_ne hIn hMem
    refine Inlist.remove_apart ?_ hNe.2 hNe.1 hSelf ?_
    · rintro rfl
      exact hMem hIn
    · intro hList
      refine ⟨?_, hPrevSome⟩
      have hHolds := hLists.timers
      rw [hList] at hHolds
      rw [hHolds.last_eq]
      exact fun hLast => hNotTs (mem_of_getLast? hLast)
  have hKept : (Inlist.remove l.nodes l.timers n).2 = l.timers := by
    rw [hTimers]
    exact (Inlist.remove_inner t hP hSelf).1
  have hSub : ∀ m, m ∈ as ++ bs → m ∈ as ++ n :: bs := by
    intro m hMem
    rw [mem_append] at hMem
    rw [mem_append, mem_cons]
    tauto
  refine ⟨?_, ⟨?_, ?_⟩, ?_, ?_, ?_⟩
  · show Inlist.Holds (Inlist.remove l.nodes l.timers n).1 (Inlist.remove l.nodes l.timers n).2 ts
    rw [hKept]
    exact hLists.timers.congr fun m hMem =>
      hFrame m (hLists.apart m hMem)
  · have hLinked := hLists.suspended.linked_remove (l := t) fun hNone => hPrevSome hNone.2.1
    rw [← hTimers] at hLinked
    exact hLinked
  · show l.suspended = _
    rw [hLists.suspended.head]
    cases as with
    | nil => exact absurd rfl hAs
    | cons a as => rfl
  · exact fun m hMem hNot => hLists.apart m hMem (hSub m hNot)
  · intro m hNot hNotSs
    by_cases hEq : m = n
    · subst hEq
      have hCleared := Inlist.remove_cleared l.nodes t m
      rw [← hTimers] at hCleared
      exact hCleared
    · have hNotIn : m ∉ as ++ n :: bs := by
        rw [mem_append] at hNotSs
        rw [mem_append, mem_cons]
        tauto
      have hSame := hLists.out m hNot hNotIn
      rw [← hFrame m hNotIn] at hSame
      exact hSame
  · exact fun m hMem => hLists.bound m (hMem.imp_right (hSub m))

/- A timer is taken out of `loop->timers`, if it is there. -/
theorem Ordered.removeTimer [LinearOrder K] {l : Loop K}
    {ts ss : List Nat} {n : Nat} (hOrdered : Ordered l ts ss)
    (hLive : l.live n = true) (hFrozen : (l.timer n).frozen = false)
    (hWrong : ¬ WrongList l n) (hNeighbour : (l.nodes n).next ≠ none ∨
    (l.nodes n).prev ≠ none) (hTimers : l.timers ≠ none) :
    ∃ ts' ss', Nearly n (Timer.removeTimer l n) ts' ss' ∧
      ts'.filter (· ≠ n) = ts.filter (· ≠ n) := by
  have hLists := hOrdered.lists
  have hNearly := hOrdered.nearly n
  cases (hOrdered.live n).mp hLive with
  | inl hTs =>
    rcases append_of_mem hTs with ⟨as, bs, rfl⟩
    have hOthers := filter_ne_middle as bs n
    exact ⟨as ++ bs, ss, hNearly.of_lists hLists.removeTimer
      rfl rfl hOthers rfl hNearly.current, hOthers⟩
  | inr hSs =>
    rcases Option.ne_none_iff_exists'.mp hTimers with ⟨t, hT⟩
    rcases append_of_mem hSs with ⟨as, bs, rfl⟩
    have hAs : as ≠ [] := by
      rintro rfl
      have hLinked : DList.Linked (fun n => (l.nodes n).next)
          (fun n => (l.nodes n).prev) ([] ++ n :: bs) := hLists.suspended.linked
      have hPrev : (l.nodes n).prev = none := hLinked.prev_eq
      refine hWrong ⟨hFrozen, ((live_iff l n).mp hLive).2, hLists.suspended.head, ?_, hTimers⟩
      cases hNeighbour with
      | inl hNext => exact hNext
      | inr hNot => exact absurd hPrev hNot
    refine ⟨ts, as ++ bs, hNearly.of_lists (hLists.removeForeign hAs hT)
      rfl rfl rfl (filter_ne_middle as bs n) ?_, rfl⟩
    intro c hCurrent
    have hC := hNearly.current c hCurrent
    refine ⟨hC.1, fun hMem => hC.2 ?_⟩
    rw [mem_append] at hMem
    rw [mem_append, mem_cons]
    tauto

end

---
-- Rescheduling
---

section

variable {K : Type}

/- The current timer is in `loop->timers`. -/
def CurrentIn (l : Loop K) (ts : List Nat) : Prop :=
  ∀ c, l.timerCurrent = some c → c ∈ ts

theorem Moved.currentIn {n : Nat} {l l' : Loop K} {ts ts' : List Nat}
    (hMoved : Moved n l l' ts ts') (hIn : CurrentIn l ts)
    (hNot : l'.timerCurrent ≠ some n) : CurrentIn l' ts' := by
  intro c hCurrent
  have hNe : c ≠ n := by
    rintro rfl
    exact hNot hCurrent
  by_cases hIs : l.timerCurrent = some n
  · cases hMoved.following c hIs hCurrent with
    | inl hMem => exact hMem
    | inr hEq => exact absurd hEq hNe
  · rw [hMoved.current hIs] at hCurrent
    exact (hMoved.mem_iff hNe).mpr (hIn c hCurrent)

end

variable {K : Type} [LinearOrder K] [AddCommGroup K]

variable {l : Loop K} {ts ss : List Nat}

/- A timer that was called comes back as a new one. -/
theorem Ordered.reschedule {n : Nat} (hang when' : K)
    (hOrdered : Ordered l ts ss) (hLess : n < l.created)
    (hWrong : ¬ WrongList l n) :
    ∃ l' ts' ss', Timer.reschedule hang l n when' = some l' ∧
      Ordered l' ts' ss' ∧ Moved n l l' ts ts' ∧
      (n ∈ ts' → (l'.timer n).justAdded = true) ∧ (CurrentIn l ts → CurrentIn l' ts') := by
  unfold Timer.reschedule
  dsimp only
  by_cases hOut : (l.timer n).frozen = true ∨ (l.timer n).invalidated = true
  · rw [if_pos hOut]
    refine ⟨l, ts, ss, rfl, hOrdered, Moved.refl n l ts, ?_, fun hIn => hIn⟩
    intro hMem
    cases hOut with
    | inl hFrozen =>
      exact nomatch hFrozen.symm.trans (hOrdered.ticking n hMem).2
    | inr hGone =>
      have hLive := (hOrdered.live n).mpr (Or.inl hMem)
      exact nomatch hGone.symm.trans ((live_iff l n).mp hLive).2
  · rw [if_neg hOut]
    rw [not_or, Bool.not_eq_true, Bool.not_eq_true] at hOut
    have hLive := (live_iff l n).mpr ⟨hLess, hOut.2⟩
    -- out of the list, or where it was
    obtain ⟨l₁, ts₁, ss₁, hEq, hNearly, hSame, hOthers⟩ :
        ∃ l₁ ts₁ ss₁, (if ((l.nodes n).next ≠ none ∨
          (l.nodes n).prev ≠ none) ∧ l.timers ≠ none then
            Timer.removeTimer l n else l) = l₁ ∧
          Nearly n l₁ ts₁ ss₁ ∧ Relinked l l₁ ∧ ts₁.filter (· ≠ n) = ts.filter (· ≠ n) := by
      split
      · next hIf =>
          rcases hOrdered.removeTimer hLive hOut.1 hWrong hIf.1
            hIf.2 with ⟨ts₁, ss₁, hNearly, hOthers⟩
          exact ⟨_, ts₁, ss₁, rfl, hNearly, removeTimer_relinked l n, hOthers⟩
      · exact ⟨l, ts, ss, rfl, hOrdered.nearly n, ⟨rfl, rfl, rfl, rfl⟩, rfl⟩
    rw [hEq]
    have hLive₁ := (hSame.live n).trans hLive
    have hDone : ∀ at' in' : K, ∃ l' ts' ss',
        Timer.timerSet l₁ n at' in' = some l' ∧
          Ordered l' ts' ss' ∧ Moved n l l' ts ts' ∧
          (n ∈ ts' → (l'.timer n).justAdded = true) ∧ (CurrentIn l ts → CurrentIn l' ts') := by
      intro at' in'
      rcases hNearly.timerSet hLive₁ at' in' with
        ⟨l', ts', ss', hRun, hOrdered', hMoved, hTimer, hNot⟩
      have hMoved' := (hSame.moved hOthers).trans hMoved
      refine ⟨l', ts', ss', hRun, hOrdered', hMoved',
        fun _ => ?_, fun hIn => hMoved'.currentIn hIn hNot⟩
      rw [hTimer]
      exact Data.justAdded_set _ _ _
    split
    · exact hDone _ _
    · exact hDone _ _

omit [AddCommGroup K] in
/- The current timer moves on. -/
theorem Ordered.next (hOrdered : Ordered l ts ss) {c : Nat}
    (hCurrent : l.timerCurrent = some c) :
    Ordered { l with timerCurrent := (l.nodes c).next } ts ss ∧
      CurrentIn { l with timerCurrent := (l.nodes c).next }
        ts := by
  have hNotSs := (hOrdered.current c hCurrent).2
  have hIn : CurrentIn { l with timerCurrent := (l.nodes c).next } ts :=
    fun d hNext => hOrdered.lists.next_mem hNotSs hNext
  refine ⟨⟨hOrdered.lists.of_links rfl rfl rfl (Nat.le_refl _),
    hOrdered.sorted, hOrdered.ticking, hOrdered.live,
    hOrdered.initialized, ?_, hOrdered.resting⟩, hIn⟩
  intro d hNext
  exact ⟨hOrdered.lists.bound d (Or.inl (hIn d hNext)), hOrdered.lists.apart d (hIn d hNext)⟩

omit [AddCommGroup K] in
theorem Ordered.moveOn (hOrdered : Ordered l ts ss) :
    Ordered (moveOn l) ts ss ∧ CurrentIn (moveOn l) ts := by
  unfold Timer.moveOn
  split
  · next hNone =>
      exact ⟨hOrdered, fun c hC => nomatch hNone.symm.trans hC⟩
  · next c hCurrent => exact hOrdered.next hCurrent

omit [LinearOrder K] [AddCommGroup K] in
theorem moveOn_same (l : Loop K) :
    (moveOn l).timer = l.timer ∧ (moveOn l).nodes = l.nodes ∧
      (moveOn l).timers = l.timers ∧
      (moveOn l).suspended = l.suspended ∧
      (moveOn l).created = l.created ∧ (moveOn l).lastCheck = l.lastCheck := by
  unfold moveOn
  split
  · exact ⟨rfl, rfl, rfl, rfl, rfl, rfl⟩
  · exact ⟨rfl, rfl, rfl, rfl, rfl, rfl⟩

omit [AddCommGroup K] in
/- The destructor of a timer that is in no list -/
theorem Ordered.destructor {n : Nat} (hOrdered : Ordered l ts ss)
    (hGone : (l.timer n).invalidated = true) :
    ∃ l' ts' ss', Timer.destructor l n = some l' ∧
      Ordered l' ts' ss' ∧ Moved n l l' ts ts' ∧ n ∉ ts' ∧ l'.timerCurrent ≠ some n := by
  have hDead : ∀ {l' : Loop K}, l'.timer = l.timer → ¬ l'.live n = true := by
    intro l' hTimer hLive
    have hFields := ((live_iff l' n).mp hLive).2
    rw [hTimer] at hFields
    exact nomatch hGone.symm.trans hFields
  rcases (hOrdered.nearly n).loopClear with ⟨l', ts', ss', hClear,
    hNearly, hNotTs, hNotSs, hMoved, hTimer, -, hNot⟩
  refine ⟨l', ts', ss', hClear, ?_, hMoved, hNotTs, hNot⟩
  refine hNearly.ordered ?_ (fun hMem => absurd hMem hNotTs)
    (iff_of_false (hDead hTimer) (not_or.mpr ⟨hNotTs, hNotSs⟩)) (fun hMem => absurd hMem hNotSs)
  have hSorted := hNearly.sorted
  rw [filter_eq_self.mpr] at hSorted
  · exact hSorted
  · intro m hMem
    rw [decide_eq_true_eq]
    rintro rfl
    exact hNotTs hMem

/- What follows a tick -/
theorem Ordered.tickEnd {n : Nat} (hang when' : K) (held : Bool)
    (hOrdered : Ordered l ts ss) (hLess : n < l.created)
    (hWrong : ¬ WrongList l n) :
    ∃ l' ts' ss',
      Timer.tickEnd hang l n when' held = some l' ∧
        Ordered l' ts' ss' ∧
        Moved n (Timer.moveOn l) l' ts ts' ∧
        (n ∈ ts' → (l'.timer n).justAdded = true) ∧ CurrentIn l' ts' := by
  have hSame := moveOn_same l
  have hWrong' : ¬ WrongList (Timer.moveOn l) n := by
    unfold WrongList
    rw [hSame.1, hSame.2.1, hSame.2.2.1, hSame.2.2.2.1]
    exact hWrong
  rcases hOrdered.moveOn.1.reschedule hang when' (by rw [hSame.2.2.2.2.1]; exact hLess) hWrong' with
    ⟨l₁, ts₁, ss₁, hRun, hOrdered₁, hMoved, hAdded, hIn⟩
  have hIn₁ := hIn hOrdered.moveOn.2
  unfold Timer.tickEnd
  rw [hRun, Option.bind_some]
  split
  · next hGone =>
      rcases hOrdered₁.destructor hGone.1 with
        ⟨l₂, ts₂, ss₂, hRun₂, hOrdered₂, hMoved₂, hNotTs, hNot⟩
      exact ⟨l₂, ts₂, ss₂, hRun₂, hOrdered₂, hMoved.trans hMoved₂,
        fun hMem => absurd hMem hNotTs, hMoved₂.currentIn hIn₁ hNot⟩
  · exact ⟨l₁, ts₁, ss₁, rfl, hOrdered₁, hMoved, hAdded, hIn₁⟩

---
-- Starts and Calls
---

/- How a pass goes on from the current timer, if there is one -/
inductive Started (l l₁ : Loop K) (ts : List Nat) : Loop K → List Nat → Prop where
  | head (hNone : l.timerCurrent = none) :
      Started l l₁ ts { l₁ with timerCurrent := l₁.timers } ts
  | next {l' : Loop K} {ts' : List Nat} {c : Nat}
      (hCurrent : l.timerCurrent = some c)
      (hMoved : Moved c
        { l₁ with timerCurrent := (l₁.nodes c).next } l' ts ts')
      (hAdded : c ∈ ts' → (l'.timer c).justAdded = true) :
      Started l l₁ ts l' ts'

theorem Ordered.passStart [IsOrderedAddMonoid K] (hang when' : K)
    (hOrdered : Ordered l ts ss) :
    ∃ l₁ l' ts' ss', Timer.passStart hang l when' = some l' ∧
      Ordered l₁ ts ss ∧ Ordered l' ts' ss' ∧
      Checked l l₁ when' ts ∧ Started l l₁ ts l' ts' ∧ CurrentIn l' ts' := by
  rcases hOrdered.checkTime when' with ⟨l₁, hCheck, hOrdered₁, hChecked⟩
  unfold Timer.passStart
  rw [hCheck, Option.bind_some]
  cases hCurrent : l₁.timerCurrent with
  | none =>
    have hIn : CurrentIn { l₁ with timerCurrent := l₁.timers } ts := by
      intro c hC
      have hC : l₁.timers = some c := hC
      exact List.mem_of_head? (hOrdered₁.lists.timers.head.symm.trans hC)
    refine ⟨l₁, _, ts, ss, rfl, hOrdered₁, ?_, hChecked,
      .head (hChecked.timerCurrent.symm.trans hCurrent), hIn⟩
    refine ⟨hOrdered₁.lists.of_links rfl rfl rfl (Nat.le_refl _),
      hOrdered₁.sorted, hOrdered₁.ticking, hOrdered₁.live,
      hOrdered₁.initialized, ?_, hOrdered₁.resting⟩
    intro c hC
    exact ⟨hOrdered₁.lists.bound c (Or.inl (hIn c hC)), hOrdered₁.lists.apart c (hIn c hC)⟩
  | some c =>
    have hC := hOrdered₁.current c hCurrent
    have hNext := hOrdered₁.next hCurrent
    have hWrong : ¬ WrongList { l₁ with timerCurrent := (l₁.nodes c).next } c := by
      intro hWrong
      exact hC.2 (List.mem_of_head? (hOrdered₁.lists.suspended.head.symm.trans hWrong.2.2.1))
    rcases hNext.1.reschedule hang when' hC.1 hWrong with
      ⟨l', ts', ss', hRun, hOrdered', hMoved, hAdded, hIn⟩
    exact ⟨l₁, l', ts', ss', hRun, hOrdered₁, hOrdered', hChecked,
      .next (hChecked.timerCurrent.symm.trans hCurrent) hMoved hAdded, hIn hNext.2⟩

/- Calls that may put a timer elsewhere -/
def Op.disturbs (op : Op K) (n : Nat) : Prop :=
  match op with
  | .delay m _ => m = n
  | .reset m => m = n
  | .loopReset m => m = n
  | .freeze m => m = n
  | .del m => m = n
  | _ => False

/- The same, when the timer is the current one -/
def Op.relinks (op : Op K) (n : Nat) : Prop :=
  match op with
  | .delay m _ => m = n
  | .freeze m => m = n
  | .del m => m = n
  | _ => False

/- What a call does to the one timer that it is about -/
structure Applied (op : Op K) (n : Nat) (l l' : Loop K) (ts ts' : List Nat) : Prop where
  moved : Moved n l l' ts ts'
  settled : Quiet n l l' ts ts' ∨
    (n ∈ ts' → (l'.timer n).justAdded = true)
  calm : n ∈ ts → ¬ op.disturbs n ∨
    (l.timerCurrent = some n ∧ ¬ op.relinks n) →
    Quiet n l l' ts ts'

/- A call keeps the loop in order. -/
theorem Ordered.apply {op : Op K} (held : List Nat)
    (hOrdered : Ordered l ts ss) (hOp : op ≠ .enableNew)
    (hLive : op.timer.all l.live = true) :
    ∃ l' n ts' ss', Timer.apply l held op = some l' ∧
      Ordered l' ts' ss' ∧ Applied op n l l' ts ts' := by
  have hNew : l.created ∉ ts := fun hMem =>
    Nat.lt_irrefl _ (hOrdered.lists.bound _ (Or.inl hMem))
  unfold Timer.apply
  rw [if_pos hLive]
  cases op with
  | add listening in' =>
    rcases hOrdered.timerAdd listening in' with ⟨l₁, ts', ss', hR, hOrdered', hOutcome⟩
    exact ⟨l₁, l.created, ts', ss', hR, hOrdered', hOutcome.moved,
      hOutcome.settled, fun hMem => absurd hMem hNew⟩
  | intervalSet n in' =>
    have hQuiet : Quiet n l (intervalSet l n in') ts ts := by
      unfold intervalSet
      refine ⟨rfl, rfl, ?_, ?_, ?_, ?_⟩
      · rw [l.update_self]
      · rw [l.update_self]
      · rw [l.update_self]
      · intro _ hZero
        rw [l.update_self]
        exact hZero
    exact ⟨_, n, ts, ss, rfl, hOrdered.update (fun _ => rfl) (fun _ =>
      ⟨rfl, rfl⟩) (fun hInit => hInit) rfl ⟨rfl, rfl⟩,
      moved_update n l ts _, Or.inl hQuiet, fun _ _ => hQuiet⟩
  | delay n add =>
    rcases hOrdered.delay hLive add with ⟨l₁, ts', ss', hR, hOrdered', hOutcome⟩
    refine ⟨l₁, n, ts', ss', hR, hOrdered', hOutcome.moved, hOutcome.settled, fun _ hCalm => ?_⟩
    cases hCalm with
    | inl hNot => exact absurd rfl hNot
    | inr hNot => exact absurd rfl hNot.2
  | reset n =>
    rcases hOrdered.reset hLive l.time with ⟨l₁, ts', ss', hR, hOrdered', hOutcome, hQuiet⟩
    refine ⟨l₁, n, ts', ss', hR, hOrdered', hOutcome.moved, hOutcome.settled, fun _ hCalm => ?_⟩
    cases hCalm with
    | inl hNot => exact absurd rfl hNot
    | inr hIs => exact hQuiet hIs.1
  | loopReset n =>
    rcases hOrdered.reset hLive l.loopTime with ⟨l₁, ts', ss', hR, hOrdered', hOutcome, hQuiet⟩
    refine ⟨l₁, n, ts', ss', hR, hOrdered', hOutcome.moved, hOutcome.settled, fun _ hCalm => ?_⟩
    cases hCalm with
    | inl hNot => exact absurd rfl hNot
    | inr hIs => exact hQuiet hIs.1
  | freeze n =>
    rcases hOrdered.eventFreeze hLive with ⟨l₁, ts', ss', hR, hOrdered', hOutcome⟩
    refine ⟨l₁, n, ts', ss', hR, hOrdered', hOutcome.moved, hOutcome.settled, fun _ hCalm => ?_⟩
    cases hCalm with
    | inl hNot => exact absurd rfl hNot
    | inr hNot => exact absurd rfl hNot.2
  | thaw n =>
    rcases hOrdered.eventThaw hLive with ⟨l₁, ts', ss', hR, hOrdered', hOutcome, hQuiet⟩
    exact ⟨l₁, n, ts', ss', hR, hOrdered', hOutcome.moved,
      hOutcome.settled, fun hMem _ => hQuiet hMem⟩
  | del n =>
    rcases hOrdered.timerDel hLive (held.contains n)
      with ⟨l₁, ts', ss', hR, hOrdered', hNotTs, hMoved⟩
    refine ⟨l₁, n, ts', ss', hR, hOrdered', hMoved,
      Or.inr fun hMem => absurd hMem hNotTs, fun _ hCalm => ?_⟩
    cases hCalm with
    | inl hNot => exact absurd rfl hNot
    | inr hNot => exact absurd rfl hNot.2
  | clock time loopTime =>
    refine ⟨_, l.created, ts, ss, rfl, ⟨hOrdered.lists.of_links rfl rfl rfl (Nat.le_refl _),
      hOrdered.sorted, hOrdered.ticking, hOrdered.live,
      hOrdered.initialized, hOrdered.current, hOrdered.resting⟩,
      .of_current rfl (fun _ _ => rfl) rfl (Nat.le_refl _) rfl,
      Or.inl ⟨rfl, rfl, rfl, rfl, rfl, fun _ hZero => hZero⟩, fun hMem => absurd hMem hNew⟩
  | enableNew => exact absurd rfl hOp

end Efl.Ecore.Timer
