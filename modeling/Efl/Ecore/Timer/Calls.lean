import Efl.Ecore.Timer.Lists

/-
  Every call on a timer keeps the lists of a loop in order.

  Main declarations:
    * `Quiet`, `Outcome`
    * `Checked`
    * `Ordered.delay`, `Ordered.eventFreeze`,
      `Ordered.eventThaw`, `Ordered.timerDel`
    * `Ordered.timerAdd`
-/

---
-- Calls
---

namespace Efl.Ecore.Timer

open Eina List

variable {K : Type}

/- A call that leaves a timer where it is -/
structure Quiet (n : Nat) (l l' : Loop K) (ts ts' : List Nat) : Prop where
  timers : ts' = ts
  timerCurrent : l'.timerCurrent = l.timerCurrent
  atTime : (l'.timer n).atTime = (l.timer n).atTime
  justAdded : (l'.timer n).justAdded = (l.timer n).justAdded
  listening : (l'.timer n).listening = (l.timer n).listening
  freezeCount : n ∈ ts → (l.timer n).freezeCount = 0 →
    (l'.timer n).freezeCount = 0

/- What becomes of a timer in a call -/
structure Outcome (n : Nat) (l l' : Loop K) (ts ts' : List Nat) : Prop where
  moved : Moved n l l' ts ts'
  settled : Quiet n l l' ts ts' ∨
    (n ∈ ts' → (l'.timer n).justAdded = true)

variable [LinearOrder K]

variable {l : Loop K} {ts ss : List Nat} {n : Nat}

/- A change of a timer that no list depends on -/
theorem Ordered.update (hOrdered : Ordered l ts ss) {f : Data K → Data K}
    (hAt : n ∈ ts → (f (l.timer n)).atTime = (l.timer n).atTime)
    (hTick : n ∈ ts →
    (f (l.timer n)).listening = (l.timer n).listening ∧
    (f (l.timer n)).frozen = (l.timer n).frozen) (hInit :
    (l.timer n).initialized = true → (f (l.timer n)).initialized = true)
    (hLive : (f (l.timer n)).invalidated = (l.timer n).invalidated)
    (hRest : (f (l.timer n)).justAdded = (l.timer n).justAdded ∧
    (f (l.timer n)).frozen = (l.timer n).frozen) : Ordered (l.update n f) ts ss := by
  refine ((hOrdered.nearly n).update hInit).ordered ?_ ?_ ?_ ?_
  · refine List.Pairwise.imp_of_mem ?_ hOrdered.sorted
    have hSame : ∀ m ∈ ts, ((l.update n f).timer m).atTime = (l.timer m).atTime := by
      intro m hMem
      by_cases hEq : m = n
      · rw [hEq, l.update_self]
        exact hAt (hEq ▸ hMem)
      · rw [l.update_of_ne f hEq]
    intro a b hA hB hLe
    rw [hSame a hA, hSame b hB]
    exact hLe
  · intro hMem
    rw [l.update_self, (hTick hMem).1, (hTick hMem).2]
    exact hOrdered.ticking n hMem
  · have hOld := hOrdered.live n
    unfold Loop.live at hOld ⊢
    rw [l.update_self, hLive]
    exact hOld
  · intro hMem
    rw [l.update_self, hRest.1, hRest.2]
    exact hOrdered.resting n hMem

/- A timer leaves `loop->suspended`. -/
theorem Nearly.removeSuspended (hNearly : Nearly n l ts ss)
    (hMem : n ∈ ss) : ∃ ss', Nearly n (Timer.removeSuspended l n) ts ss' := by
  rcases append_of_mem hMem with ⟨as, bs, rfl⟩
  refine ⟨as ++ bs, hNearly.of_lists hNearly.lists.removeSuspended rfl
    rfl rfl (filter_ne_middle as bs n) ?_⟩
  intro c hCurrent
  have hC := hNearly.current c hCurrent
  refine ⟨hC.1, fun hIn => hC.2 ?_⟩
  rw [mem_append] at hIn
  rw [mem_append, mem_cons]
  tauto

variable [AddCommGroup K]

section

variable (hOrdered : Ordered l ts ss)

include hOrdered

section

variable (hLive : l.live n = true)

include hLive

theorem Ordered.timerSet (at' in' : K) :
    ∃ l' ts' ss', Timer.timerSet l n at' in' = some l' ∧
      Ordered l' ts' ss' ∧ Outcome n l l' ts ts' := by
  rcases (hOrdered.nearly n).timerSet hLive at' in' with
    ⟨l', ts', ss', hRun, hOrdered', hMoved, hTimer, -⟩
  refine ⟨l', ts', ss', hRun, hOrdered', hMoved, Or.inr ?_⟩
  intro _
  rw [hTimer]
  exact (l.timer n).justAdded_set at' in'

theorem Ordered.delay (add : K) :
    ∃ l' ts' ss', Timer.delay l n add = some l' ∧ Ordered l' ts' ss' ∧ Outcome n l l' ts ts' := by
  have hInit := hOrdered.initialized n ((live_iff l n).mp hLive).1
  unfold Timer.delay
  dsimp only
  rw [if_neg (not_not.mpr hInit)]
  split
  · next hFrozen =>
      have hNotTs : n ∉ ts := fun hMem =>
        nomatch hFrozen.symm.trans (hOrdered.ticking n hMem).2
      refine ⟨_, ts, ss, rfl, hOrdered.update (fun hMem => absurd hMem
        hNotTs) (fun hMem => absurd hMem hNotTs) (fun hInit =>
        hInit) rfl ⟨rfl, rfl⟩, moved_update n l ts _, Or.inr fun hMem =>
          absurd hMem hNotTs⟩
  · exact hOrdered.timerSet hLive _ _

theorem Ordered.reset (now : K) :
    ∃ l' ts' ss', Timer.reset l n now = some l' ∧
      Ordered l' ts' ss' ∧ Outcome n l l' ts ts' ∧
      (l.timerCurrent = some n → Quiet n l l' ts ts') := by
  have hInit := hOrdered.initialized n ((live_iff l n).mp hLive).1
  unfold Timer.reset
  dsimp only
  by_cases hIs : l.timerCurrent = some n
  · rw [if_pos hIs]
    have hQuiet : Quiet n l l ts ts := ⟨rfl, rfl, rfl, rfl, rfl, fun _ hZero => hZero⟩
    exact ⟨l, ts, ss, rfl, hOrdered, ⟨Moved.refl n l ts, Or.inl hQuiet⟩, fun _ => hQuiet⟩
  · rw [if_neg hIs, if_neg (not_not.mpr hInit)]
    rcases hOrdered.delay hLive _ with ⟨l', ts', ss', hRun, hOrdered', hOutcome⟩
    exact ⟨l', ts', ss', hRun, hOrdered', hOutcome, fun hIs' => absurd hIs' hIs⟩

theorem Ordered.eventFreeze :
    ∃ l' ts' ss', Timer.eventFreeze l n = some l' ∧ Ordered l' ts' ss' ∧ Outcome n l l' ts ts' := by
  have hCount := hOrdered.update (n := n)
    (f := fun t => { t with freezeCount := t.freezeCount + 1 })
    (fun _ => rfl) (fun _ => ⟨rfl, rfl⟩) (fun hInit => hInit) rfl ⟨rfl, rfl⟩
  have hMoved := moved_update n l ts fun t => { t with freezeCount := t.freezeCount + 1 }
  have hLive' : (l.update n fun t => { t with
      freezeCount := t.freezeCount + 1 }).live n = true := by
    rw [live_iff] at hLive ⊢
    rw [l.update_self]
    exact hLive
  unfold Timer.eventFreeze
  dsimp only
  generalize l.update n (fun t => { t with
    freezeCount := t.freezeCount + 1 }) = l₁ at *
  split
  · next hFrozen =>
      refine ⟨_, ts, ss, rfl, hCount, hMoved, Or.inr ?_⟩
      intro hMem
      exact nomatch hFrozen.symm.trans (hCount.ticking n hMem).2
  · have hNearly := (hCount.nearly n).update (f := fun t => { t with
        pending := if t.initialized then t.atTime - l₁.loopTime
          else 0
        atTime := 0
        frozen := true }) (fun hInit => hInit)
    have hMoved' := moved_update n l₁ ts fun t => { t with
        pending := if t.initialized then t.atTime - l₁.loopTime
          else 0
        atTime := 0
        frozen := true }
    rcases hNearly.instanciate (by
        rw [live_iff] at hLive' ⊢
        rw [l₁.update_self]
        exact hLive') (Or.inr (by rw [l₁.update_self])) with
      ⟨l', ts', ss', hRun, hOrdered', hMoved'', hTimer, -⟩
    refine ⟨l', ts', ss', hRun, hOrdered', hMoved.trans (hMoved'.trans hMoved''), Or.inr ?_⟩
    intro hMem
    have hFrozen := (hOrdered'.ticking n hMem).2
    rw [hTimer, l₁.update_self] at hFrozen
    exact nomatch hFrozen

theorem Ordered.eventThaw :
    ∃ l' ts' ss', Timer.eventThaw l n = some l' ∧
      Ordered l' ts' ss' ∧ Outcome n l l' ts ts' ∧ (n ∈ ts → Quiet n l l' ts ts') := by
  have hCount := hOrdered.update (n := n)
    (f := fun t => { t with freezeCount := t.freezeCount - 1 })
    (fun _ => rfl) (fun _ => ⟨rfl, rfl⟩) (fun hInit => hInit) rfl ⟨rfl, rfl⟩
  have hMoved := moved_update n l ts fun t => { t with freezeCount := t.freezeCount - 1 }
  have hQuiet : Quiet n l (l.update n fun t => { t with
      freezeCount := t.freezeCount - 1 }) ts ts := by
    refine ⟨rfl, rfl, ?_, ?_, ?_, ?_⟩
    · rw [l.update_self]
    · rw [l.update_self]
    · rw [l.update_self]
    · intro _ hZero
      rw [l.update_self]
      exact (congrArg (· - 1) hZero).trans rfl
  have hLive' : (l.update n fun t => { t with
      freezeCount := t.freezeCount - 1 }).live n = true := by
    rw [live_iff] at hLive ⊢
    rw [l.update_self]
    exact hLive
  unfold Timer.eventThaw
  dsimp only
  generalize l.update n (fun t => { t with
    freezeCount := t.freezeCount - 1 }) = l₁ at *
  split
  · exact ⟨_, ts, ss, rfl, hCount, ⟨hMoved, Or.inl hQuiet⟩, fun _ => hQuiet⟩
  · next hFrozen =>
      rw [not_not] at hFrozen
      have hSs : n ∈ ss := by
        cases (hCount.live n).mp hLive' with
        | inl hMem =>
          exact nomatch hFrozen.symm.trans (hCount.ticking n hMem).2
        | inr hMem => exact hMem
      have hNearly := (hCount.nearly n).update (f := fun t =>
        { t with frozen := false }) (fun hInit => hInit)
      have hMoved' := moved_update n l₁ ts fun t => { t with frozen := false }
      have hLive'' : (Timer.removeSuspended (l₁.update n
          fun t => { t with frozen := false }) n).live n =
            true := by
        rw [(removeSuspended_relinked _ n).live]
        rw [live_iff] at hLive' ⊢
        rw [l₁.update_self]
        exact hLive'
      rcases hNearly.removeSuspended hSs with ⟨ss₁, hOut⟩
      rcases hOut.timerSet hLive'' _ _ with ⟨l', ts', ss', hRun, hOrdered', hMoved'', hTimer, -⟩
      refine ⟨l', ts', ss', hRun, hOrdered', ⟨hMoved.trans
        (hMoved'.trans (((removeSuspended_relinked _ n).moved rfl).trans
        hMoved'')), Or.inr fun _ => ?_⟩, fun hMem => ?_⟩
      · rw [hTimer]
        exact Data.justAdded_set _ _ _
      · exact nomatch hFrozen.symm.trans (hCount.ticking n hMem).2

end

end

section

variable (hOrdered : Ordered l ts ss)

include hOrdered

omit [AddCommGroup K] in
theorem Ordered.timerDel
    (hLive : l.live n = true) (held : Bool) :
    ∃ l' ts' ss', Timer.timerDel l n held = some l' ∧
      Ordered l' ts' ss' ∧ n ∉ ts' ∧ Moved n l l' ts ts' := by
  have hNearly := (hOrdered.nearly n).update (f := fun t =>
    { t with invalidated := true }) (fun hInit => hInit)
  have hMoved := moved_update n l ts fun t => { t with invalidated := true }
  have hGone : (l.update n fun t => { t with
      invalidated := true }).live n = false := by
    rw [Bool.eq_false_iff, ne_eq, live_iff, l.update_self]
    exact fun hLive => nomatch hLive.2
  unfold Timer.timerDel
  generalize l.update n (fun t => { t with
    invalidated := true }) = l₁ at *
  rcases hNearly.unlink with ⟨l₂, ts₂, ss₂, hUnlink, hNearly₂, hNotTs, hNotSs, hOthers, hSame⟩
  rw [hUnlink, Option.bind_some]
  have hMoved₂ := hMoved.trans (hSame.moved hOthers)
  have hGone₂ : l₂.live n = false := (hSame.live n).trans hGone
  -- out of the lists, the loop is in order without it
  have hDone : ∀ {l₃ : Loop K} {ts₃ ss₃ : List Nat},
      Nearly n l₃ ts₃ ss₃ → l₃.live n = false → n ∉ ts₃ → n ∉ ss₃ → Ordered l₃ ts₃ ss₃ := by
    intro l₃ ts₃ ss₃ hNearly₃ hGone₃ hTs hSs
    refine hNearly₃.ordered ?_ (fun hMem => absurd hMem hTs)
      (iff_of_false (Bool.eq_false_iff.mp hGone₃)
        (not_or.mpr ⟨hTs, hSs⟩)) (fun hMem => absurd hMem hSs)
    have hSorted := hNearly₃.sorted
    rw [filter_eq_self.mpr] at hSorted
    · exact hSorted
    · intro m hMem
      rw [decide_eq_true_eq]
      rintro rfl
      exact hTs hMem
  cases held with
  | true =>
    exact ⟨l₂, ts₂, ss₂, rfl, hDone hNearly₂ hGone₂ hNotTs hNotSs, hNotTs, hMoved₂⟩
  | false =>
    rcases hNearly₂.loopClear with ⟨l₃, ts₃, ss₃, hClear, hNearly₃,
      hNotTs₃, hNotSs₃, hMoved₃, hTimer₃, hCreated₃, -⟩
    have hGone₃ : l₃.live n = false := by
      unfold Loop.live at hGone₂ ⊢
      rw [hTimer₃, hCreated₃]
      exact hGone₂
    exact ⟨l₃, ts₃, ss₃, hClear, hDone hNearly₃ hGone₃ hNotTs₃ hNotSs₃,
      hNotTs₃, hMoved₂.trans hMoved₃⟩

---
-- Additions
---

omit [AddCommGroup K] in
/- A new timer, before it is in a list -/
theorem Ordered.create (t : Data K)
    (hInit : t.initialized = true) : Nearly l.created (l.create t) ts ss := by
  have hNew : ∀ m, m ∈ ts ∨ m ∈ ss → m ≠ l.created := by
    rintro m hMem rfl
    exact Nat.lt_irrefl _ (hOrdered.lists.bound _ hMem)
  refine ⟨⟨?_, ?_, hOrdered.lists.apart, ?_, ?_⟩, ?_, ?_, ?_, ?_, ?_, ?_⟩
  · exact hOrdered.lists.timers.congr fun m hMem =>
      l.create_nodes_of_ne t (hNew m (Or.inl hMem))
  · exact hOrdered.lists.suspended.congr fun m hMem =>
      l.create_nodes_of_ne t (hNew m (Or.inr hMem))
  · intro m hTs hSs
    by_cases hEq : m = l.created
    · subst hEq
      rw [l.create_nodes_self]
      exact ⟨rfl, rfl⟩
    · rw [l.create_nodes_of_ne t hEq]
      exact hOrdered.lists.out m hTs hSs
  · exact fun m hMem => Nat.lt_succ_of_lt (hOrdered.lists.bound m hMem)
  · refine List.Pairwise.imp_of_mem ?_ (hOrdered.nearly l.created).sorted
    intro a b hA hB hLe
    rw [l.create_of_ne t (by simpa using (mem_filter.mp hA).2),
        l.create_of_ne t (by simpa using (mem_filter.mp hB).2)]
    exact hLe
  · intro m hMem hNe
    rw [l.create_of_ne t hNe]
    exact hOrdered.ticking m hMem
  · intro m hNe
    rw [← hOrdered.live m, live_iff, live_iff, l.create_of_ne t hNe]
    have hLess : m < l.created + 1 ↔ m < l.created := by omega
    exact and_congr hLess Iff.rfl
  · intro m hLess
    by_cases hEq : m = l.created
    · subst hEq
      rw [l.create_self]
      exact hInit
    · have hLess : m < l.created + 1 := hLess
      rw [l.create_of_ne t hEq]
      exact hOrdered.initialized m (by omega)
  · intro c hCurrent
    have hC := hOrdered.current c hCurrent
    exact ⟨Nat.lt_succ_of_lt hC.1, hC.2⟩
  · intro m hMem hNe
    rw [l.create_of_ne t hNe]
    exact hOrdered.resting m hMem

theorem Ordered.timerAdd
    (listening : Nat) (in' : K) :
    ∃ l' ts' ss', Timer.timerAdd l listening in' = some l' ∧
      Ordered l' ts' ss' ∧ Outcome l.created l l' ts ts' := by
  unfold Timer.timerAdd
  dsimp only
  generalize (if in' < 0 then 0 else in') = in'
  generalize (if 0 < l.loopTime then l.time + in'
    else 0 + in') = at'
  generalize hT : Data.mk in' at' 0 listening false false true 0 false = t
  have hNearly := hOrdered.create t (by rw [← hT])
  have hMoved : Moved l.created l (l.create t) ts ts :=
    .of_current rfl (fun _ hNe => l.create_of_ne t hNe) rfl (Nat.le_succ _) rfl
  have hLive : (l.create t).live l.created = true := by
    rw [live_iff, l.create_self, ← hT]
    exact ⟨Nat.lt_succ_self _, rfl⟩
  rcases hNearly.timerSet hLive at' in' with ⟨l', ts', ss', hRun, hOrdered', hMoved', hTimer, -⟩
  refine ⟨l', ts', ss', hRun, hOrdered', hMoved.trans hMoved', Or.inr fun _ => ?_⟩
  rw [hTimer]
  exact ((l.create t).timer l.created).justAdded_set at' in'

---
-- All Timers
---

omit [AddCommGroup K] in
/- A change of all the timers that keeps them sorted -/
theorem Ordered.mapTimers
    {f : Data K → Data K} (hAt : ∀ s t :
    Data K, s.atTime ≤ t.atTime → (f s).atTime ≤ (f t).atTime)
    (hFields : ∀ t : Data K, (f t).listening = t.listening ∧
    (f t).frozen = t.frozen ∧ (f t).initialized = t.initialized ∧
    (f t).invalidated = t.invalidated) :
    Ordered { l with
      timer := fun n =>
        if n ∈ ts then f (l.timer n) else l.timer n } ts ss := by
  have hData : ∀ m, ∃ g : Data K → Data K,
      (if m ∈ ts then f (l.timer m) else l.timer m) =
        g (l.timer m) ∧ ∀ t : Data K,
      (g t).initialized = t.initialized ∧ (g t).invalidated = t.invalidated := by
    intro m
    split
    · exact ⟨f, rfl, fun t => (hFields t).2.2⟩
    · exact ⟨id, rfl, fun t => ⟨rfl, rfl⟩⟩
  refine ⟨hOrdered.lists.of_links rfl rfl rfl (Nat.le_refl _), ?_, ?_, ?_, ?_, hOrdered.current, ?_⟩
  · refine List.Pairwise.imp_of_mem ?_ hOrdered.sorted
    intro a b hA hB hLe
    show (if a ∈ ts then _ else _ : Data K).atTime ≤ (if b ∈ ts then _ else _ : Data K).atTime
    rw [if_pos hA, if_pos hB]
    exact hAt _ _ hLe
  · intro m hMem
    show (if m ∈ ts then _ else _ : Data K).listening ≠ 0 ∧
      (if m ∈ ts then _ else _ : Data K).frozen = false
    rw [if_pos hMem, (hFields _).1, (hFields _).2.1]
    exact hOrdered.ticking m hMem
  · intro m
    rw [← hOrdered.live m, live_iff, live_iff]
    rcases hData m with ⟨g, hG, hSame⟩
    show m < l.created ∧ (if m ∈ ts then _ else _ : Data K).invalidated = false ↔ _
    rw [hG, (hSame _).2]
  · intro m hLess
    rcases hData m with ⟨g, hG, hSame⟩
    show (if m ∈ ts then _ else _ : Data K).initialized = true
    rw [hG, (hSame _).1]
    exact hOrdered.initialized m hLess
  · intro m hMem
    show (if m ∈ ts then _ else _ : Data K).justAdded = true ∨
      (if m ∈ ts then _ else _ : Data K).frozen = true
    rw [if_neg fun hIn => hOrdered.lists.apart m hIn hMem]
    exact hOrdered.resting m hMem

omit [AddCommGroup K] in
theorem Ordered.enableNew :
    ∃ l', Timer.enableNew l = some l' ∧ Ordered l' ts ss ∧
      l'.created = l.created ∧ l'.timerCurrent = l.timerCurrent := by
  unfold Timer.enableNew Timer.mapTimers
  split
  · refine ⟨_, by
      rw [show listFrom _ _ _ = some ts from
        hOrdered.lists.listFrom_timers]
      rfl, ?_⟩
    have hDone := hOrdered.mapTimers (f := fun t => { t with justAdded := false })
      (fun _ _ hLe => hLe) (fun _ => ⟨rfl, rfl, rfl, rfl⟩)
    exact ⟨⟨hDone.lists.of_links rfl rfl rfl (Nat.le_refl _),
      hDone.sorted, hDone.ticking, hDone.live,
      hDone.initialized, hDone.current, hDone.resting⟩, rfl, rfl⟩
  · exact ⟨l, rfl, hOrdered, rfl, rfl⟩

end

/- What a check of the time changes -/
structure Checked (l l' : Loop K) (when' : K) (ts : List Nat) : Prop where
  lastCheck : l'.lastCheck = when'
  created : l'.created = l.created
  nodes : l'.nodes = l.nodes
  timers : l'.timers = l.timers
  timerCurrent : l'.timerCurrent = l.timerCurrent
  justAdded : ∀ m, (l'.timer m).justAdded = (l.timer m).justAdded
  freezeCount : ∀ m,
    (l'.timer m).freezeCount = (l.timer m).freezeCount
  expired : ∀ m ∈ ts, (l.timer m).atTime ≤ l.lastCheck →
    (l'.timer m).atTime ≤ when'
  earlier : ∀ m ∈ ts, (l.timer m).atTime ≤ when' →
    (l'.timer m).atTime ≤ when'

variable [IsOrderedAddMonoid K]

theorem Ordered.checkTime (hOrdered : Ordered l ts ss) (when' : K) :
    ∃ l', Timer.checkTime l when' = some l' ∧ Ordered l' ts ss ∧ Checked l l' when' ts := by
  unfold Timer.checkTime Timer.mapTimers
  by_cases hBack : when' < l.lastCheck
  · rw [if_pos hBack, hOrdered.lists.listFrom_timers]
    have hDone := hOrdered.mapTimers (f := fun t => { t with
        atTime := t.atTime - (l.lastCheck - when') })
      (fun _ _ hLe => sub_le_sub_right hLe _) (fun _ => ⟨rfl, rfl, rfl, rfl⟩)
    refine ⟨_, rfl, ⟨hDone.lists.of_links rfl rfl rfl (Nat.le_refl _),
      hDone.sorted, hDone.ticking, hDone.live, hDone.initialized,
      hDone.current, hDone.resting⟩, ⟨rfl, rfl, rfl, rfl, rfl, ?_, ?_, ?_, ?_⟩⟩
    · intro m
      show (if m ∈ ts then _ else _ : Data K).justAdded = _
      split
      · rfl
      · rfl
    · intro m
      show (if m ∈ ts then _ else _ : Data K).freezeCount = _
      split
      · rfl
      · rfl
    · intro m hMem hLe
      show (if m ∈ ts then _ else _ : Data K).atTime ≤ _
      rw [if_pos hMem]
      show (l.timer m).atTime - (l.lastCheck - when') ≤ when'
      rw [sub_le_iff_le_add, add_sub_cancel]
      exact hLe
    · intro m hMem hLe
      show (if m ∈ ts then _ else _ : Data K).atTime ≤ _
      rw [if_pos hMem]
      exact le_trans (sub_le_self _ (sub_nonneg.mpr hBack.le)) hLe
  · rw [if_neg hBack]
    refine ⟨_, rfl, ⟨hOrdered.lists.of_links rfl rfl rfl
      (Nat.le_refl _), hOrdered.sorted, hOrdered.ticking, hOrdered.live,
      hOrdered.initialized, hOrdered.current, hOrdered.resting⟩,
      ⟨rfl, rfl, rfl, rfl, rfl, fun _ => rfl, fun _ => rfl, ?_, fun _ _ hLe => hLe⟩⟩
    exact fun m _ hLe => le_trans hLe (not_lt.mp hBack)

end Efl.Ecore.Timer
