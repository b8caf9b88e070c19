import Efl.Lib.Runs
import Mathlib.Data.Finset.Card
import Mathlib.Data.Finset.Range
import Mathlib.Logic.Function.Basic

/-
  The promises of `eina_promise_all_array` and
  `eina_promise_race_array`.

  Each member of the array gets a future behind it, whose
  callback reports to the context of the group.  An access to
  something that has been freed is a fault.

  Main declarations:
    * `State`, `create`
    * `ctxFree`, `raceThenCb`, `allThenCb`
    * `step_spec`
    * `group_correct_iff`
-/

---
-- The Context
---

namespace Efl.Eina.Promise.Group

/- Which of the two functions has made the group. -/
inductive Kind where
  | race
  | all
  deriving DecidableEq

inductive Fault where
  /- An access to, or a free of, something that was freed. -/
  | freed
  /- `EINA_FUTURE_SENTINEL` is used as a future. -/
  | sentinel
  /- A future is not in the context. -/
  | assertion
  /- The model nests fewer calls than the code. -/
  | depth
  deriving DecidableEq

/- What the promise of a group is resolved with. -/
inductive Result (V : Type) where
  | race (value : V) (index : Nat)
  | all (values : List V)

/-
  A `Race_Promise_Ctx` or `All_Promise_Ctx`, its promise, the
  future of that one, and the futures behind the members; the
  last fields record what has happened to them.
-/
structure State (V : Type) where
  kind : Kind
  ctxLive : Bool
  futuresLive : Bool
  futures : Nat → Bool
  futuresLen : Nat
  dispatching : Bool
  values : Nat → V
  processed : Nat
  promiseLive : Bool
  linked : Bool
  groupLive : Bool
  live : Nat → Bool
  calls : Nat → Nat
  groupCalls : Nat
  results : List (Result V)
  ctxFrees : Nat
  promiseFrees : Nat

variable {V : Type}

/-
  `_future_array_cancel` looks for a NULL behind the futures,
  but the array ends with the sentinel.
-/
def futureArrayCancel : Except Fault (State V) :=
  .error .sentinel

/-
  `eina_promise_all_array` and `eina_promise_race_array`, for
  futures of which is known whether they have no successor.
-/
def create (kind : Kind) (stub : V) (alloc : Bool) (ends : List Bool) : Except Fault (State V) :=
  if alloc ∧ ends ≠ [] ∧ ∀ e ∈ ends, e = true then
    .ok
      { kind := kind
        ctxLive := true
        futuresLive := true
        futures := fun i => i < ends.length
        futuresLen := ends.length
        dispatching := false
        values := fun _ => stub
        processed := 0
        promiseLive := true
        linked := false
        groupLive := false
        live := fun i => i < ends.length
        calls := fun _ => 0
        groupCalls := 0
        results := []
        ctxFrees := 0
        promiseFrees := 0 }
  else
    futureArrayCancel

namespace State

def useCtx (s : State V) : Except Fault Unit :=
  if s.ctxLive then .ok () else .error .freed

def freeCtx (s : State V) : Except Fault (State V) :=
  if s.ctxLive then
    .ok { s with ctxLive := false, ctxFrees := s.ctxFrees + 1 }
  else
    .error .freed

/- `free(ctx->futures)` -/
def freeFutures (s : State V) : Except Fault (State V) :=
  if s.ctxLive ∧ s.futuresLive then
    .ok { s with futuresLive := false }
  else
    .error .freed

def freePromise (s : State V) : Except Fault (State V) :=
  if s.promiseLive then
    .ok
      { s with
        promiseLive := false
        promiseFrees := s.promiseFrees + 1 }
  else
    .error .freed

end State

---
-- Callbacks
---

open List Function

/- `_eina_promise_clean_dispatch` -/
def cleanDispatch (s : State V) (result : Result V) : Except Fault (State V) :=
  if s.promiseLive then
    let s :=
      if s.linked then
        { s with
          linked := false
          groupCalls := s.groupCalls + 1
          groupLive := false }
      else
        s
    State.freePromise { s with results := s.results ++ [result] }
  else
    .error .freed

/- `_future_unset` -/
def futureUnset (s : State V) (i : Nat) : Except Fault (State V) :=
  if s.ctxLive ∧ s.futuresLive then
    if s.futures i then
      .ok { s with futures := update s.futures i false }
    else
      .error .assertion
  else
    .error .freed

/- One round of the loop in `_base_ctx_clean`. -/
def cleanStep (cancel : State V → Nat → Except Fault (State V))
    (s : State V) (i : Nat) : Except Fault (State V) :=
  if s.ctxLive ∧ s.futuresLive then
    if s.futures i then cancel s i else .ok s
  else
    .error .freed

/- `_base_ctx_clean` -/
def baseCtxClean (cancel : State V → Nat → Except Fault (State V))
    (s : State V) : Except Fault (State V) := do
  let s ← (List.range s.futuresLen).foldlM (cleanStep cancel) s
  s.freeFutures

/-
  `_all_promise_ctx_free` and `_race_promise_ctx_free`, which
  are also what cancels the promise.
-/
def ctxFree (cancel : State V → Nat → Except Fault (State V))
    (s : State V) : Except Fault (State V) := do
  let s ← baseCtxClean cancel s
  s.freeCtx

/- `_race_then_cb` -/
def raceThenCb (cancel : State V → Nat → Except Fault (State V))
    (s : State V) (i : Nat) (v : V) : Except Fault (State V) := do
  let s ← futureUnset s i
  if s.dispatching then
    .ok s
  else
    let s ← ctxFree cancel { s with dispatching := true }
    cleanDispatch s (.race v i)

/- `_all_then_cb` -/
def allThenCb (cancel : State V → Nat → Except Fault (State V))
    (s : State V) (i : Nat) (v : V) : Except Fault (State V) := do
  let s ← futureUnset s i
  let s :=
    { s with
      processed := s.processed + 1
      values := update s.values i v }
  if s.processed = s.futuresLen then
    let s ← cleanDispatch s
      (.all ((List.range s.futuresLen).map s.values))
    ctxFree cancel s
  else
    .ok s

/- The callback of the futures behind the members. -/
def thenCb (cancel : State V → Nat → Except Fault (State V))
    (s : State V) (i : Nat) (v : V) : Except Fault (State V) :=
  match s.kind with
  | .race => raceThenCb cancel s i v
  | .all => allThenCb cancel s i v

/- The future behind a member runs its callback, and is freed. -/
def dispatchMember (cancel : State V → Nat → Except Fault (State V))
    (s : State V) (i : Nat) (v : V) : Except Fault (State V) :=
  if s.live i then do
    let s :=
      { s with
        calls := update s.calls i (s.calls i + 1) }
    let s ← thenCb cancel s i v
    .ok { s with live := update s.live i false }
  else
    .error .freed

/- `_eina_future_cancel` of the future behind a member. -/
def futureCancel (canceled : V) : Nat → State V → Nat → Except Fault (State V)
  | 0, _, _ => .error .depth
  | n + 1, s, i => dispatchMember (futureCancel canceled n) s i canceled

/-
  `_eina_future_cancel` of the future of the promise, with
  `_eina_promise_cancel`.
-/
def groupCancel (canceled : V) (s : State V) : Except Fault (State V) := do
  let s ← ctxFree (futureCancel canceled (s.futuresLen + 1))
    { s with linked := false }
  let s ← s.freePromise
  .ok
    { s with
      groupCalls := s.groupCalls + 1
      groupLive := false }

inductive Action (V : Type) where
  /- A value or an error has come to the end of a member. -/
  | settle (i : Nat) (v : V)
  | cancel (i : Nat)
  /- `eina_future_new` of the promise -/
  | attach
  | cancelGroup

/- What is done to a future that is gone has no effect. -/
def step (canceled : V) (s : State V) : Action V → Except Fault (State V)
  | .settle i v =>
    if s.live i then
      dispatchMember
        (futureCancel canceled (s.futuresLen + 1)) s i v
    else
      .ok s
  | .cancel i =>
    if s.live i then
      futureCancel canceled (s.futuresLen + 1) s i
    else
      .ok s
  | .attach =>
    if s.promiseLive then
      if s.linked then
        groupCancel canceled s
      else
        .ok { s with linked := true, groupLive := true }
    else
      .ok s
  | .cancelGroup =>
    if s.groupLive then groupCancel canceled s else .ok s

---
-- One Member
---

/- The members that have run their callbacks. -/
def done (s : State V) : Finset Nat :=
  (Finset.range s.futuresLen).filter fun i => s.live i = false

/- Not all that the promise waits for has happened. -/
structure Waiting (s : State V) : Prop where
  ctxLive : s.ctxLive = true
  futuresLive : s.futuresLive = true
  promiseLive : s.promiseLive = true
  dispatching : s.dispatching = false
  futures : s.futures = s.live
  within : ∀ i, s.live i = true → i < s.futuresLen
  calls : ∀ i, i < s.futuresLen →
    s.calls i = if s.live i then 0 else 1
  results : s.results = []
  ctxFrees : s.ctxFrees = 0
  promiseFrees : s.promiseFrees = 0
  processed : s.kind = .all → s.processed = (done s).card
  first : s.kind = .race → ∀ i, i < s.futuresLen →
    s.live i = true
  some : ∃ i, s.live i = true

/- The promise was resolved, and the context freed. -/
structure Settled (s : State V) : Prop where
  ctxLive : s.ctxLive = false
  promiseLive : s.promiseLive = false
  linked : s.linked = false
  live : ∀ i, s.live i = false
  calls : ∀ i, i < s.futuresLen → s.calls i = 1
  results : s.results.length = 1
  ctxFrees : s.ctxFrees = 1
  promiseFrees : s.promiseFrees = 1

variable {s : State V}

/- While a race is being dispatched, a member only reports. -/
theorem futureCancel_dispatching {j : Nat} (canceled : V) (n : Nat)
    (hKind : s.kind = .race) (hCtx : s.ctxLive = true) (hFutures : s.futuresLive = true)
    (hDispatching : s.dispatching = true) (hSet : s.futures j = true)
    (hLive : s.live j = true) :
    futureCancel canceled (n + 1) s j = .ok { s with
        futures := update s.futures j false
        calls := update s.calls j (s.calls j + 1)
        live := update s.live j false } := by
  simp [futureCancel, dispatchMember, hLive, thenCb, hKind, raceThenCb,
    futureUnset, hCtx, hFutures, hSet, hDispatching, bind, Except.bind]

/- All members that are still set are cancelled. -/
theorem clean_dispatching (canceled : V) (n : Nat)
    (hKind : s.kind = .race) (hCtx : s.ctxLive = true)
    (hFutures : s.futuresLive = true) (hDispatching : s.dispatching = true)
    (hLive : ∀ j, s.futures j = true → s.live j = true)
    (is : List Nat) :
    ∃ futures calls live, is.foldlM
      (cleanStep (futureCancel canceled (n + 1))) s = .ok { s with
          futures := futures
          calls := calls
          live := live } ∧
      ∀ j, (s.futures j = true → j ∈ is → futures j = false ∧
          calls j = s.calls j + 1 ∧ live j = false) ∧
          (¬ (s.futures j = true ∧ j ∈ is) → futures j = s.futures j ∧
          calls j = s.calls j ∧ live j = s.live j) := by
  induction is generalizing s with
  | nil => exact ⟨s.futures, s.calls, s.live, rfl, by simp⟩
  | cons i is ih =>
    rw [foldlM_cons]
    by_cases hSet : s.futures i = true
    · have hStep :
          cleanStep (futureCancel canceled (n + 1)) s i = .ok { s with
            futures := update s.futures i false
            calls := update s.calls i (s.calls i + 1)
            live := update s.live i false } := by
        unfold cleanStep
        rw [if_pos ⟨hCtx, hFutures⟩, if_pos hSet]
        exact futureCancel_dispatching canceled n hKind hCtx
          hFutures hDispatching hSet (hLive i hSet)
      rcases ih (s := { s with
          futures := update s.futures i false
          calls := update s.calls i (s.calls i + 1)
          live := update s.live i false })
        hKind hCtx hFutures hDispatching (by
          intro j hj
          have hOther : j ≠ i := by
            rintro rfl
            simp at hj
          simp only [ne_eq, hOther, not_false_eq_true, update_of_ne] at hj ⊢
          exact hLive j hj) with ⟨futures, calls, live, hRun, hAll⟩
      refine ⟨futures, calls, live, ?_, ?_⟩
      · rw [hStep]
        exact hRun
      · intro j
        have hj := hAll j
        by_cases hEq : j = i
        · subst hEq
          simp only [update_self] at hj
          have hNow := hj.2 (by simp)
          exact ⟨fun _ _ => hNow, fun hNot => absurd ⟨hSet, by simp⟩ hNot⟩
        · simp only [ne_eq, hEq, not_false_eq_true, update_of_ne] at hj
          simpa [hEq] using hj
    · have hStep : cleanStep (futureCancel canceled (n + 1)) s i = .ok s := by
        unfold cleanStep
        rw [if_pos ⟨hCtx, hFutures⟩, if_neg hSet]
      rcases ih hKind hCtx hFutures hDispatching hLive with ⟨futures, calls, live, hRun, hAll⟩
      refine ⟨futures, calls, live, ?_, ?_⟩
      · rw [hStep]
        exact hRun
      · intro j
        have hj := hAll j
        by_cases hEq : j = i
        · subst hEq
          refine ⟨fun h => absurd h hSet, fun _ => ?_⟩
          exact hj.2 (fun h => hSet h.1)
        · simpa [hEq] using hj

/- Nothing is set any more. -/
theorem clean_unset (cancel : State V → Nat → Except Fault (State V))
    (hCtx : s.ctxLive = true) (hFutures : s.futuresLive = true)
    (hUnset : ∀ j, s.futures j = false) (is : List Nat) :
    is.foldlM (cleanStep cancel) s = .ok s := by
  induction is with
  | nil => rfl
  | cons i is ih =>
    rw [foldlM_cons]
    have hStep : cleanStep cancel s i = .ok s := by
      simp [cleanStep, hCtx, hFutures, hUnset]
    rw [hStep]
    exact ih

/- The members that are done, with one more. -/
theorem done_update {s' : State V} {i : Nat} (hLen : s'.futuresLen = s.futuresLen)
    (hLive : s'.live = update s.live i false) (hIn : i < s.futuresLen)
    (hSome : s.live i = true) : (done s').card = (done s).card + 1 := by
  have hInsert : done s' = insert i (done s) := by
    ext j
    unfold done
    rw [hLen, hLive]
    by_cases hEq : j = i
    · subst hEq
      simp [hIn]
    · simp [hEq]
  rw [hInsert, Finset.card_insert_of_notMem]
  unfold done
  simp [hSome]

theorem done_eq_iff (s : State V) :
    (done s).card = s.futuresLen ↔ ∀ i, i < s.futuresLen → s.live i = false := by
  have h := Finset.card_filter_eq_iff (s := Finset.range s.futuresLen)
    (p := fun i => s.live i = false)
  rw [Finset.card_range] at h
  simpa [done] using h

/- The promise is resolved, and freed. -/
theorem cleanDispatch_spec (result : Result V)
    (hPromise : s.promiseLive = true) :
    cleanDispatch s result = .ok { s with
        linked := false
        groupCalls := if s.linked then s.groupCalls + 1 else s.groupCalls
        groupLive := s.groupLive && !s.linked
        results := s.results ++ [result]
        promiseLive := false
        promiseFrees := s.promiseFrees + 1 } := by
  unfold cleanDispatch
  rw [if_pos hPromise]
  cases hLinked : s.linked with
  | false => simp [State.freePromise, hPromise, hLinked]
  | true => simp [State.freePromise, hPromise]

/- A member that is set reports to the context. -/
theorem futureUnset_spec {i : Nat} (hCtx : s.ctxLive = true)
    (hFutures : s.futuresLive = true) (hSet : s.futures i = true) :
    futureUnset s i = .ok { s with
        futures := update s.futures i false } := by
  unfold futureUnset
  rw [if_pos ⟨hCtx, hFutures⟩, if_pos hSet]

/- The context is freed behind its loop. -/
theorem ctxFree_spec {s' : State V}
    {cancel : State V → Nat → Except Fault (State V)} (hLoop :
    (List.range s.futuresLen).foldlM (cleanStep cancel) s = .ok s')
    (hCtx : s'.ctxLive = true) (hFutures : s'.futuresLive = true) :
    ctxFree cancel s = .ok { s' with
        futuresLive := false
        ctxLive := false
        ctxFrees := s'.ctxFrees + 1 } := by
  unfold ctxFree baseCtxClean
  rw [hLoop]
  simp [bind, Except.bind, State.freeFutures, State.freeCtx, hCtx, hFutures]

theorem ctxFree_unset (cancel : State V → Nat → Except Fault (State V))
    (hCtx : s.ctxLive = true) (hFutures : s.futuresLive = true)
    (hUnset : ∀ j, s.futures j = false) :
    ctxFree cancel s = .ok { s with
        futuresLive := false
        ctxLive := false
        ctxFrees := s.ctxFrees + 1 } :=
  ctxFree_spec (clean_unset cancel hCtx hFutures hUnset _) hCtx hFutures

/- The first member of a race settles it. -/
theorem race_spec {i : Nat} (canceled : V) (n : Nat) (v : V)
    (hWaiting : Waiting s) (hKind : s.kind = .race)
    (hLive : s.live i = true) :
    ∃ s', dispatchMember (futureCancel canceled (n + 1)) s i v =
        .ok s' ∧ Settled s' ∧
      s'.futuresLen = s.futuresLen ∧ s'.groupLive = (s.groupLive && !s.linked) := by
  have hFirst := hWaiting.first hKind
  have hSet : s.futures i = true := by
    rw [hWaiting.futures]
    exact hLive
  rcases clean_dispatching (s := { s with
      calls := update s.calls i (s.calls i + 1)
      futures := update s.futures i false
      dispatching := true }) canceled n hKind hWaiting.ctxLive
      hWaiting.futuresLive rfl (by
        intro j hj
        have hOther : j ≠ i := by
          rintro rfl
          simp at hj
        simp only [ne_eq, hOther, not_false_eq_true, update_of_ne] at hj
        rw [hWaiting.futures] at hj
        exact hj) (List.range s.futuresLen) with ⟨futures, calls, live, hRun, hAll⟩
  have hCalls : ∀ j, j < s.futuresLen → calls j = 1 := by
    intro j hj
    have h := hAll j
    have hZero := hWaiting.calls j hj
    rw [hFirst j hj] at hZero
    by_cases hEq : j = i
    · subst hEq
      simp only [update_self] at h
      rw [(h.2 (by simp)).2.1]
      simp [hZero]
    · simp only [ne_eq, hEq, not_false_eq_true, update_of_ne,
        hWaiting.futures, hFirst j hj, mem_range, hj] at h
      rw [(h.1 trivial trivial).2.1, hZero]
      rfl
  have hGone : ∀ j, j ≠ i → live j = false := by
    intro j hEq
    have h := hAll j
    by_cases hj : j < s.futuresLen
    · simp only [ne_eq, hEq, not_false_eq_true, update_of_ne,
        hWaiting.futures, hFirst j hj, mem_range, hj] at h
      exact (h.1 trivial trivial).2.2
    · have hDead : s.live j = false := by
        by_contra hNot
        exact hj (hWaiting.within j (by simpa using hNot))
      rw [(h.2 (by simp [hj])).2.2, hDead]
  unfold dispatchMember thenCb
  rw [if_pos hLive]
  dsimp only
  split
  · unfold raceThenCb
    rw [futureUnset_spec (s := { s with
        calls := update s.calls i (s.calls i + 1) }) hWaiting.ctxLive hWaiting.futuresLive hSet]
    simp only [bind, Except.bind]
    rw [if_neg (by rw [hWaiting.dispatching]; decide),
      ctxFree_spec hRun hWaiting.ctxLive hWaiting.futuresLive]
    dsimp only
    rw [cleanDispatch_spec]
    case hPromise => exact hWaiting.promiseLive
    refine ⟨_, rfl, ⟨rfl, rfl, rfl, ?_, hCalls, ?_, ?_, ?_⟩,
      rfl, rfl⟩
    · intro j
      by_cases hEq : j = i
      · subst hEq
        simp
      · simp [hEq, hGone j hEq]
    · simp [hWaiting.results]
    · simp [hWaiting.ctxFrees]
    · simp [hWaiting.promiseFrees]
  · rename_i hAllKind
    rw [hKind] at hAllKind
    simp at hAllKind

/- A member reports to a group of all. -/
theorem all_spec {i : Nat} (canceled : V) (n : Nat) (v : V)
    (hWaiting : Waiting s) (hKind : s.kind = .all)
    (hLive : s.live i = true) :
    ∃ s', dispatchMember (futureCancel canceled n) s i v = .ok s' ∧
        s'.futuresLen = s.futuresLen ∧
        ((Waiting s' ∧ s'.live = update s.live i false ∧
        s'.linked = s.linked ∧ s'.groupLive = s.groupLive) ∨
        (Settled s' ∧ s'.groupLive = (s.groupLive && !s.linked))) := by
  have hIn := hWaiting.within i hLive
  have hSet : s.futures i = true := by
    rw [hWaiting.futures]
    exact hLive
  have hCalls : ∀ j, j < s.futuresLen →
      update s.calls i (s.calls i + 1) j =
        if update s.live i false j then 0 else 1 := by
    intro j hj
    have h := hWaiting.calls j hj
    by_cases hEq : j = i
    · subst hEq
      rw [hLive] at h
      simp [h]
    · simp [hEq, h]
  have hCard : (done { s with
      live := update s.live i false }).card = (done s).card + 1 := done_update rfl rfl hIn hLive
  have hLast := done_eq_iff { s with live := update s.live i false }
  unfold dispatchMember thenCb
  rw [if_pos hLive]
  dsimp only
  split
  · rename_i hRace
    rw [hKind] at hRace
    simp at hRace
  · unfold allThenCb
    rw [futureUnset_spec (s := { s with
        calls := update s.calls i (s.calls i + 1) }) hWaiting.ctxLive hWaiting.futuresLive hSet]
    simp only [bind, Except.bind]
    rw [hWaiting.processed hKind]
    by_cases hEnd : (done s).card + 1 = s.futuresLen
    · rw [if_pos hEnd, cleanDispatch_spec]
      case hPromise => exact hWaiting.promiseLive
      dsimp only
      have hGone : ∀ j, update s.live i false j =
          false := by
        intro j
        by_cases hj : j < s.futuresLen
        · exact hLast.mp (hCard.trans hEnd) j hj
        · by_cases hEq : j = i
          · simp [hEq]
          · rw [update_of_ne hEq]
            by_contra hNot
            exact hj (hWaiting.within j (by simpa using hNot))
      rw [ctxFree_unset]
      case hCtx => exact hWaiting.ctxLive
      case hFutures => exact hWaiting.futuresLive
      case hUnset =>
        rw [hWaiting.futures]
        exact hGone
      refine ⟨_, rfl, rfl, .inr ⟨⟨rfl, rfl, rfl, hGone, ?_, ?_, ?_, ?_⟩, rfl⟩⟩
      · intro j hj
        dsimp only
        rw [hCalls j hj, hGone j]
        rfl
      · simp [hWaiting.results]
      · simp [hWaiting.ctxFrees]
      · simp [hWaiting.promiseFrees]
    · rw [if_neg hEnd]
      refine ⟨_, rfl, rfl, .inl ⟨?_, rfl, rfl, rfl⟩⟩
      refine ⟨hWaiting.ctxLive, hWaiting.futuresLive,
        hWaiting.promiseLive, hWaiting.dispatching, ?_, ?_,
        hCalls, hWaiting.results, hWaiting.ctxFrees,
        hWaiting.promiseFrees, fun _ => hCard.symm, ?_, ?_⟩
      · dsimp only
        rw [hWaiting.futures]
      · intro j hj
        dsimp only at hj ⊢
        by_cases hEq : j = i
        · subst hEq
          exact hIn
        · rw [update_of_ne hEq] at hj
          exact hWaiting.within j hj
      · intro hRace
        have : s.kind = .race := hRace
        rw [hKind] at this
        simp at this
      · by_contra hNone
        refine hEnd (hCard.symm.trans (hLast.mpr ?_))
        intro j hj
        by_contra hNot
        exact hNone ⟨j, by simpa using hNot⟩

/- A member that is not done reports to its group. -/
theorem dispatchMember_spec {i : Nat} (canceled : V) (n : Nat) (v : V)
    (hWaiting : Waiting s) (hLive : s.live i = true) :
    ∃ s', dispatchMember (futureCancel canceled (n + 1)) s i v =
        .ok s' ∧ s'.futuresLen = s.futuresLen ∧
        ((Waiting s' ∧ s'.live = update s.live i false ∧
        s'.linked = s.linked ∧ s'.groupLive = s.groupLive) ∨
        (Settled s' ∧ s'.groupLive = (s.groupLive && !s.linked))) := by
  cases hKind : s.kind with
  | race =>
    rcases race_spec canceled n v hWaiting hKind hLive with ⟨s', hRun, hSettled, hLen, hGroup⟩
    exact ⟨s', hRun, hLen, .inr ⟨hSettled, hGroup⟩⟩
  | all => exact all_spec canceled _ v hWaiting hKind hLive

/-
  Freeing the context while a member is not done frees it
  below the loop, which goes on with what is freed.
-/
theorem loop_freed (canceled : V) (n : Nat) (hWaiting : Waiting s)
    (is : List Nat) (hIn : ∀ j, s.live j = true → j ∈ is) :
    is.foldlM (cleanStep (futureCancel canceled (n + 2))) s =
        .error .freed ∨
      ∃ s', is.foldlM (cleanStep (futureCancel canceled (n + 2))) s =
          .ok s' ∧ s'.ctxLive = false := by
  induction is generalizing s with
  | nil =>
    rcases hWaiting.some with ⟨j, hj⟩
    exact absurd (hIn j hj) (by simp)
  | cons i is ih =>
    rw [foldlM_cons]
    unfold cleanStep
    rw [if_pos ⟨hWaiting.ctxLive, hWaiting.futuresLive⟩, hWaiting.futures]
    by_cases hLive : s.live i = true
    · rw [if_pos hLive, futureCancel]
      rcases dispatchMember_spec canceled n canceled hWaiting hLive with ⟨s', hRun, -, hNext⟩
      rw [hRun]
      simp only [bind, Except.bind]
      rcases hNext with ⟨hNext, hLives, -⟩ | ⟨hSettled, -⟩
      · apply ih hNext
        intro j hj
        rw [hLives] at hj
        have hOther : j ≠ i := by
          rintro rfl
          simp at hj
        rw [update_of_ne hOther] at hj
        have := hIn j hj
        simpa [hOther] using this
      · cases is with
        | nil => exact .inr ⟨s', rfl, hSettled.ctxLive⟩
        | cons j is =>
          left
          rw [foldlM_cons]
          simp [hSettled.ctxLive, bind, Except.bind]
    · rw [if_neg hLive]
      simp only [bind, Except.bind]
      apply ih hWaiting
      intro j hj
      have hOther : j ≠ i := by
        rintro rfl
        exact hLive hj
      simpa [hOther] using hIn j hj

/- So the future of the promise cannot be cancelled. -/
theorem groupCancel_freed (canceled : V) (hWaiting : Waiting s) :
    groupCancel canceled s = .error .freed := by
  have hUnlinked : Waiting { s with linked := false } := by
    rcases hWaiting with ⟨h₁, h₂, h₃, h₄, h₅, h₆, h₇, h₈, h₉, h₁₀, h₁₁, h₁₂, h₁₃⟩
    exact ⟨h₁, h₂, h₃, h₄, h₅, h₆, h₇, h₈, h₉, h₁₀, h₁₁, h₁₂, h₁₃⟩
  rcases hWaiting.some with ⟨i, hi⟩
  have hLen := hWaiting.within i hi
  obtain ⟨m, hm⟩ : ∃ m, s.futuresLen + 1 = m + 2 := ⟨s.futuresLen - 1, by omega⟩
  have hIn : ∀ j, s.live j = true →
      j ∈ List.range s.futuresLen := fun j hj => mem_range.mpr (hWaiting.within j hj)
  unfold groupCancel ctxFree baseCtxClean
  rw [hm]
  rcases loop_freed canceled m hUnlinked (List.range s.futuresLen) hIn with hRun | ⟨s', hRun, hCtx⟩
  · simp [hRun, bind, Except.bind]
  · simp [hRun, bind, Except.bind, State.freeFutures, hCtx]

---
-- Runs
---

/- What the members have to do before the promise resolves. -/
def Complete (s : State V) : Prop :=
  match s.kind with
  | .race => ∃ i, i < s.futuresLen ∧ s.live i = false
  | .all => ∀ i, i < s.futuresLen → s.live i = false

/-
  Context and promise are freed once, as soon as the group is
  complete; the promise is resolved when it is freed; and each
  member runs its callback once, before that.
-/
structure Correct (s : State V) : Prop where
  frees : s.ctxFrees = s.promiseFrees
  once : s.ctxFrees ≤ 1
  results : s.results.length = s.promiseFrees
  calls : ∀ i, i < s.futuresLen →
    s.calls i = if s.live i then 0 else 1
  complete : Complete s → s.ctxFrees = 1
  members : s.ctxFrees = 1 → ∀ i, i < s.futuresLen →
    s.calls i = 1

/- A member is left, or all is over. -/
def Between (s : State V) : Prop :=
  (Waiting s ∧ s.linked = s.groupLive) ∨
    (Settled s ∧ s.groupLive = false)

theorem Between.correct (hBetween : Between s) : Correct s := by
  rcases hBetween with ⟨hWaiting, -⟩ | ⟨hSettled, -⟩
  · have hOpen : ¬ Complete s := by
      unfold Complete
      rcases hWaiting.some with ⟨j, hj⟩
      split
      · rename_i hKind
        rintro ⟨i, hi, hDone⟩
        rw [hWaiting.first hKind i hi] at hDone
        simp at hDone
      · intro hAll
        rw [hAll j (hWaiting.within j hj)] at hj
        simp at hj
    refine ⟨?_, ?_, ?_, hWaiting.calls, fun h => absurd h hOpen, ?_⟩
    · rw [hWaiting.ctxFrees, hWaiting.promiseFrees]
    · rw [hWaiting.ctxFrees]
      omega
    · rw [hWaiting.results, hWaiting.promiseFrees]
      rfl
    · rw [hWaiting.ctxFrees]
      simp
  · refine ⟨?_, ?_, ?_, ?_, fun _ => hSettled.ctxFrees, fun _ => hSettled.calls⟩
    · rw [hSettled.ctxFrees, hSettled.promiseFrees]
    · rw [hSettled.ctxFrees]
    · rw [hSettled.results, hSettled.promiseFrees]
    · intro i hi
      rw [hSettled.calls i hi, hSettled.live i]
      rfl

/-
  The future of the promise is not cancelled, also not by a
  second `eina_future_new`.
-/
def Kept (s : State V) : Action V → Prop
  | .settle _ _ => True
  | .cancel _ => True
  | .attach => s.linked = false
  | .cancelGroup => s.groupLive = false

/- One action. -/
theorem step_spec (canceled : V) (a : Action V) (hBetween : Between s) :
    (Kept s a → ∃ s', step canceled s a = .ok s' ∧ Between s') ∧
    (¬ Kept s a → step canceled s a = .error .freed) := by
  have hMember : ∀ n i v, s.live i = true →
      ∃ s', dispatchMember (futureCancel canceled (n + 1)) s i v = .ok s' ∧ Between s' := by
    intro n i v hLive
    rcases hBetween with ⟨hWaiting, hLinked⟩ | ⟨hSettled, -⟩
    · rcases dispatchMember_spec canceled n v hWaiting hLive with ⟨s', hRun, -, hNext⟩
      refine ⟨s', hRun, ?_⟩
      rcases hNext with ⟨hNext, -, hL, hG⟩ | ⟨hDone, hGroup⟩
      · exact .inl ⟨hNext, by rw [hL, hG, hLinked]⟩
      · refine .inr ⟨hDone, ?_⟩
        rw [hGroup, hLinked]
        cases s.groupLive <;> rfl
    · rw [hSettled.live i] at hLive
      simp at hLive
  cases a with
  | settle i v =>
    refine ⟨fun _ => ?_, fun h => absurd trivial h⟩
    by_cases hLive : s.live i = true
    · rw [step, if_pos hLive]
      exact hMember _ i v hLive
    · rw [step, if_neg hLive]
      exact ⟨s, rfl, hBetween⟩
  | cancel i =>
    refine ⟨fun _ => ?_, fun h => absurd trivial h⟩
    by_cases hLive : s.live i = true
    · obtain ⟨m, hm⟩ : ∃ m, s.futuresLen = m + 1 := by
        rcases hBetween with ⟨hWaiting, -⟩ | ⟨hSettled, -⟩
        · have := hWaiting.within i hLive
          exact ⟨s.futuresLen - 1, by omega⟩
        · rw [hSettled.live i] at hLive
          simp at hLive
      rw [step, if_pos hLive, futureCancel, hm]
      exact hMember m i canceled hLive
    · rw [step, if_neg hLive]
      exact ⟨s, rfl, hBetween⟩
  | attach =>
    rw [step]
    rcases hBetween with ⟨hWaiting, hLinked⟩ | ⟨hSettled, hGroup⟩
    · rw [if_pos hWaiting.promiseLive]
      refine ⟨fun hKept => ?_, fun hNot => ?_⟩
      · have hKept : s.linked = false := hKept
        rw [if_neg (by rw [hKept]; decide)]
        refine ⟨_, rfl, .inl ⟨?_, rfl⟩⟩
        rcases hWaiting with ⟨h₁, h₂, h₃, h₄, h₅, h₆, h₇, h₈, h₉, h₁₀, h₁₁, h₁₂, h₁₃⟩
        exact ⟨h₁, h₂, h₃, h₄, h₅, h₆, h₇, h₈, h₉, h₁₀, h₁₁, h₁₂, h₁₃⟩
      · have hNot : ¬ s.linked = false := hNot
        rw [if_pos (by simpa using hNot)]
        exact groupCancel_freed canceled hWaiting
    · rw [if_neg (by rw [hSettled.promiseLive]; decide)]
      exact ⟨fun _ => ⟨s, rfl, .inr ⟨hSettled, hGroup⟩⟩, fun h => absurd hSettled.linked h⟩
  | cancelGroup =>
    rw [step]
    refine ⟨fun hKept => ?_, fun hNot => ?_⟩
    · have hKept : s.groupLive = false := hKept
      rw [if_neg (by rw [hKept]; decide)]
      exact ⟨s, rfl, hBetween⟩
    · have hNot : ¬ s.groupLive = false := hNot
      rcases hBetween with ⟨hWaiting, -⟩ | ⟨-, hGroup⟩
      · rw [if_pos (by simpa using hNot)]
        exact groupCancel_freed canceled hWaiting
      · exact absurd hGroup hNot

/- The actions on a group, one after the other. -/
def runActions (canceled : V) (s : State V)
    (actions : List (Action V)) : Except Fault (State V) :=
  actions.foldlM (step canceled) s

/- No action of a run cancels the future of the promise. -/
def KeptAll (canceled : V) (s : State V) : List (Action V) → Prop :=
  Runs.Guarded (fun s a => (step canceled s a).toOption) Kept s

theorem runActions_iff (actions : List (Action V)) (canceled : V)
    (hBetween : Between s) :
    (∃ s', runActions canceled s actions = .ok s' ∧ Correct s') ↔ KeptAll canceled s actions := by
  induction actions generalizing s with
  | nil => exact ⟨fun _ => trivial, fun _ => ⟨s, rfl, hBetween.correct⟩⟩
  | cons a actions ih =>
    have hSpec := step_spec canceled a hBetween
    unfold runActions
    rw [foldlM_cons]
    by_cases hKept : Kept s a
    · rcases hSpec.1 hKept with ⟨s', hStep, hNext⟩
      rw [hStep]
      have hRest := ih hNext
      constructor
      · intro hRun
        refine ⟨hKept, ?_⟩
        intro s'' hSome
        dsimp only at hSome
        rw [hStep] at hSome
        obtain rfl := Option.some.inj hSome
        exact hRest.mp hRun
      · intro hGuarded
        exact hRest.mpr (hGuarded.2 s' (by
          dsimp only
          rw [hStep]
          rfl))
    · rw [hSpec.2 hKept]
      constructor
      · rintro ⟨s', hRun, -⟩
        simp [bind, Except.bind] at hRun
      · intro hGuarded
        exact absurd hGuarded.1 hKept

/- A group, and what is done to it. -/
def session (kind : Kind) (stub canceled : V) (alloc : Bool) (ends : List Bool)
    (actions : List (Action V)) : Except Fault (State V) := do
  let s ← create kind stub alloc ends
  runActions canceled s actions

/-
  A group of at least one future is handled correctly exactly
  when the allocations succeed, all futures are the ends of
  their chains, and nothing cancels the future of the promise
  before that one is resolved.
-/
theorem group_correct_iff (kind : Kind) (stub canceled : V)
    (alloc : Bool) (ends : List Bool)
    (actions : List (Action V)) (hSome : ends ≠ []) :
    (∃ s, session kind stub canceled alloc ends actions =
        .ok s ∧ Correct s) ↔
      alloc = true ∧ (∀ e ∈ ends, e = true) ∧
        ∀ s, create kind stub alloc ends = .ok s →
          KeptAll canceled s actions := by
  by_cases hMade : alloc = true ∧ ∀ e ∈ ends, e = true
  · have hCreate : ∃ s, create kind stub alloc ends = .ok s ∧
        Between s := by
      unfold create
      rw [if_pos ⟨hMade.1, hSome, hMade.2⟩]
      have hLen := length_pos_iff.mpr hSome
      refine ⟨_, rfl, .inl ⟨⟨rfl, rfl, rfl, rfl, rfl, ?_, ?_,
        rfl, rfl, rfl, ?_, ?_, 0, ?_⟩, rfl⟩⟩
      · intro i hi
        simpa using hi
      · intro i hi
        simp [hi]
      · intro _
        refine (Finset.card_eq_zero.mpr ?_).symm
        refine Finset.filter_eq_empty_iff.mpr ?_
        intro i hi
        simpa using hi
      · intro _ i hi
        simpa using hi
      · simpa using hLen
    rcases hCreate with ⟨s, hCreate, hBetween⟩
    have hIff := runActions_iff actions canceled hBetween
    unfold session
    rw [hCreate]
    constructor
    · intro hRun
      refine ⟨hMade.1, hMade.2, ?_⟩
      intro s' hEq
      obtain rfl := Except.ok.inj hEq
      exact hIff.mp hRun
    · rintro ⟨-, -, hKept⟩
      exact hIff.mpr (hKept s rfl)
  · have hCreate : create kind stub alloc ends =
        futureArrayCancel := by
      unfold create
      rw [if_neg]
      rintro ⟨hAlloc, -, hEnds⟩
      exact hMade ⟨hAlloc, hEnds⟩
    constructor
    · rintro ⟨s, hRun, -⟩
      unfold session at hRun
      rw [hCreate] at hRun
      simp [futureArrayCancel, bind, Except.bind] at hRun
    · rintro ⟨hAlloc, hEnds, -⟩
      exact absurd ⟨hAlloc, hEnds⟩ hMade

/- A race of two futures, the second of which comes first. -/
theorem group_correct_sample :
    (∃ s, session .race 0 1 true [true, true]
        [.attach, .settle 1 5, .settle 0 6] = .ok s ∧
      Correct s) ↔
      true = true ∧ (∀ e ∈ [true, true], e = true) ∧
        ∀ s, create .race 0 true [true, true] = .ok s →
          KeptAll 1 s [.attach, .settle 1 5, .settle 0 6] :=
  group_correct_iff .race 0 1 true [true, true]
    [.attach, .settle 1 5, .settle 0 6] (by decide)

/-
  The future of a race, and that of a group of all, of one
  member is cancelled: the context is used after it was freed.
-/
theorem group_cancelled :
    session .race 0 1 true [true]
        [.attach, .cancelGroup] = .error .freed ∧ session .all 0 1 true
        [true] [.attach, .cancelGroup] = .error .freed := by
  exact ⟨rfl, rfl⟩

end Efl.Eina.Promise.Group
