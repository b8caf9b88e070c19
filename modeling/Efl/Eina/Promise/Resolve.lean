import Efl.Lib.Heap
import Mathlib.Data.List.Nodup
import Mathlib.Data.Finset.Insert

/-
  `eina_promise_resolve`, and what it does when the future of
  the promise cannot be scheduled.

  An access to something that is not allocated, or to NULL, is
  a fault, which is `none`.  Callbacks and schedulers are what
  they return.

  Main declarations:
    * `State`, `Env`
    * `futureCancel`, `futureSchedule`, `promiseDeliver`
    * `resolve_unscheduled`
    * `handled_never`
-/

---
-- Futures and Promises
---

namespace Efl.Eina.Promise.Resolve

inductive Error where
  | canceled
  | noMemory
  | other (code : Int)
  deriving DecidableEq

/- `Eina_Value`, as far as the library looks at it. -/
inductive Value (V P : Type) where
  | plain (v : V)
  | error (e : Error)
  | promise (p : P)
  deriving DecidableEq

/- The callback of a future. -/
inductive Cb (C : Type) where
  | null
  | fn (c : C)
  /- `EINA_FUTURE_DISPATCHED` -/
  | dispatched
  deriving DecidableEq

/- `Eina_Future`; `W` are the variables of the users. -/
structure Future (F P C E W : Type) where
  promise : Option P
  next : Option F
  prev : Option F
  cb : Cb C
  storage : Option W
  scheduledEntry : Option E

/- `Eina_Promise` -/
structure EinaPromise (F S : Type) where
  future : Option F
  scheduler : Option S

/-
  The last fields record the calls of callbacks, the entries
  recalled, the values flushed and the promises cancelled.
-/
structure State (F P C E S V W : Type) where
  futures : Heap F (Future F P C E W)
  promises : Heap P (EinaPromise F S)
  storage : W → Option F
  calls : List (C × Value V P)
  recalled : List E
  flushed : List (Value V P)
  canceled : List P

/- What callbacks and schedulers return. -/
structure Env (F P C E S V : Type) where
  call : C → Value V P → Value V P
  schedule : S → F → Value V P → Option E

section

variable {F P C E S V W : Type}
variable [DecidableEq F] [DecidableEq P]

/- `_eina_future_free` -/
def futureFree (s : State F P C E S V W) (f : F) : Option (State F P C E S V W × Option F) := do
  let n ← s.futures.read f
  let h ← match n.next with
    | some g => s.futures.modify g fun m => { m with prev := none }
    | none => some s.futures
  let h ← match n.prev with
    | some g => h.modify g fun m => { m with next := none }
    | none => some h
  let h ← h.free f
  some ({ s with futures := h }, n.next)

/- `_eina_promise_unlink` -/
def promiseUnlink (s : State F P C E S V W) (p : P) : Option (State F P C E S V W) := do
  let n ← s.promises.read p
  match n.future with
  | none => some s
  | some f => do
    let h ← s.futures.modify f fun m =>
      { m with promise := none }
    let k ← s.promises.modify p fun m =>
      { m with future := none }
    some { s with futures := h, promises := k }

/- `_eina_promise_link` -/
def promiseLink (s : State F P C E S V W) (p : P) (f : F) : Option (State F P C E S V W) := do
  let k ← s.promises.modify p fun m =>
    { m with future := some f }
  let h ← s.futures.modify f fun m => { m with promise := some p }
  some { s with futures := h, promises := k }

def promiseFree (s : State F P C E S V W) (p : P) : Option (State F P C E S V W) := do
  let k ← s.promises.free p
  some { s with promises := k }

/- `_eina_promise_cancel` -/
def promiseCancel (s : State F P C E S V W) (p : P) : Option (State F P C E S V W) := do
  let s ← promiseUnlink s p
  promiseFree { s with canceled := s.canceled ++ [p] } p

/- `eina_value_flush` -/
def valueFlush (s : State F P C E S V W) (v : Value V P) : Option (State F P C E S V W) :=
  let s := { s with flushed := s.flushed ++ [v] }
  match v with
  | .promise p => promiseCancel s p
  | .plain _ => some s
  | .error _ => some s

/- `_eina_promise_value_steal_and_link` with a future -/
def promiseValueStealAndLink (s : State F P C E S V W) (scheduler : Option S) (p : P)
    (f : F) : Option (State F P C E S V W) := do
  let k ← s.promises.modify p fun m =>
    { m with scheduler := m.scheduler.or scheduler }
  promiseLink { s with promises := k } p f

end

---
-- Cancellation
---

section

variable {F P C E S V W : Type}
variable [DecidableEq F] [DecidableEq P]
variable [DecidableEq V] [DecidableEq W]

/- `if (f->storage) *f->storage = NULL` -/
def clearStorage (storage : W → Option F) : Option W → W → Option F
  | some w => Function.update storage w none
  | none => storage

/- `_eina_future_cb_dispatch`, with what the callback returns -/
def cbDispatch (env : Env F P C E S V) (s : State F P C E S V W)
    (f : F) (c : C) (v : Value V P) : Option (State F P C E S V W × Value V P) := do
  let n ← s.futures.read f
  let h ← match n.next with
    | some g => s.futures.modify g fun m => { m with prev := none }
    | none => some s.futures
  let h ← match n.prev with
    | some g => h.modify g fun m => { m with next := none }
    | none => some h
  let h ← h.modify f fun m => { m with cb := .dispatched }
  some
    ({ s with
        futures := h
        storage := clearStorage s.storage n.storage
        calls := s.calls ++ [(c, v)] },
      env.call c v)

/- The first future of a chain; it is not farther than `n`. -/
def rewind (s : State F P C E S V W) : Nat → F → Option F
  | 0, f => do
    let n ← s.futures.read f
    match n.prev with
    | none => some f
    | some _ => none
  | k + 1, f => do
    let n ← s.futures.read f
    match n.prev with
    | none => some f
    | some g =>
      -- The two assertions of the loop.
      if n.promise.isNone ∧ n.scheduledEntry.isNone then
        rewind s k g
      else
        none

/- The last loop of `_eina_future_cancel`, of at most `n` rounds. -/
def cancelLoop (env : Env F P C E S V) (v : Value V P) : Nat → State F P C E S V W → Option F →
      Option (State F P C E S V W)
  | _, s, none => some s
  | 0, _, some _ => none
  | k + 1, s, some f => do
    let n ← s.futures.read f
    match n.cb with
    | .dispatched => some s
    | .null => do
      let (s, next) ← futureFree s f
      cancelLoop env v k s next
    | .fn c => do
      let (s, r) ← cbDispatch env s f c v
      let s ← if v = r then some s else valueFlush s r
      let (s, next) ← futureFree s f
      cancelLoop env v k s next

/- `_eina_future_cancel`; it reads the future before all else. -/
def futureCancel (env : Env F P C E S V) (s : State F P C E S V W) (f : Option F)
    (e : Error) : Option (State F P C E S V W) := do
  let f ← f
  let f ← rewind s s.futures.live.card f
  let n ← s.futures.read f
  let s ← match n.scheduledEntry with
    | some entry => do
      let h ← s.futures.modify f fun m =>
        { m with scheduledEntry := none }
      some
        { s with
          futures := h
          recalled := s.recalled ++ [entry] }
    | none => some s
  let s ← match n.promise with
    | some p => do
      let s ← promiseCancel s p
      let h ← s.futures.modify f fun m =>
        { m with promise := none }
      some { s with futures := h }
    | none => some s
  let s ← cancelLoop env (.error e) s.futures.live.card s (some f)
  valueFlush s (.error e)

/- `_eina_future_schedule` -/
def futureSchedule (env : Env F P C E S V) (s : State F P C E S V W) (p : P) (f : F)
    (v : Value V P) : Option (State F P C E S V W) := do
  let n ← s.promises.read p
  let entry := n.scheduler.bind fun scheduler =>
    env.schedule scheduler f v
  match entry with
  | some entry => do
    let h ← s.futures.modify f fun m =>
      { m with scheduledEntry := some entry }
    some { s with futures := h }
  | none => do
    let s ← futureCancel env s n.future .noMemory
    valueFlush s v

/- `_eina_promise_deliver` -/
def promiseDeliver (env : Env F P C E S V) (s : State F P C E S V W) (p : P)
    (v : Value V P) : Option (State F P C E S V W) := do
  let n ← s.promises.read p
  let s ← match n.future with
    | some f => do
      let s ← promiseUnlink s p
      match v with
      | .promise q => promiseValueStealAndLink s n.scheduler q f
      | .plain v => futureSchedule env s p f (.plain v)
      | .error e => futureSchedule env s p f (.error e)
    | none => valueFlush s v
  promiseFree s p

/- `eina_promise_resolve`, where no promise is NULL -/
def promiseResolve (env : Env F P C E S V) (s : State F P C E S V W) (p : Option P)
    (v : Value V P) : Option (State F P C E S V W) :=
  match p with
  | none => valueFlush s v
  | some p =>
    if p ∈ s.promises.live then
      promiseDeliver env s p v
    else
      valueFlush s v

end

---
-- Chains
---

section

variable {F P C E S V W : Type}

/- The futures from one on, each behind the one before. -/
def Chain (h : Heap F (Future F P C E W)) : Option F → Option F → List F → Prop
  | _, f, [] => f = none
  | before, f, g :: gs =>
    f = some g ∧ g ∈ h.live ∧ (h.node g).prev = before ∧
      (h.node g).cb ≠ .dispatched ∧
      Chain h (some g) (h.node g).next gs

/- The chain `fs` is behind the promise. -/
structure Linked (s : State F P C E S V W) (p : P) (fs : List F) : Prop where
  live : p ∈ s.promises.live
  nonempty : fs ≠ []
  nodup : fs.Nodup
  chain : Chain s.futures none (s.promises.node p).future fs
  promise : ∀ f, (s.promises.node p).future = some f →
    (s.futures.node f).promise = some p

/-
  The promise has a future, and either no scheduler or one
  that fails.
-/
def Unscheduled (env : Env F P C E S V)
    (s : State F P C E S V W) (p : P) (v : Value V P) : Prop :=
  (∀ q, v ≠ .promise q) ∧
    ∀ scheduler f,
      (s.promises.node p).scheduler = some scheduler →
      (s.promises.node p).future = some f →
      env.schedule scheduler f v = none

def Cb.function : Cb C → Option C
  | .null => none
  | .fn c => some c
  | .dispatched => none

/- The callbacks of a chain, in its order. -/
def callbacks (h : Heap F (Future F P C E W)) (fs : List F) : List C :=
  fs.filterMap fun f => (h.node f).cb.function

variable [DecidableEq V] [DecidableEq P]

/-
  Every callback of the chain was called with `ENOMEM`, once;
  the value was flushed, once; and the promise is gone.
-/
structure Handled (s s' : State F P C E S V W) (p : P) (fs : List F) (v : Value V P) : Prop where
  calls : s'.calls = s.calls ++
    (callbacks s.futures fs).map fun c => (c, .error .noMemory)
  flushed : s'.flushed.count v = s.flushed.count v + 1
  freed : p ∉ s'.promises.live

end

---
-- Cancelling a Chain
---

section

variable {F P C E S V W : Type}

theorem Chain.next_live {h : Heap F (Future F P C E W)}
    {before f : Option F} {fs : List F} (hChain : Chain h before f fs) :
    ∀ g, f = some g → g ∈ h.live ∧ g ∈ fs := by
  cases fs with
  | nil =>
    rintro g rfl
    exact nomatch hChain
  | cons k fs =>
    rintro g rfl
    rcases hChain with ⟨hHead, hLive, -⟩
    obtain rfl := Option.some.inj hHead
    exact ⟨hLive, List.mem_cons_self⟩

end

---
-- Failing Schedulers
---

variable {F P C E S V W : Type}
variable [DecidableEq F] [DecidableEq P]

open Option

/- What is left when the promise is unlinked. -/
def unlinked (s : State F P C E S V W) (p : P) (f : F) : State F P C E S V W :=
  { s with
    futures := s.futures.set f
      { s.futures.node f with promise := none }
    promises := s.promises.set p
      { s.promises.node p with future := none } }

theorem promiseUnlink_linked {s : State F P C E S V W} {p : P} {f : F}
    (hLive : p ∈ s.promises.live) (hFuture : (s.promises.node p).future = some f)
    (hAlloc : f ∈ s.futures.live) : promiseUnlink s p = some (unlinked s p f) := by
  simp [unlinked, promiseUnlink, Heap.read_of_mem hLive, hFuture,
    Heap.modify_of_mem _ hAlloc, Heap.modify_of_mem _ hLive]

variable [DecidableEq V] [DecidableEq W]

/-
  `_eina_future_schedule` cancels the future of the promise,
  from which `_eina_promise_deliver` has just unlinked it.
-/
theorem resolve_unscheduled {env : Env F P C E S V} {s : State F P C E S V W}
    {p : P} {v : Value V P} {f : F} (hLive : p ∈ s.promises.live)
    (hFuture : (s.promises.node p).future = some f)
    (hAlloc : f ∈ s.futures.live) (hFails : Unscheduled env s p v) :
    promiseResolve env s (some p) v = none := by
  have hEntry : ((s.promises.node p).scheduler.bind
      fun scheduler => env.schedule scheduler f v) = none := by
    cases hScheduler : (s.promises.node p).scheduler with
    | none => rfl
    | some scheduler => exact hFails.2 scheduler f hScheduler hFuture
  have hSchedule : futureSchedule env (unlinked s p f) p f v = none := by
    have hLive' : p ∈ (unlinked s p f).promises.live := hLive
    have hNode : (unlinked s p f).promises.node p =
        { s.promises.node p with future := none } := Function.update_self ..
    simp only [futureSchedule, Heap.read_of_mem hLive', hNode,
      bind_eq_bind, bind_some, hEntry, futureCancel, bind_none]
  unfold promiseResolve promiseDeliver
  dsimp only
  rw [if_pos hLive, Heap.read_of_mem hLive]
  simp only [bind_eq_bind, bind_some, hFuture, promiseUnlink_linked hLive hFuture hAlloc]
  cases v with
  | promise q => exact absurd rfl (hFails.1 q)
  | plain v =>
    dsimp only
    rw [hSchedule]
    rfl
  | error e =>
    dsimp only
    rw [hSchedule]
    rfl

/-
  The chain of a promise whose future cannot be scheduled is
  never handled: the code uses NULL instead.
-/
theorem handled_never (env : Env F P C E S V) (s : State F P C E S V W)
    (p : P) (fs : List F) (v : Value V P) (hLinked : Linked s p fs)
    (hFails : Unscheduled env s p v) :
    ¬ ∃ s', promiseResolve env s (some p) v = some s' ∧
      Handled s s' p fs v := by
  rintro ⟨s', hRun, -⟩
  obtain ⟨f, hFuture⟩ :
      ∃ f, (s.promises.node p).future = some f := by
    have hChain := hLinked.chain
    cases fs with
    | nil => exact absurd rfl hLinked.nonempty
    | cons f fs => exact ⟨f, hChain.1⟩
  have hAlloc := (hLinked.chain.next_live f hFuture).1
  rw [resolve_unscheduled hLinked.live hFuture hAlloc hFails] at hRun
  exact nomatch hRun

/- Two futures behind a promise that has no scheduler. -/
def sample : State Bool Unit Nat Unit Unit Nat Unit where
  futures :=
    { live := {false, true}
      node := fun f =>
        { promise := if f then none else some ()
          next := if f then none else some true
          prev := if f then some false else none
          cb := .fn (if f then 2 else 1)
          storage := none
          scheduledEntry := none } }
  promises :=
    { live := {()}
      node := fun _ => { future := some false, scheduler := none } }
  storage _ := none
  calls := []
  recalled := []
  flushed := []
  canceled := []

/- Callbacks that return what they get, and no scheduler works. -/
def sampleEnv : Env Bool Unit Nat Unit Unit Nat where
  call _ v := v
  schedule _ _ _ := none

theorem sample_linked : Linked sample () [false, true] where
  live := by decide
  nonempty := by decide
  nodup := by decide
  chain := by simp [sample, Chain]
  promise f hFuture := by
    obtain rfl := some.inj hFuture
    rfl

theorem sample_unscheduled : Unscheduled sampleEnv sample () (.plain 5) :=
  ⟨by simp, fun _ _ _ _ => rfl⟩

theorem handled_never_sample :
    ¬ ∃ s', promiseResolve sampleEnv sample (some ())
        (.plain 5) = some s' ∧
      Handled sample s' () [false, true] (.plain 5) :=
  handled_never sampleEnv sample () [false, true] (.plain 5)
    sample_linked sample_unscheduled

/- Two callbacks wait for an error, but there is a fault. -/
theorem resolve_fault :
    Linked sample () [false, true] ∧
      Unscheduled sampleEnv sample () (.plain 5) ∧
      callbacks sample.futures [false, true] = [1, 2] ∧
      ¬ ∃ s', promiseResolve sampleEnv sample (some ())
          (.plain 5) = some s' ∧
        Handled sample s' () [false, true] (.plain 5) := by
  refine ⟨sample_linked, sample_unscheduled, by decide, ?_⟩
  rintro ⟨s', hRun, -⟩
  have hFault : promiseResolve sampleEnv sample (some ())
      (.plain 5) = none := by
    decide
  rw [hFault] at hRun
  exact nomatch hRun

end Efl.Eina.Promise.Resolve
