import Mathlib.Data.List.Basic
import Mathlib.Logic.Function.Basic

/-
  The scheduler of futures on a loop, `ecore_events.c`.

  An entry is an address in the pool of entries; a dispatch
  that has not returned holds a list of its own on the C
  stack, and dispatches nest when a callback runs the loop.
  The callbacks are whatever steps happen between the call
  and the return.  There is one loop.

  Entries and dispatches are numbered, which they are not in
  the code, and what happens to an entry is noted in a log.

  Main declarations:
    * `Entry`, `Frame`, `Sched`, `Note`
    * `schedule`, `futureRecall`, `dispatch`, `advance`
-/

---
-- The State
---

namespace Efl.Ecore.Future

/- `Ecore_Future_Schedule_Entry` -/
structure Entry (C F V : Type) where
  cb : C
  future : F
  value : V
  serial : Nat
  deriving DecidableEq

/- A call of `_future_dispatch_cb` -/
structure Frame (A : Type) where
  number : Nat
  running : Option A
  entries : List A

/- What happens to an entry -/
inductive Note (C F V : Type) where
  | scheduled (entry : Entry C F V)
  | recalled (serial : Nat)
  | called (dispatch : Nat) (entry : Entry C F V)
  | flushed (serial : Nat) (value : V)
  | freed (serial : Nat)
  deriving DecidableEq

/-
  `Efl_Loop_Future_Scheduler`, the pool of entries and the
  dispatches that have not returned, the last one first.
  `handlers` is how often `ecore_future_callbacks` are on the
  loop.
-/
structure Sched (A C F V : Type) where
  futureEntries : List A
  handlers : Nat
  shuttingDown : Bool
  memory : A → Option (Entry C F V)
  frames : List (Frame A)
  scheduled : Nat
  dispatches : Nat
  log : List (Note C F V)

section

variable {A C F V : Type}

def Sched.start : Sched A C F V where
  futureEntries := []
  handlers := 0
  shuttingDown := false
  memory := fun _ => none
  frames := []
  scheduled := 0
  dispatches := 0
  log := []

end

---
-- Operations
---

open Function
variable {A C F V : Type} [DecidableEq A]

/-
  `ecore_future_schedule`, with what `eina_mempool_malloc`
  gives
-/
def schedule (s : Sched A C F V) (malloc : Option A)
    (cb : C) (future : F) (value : V) : Sched A C F V :=
  match malloc with
  | none => s
  | some a =>
    let entry : Entry C F V :=
      { cb, future, value, serial := s.scheduled }
    { s with
      memory := update s.memory a (some entry)
      handlers :=
        if s.futureEntries = [] then s.handlers + 1
        else s.handlers
      futureEntries := s.futureEntries ++ [a]
      scheduled := s.scheduled + 1
      log := s.log ++ [.scheduled entry] }

/- `ecore_future_recall`; a freed entry is not read. -/
def futureRecall (s : Sched A C F V) (a : A) : Option (Sched A C F V) :=
  if s.shuttingDown then
    some s
  else do
    let entry ← s.memory a
    if a ∈ s.futureEntries then
      let rest := s.futureEntries.erase a
      some
        { s with
          futureEntries := rest
          handlers :=
            if rest = [] then s.handlers - 1 else s.handlers
          memory := update s.memory a none
          log := s.log ++
            [.flushed entry.serial entry.value,
              .freed entry.serial] }
    else
      some s

/- `_future_dispatch_cb`, up to its loop -/
def dispatch (s : Sched A C F V) : Sched A C F V :=
  { s with
    futureEntries := []
    handlers := s.handlers - 1
    frames :=
      { number := s.dispatches
        running := none
        entries := s.futureEntries } :: s.frames
    dispatches := s.dispatches + 1 }

/-
  The loop of the last dispatch goes on: a callback returns
  and its entry is freed, the next one is called, or there is
  none.
-/
def advance (s : Sched A C F V) : Option (Sched A C F V) :=
  match s.frames with
  | [] => none
  | f :: frames =>
    match f.running, f.entries with
    | some a, _ => do
      let entry ← s.memory a
      some
        { s with
          memory := update s.memory a none
          frames := { f with running := none } :: frames
          log := s.log ++ [.freed entry.serial] }
    | none, a :: rest => do
      let entry ← s.memory a
      some
        { s with
          frames :=
            { f with running := some a, entries := rest }
              :: frames
          log := s.log ++ [.called f.number entry] }
    | none, [] => some { s with frames := frames }

/- `_ecore_event_shutdown` -/
def shutdown (s : Sched A C F V) : Sched A C F V :=
  { s with shuttingDown := true }

end Efl.Ecore.Future
