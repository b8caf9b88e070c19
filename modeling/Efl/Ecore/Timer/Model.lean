import Efl.Eina.Inlist.Moves
import Mathlib.Algebra.Order.Group.Defs

/-
  The timers of a loop, `ecore_timer.c`.

  Times are elements of any ordered group.  Walks along the
  lists get as many rounds as there are timers; one that runs
  out of them, and a call on a timer that is gone, is `none`.
  A timer has its parent until it is deleted.

  Main declarations:
    * `Timer`, `Loop`
    * `loopClear`, `instanciate`, `timerSet`, `reschedule`
-/

---
-- Timers
---

namespace Efl.Ecore.Timer

open Eina

/-
  `struct _Efl_Loop_Timer_Data`, and of its object the freeze
  count of its events and whether it is invalidated
-/
structure Data (K : Type) where
  inTime : K
  atTime : K
  pending : K
  listening : Nat
  justAdded : Bool
  frozen : Bool
  initialized : Bool
  freezeCount : Nat
  invalidated : Bool

/- What `Efl_Loop_Data` has of timers, and the clocks -/
structure Loop (K : Type) where
  nodes : Inlist.Memory Nat
  timer : Nat → Data K
  created : Nat
  timers : Option Nat
  suspended : Option Nat
  timerCurrent : Option Nat
  timersAdded : Bool
  lastCheck : K
  time : K
  loopTime : K

variable {K : Type}

def Loop.update (l : Loop K) (n : Nat) (f : Data K → Data K) : Loop K :=
  { l with timer := Function.update l.timer n (f (l.timer n)) }

/- A new object -/
def Loop.create (l : Loop K) (t : Data K) : Loop K :=
  { l with
    created := l.created + 1
    nodes := Function.update l.nodes l.created ⟨none, none, none⟩
    timer := Function.update l.timer l.created t }

/- A timer that was added and not deleted -/
def Loop.live (l : Loop K) (n : Nat) : Bool :=
  n < l.created ∧ ¬ (l.timer n).invalidated

---
-- Walks
---

/- `eina_inlist_first` -/
def firstFrom (nodes : Inlist.Memory Nat) : (rounds n : Nat) → Option Nat
  | rounds, n =>
    match (nodes n).prev with
    | none => some n
    | some prev =>
      match rounds with
      | 0 => none
      | rounds + 1 => firstFrom nodes rounds prev

/- The timers that `EINA_INLIST_FOREACH` goes over -/
def listFrom (nodes : Inlist.Memory Nat) : (rounds : Nat) → Option Nat → Option (List Nat)
  | _, none => some []
  | 0, some _ => none
  | rounds + 1, some n =>
    (listFrom nodes rounds (nodes n).next).map (n :: ·)

variable [LinearOrder K]

/-
  The `EINA_INLIST_REVERSE_FOREACH` of the insertion: the
  first timer that expires before `at'`, if there is one
-/
def placeFrom (l : Loop K) (at' : K) : (rounds : Nat) → Option Nat → Option (Option Nat)
  | _, none => some none
  | 0, some _ => none
  | rounds + 1, some t2 =>
    if (l.timer t2).atTime < at' then
      some (some t2)
    else
      placeFrom l at' rounds (l.nodes t2).prev

---
-- Lists
---

def removeTimer (l : Loop K) (n : Nat) : Loop K :=
  let (nodes, timers) := Inlist.remove l.nodes l.timers n
  { l with nodes := nodes, timers := timers }

def removeSuspended (l : Loop K) (n : Nat) : Loop K :=
  let (nodes, suspended) :=
    Inlist.remove l.nodes l.suspended n
  { l with nodes := nodes, suspended := suspended }

def prependSuspended (l : Loop K) (n : Nat) : Loop K :=
  let (nodes, list) := Inlist.prepend l.nodes l.suspended n
  { l with nodes := nodes, suspended := some list }

/- "Remove the timer from all possible pending list" -/
def unlink (l : Loop K) (n : Nat) : Option (Loop K) :=
  (firstFrom l.nodes l.created n).map fun first =>
    if some first = l.timers then removeTimer l n
    else if some first = l.suspended then removeSuspended l n
    else l

/- "Check if we are the current timer, if so move along" -/
def moveAlong (l : Loop K) (n : Nat) : Loop K :=
  if l.timerCurrent = some n then
    { l with timerCurrent := (l.nodes n).next }
  else
    l

/- `_efl_loop_timer_util_loop_clear` -/
def loopClear (l : Loop K) (n : Nat) : Option (Loop K) :=
  unlink (moveAlong l n) n

/- A timer joins `loop->timers`. -/
def insertTimer (l : Loop K) (n : Nat) : Option (Loop K) :=
  match placeFrom l (l.timer n).atTime l.created
      (l.timers.bind fun list => (l.nodes list).last) with
  | none => none
  | some none =>
    let (nodes, list) := Inlist.prepend l.nodes l.timers n
    some { l with nodes := nodes, timers := some list }
  | some (some t2) =>
    (Inlist.appendRelative l.nodes l.created l.timers n
      (some t2)).map fun (nodes, list) =>
        { l with nodes := nodes, timers := some list }

variable [AddCommGroup K]

/- Whether a timer is kept in `loop->suspended` -/
def Data.idle (t : Data K) : Bool :=
  t.listening = 0 ∨ t.frozen ∨ t.atTime ≤ 0 ∨ t.inTime < 0

/- `_efl_loop_timer_util_instanciate` -/
def instanciate (l : Loop K) (n : Nat) : Option (Loop K) :=
  (loopClear l n).bind fun l =>
    if (l.timer n).idle then some (prependSuspended l n)
    else if (l.timer n).initialized then insertTimer l n
    else some l

/- `_efl_loop_timer_set`, up to the instantiation -/
def Data.set (at' in' : K) (t : Data K) : Data K :=
  let t := { t with
    inTime := in', justAdded := true, initialized := true }
  if t.frozen then t
  else { t with atTime := at', pending := 0 }

/- `_efl_loop_timer_set` -/
def timerSet (l : Loop K) (n : Nat) (at' in' : K) : Option (Loop K) :=
  instanciate
    ({ l with timersAdded := true }.update n (Data.set at' in'))
    n

---
-- Calls on a Timer
---

/-
  `ecore_timer_add` and `_efl_loop_timer_efl_object_finalize`;
  `at` is zero in a new object.
-/
def timerAdd (l : Loop K) (listening : Nat) (in' : K) : Option (Loop K) :=
  let n := l.created
  let in' := if in' < 0 then 0 else in'
  let at' := if 0 < l.loopTime then l.time + in' else 0 + in'
  timerSet
    (l.create
      { inTime := in', atTime := at', pending := 0
        listening := listening, justAdded := false
        frozen := false, initialized := true
        freezeCount := 0, invalidated := false })
    n at' in'

/- `_efl_loop_timer_timer_interval_set` -/
def intervalSet (l : Loop K) (n : Nat) (in' : K) : Loop K :=
  l.update n fun t =>
    { t with inTime := if in' < 0 then 0 else in' }

/- `_efl_loop_timer_util_delay` -/
def delay (l : Loop K) (n : Nat) (add : K) : Option (Loop K) :=
  let t := l.timer n
  if ¬ t.initialized then some l
  else if t.frozen then
    some (l.update n fun t =>
      { t with pending := t.pending + add })
  else
    timerSet l n (t.atTime + add) t.inTime

/-
  `_efl_loop_timer_timer_reset` and
  `_efl_loop_timer_timer_loop_reset`, by their clocks
-/
def reset (l : Loop K) (n : Nat) (now : K) : Option (Loop K) :=
  let t := l.timer n
  if l.timerCurrent = some n then some l
  else if ¬ t.initialized then
    some (l.update n fun t => { t with atTime := now })
  else
    delay l n
      (t.inTime - if t.frozen then t.pending else t.atTime - now)

/- `_efl_loop_timer_efl_object_event_freeze` -/
def eventFreeze (l : Loop K) (n : Nat) : Option (Loop K) :=
  let l := l.update n fun t =>
    { t with freezeCount := t.freezeCount + 1 }
  if (l.timer n).frozen then some l
  else
    instanciate
      (l.update n fun t =>
        { t with
          pending :=
            if t.initialized then t.atTime - l.loopTime else 0
          atTime := 0
          frozen := true })
      n

/- `_efl_loop_timer_efl_object_event_thaw` -/
def eventThaw (l : Loop K) (n : Nat) : Option (Loop K) :=
  let l := l.update n fun t =>
    { t with freezeCount := t.freezeCount - 1 }
  if ¬ (l.timer n).frozen then some l
  else
    let l := removeSuspended
      (l.update n fun t => { t with frozen := false }) n
    timerSet l n ((l.timer n).pending + l.time)
      (l.timer n).inTime

/- `_efl_loop_timer_efl_object_destructor` -/
def destructor (l : Loop K) (n : Nat) : Option (Loop K) :=
  loopClear l n

/-
  `efl_del`: `_efl_loop_timer_efl_object_parent_set` of an
  invalidated timer, and the destructor, unless the timer is
  held by a pass that called it
-/
def timerDel (l : Loop K) (n : Nat) (held : Bool) : Option (Loop K) :=
  (unlink (l.update n fun t => { t with invalidated := true })
    n).bind fun l => if held then some l else destructor l n

/- Every timer in `loop->timers` is changed. -/
def mapTimers (l : Loop K) (f : Data K → Data K) : Option (Loop K) :=
  (listFrom l.nodes l.created l.timers).map fun ns =>
    { l with
      timer := fun n =>
        if n ∈ ns then f (l.timer n) else l.timer n }

/- `_efl_loop_timer_enable_new` -/
def enableNew (l : Loop K) : Option (Loop K) :=
  if l.timersAdded then
    mapTimers { l with timersAdded := false } fun t =>
      { t with justAdded := false }
  else
    some l

/- `_efl_loop_timer_reschedule`; `hang` are the 15 seconds. -/
def reschedule (hang : K) (l : Loop K) (n : Nat) (when' : K) : Option (Loop K) :=
  let t := l.timer n
  if t.frozen ∨ t.invalidated then some l
  else
    let l :=
      if ((l.nodes n).next ≠ none ∨ (l.nodes n).prev ≠ none) ∧
          l.timers ≠ none then
        removeTimer l n
      else
        l
    if t.atTime + t.inTime < when' - hang then
      timerSet l n (when' + t.inTime) t.inTime
    else
      timerSet l n (t.atTime + t.inTime) t.inTime

---
-- Operations
---

/- What is called between passes and by callbacks -/
inductive Op (K : Type) where
  | add (listening : Nat) (in' : K)
  | intervalSet (n : Nat) (in' : K)
  | delay (n : Nat) (add : K)
  | reset (n : Nat)
  | loopReset (n : Nat)
  | freeze (n : Nat)
  | thaw (n : Nat)
  | del (n : Nat)
  | clock (time loopTime : K)
  | enableNew

/- The timer that is called, if it is one -/
def Op.timer : Op K → Option Nat
  | .intervalSet n _ => some n
  | .delay n _ => some n
  | .reset n => some n
  | .loopReset n => some n
  | .freeze n => some n
  | .thaw n => some n
  | .del n => some n
  | _ => none

/- The call, where `held` are the timers that passes hold -/
def call (l : Loop K) (held : List Nat) : Op K → Option (Loop K)
  | .add listening in' => timerAdd l listening in'
  | .intervalSet n in' => some (intervalSet l n in')
  | .delay n add => delay l n add
  | .reset n => reset l n l.time
  | .loopReset n => reset l n l.loopTime
  | .freeze n => eventFreeze l n
  | .thaw n => eventThaw l n
  | .del n => timerDel l n (held.contains n)
  | .clock time loopTime =>
    some { l with time := time, loopTime := loopTime }
  | .enableNew => enableNew l

/- Calls are on timers that were not deleted. -/
def apply (l : Loop K) (held : List Nat) (op : Op K) : Option (Loop K) :=
  if op.timer.all l.live then call l held op else none

---
-- Passes
---

/- A call of `_efl_loop_timer_expired_call` that ticks -/
structure Frame (K : Type) where
  timer : Nat
  when' : K

/-
  The callbacks that run, the innermost first, whether the
  loop of a pass is at its next timer, and the ticks since
  the outermost pass began
-/
structure Machine (K : Type) where
  loop : Loop K
  frames : List (Frame K)
  walking : Option K
  ticks : List Nat

inductive Input (K : Type) where
  | op (op : Op K)
  | pass (when' : K)
  | walk
  | ret

/- "User set time backwards" -/
def checkTime (l : Loop K) (when' : K) : Option (Loop K) :=
  (if when' < l.lastCheck then
    mapTimers l fun t =>
      { t with atTime := t.atTime - (l.lastCheck - when') }
  else
    some l).map fun l => { l with lastCheck := when' }

/- `_efl_loop_timer_expired_call`, up to its loop -/
def passStart (hang : K) (l : Loop K) (when' : K) : Option (Loop K) :=
  (checkTime l when').bind fun l =>
    match l.timerCurrent with
    | none => some { l with timerCurrent := l.timers }
    | some timerOld =>
      reschedule hang
        { l with timerCurrent := (l.nodes timerOld).next }
        timerOld when'

/- The current timer moves on behind a tick. -/
def moveOn (l : Loop K) : Loop K :=
  match l.timerCurrent with
  | none => l
  | some timer => { l with timerCurrent := (l.nodes timer).next }

/- What follows a tick, with the last `efl_unref` -/
def tickEnd (hang : K) (l : Loop K) (timer : Nat) (when' : K) (held : Bool) : Option (Loop K) :=
  (reschedule hang (moveOn l) timer when').bind fun l =>
    if (l.timer timer).invalidated ∧ ¬ held then
      destructor l timer
    else
      some l

/- The timers that passes hold a reference on -/
def Machine.held (s : Machine K) : List Nat :=
  s.frames.map Frame.timer

/- A round of the loop of a pass, or its end -/
def walk (hang : K) (s : Machine K) (when' : K) : Option (Machine K) :=
  match s.loop.timerCurrent with
  | none => some { s with walking := none }
  | some timer =>
    let t := s.loop.timer timer
    if when' < t.atTime then
      some { s with
        loop := { s.loop with timerCurrent := none }
        walking := none }
    else if t.justAdded then
      some { s with loop := moveOn s.loop }
    else if t.freezeCount = 0 ∧ t.listening ≠ 0 then
      some { s with
        frames := ⟨timer, when'⟩ :: s.frames
        walking := none
        ticks := s.ticks ++ [timer] }
    else
      (tickEnd hang s.loop timer when'
        (s.held.contains timer)).map fun l =>
          { s with loop := l }

/- A callback returns to the loop of its pass. -/
def tickReturn (hang : K) (s : Machine K) : Option (Machine K) :=
  match s.frames with
  | [] => none
  | f :: frames =>
    (tickEnd hang s.loop f.timer f.when'
      ((frames.map Frame.timer).contains f.timer)).map
        fun l =>
          { s with
            loop := l
            frames := frames
            walking := some f.when' }

/- `_efl_loop_timer_expired_call` is called. -/
def pass (hang : K) (s : Machine K) (when' : K) : Option (Machine K) :=
  let ticks := if s.frames.isEmpty then [] else s.ticks
  if s.loop.timers = none then
    some { s with ticks := ticks }
  else
    (passStart hang s.loop when').map fun l =>
      { s with
        loop := l
        walking := some when'
        ticks := ticks }

def step (hang : K) (s : Machine K) : Input K → Option (Machine K)
  | .op op =>
    if s.walking.isSome then none
    else
      (apply s.loop s.held op).map fun l =>
        { s with loop := l }
  | .pass when' => if s.walking.isSome then none else pass hang s when'
  | .walk => s.walking.bind (walk hang s)
  | .ret => if s.walking.isSome then none else tickReturn hang s

/- A loop without timers -/
def Machine.new (time loopTime : K) : Machine K where
  loop := {
    nodes := fun _ => ⟨none, none, none⟩
    timer := fun _ =>
      { inTime := 0, atTime := 0, pending := 0, listening := 0
        justAdded := false, frozen := false
        initialized := false, freezeCount := 0
        invalidated := false }
    created := 0
    timers := none
    suspended := none
    timerCurrent := none
    timersAdded := false
    lastCheck := 0
    time := time
    loopTime := loopTime }
  frames := []
  walking := none
  ticks := []

end Efl.Ecore.Timer
