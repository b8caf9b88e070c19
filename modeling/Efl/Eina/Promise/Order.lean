import Efl.Eina.Promise.Group
import Mathlib.Data.List.Nodup
import Mathlib.Data.List.Perm.Basic

/-
  In which order the members of a group are dispatched.

  Here the futures behind the members are addresses in the
  array of the context, in which a callback looks for its own,
  and every call of a callback is recorded.

  Main declarations:
    * `State`, `create`
    * `futureUnset`, `raceThenCb`, `allThenCb`
    * `futureUnset_slots`
    * `all_run`
-/

---
-- The Context
---

namespace Efl.Eina.Promise.Order

open Group (Kind Fault Result)

/-
  The context of a group, its promise, and the futures behind
  the members that are not freed.  The last fields record the
  values that callbacks of the members were called with, what
  the promise was resolved with, and what its own future got
  of that.
-/
structure State (F V : Type) where
  kind : Kind
  ctxLive : Bool
  futures : List (Option F)
  futuresLen : Nat
  dispatching : Bool
  values : List V
  processed : Nat
  promiseLive : Bool
  linked : Bool
  live : F → Bool
  delivered : List (F × V)
  results : List (Result V)
  received : List (Result V)

variable {F V : Type} [DecidableEq F]

/-
  A group over futures that are the ends of their chains, and
  whether its promise has got a future.
-/
def create (kind : Kind) (stub : V) (linked : Bool) (members : List F) : State F V where
  kind := kind
  ctxLive := true
  futures := members.map some
  futuresLen := members.length
  dispatching := false
  values :=
    match kind with
    | .all => members.map fun _ => stub
    | .race => []
  processed := 0
  promiseLive := true
  linked := linked
  live := fun f => f ∈ members
  delivered := []
  results := []
  received := []

/- `_future_unset`; the first position is `i`. -/
def futureUnset (deadPtr : F) : Nat → List (Option F) → Option (Nat × List (Option F))
  | _, [] => none
  | i, f :: futures =>
    if f = some deadPtr then
      some (i, none :: futures)
    else
      (futureUnset deadPtr (i + 1) futures).map
        fun (pos, futures) => (pos, f :: futures)

/- `_eina_promise_clean_dispatch` -/
def cleanDispatch (s : State F V) (result : Result V) : Except Fault (State F V) :=
  if s.promiseLive then
    .ok
      { s with
        promiseLive := false
        linked := false
        results := s.results ++ [result]
        received :=
          if s.linked then s.received ++ [result]
          else s.received }
  else
    .error .freed

/- One round of the loop in `_base_ctx_clean`. -/
def cleanStep (cancel : State F V → F → Except Fault (State F V))
    (s : State F V) (i : Nat) : Except Fault (State F V) :=
  if s.ctxLive then
    match s.futures[i]? with
    | some (some f) => cancel s f
    | some none => .ok s
    | none => .error .freed
  else
    .error .freed

/- `_base_ctx_clean`, and the free of the context -/
def ctxFree (cancel : State F V → F → Except Fault (State F V))
    (s : State F V) : Except Fault (State F V) := do
  let s ← (List.range s.futuresLen).foldlM (cleanStep cancel) s
  if s.ctxLive then
    .ok { s with ctxLive := false }
  else
    .error .freed

/- `_race_then_cb` -/
def raceThenCb (cancel : State F V → F → Except Fault (State F V))
    (s : State F V) (deadPtr : F) (v : V) : Except Fault (State F V) :=
  if s.ctxLive then
    match futureUnset deadPtr 0 s.futures with
    | none => .error .assertion
    | some (i, futures) =>
      if s.dispatching then
        .ok { s with futures := futures }
      else do
        let s ← ctxFree cancel
          { s with futures := futures, dispatching := true }
        cleanDispatch s (.race v i)
  else
    .error .freed

/- `_all_then_cb` -/
def allThenCb (cancel : State F V → F → Except Fault (State F V))
    (s : State F V) (deadPtr : F) (v : V) : Except Fault (State F V) :=
  if s.ctxLive then
    match futureUnset deadPtr 0 s.futures with
    | none => .error .assertion
    | some (i, futures) =>
      let s :=
        { s with
          futures := futures
          processed := s.processed + 1
          values := s.values.set i v }
      if s.processed = s.futuresLen then do
        let s ← cleanDispatch s (.all s.values)
        ctxFree cancel { s with values := [] }
      else
        .ok s
  else
    .error .freed

/- The future behind a member runs its callback, and is freed. -/
def dispatch (cancel : State F V → F → Except Fault (State F V))
    (s : State F V) (f : F) (v : V) : Except Fault (State F V) :=
  if s.live f then do
    let s := { s with delivered := s.delivered ++ [(f, v)] }
    let s ← match s.kind with
      | .race => raceThenCb cancel s f v
      | .all => allThenCb cancel s f v
    .ok { s with live := Function.update s.live f false }
  else
    .error .freed

/- `_eina_future_cancel` of the future behind a member. -/
def futureCancel (canceled : V) : Nat → State F V → F → Except Fault (State F V)
  | 0, _, _ => .error .depth
  | n + 1, s, f => dispatch (futureCancel canceled n) s f canceled

/-
  The members are dispatched one after the other; one that was
  cancelled is not dispatched any more.
-/
def run (canceled : V) (deliver : F → V) (s : State F V)
    (order : List F) : Except Fault (State F V) :=
  order.foldlM
    (fun s f =>
      if s.live f then
        dispatch (futureCancel canceled (s.futuresLen + 1)) s f
          (deliver f)
      else
        .ok s)
    s

---
-- The Array of Futures
---

open List

/- The array, when the futures `gone` are unset. -/
def slots (members gone : List F) : List (Option F) :=
  members.map fun f => if f ∈ gone then none else some f

/- The array of values, when the futures `gone` have theirs. -/
def results (stub : V) (deliver : F → V) (members gone : List F) : List V :=
  members.map fun f => if f ∈ gone then deliver f else stub

theorem slots_nil (members : List F) : slots members [] = members.map some := by
  simp [slots]

variable {members gone : List F}

theorem slots_congr {gone' : List F}
    (hSame : ∀ f ∈ members, f ∈ gone ↔ f ∈ gone') : slots members gone = slots members gone' := by
  apply map_congr_left
  intro f hf
  by_cases hGone : f ∈ gone
  · rw [if_pos hGone, if_pos ((hSame f hf).mp hGone)]
  · rw [if_neg hGone, if_neg (fun h => hGone ((hSame f hf).mpr h))]

/- The callback of a member finds its position. -/
theorem futureUnset_slots {f : F} (hNodup : members.Nodup)
    (hMember : f ∈ members) (hNew : f ∉ gone) (i : Nat) :
    futureUnset f i (slots members gone) =
      some (i + members.idxOf f, slots members (gone ++ [f])) := by
  induction members generalizing i with
  | nil => exact nomatch hMember
  | cons g members ih =>
    rcases nodup_cons.mp hNodup with ⟨hOther, hNodup⟩
    by_cases hEq : g = f
    · subst hEq
      have hRest : slots members gone = slots members (gone ++ [g]) := by
        apply slots_congr
        intro k hk
        have : k ≠ g := by
          rintro rfl
          exact hOther hk
        simp [this]
      have hSlots : slots (g :: members) gone = some g :: slots members gone := by
        simp [slots, hNew]
      rw [hSlots, futureUnset, if_pos rfl, hRest]
      simp [slots]
    · have hMember : f ∈ members := (mem_cons.mp hMember).resolve_left (Ne.symm hEq)
      have hSlots : ∀ gone', slots (g :: members) gone' =
          (if g ∈ gone' then none else some g) :: slots members gone' := fun _ => rfl
      have hHead : (if g ∈ gone then none else some g) ≠ some f := by
        split
        · simp
        · simpa using hEq
      rw [hSlots, futureUnset, if_neg hHead, ih hNodup hMember (i + 1), hSlots]
      simp [hEq, idxOf_cons_ne members hEq]
      omega

/- The value of a member is put in its slot. -/
theorem results_set (gone : List F) (f : F) (stub : V)
    (deliver : F → V) (hNodup : members.Nodup) :
    (results stub deliver members gone).set (members.idxOf f)
        (deliver f) = results stub deliver members (gone ++ [f]) := by
  induction members with
  | nil => rfl
  | cons g members ih =>
    rcases nodup_cons.mp hNodup with ⟨hOther, hNodup⟩
    have hResults : ∀ gone',
        results stub deliver (g :: members) gone' =
          (if g ∈ gone' then deliver g else stub) ::
            results stub deliver members gone' := fun _ => rfl
    by_cases hEq : g = f
    · subst hEq
      rw [hResults, hResults, idxOf_cons_self, set_cons_zero]
      congr 1
      · simp
      · apply map_congr_left
        intro k hk
        have : k ≠ g := by
          rintro rfl
          exact hOther hk
        simp [this]
    · rw [hResults, hResults, idxOf_cons_ne members hEq, set_cons_succ, ih hNodup]
      simp [hEq]

---
-- Groups of All
---

/- The members that are not freed, when `gone` are. -/
def alive (members gone : List F) (f : F) : Bool :=
  f ∈ members ∧ f ∉ gone

theorem alive_append (members gone : List F) (f : F) :
    Function.update (alive members gone) f false = alive members (gone ++ [f]) := by
  funext g
  by_cases hEq : g = f
  · subst hEq
    simp [alive]
  · simp [alive, hEq]

/- A group of all, some members of which are done. -/
def waiting (stub : V) (deliver : F → V) (linked : Bool) (members gone : List F) : State F V where
  kind := .all
  ctxLive := true
  futures := slots members gone
  futuresLen := members.length
  dispatching := false
  values := results stub deliver members gone
  processed := gone.length
  promiseLive := true
  linked := linked
  live := alive members gone
  delivered := gone.map fun f => (f, deliver f)
  results := []
  received := []

/- A group of all that is over. -/
def allDone (deliver : F → V) (linked : Bool) (members gone : List F) : State F V where
  kind := .all
  ctxLive := false
  futures := slots members gone
  futuresLen := members.length
  dispatching := false
  values := []
  processed := gone.length
  promiseLive := false
  linked := false
  live := alive members gone
  delivered := gone.map fun f => (f, deliver f)
  results := [.all (members.map deliver)]
  received := if linked then [.all (members.map deliver)] else []

theorem create_all (stub : V) (deliver : F → V) (linked : Bool)
    (members : List F) :
    create .all stub linked members = waiting stub deliver linked members [] := by
  have hLive : (fun f => decide (f ∈ members)) = alive members [] := by
    funext f
    simp [alive]
  simp [create, waiting, slots, results, hLive]

/- A member that is not the last. -/
theorem dispatch_waiting {f : F} (cancel : State F V → F → Except Group.Fault (State F V))
    (stub : V) (deliver : F → V) (linked : Bool)
    (hNodup : members.Nodup) (hMember : f ∈ members) (hNew : f ∉ gone)
    (hMore : gone.length + 1 ≠ members.length) :
    dispatch cancel (waiting stub deliver linked members gone) f
        (deliver f) =
      .ok (waiting stub deliver linked members (gone ++ [f])) := by
  have hLive : alive members gone f = true := by
    simp [alive, hMember, hNew]
  have hUnset := futureUnset_slots hNodup hMember hNew 0
  rw [Nat.zero_add] at hUnset
  have hSet := results_set gone f stub deliver hNodup
  unfold dispatch
  rw [if_pos (show (waiting stub deliver linked members gone).live f = true from hLive)]
  simp only [waiting, allThenCb, if_true, hUnset, if_neg hMore,
    bind, Except.bind, hSet, alive_append, map_append, map_cons,
    map_nil, length_append, length_singleton]

/- Nothing is left to cancel. -/
theorem clean_slots {s : State F V} (cancel : State F V → F → Except Group.Fault (State F V))
    (hCtx : s.ctxLive = true) (hFutures : s.futures = slots members gone)
    (hGone : ∀ f ∈ members, f ∈ gone) (is : List Nat)
    (hIn : ∀ i ∈ is, i < members.length) : is.foldlM (cleanStep cancel) s = .ok s := by
  induction is with
  | nil => rfl
  | cons i is ih =>
    have hLess := hIn i mem_cons_self
    have hNone : s.futures[i]? = some none := by
      rw [hFutures, slots, getElem?_map, getElem?_eq_getElem hLess]
      simp [hGone _ (getElem_mem hLess)]
    have hStep : cleanStep cancel s i = .ok s := by
      simp only [cleanStep, hCtx, if_true, hNone]
    rw [foldlM_cons, hStep]
    exact ih fun j hj => hIn j (mem_cons_of_mem i hj)

/- The last member resolves the promise. -/
theorem dispatch_last {f : F} (cancel : State F V → F → Except Group.Fault (State F V))
    (stub : V) (deliver : F → V) (linked : Bool)
    (hNodup : members.Nodup) (hMember : f ∈ members) (hNew : f ∉ gone)
    (hLast : gone.length + 1 = members.length)
    (hAll : ∀ g ∈ members, g ∈ gone ++ [f]) :
    dispatch cancel (waiting stub deliver linked members gone) f
        (deliver f) = .ok (allDone deliver linked members (gone ++ [f])) := by
  have hLive : alive members gone f = true := by
    simp [alive, hMember, hNew]
  have hUnset := futureUnset_slots hNodup hMember hNew 0
  rw [Nat.zero_add] at hUnset
  have hValues : (results stub deliver members gone).set
          (members.idxOf f) (deliver f) = members.map deliver := by
    rw [results_set gone f stub deliver hNodup]
    apply map_congr_left
    intro g hg
    rw [if_pos (hAll g hg)]
  unfold dispatch
  rw [if_pos (show (waiting stub deliver linked members gone).live f = true from hLive)]
  simp only [waiting, allThenCb, if_true, hUnset, if_pos hLast,
    cleanDispatch, ctxFree, bind, Except.bind, hValues]
  rw [clean_slots cancel rfl rfl hAll _ (fun i hi =>
    mem_range.mp hi)]
  simp [allDone, alive_append]

/- Before the last member nothing is delivered. -/
theorem all_run_before {before : List F} (gone : List F)
    (stub canceled : V) (deliver : F → V) (linked : Bool)
    (hNodup : members.Nodup) (hSub : ∀ f ∈ before, f ∈ members) (hNew : (gone ++ before).Nodup)
    (hLess : (gone ++ before).length < members.length) :
    run canceled deliver (waiting stub deliver linked members gone) before = .ok
        (waiting stub deliver linked members (gone ++ before)) := by
  induction before generalizing gone with
  | nil =>
    rw [append_nil]
    rfl
  | cons f before ih =>
    have hMember := hSub f mem_cons_self
    have hFresh : f ∉ gone := by
      intro hf
      exact (nodup_append.mp hNew).2.2 f hf f mem_cons_self rfl
    have hLive : (waiting stub deliver linked members gone).live f = true := by
      simp [waiting, alive, hMember, hFresh]
    have hMore : gone.length + 1 ≠ members.length := by
      simp only [length_append, length_cons] at hLess
      omega
    unfold run
    rw [foldlM_cons, if_pos hLive, dispatch_waiting _ stub
      deliver linked hNodup hMember hFresh hMore]
    have hNext := ih (gone ++ [f]) (fun g hg => hSub g (mem_cons_of_mem f hg))
      (by simpa using hNew) (by simpa using hLess)
    rw [append_assoc] at hNext
    exact hNext

/- The members of a group of all, in any order. -/
theorem all_run {order : List F} (stub canceled : V) (deliver : F → V)
    (linked : Bool) (hNodup : members.Nodup)
    (hPerm : order.Perm members) (hSome : order ≠ []) :
    run canceled deliver
        (waiting stub deliver linked members []) order =
      .ok (allDone deliver linked members order) := by
  obtain ⟨before, f, rfl⟩ := (eq_nil_or_concat' order).resolve_left hSome
  have hOrder := hPerm.nodup_iff.mpr hNodup
  rcases nodup_append.mp hOrder with ⟨hBefore, -, hApart⟩
  have hNew : f ∉ before := fun hf =>
    hApart f hf f mem_cons_self rfl
  have hMember : f ∈ members := hPerm.mem_iff.mp (by simp)
  have hLast : before.length + 1 = members.length := by
    simpa using hPerm.length_eq
  have hRun := all_run_before [] stub canceled deliver linked hNodup
    (fun g hg => hPerm.mem_iff.mp (mem_append_left [f] hg)) hBefore (by rw [nil_append]; omega)
  rw [nil_append] at hRun
  have hLive : (waiting stub deliver linked members before).live f = true := by
    simp [waiting, alive, hMember, hNew]
  unfold run at hRun ⊢
  rw [foldlM_append, hRun]
  simp only [bind, Except.bind, foldlM_cons, if_pos hLive]
  rw [dispatch_last _ stub deliver linked hNodup hMember hNew
    hLast (fun g hg => hPerm.mem_iff.mpr hg)]
  rfl

---
-- Races
---

/- A race that `first` has won, and the members cancelled. -/
def racing (canceled v : V) (linked : Bool) (members : List F)
    (first : F) (gone : List F) : State F V where
  kind := .race
  ctxLive := true
  futures := slots members (first :: gone)
  futuresLen := members.length
  dispatching := true
  values := []
  processed := 0
  promiseLive := true
  linked := linked
  live := alive members gone
  delivered := (first, v) :: gone.map fun f => (f, canceled)
  results := []
  received := []

/- The members that lose against `first`. -/
def losers (members : List F) (first : F) : List F :=
  members.filter fun f => f ≠ first

/- A race that is over. -/
def raceDone (canceled v : V) (linked : Bool) (members : List F) (first : F) : State F V where
  kind := .race
  ctxLive := false
  futures := slots members (first :: losers members first)
  futuresLen := members.length
  dispatching := true
  values := []
  processed := 0
  promiseLive := false
  linked := false
  live := alive members (losers members first ++ [first])
  delivered :=
    (first, v) ::
      (losers members first).map fun f => (f, canceled)
  results := [.race v (members.idxOf first)]
  received :=
    if linked then [.race v (members.idxOf first)] else []

/- A member that has lost is cancelled. -/
theorem cancel_racing {first f : F} (canceled v : V) (linked : Bool)
    (n : Nat) (hNodup : members.Nodup) (hMember : f ∈ members)
    (hNew : f ∉ first :: gone) :
    futureCancel canceled (n + 1)
        (racing canceled v linked members first gone) f =
      .ok (racing canceled v linked members first (gone ++ [f])) := by
  have hLive : alive members gone f = true := by
    simp only [mem_cons, not_or] at hNew
    simp [alive, hMember, hNew.2]
  have hUnset := futureUnset_slots hNodup hMember hNew 0
  rw [cons_append] at hUnset
  unfold futureCancel dispatch
  rw [if_pos (show (racing canceled v linked members first gone).live f = true from hLive)]
  simp only [racing, raceThenCb, if_true, hUnset, bind, Except.bind,
    alive_append, cons_append, map_append, map_cons, map_nil]

/- The loop cancels each member that has lost. -/
theorem clean_racing (first : F) (canceled v : V) (linked : Bool)
    (n : Nat) (hNodup : members.Nodup) (after : List F) :
    ∀ before : List F,
      members = before ++ after →
      (List.range' before.length after.length).foldlM (cleanStep (futureCancel canceled (n + 1)))
          (racing canceled v linked members first
            (losers before first)) =
        .ok (racing canceled v linked members first (losers members first)) := by
  induction after with
  | nil =>
    intro before hSplit
    rw [append_nil] at hSplit
    rw [hSplit]
    rfl
  | cons f after ih =>
    intro before hSplit
    have hNext := ih (before ++ [f]) (by simpa using hSplit)
    have hApart := hNodup
    rw [hSplit, nodup_append] at hApart
    have hNew : f ∉ before := fun hf =>
      hApart.2.2 f hf f mem_cons_self rfl
    have hAt : members[before.length]? = some f := by
      rw [hSplit]
      simp
    have hStep : cleanStep (futureCancel canceled (n + 1)) (racing canceled v linked members first
      (losers before first)) before.length =
        .ok (racing canceled v linked members first (losers (before ++ [f]) first)) := by
      by_cases hFirst : f = first
      · have hSlot : (slots members
            (first :: losers before first))[before.length]? = some none := by
          simp [slots, hAt, hFirst]
        have hSame : losers (before ++ [f]) first = losers before first := by
          simp [losers, hFirst]
        rw [hSame]
        simp only [cleanStep, racing, if_true, hSlot]
      · have hOther : f ∉ first :: losers before first := by
          simp [losers, hFirst, hNew]
        have hSlot : (slots members
            (first :: losers before first))[before.length]? = some (some f) := by
          simp only [slots, getElem?_map, hAt, Option.map_some, if_neg hOther]
        have hMore : losers (before ++ [f]) first = losers before first ++ [f] := by
          simp [losers, hFirst]
        have hMember : f ∈ members := by
          rw [hSplit]
          simp
        rw [hMore, ← cancel_racing canceled v linked n hNodup hMember hOther]
        unfold cleanStep
        rw [if_pos (show (racing canceled v linked members first
          (losers before first)).ctxLive = true from rfl)]
        simp only [racing, hSlot]
    rw [length_cons, List.range'_succ, foldlM_cons, hStep]
    rw [length_append, length_singleton] at hNext
    exact hNext

/- The first member that is dispatched wins. -/
theorem dispatch_race {first : F} (stub canceled v : V)
    (linked : Bool) (n : Nat) (hNodup : members.Nodup)
    (hMember : first ∈ members) :
    dispatch (futureCancel canceled (n + 1))
        (create .race stub linked members) first v =
      .ok (raceDone canceled v linked members first) := by
  have hUnset := futureUnset_slots hNodup hMember (not_mem_nil (a := first)) 0
  rw [slots_nil, nil_append, Nat.zero_add] at hUnset
  have hLive : (create (V := V) .race stub linked members).live first = true := by
    simpa [create] using hMember
  have hAlive : (fun f => decide (f ∈ members)) = alive members [] := by
    funext f
    simp [alive]
  have hLoop := clean_racing first canceled v linked n hNodup members [] rfl
  rw [length_nil, ← range_eq_range'] at hLoop
  unfold dispatch
  rw [if_pos hLive]
  simp only [create, raceThenCb, if_true, hUnset, hAlive,
    Bool.false_eq_true, if_false, ctxFree, bind, Except.bind, nil_append]
  have hStart : racing canceled v linked members first
      (losers [] first) =
    { kind := .race
      ctxLive := true
      futures := slots members [first]
      futuresLen := members.length
      dispatching := true
      values := []
      processed := 0
      promiseLive := true
      linked := linked
      live := alive members []
      delivered := [(first, v)]
      results := []
      received := [] } := rfl
  rw [← hStart, hLoop]
  simp [racing, raceDone, cleanDispatch, alive_append]

/- Who is dispatched later is gone. -/
theorem race_run {rest : List F} {first : F} (stub canceled : V)
    (deliver : F → V) (linked : Bool) (hNodup : members.Nodup)
    (hMember : first ∈ members) :
    run canceled deliver (create .race stub linked members) (first :: rest) = .ok
        (raceDone canceled (deliver first) linked members first) := by
  have hLive : (create (V := V) .race stub linked members).live first = true := by
    simpa [create] using hMember
  have hGone : ∀ f, (raceDone canceled (deliver first) linked members first).live f = false := by
    intro f
    by_cases hEq : f = first
    · simp [raceDone, alive, hEq]
    · simp [raceDone, alive, losers, hEq]
  unfold run
  rw [foldlM_cons, if_pos hLive, dispatch_race stub canceled _ linked _ hNodup hMember]
  induction rest with
  | nil => rfl
  | cons f rest ih =>
    simp only [bind, Except.bind, foldlM_cons, hGone, Bool.false_eq_true, if_false] at ih ⊢
    exact ih

---
-- Any Order
---

/-
  The promise is resolved with `result`, once, and its future
  gets that.
-/
def Resolved (s : State F V) (linked : Bool) (result : Group.Result V) : Prop :=
  s.results = [result] ∧
    s.received = if linked then [result] else []

/-
  In whichever order the members are dispatched, a group of
  all is resolved after the last one, with the values in the
  order of the array; and a race is resolved with the first
  one, when all others have been cancelled.
-/
theorem dispatch_order (stub canceled : V) (deliver : F → V)
    (linked : Bool) (members order : List F) (hSome : members ≠ [])
    (hNodup : members.Nodup) (hPerm : order.Perm members) :
    (∃ s, run canceled deliver (create .all stub linked members)
        order = .ok s ∧ Resolved s linked (.all (members.map deliver)) ∧
        s.delivered = order.map fun f => (f, deliver f)) ∧
    (∀ before after, order = before ++ after → after ≠ [] → ∃ s,
      run canceled deliver (create .all stub linked members) before =
      .ok s ∧ s.results = [] ∧ s.received = []) ∧
    ∀ first rest, order = first :: rest →
      ∃ s, run canceled deliver
          (create .race stub linked members) [first] = .ok s ∧
        run canceled deliver (create .race stub linked members)
          order = .ok s ∧
        Resolved s linked
          (.race (deliver first) (members.idxOf first)) ∧
        s.delivered = (first, deliver first) :: (members.filter fun f =>
          f ≠ first).map fun f => (f, canceled) := by
  refine ⟨?_, ?_, ?_⟩
  · refine ⟨allDone deliver linked members order, ?_, ⟨rfl, rfl⟩, rfl⟩
    rw [create_all stub deliver]
    apply all_run stub canceled deliver linked hNodup hPerm
    rintro rfl
    exact hSome hPerm.nil_eq.symm
  · rintro before after rfl hAfter
    refine ⟨waiting stub deliver linked members before, ?_, rfl,
      rfl⟩
    rw [create_all stub deliver]
    have hOrder := hPerm.nodup_iff.mpr hNodup
    have hLess := length_pos_iff.mpr hAfter
    have hLength := hPerm.length_eq
    rw [length_append] at hLength
    apply all_run_before [] stub canceled deliver linked hNodup
    · intro f hf
      exact hPerm.mem_iff.mp (mem_append_left after hf)
    · exact (nodup_append.mp hOrder).1
    · rw [nil_append]
      omega
  · rintro first rest rfl
    have hMember : first ∈ members :=
      hPerm.mem_iff.mp mem_cons_self
    refine ⟨raceDone canceled (deliver first) linked members
      first, ?_, ?_, ⟨rfl, rfl⟩, rfl⟩
    · exact race_run stub canceled deliver linked hNodup hMember
    · exact race_run stub canceled deliver linked hNodup hMember

/- Three futures; the last one is the first to be dispatched. -/
theorem dispatch_order_sample :
    (∃ s, run 9 (fun f => 10 * f) (create .all 0 true [1, 2, 3]) [3, 1,
        2] = .ok s ∧ Resolved s true (.all [10, 20, 30]) ∧
        s.delivered = [(3, 30), (1, 10), (2, 20)]) ∧
    ∃ s, run 9 (fun f => 10 * f)
        (create .race 0 true [1, 2, 3]) [3] = .ok s ∧
      run 9 (fun f => 10 * f)
        (create .race 0 true [1, 2, 3]) [3, 1, 2] = .ok s ∧
      Resolved s true (.race 30 2) ∧
      s.delivered = [(3, 30), (1, 9), (2, 9)] := by
  have hOrder := dispatch_order 0 9 (fun f => 10 * f) true
    [1, 2, 3] [3, 1, 2] (by decide) (by decide) (by decide)
  exact ⟨hOrder.1, hOrder.2.2 3 [1, 2] rfl⟩

end Efl.Eina.Promise.Order
