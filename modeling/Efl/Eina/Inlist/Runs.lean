import Efl.Eina.Inlist.Moves

/-
  Runs of the calls on an inlist, and what an accessor then
  reads in it.

  Main declarations:
    * `Call`, `call`, `Call.apply`, `run_holds`
    * `Accessor`, `getAt`, `getAt_spec`
    * `reads_after_run`
-/

---
-- Runs
---

namespace Efl.Eina.Inlist

open List

/- A call that takes the list and returns it -/
inductive Call (N : Type) where
  | append (newL : N)
  | prepend (newL : N)
  | appendRelative (newL relative : N)
  | prependRelative (newL relative : N)
  | remove (item : N)
  | promote (item : N)
  | demote (item : N)

/- The links, and the list that the last call has returned -/
structure State (N : Type) where
  mem : Memory N
  list : Option N

variable {N : Type}

section

variable [DecidableEq N]

def call (fuel : Nat) (s : State N) : Call N → Option (State N)
  | .append newL =>
    (append s.mem fuel s.list newL).map fun r => ⟨r.1, some r.2⟩
  | .prepend newL =>
    let r := prepend s.mem s.list newL
    some ⟨r.1, some r.2⟩
  | .appendRelative newL relative =>
    (appendRelative s.mem fuel s.list newL (some relative)).map fun r => ⟨r.1, some r.2⟩
  | .prependRelative newL relative =>
    let r := prependRelative s.mem s.list newL (some relative)
    some ⟨r.1, some r.2⟩
  | .remove item =>
    let r := remove s.mem s.list item
    some ⟨r.1, r.2⟩
  | .promote item =>
    (promote s.mem s.list item).map fun r => ⟨r.1, r.2⟩
  | .demote item =>
    (demote s.mem fuel s.list item).map fun r => ⟨r.1, r.2⟩

/- The items after `n` has been put in front of position `i` -/
def putAt (ns : List N) (i : Nat) (n : N) : List N :=
  ns.take i ++ n :: ns.drop i

/- What a call does to the items -/
def Call.apply (ns : List N) : Call N → List N
  | .append newL => ns ++ [newL]
  | .prepend newL => newL :: ns
  | .appendRelative newL relative => putAt ns (ns.idxOf relative + 1) newL
  | .prependRelative newL relative => putAt ns (ns.idxOf relative) newL
  | .remove item => ns.erase item
  | .promote item => item :: ns.erase item
  | .demote item => ns.erase item ++ [item]

/- A new item is not in the list, and the others are. -/
def Allowed (ns : List N) : Call N → Prop
  | .append newL | .prepend newL => newL ∉ ns
  | .appendRelative newL relative | .prependRelative newL relative =>
    newL ∉ ns ∧ relative ∈ ns
  | .remove item | .promote item | .demote item => item ∈ ns

variable {s : State N} {ns : List N} {fuel : Nat}

theorem call_holds {c : Call N} (hHolds : Holds s.mem s.list ns) (hAllowed : Allowed ns c) :
    ∃ s', call fuel s c = some s' ∧ Holds s'.mem s'.list (c.apply ns) := by
  rcases s with ⟨mem, list⟩
  cases c with
  | append newL =>
    rcases append_holds fuel hHolds hAllowed with ⟨mem', list', hRun, hDone⟩
    exact ⟨⟨mem', some list'⟩, by rw [call, hRun]; rfl, hDone⟩
  | prepend newL =>
    rcases prepend_holds hHolds hAllowed with ⟨mem', hRun, hDone⟩
    exact ⟨⟨mem', some newL⟩, by rw [call, hRun], hDone⟩
  | appendRelative newL relative =>
    rcases hAllowed with ⟨hNew, hMem⟩
    obtain ⟨l, rfl⟩ : ∃ l, list = some l :=
      ⟨_, hHolds.head.trans (head?_eq_some_head (ne_nil_of_mem hMem))⟩
    rcases appendRelative_at fuel hHolds hNew (getElem?_idxOf hMem) with ⟨mem', hRun, hDone⟩
    exact ⟨⟨mem', some l⟩, by rw [call, hRun]; rfl, hDone⟩
  | prependRelative newL relative =>
    rcases hAllowed with ⟨hNew, hMem⟩
    obtain ⟨l, rfl⟩ : ∃ l, list = some l :=
      ⟨_, hHolds.head.trans (head?_eq_some_head (ne_nil_of_mem hMem))⟩
    rcases prependRelative_at hHolds hNew (getElem?_idxOf hMem) with ⟨mem', list', hRun, hDone⟩
    exact ⟨⟨mem', some list'⟩, by rw [call, hRun], hDone⟩
  | remove item | promote item | demote item =>
    rcases exists_erase_eq hAllowed with ⟨as, bs, -, rfl, hErase⟩
    rw [Call.apply, hErase]
    first
    | exact ⟨_, rfl, remove_spec hHolds⟩
    | rcases promote_spec hHolds with ⟨mem', hRun, hDone⟩
      exact ⟨⟨mem', some item⟩, by rw [call, hRun]; rfl, hDone⟩
    | rcases demote_spec fuel hHolds with ⟨mem', list', hRun, hDone⟩
      exact ⟨⟨mem', list'⟩, by rw [call, hRun]; rfl, hDone⟩

/- A run leaves the items that its calls leave on a list. -/
theorem run_holds {calls : List (Call N)} (hHolds : Holds s.mem s.list ns)
    (hGuarded : Runs.Guarded (fun ns c => some (Call.apply ns c)) Allowed ns calls) :
    ∃ s', Runs.run (call fuel) s calls = some s' ∧
      Holds s'.mem s'.list (calls.foldl Call.apply ns) := by
  induction calls generalizing s ns with
  | nil => exact ⟨s, rfl, hHolds⟩
  | cons c calls ih =>
    rcases call_holds hHolds hGuarded.1 with ⟨s₁, hCall, hHolds₁⟩
    rcases ih hHolds₁ (hGuarded.2 _ rfl) with ⟨s', hRun, hDone⟩
    exact ⟨s', by rw [Runs.run_cons, hCall]; exact hRun, hDone⟩

end

---
-- Accessors
---

/- `Eina_Accessor_Inlist` -/
structure Accessor (N : Type) where
  head : Option N
  current : Option N
  index : Nat

/- `eina_inlist_accessor_new` -/
def accessorNew (list : Option N) : Accessor N where
  head := list
  current := list
  index := 0

/- `k` rounds of a loop, which ends at NULL -/
def follow (link : N → Option N) : Nat → Option N → Option N
  | 0, found => found
  | k + 1, found => follow link k (found.bind link)

/- `eina_inlist_accessor_get_at`, with the accessor that it leaves -/
def getAt (mem : Memory N) (it : Accessor N) (idx : Nat) : Option N × Accessor N :=
  let found :=
    if it.index = idx then
      it.current
    else if it.index < idx then
      follow (fun n => (mem n).next) (idx - it.index) it.current
    else if it.index / 2 < idx then
      follow (fun n => (mem n).prev) (it.index - idx) it.current
    else
      follow (fun n => (mem n).next) idx it.head
  if found = none then
    (none, it)
  else
    (found, { it with current := found, index := idx })

/- The calls for some positions, one after the other -/
def reads (mem : Memory N) : Accessor N → List Nat → List (Option N)
  | _, [] => []
  | it, idx :: idxs =>
    (getAt mem it idx).1 :: reads mem (getAt mem it idx).2 idxs

/- The accessor is at its position, which is in the list. -/
structure Placed (ns : List N) (it : Accessor N) : Prop where
  head : it.head = ns[0]?
  current : it.current = ns[it.index]?
  inside : it.index = 0 ∨ it.index < ns.length

variable {next prev : N → Option N} {mem : Memory N} {it : Accessor N}

theorem follow_next (hLinked : DList.Linked next prev ns) (i k : Nat) :
    follow next k ns[i]? = ns[i + k]? := by
  induction k generalizing i with
  | zero => rfl
  | succ k ih =>
    rw [follow, show i + (k + 1) = i + 1 + k by omega, ← ih]
    congr 1
    cases hGet : ns[i]? with
    | none =>
      rw [getElem?_eq_none_iff] at hGet
      exact (getElem?_eq_none (by omega)).symm
    | some n => exact hLinked.next_get hGet

theorem follow_prev (hLinked : DList.Linked next prev ns) {i k : Nat}
    (hInside : i < ns.length) (hLe : k ≤ i) : follow prev k ns[i]? = ns[i - k]? := by
  induction k generalizing i with
  | zero => rfl
  | succ k ih =>
    rcases i with - | i
    · omega
    rw [follow, Nat.add_sub_add_right, ← ih (by omega) (by omega)]
    congr 1
    rw [getElem?_eq_getElem hInside]
    exact hLinked.prev_get (getElem?_eq_getElem hInside)

theorem getAt_spec (idx : Nat) (hHolds : Holds mem list ns) (hPlaced : Placed ns it) :
    (getAt mem it idx).1 = ns[idx]? ∧ Placed ns (getAt mem it idx).2 := by
  rcases hPlaced with ⟨hHead, hCurrent, hInside⟩
  have hNext := follow_next hHolds.linked
  unfold getAt
  rw [hHead, hCurrent]
  extract_lets found
  -- Each of the four ways leads to the item at this position.
  have hFound : found = ns[idx]? := by
    unfold found
    split_ifs with hSame hAfter hNear
    · rw [hSame]
    · rw [hNext, Nat.add_sub_cancel' (by omega)]
    · rw [follow_prev hHolds.linked (by omega) (by omega), Nat.sub_sub_self (by omega)]
    · rw [hNext, Nat.zero_add]
  clear_value found
  subst hFound
  split
  case isTrue hNone => exact ⟨hNone.symm, hHead, hCurrent, hInside⟩
  case isFalse hSome =>
    refine ⟨rfl, rfl, rfl, Or.inr ?_⟩
    exact Nat.lt_of_not_le fun hLe => hSome (getElem?_eq_none hLe)

theorem reads_eq {idxs : List Nat} (hHolds : Holds mem list ns) (hPlaced : Placed ns it) :
    reads mem it idxs = idxs.map fun idx => ns[idx]? := by
  induction idxs generalizing it with
  | nil => rfl
  | cons idx idxs ih =>
    rcases getAt_spec idx hHolds hPlaced with ⟨hGet, hPlaced'⟩
    rw [reads, hGet, ih hPlaced', map_cons]

/-
  Whatever calls have made an inlist, it has the items that they
  leave on a list, and an accessor reads them at their positions,
  in any order.
-/
theorem reads_after_run [DecidableEq N] (mem : Memory N) {calls : List (Call N)}
    (hGuarded : Runs.Guarded (fun ns c => some (Call.apply ns c)) Allowed [] calls)
    (idxs : List Nat) :
    ∃ s, Runs.run (call fuel) ⟨mem, none⟩ calls = some s ∧
      Holds s.mem s.list (calls.foldl Call.apply []) ∧
      reads s.mem (accessorNew s.list) idxs =
        idxs.map fun idx => (calls.foldl Call.apply [])[idx]? := by
  have hEmpty : Holds mem none [] := ⟨⟨nodup_nil, trivial⟩, rfl, nofun⟩
  rcases run_holds (s := ⟨mem, none⟩) hEmpty hGuarded with ⟨s, hRun, hHolds⟩
  have hHead : s.list = (calls.foldl Call.apply [])[0]? := by
    rw [hHolds.head, head?_eq_getElem?]
  exact ⟨s, hRun, hHolds, reads_eq hHolds ⟨hHead, hHead, Or.inl rfl⟩⟩

/- Three items, of which the first one is moved to the end -/
theorem reads_after_run_sample :
    ∃ s, Runs.run (call 0) ⟨fun _ : Nat => ⟨none, none, none⟩, none⟩
        [.append 1, .prepend 0, .appendRelative 2 0, .demote 0] = some s ∧
      Holds s.mem s.list [2, 1, 0] ∧
      reads s.mem (accessorNew s.list) [2, 1, 3, 0] = [some 0, some 1, none, some 2] :=
  reads_after_run _ (by simp [Runs.Guarded, Allowed, Call.apply, putAt]) [2, 1, 3, 0]

end Efl.Eina.Inlist
