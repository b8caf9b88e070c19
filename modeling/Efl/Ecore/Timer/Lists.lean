import Efl.Eina.Inlist.Strung
import Efl.Ecore.Timer.Model

/-
  The two lists of a loop, and the timers that move between
  them.

  Main declarations:
    * `Lists`, `Nearly`, `Ordered`
    * `Moved`
    * `unlink_timers`, `unlink_suspended`, `unlink_out`
    * `insertTimer_spec`
-/

---
-- Walks
---

namespace Efl.Ecore.Timer

open Eina List

section Walks

variable {nodes : Inlist.Memory Nat}

theorem firstFrom_eq {as bs : List Nat} {n rounds : Nat}
    (hLinked : DList.Linked (fun n => (nodes n).next) (fun n =>
    (nodes n).prev) (as ++ n :: bs)) (hRounds : as.length ≤ rounds) :
    firstFrom nodes rounds n = (as ++ n :: bs).head? := by
  induction rounds generalizing as n bs with
  | zero =>
    obtain rfl : as = [] := length_eq_zero_iff.mp (Nat.le_zero.mp hRounds)
    have hPrev : (nodes n).prev = none := hLinked.prev_eq
    rw [firstFrom, hPrev]
    rfl
  | succ rounds ih =>
    have hPrev : (nodes n).prev = as.getLast? := hLinked.prev_eq
    rcases eq_nil_or_concat as with rfl | ⟨cs, c, rfl⟩
    · rw [firstFrom, hPrev]
      rfl
    · rw [concat_eq_append] at *
      rw [getLast?_concat] at hPrev
      rw [firstFrom, hPrev]
      rw [append_assoc, singleton_append] at hLinked
      rw [length_append, length_singleton] at hRounds
      dsimp only
      rw [ih hLinked (by omega), append_assoc, singleton_append]

theorem listFrom_eq (as : List Nat) {bs : List Nat} {rounds : Nat}
    (hLinked : DList.Linked (fun n => (nodes n).next) (fun n =>
    (nodes n).prev) (as ++ bs)) (hRounds : bs.length ≤ rounds) :
    listFrom nodes rounds bs.head? = some bs := by
  induction bs generalizing as rounds with
  | nil =>
    cases rounds with
    | zero => rfl
    | succ rounds => rfl
  | cons b bs ih =>
    cases rounds with
    | zero => exact absurd hRounds (Nat.not_succ_le_zero _)
    | succ rounds =>
      have hNext : (nodes b).next = bs.head? := hLinked.next_eq
      rw [append_cons] at hLinked
      rw [head?_cons, listFrom, hNext, ih _ hLinked (Nat.le_of_succ_le_succ hRounds)]
      rfl

end Walks

section

variable {K : Type} [LinearOrder K]

/- The search goes back to a timer that expires earlier. -/
theorem placeFrom_spec {l : Loop K} (at' : K) {as bs : List Nat} {rounds : Nat}
    (hLinked : DList.Linked (fun n => (l.nodes n).next) (fun n => (l.nodes n).prev) (as ++ bs))
    (hRounds : as.length ≤ rounds) :
    ∃ cs ds, as = cs ++ ds ∧
      placeFrom l at' rounds as.getLast? = some cs.getLast? ∧
      (∀ c, cs.getLast? = some c → (l.timer c).atTime < at') ∧
      ∀ d ∈ ds, at' ≤ (l.timer d).atTime := by
  induction rounds generalizing as bs with
  | zero =>
    obtain rfl : as = [] := length_eq_zero_iff.mp (Nat.le_zero.mp hRounds)
    exact ⟨[], [], rfl, rfl, nofun, nofun⟩
  | succ rounds ih =>
    rcases eq_nil_or_concat as with rfl | ⟨cs, c, rfl⟩
    · exact ⟨[], [], rfl, rfl, nofun, nofun⟩
    · rw [concat_eq_append] at *
      rw [getLast?_concat, placeFrom]
      rw [append_assoc, singleton_append] at hLinked
      rw [length_append, length_singleton] at hRounds
      by_cases hLess : (l.timer c).atTime < at'
      · rw [if_pos hLess]
        refine ⟨cs ++ [c], [], by rw [append_nil], by rw [getLast?_concat], ?_, nofun⟩
        intro c' hLast
        rw [getLast?_concat] at hLast
        obtain rfl := Option.some.inj hLast
        exact hLess
      · have hPrev : (l.nodes c).prev = cs.getLast? := hLinked.prev_eq
        rw [if_neg hLess, hPrev]
        rcases ih hLinked (by omega) with ⟨cs', ds, rfl, hPlace, hBefore, hBehind⟩
        refine ⟨cs', ds ++ [c], by rw [append_assoc], hPlace, hBefore, ?_⟩
        intro d hMem
        rw [mem_append, mem_singleton] at hMem
        cases hMem with
        | inl hMem => exact hBehind d hMem
        | inr hEq =>
          rw [hEq]
          exact not_lt.mp hLess

end

---
-- The Two Lists
---

open Option
variable {K : Type}

/- What is in `loop->timers` and in `loop->suspended` -/
structure Lists (l : Loop K) (ts ss : List Nat) : Prop where
  timers : Inlist.Holds l.nodes l.timers ts
  suspended : Inlist.Strung l.nodes l.suspended ss
  apart : ∀ n ∈ ts, n ∉ ss
  out : ∀ n, n ∉ ts → n ∉ ss →
    (l.nodes n).next = none ∧ (l.nodes n).prev = none
  bound : ∀ n, n ∈ ts ∨ n ∈ ss → n < l.created

theorem length_le_of_bound {ns : List Nat} {created : Nat}
    (hNodup : ns.Nodup) (hBound : ∀ n ∈ ns, n < created) : ns.length ≤ created := by
  have hSub : ns.Subperm (List.range created) :=
    hNodup.subperm fun n hMem =>
      mem_range.mpr (hBound n hMem)
  rw [← length_range (n := created)]
  exact hSub.length_le

variable {l : Loop K} {ts ss as bs : List Nat} {n : Nat}

section

variable (hLists : Lists l ts ss)

include hLists

theorem Lists.length_timers : ts.length ≤ l.created :=
  length_le_of_bound hLists.timers.linked.nodup fun n hMem => hLists.bound n (Or.inl hMem)

theorem Lists.length_suspended : ss.length ≤ l.created :=
  length_le_of_bound hLists.suspended.linked.nodup fun n hMem => hLists.bound n (Or.inr hMem)

theorem Lists.listFrom_timers :
    listFrom l.nodes l.created l.timers = some ts := by
  rw [hLists.timers.head]
  exact listFrom_eq [] hLists.timers.linked hLists.length_timers

omit hLists in
theorem nodup_out (hNodup : (as ++ n :: bs).Nodup) : n ∉ as ++ bs := by
  rw [perm_middle.nodup_iff, nodup_cons] at hNodup
  exact hNodup.1

/- Other links, of the same lists -/
theorem Lists.of_links {l' : Loop K}
    (hNodes : l'.nodes = l.nodes) (hTimers : l'.timers = l.timers)
    (hSuspended : l'.suspended = l.suspended)
    (hCreated : l.created ≤ l'.created) : Lists l' ts ss := by
  rcases hLists with ⟨hHolds, hStrung, hApart, hOut, hBound⟩
  refine ⟨?_, ?_, hApart, ?_, fun n hMem =>
    Nat.lt_of_lt_of_le (hBound n hMem) hCreated⟩
  · rw [hNodes, hTimers]
    exact hHolds
  · rw [hNodes, hSuspended]
    exact hStrung
  · rw [hNodes]
    exact hOut

/- A timer leaves `loop->timers`. -/
omit hLists in
theorem Lists.removeTimer (hLists : Lists l (as ++ n :: bs) ss) :
    Lists (removeTimer l n) (as ++ bs) ss := by
  have hFrame : ∀ m, m ∉ as ++ n :: bs →
      (Inlist.remove l.nodes l.timers n).1 m = l.nodes m :=
    fun m hMem => Inlist.remove_frame hLists.timers hMem
  have hSub : ∀ m, m ∈ as ++ bs → m ∈ as ++ n :: bs := by
    intro m hMem
    rw [mem_append] at hMem
    rw [mem_append, mem_cons]
    tauto
  refine ⟨Inlist.remove_spec hLists.timers, ?_, ?_, ?_, ?_⟩
  · refine hLists.suspended.congr fun m hMem => ?_
    exact hFrame m fun hIn => hLists.apart m hIn hMem
  · exact fun m hMem => hLists.apart m (hSub m hMem)
  · intro m hNot hNotSs
    by_cases hEq : m = n
    · subst hEq
      cases hList : l.timers with
      | none =>
        have hHead := hLists.timers.head
        rw [hList] at hHead
        cases as with
        | nil => exact nomatch hHead
        | cons a as => exact nomatch hHead
      | some list =>
        have hCleared := Inlist.remove_cleared l.nodes list m
        rw [← hList] at hCleared
        exact hCleared
    · have hNotIn : m ∉ as ++ n :: bs := by
        rw [mem_append] at hNot
        rw [mem_append, mem_cons]
        tauto
      have hSame := hLists.out m hNotIn hNotSs
      rw [← hFrame m hNotIn] at hSame
      exact hSame
  · exact fun m hMem => hLists.bound m (hMem.imp_left (hSub m))

/- A timer leaves `loop->suspended`. -/
omit hLists in
theorem Lists.removeSuspended (hLists : Lists l ts (as ++ n :: bs)) :
    Lists (removeSuspended l n) ts (as ++ bs) := by
  have hIn : n ∈ as ++ n :: bs := by simp
  have hFrame : ∀ m, m ∉ as ++ n :: bs → (Inlist.remove l.nodes l.suspended n).1 m = l.nodes m := by
    intro m hMem
    have hNe := hLists.suspended.next_ne hIn hMem
    refine Inlist.remove_apart ?_ hNe.2 hNe.1 (hLists.suspended.self_ne hIn) ?_
    · rintro rfl
      exact hMem hIn
    · intro hList
      exact absurd (mem_of_head? (hLists.suspended.head.symm.trans hList)) hMem
  have hSub : ∀ m, m ∈ as ++ bs → m ∈ as ++ n :: bs := by
    intro m hMem
    rw [mem_append] at hMem
    rw [mem_append, mem_cons]
    tauto
  refine ⟨?_, hLists.suspended.remove, ?_, ?_, ?_⟩
  · refine hLists.timers.congr fun m hMem => ?_
    exact hFrame m (hLists.apart m hMem)
  · exact fun m hMem hNot => hLists.apart m hMem (hSub m hNot)
  · intro m hNotTs hNot
    by_cases hEq : m = n
    · subst hEq
      cases hList : l.suspended with
      | none =>
        have hHead := hLists.suspended.head
        rw [hList] at hHead
        cases as with
        | nil => exact nomatch hHead
        | cons a as => exact nomatch hHead
      | some list =>
        have hCleared := Inlist.remove_cleared l.nodes list m
        rw [← hList] at hCleared
        exact hCleared
    · have hNotIn : m ∉ as ++ n :: bs := by
        rw [mem_append] at hNot
        rw [mem_append, mem_cons]
        tauto
      have hSame := hLists.out m hNotTs hNotIn
      rw [← hFrame m hNotIn] at hSame
      exact hSame
  · exact fun m hMem => hLists.bound m (hMem.imp_right (hSub m))

/- A timer joins `loop->suspended`. -/
theorem Lists.prependSuspended
    (hNotTs : n ∉ ts) (hNotSs : n ∉ ss) (hBound : n < l.created) :
    Lists (prependSuspended l n) ts (n :: ss) := by
  have hFrame : ∀ m, m ∉ n :: ss → (Inlist.prepend l.nodes l.suspended n).1 m = l.nodes m := by
    intro m hMem
    rw [mem_cons, not_or] at hMem
    refine Inlist.prepend_apart _ hMem.1 ?_
    intro hList
    exact hMem.2 (mem_of_head? (hLists.suspended.head.symm.trans hList))
  refine ⟨?_, hLists.suspended.prepend hNotSs, ?_, ?_, ?_⟩
  · refine hLists.timers.congr fun m hMem => hFrame m ?_
    rw [mem_cons, not_or]
    refine ⟨?_, hLists.apart m hMem⟩
    rintro rfl
    exact hNotTs hMem
  · intro m hMem hIn
    rw [mem_cons] at hIn
    cases hIn with
    | inl hEq => exact hNotTs (hEq ▸ hMem)
    | inr hIn => exact hLists.apart m hMem hIn
  · intro m hNot hNotIn
    have hSame := hLists.out m hNot (fun hMem => hNotIn (mem_cons_of_mem _ hMem))
    rw [← hFrame m hNotIn] at hSame
    exact hSame
  · intro m hMem
    rw [mem_cons] at hMem
    rcases hMem with hMem | rfl | hMem
    · exact hLists.bound m (Or.inl hMem)
    · exact hBound
    · exact hLists.bound m (Or.inr hMem)

/- What follows a timer that is not in `loop->suspended` -/
theorem Lists.next_mem (hNotSs : n ∉ ss)
    {m : Nat} (hNext : (l.nodes n).next = some m) : m ∈ ts := by
  by_cases hTs : n ∈ ts
  · rcases append_of_mem hTs with ⟨as, bs, rfl⟩
    have hHead : (l.nodes n).next = bs.head? := hLists.timers.linked.next_eq
    have hIn := mem_of_head? (hHead.symm.trans hNext)
    exact mem_append_right _ (mem_cons_of_mem _ hIn)
  · rw [(hLists.out n hTs hNotSs).1] at hNext
    exact nomatch hNext

/- The first one of a timer's list -/
omit hLists in
theorem firstFrom_mem {ns : List Nat} {list : Option Nat} (hStrung : Inlist.Strung l.nodes list ns)
    (hLength : ns.length ≤ l.created) (hMem : n ∈ ns) : firstFrom l.nodes l.created n = list := by
  rcases append_of_mem hMem with ⟨as, bs, rfl⟩
  rw [length_append] at hLength
  rw [firstFrom_eq hStrung.linked (by omega), hStrung.head]

omit hLists in
theorem unlink_timers (hLists : Lists l (as ++ n :: bs) ss) :
    unlink l n = some (removeTimer l n) := by
  have hMem : n ∈ as ++ n :: bs := by simp
  unfold unlink
  rw [firstFrom_mem hLists.timers.strung hLists.length_timers hMem]
  have hHead := hLists.timers.head
  cases hList : l.timers with
  | none =>
    rw [hList] at hHead
    cases as with
    | nil => exact nomatch hHead
    | cons a as => exact nomatch hHead
  | some list => rw [map_some, if_pos rfl]

/- The heads of the lists are different timers. -/
theorem Lists.heads {m : Nat}
    (hSuspended : l.suspended = some m) : some m ≠ l.timers := by
  rw [hLists.timers.head]
  intro hHead
  exact hLists.apart m (mem_of_head? hHead.symm) (mem_of_head?
      (hLists.suspended.head.symm.trans hSuspended))

omit hLists in
theorem unlink_suspended (hLists : Lists l ts (as ++ n :: bs)) :
    unlink l n = some (removeSuspended l n) := by
  have hMem : n ∈ as ++ n :: bs := by simp
  unfold unlink
  rw [firstFrom_mem hLists.suspended hLists.length_suspended hMem]
  have hHead := hLists.suspended.head
  cases hList : l.suspended with
  | none =>
    rw [hList] at hHead
    cases as with
    | nil => exact nomatch hHead
    | cons a as => exact nomatch hHead
  | some list => rw [map_some, if_neg (hLists.heads hList), if_pos rfl]

theorem unlink_out (hNotTs : n ∉ ts)
    (hNotSs : n ∉ ss) : unlink l n = some l := by
  have hFirst : firstFrom l.nodes l.created n = some n := by
    cases l.created with
    | zero => rw [firstFrom, (hLists.out n hNotTs hNotSs).2]
    | succ _ => rw [firstFrom, (hLists.out n hNotTs hNotSs).2]
  unfold unlink
  rw [hFirst, map_some, if_neg, if_neg]
  · rw [hLists.suspended.head]
    exact fun hHead => hNotSs (mem_of_head? hHead.symm)
  · rw [hLists.timers.head]
    exact fun hHead => hNotTs (mem_of_head? hHead.symm)

end

end Efl.Ecore.Timer

---
-- Insertions
---

namespace Efl.Ecore.Timer

open Eina List

section

variable {K : Type} [LinearOrder K]

/- Sorted by expiry -/
def Sorted (l : Loop K) (ns : List Nat) : Prop :=
  ns.Pairwise fun a b => (l.timer a).atTime ≤ (l.timer b).atTime

/- A timer between those before it and those behind it -/
theorem Sorted.insert {l : Loop K} {as bs : List Nat} {n : Nat}
    (hSorted : Sorted l (as ++ bs)) (hBefore : ∀ a,
    as.getLast? = some a → (l.timer a).atTime < (l.timer n).atTime)
    (hBehind : ∀ b ∈ bs, (l.timer n).atTime ≤ (l.timer b).atTime) : Sorted l (as ++ n :: bs) := by
  unfold Sorted at *
  rw [pairwise_append] at hSorted ⊢
  rcases hSorted with ⟨hAs, hBs, hApart⟩
  have hAll : ∀ a ∈ as, (l.timer a).atTime ≤ (l.timer n).atTime := by
    rcases eq_nil_or_concat as with rfl | ⟨cs, c, rfl⟩
    · exact nofun
    · rw [concat_eq_append] at *
      have hLast := (hBefore c getLast?_concat).le
      intro a hMem
      rw [mem_append, mem_singleton] at hMem
      cases hMem with
      | inl hMem =>
        exact le_trans ((pairwise_append.mp hAs).2.2 a hMem c mem_cons_self) hLast
      | inr hEq =>
        rw [hEq]
        exact hLast
  refine ⟨hAs, pairwise_cons.mpr ⟨hBehind, hBs⟩, ?_⟩
  intro a hMem b hMemB
  rw [mem_cons] at hMemB
  cases hMemB with
  | inl hEq =>
    rw [hEq]
    exact hAll a hMem
  | inr hMemB => exact hApart a hMem b hMemB

/- What a call leaves as it is, but for the links -/
structure Relinked (l l' : Loop K) : Prop where
  timer : l'.timer = l.timer
  created : l'.created = l.created
  timerCurrent : l'.timerCurrent = l.timerCurrent
  lastCheck : l'.lastCheck = l.lastCheck

/- A timer joins `loop->timers` where it is sorted. -/
theorem insertTimer_spec {l : Loop K} {ts ss : List Nat} {n : Nat}
    (hLists : Lists l ts ss) (hSorted : Sorted l ts) (hNotTs : n ∉ ts)
    (hNotSs : n ∉ ss) (hBound : n < l.created) :
    ∃ l' as bs, ts = as ++ bs ∧ insertTimer l n = some l' ∧
      Lists l' (as ++ n :: bs) ss ∧ Sorted l' (as ++ n :: bs) ∧ Relinked l l' := by
  have hRounds := hLists.length_timers
  have hStart : (l.timers.bind fun list =>
      (l.nodes list).last) = ts.getLast? := by
    rw [hLists.timers.head]
    cases ts with
    | nil => rfl
    | cons t ts => exact hLists.timers.last t rfl
  have hWhole : DList.Linked (fun n => (l.nodes n).next)
      (fun n => (l.nodes n).prev) (ts ++ []) := by
    rw [append_nil]
    exact hLists.timers.linked
  rcases placeFrom_spec (l.timer n).atTime hWhole hRounds with
    ⟨as, bs, rfl, hPlace, hBefore, hBehind⟩
  have hInserted := hSorted.insert hBefore hBehind
  have hSub : ∀ m, m ∉ as ++ n :: bs → m ∉ as ++ bs ∧ m ≠ n := by
    intro m hMem
    rw [mem_append, mem_cons] at hMem
    rw [mem_append]
    tauto
  -- what the memory needs, in both cases
  have hDone : ∀ (nodes : Inlist.Memory Nat) (list : Nat),
      Inlist.Holds nodes (some list) (as ++ n :: bs) →
      (∀ m, m ∉ as ++ n :: bs → nodes m = l.nodes m) →
      Lists { l with nodes := nodes, timers := some list } (as ++ n :: bs) ss := by
    intro nodes list hHolds hFrame
    have hApart : ∀ m ∈ ss, m ∉ as ++ n :: bs := by
      intro m hMem hIn
      rw [mem_append, mem_cons] at hIn
      rcases hIn with hIn | rfl | hIn
      · exact hLists.apart m (mem_append_left _ hIn) hMem
      · exact hNotSs hMem
      · exact hLists.apart m (mem_append_right _ hIn) hMem
    refine ⟨hHolds, ?_, fun m hIn hMem => hApart m hMem hIn, ?_, ?_⟩
    · exact hLists.suspended.congr fun m hMem =>
        hFrame m (hApart m hMem)
    · intro m hNot hNotIn
      have hSame := hLists.out m (hSub m hNot).1 hNotIn
      rw [← hFrame m hNot] at hSame
      exact hSame
    · intro m hMem
      rw [mem_append, mem_cons] at hMem
      rcases hMem with (hMem | rfl | hMem) | hMem
      · exact hLists.bound m (Or.inl (mem_append_left _ hMem))
      · exact hBound
      · exact hLists.bound m (Or.inl (mem_append_right _ hMem))
      · exact hLists.bound m (Or.inr hMem)
  unfold insertTimer
  rw [hStart, hPlace]
  rcases eq_nil_or_concat as with rfl | ⟨cs, c, rfl⟩
  · rcases Inlist.prepend_holds hLists.timers hNotTs with ⟨nodes, hPrepend, hHolds⟩
    have hFrame : ∀ m, m ∉ n :: bs → nodes m = l.nodes m := by
      intro m hMem
      rw [mem_cons, not_or] at hMem
      have hList : l.timers ≠ some m := fun hList =>
        hMem.2 (mem_of_head? (hLists.timers.head.symm.trans hList))
      have hApart := Inlist.prepend_apart l.nodes hMem.1 hList
      rw [hPrepend] at hApart
      exact hApart
    refine ⟨_, [], bs, rfl, ?_, hDone nodes n hHolds hFrame, hInserted, ⟨rfl, rfl, rfl, rfl⟩⟩
    dsimp only [getLast?_nil]
    rw [hPrepend]
  · rw [concat_eq_append] at *
    rw [getLast?_concat]
    cases hList : l.timers with
    | none =>
      have hHead := hLists.timers.head
      rw [hList] at hHead
      cases cs with
      | nil => exact nomatch hHead
      | cons a as => exact nomatch hHead
    | some list =>
      have hHolds := hLists.timers
      have hAssoc : cs ++ [c] ++ bs = cs ++ c :: bs := by
        rw [append_assoc, singleton_append]
      rw [hList, hAssoc] at hHolds
      rw [hAssoc] at hNotTs
      rcases Inlist.appendRelative_spec l.created hHolds hNotTs with ⟨nodes, hAppend, hHolds'⟩
      have hAssoc' : cs ++ [c] ++ n :: bs = cs ++ c :: n :: bs := by
        rw [append_assoc, singleton_append]
      have hFrame : ∀ m, m ∉ cs ++ [c] ++ n :: bs → nodes m = l.nodes m := by
        intro m hMem
        have hNe := hHolds.strung.next_ne (n := c) (m := m)
          (by simp) (by
            rw [← hAssoc]
            exact (hSub m hMem).1)
        refine Inlist.appendRelative_apart hAppend (hSub m hMem).2 ?_ ?_ hNe.1
        · rintro rfl
          exact (hSub m hMem).1 (by
            rw [hAssoc]
            exact mem_of_head? hHolds.head.symm)
        · rintro rfl
          exact hMem (by simp)
      refine ⟨_, cs ++ [c], bs, rfl, ?_, hDone nodes list (by rw [hAssoc']; exact hHolds')
        hFrame, hInserted, ⟨rfl, rfl, rfl, rfl⟩⟩
      dsimp only
      rw [hAppend]
      rfl

end

---
-- Calls on One Timer
---

variable {K : Type}

@[simp] theorem Loop.update_self
    (l : Loop K) (n : Nat) (f : Data K → Data K) :
    (l.update n f).timer n = f (l.timer n) := Function.update_self ..

@[simp] theorem Loop.create_self (l : Loop K) (t : Data K) :
    (l.create t).timer l.created = t := Function.update_self ..

variable {m : Nat}

theorem Loop.create_of_ne (l : Loop K) (t : Data K)
    (hNe : m ≠ l.created) : (l.create t).timer m = l.timer m := Function.update_of_ne hNe ..

@[simp] theorem Loop.create_nodes_self (l : Loop K) (t : Data K) :
    (l.create t).nodes l.created = ⟨none, none, none⟩ := Function.update_self ..

theorem Loop.create_nodes_of_ne (l : Loop K) (t : Data K)
    (hNe : m ≠ l.created) : (l.create t).nodes m = l.nodes m := Function.update_of_ne hNe ..

variable {n : Nat}

theorem Loop.update_of_ne (l : Loop K) (f : Data K → Data K)
    (hNe : m ≠ n) : (l.update n f).timer m = l.timer m := Function.update_of_ne hNe ..

/- What a call on a timer leaves as it is -/
structure Moved (n : Nat) (l l' : Loop K) (ts ts' : List Nat) : Prop where
  others : ts'.filter (· ≠ n) = ts.filter (· ≠ n)
  timer : ∀ m, m ≠ n → l'.timer m = l.timer m
  lastCheck : l'.lastCheck = l.lastCheck
  created : l.created ≤ l'.created
  current : l.timerCurrent ≠ some n →
    l'.timerCurrent = l.timerCurrent
  following : ∀ c, l.timerCurrent = some n →
    l'.timerCurrent = some c → c ∈ ts' ∨ c = n

variable {l l' : Loop K} {ts ts' : List Nat}

/- A call that leaves the current timer, too -/
theorem Moved.of_current (hOthers : ts'.filter (· ≠ n) = ts.filter (· ≠ n))
    (hTimer : ∀ m, m ≠ n → l'.timer m = l.timer m)
    (hCheck : l'.lastCheck = l.lastCheck) (hCreated : l.created ≤ l'.created)
    (hCurrent : l'.timerCurrent = l.timerCurrent) : Moved n l l' ts ts' := by
  refine ⟨hOthers, hTimer, hCheck, hCreated, fun _ => hCurrent, ?_⟩
  intro c hIs hIs'
  rw [hCurrent, hIs] at hIs'
  exact Or.inr (Option.some.inj hIs').symm

theorem Moved.refl (n : Nat) (l : Loop K) (ts : List Nat) : Moved n l l ts ts :=
  .of_current rfl (fun _ _ => rfl) rfl (Nat.le_refl _) rfl

/- Another timer stays in its list. -/
theorem Moved.mem_iff (hMoved : Moved n l l' ts ts') (hNe : m ≠ n) : m ∈ ts' ↔ m ∈ ts := by
  have hIff := congrArg (m ∈ ·) hMoved.others
  simpa [hNe] using hIff

theorem Moved.trans {l₁ l₂ : Loop K} {ts₁ ts₂ : List Nat}
    (hMoved : Moved n l l₁ ts ts₁) (hMore : Moved n l₁ l₂ ts₁ ts₂) : Moved n l l₂ ts ts₂ := by
  refine ⟨hMore.others.trans hMoved.others,
    fun m hNe => (hMore.timer m hNe).trans (hMoved.timer m hNe),
    hMore.lastCheck.trans hMoved.lastCheck, hMoved.created.trans hMore.created, ?_, ?_⟩
  · intro hNot
    have hCurrent := hMoved.current hNot
    rw [← hCurrent] at hNot
    exact (hMore.current hNot).trans hCurrent
  · intro c hIs hIs'
    by_cases hAgain : l₁.timerCurrent = some n
    · exact hMore.following c hAgain hIs'
    · rw [hMore.current hAgain] at hIs'
      rcases hMoved.following c hIs hIs' with hMem | rfl
      · by_cases hEq : c = n
        · exact Or.inr hEq
        · exact Or.inl ((hMore.mem_iff hEq).mpr hMem)
      · exact Or.inr rfl

theorem moved_update (n : Nat) (l : Loop K) (ts : List Nat)
    (f : Data K → Data K) : Moved n l (l.update n f) ts ts :=
  .of_current rfl (fun _ hNe => l.update_of_ne f hNe) rfl (Nat.le_refl _) rfl

theorem timer_moveAlong (l : Loop K) (n : Nat) :
    (moveAlong l n).timer = l.timer ∧ (moveAlong l n).created = l.created := by
  unfold moveAlong
  split
  · exact ⟨rfl, rfl⟩
  · exact ⟨rfl, rfl⟩

theorem removeTimer_relinked (l : Loop K) (n : Nat) :
    Relinked l (removeTimer l n) := ⟨rfl, rfl, rfl, rfl⟩

theorem removeSuspended_relinked (l : Loop K) (n : Nat) :
    Relinked l (removeSuspended l n) := ⟨rfl, rfl, rfl, rfl⟩

theorem Relinked.live (hSame : Relinked l l') (n : Nat) : l'.live n = l.live n := by
  unfold Loop.live
  rw [hSame.timer, hSame.created]

/- A timer in one of the lists was created. -/
theorem live_iff (l : Loop K) (n : Nat) :
    l.live n = true ↔ n < l.created ∧ (l.timer n).invalidated = false := by
  unfold Loop.live
  rw [decide_eq_true_eq, Bool.not_eq_true]

theorem Relinked.moved (hSame : Relinked l l')
    (hOthers : ts'.filter (· ≠ n) = ts.filter (· ≠ n)) : Moved n l l' ts ts' :=
  .of_current hOthers (fun m _ => congrFun hSame.timer m)
    hSame.lastCheck (Nat.le_of_eq hSame.created.symm) hSame.timerCurrent

end Efl.Ecore.Timer

---
-- Ordered Loops
---

namespace Efl.Ecore.Timer

open Eina List

variable {K : Type} [LinearOrder K]

/-
  The timers are sorted, and those that are not deleted are in
  one of the lists.
-/
structure Ordered (l : Loop K) (ts ss : List Nat) : Prop where
  lists : Lists l ts ss
  sorted : Sorted l ts
  ticking : ∀ m ∈ ts, (l.timer m).listening ≠ 0 ∧
    (l.timer m).frozen = false
  live : ∀ m, l.live m = true ↔ m ∈ ts ∨ m ∈ ss
  initialized : ∀ m < l.created, (l.timer m).initialized = true
  current : ∀ c, l.timerCurrent = some c →
    c < l.created ∧ c ∉ ss
  resting : ∀ m ∈ ss, (l.timer m).justAdded = true ∨
    (l.timer m).frozen = true

/- The same, but for a timer that is on its way -/
structure Nearly (n : Nat) (l : Loop K) (ts ss : List Nat) : Prop where
  lists : Lists l ts ss
  sorted : Sorted l (ts.filter (· ≠ n))
  ticking : ∀ m ∈ ts, m ≠ n → (l.timer m).listening ≠ 0 ∧
    (l.timer m).frozen = false
  live : ∀ m, m ≠ n → (l.live m = true ↔ m ∈ ts ∨ m ∈ ss)
  initialized : ∀ m < l.created, (l.timer m).initialized = true
  current : ∀ c, l.timerCurrent = some c →
    c < l.created ∧ c ∉ ss
  resting : ∀ m ∈ ss, m ≠ n → (l.timer m).justAdded = true ∨
    (l.timer m).frozen = true

variable {l : Loop K} {ts ss : List Nat}

theorem Ordered.nearly (hOrdered : Ordered l ts ss) (n : Nat) : Nearly n l ts ss :=
  ⟨hOrdered.lists, hOrdered.sorted.sublist filter_sublist, fun m hMem _ => hOrdered.ticking m hMem,
    fun m _ => hOrdered.live m, hOrdered.initialized,
    hOrdered.current, fun m hMem _ => hOrdered.resting m hMem⟩

variable {n : Nat}

/- The timer itself may change. -/
theorem Nearly.update (hNearly : Nearly n l ts ss)
    {f : Data K → Data K} (hInit : (l.timer n).initialized = true →
      (f (l.timer n)).initialized = true) : Nearly n (l.update n f) ts ss := by
  have hTimer : ∀ m, m ≠ n → (l.update n f).timer m = l.timer m := fun m hNe => l.update_of_ne f hNe
  refine ⟨hNearly.lists.of_links rfl rfl rfl (Nat.le_refl _), ?_, ?_, ?_, ?_, hNearly.current, ?_⟩
  · refine List.Pairwise.imp_of_mem ?_ hNearly.sorted
    intro a b hA hB hLe
    rw [hTimer a (by simpa using (mem_filter.mp hA).2),
      hTimer b (by simpa using (mem_filter.mp hB).2)]
    exact hLe
  · intro m hMem hNe
    rw [hTimer m hNe]
    exact hNearly.ticking m hMem hNe
  · intro m hNe
    have hLive := hNearly.live m hNe
    unfold Loop.live at hLive ⊢
    rw [hTimer m hNe]
    exact hLive
  · intro m hLess
    by_cases hEq : m = n
    · subst hEq
      rw [l.update_self]
      exact hInit (hNearly.initialized m hLess)
    · rw [hTimer m hEq]
      exact hNearly.initialized m hLess
  · intro m hMem hNe
    rw [hTimer m hNe]
    exact hNearly.resting m hMem hNe

/- A loop with other links and another current timer -/
theorem Nearly.of_lists {l' : Loop K} {ts' ss' : List Nat}
    (hNearly : Nearly n l ts ss) (hLists : Lists l' ts' ss')
    (hTimer : l'.timer = l.timer) (hCreated : l'.created = l.created)
    (hOthers : ts'.filter (· ≠ n) = ts.filter (· ≠ n))
    (hOthersSs : ss'.filter (· ≠ n) = ss.filter (· ≠ n))
    (hCurrent : ∀ c, l'.timerCurrent = some c → c < l.created ∧ c ∉ ss') : Nearly n l' ts' ss' := by
  have hMem : ∀ m, m ≠ n → (m ∈ ts' ↔ m ∈ ts) := by
    intro m hNe
    have hIff := congrArg (m ∈ ·) hOthers
    simpa [hNe] using hIff
  have hMemSs : ∀ m, m ≠ n → (m ∈ ss' ↔ m ∈ ss) := by
    intro m hNe
    have hIff := congrArg (m ∈ ·) hOthersSs
    simpa [hNe] using hIff
  refine ⟨hLists, ?_, ?_, ?_, ?_, ?_, ?_⟩
  · rw [hOthers]
    unfold Sorted
    rw [hTimer]
    exact hNearly.sorted
  · intro m hIn hNe
    rw [hTimer]
    exact hNearly.ticking m ((hMem m hNe).mp hIn) hNe
  · intro m hNe
    have hLive := hNearly.live m hNe
    unfold Loop.live at hLive ⊢
    rw [hTimer, hCreated, hMem m hNe, hMemSs m hNe]
    exact hLive
  · rw [hTimer, hCreated]
    exact hNearly.initialized
  · rw [hCreated]
    exact hCurrent
  · intro m hIn hNe
    rw [hTimer]
    exact hNearly.resting m ((hMemSs m hNe).mp hIn) hNe

theorem filter_ne_middle (as bs : List Nat) (n : Nat) :
    (as ++ bs).filter (· ≠ n) = (as ++ n :: bs).filter (· ≠ n) := by
  rw [filter_append, filter_append, filter_cons_of_neg (by simp)]

section

variable (hNearly : Nearly n l ts ss)

include hNearly

/- The current timer is no other timer's list. -/
theorem Nearly.moveAlong :
    Nearly n (moveAlong l n) ts ss ∧
      Moved n l (moveAlong l n) ts ts ∧ (moveAlong l n).timerCurrent ≠ some n := by
  unfold Timer.moveAlong
  by_cases hIs : l.timerCurrent = some n
  · rw [if_pos hIs]
    have hNotSs := (hNearly.current n hIs).2
    refine ⟨⟨hNearly.lists.of_links rfl rfl rfl (Nat.le_refl _),
      hNearly.sorted, hNearly.ticking, hNearly.live,
      hNearly.initialized, ?_, hNearly.resting⟩, ⟨rfl, fun _ _ => rfl,
      rfl, Nat.le_refl _, fun hNot => absurd hIs hNot, fun c _ hNext =>
          Or.inl (hNearly.lists.next_mem hNotSs hNext)⟩, ?_⟩
    · intro c hNext
      have hIn := hNearly.lists.next_mem hNotSs hNext
      exact ⟨hNearly.lists.bound c (Or.inl hIn), hNearly.lists.apart c hIn⟩
    · intro hNext
      have hNext : (l.nodes n).next = some n := hNext
      by_cases hTs : n ∈ ts
      · exact hNearly.lists.timers.strung.self_ne hTs hNext
      · rw [(hNearly.lists.out n hTs hNotSs).1] at hNext
        exact nomatch hNext
  · rw [if_neg hIs]
    exact ⟨hNearly, Moved.refl n l ts, hIs⟩

/- A timer leaves its list. -/
theorem Nearly.unlink :
    ∃ l' ts' ss', unlink l n = some l' ∧
      Nearly n l' ts' ss' ∧ n ∉ ts' ∧ n ∉ ss' ∧
      ts'.filter (· ≠ n) = ts.filter (· ≠ n) ∧ Relinked l l' := by
  have hLists := hNearly.lists
  by_cases hTs : n ∈ ts
  · rcases append_of_mem hTs with ⟨as, bs, rfl⟩
    have hOthers := filter_ne_middle as bs n
    exact ⟨_, as ++ bs, ss, unlink_timers hLists, hNearly.of_lists
      hLists.removeTimer rfl rfl hOthers rfl hNearly.current,
      nodup_out hLists.timers.linked.nodup, hLists.apart n hTs, hOthers, ⟨rfl, rfl, rfl, rfl⟩⟩
  · by_cases hSs : n ∈ ss
    · rcases append_of_mem hSs with ⟨as, bs, rfl⟩
      refine ⟨_, ts, as ++ bs, unlink_suspended hLists,
        hNearly.of_lists hLists.removeSuspended rfl rfl rfl (filter_ne_middle as bs n) ?_, hTs,
        nodup_out hLists.suspended.linked.nodup, rfl, ⟨rfl, rfl, rfl, rfl⟩⟩
      intro c hCurrent
      have hC := hNearly.current c hCurrent
      refine ⟨hC.1, fun hMem => hC.2 ?_⟩
      rw [mem_append] at hMem
      rw [mem_append, mem_cons]
      tauto
    · exact ⟨l, ts, ss, unlink_out hLists hTs hSs, hNearly, hTs, hSs, rfl, ⟨rfl, rfl, rfl, rfl⟩⟩

/- The loop is cleared of a timer. -/
theorem Nearly.loopClear :
    ∃ l' ts' ss', loopClear l n = some l' ∧
      Nearly n l' ts' ss' ∧ n ∉ ts' ∧ n ∉ ss' ∧
      Moved n l l' ts ts' ∧ l'.timer = l.timer ∧
      l'.created = l.created ∧ l'.timerCurrent ≠ some n := by
  rcases hNearly.moveAlong with ⟨hAlong, hMoved, hNot⟩
  rcases hAlong.unlink with ⟨l', ts', ss', hUnlink, hDone, hNotTs, hNotSs, hOthers, hSame⟩
  have hTimer := timer_moveAlong l n
  refine ⟨l', ts', ss', hUnlink, hDone, hNotTs, hNotSs, hMoved.trans (hSame.moved hOthers),
    hSame.timer.trans hTimer.1, hSame.created.trans hTimer.2, ?_⟩
  rw [hSame.timerCurrent]
  exact hNot

---
-- Instantiation
---

/- A timer that is in one of the lists again -/
theorem Nearly.ordered
    (hSorted : Sorted l ts) (hTicking :
    n ∈ ts → (l.timer n).listening ≠ 0 ∧ (l.timer n).frozen = false)
    (hLive : l.live n = true ↔ n ∈ ts ∨ n ∈ ss) (hResting : n ∈ ss →
    (l.timer n).justAdded = true ∨ (l.timer n).frozen = true) : Ordered l ts ss := by
  refine ⟨hNearly.lists, hSorted, ?_, ?_, hNearly.initialized, hNearly.current, ?_⟩
  · intro m hMem
    by_cases hEq : m = n
    · rw [hEq] at hMem ⊢
      exact hTicking hMem
    · exact hNearly.ticking m hMem hEq
  · intro m
    by_cases hEq : m = n
    · rw [hEq]
      exact hLive
    · exact hNearly.live m hEq
  · intro m hMem
    by_cases hEq : m = n
    · rw [hEq] at hMem ⊢
      exact hResting hMem
    · exact hNearly.resting m hMem hEq

theorem Nearly.prependSuspended (hLive : l.live n = true) (hNotTs : n ∉ ts) (hNotSs : n ∉ ss)
    (hCurrent : l.timerCurrent ≠ some n) (hResting :
    (l.timer n).justAdded = true ∨ (l.timer n).frozen = true) :
    Ordered (Timer.prependSuspended l n) ts (n :: ss) := by
  have hLess : n < l.created := by
    unfold Loop.live at hLive
    rw [decide_eq_true_eq] at hLive
    exact hLive.1
  have hLists := hNearly.lists.prependSuspended hNotTs hNotSs hLess
  have hAgain : Nearly n (Timer.prependSuspended l n) ts (n :: ss) := by
    refine hNearly.of_lists hLists rfl rfl rfl (filter_cons_of_neg (by simp)) ?_
    intro c hC
    have hOld := hNearly.current c hC
    refine ⟨hOld.1, fun hMem => ?_⟩
    rw [mem_cons] at hMem
    cases hMem with
    | inl hEq => exact hCurrent (hC.trans (by rw [hEq]))
    | inr hMem => exact hOld.2 hMem
  refine hAgain.ordered ?_ (fun hMem => absurd hMem hNotTs)
    (iff_of_true hLive (Or.inr mem_cons_self)) (fun _ => hResting)
  have hSorted := hNearly.sorted
  rw [filter_eq_self.mpr] at hSorted
  · exact hSorted
  · rintro m hMem
    rw [decide_eq_true_eq]
    rintro rfl
    exact hNotTs hMem

end

variable [AddCommGroup K]

theorem Nearly.insertTimer (hNearly : Nearly n l ts ss)
    (hLive : l.live n = true) (hNotTs : n ∉ ts) (hNotSs : n ∉ ss)
    (hIdle : (l.timer n).idle = false) :
    ∃ l' ts', Timer.insertTimer l n = some l' ∧
      Ordered l' ts' ss ∧ Moved n l l' ts ts' ∧
      l'.timer = l.timer ∧ l'.timerCurrent = l.timerCurrent := by
  have hLess : n < l.created := by
    unfold Loop.live at hLive
    rw [decide_eq_true_eq] at hLive
    exact hLive.1
  have hSorted : Sorted l ts := by
    have hSorted := hNearly.sorted
    rw [filter_eq_self.mpr] at hSorted
    · exact hSorted
    · rintro m hMem
      rw [decide_eq_true_eq]
      rintro rfl
      exact hNotTs hMem
  rcases insertTimer_spec hNearly.lists hSorted hNotTs hNotSs hLess with
    ⟨l', as, bs, rfl, hInsert, hLists, hSorted', hSame⟩
  have hNearly' : Nearly n l' (as ++ n :: bs) ss := by
    refine hNearly.of_lists hLists hSame.timer hSame.created (filter_ne_middle as bs n).symm rfl ?_
    rw [hSame.timerCurrent]
    exact hNearly.current
  refine ⟨l', as ++ n :: bs, hInsert, ?_,
    hSame.moved (filter_ne_middle as bs n).symm, hSame.timer, hSame.timerCurrent⟩
  refine hNearly'.ordered hSorted' ?_ (iff_of_true ?_ ?_) (fun hMem => absurd hMem hNotSs)
  · intro _
    rw [hSame.timer]
    unfold Data.idle at hIdle
    rw [decide_eq_false_iff_not] at hIdle
    simp only [not_or] at hIdle
    exact ⟨hIdle.1, by simpa using hIdle.2.1⟩
  · unfold Loop.live at hLive ⊢
    rw [hSame.timer, hSame.created]
    exact hLive
  · exact Or.inl (by simp)

/- A timer is put back where it belongs. -/
theorem Nearly.instanciate (hNearly : Nearly n l ts ss)
    (hLive : l.live n = true) (hResting :
    (l.timer n).justAdded = true ∨ (l.timer n).frozen = true) :
    ∃ l' ts' ss', instanciate l n = some l' ∧
      Ordered l' ts' ss' ∧ Moved n l l' ts ts' ∧ l'.timer = l.timer ∧ l'.timerCurrent ≠ some n := by
  rcases hNearly.loopClear with ⟨l₁, ts₁, ss₁, hClear, hNearly₁, hNotTs,
    hNotSs, hMoved, hTimer, hCreated, hCurrent⟩
  have hLive₁ : l₁.live n = true := by
    unfold Loop.live at hLive ⊢
    rw [hTimer, hCreated]
    exact hLive
  unfold Timer.instanciate
  rw [hClear, Option.bind_some]
  cases hIdle : (l₁.timer n).idle with
  | true =>
    rw [if_pos rfl]
    refine ⟨_, ts₁, n :: ss₁, rfl, hNearly₁.prependSuspended hLive₁ hNotTs hNotSs hCurrent
      (by rw [hTimer]; exact hResting), hMoved.trans (.of_current rfl
      (fun _ _ => rfl) rfl (Nat.le_refl _) rfl), hTimer, hCurrent⟩
  | false =>
    have hLess : n < l₁.created := by
      unfold Loop.live at hLive₁
      rw [decide_eq_true_eq] at hLive₁
      exact hLive₁.1
    rcases hNearly₁.insertTimer hLive₁ hNotTs hNotSs hIdle with
      ⟨l', ts', hInsert, hOrdered, hMoved', hTimer', hCurrent'⟩
    rw [if_neg Bool.false_ne_true, if_pos (hNearly₁.initialized n hLess)]
    exact ⟨l', ts', ss₁, hInsert, hOrdered, hMoved.trans hMoved',
      hTimer'.trans hTimer, hCurrent'.trans_ne hCurrent⟩

omit [LinearOrder K] in
theorem Data.fields_set (t : Data K) (at' in' : K) :
    (t.set at' in').initialized = true ∧ (t.set at' in').invalidated = t.invalidated := by
  unfold Data.set
  dsimp only
  split
  · exact ⟨rfl, rfl⟩
  · exact ⟨rfl, rfl⟩

omit [LinearOrder K] in
theorem Data.justAdded_set (t : Data K) (at' in' : K) : (t.set at' in').justAdded = true := by
  unfold Data.set
  dsimp only
  split
  · rfl
  · rfl

/- `_efl_loop_timer_set` on a timer on its way -/
theorem Nearly.timerSet (hNearly : Nearly n l ts ss)
    (hLive : l.live n = true) (at' in' : K) :
    ∃ l' ts' ss', timerSet l n at' in' = some l' ∧
      Ordered l' ts' ss' ∧ Moved n l l' ts ts' ∧
      l'.timer n = (l.timer n).set at' in' ∧ l'.timerCurrent ≠ some n := by
  have hAdded : Nearly n { l with timersAdded := true } ts ss :=
    ⟨hNearly.lists.of_links rfl rfl rfl (Nat.le_refl _),
      hNearly.sorted, hNearly.ticking, hNearly.live,
      hNearly.initialized, hNearly.current, hNearly.resting⟩
  have hFields := (l.timer n).fields_set at' in'
  have hSet := hAdded.update (f := Data.set at' in') fun _ => hFields.1
  have hLive' : (({ l with timersAdded := true }).update n (Data.set at' in')).live n = true := by
    unfold Loop.live at hLive ⊢
    rw [Loop.update_self]
    show decide (_ ∧ ¬ ((l.timer n).set at' in').invalidated = true) = true
    rw [hFields.2]
    exact hLive
  have hResting : ((({ l with timersAdded := true }).update n
      (Data.set at' in')).timer n).justAdded = true := by
    rw [Loop.update_self]
    exact (l.timer n).justAdded_set at' in'
  rcases hSet.instanciate hLive' (Or.inl hResting) with
    ⟨l', ts', ss', hRun, hOrdered, hMoved, hTimer, hCurrent⟩
  refine ⟨l', ts', ss', hRun, hOrdered, ?_, ?_, hCurrent⟩
  · have hFlag : Moved n l { l with timersAdded := true } ts ts :=
      .of_current rfl (fun _ _ => rfl) rfl (Nat.le_refl _) rfl
    exact hFlag.trans ((moved_update n _ ts _).trans hMoved)
  · rw [hTimer, Loop.update_self]

end Efl.Ecore.Timer
