import Mathlib.Data.List.Nodup
import Mathlib.Logic.Function.Basic

/-
  Singly linked lists, and queues of them.

  The links are a function on the nodes; what the queue holds
  is the list of the nodes from the head to the tail.

  Main declarations:
    * `Fifo.Chain`
    * `Fifo.Queue`
    * `Fifo.Chain.congr`
    * `Fifo.Queue.push`
-/

---
-- Chains
---

namespace Efl.Fifo

open List Function

variable {N : Type}

/- The nodes of a list, each linked to the next one. -/
def Chain (next : N → Option N) : Option N → List N → Prop
  | head, [] => head = none
  | head, n :: ns => head = some n ∧ Chain next (next n) ns

variable {next : N → Option N} {head : Option N} {ns : List N}

theorem Chain.head_eq (hChain : Chain next head ns) : head = ns.head? := by
  cases ns with
  | nil => exact hChain
  | cons n ns => exact hChain.1

/- Links of other nodes do not matter. -/
theorem Chain.congr {next' : N → Option N}
    (hChain : Chain next head ns) (hSame : ∀ n ∈ ns, next' n = next n) : Chain next' head ns := by
  induction ns generalizing head with
  | nil => exact hChain
  | cons n ns ih =>
    refine ⟨hChain.1, ?_⟩
    rw [hSame n (by simp)]
    exact ih hChain.2 fun m hm => hSame m (by simp [hm])

/- One more node, linked to by the last one. -/
theorem Chain.concat [DecidableEq N] {t e : N}
    (hChain : Chain next head (ns ++ [t])) (hNew : e ∉ ns ++ [t])
    (hNodup : (ns ++ [t]).Nodup) :
    Chain (update (update next e none) t (some e)) head (ns ++ [t] ++ [e]) := by
  induction ns generalizing head with
  | nil =>
    have hNe : e ≠ t := by simpa using hNew
    rcases hChain with ⟨hHead, -⟩
    refine ⟨hHead, ?_⟩
    rw [update_self]
    refine ⟨rfl, ?_⟩
    rw [update_of_ne hNe, update_self]
    rfl
  | cons n ns ih =>
    rcases hChain with ⟨hHead, hRest⟩
    rw [cons_append, mem_cons, not_or] at hNew
    rw [cons_append, nodup_cons] at hNodup
    have hLast : n ≠ t := by
      rintro rfl
      exact hNodup.1 (by simp)
    refine ⟨hHead, ?_⟩
    rw [update_of_ne hLast, update_of_ne (Ne.symm hNew.1)]
    exact ih hRest hNew.2 hNodup.2

---
-- Queues
---

/- A chain of distinct nodes, and the last one of them. -/
structure Queue (next : N → Option N) (head tail : Option N) (ns : List N) : Prop where
  chain : Chain next head ns
  tail : tail = ns.getLast?
  nodup : ns.Nodup

theorem queue_nil (next : N → Option N) : Queue next none none [] := ⟨rfl, rfl, nodup_nil⟩

theorem Queue.congr {next' : N → Option N} {tail : Option N} (hQueue : Queue next head tail ns)
    (hSame : ∀ n ∈ ns, next' n = next n) : Queue next' head tail ns :=
  ⟨hQueue.chain.congr hSame, hQueue.tail, hQueue.nodup⟩

/- The head goes. -/
theorem Queue.pop {tail : Option N} {h : N}
    (hQueue : Queue next (some h) tail ns) :
    ∃ rest, ns = h :: rest ∧
      (next h = none → rest = []) ∧ (next h ≠ none → Queue next (next h) tail rest) := by
  cases ns with
  | nil => exact nomatch hQueue.chain
  | cons n rest =>
    rcases hQueue.chain with ⟨hHead, hRest⟩
    obtain rfl := Option.some.inj hHead
    refine ⟨rest, rfl, ?_, ?_⟩
    · intro hNone
      rw [hNone] at hRest
      cases rest with
      | nil => rfl
      | cons m rest => exact nomatch hRest.1
    · intro hSome
      refine ⟨hRest, ?_, (nodup_cons.mp hQueue.nodup).2⟩
      cases rest with
      | nil => exact absurd hRest hSome
      | cons m rest => rw [hQueue.tail, getLast?_cons_cons]

/- A node is put behind the tail. -/
theorem Queue.push [DecidableEq N] {t e : N}
    (hQueue : Queue next head (some t) ns) (hNew : e ∉ ns) :
    Queue (update (update next e none) t (some e)) head (some e) (ns ++ [e]) := by
  rcases eq_nil_or_concat ns with rfl | ⟨init, l, rfl⟩
  · exact nomatch hQueue.tail
  · rw [concat_eq_append] at *
    have hTail := hQueue.tail
    rw [getLast?_append, getLast?_singleton] at hTail
    obtain rfl := Option.some.inj hTail
    refine ⟨hQueue.chain.concat hNew hQueue.nodup, by simp, ?_⟩
    rw [nodup_append]
    refine ⟨hQueue.nodup, by simp, ?_⟩
    intro a ha b hb
    obtain rfl := mem_singleton.mp hb
    rintro rfl
    exact hNew ha

end Efl.Fifo
