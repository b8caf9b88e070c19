import Mathlib.Algebra.Group.Nat.Defs
import Mathlib.Data.Finset.Card
import Mathlib.Data.Finset.Dedup
import Mathlib.Logic.Function.Basic

/-
  A heap of nodes that are allocated and freed.

  An access to a node that is not allocated is a fault, which
  is `none`.

  Main declarations:
    * `Heap`
    * `Heap.read`, `Heap.modify`, `Heap.free`
    * `Heap.read_of_mem`
    * `Heap.modify_of_mem`
-/

---
-- Heaps
---

namespace Efl

open Function

/- The allocated nodes, and what the nodes hold. -/
structure Heap (N α : Type) where
  live : Finset N
  node : N → α

namespace Heap

variable {N α : Type} [DecidableEq N]

def read (h : Heap N α) (n : N) : Option α :=
  if n ∈ h.live then some (h.node n) else none

/- The heap with another content of a node. -/
def set (h : Heap N α) (n : N) (x : α) : Heap N α :=
  { h with node := update h.node n x }

def modify (h : Heap N α) (n : N) (f : α → α) : Option (Heap N α) :=
  if n ∈ h.live then some (h.set n (f (h.node n))) else none

/- A new node, at an address that the allocator has chosen. -/
def alloc (h : Heap N α) (n : N) (x : α) : Heap N α where
  live := insert n h.live
  node := update h.node n x

def free (h : Heap N α) (n : N) : Option (Heap N α) :=
  if n ∈ h.live then
    some { h with live := h.live.erase n }
  else
    none

theorem read_of_mem {h : Heap N α} {n : N} (hLive : n ∈ h.live) :
    h.read n = some (h.node n) := if_pos hLive

theorem modify_of_mem {h : Heap N α} {n : N} (f : α → α)
    (hLive : n ∈ h.live) : h.modify n f = some (h.set n (f (h.node n))) := if_pos hLive

theorem free_of_mem {h : Heap N α} {n : N} (hLive : n ∈ h.live) :
    h.free n = some { h with live := h.live.erase n } := if_pos hLive

@[simp] theorem live_set (h : Heap N α) (n : N) (x : α) : (h.set n x).live = h.live := rfl

@[simp] theorem node_set (h : Heap N α) (n : N) (x : α) : (h.set n x).node = update h.node n x :=
  rfl

@[simp] theorem live_alloc (h : Heap N α) (n : N) (x : α) : (h.alloc n x).live = insert n h.live :=
  rfl

@[simp] theorem node_alloc (h : Heap N α) (n : N) (x : α) :
    (h.alloc n x).node = update h.node n x := rfl

theorem set_eq_self (h : Heap N α) (n : N) : h.set n (h.node n) = h := by
  unfold set
  rw [update_eq_self]

/- Distinct allocated nodes are not more than all of them. -/
theorem length_le_card {h : Heap N α} {ns : List N}
    (hNodup : ns.Nodup) (hLive : ∀ n ∈ ns, n ∈ h.live) : ns.length ≤ h.live.card := by
  rw [← List.toFinset_card_of_nodup hNodup]
  apply Finset.card_le_card
  intro n hn
  exact hLive n (List.mem_toFinset.mp hn)

end Heap

end Efl
