import Efl.Eina.Rbtree.Correctness

/-
  The path stack of small trees.

  Neither the balance of the tree nor what a call keeps on
  its stack depends on the order of the nodes.  So the bound
  holds for all callbacks, also for ones that send equal
  nodes anywhere and change from call to call.

  Main declarations:
    * `Rbtree.Call`, `Rbtree.call`
    * `Rbtree.Unlinked`
    * `Rbtree.call_isBalanced`
    * `Rbtree.call_eq_none`
-/

---
-- Calls with any Callback
---

namespace Efl.Eina.Rbtree

open RedBlack

variable {N : Type} [DecidableEq N]

/- A call, with the callback and data it is given. -/
structure Call (N : Type) where
  cmp : N → N → Side
  op : Op N

/- The call on the nodes, storing what it returns in the root. -/
def call (m : Mem N) (c : Call N) : Option (Mem N) :=
  match c.op with
  | .insert n => inlineInsert c.cmp m n
  | .remove n => inlineRemove c.cmp m n

/- A node is inserted while it is not in the tree. -/
def Unlinked (m : Mem N) (c : Call N) : Prop :=
  match c.op with
  | .insert n => ∀ t, Repr m m.root t → n ∉ t.toList
  | .remove _ => True

/- The memory holds the red-black tree `t`, in any order. -/
structure IsBalanced (m : Mem N) (t : Tree N) : Prop where
  repr : Repr m m.root t
  black : t.color = .black
  balanced : ∃ k, t.Balanced k
  nodup : t.toList.Nodup

variable {m : Mem N}

omit [DecidableEq N] in
theorem isBalanced_empty (hEmpty : m.root = none) : IsBalanced m .nil where
  repr := hEmpty
  black := rfl
  balanced := ⟨0, rfl⟩
  nodup := List.nodup_nil

variable {t : Tree N}

section

variable (hTree : IsBalanced m t)

include hTree

/- A call with room on the stack keeps the tree balanced. -/
theorem call_isBalanced {c : Call N} (hUnlinked : Unlinked m c)
    (hRoom : opDepth c.cmp c.op t ≤ stackSize) :
    ∃ m' t', call m c = some m' ∧ IsBalanced m' t' := by
  rcases hTree.balanced with ⟨k, hBalanced⟩
  rcases c with ⟨cmp, op⟩
  cases op with
  | insert n =>
    rcases inlineInsert_spec hTree.repr hTree.nodup
        (hUnlinked t hTree.repr) hRoom with ⟨m', hCall, hRepr, hNodup⟩
    exact ⟨m', insertTree cmp n t, hCall, hRepr, Tree.color_blacken _,
      insertTree_balanced cmp n hBalanced, hNodup⟩
  | remove n =>
    rcases inlineRemove_spec hTree.repr hTree.nodup hRoom with ⟨m', hCall, hRepr, hNodup, -⟩
    refine ⟨m', removeTree cmp n t, hCall, hRepr, ?_, removeTree_balanced cmp n hBalanced, hNodup⟩
    have hBlack := hTree.black
    unfold removeTree
    split
    · exact hBlack
    · exact Tree.color_blacken _

/- A call that needs more entries writes behind the stack. -/
theorem call_eq_none {c : Call N} (hRoom : stackSize < opDepth c.cmp c.op t) : call m c = none := by
  rcases c with ⟨cmp, op⟩
  cases op with
  | insert n => exact inlineInsert_eq_none hTree.repr hTree.nodup hRoom
  | remove n => exact inlineRemove_eq_none hTree.repr hTree.nodup hRoom

omit [DecidableEq N] in
/- A tree of `k` black levels has at least `2 ^ k - 1` nodes. -/
theorem IsBalanced.height_le {k : Nat}
    (hCount : t.toList.length + 1 < 2 ^ (k + 1)) : t.height ≤ 2 * k := by
  rcases hTree.balanced with ⟨j, hBalanced⟩
  have hSize := hBalanced.pow_le_size
  have hHeight := hBalanced.height_le
  rw [hTree.black, if_neg (by simp)] at hHeight
  have hLevels : j < k + 1 := by
    by_contra hMany
    have hPow : 2 ^ (k + 1) ≤ 2 ^ j := Nat.pow_le_pow_right (by decide) (Nat.le_of_not_lt hMany)
    omega
  omega

/- One entry at most for each node on a way down. -/
theorem IsBalanced.opDepth_le {k : Nat}
    (hCount : t.toList.length + 1 < 2 ^ (k + 1)) (cmp : N → N → Side)
    (op : Op N) : opDepth cmp op t ≤ 2 * k := by
  have hHeight := hTree.height_le hCount
  cases op with
  | insert n => exact (insertDepth_le_height cmp n t).trans hHeight
  | remove n => exact (removeDepth_le_height cmp n t).trans hHeight

end

/- What the calls that return lead to is balanced. -/
theorem run_isBalanced {m' : Mem N} {calls : List (Call N)}
    (hEmpty : m.root = none) (hGuarded : Runs.Guarded call Unlinked m calls)
    (hRun : Runs.run call m calls = some m') : ∃ t, IsBalanced m' t := by
  refine Runs.inv_of_run (fun m => ∃ t, IsBalanced m t)
    ?_ ⟨.nil, isBalanced_empty hEmpty⟩ hGuarded hRun
  intro m c m' hInv hUnlinked hCall
  rcases hInv with ⟨t, hTree⟩
  have hRoom : opDepth c.cmp c.op t ≤ stackSize := by
    by_contra hOver
    rw [call_eq_none hTree (Nat.lt_of_not_le hOver)] at hCall
    exact nomatch hCall
  rcases call_isBalanced hTree hUnlinked hRoom with ⟨m'', t', hCall', hTree'⟩
  obtain rfl : m' = m'' := Option.some.inj (hCall.symm.trans hCall')
  exact ⟨t', hTree'⟩

/-
  After any calls that return, on a tree of fewer than
  `2 ^ 24 - 1` nodes: a further call pushes 48 entries at
  most, and returns.
-/
theorem path_index_le {m m' : Mem N} {calls : List (Call N)}
    (hEmpty : m.root = none)
    (hGuarded : Runs.Guarded call Unlinked m calls)
    (hRun : Runs.run call m calls = some m') :
    ∃ t, Repr m' m'.root t ∧
      (t.toList.length < 2 ^ 24 - 1 →
        ∀ c : Call N,
          opDepth c.cmp c.op t ≤ stackSize ∧
            (Unlinked m' c → (call m' c).isSome)) := by
  rcases run_isBalanced hEmpty hGuarded hRun with ⟨t, hTree⟩
  refine ⟨t, hTree.repr, fun hCount c => ?_⟩
  have hStack : stackSize = 48 := rfl
  have hRoom : opDepth c.cmp c.op t ≤ stackSize := by
    have hDepth := hTree.opDepth_le (k := 23) (by omega) c.cmp c.op
    omega
  refine ⟨hRoom, fun hUnlinked => ?_⟩
  rcases call_isBalanced hTree hUnlinked hRoom with ⟨m'', t', hCall, -⟩
  rw [hCall]
  rfl

/- Two nodes that the callback takes for equal. -/
def equalCalls : List (Call Nat) :=
  [⟨fun _ _ => .left, .insert 0⟩,
    ⟨fun _ _ => .left, .insert 1⟩]

theorem path_index_le_sample :
    ∃ m', Runs.run call emptyMem equalCalls = some m' ∧
      ∃ t, Repr m' m'.root t ∧
        (t.toList.length < 2 ^ 24 - 1 → ∀ c : Call Nat,
          opDepth c.cmp c.op t ≤ stackSize ∧
          (Unlinked m' c → (call m' c).isSome)) := by
  have hSome : (Runs.run call emptyMem equalCalls).isSome := by
    decide
  rcases Option.isSome_iff_exists.mp hSome with ⟨m', hRun⟩
  refine ⟨m', hRun, path_index_le rfl ?_ hRun⟩
  refine ⟨?_, fun m₁ hFirst => ⟨?_, fun _ _ => trivial⟩⟩
  · intro t hRepr
    obtain rfl : t = .nil := hRepr.unique (u := .nil) rfl
    simp
  · intro t hRepr
    obtain rfl := Option.some.inj hFirst
    obtain rfl : t = .node .black .nil 0 .nil :=
      hRepr.unique ⟨rfl, rfl, rfl, rfl⟩
    simp

end Efl.Eina.Rbtree
