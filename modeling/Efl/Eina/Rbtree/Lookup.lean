import Efl.Eina.Rbtree.Correctness
import Efl.Eina.Rbtree.Traversal

/-
  The lookup and the traversal in a red-black tree, an insertion
  at its left end, and the lookup and the iterator after a run.

  Main declarations:
    * `inlineLookup`, `inorder`
    * `inlineLookup_of_split`, `inlineLookup_eq_some`
    * `inlineLookup_of_mem`, `inlineLookup_of_notMem`
    * `lookup_after_run`, `infix_after_run`
-/

---
-- Lookup
---

namespace Efl.Eina.Rbtree

open RedBlack List

variable {N : Type}

/- `eina_rbtree_inline_lookup`, for the key that `cmp` has -/
def inlineLookup (cmp : N → Int) (m : Mem N) : Nat → Option N → Option (Option N)
  | _, none => some none
  | 0, some _ => none
  | fuel + 1, some root =>
    let result := cmp root
    if result ≠ 0 then
      inlineLookup cmp m fuel
        ((m.node root).son
          (if result < 0 then .left else .right))
    else
      some (some root)

variable {K : Type} [LinearOrder K]

variable {cmp : N → Int} {m : Mem N} {p : Option N} {t : Tree N}
  {n : N} {fuel : Nat}

/- One comparison leads to a subtree, and fewer are left. -/
theorem inlineLookup_node {c : Color} {l : Tree N} {r : Tree N} {q : N}
    (hRepr : Repr m p (.node c l q r))
    (hFuel : (RedBlack.Tree.node c l q r).toList.length ≤ fuel) :
    ∃ fuel' pl pr, Repr m pl l ∧ Repr m pr r ∧
      l.toList.length ≤ fuel' ∧ r.toList.length ≤ fuel' ∧
      inlineLookup cmp m fuel p =
        if cmp q = 0 then some (some q)
        else inlineLookup cmp m fuel' (if cmp q < 0 then pl else pr) := by
  rcases hRepr with ⟨rfl, -, hl, hr⟩
  rw [Tree.toList_node, length_append, length_cons] at hFuel
  cases fuel with
  | zero => omega
  | succ fuel =>
    refine ⟨fuel, _, _, hl, hr, by omega, by omega, ?_⟩
    by_cases hHere : cmp q = 0
    · simp [inlineLookup, hHere]
    · by_cases hLess : cmp q < 0 <;> simp [inlineLookup, hHere, hLess]

section

variable (hRepr : Repr m p t)

include hRepr

/- A key that no node has is not found. -/
theorem inlineLookup_of_notMem (hNone : ∀ q ∈ t.toList, cmp q ≠ 0)
    (hFuel : t.toList.length ≤ fuel) : inlineLookup cmp m fuel p = some none := by
  induction t generalizing p fuel with
  | nil =>
    obtain rfl : p = none := hRepr
    cases fuel <;> rfl
  | node c l q r ihLeft ihRight =>
    rcases inlineLookup_node hRepr hFuel with ⟨fuel', pl, pr, hl, hr, hLeft, hRight, hStep⟩
    rw [hStep, if_neg (hNone q (by simp))]
    split
    · exact ihLeft hl (fun k hk => hNone k (by simp [hk])) hLeft
    · exact ihRight hr (fun k hk => hNone k (by simp [hk])) hRight

---
-- Traversal
---

/- The nodes from left to right -/
def inorder (m : Mem N) : Nat → Option N → Option (List N)
  | _, none => some []
  | 0, some _ => none
  | fuel + 1, some n => do
    let before ← inorder m fuel ((m.node n).son .left)
    let after ← inorder m fuel ((m.node n).son .right)
    some (before ++ n :: after)

theorem inorder_spec
    (hFuel : t.toList.length ≤ fuel) : inorder m fuel p = some t.toList := by
  induction t generalizing p fuel with
  | nil =>
    obtain rfl : p = none := hRepr
    cases fuel <;> rfl
  | node c l n r ihLeft ihRight =>
    rcases hRepr with ⟨rfl, -, hLeft, hRight⟩
    rw [Tree.toList_node, length_append, length_cons] at hFuel
    cases fuel with
    | zero => omega
    | succ fuel =>
      rw [inorder, ihLeft hLeft (by omega), ihRight hRight (by omega)]
      rfl

/- A node that the nodes on both sides of it lead to -/
theorem inlineLookup_of_split {before after : List N} (hSplit : t.toList = before ++ n :: after)
    (hHere : cmp n = 0) (hBefore : ∀ q ∈ before, 0 < cmp q)
    (hAfter : ∀ q ∈ after, cmp q < 0) (hFuel : t.toList.length ≤ fuel) :
    inlineLookup cmp m fuel p = some (some n) := by
  induction t generalizing p fuel before after with
  | nil => exact absurd hSplit (by simp)
  | node c l q r ihLeft ihRight =>
    rcases inlineLookup_node hRepr hFuel with ⟨fuel', pl, pr, hl, hr, hLeft, hRight, hStep⟩
    rw [Tree.toList_node] at hSplit
    rw [hStep]
    rcases append_eq_append_iff.mp hSplit with ⟨front, hFront, hBack⟩ | ⟨back, hBack, hFront⟩
    · cases front with
      | nil =>
        obtain ⟨rfl, -⟩ := List.cons.inj hBack
        rw [if_pos hHere]
      | cons k front =>
        obtain ⟨rfl, hRest⟩ := List.cons.inj hBack
        have hMore := hBefore q (by simp [hFront])
        rw [if_neg hMore.ne', if_neg hMore.not_gt]
        exact ihRight hr hRest (fun k hk => hBefore k (by simp [hFront, hk])) hAfter hRight
    · cases back with
      | nil =>
        obtain ⟨rfl, -⟩ := List.cons.inj hFront
        rw [if_pos hHere]
      | cons k back =>
        obtain ⟨rfl, hRest⟩ := List.cons.inj hFront
        have hLess := hAfter q (by simp [hRest])
        rw [if_neg hLess.ne, if_pos hLess]
        exact ihLeft hl hBack hBefore (fun k hk => hAfter k (by simp [hRest, hk])) hLeft

/-
  A node whose key is found: the nodes with smaller keys
  lead to the right, and those with larger keys to the left.
-/
theorem inlineLookup_of_mem {key : N → K}
    (hSorted : Ascending key t.toList) (hMem : n ∈ t.toList) (hHere : cmp n = 0)
    (hBelow : ∀ q ∈ t.toList, key q < key n → 0 < cmp q)
    (hAbove : ∀ q ∈ t.toList, key n < key q → cmp q < 0)
    (hFuel : t.toList.length ≤ fuel) : inlineLookup cmp m fuel p = some (some n) := by
  rcases append_of_mem hMem with ⟨before, after, hSplit⟩
  rw [hSplit] at hSorted hBelow hAbove
  rcases pairwise_append.mp hSorted with ⟨-, hAfter, hBefore⟩
  exact inlineLookup_of_split hRepr hSplit hHere
    (fun q hq => hBelow q (by simp [hq]) (hBefore q hq n mem_cons_self))
    (fun q hq => hAbove q (by simp [hq]) ((pairwise_cons.mp hAfter).1 q hq)) hFuel

omit hRepr in
theorem inlineLookup_isSome (cmp : N → Int) (hRepr : Repr m p t)
    (hFuel : t.toList.length ≤ fuel) : ∃ found, inlineLookup cmp m fuel p = some found := by
  induction t generalizing p fuel with
  | nil =>
    obtain rfl : p = none := hRepr
    exact ⟨none, by cases fuel <;> rfl⟩
  | node c l q r ihLeft ihRight =>
    rcases inlineLookup_node hRepr hFuel with ⟨fuel', pl, pr, hl, hr, hLeft, hRight, hStep⟩
    rw [hStep]
    by_cases hHere : cmp q = 0
    · exact ⟨some q, if_pos hHere⟩
    rw [if_neg hHere]
    split
    · exact ihLeft hl hLeft
    · exact ihRight hr hRight

/- What is found has the key. -/
theorem inlineLookup_eq_some
    (hFound : inlineLookup cmp m fuel p = some (some n)) : n ∈ t.toList ∧ cmp n = 0 := by
  induction t generalizing p fuel with
  | nil =>
    obtain rfl : p = none := hRepr
    cases fuel <;> exact absurd hFound (by simp [inlineLookup])
  | node c l q r ihLeft ihRight =>
    rcases hRepr with ⟨rfl, -, hl, hr⟩
    rw [Tree.toList_node, mem_append, mem_cons]
    cases fuel with
    | zero => exact nomatch hFound
    | succ fuel =>
      rw [inlineLookup] at hFound
      by_cases hHere : cmp q = 0
      · rw [if_neg (not_not.mpr hHere)] at hFound
        obtain rfl := Option.some.inj (Option.some.inj hFound)
        exact ⟨Or.inr (Or.inl rfl), hHere⟩
      rw [if_pos hHere] at hFound
      by_cases hLess : cmp q < 0
      · rw [if_pos hLess] at hFound
        rcases ihLeft hl hFound with ⟨hMem, hKey⟩
        exact ⟨Or.inl hMem, hKey⟩
      · rw [if_neg hLess] at hFound
        rcases ihRight hr hFound with ⟨hMem, hKey⟩
        exact ⟨Or.inr (Or.inr hMem), hKey⟩

/- When all nodes lead to the left end, it is looked at. -/
theorem inlineLookup_left_end {after : List N}
    (hEnd : t.toList = n :: after) (hLeft : ∀ q ∈ t.toList, cmp q ≤ 0)
    (hFound : inlineLookup cmp m fuel p = some none) : cmp n < 0 := by
  induction t generalizing p fuel after with
  | nil => exact nomatch hEnd
  | node c l q r ihLeft ihRight =>
    rcases hRepr with ⟨rfl, -, hl, -⟩
    rw [Tree.toList_node] at hEnd
    have hHere := hLeft q (by simp)
    cases fuel with
    | zero => exact nomatch hFound
    | succ fuel =>
      rw [inlineLookup] at hFound
      by_cases hKey : cmp q = 0
      · rw [if_neg (not_not.mpr hKey)] at hFound
        exact nomatch hFound
      rw [if_pos hKey, if_pos (by omega)] at hFound
      cases hList : l.toList with
      | nil =>
        rw [hList] at hEnd
        obtain ⟨rfl, -⟩ := List.cons.inj hEnd
        omega
      | cons k rest =>
        rw [hList] at hEnd
        obtain ⟨rfl, -⟩ := List.cons.inj hEnd
        exact ihLeft hl hList (fun q hq => hLeft q (by simp [hq])) hFound

end

---
-- Insertion at the Left End
---

theorem insertDepth_left {cmp : N → N → Side}
    (hLeft : ∀ q ∈ t.toList, cmp q n = .left) : insertDepth cmp n t = leftDepth t := by
  induction t with
  | nil => rfl
  | node c l q r ihLeft ihRight =>
    rw [insertDepth, hLeft q (by simp)]
    dsimp only
    rw [ihLeft fun k hk => hLeft k (by simp [hk])]
    rfl

theorem toList_insertPath_left {cmp : N → N → Side} {fs : List (Frame N)} {before after : List N}
    (hLeft : ∀ q ∈ t.toList, cmp q n = .left)
    (hFill : ∀ u, (fill fs u).toList = before ++ u.toList ++ after)
    (u : Tree N) :
    (fill (insertPath cmp n t fs) u).toList = before ++ u.toList ++ (t.toList ++ after) := by
  induction t generalizing fs after with
  | nil => exact hFill u
  | node c l q r ihLeft ihRight =>
    rw [insertPath, hLeft q (by simp)]
    have hNext : ∀ u, (fill (⟨.left, c, q, r⟩ :: fs) u).toList =
          before ++ u.toList ++ (q :: r.toList ++ after) := by
      intro u
      simp [hFill, Frame.fill, Tree.mk]
    dsimp only
    rw [ihLeft (fun k hk => hLeft k (by simp [hk])) hNext]
    simp

/- A node that all others have to its right comes first. -/
theorem toList_insertTree_left {cmp : N → N → Side}
    (hLeft : ∀ q ∈ t.toList, cmp q n = .left) : (insertTree cmp n t).toList = n :: t.toList := by
  have hFill : ∀ u : Tree N, (fill [] u).toList = [] ++ u.toList ++ [] := by
    simp
  unfold insertTree
  rw [Tree.toList_blacken, toList_insertRepair, toList_insertPath_left hLeft hFill]
  simp

---
-- After a Run
---

/- No path is longer than the tree is high. -/
theorem inlineLookup_of_height {fuel' : Nat} (hRepr : Repr m p t)
    (hFuel : t.height ≤ fuel) (hFuel' : t.height ≤ fuel') :
    inlineLookup cmp m fuel p = inlineLookup cmp m fuel' p := by
  induction t generalizing p fuel fuel' with
  | nil =>
    obtain rfl : p = none := hRepr
    cases fuel <;> cases fuel' <;> rfl
  | node c l q r ihLeft ihRight =>
    rcases hRepr with ⟨rfl, -, hl, hr⟩
    rw [RedBlack.Tree.height] at hFuel hFuel'
    rcases fuel with - | fuel
    · omega
    rcases fuel' with - | fuel'
    · omega
    rw [inlineLookup, inlineLookup]
    by_cases hLess : cmp q < 0
    · simp only [hLess, if_true, ihLeft hl (show _ ≤ fuel by omega) (show _ ≤ fuel' by omega)]
    · simp only [hLess, if_false, ihRight hr (show _ ≤ fuel by omega) (show _ ≤ fuel' by omega)]

variable [DecidableEq N] {key : N → K} {s : State N}

theorem IsTree.height_le (hTree : IsTree key s t) :
    t.height ≤ 2 * Nat.log2 (s.present.card + 1) := by
  rcases hTree.balanced with ⟨k, hBalanced⟩
  have hHeight := hBalanced.height_le
  have hSize := hBalanced.pow_le_size
  rw [hTree.black, if_neg (by simp)] at hHeight
  rw [hTree.length_eq] at hSize
  have hLevels : k ≤ Nat.log2 (s.present.card + 1) := (Nat.le_log2 (Nat.succ_ne_zero _)).mpr hSize
  omega

/-
  After every run, a key is looked up in two comparisons for each
  doubling of the tree, and its node is found if there is one.
-/
theorem lookup_after_run {cmp : N → N → Side} (hCmp : Consistent cmp key)
    {m : Mem N} {ops : List (Op N)} (hEmpty : m.root = none) (hGuarded : Runs.Guarded (step cmp)
      (fun s op => Admissible key s op ∧ Fits cmp s op) ⟨m, ∅⟩ ops)
    {k : K} {probe : N → Int} (hProbe : ∀ q,
      (probe q = 0 ↔ key q = k) ∧ (probe q < 0 ↔ k < key q)) :
    ∃ s found, Runs.run (step cmp) ⟨m, ∅⟩ ops = some s ∧
      (∀ fuel, 2 * Nat.log2 (s.present.card + 1) ≤ fuel →
        inlineLookup probe s.mem fuel s.mem.root = some found) ∧
      ∀ n, found = some n ↔ n ∈ s.present ∧ key n = k := by
  rcases run_isTree hCmp hEmpty hGuarded with ⟨s, hRun, t, hTree⟩
  rcases inlineLookup_isSome probe hTree.repr (le_max_right t.height _) with ⟨found, hFound⟩
  refine ⟨s, found, hRun, fun fuel hFuel => ?_, fun n => ?_⟩
  · rw [← hFound]
    exact inlineLookup_of_height hTree.repr (hTree.height_le.trans hFuel) (le_max_left _ _)
  · rw [← hTree.mem_iff, ← (hProbe n).1]
    constructor
    · rintro rfl
      exact inlineLookup_eq_some hTree.repr hFound
    · rintro ⟨hMem, hHere⟩
      have hKey := (hProbe n).1.mp hHere
      have hThis := inlineLookup_of_mem hTree.repr hTree.ascending hMem hHere
        (fun q _ hLess => ?_) (fun q _ hMore => ?_) (le_max_right t.height _)
      · exact Option.some.inj (hFound.symm.trans hThis)
      · have hSome := hProbe q
        grind
      · exact (hProbe q).2.mpr (hKey ▸ hMore)

/- The node 1 stays when the node 0 is removed. -/
theorem guarded_sample : Runs.Guarded (step natCmp)
    (fun s op => Admissible (fun n : Nat => n) s op ∧ Fits natCmp s op) ⟨emptyMem, ∅⟩
    [.insert 1, .remove 0] := by
  apply guarded_of_length consistent_natCmp (isTree_empty rfl)
  · exact ⟨by simp [Admissible], fun _ _ => ⟨trivial, fun _ _ => trivial⟩⟩
  · simp

theorem lookup_after_run_sample :
    ∃ s found,
      Runs.run (step natCmp) ⟨emptyMem, ∅⟩ [.insert 1, .remove 0] = some s ∧
      (∀ fuel, 2 * Nat.log2 (s.present.card + 1) ≤ fuel →
        inlineLookup (fun q : Nat => 1 - q) s.mem fuel s.mem.root = some found) ∧
      ∀ n, found = some n ↔ n ∈ s.present ∧ n = 1 := by
  apply lookup_after_run consistent_natCmp rfl guarded_sample
  intro q
  omega

/- The calls of an infix iterator give these nodes, and then none. -/
def InfixGives (m : Mem N) (malloc : Nat → Bool) (it : Iterator N) (fuel : Nat) (ns : List N) :
    Prop :=
  ∀ count, ∃ it', iteratorBuild malloc it m.root infixMask = some (some it') ∧
    iteratorCalls m malloc fuel count it' =
      some ((List.range count).map fun i => ns[i]?.map some)

/-
  After every run, an infix iterator gives all nodes, each once,
  from the largest key down.
-/
theorem infix_after_run {cmp : N → N → Side} (hCmp : Consistent cmp key)
    {m : Mem N} {ops : List (Op N)} (hEmpty : m.root = none) (hGuarded : Runs.Guarded (step cmp)
      (fun s op => Admissible key s op ∧ Fits cmp s op) ⟨m, ∅⟩ ops)
    {malloc : Nat → Bool} (hMalloc : ∀ b, malloc b = true) {it : Iterator N} (hIdle : Idle it) :
    ∃ s, ∃ ns : List N, Runs.run (step cmp) ⟨m, ∅⟩ ops = some s ∧
      ns.Pairwise (fun a b => key b < key a) ∧ (∀ n, n ∈ ns ↔ n ∈ s.present) ∧
      ∀ fuel, 2 * s.present.card < fuel → InfixGives s.mem malloc it fuel ns := by
  rcases run_isTree hCmp hEmpty hGuarded with ⟨s, hRun, t, hTree⟩
  refine ⟨s, t.toList.reverse, hRun, pairwise_reverse.mpr hTree.ascending,
    fun n => mem_reverse.trans (hTree.mem_iff n), fun fuel hFuel => ?_⟩
  rw [← hTree.length_eq] at hFuel
  rw [← infixNodes_eq, ← visit_infixMask]
  exact iteratorBuild_spec hMalloc hIdle hTree.repr hFuel infixMask

theorem infix_after_run_sample :
    ∃ s, ∃ ns : List Nat,
      Runs.run (step natCmp) ⟨emptyMem, ∅⟩ [.insert 1, .remove 0] = some s ∧
      ns.Pairwise (fun a b => b < a) ∧ (∀ n, n ∈ ns ↔ n ∈ s.present) ∧
      ∀ fuel, 2 * s.present.card < fuel →
        InfixGives s.mem (fun _ => true) (Iterator.new Nat) fuel ns :=
  infix_after_run consistent_natCmp rfl guarded_sample (fun _ => rfl) idle_new

end Efl.Eina.Rbtree
