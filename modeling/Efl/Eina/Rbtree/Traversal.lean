import Efl.Lib.Chain
import Efl.Eina.Rbtree.Iterator
import Efl.Eina.Rbtree.Represent

/-
  The iterators follow the recursive traversals.

  On the contents of its stack the function is `nextEntries`;
  the heap is only there to hold them.  What the entries on
  the stack still have to yield is a list of nodes, and every
  call takes its head.

  Main declarations:
    * `prefixNodes`, `infixNodes`, `postfixNodes`
    * `Stacked`
    * `iteratorNext_follows`
    * `nextEntries_spec`
-/

---
-- Traversals
---

namespace Efl.Eina.Rbtree

open RedBlack List Option

variable {N : Type}

/- The node, then `son[1]`, then `son[0]`. -/
def prefixNodes : Tree N → List N
  | .nil => []
  | .node _ l n r => n :: (prefixNodes r ++ prefixNodes l)

/- `son[1]`, then the node, then `son[0]`. -/
def infixNodes : Tree N → List N
  | .nil => []
  | .node _ l n r => infixNodes r ++ n :: infixNodes l

/- `son[1]`, then `son[0]`, then the node. -/
def postfixNodes : Tree N → List N
  | .nil => []
  | .node _ l n r => postfixNodes r ++ (postfixNodes l ++ [n])

/- The node, if the mask asks for it here. -/
def yields (mask bit : Nat) (n : N) : List N :=
  if masked mask bit then [n] else []

/- All three at once. -/
def visit (mask : Nat) : Tree N → List N
  | .nil => []
  | .node _ l n r =>
    yields mask prefixMask n ++ (visit mask r ++
      (yields mask infixMask n ++ (visit mask l ++
        yields mask postfixMask n)))

theorem visit_prefixMask (t : Tree N) : visit prefixMask t = prefixNodes t := by
  induction t with
  | nil => rfl
  | node c l n r ihLeft ihRight =>
    rw [visit, ihLeft, ihRight, prefixNodes]
    simp [yields, masked, prefixMask, infixMask, postfixMask]

theorem visit_infixMask (t : Tree N) : visit infixMask t = infixNodes t := by
  induction t with
  | nil => rfl
  | node c l n r ihLeft ihRight =>
    rw [visit, ihLeft, ihRight, infixNodes]
    simp [yields, masked, prefixMask, infixMask, postfixMask]

theorem visit_postfixMask (t : Tree N) : visit postfixMask t = postfixNodes t := by
  induction t with
  | nil => rfl
  | node c l n r ihLeft ihRight =>
    rw [visit, ihLeft, ihRight, postfixNodes]
    simp [yields, masked, prefixMask, infixMask, postfixMask]

/- Each node exactly once. -/
theorem prefixNodes_perm (t : Tree N) : (prefixNodes t).Perm t.toList := by
  induction t with
  | nil => exact .refl _
  | node c l n r ihLeft ihRight =>
    rw [Tree.toList_node]
    refine .trans ?_ perm_middle.symm
    refine .cons n (.trans perm_append_comm ?_)
    exact ihLeft.append ihRight

theorem infixNodes_eq (t : Tree N) : infixNodes t = t.toList.reverse := by
  induction t with
  | nil => rfl
  | node c l n r ihLeft ihRight => simp [infixNodes, ihLeft, ihRight]

theorem postfixNodes_perm (t : Tree N) : (postfixNodes t).Perm t.toList := by
  induction t with
  | nil => exact .refl _
  | node c l n r ihLeft ihRight =>
    rw [Tree.toList_node, postfixNodes, ← append_assoc]
    refine .trans (perm_append_singleton n _) ?_
    refine .trans ?_ perm_middle.symm
    exact .cons n (.trans perm_append_comm (ihLeft.append ihRight))

---
-- The Stack in the Heap
---

/- The block after a block in the trash. -/
def Iterator.nextTrash (it : Iterator N) (a : Nat) : Option Nat :=
  match it.cell a with
  | .entry _ => none
  | .trash next => next

/- The blocks in the trash. -/
structure Trashed (it : Iterator N) (ts : List Nat) : Prop where
  chain : Chain.Seg it.nextTrash it.trash ts
  free : ∀ a ∈ ts, ∃ next, it.cell a = .trash next

/-
  The blocks `stack` hold the entries `es`, and are apart
  from each other and from the trash.
-/
structure Stacked (it : Iterator N) (stack : List Nat) (es : List (Entry N)) : Prop where
  cells : stack.map it.cell = es.map Cell.entry
  trash : ∃ ts, Trashed it ts ∧ (stack ++ ts).Nodup ∧
    ∀ a ∈ stack ++ ts, a < it.fresh

variable {it : Iterator N} {a : Nat} {stack : List Nat}
variable {e : Entry N} {es : List (Entry N)}

theorem Stacked.entry (hStacked : Stacked it (a :: stack) (e :: es)) : it.entry a = some e := by
  have hCell := (List.cons.inj hStacked.cells).1
  simp [Iterator.entry, hCell]

theorem Stacked.entry_below {b : Nat} {below : Entry N} (hStacked :
      Stacked it (a :: b :: stack) (e :: below :: es)) : it.entry b = some below := by
  have hCells := (List.cons.inj hStacked.cells).2
  have hCell := (List.cons.inj hCells).1
  simp [Iterator.entry, hCell]

theorem Stacked.eq_nil (hStacked : Stacked it [] es) : es = [] := by
  simpa using hStacked.cells.symm

theorem Stacked.exists_cons (hStacked : Stacked it (a :: stack) es) : ∃ e rest, es = e :: rest := by
  have hCells := hStacked.cells
  cases es with
  | nil => simp at hCells
  | cons e rest => exact ⟨e, rest, rfl⟩

/- Blocks that keep what they hold. -/
theorem Trashed.congr {it' : Iterator N} {ts : List Nat}
    (hTrashed : Trashed it ts) (hTrash : it'.trash = it.trash)
    (hCell : ∀ b ∈ ts, it'.cell b = it.cell b) : Trashed it' ts where
  chain := by
    rw [hTrash]
    apply hTrashed.chain.congr
    intro b hMem
    simp [Iterator.nextTrash, hCell b hMem]
  free b hMem := by
    rw [hCell b hMem]
    exact hTrashed.free b hMem

/- The array and the mask do not matter. -/
theorem Stacked.congr {it' : Iterator N}
    (hStacked : Stacked it stack es) (hCell : it'.cell = it.cell)
    (hTrash : it'.trash = it.trash) (hFresh : it'.fresh = it.fresh) : Stacked it' stack es := by
  rcases hStacked with ⟨hCells, ts, hTrashed, hNodup, hLess⟩
  refine ⟨by rw [hCell]; exact hCells, ts, hTrashed.congr hTrash (by simp [hCell]), hNodup, ?_⟩
  rw [hFresh]
  exact hLess

theorem Stacked.setEntry (e' : Entry N)
    (hStacked : Stacked it (a :: stack) (e :: es)) :
    Stacked (it.setEntry a e') (a :: stack) (e' :: es) := by
  rcases hStacked with ⟨hCells, ts, hTrashed, hNodup, hFresh⟩
  have hOut := (nodup_cons.mp hNodup).1
  have hKeep : ∀ b, b ∈ stack ++ ts → (it.setEntry a e').cell b = it.cell b := by
    intro b hMem
    have hApart : b ≠ a := by
      rintro rfl
      exact hOut hMem
    simp [Iterator.setEntry, hApart]
  refine ⟨?_, ts, hTrashed.congr rfl fun b hMem => hKeep b (by simp [hMem]), hNodup, hFresh⟩
  rw [map_cons, map_cons]
  congr 1
  · simp [Iterator.setEntry]
  · rw [← (List.cons.inj hCells).2]
    apply map_congr_left
    intro b hMem
    exact hKeep b (by simp [hMem])

/- A block that was popped goes to the trash. -/
theorem Stacked.trashPush
    (hStacked : Stacked it (a :: stack) (e :: es)) : Stacked (it.trashPush a) stack es := by
  rcases hStacked with ⟨hCells, ts, hTrashed, hNodup, hFresh⟩
  have hOut := (nodup_cons.mp hNodup).1
  have hKeep : ∀ b, b ∈ stack ++ ts → (it.trashPush a).cell b = it.cell b := by
    intro b hMem
    have hApart : b ≠ a := by
      rintro rfl
      exact hOut hMem
    simp [Iterator.trashPush, hApart]
  refine ⟨?_, a :: ts, ⟨⟨rfl, ?_⟩, ?_⟩, ?_, ?_⟩
  · rw [← (List.cons.inj hCells).2]
    apply map_congr_left
    intro b hMem
    exact hKeep b (by simp [hMem])
  · have hLink : (it.trashPush a).nextTrash a = it.trash := by
      simp [Iterator.nextTrash, Iterator.trashPush]
    rw [hLink]
    apply hTrashed.chain.congr
    intro b hMem
    simp [Iterator.nextTrash, hKeep b (by simp [hMem])]
  · intro b hMem
    rcases mem_cons.mp hMem with rfl | hMem
    · exact ⟨it.trash, by simp [Iterator.trashPush]⟩
    · rw [hKeep b (by simp [hMem])]
      exact hTrashed.free b hMem
  · rw [perm_middle.nodup_iff]
    exact hNodup
  · intro b hMem
    exact hFresh b (perm_middle.mem_iff.mp hMem)

variable {malloc : Nat → Bool}

/- A block from the trash, or a new one. -/
theorem Stacked.listNew (hMalloc : ∀ b, malloc b = true)
    (hStacked : Stacked it stack es) (tree : Option N) :
    ∃ it' a, listNew malloc it tree = some (it', some a) ∧
      Stacked it' (a :: stack) (⟨tree, .right, false⟩ :: es) ∧
      it'.stack = it.stack ∧ it'.mask = it.mask := by
  rcases hStacked with ⟨hCells, ts, hTrashed, hNodup, hFresh⟩
  -- the block `a`, that is in use from now on
  have hUse : ∀ (it₁ : Iterator N) (a : Nat) (ts' : List Nat),
      it₁.cell = it.cell → Trashed it₁ ts' →
      (a :: (stack ++ ts')).Nodup →
      (∀ b ∈ a :: (stack ++ ts'), b < it₁.fresh) →
      Stacked (it₁.setEntry a ⟨tree, .right, false⟩)
        (a :: stack) (⟨tree, .right, false⟩ :: es) := by
    intro it₁ a ts' hCell hTrashed' hNodup' hFresh'
    have hOut := (nodup_cons.mp hNodup').1
    have hKeep : ∀ b, b ∈ stack ++ ts' →
        (it₁.setEntry a ⟨tree, .right, false⟩).cell b = it₁.cell b := by
      intro b hMem
      have hApart : b ≠ a := by
        rintro rfl
        exact hOut hMem
      simp [Iterator.setEntry, hApart]
    refine ⟨?_, ts', hTrashed'.congr rfl fun b hMem => hKeep b (by simp [hMem]), hNodup', hFresh'⟩
    rw [map_cons, map_cons, ← hCells]
    congr 1
    · simp [Iterator.setEntry]
    · apply map_congr_left
      intro b hMem
      rw [hKeep b (by simp [hMem]), hCell]
  unfold Rbtree.listNew
  cases ts with
  | nil =>
    have hNone : it.trash = none := hTrashed.chain
    have hPop : it.trashPop = some (it, none) := by
      simp [Iterator.trashPop, hNone]
    rw [append_nil] at hNodup hFresh
    simp only [hPop, bind_eq_bind, bind_some, hMalloc, if_true]
    refine ⟨_, _, rfl, hUse { it with fresh := it.fresh + 1 }
      it.fresh [] rfl (hTrashed.congr rfl (by simp)) ?_ ?_, rfl,
      rfl⟩
    · rw [append_nil, nodup_cons]
      refine ⟨fun hMem => ?_, hNodup⟩
      exact Nat.lt_irrefl _ (hFresh _ hMem)
    · intro b hMem
      rw [append_nil, mem_cons] at hMem
      show b < it.fresh + 1
      rcases hMem with rfl | hMem
      · omega
      · have := hFresh b hMem
        omega
  | cons a ts =>
    rcases hTrashed.chain with ⟨hHead, hRest⟩
    rcases hTrashed.free a (by simp) with ⟨next, hCell⟩
    have hNext : it.nextTrash a = next := by
      simp [Iterator.nextTrash, hCell]
    have hPop : it.trashPop = some ({ it with trash := next }, some a) := by
      simp [Iterator.trashPop, hHead, hCell]
    simp only [hPop, bind_eq_bind, bind_some]
    refine ⟨_, a, rfl, hUse { it with trash := next } a ts rfl ⟨?_, ?_⟩ ?_ ?_, rfl, rfl⟩
    · rw [hNext] at hRest
      exact hRest
    · exact fun b hMem => hTrashed.free b (by simp [hMem])
    · exact perm_middle.nodup_iff.mp hNodup
    · intro b hMem
      exact hFresh b (perm_middle.mem_iff.mpr hMem)

---
-- Next on the Contents of the Stack
---

/- `Climb` without the heap, `last` on top if it is reached. -/
inductive Ascent (N : Type) where
  | stopped (es : List (Entry N)) (data : Option (Option N))
  | reached (es : List (Entry N)) (tree : Option N)

/- `climb` on entries -/
def climbEntries (mask : Nat) : List (Entry N) → Entry N → Option N → Ascent N
  | [], e, tree =>
    if e.dir = .left ∨ e.tree.isNone then
      if tree.isSome ∧ masked mask postfixMask then
        .stopped [] (some tree)
      else
        .stopped [] none
    else
      .reached [e] tree
  | below :: rest, e, tree =>
    if e.dir = .left ∨ e.tree.isNone then
      if tree.isSome ∧ masked mask postfixMask then
        .stopped ({ below with up := true } :: rest)
          (some tree)
      else
        climbEntries mask rest below below.tree
    else
      .reached (e :: below :: rest) tree

/- The entry that is reached turns to its other son. -/
def Ascent.turn (mask : Nat) : Ascent N → Ascent N
  | .stopped es data => .stopped es data
  | .reached [] tree => .reached [] tree
  | .reached (e :: es) tree =>
    let es := { e with dir := .left, up := false } :: es
    if masked mask infixMask then .stopped es (some tree)
    else .reached es tree

/- `ascend` on entries -/
def ascendEntries (mask : Nat) : List (Entry N) → Ascent N
  | [] => .stopped [] none
  | e :: es =>
    if e.tree.isNone ∨ e.up then
      (climbEntries mask es e e.tree).turn mask
    else
      .reached (e :: es) e.tree

/- `iteratorNext` on entries -/
def nextEntries (m : Mem N) (mask : Nat) : Nat → List (Entry N) →
      Option (List (Entry N) × Option (Option N))
  | 0, _ => none
  | fuel + 1, es =>
    match ascendEntries mask es with
    | .stopped es data => some (es, data)
    | .reached [] _ => none
    | .reached (e :: es) tree => do
      let n ← e.tree
      let son : Entry N :=
        ⟨(m.node n).son e.dir, .right, false⟩
      if e.dir = .right ∧ masked mask prefixMask then
        some (son :: e :: es, some tree)
      else
        nextEntries m mask fuel (son :: e :: es)

/-
  The same result, and the entries are in the heap.  The entry
  that is reached is on the stack if it was `pushed`.
-/
def Follows (mask : Nat) (pushed : Bool) : Climb N → Ascent N → Prop
  | .stopped it data, .stopped es data' =>
    data = data' ∧ it.mask = mask ∧ Stacked it it.stack es
  | .reached it last tree, .reached es tree' =>
    tree = tree' ∧ it.mask = mask ∧
      ∃ rest, Stacked it (last :: rest) es ∧
        it.stack = if pushed then last :: rest else rest
  | _, _ => False

variable {mask : Nat}

theorem climb_follows {last : Nat} (hMask : it.mask = mask)
    (hStacked : Stacked it (last :: stack) (e :: es))
    (tree : Option N) :
    ∃ c, climb it stack last tree = some c ∧
      Follows mask false c (climbEntries mask es e tree) := by
  subst hMask
  induction stack generalizing it last e es tree with
  | nil =>
    have hTrash := hStacked.trashPush
    have hNil := hTrash.eq_nil
    subst hNil
    rw [climb, climbEntries, hStacked.entry]
    simp only [bind_eq_bind, bind_some]
    by_cases hPop : e.dir = .left ∨ e.tree.isNone
    · rw [if_pos hPop, if_pos hPop]
      by_cases hPost : tree.isSome ∧ masked it.mask postfixMask
      · rw [if_pos hPost]
        exact ⟨_, if_pos hPost, rfl, rfl, hTrash.congr rfl rfl rfl⟩
      · rw [if_neg hPost]
        exact ⟨_, if_neg hPost, rfl, rfl, hTrash.congr rfl rfl rfl⟩
    · rw [if_neg hPop, if_neg hPop]
      exact ⟨_, rfl, rfl, rfl, _, hStacked.congr rfl rfl rfl,
        rfl⟩
  | cons p rest ih =>
    have hTrash := hStacked.trashPush
    rcases hTrash.exists_cons with ⟨below, es, rfl⟩
    rw [climb, climbEntries, hStacked.entry]
    simp only [bind_eq_bind, bind_some, hTrash.entry]
    by_cases hPop : e.dir = .left ∨ e.tree.isNone
    · rw [if_pos hPop, if_pos hPop]
      by_cases hPost : tree.isSome ∧ masked it.mask postfixMask
      · rw [if_pos hPost]
        exact ⟨_, if_pos hPost, rfl, rfl, (hTrash.setEntry _).congr rfl rfl rfl⟩
      · rw [if_neg hPost]
        rcases ih hTrash below.tree with ⟨c, hClimb, hFollows⟩
        exact ⟨c, (if_neg hPost).trans hClimb, hFollows⟩
    · rw [if_neg hPop, if_neg hPop]
      exact ⟨_, rfl, rfl, rfl, _, hStacked.congr rfl rfl rfl,
        rfl⟩

theorem ascend_follows (hMask : it.mask = mask)
    (hStacked : Stacked it it.stack es) :
    ∃ c, ascend it = some c ∧ Follows mask true c (ascendEntries mask es) := by
  unfold ascend
  cases hStack : it.stack with
  | nil =>
    rw [hStack] at hStacked
    have hNil := hStacked.eq_nil
    subst hNil
    refine ⟨_, rfl, rfl, hMask, ?_⟩
    rw [hStack]
    exact hStacked
  | cons last rest =>
    rw [hStack] at hStacked
    rcases hStacked.exists_cons with ⟨e, es, rfl⟩
    simp only [hStacked.entry, bind_eq_bind, bind_some, ascendEntries]
    split
    · rcases climb_follows hMask hStacked e.tree with ⟨c, hClimb, hFollows⟩
      rw [hClimb]
      revert hFollows
      generalize climbEntries mask es e e.tree = a
      intro hFollows
      match c, a, hFollows with
      | .stopped it data, .stopped es data', hFollows =>
        exact ⟨_, rfl, hFollows⟩
      | .reached it last tree, .reached es tree', hFollows =>
        rcases hFollows with ⟨rfl, hMask, rest, hReached, hRest⟩
        cases es with
        | nil => exact nomatch hReached.cells
        | cons e es =>
          have hTurned := hReached.setEntry { e with dir := .left, up := false }
          rw [if_neg (by simp)] at hRest
          subst hRest
          subst hMask
          simp only [bind_some, hReached.entry, Ascent.turn]
          by_cases hYield : masked it.mask infixMask
          · rw [if_pos hYield]
            exact ⟨_, if_pos hYield, rfl, rfl, hTurned.congr rfl rfl rfl⟩
          · rw [if_neg hYield]
            exact ⟨_, if_neg hYield, rfl, rfl, _, hTurned.congr rfl rfl rfl, rfl⟩
    · exact ⟨_, rfl, rfl, hMask, rest, hStacked, hStack⟩

variable {m : Mem N} {fuel : Nat}

/- A call, when all allocations succeed. -/
theorem iteratorNext_follows {es' : List (Entry N)}
    {data : Option (Option N)} (hMalloc : ∀ b, malloc b = true)
    (hMask : it.mask = mask) (hStacked : Stacked it it.stack es)
    (hNext : nextEntries m mask fuel es = some (es', data)) :
    ∃ it', iteratorNext m malloc fuel it = some (it', data) ∧
      it'.mask = mask ∧ Stacked it' it'.stack es' := by
  induction fuel generalizing it es with
  | zero => exact nomatch hNext
  | succ fuel ih =>
    rcases ascend_follows hMask hStacked with ⟨c, hAscend, hFollows⟩
    rw [iteratorNext, hAscend]
    rw [nextEntries] at hNext
    revert hFollows hNext
    generalize ascendEntries mask es = a
    intro hNext hFollows
    match c, a, hFollows with
    | .stopped it₁ data', .stopped es₁ data₁, hFollows =>
      rcases hFollows with ⟨rfl, hMask₁, hStacked₁⟩
      simp only [Option.some.injEq, Prod.mk.injEq] at hNext
      rcases hNext with ⟨rfl, rfl⟩
      exact ⟨it₁, rfl, hMask₁, hStacked₁⟩
    | .reached it₁ last tree, .reached es₁ tree', hFollows =>
      rcases hFollows with ⟨rfl, hMask₁, rest, hReached, hRest⟩
      rw [if_pos rfl] at hRest
      cases es₁ with
      | nil => exact nomatch hReached.cells
      | cons e es₁ =>
        simp only [bind_eq_bind, bind_eq_some_iff] at hNext
        rcases hNext with ⟨n, hTree, hNext⟩
        rcases hReached.listNew hMalloc ((m.node n).son e.dir) with
          ⟨it₂, new, hNew, hStacked₂, hStack₂, hMask₂⟩
        simp only [bind_eq_bind, bind_some, hReached.entry, hTree, hNew]
        have hBelow : ({ it₂ with
            stack := new :: it₂.stack } : Iterator N).entry last = some e := hStacked₂.entry_below
        have hPushed : Stacked { it₂ with
            stack := new :: it₂.stack } (new :: it₂.stack)
            (⟨(m.node n).son e.dir, .right, false⟩ :: e :: es₁) := by
          rw [hStack₂, hRest]
          exact hStacked₂.congr rfl rfl rfl
        have hSame : it₂.mask = mask := hMask₂.trans hMask₁
        rw [hBelow, bind_some]
        by_cases hYield :
            e.dir = .right ∧ masked mask prefixMask
        · rw [if_pos hYield] at hNext
          rw [if_pos (by rw [hSame]; exact hYield)]
          simp only [Option.some.injEq, Prod.mk.injEq] at hNext
          rcases hNext with ⟨rfl, rfl⟩
          exact ⟨_, rfl, hSame, hPushed⟩
        · rw [if_neg hYield] at hNext
          rw [if_neg (by rw [hSame]; exact hYield)]
          exact ih hSame hPushed hNext

---
-- What the Entries still Yield
---

/-
  An entry below that of the son `dir`, with what it yields
  when that is done and the entries it still pushes.
-/
inductive Waiting (m : Mem N) (mask : Nat) : Entry N → List N → Nat → Prop where
  | right {p c l n r}
      (up : Bool)
      (hRepr : Repr m p (.node c l n r)) :
      Waiting m mask ⟨p, .right, up⟩
        (yields mask infixMask n ++
          (visit mask l ++ yields mask postfixMask n))
        (1 + 2 * l.toList.length)
  | left {p c l n r}
      (up : Bool)
      (hRepr : Repr m p (.node c l n r)) :
      Waiting m mask ⟨p, .left, up⟩
        (yields mask postfixMask n) 0

inductive Below (m : Mem N) (mask : Nat) : List (Entry N) → List N → Nat → Prop where
  | nil : Below m mask [] [] 0
  | cons {e es ns ns' k k'}
      (hWaiting : Waiting m mask e ns k)
      (hBelow : Below m mask es ns' k') :
      Below m mask (e :: es) (ns ++ ns') (k + k')

/- The same for the whole stack, between two calls. -/
inductive Remaining (m : Mem N) (mask : Nat) : List (Entry N) → List N → Nat → Prop where
  | done : Remaining m mask [] [] 0
  | fresh {p t es ns k}
      (hRepr : Repr m p t)
      (hBelow : Below m mask es ns k) :
      Remaining m mask (⟨p, .right, false⟩ :: es)
        (visit mask t ++ ns) (2 * t.toList.length + k)
  | turned {p c l n r es ns k}
      (hRepr : Repr m p (.node c l n r))
      (hBelow : Below m mask es ns k) :
      Remaining m mask (⟨p, .left, false⟩ :: es)
        (visit mask l ++ (yields mask postfixMask n ++ ns))
        (1 + 2 * l.toList.length + k)
  | up {e es ns ns' k k'}
      (hUp : e.up = true)
      (hWaiting : Waiting m mask e ns k)
      (hBelow : Below m mask es ns' k') :
      Remaining m mask (e :: es) (ns ++ ns') (k + k')

/-
  An ascent either takes the first node or reaches an entry
  whose son comes next.
-/
def Ascended (m : Mem N) (mask : Nat) (ns : List N) (k : Nat) : Ascent N → Prop
  | .stopped es data =>
    data = ns.head?.map some ∧
      ∃ k' ≤ k, Remaining m mask es ns.tail k'
  | .reached es tree =>
    ∃ e es' n ns' k', es = e :: es' ∧ e.tree = some n ∧
      tree = some n ∧ k' < k ∧
      Remaining m mask
        (⟨(m.node n).son e.dir, .right, false⟩ :: es) ns' k' ∧
      ns = (if e.dir = .right then yields mask prefixMask n
        else []) ++ ns'

variable {ns : List N} {k : Nat}

theorem Waiting.congr_up (hWaiting : Waiting m mask e ns k)
    (up : Bool) : Waiting m mask { e with up := up } ns k := by
  cases hWaiting with
  | right _ hRepr => exact .right up hRepr
  | left _ hRepr => exact .left up hRepr

/- An entry that has yielded `son[1]`. -/
theorem climbEntries_right {p : Option N} {up : Bool} {c : Color} {l : Tree N} {n : N} {r : Tree N}
    (hRepr : Repr m p (.node c l n r)) (hBelow : Below m mask es ns k) :
    Ascended m mask (yields mask infixMask n ++
      (visit mask l ++ yields mask postfixMask n) ++ ns) (1 + 2 * l.toList.length + k)
      ((climbEntries mask es ⟨p, .right, up⟩ p).turn mask) := by
  obtain rfl := hRepr.1
  have hReached :
      climbEntries mask es ⟨some n, .right, up⟩ (some n) =
        .reached (⟨some n, .right, up⟩ :: es) (some n) := by
    cases es <;> simp [climbEntries]
  rw [hReached, Ascent.turn]
  by_cases hYield : masked mask infixMask
  · rw [if_pos hYield, yields, if_pos hYield]
    refine ⟨rfl, _, Nat.le_refl _, ?_⟩
    have hTurned := Remaining.turned hRepr hBelow
    simpa [append_assoc] using hTurned
  · rw [if_neg hYield, yields, if_neg hYield]
    have hSon := Remaining.fresh hRepr.2.2.1 (Below.cons (.left false hRepr) hBelow)
    refine ⟨_, es, n, _, _, rfl, rfl, rfl, ?_, hSon, ?_⟩
    · omega
    · simp

/- An entry that has yielded both sons. -/
theorem climbEntries_left {p : Option N} {up : Bool} {c : Color} {l : Tree N} {n : N} {r : Tree N}
    (hRepr : Repr m p (.node c l n r)) (hBelow : Below m mask es ns k)
    (hRest : ∀ b rest, es = b :: rest → Ascended m mask ns k
    ((climbEntries mask rest b b.tree).turn mask)) :
    Ascended m mask (yields mask postfixMask n ++ ns) (0 + k)
      ((climbEntries mask es ⟨p, .left, up⟩ p).turn mask) := by
  obtain rfl := hRepr.1
  rw [Nat.zero_add]
  cases hBelow with
  | nil =>
    by_cases hYield : masked mask postfixMask
    · rw [climbEntries]
      simp only [hYield, yields, if_true, true_or, isSome_some, and_self]
      exact ⟨rfl, 0, Nat.le_refl _, .done⟩
    · rw [climbEntries]
      simp only [hYield, yields, true_or, if_true, Bool.false_eq_true, and_false, if_false]
      exact ⟨rfl, 0, Nat.le_refl _, .done⟩
  | @cons b rest ns ns' k k' hWaiting hBelow =>
    by_cases hYield : masked mask postfixMask
    · rw [climbEntries]
      simp only [hYield, yields, if_true, true_or, isSome_some, and_self]
      have hUp := Remaining.up (e := { b with up := true }) rfl (hWaiting.congr_up true) hBelow
      exact ⟨rfl, _, Nat.le_refl _, hUp⟩
    · rw [climbEntries]
      simp only [hYield, yields, true_or, if_true, Bool.false_eq_true, and_false, if_false]
      exact hRest b rest rfl

/- From an entry whose son is done. -/
theorem climbEntries_spec (hBelow : Below m mask (e :: es) ns k) :
    Ascended m mask ns k ((climbEntries mask es e e.tree).turn mask) := by
  induction es generalizing e ns k with
  | nil =>
    cases hBelow with
    | cons hWaiting hBelow =>
      cases hWaiting with
      | right up hRepr => exact climbEntries_right hRepr hBelow
      | left up hRepr =>
        exact climbEntries_left hRepr hBelow (fun _ _ hNil => nomatch hNil)
  | cons b es ih =>
    cases hBelow with
    | cons hWaiting hBelow =>
      cases hWaiting with
      | right up hRepr => exact climbEntries_right hRepr hBelow
      | left up hRepr =>
        refine climbEntries_left hRepr hBelow ?_
        intro b' rest hSame
        obtain ⟨rfl, rfl⟩ := List.cons.inj hSame
        exact ih hBelow

theorem ascendEntries_spec (hRemaining : Remaining m mask es ns k) :
    Ascended m mask ns k (ascendEntries mask es) := by
  cases hRemaining with
  | done => exact ⟨rfl, 0, Nat.le_refl _, .done⟩
  | @fresh p t es ns k hRepr hBelow =>
    cases t with
    | nil =>
      obtain rfl : p = none := hRepr
      rw [ascendEntries, if_pos (by simp)]
      cases hBelow with
      | nil => exact ⟨rfl, 0, Nat.le_refl _, .done⟩
      | @cons b rest ns ns' k k' hWaiting hBelow =>
        have hSpec := climbEntries_spec (.cons hWaiting hBelow)
        rw [climbEntries]
        simpa [visit] using hSpec
    | node c l n r =>
      obtain rfl := hRepr.1
      rw [ascendEntries, if_neg (by simp)]
      have hSon := Remaining.fresh hRepr.2.2.2 (Below.cons (.right false hRepr) hBelow)
      refine ⟨_, es, n, _, _, rfl, rfl, rfl, ?_, hSon, ?_⟩
      · simp only [Tree.toList_node, length_append, length_cons]
        omega
      · simp [visit]
  | @turned p c l n r es ns k hRepr hBelow =>
    obtain rfl := hRepr.1
    rw [ascendEntries, if_neg (by simp)]
    have hSon := Remaining.fresh hRepr.2.2.1 (Below.cons (.left false hRepr) hBelow)
    refine ⟨_, es, n, _, _, rfl, rfl, rfl, ?_, hSon, ?_⟩
    · omega
    · simp
  | up hUp hWaiting hBelow =>
    rw [ascendEntries, if_pos (Or.inr hUp)]
    exact climbEntries_spec (.cons hWaiting hBelow)

/- A call takes the first node of what remains. -/
theorem nextEntries_spec (hRemaining : Remaining m mask es ns k)
    (hFuel : k < fuel) :
    ∃ es' k', nextEntries m mask fuel es =
        some (es', ns.head?.map some) ∧
      k' ≤ k ∧ Remaining m mask es' ns.tail k' := by
  induction fuel generalizing es ns k with
  | zero => omega
  | succ fuel ih =>
    have hAscended := ascendEntries_spec hRemaining
    rw [nextEntries]
    revert hAscended
    generalize ascendEntries mask es = a
    intro hAscended
    match a, hAscended with
    | .stopped es₁ data, hAscended =>
      rcases hAscended with ⟨rfl, k', hLe, hRest⟩
      exact ⟨es₁, k', rfl, hLe, hRest⟩
    | .reached es₁ tree, hAscended =>
      rcases hAscended with ⟨e, es₂, n, ns', k', rfl, hTree, rfl, hLess, hRest,
        rfl⟩
      simp only [hTree, bind_eq_bind, bind_some]
      by_cases hYield : e.dir = .right ∧ masked mask prefixMask
      · rw [if_pos hYield, if_pos hYield.1, yields, if_pos hYield.2]
        exact ⟨_, k', rfl, Nat.le_of_lt hLess, hRest⟩
      · rw [if_neg hYield]
        have hSilent : (if e.dir = .right then
            yields mask prefixMask n else []) = [] := by
          split
          · rename_i hDir
            rw [yields, if_neg fun h => hYield ⟨hDir, h⟩]
          · rfl
        rw [hSilent, nil_append]
        rcases ih hRest (by omega) with ⟨es', k'', hCall, hLe, hDone⟩
        exact ⟨es', k'', hCall, by omega, hDone⟩

/- Every call takes the next node, until none is left. -/
theorem iteratorCalls_spec (hMalloc : ∀ b, malloc b = true)
    (hMask : it.mask = mask) (hStacked : Stacked it it.stack es)
    (hRemaining : Remaining m mask es ns k) (hFuel : k < fuel)
    (count : Nat) :
    iteratorCalls m malloc fuel count it =
      some ((List.range count).map fun i => ns[i]?.map some) := by
  induction count generalizing it es ns k with
  | zero => rfl
  | succ count ih =>
    rcases nextEntries_spec hRemaining hFuel with ⟨es', k', hNext, hLe, hRest⟩
    rcases iteratorNext_follows hMalloc hMask hStacked hNext with ⟨it', hCall, hMask', hStacked'⟩
    rw [iteratorCalls, hCall]
    simp only [bind_eq_bind, bind_some]
    rw [ih hMask' hStacked' hRest (by omega)]
    rw [range_succ_eq_map, map_cons, List.map_map]
    simp only [bind_some, head?_eq_getElem?]
    congr 2
    apply map_congr_left
    intro i _
    simp [getElem?_tail]

/- An iterator in the pool: nothing on the stack. -/
def Idle (it : Iterator N) : Prop :=
  it.stack = [] ∧ Stacked it [] []

/- An iterator with a heap of which nothing is allocated. -/
def Iterator.new (N : Type) : Iterator N where
  cell _ := .trash none
  fresh := 0
  stack := []
  trash := none
  mask := 0

theorem idle_new : Idle (Iterator.new N) := ⟨rfl, rfl, [], ⟨rfl, by simp⟩, by simp, by simp⟩

theorem iteratorBuild_spec {root : Option N} {t : Tree N}
    (hMalloc : ∀ b, malloc b = true) (hIdle : Idle it)
    (hRepr : Repr m root t) (hFuel : 2 * t.toList.length < fuel)
    (mask count : Nat) :
    ∃ it', iteratorBuild malloc it root mask = some (some it') ∧
      iteratorCalls m malloc fuel count it' =
        some ((List.range count).map fun i =>
          (visit mask t)[i]?.map some) := by
  rcases hIdle with ⟨hEmpty, hStacked⟩
  rcases hStacked.listNew hMalloc root with ⟨it₁, first, hNew, hStacked₁, hStack₁, -⟩
  refine ⟨{ it₁ with stack := first :: it₁.stack, mask := mask }, ?_, ?_⟩
  · simp [iteratorBuild, hNew]
  · have hFirst : Stacked { it₁ with
        stack := first :: it₁.stack, mask := mask }
        (first :: it₁.stack) [⟨root, .right, false⟩] := by
      rw [hStack₁, hEmpty]
      exact hStacked₁.congr rfl rfl rfl
    have hFresh : Remaining m mask [⟨root, .right, false⟩]
        (visit mask t ++ []) (2 * t.toList.length + 0) := .fresh hRepr .nil
    rw [append_nil] at hFresh
    exact iteratorCalls_spec hMalloc rfl hFirst hFresh hFuel count

/-
  For a tree of any shape, and an iterator that is new or was
  in use before: the calls yield the nodes in the order of
  the traversal, each once, and then none any more.
-/
theorem iterators_traverse
    {m : Mem N} {malloc : Nat → Bool} {it : Iterator N}
    {root : Option N} {t : Tree N} {fuel : Nat}
    (hMalloc : ∀ b, malloc b = true) (hIdle : Idle it)
    (hRepr : Repr m root t) (hFuel : 2 * t.toList.length < fuel)
    (count : Nat) :
    (∃ it', iteratorBuild malloc it root prefixMask =
          some (some it') ∧
        iteratorCalls m malloc fuel count it' =
          some ((List.range count).map fun i =>
            (prefixNodes t)[i]?.map some)) ∧
      (∃ it', iteratorBuild malloc it root infixMask =
          some (some it') ∧
        iteratorCalls m malloc fuel count it' =
          some ((List.range count).map fun i =>
            (infixNodes t)[i]?.map some)) ∧
      (∃ it', iteratorBuild malloc it root postfixMask =
          some (some it') ∧
        iteratorCalls m malloc fuel count it' =
          some ((List.range count).map fun i =>
            (postfixNodes t)[i]?.map some)) ∧
      (prefixNodes t).Perm t.toList ∧
      (infixNodes t).Perm t.toList ∧
      (postfixNodes t).Perm t.toList := by
  have hBuild := fun mask =>
    iteratorBuild_spec hMalloc hIdle hRepr hFuel mask count
  refine ⟨?_, ?_, ?_, prefixNodes_perm t, ?_, postfixNodes_perm t⟩
  · rw [← visit_prefixMask]
    exact hBuild prefixMask
  · rw [← visit_infixMask]
    exact hBuild infixMask
  · rw [← visit_postfixMask]
    exact hBuild postfixMask
  · rw [infixNodes_eq]
    exact reverse_perm _

/- The node 0 with `son[1]`, the node 1. -/
def twoNodes : Mem Nat where
  root := some 0
  node n :=
    { son := fun d => if n = 0 ∧ d = .right then some 1 else none
      color := if n = 0 then .black else .red }

theorem repr_twoNodes : Repr twoNodes (some 0) (.node .black .nil 0 (.node .red .nil 1 .nil)) := by
  refine ⟨rfl, rfl, ?_, rfl, rfl, ?_, ?_⟩ <;> rfl

theorem iterators_traverse_sample :
    let t : RedBlack.Tree Nat :=
      .node .black .nil 0 (.node .red .nil 1 .nil)
    let malloc : Nat → Bool := fun _ => true
    (∃ it', iteratorBuild malloc (Iterator.new Nat) (some 0)
          prefixMask = some (some it') ∧
        iteratorCalls twoNodes malloc 5 3 it' =
          some ((List.range 3).map fun i =>
            (prefixNodes t)[i]?.map some)) ∧
      (∃ it', iteratorBuild malloc (Iterator.new Nat) (some 0)
          infixMask = some (some it') ∧
        iteratorCalls twoNodes malloc 5 3 it' =
          some ((List.range 3).map fun i =>
            (infixNodes t)[i]?.map some)) ∧
      (∃ it', iteratorBuild malloc (Iterator.new Nat) (some 0)
          postfixMask = some (some it') ∧
        iteratorCalls twoNodes malloc 5 3 it' =
          some ((List.range 3).map fun i =>
            (postfixNodes t)[i]?.map some)) ∧
      (prefixNodes t).Perm t.toList ∧
      (infixNodes t).Perm t.toList ∧
      (postfixNodes t).Perm t.toList :=
  iterators_traverse (fun _ => rfl) idle_new repr_twoNodes (by decide) 3

end Efl.Eina.Rbtree
