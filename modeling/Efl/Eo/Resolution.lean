import Efl.Eo.Class
import Efl.Lib.Lists
import Efl.Lib.Runs

/-
  Which function a class has for an operation.

  The table of a class is made of the tables of the classes in
  its method resolution order, which have the functions that
  those classes inherit.  A near class can so bring a function
  of a far one that hides the one of a class in between.

  Main declarations:
    * `mroFunc`
    * `Correct`, `Consistent`
    * `flatten_spec`
    * `Good.makeClass`
-/

---
-- Functions of a Class
---

namespace Efl.Eo

variable {A U : Type} [DecidableEq A] [DecidableEq U]

/- The function that a class itself sets, if it is not NULL. -/
def Klass.own (klass : Klass U) (op : Nat) : Option (Func U) :=
  (klass.sets.lookup op).join

/-
  The function set by the first class of the method resolution
  order that implements the operation.
-/
def mroFunc (s : State A U) (k op : Nat) : Option (Func U) :=
  (s.classes[k]?).bind fun klass =>
    klass.mro.findSome? fun j =>
      (s.classes[j]?).bind fun c => c.own op

/- The function in the table of a class. -/
def tableFunc (s : State A U) (k op : Nat) : Option (Func U) :=
  (s.classes[k]?).bind fun klass =>
    funcGet s.memory klass.vtable op

/- The tables of all classes follow the order. -/
def Correct (s : State A U) : Prop :=
  ∀ k, isClass s.classes k → ∀ op,
    tableFunc s k op = mroFunc s k op

/-
  What a class sets itself, or else the function that the
  nearest class has by its own order, is what the order of the
  class gives.
-/
def Consistent (s : State A U) : Prop :=
  ∀ k klass, s.classes[k]? = some klass → klass.returned →
    ∀ op, mroFunc s k op =
      match klass.sets.lookup op with
      | some func => func
      | none => klass.mro.tail.findSome? fun j => mroFunc s j op

/- The pointers that the tables of classes have at a place. -/
def columns (classes : List (Klass U)) (p : Nat) : Multiset Nat :=
  ↑(classes.filterMap fun klass => (klass.vtable[p]?).join)

structure Good (s : State A U) : Prop where
  counted : Counted s.memory (columns s.classes)
  named : ∀ k klass, s.classes[k]? = some klass →
    ∀ j ∈ klass.extensions ++ klass.parent.toList,
      j < k ∧ isClass s.classes j
  mro : ∀ k klass, s.classes[k]? = some klass →
    ∃ tail, klass.mro = k :: tail ∧
      ∀ j ∈ tail, j < k ∧ isClass s.classes j
  size : ∀ klass ∈ s.classes,
    klass.vtable.length ≤ chain1 s.opsLastId + 1
  ids : ∀ klass ∈ s.classes,
    klass.baseId + klass.opsCount < s.opsLastId
  storage : ∀ api op, s.opsStorage api = some op →
    op < s.opsLastId
  pos : 0 < s.opsLastId
  funcs : ∀ k klass, s.classes[k]? = some klass →
    klass.returned → ∀ op, tableFunc s k op =
      match klass.sets.lookup op with
      | some func => func
      | none => klass.mro.tail.findSome? fun j => tableFunc s j op

/-
  The tables follow the order exactly when the functions that
  they are made of do.
-/
variable {s : State A U}

omit [DecidableEq A] [DecidableEq U] in
theorem Good.correct_iff (hGood : Good s) : Correct s ↔ Consistent s := by
  constructor
  · intro hCorrect k klass hKlass hReturned op
    have hIs : isClass s.classes k := by
      simp [isClass, hKlass, hReturned]
    rw [← hCorrect k hIs op, hGood.funcs k klass hKlass hReturned op]
    rcases hGood.mro k klass hKlass with ⟨tail, hMro, hTail⟩
    split
    · rfl
    · rw [hMro]
      refine Lists.findSome?_congr ?_
      intro j hj
      exact hCorrect j (hTail j hj).2 op
  · intro hConsistent k
    induction k using Nat.strong_induction_on with
    | h k ih =>
      intro hIs op
      cases hKlass : s.classes[k]? with
      | none => simp [isClass, hKlass] at hIs
      | some klass =>
        have hReturned : klass.returned := by
          simpa [isClass, hKlass] using hIs
        rw [hConsistent k klass hKlass hReturned op, hGood.funcs k klass hKlass hReturned op]
        rcases hGood.mro k klass hKlass with ⟨tail, hMro, hTail⟩
        split
        · rfl
        · rw [hMro]
          refine Lists.findSome?_congr ?_
          intro j hj
          rcases hTail j hj with ⟨hLess, hClass⟩
          exact ih j hLess hClass op

---
-- Building a Table
---

open List Option Function

/-
  The table has what the class has set, and for the rest what
  it inherits; the other tables are as they were in `m`.
-/
structure Building (base : Nat → Multiset Nat) (m : Memory (Func U))
    (inherited : Nat → Option (Func U)) (length : Nat) (b : Build A U) : Prop where
  length : b.vtable.length = length
  counted : Counted b.memory (withTable base 0 b.vtable)
  funcs : ∀ op, funcGet b.memory b.vtable op =
    match b.sets.lookup op with
    | some func => func
    | none => inherited op
  kept : Kept (fun c => ∃ p, c ∈ base p) m b.memory

section

variable {base : Nat → Multiset Nat} {m : Memory (Func U)}
variable {inherited : Nat → Option (Func U)} {length : Nat}

omit [DecidableEq A] in
theorem Building.set {b : Build A U} {op : Nat} (klass : Nat)
    (func : Option (Func U)) (hBuilding : Building base m inherited length b)
    (hLess : chain1 op < length) :
    ∃ b', b.set klass op func = some (b', true) ∧
      b'.opsStorage = b.opsStorage ∧ Building base m inherited length b' := by
  rcases funcSet_spec klass func hBuilding.counted (by rwa [hBuilding.length]) with
    ⟨m', t', hSet, hLength, hCounted, hFunc, hKept⟩
  refine ⟨{ b with
    memory := m'
    vtable := t'
    sets := (op, func) :: b.sets }, ?_, rfl,
    hLength.trans hBuilding.length, hCounted, ?_, hBuilding.kept.trans hKept⟩
  · unfold Build.set
    rw [hSet]
    rfl
  · intro op'
    rw [hFunc]
    by_cases hSame : op' = op
    · subst hSame
      simp
    · have hBeq : (op' == op) = false := beq_eq_false_iff_ne.mpr hSame
      rw [if_neg hSame, hBuilding.funcs, lookup_cons, hBeq]

theorem chain1_mono {op last : Nat} (hLe : op ≤ last) : chain1 op < chain1 last + 1 := by
  have hDiv : ∀ n, chain1 n = n / 32 := fun n =>
    Nat.shiftRight_eq_div_pow n 5
  rw [hDiv, hDiv]
  exact Nat.lt_succ_of_le (Nat.div_le_div_right hLe)

/- The functions of a class get ids below `last`. -/
theorem funcsSetFrom_spec {opId last : Nat} {descs : List (OpDesc A U)}
    {b : Build A U} (klass : Nat) (hBuilding : Building base m inherited (chain1 last + 1) b)
    (hIds : opId + descs.length < last)
    (hStorage : ∀ api op, b.opsStorage api = some op → op < last) :
    ∃ b' ok, funcsSetFrom klass opId descs b =
        some (b', ok) ∧
      Building base m inherited (chain1 last + 1) b' ∧
      ∀ api op, b'.opsStorage api = some op → op < last := by
  induction descs generalizing opId b with
  | nil => exact ⟨b, true, rfl, hBuilding, hStorage⟩
  | cons desc descs ih =>
    rw [length_cons] at hIds
    rw [funcsSetFrom]
    cases hApi : desc.apiFunc with
    | none => exact ⟨b, false, rfl, hBuilding, hStorage⟩
    | some api =>
      have hOp : (b.opsStorage api).getD opId < last := by
        cases hOld : b.opsStorage api with
        | none =>
          rw [getD_none]
          omega
        | some op => exact hStorage api op hOld
      have hBuilding' : Building base m inherited (chain1 last + 1)
          { b with
            opsStorage := update b.opsStorage api
              (some ((b.opsStorage api).getD opId)) } :=
        ⟨hBuilding.length, hBuilding.counted, hBuilding.funcs, hBuilding.kept⟩
      rcases hBuilding'.set klass (desc.func.map .user)
        (chain1_mono hOp.le) with ⟨b₁, hSet, hSame, hBuilding₁⟩
      have hStorage₁ : ∀ api' op, b₁.opsStorage api' = some op → op < last := by
        intro api' op hAt
        rw [hSame] at hAt
        dsimp only at hAt
        by_cases hHere : api' = api
        · rw [hHere, update_self] at hAt
          rw [← some.inj hAt]
          exact hOp
        · rw [update_of_ne hHere] at hAt
          exact hStorage api' op hAt
      dsimp only
      rw [hSet, bind_eq_bind, bind_some, if_pos rfl]
      refine ih hBuilding₁ ?_ hStorage₁
      split <;> omega

theorem classFuncsSet_spec {opId last : Nat} {descs : List (OpDesc A U)}
    {b : Build A U} (klass : Nat) (hBuilding : Building base m inherited (chain1 last + 1) b)
    (hIds : opId + descs.length < last)
    (hStorage : ∀ api op, b.opsStorage api = some op → op < last) :
    ∃ b' ok, classFuncsSet klass opId descs b =
        some (b', ok) ∧
      Building base m inherited (chain1 last + 1) b' ∧
      ∀ api op, b'.opsStorage api = some op → op < last := by
  unfold classFuncsSet
  split
  · exact ⟨b, false, rfl, hBuilding, hStorage⟩
  · exact funcsSetFrom_spec klass hBuilding hIds hStorage

omit [DecidableEq A] in
theorem isaSet_spec {last : Nat} {ops : List Nat} {b : Build A U} (klass : Nat)
    (hBuilding : Building base m inherited (chain1 last + 1) b)
    (hIds : ∀ op ∈ ops, op < last) :
    ∃ b', isaSet klass ops b = some b' ∧
      b'.opsStorage = b.opsStorage ∧ Building base m inherited (chain1 last + 1) b' := by
  induction ops generalizing b with
  | nil => exact ⟨b, rfl, rfl, hBuilding⟩
  | cons op ops ih =>
    have hLess := hIds op (by simp)
    rcases hBuilding.set klass (some .isa) (chain1_mono hLess.le) with ⟨b₁, hSet, hSame, hBuilding₁⟩
    rcases ih hBuilding₁ fun o ho => hIds o (by simp [ho]) with ⟨b', hRest, hSame', hBuilding'⟩
    refine ⟨b', ?_, hSame'.trans hSame, hBuilding'⟩
    rw [isaSet, hSet]
    exact hRest

end

/- A table of a class has pointers of the columns. -/
variable {classes : List (Klass U)} {klass : Klass U}

omit [DecidableEq U] in
theorem mem_columns {n c : Nat} (hMem : klass ∈ classes)
    (hGet : (klass.vtable[n]?).join = some c) : c ∈ columns classes n :=
  Multiset.mem_coe.mpr (mem_filterMap.mpr ⟨klass, hMem, hGet⟩)

omit [DecidableEq U] in
theorem card_columns_le (classes : List (Klass U)) (p : Nat) :
    (columns classes p).card ≤ classes.length := length_filterMap_le ..

omit [DecidableEq U] in
theorem columns_append (classes : List (Klass U)) (klass : Klass U) :
    columns (classes ++ [klass]) = withTable (columns classes) 0 klass.vtable := by
  funext p
  unfold withTable
  rw [if_pos (Nat.zero_le p), Nat.sub_zero]
  unfold columns
  rw [filterMap_append, ← Multiset.coe_add, Multiset.add_comm]
  cases hGet : (klass.vtable[p]?).join with
  | none => simp [hGet, addPointer]
  | some c => simp [hGet, addPointer, Multiset.singleton_add]

/- The functions of a table that is kept. -/
variable {m : Memory (Func U)}

omit [DecidableEq U] in
theorem funcGet_kept {m' : Memory (Func U)} (hMem : klass ∈ classes)
    (hKept : Kept (fun c => ∃ p, c ∈ columns classes p) m m')
    (op : Nat) : funcGet m' klass.vtable op = funcGet m klass.vtable op :=
  hKept.chainFunc_eq (fun _ hc => ⟨_, mem_columns hMem hc⟩) _

variable {mro : List Nat}

/- The near tables come before the far ones. -/
theorem flatten_spec {t : Vtable} (hCounted : Counted m (withTable (columns classes) 0 t))
    (hMro : ∀ j ∈ mro, ∃ klass, classes[j]? = some klass ∧ klass.vtable.length ≤ t.length)
    (hRoom : classes.length + 1 < 65536) :
    ∃ (m' : Memory (Func U)) (t' : Vtable),
      flatten classes m t mro = some (m', t') ∧
      t'.length = t.length ∧
      Counted m' (withTable (columns classes) 0 t') ∧
      (∀ op, funcGet m' t' op =
        (mro.findSome? fun j => (classes[j]?).bind fun c =>
          funcGet m c.vtable op).or (funcGet m t op)) ∧
      Kept (fun c => ∃ p, c ∈ columns classes p) m m' := by
  induction mro with
  | nil =>
    refine ⟨m, t, rfl, rfl, hCounted, ?_, Kept.refl _ _⟩
    intro op
    rw [findSome?_nil, none_or]
  | cons j mro ih =>
    rcases ih fun i hi => hMro i (by simp [hi]) with
      ⟨m₁, t₁, hRest, hLength₁, hCounted₁, hFunc₁, hKept₁⟩
    rcases hMro j (by simp) with ⟨klass, hKlass, hFits⟩
    have hMem := mem_of_getElem? hKlass
    have hSrc : ∀ n c, (klass.vtable[n]?).join = some c → c ∈ columns classes (0 + n) := by
      intro n c hc
      rw [Nat.zero_add]
      exact mem_columns hMem hc
    have hBound : ∀ n, (columns classes (0 + n)).card + 1 < 65536 := by
      intro n
      have hCard := card_columns_le classes (0 + n)
      omega
    rcases copyAll_spec hCounted₁ hSrc hBound (by rwa [hLength₁]) with
      ⟨m', t', hCopy, hLength', hCounted', hFunc', hKept'⟩
    refine ⟨m', t', ?_, hLength'.trans hLength₁, hCounted', ?_, hKept₁.trans hKept'⟩
    · rw [flatten, hRest, bind_eq_bind, bind_some]
      simp only [hKlass]
      exact hCopy
    · intro op
      have hHere : funcGet m' t' op = (funcGet m₁ klass.vtable op).or (funcGet m₁ t₁ op) :=
        hFunc' _ _ (chainLast_lt op)
      rw [hHere, funcGet_kept hMem hKept₁, hFunc₁, findSome?_cons, hKlass, bind_some]
      cases funcGet m klass.vtable op with
      | none => rw [none_or]
      | some f => rfl

---
-- Making a Class
---

variable {fuel k : Nat}

/- What a visit gives comes from one of the classes. -/
theorem mem_descend {α : Type} {visit : Nat → List α}
    {named : Nat → List Nat} {P : Nat → Prop} {x : α}
    (hNamed : ∀ i, P i → ∀ j ∈ named i, P j) (hStart : P k)
    (hMem : x ∈ descend visit named fuel k) : ∃ j, P j ∧ x ∈ visit j := by
  induction fuel generalizing k with
  | zero => simp [descend] at hMem
  | succ fuel ih =>
    rw [descend, mem_append, mem_flatMap] at hMem
    rcases hMem with hHere | ⟨j, hj, hThere⟩
    · exact ⟨k, hStart, hHere⟩
    · exact ih (hNamed k hStart j hj) hThere

/-
  The depth of the visits is never reached when classes name
  only those that were made before them.
-/
theorem descend_fuel {α : Type} {visit : Nat → List α} {named : Nat → List Nat} {fuel' : Nat}
    (hNamed : ∀ i, ∀ j ∈ named i, j < i) (hLess : k < fuel)
    (hLess' : k < fuel') : descend visit named fuel k = descend visit named fuel' k := by
  induction fuel generalizing fuel' k with
  | zero => omega
  | succ fuel ih =>
    cases fuel' with
    | zero => omega
    | succ fuel' =>
      rw [descend, descend]
      congr 1
      refine flatMap_congr ?_
      intro j hj
      have hj' := hNamed k j hj
      exact ih (by omega) (by omega)

theorem mem_of_mem_removeDuplicates {ks : List Nat} (hMem : k ∈ removeDuplicates ks) : k ∈ ks := by
  induction ks with
  | nil => exact hMem
  | cons j ks ih =>
    rw [removeDuplicates] at hMem
    split at hMem
    · exact mem_cons_of_mem _ (ih hMem)
    · rcases mem_cons.mp hMem with rfl | hMem
      · exact mem_cons_self ..
      · exact mem_cons_of_mem _ (ih hMem)

omit [DecidableEq U] in
theorem getElem?_of_isClass (hIs : isClass classes k) :
    ∃ klass, classes[k]? = some klass ∧ klass.returned := by
  unfold isClass at hIs
  cases hKlass : classes[k]? with
  | none => simp [hKlass] at hIs
  | some klass => exact ⟨klass, rfl, by simpa [hKlass] using hIs⟩

omit [DecidableEq U] in
theorem isClass_append (more : List (Klass U))
    (hIs : isClass classes k) : isClass (classes ++ more) k := by
  rcases getElem?_of_isClass hIs with ⟨klass, hKlass, hReturned⟩
  have hLess := (List.getElem?_eq_some_iff.mp hKlass).1
  unfold isClass
  rw [getElem?_append_left hLess, hKlass]
  simpa using hReturned

variable {extensions : List Nat}

omit [DecidableEq A] [DecidableEq U] in
/- The order has classes only that somebody has. -/
theorem Good.mroInit_isClass {parent : Option Nat} (hGood : Good s)
    (hParent : ∀ p, parent = some p → isClass s.classes p)
    (hExtns : ∀ e ∈ extensions, isClass s.classes e)
    (hMro : mroInit s.classes parent extensions = some mro) : ∀ j ∈ mro, isClass s.classes j := by
  unfold mroInit at hMro
  dsimp only at hMro
  split at hMro
  · obtain rfl := some.inj hMro
    intro j hj
    rcases mem_flatMap.mp (mem_of_mem_removeDuplicates hj) with ⟨k, hk, hj⟩
    have hStart : isClass s.classes k := by
      rcases mem_append.mp hk with hk | hk
      · exact hExtns k (mem_of_mem_filter hk)
      · exact hParent k (by simpa using hk)
    have hNamed : ∀ i, isClass s.classes i → ∀ j ∈ mroNames s.classes i, isClass s.classes j := by
      intro i _ j hj
      unfold mroNames at hj
      split at hj
      · simp at hj
      · rename_i klass hKlass
        refine (hGood.named i klass hKlass j ?_).2
        rcases mem_append.mp hj with hj | hj
        · exact mem_append_left _ (mem_of_mem_filter hj)
        · exact mem_append_right _ hj
    rcases mem_descend (P := fun i => isClass s.classes i) hNamed hStart hj with ⟨i, hi, hj⟩
    rw [mem_singleton] at hj
    exact hj ▸ hi
  · simp at hMro

variable {last : Nat}

omit [DecidableEq U] in
theorem isaIds_lt {op : Nat} (hIds : ∀ klass ∈ classes, klass.baseId + klass.opsCount < last)
    (hMem : op ∈ isaIds classes k) : op < last := by
  rcases mem_descend (P := fun _ => True) (fun _ _ _ _ => trivial) trivial hMem with ⟨j, -, hOp⟩
  unfold isaId at hOp
  split at hOp
  · simp at hOp
  · rename_i klass hKlass
    rw [mem_singleton] at hOp
    rw [hOp]
    exact hIds klass (mem_of_getElem? hKlass)

theorem withTable_replicate (base : Nat → Multiset Nat) (n : Nat) :
    withTable base 0 (List.replicate n none) = base := by
  funext p
  unfold withTable
  rw [if_pos (Nat.zero_le p), getElem?_replicate]
  split <;> rfl

omit [DecidableEq U] in
theorem funcGet_replicate (m : Memory (Func U)) (n op : Nat) :
    funcGet m (List.replicate n none) op = none := by
  unfold funcGet
  rw [getElem?_replicate]
  split <;> rfl

/- The functions that are set on top of the flattened ones. -/
theorem Good.functionsSet_spec (klass : Nat) (descs : List (OpDesc A U)) (hGood : Good s)
    (hMro : ∀ j ∈ mro, isClass s.classes j)
    (hRoom : s.classes.length + 1 < 65536) :
    ∃ b, functionsSet s klass mro descs = some b ∧ Building (columns s.classes) s.memory
      (fun op => mro.findSome? fun j => tableFunc s j op)
      (chain1 (s.opsLastId + (descs.length + 1)) + 1) b ∧
      ∀ api op, b.opsStorage api = some op → op < s.opsLastId + (descs.length + 1) := by
  have hStart : Counted s.memory (withTable (columns s.classes) 0
      (List.replicate (chain1 (s.opsLastId + (descs.length + 1)) + 1) none)) := by
    rw [withTable_replicate]
    exact hGood.counted
  have hFits : ∀ j ∈ mro, ∃ klass, s.classes[j]? = some klass ∧
      klass.vtable.length ≤ (List.replicate (chain1
        (s.opsLastId + (descs.length + 1)) + 1) (none : Option Nat)).length := by
    intro j hj
    rcases getElem?_of_isClass (hMro j hj) with ⟨klass, hKlass, -⟩
    refine ⟨klass, hKlass, ?_⟩
    have hSize := hGood.size klass (mem_of_getElem? hKlass)
    have hMono := chain1_mono (Nat.le_add_right s.opsLastId (descs.length + 1))
    rw [length_replicate]
    omega
  rcases flatten_spec hStart hFits hRoom with ⟨m, t, hFlatten, hLength, hCounted, hFunc, hKept⟩
  rw [length_replicate] at hLength
  have hBuilding : Building (columns s.classes) s.memory
      (fun op => mro.findSome? fun j => tableFunc s j op)
      (chain1 (s.opsLastId + (descs.length + 1)) + 1) (⟨m, t, s.opsStorage, []⟩ : Build A U) := by
    refine ⟨hLength, hCounted, ?_, hKept⟩
    intro op
    rw [hFunc, funcGet_replicate, or_none]
    rfl
  have hStorage : ∀ api op, s.opsStorage api = some op → op < s.opsLastId + (descs.length + 1) := by
    intro api op hOp
    have hOld := hGood.storage api op hOp
    omega
  have hIds : s.opsLastId + descs.length < s.opsLastId + (descs.length + 1) := by
    omega
  rcases classFuncsSet_spec klass hBuilding hIds hStorage with ⟨b, ok, hSet, hDone, hStorage'⟩
  refine ⟨b, ?_, hDone, hStorage'⟩
  unfold functionsSet
  simp only [bind_eq_bind, hFlatten, bind_some, hSet]

omit [DecidableEq A] [DecidableEq U] in
/- The tables of the other classes are kept. -/
theorem tableFunc_append {storage : A → Option Nat}
    (hKept : Kept (fun c => ∃ p, c ∈ columns s.classes p) s.memory m)
    (hLess : k < s.classes.length) (op : Nat) :
    tableFunc ⟨s.classes ++ [klass], last, storage, m⟩ k op = tableFunc s k op := by
  unfold tableFunc
  dsimp only
  rw [getElem?_append_left hLess, getElem?_eq_getElem hLess, bind_some, bind_some]
  exact funcGet_kept (getElem_mem hLess) hKept op

omit [DecidableEq A] [DecidableEq U] in
/- One more class. -/
theorem Good.append {storage : A → Option Nat} (hGood : Good s)
    (hCounted : Counted m (withTable (columns s.classes) 0 klass.vtable))
    (hKept : Kept (fun c => ∃ p, c ∈ columns s.classes p) s.memory m)
    (hNamed : ∀ j ∈ klass.extensions ++ klass.parent.toList,
      isClass s.classes j) (hMro : klass.mro = s.classes.length :: mro)
    (hTail : ∀ j ∈ mro, isClass s.classes j) (hLast : s.opsLastId ≤ last)
    (hSize : klass.vtable.length ≤ chain1 last + 1) (hId : klass.baseId + klass.opsCount < last)
    (hStorage : ∀ api op, storage api = some op → op < last) (hFuncs : klass.returned → ∀ op,
      funcGet m klass.vtable op =
        match klass.sets.lookup op with
        | some func => func
        | none => mro.findSome? fun j => tableFunc s j op) :
    Good ⟨s.classes ++ [klass], last, storage, m⟩ := by
  have hLength : ∀ j, isClass s.classes j → j < s.classes.length := by
    intro j hj
    rcases getElem?_of_isClass hj with ⟨c, hc, -⟩
    exact (List.getElem?_eq_some_iff.mp hc).1
  have hCases : ∀ k c, (s.classes ++ [klass])[k]? = some c →
      s.classes[k]? = some c ∨ k = s.classes.length ∧ c = klass := by
    intro k c hc
    by_cases hLess : k < s.classes.length
    · rw [getElem?_append_left hLess] at hc
      exact Or.inl hc
    · have hBound := (List.getElem?_eq_some_iff.mp hc).1
      rw [length_append, length_singleton] at hBound
      obtain rfl : k = s.classes.length := by omega
      rw [getElem?_concat_length] at hc
      exact Or.inr ⟨rfl, (some.inj hc).symm⟩
  have hMem : ∀ c ∈ s.classes ++ [klass], c ∈ s.classes ∨ c = klass := by
    intro c hc
    simpa using hc
  refine ⟨?_, ?_, ?_, ?_, ?_, hStorage, lt_of_lt_of_le hGood.pos hLast, ?_⟩
  · change Counted m (columns (s.classes ++ [klass]))
    rw [columns_append]
    exact hCounted
  · intro k c hc j hj
    rcases hCases k c hc with hOld | ⟨rfl, rfl⟩
    · rcases hGood.named k c hOld j hj with ⟨hLess, hIs⟩
      exact ⟨hLess, isClass_append _ hIs⟩
    · have hIs := hNamed j hj
      exact ⟨hLength j hIs, isClass_append _ hIs⟩
  · intro k c hc
    rcases hCases k c hc with hOld | ⟨rfl, rfl⟩
    · rcases hGood.mro k c hOld with ⟨tail, hEq, hAll⟩
      refine ⟨tail, hEq, ?_⟩
      intro j hj
      exact ⟨(hAll j hj).1, isClass_append _ (hAll j hj).2⟩
    · refine ⟨mro, hMro, ?_⟩
      intro j hj
      have hIs := hTail j hj
      exact ⟨hLength j hIs, isClass_append _ hIs⟩
  · intro c hc
    rcases hMem c hc with hOld | rfl
    · have hOldSize := hGood.size c hOld
      have hMono := chain1_mono hLast
      change _ ≤ chain1 last + 1
      omega
    · exact hSize
  · intro c hc
    rcases hMem c hc with hOld | rfl
    · exact lt_of_lt_of_le (hGood.ids c hOld) hLast
    · exact hId
  · intro k c hc hReturned op
    rcases hCases k c hc with hOld | ⟨rfl, rfl⟩
    · have hLess := (List.getElem?_eq_some_iff.mp hOld).1
      rcases hGood.mro k c hOld with ⟨tail, hEq, hAll⟩
      rw [tableFunc_append hKept hLess, hGood.funcs k c hOld hReturned op, hEq]
      split
      · rfl
      · refine Lists.findSome?_congr ?_
        intro j hj
        exact (tableFunc_append hKept ((hAll j hj).1.trans hLess) op).symm
    · have hHere : tableFunc ⟨s.classes ++ [c], last, storage, m⟩
          s.classes.length op = funcGet m c.vtable op := by
        unfold tableFunc
        dsimp only
        rw [getElem?_concat_length, bind_some]
      rw [hHere, hFuncs hReturned op, hMro]
      split
      · rfl
      · refine Lists.findSome?_congr ?_
        intro j hj
        exact (tableFunc_append hKept (hLength j (hTail j hj)) op).symm

/- A class is made without a fault. -/
theorem Good.makeClass {parent : Option Nat} (desc : Desc A U)
    (hGood : Good s) (hNamed : ∀ j ∈ extensions ++ parent.toList,
      isClass s.classes j) (hTail : ∀ j ∈ mro, isClass s.classes j)
    (hRoom : s.classes.length + 1 < 65536) :
    ∃ s', makeClass s desc parent extensions mro = some s' ∧ Good s' := by
  unfold Eo.makeClass
  by_cases hSet : (desc.ops.isSome || desc.initialized) = true
  · simp only [hSet, if_true]
    rcases hGood.functionsSet_spec s.classes.length
      (desc.ops.getD []) hTail hRoom with ⟨b, hRun, hBuilding, hStorage⟩
    rw [hRun, bind_eq_bind, bind_some]
    by_cases hInit : desc.initialized = true
    · rw [if_pos hInit]
      have hIds : ∀ op ∈ isaIds (s.classes ++
          [({ type := desc.type
              parent := parent
              extensions := extensions
              mro := s.classes.length :: mro
              baseId := s.opsLastId
              opsCount := (desc.ops.getD []).length
              vtable := []
              returned := desc.initialized
              sets := [] } : Klass U)]) s.classes.length,
          op < s.opsLastId + ((desc.ops.getD []).length + 1) := by
        intro op hOp
        refine isaIds_lt ?_ hOp
        intro c hc
        rcases mem_append.mp hc with hOld | hNew
        · have hLess := hGood.ids c hOld
          omega
        · obtain rfl := mem_singleton.mp hNew
          exact Nat.lt_succ_self _
      rcases isaSet_spec s.classes.length hBuilding hIds with ⟨b', hIsa, hSame, hBuilding'⟩
      rw [hIsa]
      refine ⟨_, rfl, ?_⟩
      refine hGood.append hBuilding'.counted hBuilding'.kept hNamed rfl hTail (Nat.le_add_right _ _)
        hBuilding'.length.le (Nat.lt_succ_self _) ?_ (fun _ => hBuilding'.funcs)
      rw [hSame]
      exact hStorage
    · rw [if_neg hInit]
      refine ⟨_, rfl, ?_⟩
      exact hGood.append hBuilding.counted hBuilding.kept hNamed
        rfl hTail (Nat.le_add_right _ _) hBuilding.length.le
        (Nat.lt_succ_self _) hStorage (fun _ => hBuilding.funcs)
  · rw [Bool.or_eq_true, not_or] at hSet
    have hOps : desc.ops.isSome = false := by
      simpa using hSet.1
    have hInit : desc.initialized = false := by
      simpa using hSet.2
    simp only [hOps, hInit, Bool.or_false, Bool.false_eq_true, if_false, bind_eq_bind, bind_some]
    refine ⟨_, rfl, ?_⟩
    have hPos : 0 < s.opsLastId := hGood.pos
    refine hGood.append ?_ (Kept.refl _ _) hNamed rfl hTail
      (le_refl _) (Nat.zero_le _) hPos hGood.storage (fun h => nomatch h)
    rw [withTable_nil]
    exact hGood.counted

---
-- Hierarchies
---

/- A call of `efl_class_new`. -/
structure NewClass (A U : Type) where
  desc : Desc A U
  parent : Option Nat
  extensions : List Nat

def step (s : State A U) (call : NewClass A U) : Option (State A U) :=
  (classNew s call.desc call.parent call.extensions).map
    Prod.fst

/-
  The 16 bits of `refcount` and the 32 bits of an operation
  are enough.
-/
def Room (s : State A U) (call : NewClass A U) : Prop :=
  s.classes.length + 1 < 65536 ∧
    s.opsLastId + ((call.desc.ops.getD []).length + 1) < 2 ^ 32

instance (s : State A U) (call : NewClass A U) : Decidable (Room s call) :=
  inferInstanceAs (Decidable (_ ∧ _))

omit [DecidableEq A] in
theorem empty_good : Good (State.empty : State A U) where
  counted :=
    { live := fun _ _ h => nomatch h
      fresh := fun _ h => nomatch h
      count := fun _ _ h => nomatch h
      apart := fun _ _ _ h => nomatch h
      bound := fun _ _ => Nat.zero_lt_succ _ }
  named _ _ h := nomatch h
  mro _ _ h := nomatch h
  size _ h := nomatch h
  ids _ h := nomatch h
  storage _ _ h := nomatch h
  pos := Nat.zero_lt_one
  funcs _ _ h := nomatch h

theorem step_good {call : NewClass A U} (hGood : Good s)
    (hRoom : Room s call) : ∃ s', step s call = some s' ∧ Good s' := by
  unfold step classNew
  split
  · exact ⟨s, rfl, hGood⟩
  · rename_i hParent
    split
    · exact ⟨s, rfl, hGood⟩
    · have hParents : ∀ p, call.parent = some p → isClass s.classes p := by
        intro p hp
        by_contra hNot
        exact hParent ⟨p, hp, hNot⟩
      have hExtns : ∀ e ∈ removeDuplicates
          (call.extensions.filter (isClass s.classes)), isClass s.classes e := by
        intro e he
        exact (mem_filter.mp (mem_of_mem_removeDuplicates he)).2
      dsimp only
      cases hMro : mroInit s.classes call.parent
          (removeDuplicates (call.extensions.filter (isClass s.classes))) with
      | none => exact ⟨s, rfl, hGood⟩
      | some mro =>
        have hTail := hGood.mroInit_isClass hParents hExtns hMro
        have hNamed : ∀ j ∈ removeDuplicates (call.extensions.filter (isClass s.classes)) ++
          call.parent.toList, isClass s.classes j := by
          intro j hj
          rcases mem_append.mp hj with hj | hj
          · exact hExtns j hj
          · exact hParents j (by simpa using hj)
        rcases hGood.makeClass call.desc hNamed hTail hRoom.1 with ⟨s', hMake, hGood'⟩
        refine ⟨s', ?_, hGood'⟩
        dsimp only
        rw [hMake]
        rfl

/-
  In every hierarchy the tables follow the resolution orders
  exactly when the orders of the classes agree.
-/
theorem resolution_iff (calls : List (NewClass A U))
    (hRoom : Runs.Guarded step Room State.empty calls) :
    ∃ s, Runs.run step State.empty calls = some s ∧
      (Correct s ↔ Consistent s) := by
  rcases Runs.run_of_guarded Good
    (fun _ _ hGood hRoom => step_good hGood hRoom) empty_good
    hRoom with ⟨s, hRun, hGood⟩
  exact ⟨s, hRun, hGood.correct_iff⟩

/- A class that sets the function of operation 0. -/
def classDesc (type : ClassType) (funcs : List Nat) : Desc Nat Nat where
  type := type
  ops := some (funcs.map fun f => ⟨some 0, some f⟩)
  initialized := true

/- A mixin, and a class with it that sets another function. -/
def sampleCalls : List (NewClass Nat Nat) :=
  [⟨classDesc .mixin [10], none, []⟩,
    ⟨classDesc .regular [11], none, [0]⟩]

theorem resolution_sample :
    Runs.Guarded step Room State.empty sampleCalls ∧
      ∃ s, Runs.run step State.empty sampleCalls = some s ∧
        (Correct s ↔ Consistent s) := by
  have hRoom : Runs.Guarded step Room State.empty
      sampleCalls := by
    refine ⟨by decide, fun s hs => ⟨?_, fun _ _ => trivial⟩⟩
    obtain rfl := Option.some.inj hs
    decide
  exact ⟨hRoom, resolution_iff sampleCalls hRoom⟩

/-
  Mixin 0 sets a function; the mixins 1 and 2 extend it, and
  mixin 2 sets another one.  The order of class 3, which
  extends both, is 3, 1, 2, 0.
-/
def diamondCalls : List (NewClass Nat Nat) :=
  [⟨classDesc .mixin [10], none, []⟩,
    ⟨classDesc .mixin [], none, [0]⟩,
    ⟨classDesc .mixin [12], none, [0]⟩,
    ⟨classDesc .regular [], none, [1, 2]⟩]

/- Class 3 has the function of mixin 0, not that of mixin 2. -/
theorem diamond_hidden :
    ∃ s, Runs.run step State.empty diamondCalls = some s ∧
      (s.classes.map Klass.mro) =
        [[0], [1, 0], [2, 0], [3, 1, 2, 0]] ∧
      s.opsStorage 0 = some 1 ∧
      mroFunc s 3 1 = some (.user 12) ∧
      tableFunc s 3 1 = some (.user 10) ∧
      ¬ Correct s := by
  refine ⟨(Runs.run step State.empty diamondCalls).get
    (by decide), (Option.some_get _).symm, by decide, by decide,
    by decide, by decide, ?_⟩
  intro hCorrect
  have hSame := hCorrect 3 (by decide) 1
  revert hSame
  decide

end Efl.Eo
