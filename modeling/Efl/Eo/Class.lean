import Efl.Eo.Vtable
import Mathlib.Data.List.Nodup

/-
  Classes: their method resolution order, and the functions
  they set.

  Classes are numbered in the order in which they are made.

  Main declarations:
    * `Klass`, `State`
    * `mroAdd`, `mroInit`
-/

---
-- Classes
---

namespace Efl.Eo

/- `Efl_Class_Type` -/
inductive ClassType where
  | regular
  | regularNoInstant
  | interface
  | mixin
  deriving DecidableEq

/- The functions of the user, and `_eo_class_isa_func`. -/
inductive Func (U : Type) where
  | user (u : U)
  | isa
  deriving DecidableEq

/- `Efl_Op_Description`; NULL is `none`. -/
structure OpDesc (A U : Type) where
  apiFunc : Option A
  func : Option U

/-
  `Efl_Class_Description`: the type of the class, the list that
  the class initializer gives to `efl_class_functions_set`, if
  it calls it, and what the initializer returns.
-/
structure Desc (A U : Type) where
  type : ClassType
  ops : Option (List (OpDesc A U))
  initialized : Bool

/-
  `_Efl_Class`; `returned` tells whether `efl_class_new` has
  returned the class, and `sets` what the class itself has set
  in its table, the last function first.
-/
structure Klass (U : Type) where
  type : ClassType
  parent : Option Nat
  extensions : List Nat
  mro : List Nat
  baseId : Nat
  opsCount : Nat
  vtable : Vtable
  returned : Bool
  sets : List (Nat × Option (Func U))

structure State (A U : Type) where
  classes : List (Klass U)
  opsLastId : Nat
  opsStorage : A → Option Nat
  memory : Memory (Func U)

/- After `efl_object_init`. -/
def State.empty {A U : Type} [DecidableEq U] : State A U where
  classes := []
  opsLastId := 1
  opsStorage _ := none
  memory := Memory.empty

---
-- The Method Resolution Order
---

section

variable {U : Type}

/-
  Visit a class, and then the ones it names, in their order.
  `fuel` bounds the depth.
-/
def descend {α : Type} (visit : Nat → List α) (named : Nat → List Nat) : Nat → Nat → List α
  | 0, _ => []
  | fuel + 1, k =>
    visit k ++ (named k).flatMap (descend visit named fuel)

/- The extensions that are mixins, and the parent. -/
def mroNames (classes : List (Klass U)) (k : Nat) : List Nat :=
  match classes[k]? with
  | none => []
  | some klass =>
    klass.extensions.filter (fun e =>
      (classes[e]?).any fun extn => extn.type = .mixin) ++
      klass.parent.toList

/- `_eo_class_mro_add`, what it appends for a class. -/
def mroAdd (classes : List (Klass U)) (k : Nat) : List Nat :=
  descend (fun k => [k]) (mroNames classes) (k + 1) k

/-
  `_eo_class_list_remove_duplicates`, which keeps the last
  ones.
-/
def removeDuplicates : List Nat → List Nat
  | [] => []
  | k :: ks =>
    if k ∈ ks then removeDuplicates ks
    else k :: removeDuplicates ks

/- No mixin is found again behind its own part. -/
def consistentMro (classes : List (Klass U)) : List Nat → Bool
  | [] => true
  | extn :: extns =>
    decide (extn ∉ extns.flatMap (mroAdd classes)) &&
      consistentMro classes extns

/- `_eo_class_mro_init`, without the class itself -/
def mroInit (classes : List (Klass U)) (parent : Option Nat)
    (extensions : List Nat) : Option (List Nat) :=
  let mixins := extensions.filter fun e =>
    (classes[e]?).any fun extn => extn.type = .mixin
  if consistentMro classes mixins then
    some (removeDuplicates
      ((mixins ++ parent.toList).flatMap (mroAdd classes)))
  else
    none

end

---
-- Functions
---

variable {A U : Type} [DecidableEq A] [DecidableEq U]

/- What changes while a class gets its functions. -/
structure Build (A U : Type) where
  memory : Memory (Func U)
  vtable : Vtable
  opsStorage : A → Option Nat
  sets : List (Nat × Option (Func U))

/- `_vtable_func_set` for the class that is made. -/
def Build.set (b : Build A U) (klass op : Nat)
    (func : Option (Func U)) : Option (Build A U × Bool) := do
  let (m, t, ok) ← funcSet b.memory b.vtable klass op func
  if ok then
    some
      ({ b with
        memory := m
        vtable := t
        sets := (op, func) :: b.sets }, true)
  else
    some ({ b with memory := m, vtable := t }, false)

/-
  The loop of `_eo_class_funcs_set` behind its checks; `opId`
  is the id for the next function without one.
-/
def funcsSetFrom (klass : Nat) : Nat → List (OpDesc A U) → Build A U →
      Option (Build A U × Bool)
  | _, [], b => some (b, true)
  | opId, desc :: descs, b =>
    match desc.apiFunc with
    | none => some (b, false)
    | some api => do
      let op := (b.opsStorage api).getD opId
      let next :=
        if (b.opsStorage api).isSome then opId
        else opId + 1
      let (b, ok) ← Build.set
        { b with
          opsStorage :=
            Function.update b.opsStorage api (some op) }
        klass op (desc.func.map .user)
      if ok then funcsSetFrom klass next descs b
      else some (b, false)

/- `_eo_class_funcs_set`, without `override_only` -/
def classFuncsSet (klass baseId : Nat) (descs : List (OpDesc A U))
    (b : Build A U) : Option (Build A U × Bool) :=
  if (∃ desc ∈ descs, desc.apiFunc = none) ∨
      ¬ (descs.map OpDesc.apiFunc).Nodup then
    some (b, false)
  else
    funcsSetFrom klass baseId descs b

/- The tables of the classes, the farthest one first. -/
def flatten (classes : List (Klass U)) : Memory (Func U) → Vtable → List Nat →
      Option (Memory (Func U) × Vtable)
  | m, t, [] => some (m, t)
  | m, t, k :: mro => do
    let (m, t) ← flatten classes m t mro
    match classes[k]? with
    | none => none
    | some klass => copyAll m t klass.vtable

/-
  `efl_class_functions_set` of class `klass`; `mro` is what
  follows the class.
-/
def functionsSet (s : State A U) (klass : Nat) (mro : List Nat)
    (descs : List (OpDesc A U)) : Option (Build A U) := do
  let last := s.opsLastId + (descs.length + 1)
  let (m, t) ← flatten s.classes s.memory
    (List.replicate (chain1 last + 1) none) mro
  let (b, _) ← classFuncsSet klass s.opsLastId descs
    ⟨m, t, s.opsStorage, []⟩
  some b

/- All extensions, and the parent. -/
def isaNames (classes : List (Klass U)) (k : Nat) : List Nat :=
  match classes[k]? with
  | none => []
  | some klass => klass.extensions ++ klass.parent.toList

/- `cur->base_id + cur->ops_count` -/
def isaId (classes : List (Klass U)) (k : Nat) : List Nat :=
  match classes[k]? with
  | none => []
  | some klass => [klass.baseId + klass.opsCount]

/- What `_eo_class_isa_recursive_set` sets for a class. -/
def isaIds (classes : List (Klass U)) (k : Nat) : List Nat :=
  descend (isaId classes) (isaNames classes) (k + 1) k

/- Its calls of `_vtable_func_set`. -/
def isaSet (klass : Nat) : List Nat → Build A U → Option (Build A U)
  | [], b => some b
  | op :: ops, b => do
    let (b, _) ← b.set klass op (some .isa)
    isaSet klass ops b

/- Which parents a class of a type can have. -/
def parentAllowed (type parent : ClassType) : Bool :=
  match type with
  | .regular | .regularNoInstant =>
    parent = .regular ∨ parent = .regularNoInstant
  | .interface | .mixin => parent = .interface ∨ parent = .mixin

/- The number is that of a class that somebody has. -/
def isClass (classes : List (Klass U)) (k : Nat) : Bool :=
  (classes[k]?).any fun klass => klass.returned

/-
  The class that `efl_class_new` makes.  When the initializer
  does not set the functions, an empty list is set, unless the
  initializer fails.
-/
def makeClass (s : State A U) (desc : Desc A U)
    (parent : Option Nat) (extensions mro : List Nat) : Option (State A U) := do
  let klass := s.classes.length
  let descs := desc.ops.getD []
  let set := desc.ops.isSome || desc.initialized
  let made : Klass U :=
    { type := desc.type
      parent := parent
      extensions := extensions
      mro := klass :: mro
      baseId := if set then s.opsLastId else 0
      opsCount := if set then descs.length else 0
      vtable := []
      returned := desc.initialized
      sets := [] }
  let b ←
    if set then
      functionsSet s klass mro descs
    else
      some ⟨s.memory, [], s.opsStorage, []⟩
  let b ←
    if desc.initialized then
      isaSet klass (isaIds (s.classes ++ [made]) klass) b
    else
      some b
  some
    { classes := s.classes ++
        [{ made with vtable := b.vtable, sets := b.sets }]
      opsLastId :=
        if set then s.opsLastId + (descs.length + 1)
        else s.opsLastId
      opsStorage := b.opsStorage
      memory := b.memory }

/-
  `efl_class_new`; the answer is whether a class is returned.
-/
def classNew (s : State A U) (desc : Desc A U) (parent : Option Nat)
    (extensions : List Nat) : Option (State A U × Bool) :=
  if ∃ p, parent = some p ∧ ¬ isClass s.classes p then
    some (s, false)
  else if ∃ p, parent = some p ∧ (s.classes[p]?).any
      (fun klass => ¬ parentAllowed desc.type klass.type) then
    some (s, false)
  else
    let extensions := removeDuplicates
      (extensions.filter (isClass s.classes))
    match mroInit s.classes parent extensions with
    | none => some (s, false)
    | some mro => do
      let s ← makeClass s desc parent extensions mro
      some (s, desc.initialized)

end Efl.Eo
