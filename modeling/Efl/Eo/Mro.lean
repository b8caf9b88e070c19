import Efl.Eo.Resolution

/-
  The order of the classes in which methods are looked for.

  The order is a preorder of the classes and of what they name,
  of which the last of equal ones is kept.

  Main declarations:
    * `Led`, a list in which what is named comes later
    * `ClassGraph`
    * `Led.removeDuplicates`
    * `ClassGraph.led_mroAdd`
-/

---
-- Lists That Lead to What They Name
---

namespace Efl.Eo

open List

/- Behind each class comes everything that it names. -/
def Led (named : Nat → List Nat) : List Nat → Prop
  | [] => True
  | k :: ks => (∀ j ∈ named k, j ∈ ks) ∧ Led named ks

/- A class is before another one. -/
def Before (ks : List Nat) (k j : Nat) : Prop :=
  ∃ left right, ks = left ++ k :: right ∧ j ∈ right

section

variable {named : Nat → List Nat} {ks js : List Nat}

theorem Led.before (hLed : Led named ks) {k j : Nat}
    (hMem : k ∈ ks) (hNamed : j ∈ named k) : Before ks k j := by
  induction ks with
  | nil => exact nomatch hMem
  | cons i ks ih =>
    rcases mem_cons.mp hMem with rfl | hMem
    · exact ⟨[], ks, rfl, hLed.1 j hNamed⟩
    · rcases ih hLed.2 hMem with ⟨left, right, rfl, hIn⟩
      exact ⟨i :: left, right, rfl, hIn⟩

theorem Led.append (hLeft : Led named ks) (hRight : Led named js) : Led named (ks ++ js) := by
  induction ks with
  | nil => exact hRight
  | cons k ks ih =>
    refine ⟨fun j hj => ?_, ih hLeft.2⟩
    exact mem_append_left js (hLeft.1 j hj)

theorem Led.flatMap {list : Nat → List Nat}
    (hAll : ∀ k ∈ ks, Led named (list k)) : Led named (ks.flatMap list) := by
  induction ks with
  | nil => trivial
  | cons k ks ih =>
    rw [flatMap_cons]
    refine Led.append (hAll k (mem_cons_self ..)) ?_
    exact ih fun j hj => hAll j (mem_cons_of_mem k hj)

theorem mem_removeDuplicates {k : Nat} : k ∈ removeDuplicates ks ↔ k ∈ ks := by
  refine ⟨mem_of_mem_removeDuplicates, fun hMem => ?_⟩
  induction ks with
  | nil => exact hMem
  | cons j ks ih =>
    rw [removeDuplicates]
    split
    case isTrue hAgain =>
      rcases mem_cons.mp hMem with rfl | hMem
      · exact ih hAgain
      · exact ih hMem
    case isFalse =>
      rcases mem_cons.mp hMem with rfl | hMem
      · exact mem_cons_self ..
      · exact mem_cons_of_mem j (ih hMem)

theorem nodup_removeDuplicates (ks : List Nat) : (removeDuplicates ks).Nodup := by
  induction ks with
  | nil => exact nodup_nil
  | cons k ks ih =>
    rw [removeDuplicates]
    split
    case isTrue => exact ih
    case isFalse hNew =>
      refine nodup_cons.mpr ⟨?_, ih⟩
      rwa [mem_removeDuplicates]

/- The last of equal classes has behind it what they name. -/
theorem Led.removeDuplicates (hLed : Led named ks) : Led named (removeDuplicates ks) := by
  induction ks with
  | nil => trivial
  | cons k ks ih =>
    rw [Eo.removeDuplicates]
    split
    case isTrue => exact ih hLed.2
    case isFalse =>
      refine ⟨fun j hj => ?_, ih hLed.2⟩
      exact mem_removeDuplicates.mpr (hLed.1 j hj)

end

---
-- Graphs of Classes
---

open Option
variable {U : Type}

/- Classes are made of classes that are there before them. -/
structure ClassGraph (U : Type) where
  classes : List (Klass U)
  named :
    ∀ (k : Nat) klass, classes[k]? = some klass →
      ∀ j ∈ klass.extensions ++ klass.parent.toList, j < k

def IsMixin (classes : List (Klass U)) (k : Nat) : Prop :=
  ∃ klass, classes[k]? = some klass ∧ klass.type = .mixin

/- The other class is the parent, or a mixin extension. -/
inductive Names (classes : List (Klass U)) : Nat → Nat → Prop
  | parent {k p : Nat} {klass : Klass U}
      (hKlass : classes[k]? = some klass)
      (hParent : klass.parent = some p) :
      Names classes k p
  | mixin {k e : Nat} {klass : Klass U}
      (hKlass : classes[k]? = some klass)
      (hExtension : e ∈ klass.extensions)
      (hMixin : IsMixin classes e) :
      Names classes k e

/- Over parents and mixin extensions -/
inductive Reaches (classes : List (Klass U)) : Nat → Nat → Prop
  | self (k : Nat) : Reaches classes k k
  | step {k j i : Nat}
      (hNames : Names classes k j)
      (hReaches : Reaches classes j i) :
      Reaches classes k i

/-
  The order of a class with a parent and extensions: every
  class that it reaches is there once, before what it names.
-/
structure MroCorrect (classes : List (Klass U)) (parent : Option Nat)
    (extensions mro : List Nat) : Prop where
  once : mro.Nodup
  all :
    ∀ j, j ∈ mro ↔
      (∃ p, parent = some p ∧ Reaches classes p j) ∨
        ∃ e ∈ extensions,
          IsMixin classes e ∧ Reaches classes e j
  before :
    ∀ k j, k ∈ mro → Names classes k j → Before mro k j

theorem any_mixin_iff {classes : List (Klass U)} {e : Nat} :
    (classes[e]?).any (fun extn => extn.type = .mixin) = true ↔ IsMixin classes e := by
  unfold IsMixin
  cases classes[e]? with
  | none => simp
  | some klass => simp

theorem mem_mroNames {classes : List (Klass U)} {k j : Nat} :
    j ∈ mroNames classes k ↔ Names classes k j := by
  unfold mroNames
  constructor
  · intro hMem
    split at hMem
    case h_1 => exact nomatch hMem
    case h_2 klass hKlass =>
      rcases mem_append.mp hMem with hMem | hMem
      · rcases mem_filter.mp hMem with ⟨hIn, hMixin⟩
        exact .mixin hKlass hIn (any_mixin_iff.mp hMixin)
      · exact .parent hKlass (by simpa using hMem)
  · intro hNames
    cases hNames with
    | parent hKlass hParent =>
      rw [hKlass]
      refine mem_append_right _ ?_
      simpa using hParent
    | mixin hKlass hExtension hMixin =>
      rw [hKlass]
      refine mem_append_left _ ?_
      exact mem_filter.mpr ⟨hExtension, any_mixin_iff.mpr hMixin⟩

section

variable (graph : ClassGraph U)

theorem ClassGraph.names_lt {k j : Nat} (hNames : Names graph.classes k j) : j < k := by
  cases hNames with
  | parent hKlass hParent =>
    refine graph.named k _ hKlass j ?_
    exact mem_append_right _ (by simpa using hParent)
  | mixin hKlass hExtension hMixin =>
    refine graph.named k _ hKlass j ?_
    exact mem_append_left _ hExtension

/- A class comes before the lists of what it names. -/
theorem ClassGraph.mroAdd_eq (k : Nat) :
    mroAdd graph.classes k = k :: (mroNames graph.classes k).flatMap (mroAdd graph.classes) := by
  have hLess : ∀ i, ∀ j ∈ mroNames graph.classes i, j < i :=
    fun i j hj => graph.names_lt (mem_mroNames.mp hj)
  rw [mroAdd, descend, singleton_append]
  congr 1
  refine flatMap_congr ?_
  intro j hj
  exact descend_fuel hLess (hLess k j hj) (Nat.lt_succ_self j)

theorem ClassGraph.mem_mroAdd {k j : Nat} :
    j ∈ mroAdd graph.classes k ↔ Reaches graph.classes k j := by
  induction k using Nat.strong_induction_on with
  | _ k ih =>
    rw [graph.mroAdd_eq, mem_cons, mem_flatMap]
    constructor
    · rintro (rfl | ⟨i, hNamed, hMem⟩)
      · exact .self j
      · have hNames := mem_mroNames.mp hNamed
        exact .step hNames ((ih i (graph.names_lt hNames)).mp hMem)
    · intro hReaches
      cases hReaches with
      | self => exact Or.inl rfl
      | @step _ i _ hNames hReaches =>
        exact Or.inr ⟨i, mem_mroNames.mpr hNames, (ih i (graph.names_lt hNames)).mpr hReaches⟩

theorem ClassGraph.led_mroAdd (k : Nat) :
    Led (mroNames graph.classes) (mroAdd graph.classes k) := by
  induction k using Nat.strong_induction_on with
  | _ k ih =>
    rw [graph.mroAdd_eq]
    refine ⟨fun j hj => ?_, Led.flatMap fun j hj => ?_⟩
    · exact mem_flatMap.mpr ⟨j, hj, graph.mem_mroAdd.mpr (.self j)⟩
    · exact ih j (graph.names_lt (mem_mroNames.mp hj))

/-
  Whenever an order is made, of whatever parent and extensions,
  it has what the class reaches, once and in order.
-/
theorem mroInit_correct
    {parent : Option Nat} {extensions mro : List Nat}
    (hMro : mroInit graph.classes parent extensions =
      some mro) :
    MroCorrect graph.classes parent extensions mro := by
  unfold mroInit at hMro
  dsimp only at hMro
  split at hMro
  case isFalse => exact nomatch hMro
  case isTrue =>
    obtain rfl := some.inj hMro
    have hLed : Led (mroNames graph.classes)
        (removeDuplicates ((extensions.filter (fun e =>
          (graph.classes[e]?).any fun extn =>
            extn.type = .mixin) ++ parent.toList).flatMap
          (mroAdd graph.classes))) :=
      Led.removeDuplicates (Led.flatMap fun k _ => graph.led_mroAdd k)
    refine ⟨nodup_removeDuplicates _, fun j => ?_, ?_⟩
    · rw [mem_removeDuplicates, mem_flatMap]
      constructor
      · rintro ⟨k, hk, hMem⟩
        have hReaches := graph.mem_mroAdd.mp hMem
        rcases mem_append.mp hk with hk | hk
        · rcases mem_filter.mp hk with ⟨hIn, hMixin⟩
          exact Or.inr ⟨k, hIn, any_mixin_iff.mp hMixin, hReaches⟩
        · exact Or.inl ⟨k, by simpa using hk, hReaches⟩
      · rintro (⟨p, rfl, hReaches⟩ | ⟨e, hIn, hMixin, hReaches⟩)
        · exact ⟨p, by simp, graph.mem_mroAdd.mpr hReaches⟩
        · refine ⟨e, mem_append_left _ ?_,
            graph.mem_mroAdd.mpr hReaches⟩
          exact mem_filter.mpr ⟨hIn, any_mixin_iff.mpr hMixin⟩
    · intro k j hMem hNames
      exact hLed.before hMem (mem_mroNames.mpr hNames)

end

variable {A : Type} [DecidableEq A] [DecidableEq U]

omit [DecidableEq A] [DecidableEq U] in
/- The classes that the calls of `efl_class_new` make -/
def Good.graph {s : State A U} (hGood : Good s) : ClassGraph U where
  classes := s.classes
  named k klass hKlass j hj := (hGood.named k klass hKlass j hj).1

/- A mixin, a class with it, and the order of a third class -/
def sampleGraph : ClassGraph Nat where
  classes :=
    [⟨.mixin, none, [], [0], 0, 0, [], true, []⟩,
      ⟨.regular, none, [0], [1, 0], 0, 0, [], true, []⟩]
  named k klass hKlass j hj := by
    match k with
    | 0 =>
      obtain rfl := some.inj hKlass
      exact nomatch hj
    | 1 =>
      obtain rfl := some.inj hKlass
      have hZero : j = 0 := by simpa using hj
      omega
    | k + 2 => exact nomatch hKlass

theorem mroInit_correct_sample :
    mroInit sampleGraph.classes (some 1) [0] = some [1, 0] ∧
      MroCorrect sampleGraph.classes (some 1) [0] [1, 0] :=
  ⟨by decide, mroInit_correct sampleGraph (by decide)⟩

end Efl.Eo
