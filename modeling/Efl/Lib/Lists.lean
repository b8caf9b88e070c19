import Mathlib.Data.Finset.Prod
import Mathlib.Data.List.Basic
import Mathlib.Data.List.Forall2

/-
  Positions in lists, and lists of results that may fail.

  Main declarations:
    * `Lists.mapM_eq_some_iff`, `Lists.mapM_range`
    * `Lists.split_get`
-/

namespace Efl.Lists

open List Option

variable {α β : Type}

variable {as : List α} {bs : List β}

variable {f : α → Option β}

/- All results are there. -/
theorem mapM_eq_some_iff : as.mapM f = some bs ↔ as.map f = bs.map some := by
  induction as generalizing bs with
  | nil =>
    constructor
    · intro h
      obtain rfl : [] = bs := some.inj h
      rfl
    · intro h
      obtain rfl := map_eq_nil_iff.mp h.symm
      rfl
  | cons a as ih =>
    rw [mapM_cons]
    constructor
    · intro h
      rw [bind_eq_bind, bind_eq_some_iff] at h
      rcases h with ⟨b, hHead, h⟩
      rw [bind_eq_bind, bind_eq_some_iff] at h
      rcases h with ⟨bs', hTail, h⟩
      obtain rfl : b :: bs' = bs := some.inj h
      simp [hHead, ih.mp hTail]
    · intro h
      cases bs with
      | nil => simp at h
      | cons b bs =>
        rw [map_cons, map_cons, List.cons.injEq] at h
        rw [h.1, ih.mpr h.2]
        rfl

/- A list around one of its elements. -/
theorem split_get {a : α} {i : Nat} (hGet : as[i]? = some a) :
    as = as.take i ++ a :: as.drop (i + 1) := by
  rcases List.getElem?_eq_some_iff.mp hGet with ⟨hi, rfl⟩
  rw [← drop_eq_getElem_cons hi, take_append_drop]

/- Results that are known beforehand. -/
theorem eq_map_of_mapM {g : α → β} (hAll : as.mapM f = some bs)
    (hValue : ∀ a b, f a = some b → b = g a) : bs = as.map g := by
  rw [mapM_eq_some_iff] at hAll
  induction as generalizing bs with
  | nil =>
    rw [map_nil] at hAll
    obtain rfl := map_eq_nil_iff.mp hAll.symm
    rfl
  | cons a as ih =>
    cases bs with
    | nil => simp at hAll
    | cons b bs =>
      rw [map_cons, map_cons, List.cons.injEq] at hAll
      rw [map_cons, hValue a b hAll.1, ← ih hAll.2]

/- Each result has its argument. -/
theorem mem_of_mapM {b : β} (hAll : as.mapM f = some bs)
    (hMem : b ∈ bs) : ∃ a ∈ as, f a = some b := by
  rw [mapM_eq_some_iff] at hAll
  have hSome : some b ∈ bs.map some := mem_map.mpr ⟨b, hMem, rfl⟩
  rw [← hAll] at hSome
  exact mem_map.mp hSome

/- Results for the indices of a list. -/
theorem mapM_range {f : Nat → Option β} {n : Nat} (hLength : bs.length = n)
    (hValue : ∀ i b, bs[i]? = some b → f i = some b) : (List.range n).mapM f = some bs := by
  subst hLength
  rw [mapM_eq_some_iff]
  apply ext_getElem (by simp)
  intro i hLeft hRight
  rw [getElem_map, getElem_map, getElem_range]
  rw [length_map] at hRight
  exact hValue i _ (getElem?_eq_getElem hRight)

/- What every round of a loop keeps holds after the loop. -/
theorem foldlM_range {f : β → Nat → Option β} (P : Nat → β → Prop)
    {n : Nat} {b : β} (hInit : P 0 b) (hStep : ∀ k < n, ∀ b, P k b →
    ∃ b', f b k = some b' ∧ P (k + 1) b') : ∃ b', (List.range n).foldlM f b = some b' ∧ P n b' := by
  induction n with
  | zero => exact ⟨b, rfl, hInit⟩
  | succ n ih =>
    rcases ih (fun k hk => hStep k (by omega)) with ⟨b₁, hFold, hP⟩
    rcases hStep n (Nat.lt_succ_self n) b₁ hP with ⟨b', hLast, hP'⟩
    refine ⟨b', ?_, hP'⟩
    rw [range_succ, foldlM_append, hFold]
    simp [hLast]

/- What every round that goes through keeps -/
theorem inv_of_foldlM {f : β → α → Option β} (P : β → Prop) {b b' : β}
    (hStep : ∀ b a b', P b → f b a = some b' → P b') (hInit : P b)
    (hFold : as.foldlM f b = some b') : P b' := by
  induction as generalizing b with
  | nil =>
    obtain rfl := some.inj hFold
    exact hInit
  | cons a as ih =>
    rw [foldlM_cons, bind_eq_bind, bind_eq_some_iff] at hFold
    rcases hFold with ⟨b₁, hFirst, hRest⟩
    exact ih (hStep b a b₁ hInit hFirst) hRest

/- The rounds of a loop that went through -/
theorem of_foldlM_range {f : β → Nat → Option β} {n : Nat} {b b' : β}
    (hFold : (List.range n).foldlM f b = some b') : ∀ k < n, ∃ b₁ b₂, f b₁ k = some b₂ := by
  induction n generalizing b' with
  | zero => exact fun k hk => absurd hk (Nat.not_lt_zero k)
  | succ n ih =>
    rw [range_succ, foldlM_append, bind_eq_bind, bind_eq_some_iff] at hFold
    rcases hFold with ⟨b₁, hFirst, hLast⟩
    intro k hk
    by_cases hSame : k = n
    · subst hSame
      refine ⟨b₁, b', ?_⟩
      simpa using hLast
    · exact ih hFirst k (by omega)

/- A maximum is not below what it is taken of. -/
theorem le_foldl_max (f : α → Nat) (as : List α) (base : Nat) :
    base ≤ as.foldl (fun m a => max m (f a)) base ∧
      ∀ a ∈ as, f a ≤ as.foldl (fun m a => max m (f a)) base := by
  induction as generalizing base with
  | nil => simp
  | cons a as ih =>
    rw [foldl_cons]
    rcases ih (max base (f a)) with ⟨hBase, hAll⟩
    refine ⟨by omega, ?_⟩
    intro b hMem
    rcases mem_cons.mp hMem with rfl | hMem
    · omega
    · exact hAll b hMem

/- Functions that agree on a list find the same there. -/
theorem findSome?_congr {g : α → Option β} {l : List α}
    (hEq : ∀ a ∈ l, f a = g a) : l.findSome? f = l.findSome? g := by
  induction l with
  | nil => rfl
  | cons a l ih =>
    have hRest := ih fun b hb => hEq b (by simp [hb])
    rw [findSome?_cons, findSome?_cons, hEq a (by simp), hRest]

/- A list with all triples below three bounds is long. -/
theorem mul_le_length {a b c : Nat} {l : List (Nat × Nat × Nat)}
    (hAll : ∀ x y z, x < a → y < b → z < c → (x, y, z) ∈ l) : a * (b * c) ≤ l.length := by
  have hSubset : Finset.range a ×ˢ (Finset.range b ×ˢ Finset.range c) ⊆ l.toFinset := by
    rintro ⟨x, y, z⟩ hMem
    simp only [Finset.mem_product, Finset.mem_range] at hMem
    exact mem_toFinset.mpr (hAll x y z hMem.1 hMem.2.1 hMem.2.2)
  have hCard := Finset.card_le_card hSubset
  rw [Finset.card_product, Finset.card_product, Finset.card_range,
    Finset.card_range, Finset.card_range] at hCard
  exact hCard.trans l.toFinset_card_le

/- Related lists after a related update. -/
theorem forall₂_set {R : α → β → Prop} {a : α} {b : β} (i : Nat)
    (hAll : List.Forall₂ R as bs) (hHere : R a b) : List.Forall₂ R (as.set i a) (bs.set i b) := by
  induction hAll generalizing i with
  | nil => exact .nil
  | cons hFirst hRest ih =>
    cases i with
    | zero => exact .cons hHere hRest
    | succ i => exact .cons hFirst (ih i)

end Efl.Lists
