import Efl.Edje.Match

/-
  What glob patterns mean, and what a token of the matcher
  does for a pattern that is valid.

  Main declarations:
    * `parseItems`, `parseClass`
    * `Matches`
    * `execClass_spec`
    * `token_spec`
-/

---
-- Classes
---

namespace Efl.Edje

open Bytes List Option

/- A character of a class, or a range. -/
inductive ClassItem where
  | char (a : Byte)
  | range (a b : Byte)

def ClassItem.Has : ClassItem → Byte → Prop
  | .char a, c => c = a
  | .range a b, c => charLe a c ∧ charLe c b

instance (item : ClassItem) (c : Byte) : Decidable (item.Has c) := by
  cases item
  · exact inferInstanceAs (Decidable (_ = _))
  · exact inferInstanceAs (Decidable (_ ∧ _))

/-
  The items of a class, of which there is at least one, up to
  the bracket that closes it, and what comes after it.
-/
def parseItems : List Byte → Option (List ClassItem × List Byte)
  | [] => none
  | [_] => none
  | [a, b] =>
    if b = closing then some ([.char a], [])
    else none
  | a :: b :: e :: s =>
    if b = dash ∧ e ≠ closing then
      match s with
      | [] => none
      | d :: s' =>
        if d = closing then some ([.range a e], s')
        else (parseItems (d :: s')).map fun r =>
          (.range a e :: r.1, r.2)
    else if b = closing then
      some ([.char a], e :: s)
    else
      (parseItems (b :: e :: s)).map fun r =>
        (.char a :: r.1, r.2)

/- A class is negated, or not, and has items. -/
structure CharClass where
  negated : Bool
  items : List ClassItem

def CharClass.Has (cl : CharClass) (c : Byte) : Prop :=
  (∃ item ∈ cl.items, item.Has c) ↔ cl.negated = false

/- The class behind an opening bracket. -/
def parseClass : List Byte → Option (CharClass × List Byte)
  | [] => none
  | b :: s =>
    if b = bang then
      (parseItems s).map fun r => (⟨true, r.1⟩, r.2)
    else
      (parseItems (b :: s)).map fun r => (⟨false, r.1⟩, r.2)

---
-- Patterns
---

/- A character that stands for itself. -/
def Plain (a : Byte) : Prop :=
  a ≠ star ∧ a ≠ question ∧ a ≠ bracket ∧ a ≠ backslash

/- A pattern matches a whole string. -/
inductive Matches : List Byte → List Byte → Prop
  | nil : Matches [] []
  | skip {p s : List Byte} :
      Matches p s → Matches (star :: p) s
  | take {p s : List Byte} (c : Byte) :
      Matches (star :: p) s → Matches (star :: p) (c :: s)
  | any {p s : List Byte} (c : Byte) :
      Matches p s → Matches (question :: p) (c :: s)
  | escape {p s : List Byte} (c : Byte) :
      Matches p s → Matches (backslash :: c :: p) (c :: s)
  | cls {p rest s : List Byte} {cl : CharClass} (c : Byte) :
      parseClass p = some (cl, rest) → cl.Has c →
      Matches rest s → Matches (bracket :: p) (c :: s)
  | char {p s : List Byte} (a : Byte) :
      Plain a → Matches p s → Matches (a :: p) (a :: s)

/- Its classes and escapes are complete. -/
inductive Valid : List Byte → Prop
  | nil : Valid []
  | star {p : List Byte} : Valid p → Valid (star :: p)
  | question {p : List Byte} :
      Valid p → Valid (question :: p)
  | escape {p : List Byte} (c : Byte) :
      Valid p → Valid (backslash :: c :: p)
  | cls {p rest : List Byte} {cl : CharClass} :
      parseClass p = some (cl, rest) → Valid rest →
      Valid (bracket :: p)
  | char {p : List Byte} (a : Byte) :
      Plain a → Valid p → Valid (a :: p)

/- What is known of the bytes of a string. -/
theorem byteAt_cons_zero (b : Byte) (s : List Byte) : byteAt (b :: s) 0 = b := rfl

theorem byteAt_drop (s : List Byte) (i j : Nat) : byteAt (s.drop i) j = byteAt s (i + j) := by
  unfold byteAt
  rw [getD_eq_getElem?_getD, getD_eq_getElem?_getD, getElem?_drop]

variable {s : List Byte}

theorem byteAt_ne_zero_iff {i : Nat} (hNoNul : 0 ∉ s) : byteAt s i ≠ 0 ↔ i < s.length := by
  unfold byteAt
  rw [getD_eq_getElem?_getD]
  constructor
  · intro hByte
    by_contra hNot
    rw [getElem?_eq_none (by omega)] at hByte
    exact hByte rfl
  · intro hLess hZero
    rw [getElem?_eq_getElem hLess, getD_some] at hZero
    exact hNoNul (hZero ▸ getElem_mem hLess)

variable {cl : List Byte}

/- One step of the loop over a class. -/
theorem execClassLoop_step {c : Byte} {fuel pos pos' n : Nat} {status status' : Status} {d : Byte}
    (hToken : execClassToken status (cl.drop pos) c = (status', n))
    (hNext : pos + n = pos') (hDrop : cl.drop pos' = d :: s)
    (hNoNul : d ≠ 0) :
    execClassLoop cl c (fuel + 1) pos status =
      if d = closing then some (status', pos')
      else execClassLoop cl c fuel pos' status' := by
  have hByte : byteAt cl pos' = d := by
    have h := byteAt_drop cl pos' 0
    rw [hDrop, byteAt_cons_zero, Nat.add_zero] at h
    exact h.symm
  have hLess : pos' < cl.length := by
    by_contra hNot
    rw [drop_eq_nil_of_le (by omega)] at hDrop
    simp at hDrop
  rw [execClassLoop, hToken]
  dsimp only
  rw [hNext, if_neg (by omega), hByte]
  by_cases hClosing : d = closing
  · rw [if_pos hClosing, if_neg (fun h => h.2 hClosing)]
  · rw [if_neg hClosing, if_pos ⟨hNoNul, hClosing⟩]

/- The status after an item. -/
def itemStatus (status : Status) (item : ClassItem) (c : Byte) : Status :=
  if item.Has c then .found else status

/- The status after a list of items. -/
theorem itemStatus_cons (status : Status) (item : ClassItem)
    (items : List ClassItem) (c : Byte) :
    (if ∃ i ∈ items, i.Has c then Status.found
      else itemStatus status item c) =
      if ∃ i ∈ item :: items, i.Has c then Status.found
      else status := by
  unfold itemStatus
  by_cases hItem : item.Has c
  · simp [hItem]
  · simp [hItem]

theorem drop_next {b : Byte} {pos : Nat}
    (hDrop : cl.drop pos = b :: s) : cl.drop (pos + 1) = s := by
  rw [← drop_drop, hDrop]
  rfl

theorem ne_zero_of_drop {b : Byte} {pos : Nat} (hNoNul : 0 ∉ cl)
    (hDrop : cl.drop pos = b :: s) : b ≠ 0 := by
  rintro rfl
  refine hNoNul (mem_of_mem_drop (i := pos) ?_)
  rw [hDrop]
  exact mem_cons_self ..

/- A range. -/
theorem execClassToken_range {a e : Byte} (status : Status)
    (s : List Byte) (c : Byte) (hNoNul : a ≠ 0) (hOpen : e ≠ closing) :
    execClassToken status (a :: dash :: e :: s) c = (itemStatus status (.range a e) c, 3) := by
  unfold execClassToken itemStatus
  rw [byteAt_cons_zero, if_neg hNoNul, if_pos ⟨rfl, hOpen⟩]
  rfl

/- A character. -/
theorem execClassToken_char {a : Byte} (status : Status) (c : Byte) (hNoNul : a ≠ 0)
    (hSingle : ¬ (byteAt s 0 = dash ∧ byteAt s 1 ≠ closing)) :
    execClassToken status (a :: s) c = (itemStatus status (.char a) c, 1) := by
  unfold execClassToken itemStatus
  rw [byteAt_cons_zero, if_neg hNoNul,
    if_neg (show ¬ (byteAt (a :: s) 1 = dash ∧ byteAt (a :: s) 2 ≠ closing) from hSingle)]
  rfl

theorem closing_ne_dash : closing ≠ dash := by
  decide

/- The loop over the items of a class. -/
theorem execClassLoop_spec {c : Byte} {items : List ClassItem} {rest : List Byte} (hNoNul : 0 ∉ cl)
    (hItems : parseItems s = some (items, rest)) (fuel pos : Nat)
    (status : Status) (hDrop : cl.drop pos = s)
    (hFuel : s.length ≤ fuel) :
    ∃ pos', pos < pos' ∧
      execClassLoop cl c fuel pos status =
        some (if ∃ i ∈ items, i.Has c then .found else status, pos') ∧
      cl.drop pos' = closing :: rest := by
  fun_induction parseItems s generalizing items fuel pos status with
  | case1 => simp at hItems
  | case2 => simp at hItems
  | case3 a =>
    obtain ⟨rfl, rfl⟩ := Prod.mk.inj (some.inj hItems)
    obtain ⟨fuel, rfl⟩ := Nat.exists_eq_add_of_le' hFuel
    have hToken := execClassToken_char (s := [closing]) status c
      (ne_zero_of_drop hNoNul hDrop) (fun h => closing_ne_dash h.1)
    rw [← hDrop] at hToken
    refine ⟨pos + 1, by omega, ?_, drop_next hDrop⟩
    refine (execClassLoop_step hToken rfl (drop_next hDrop) (by decide)).trans ?_
    rw [if_pos rfl]
    simp [itemStatus]
  | case4 => simp at hItems
  | case5 => simp at hItems
  | case6 a b e hRange s' =>
    obtain ⟨rfl, rfl⟩ := Prod.mk.inj (some.inj hItems)
    obtain ⟨fuel, rfl⟩ := Nat.exists_eq_add_of_le' hFuel
    have hLast := drop_next (drop_next (drop_next hDrop))
    obtain rfl := hRange.1
    have hToken := execClassToken_range status (closing :: s') c
      (ne_zero_of_drop hNoNul hDrop) hRange.2
    rw [← hDrop] at hToken
    refine ⟨pos + 3, by omega, ?_, hLast⟩
    refine (execClassLoop_step hToken rfl hLast (by decide)).trans ?_
    rw [if_pos rfl]
    simp [itemStatus]
  | case7 a b e hRange d s' hOpen ih =>
    rw [map_eq_some_iff] at hItems
    rcases hItems with ⟨⟨items', rest'⟩, hItems, hEq⟩
    obtain ⟨rfl, rfl⟩ := Prod.mk.inj hEq
    obtain ⟨fuel, rfl⟩ := Nat.exists_eq_add_of_le' hFuel
    have hNext := drop_next (drop_next (drop_next hDrop))
    obtain rfl := hRange.1
    have hToken := execClassToken_range status (d :: s') c (ne_zero_of_drop hNoNul hDrop) hRange.2
    rw [← hDrop] at hToken
    rcases ih hItems (fuel + s'.length + 3) (pos + 3) (itemStatus status (.range a e) c) hNext
      (by simp; omega) with ⟨pos', hLess, hLoop, hRest⟩
    refine ⟨pos', by omega, ?_, hRest⟩
    refine (execClassLoop_step hToken rfl hNext (ne_zero_of_drop hNoNul hNext)).trans ?_
    rw [if_neg hOpen, ← itemStatus_cons]
    exact hLoop
  | case8 a e s' hSingle =>
    obtain ⟨rfl, rfl⟩ := Prod.mk.inj (some.inj hItems)
    obtain ⟨fuel, rfl⟩ := Nat.exists_eq_add_of_le' hFuel
    have hToken := execClassToken_char (s := closing :: e :: s')
      status c (ne_zero_of_drop hNoNul hDrop) hSingle
    rw [← hDrop] at hToken
    refine ⟨pos + 1, by omega, ?_, drop_next hDrop⟩
    refine (execClassLoop_step hToken rfl (drop_next hDrop) (by decide)).trans ?_
    rw [if_pos rfl]
    simp [itemStatus]
  | case9 a b e s' hSingle hOpen ih =>
    rw [map_eq_some_iff] at hItems
    rcases hItems with ⟨⟨items', rest'⟩, hItems, hEq⟩
    obtain ⟨rfl, rfl⟩ := Prod.mk.inj hEq
    obtain ⟨fuel, rfl⟩ := Nat.exists_eq_add_of_le' hFuel
    have hNext := drop_next hDrop
    have hToken := execClassToken_char (s := b :: e :: s')
      status c (ne_zero_of_drop hNoNul hDrop) hSingle
    rw [← hDrop] at hToken
    rcases ih hItems (fuel + s'.length + 2) (pos + 1)
      (itemStatus status (.char a) c) hNext (by simp) with ⟨pos', hLess, hLoop, hRest⟩
    refine ⟨pos', by omega, ?_, hRest⟩
    refine (execClassLoop_step hToken rfl hNext (ne_zero_of_drop hNoNul hNext)).trans ?_
    rw [if_neg hOpen, ← itemStatus_cons]
    exact hLoop

variable {p : List Byte}

/- A class that is complete. -/
theorem execClass_spec {rest : List Byte} {cl : CharClass} (hNoNul : 0 ∉ bracket :: p)
    (hClass : parseClass p = some (cl, rest)) :
    ∃ m, 0 < m ∧ (bracket :: p).drop m = rest ∧
      ∀ c, (cl.Has c → execClass (bracket :: p) c = .ok m) ∧
        (¬ cl.Has c → execClass (bracket :: p) c = .ok 0) := by
  have hLoop : ∀ (neg : Nat) items s,
      (bracket :: p).drop (1 + neg) = s →
      parseItems s = some (items, rest) →
      ∃ pos, (bracket :: p).drop pos = closing :: rest ∧ ∀ c, execClassLoop (bracket :: p) c
        (bracket :: p).length (1 + neg) .notFound =
          some (if ∃ i ∈ items, i.Has c then .found
            else .notFound, pos) := by
    intro neg items s hDrop hItems
    have hLen : s.length ≤ (bracket :: p).length := by
      rw [← hDrop, length_drop]
      omega
    have hSpec := fun c => execClassLoop_spec (c := c) hNoNul
      hItems (bracket :: p).length (1 + neg) .notFound hDrop hLen
    rcases hSpec 0 with ⟨pos, -, -, hRest⟩
    refine ⟨pos, hRest, fun c => ?_⟩
    rcases hSpec c with ⟨pos', -, hRun, hRest'⟩
    obtain rfl : pos' = pos := by
      have hOne := congrArg List.length hRest
      have hOther := congrArg List.length hRest'
      simp only [length_drop, length_cons] at hOne hOther
      omega
    exact hRun
  have hEnd : ∀ pos, (bracket :: p).drop pos = closing :: rest →
      byteAt (bracket :: p) pos ≠ 0 ∧ (bracket :: p).drop (pos + 1) = rest := by
    intro pos hRest
    have h := byteAt_drop (bracket :: p) pos 0
    rw [hRest, byteAt_cons_zero, Nat.add_zero] at h
    rw [← h]
    exact ⟨by decide, drop_next hRest⟩
  unfold parseClass at hClass
  cases p with
  | nil => simp at hClass
  | cons b s =>
    have hByte : byteAt ((bracket :: b :: s).drop 1) 0 = b := rfl
    have hNonzero : b ≠ 0 := by
      rintro rfl
      exact hNoNul (by simp)
    dsimp only at hClass
    split at hClass
    · rename_i hBang
      rw [map_eq_some_iff] at hClass
      rcases hClass with ⟨⟨items, rest'⟩, hItems, hEq⟩
      obtain ⟨rfl, rfl⟩ := Prod.mk.inj hEq
      rcases hLoop 1 items s rfl hItems with ⟨pos, hRest, hRun⟩
      rcases hEnd pos hRest with ⟨hPos, hDrop⟩
      refine ⟨pos + 1, by omega, hDrop, fun c => ?_⟩
      unfold execClass execClassComplement CharClass.Has
      rw [hByte, if_neg hNonzero, if_pos hBang]
      dsimp only
      rw [hRun]
      by_cases hHas : ∃ i ∈ items, i.Has c
      · simpa [hHas] using hPos
      · simpa [hHas] using hPos
    · rename_i hBang
      rw [map_eq_some_iff] at hClass
      rcases hClass with ⟨⟨items, rest'⟩, hItems, hEq⟩
      obtain ⟨rfl, rfl⟩ := Prod.mk.inj hEq
      rcases hLoop 0 items (b :: s) rfl hItems with ⟨pos, hRest, hRun⟩
      rcases hEnd pos hRest with ⟨hPos, hDrop⟩
      refine ⟨pos + 1, by omega, hDrop, fun c => ?_⟩
      unfold execClass execClassComplement CharClass.Has
      rw [hByte, if_neg hNonzero, if_neg hBang]
      dsimp only
      rw [hRun]
      by_cases hHas : ∃ i ∈ items, i.Has c
      · simpa [hHas] using hPos
      · simpa [hHas] using hPos

---
-- Tokens of Valid Patterns
---

/- No token goes on behind the NUL. -/
theorem execToken_le {tok : List Byte} {c : Byte} {m : Nat} (hNoNul : 0 ∉ tok) (hSome : tok ≠ [])
    (hToken : execToken tok c = .ok m) : m ≤ tok.length := by
  have hPos := length_pos_iff.mpr hSome
  unfold execToken at hToken
  split at hToken
  · split at hToken
    · rename_i hNext
      rw [byteAt_ne_zero_iff hNoNul] at hNext
      obtain rfl := TokenResult.ok.inj hToken
      split <;> omega
    · simp at hToken
  split at hToken
  · obtain rfl := TokenResult.ok.inj hToken
    omega
  split at hToken
  · unfold execClass at hToken
    split at hToken
    · simp at hToken
    split at hToken
    · simp at hToken
    split at hToken
    · simp at hToken
    · rename_i hEnd
      rw [not_or] at hEnd
      have hLess := (byteAt_ne_zero_iff hNoNul).mp hEnd.2
      split at hToken
      all_goals
        obtain rfl := TokenResult.ok.inj hToken
        split <;> omega
  · obtain rfl := TokenResult.ok.inj hToken
    split <;> omega

/-
  The first token of a valid pattern, unless it is a star: the
  characters that it matches, and what is behind it.
-/
theorem token_spec {a : Byte} (hValid : Valid (a :: p))
    (hNoNul : 0 ∉ a :: p) (hStar : a ≠ star) :
    ∃ m rest, ∃ Has : Byte → Prop, 0 < m ∧
      (a :: p).drop m = rest ∧ Valid rest ∧
      (∀ c, (Has c → execToken (a :: p) c = .ok m) ∧
        (¬ Has c → execToken (a :: p) c = .ok 0)) ∧
      ∀ s, Matches (a :: p) s ↔ ∃ c s', s = c :: s' ∧ Has c ∧ Matches rest s' := by
  cases hValid with
  | star _ => exact (hStar rfl).elim
  | question hRest =>
    refine ⟨1, p, fun _ => True, by omega, rfl, hRest, ?_, ?_⟩
    · intro c
      refine ⟨fun _ => rfl, fun h => (h trivial).elim⟩
    · intro s
      constructor
      · intro hMatch
        cases hMatch with
        | any c h => exact ⟨c, _, rfl, trivial, h⟩
        | char _ hPlain _ => exact (hPlain.2.1 rfl).elim
      · rintro ⟨c, s', rfl, -, h⟩
        exact .any c h
  | escape b hRest =>
    rename_i p
    have hNonzero : b ≠ 0 := by
      rintro rfl
      exact hNoNul (by simp)
    refine ⟨2, p, fun c => c = b, by omega, rfl, hRest, ?_, ?_⟩
    · intro c
      have hByte : byteAt (backslash :: b :: p) 1 = b := rfl
      unfold execToken
      rw [byteAt_cons_zero, if_pos rfl, hByte, if_pos hNonzero]
      constructor
      · rintro rfl
        rw [if_pos rfl]
      · intro hOther
        rw [if_neg (Ne.symm hOther)]
    · intro s
      constructor
      · intro hMatch
        cases hMatch with
        | escape _ h => exact ⟨b, _, rfl, rfl, h⟩
        | char _ hPlain _ => exact (hPlain.2.2.2 rfl).elim
      · rintro ⟨c, s', rfl, rfl, h⟩
        exact .escape _ h
  | cls hClass hRest =>
    rename_i rest cl
    rcases execClass_spec hNoNul hClass with ⟨m, hPos, hDrop, hRun⟩
    refine ⟨m, rest, cl.Has, hPos, hDrop, hRest, ?_, ?_⟩
    · intro c
      exact hRun c
    · intro s
      constructor
      · intro hMatch
        cases hMatch with
        | cls c hClass' hHas h =>
          rw [hClass] at hClass'
          obtain ⟨rfl, rfl⟩ := Prod.mk.inj (some.inj hClass')
          exact ⟨c, _, rfl, hHas, h⟩
        | char _ hPlain _ => exact (hPlain.2.2.1 rfl).elim
      · rintro ⟨c, s', rfl, hHas, h⟩
        exact .cls c hClass hHas h
  | char _ hPlain hRest =>
    refine ⟨1, p, fun c => c = a, by omega, rfl, hRest, ?_, ?_⟩
    · intro c
      unfold execToken
      rw [byteAt_cons_zero, if_neg hPlain.2.2.2, if_neg hPlain.2.1, if_neg hPlain.2.2.1]
      constructor
      · rintro rfl
        rw [if_pos rfl]
      · intro hOther
        rw [if_neg (Ne.symm hOther)]
    · intro s
      constructor
      · intro hMatch
        cases hMatch with
        | skip _ => exact (hStar rfl).elim
        | take _ _ => exact (hStar rfl).elim
        | any _ _ => exact (hPlain.2.1 rfl).elim
        | escape _ _ => exact (hPlain.2.2.2 rfl).elim
        | cls _ _ _ _ => exact (hPlain.2.2.1 rfl).elim
        | char _ _ h => exact ⟨a, _, rfl, rfl, h⟩
      · rintro ⟨c, s', rfl, rfl, h⟩
        exact .char _ hPlain h

/- What a star matches. -/
theorem matches_star_iff :
    Matches (star :: p) s ↔ Matches p s ∨ ∃ c s', s = c :: s' ∧ Matches (star :: p) s' := by
  constructor
  · intro hMatch
    cases hMatch with
    | skip h => exact Or.inl h
    | take c h => exact Or.inr ⟨c, _, rfl, h⟩
    | char _ hPlain _ => exact (hPlain.1 rfl).elim
  · rintro (h | ⟨c, s', rfl, h⟩)
    · exact .skip h
    · exact .take c h

theorem valid_of_star (hValid : Valid (star :: p)) : Valid p := by
  cases hValid with
  | star h => exact h
  | char _ hPlain _ => exact (hPlain.1 rfl).elim

/- Stars, and nothing else, match the empty string. -/
theorem matches_nil_iff : Matches p [] ↔ ∀ b ∈ p, b = star := by
  constructor
  · intro hMatch
    generalize hEmpty : ([] : List Byte) = s at hMatch
    induction hMatch with
    | nil => simp
    | skip _ ih => simpa using ih hEmpty
    | take | any | escape | cls | char => simp at hEmpty
  · intro hStars
    induction p with
    | nil => exact .nil
    | cons b p ih =>
      obtain rfl := hStars b (by simp)
      exact .skip (ih fun a ha => hStars a (by simp [ha]))

/- Where the last byte that is no star ends. -/
theorem scanPattern_le_iff {bs : List Byte} {j final special q : Nat}
    (hFinal : final ≤ j) :
    (scanPattern j final special bs).1 ≤ q ↔
      final ≤ q ∧ ∀ (i : Nat) b, bs[i]? = some b → b ≠ star → j + i + 1 ≤ q := by
  induction bs generalizing j final special with
  | nil => simp [scanPattern]
  | cons b bs ih =>
    have hIndex : (∀ (i : Nat) a, (b :: bs)[i]? = some a →
        a ≠ star → j + i + 1 ≤ q) ↔
        (b ≠ star → j + 1 ≤ q) ∧ ∀ (i : Nat) a, bs[i]? = some a → a ≠ star → j + 1 + i + 1 ≤ q := by
      constructor
      · intro h
        refine ⟨fun hb => h 0 b rfl hb, ?_⟩
        intro i a ha hOther
        have hNext := h (i + 1) a ha hOther
        omega
      · rintro ⟨hFirst, hRest⟩ i a ha hOther
        cases i with
        | zero =>
          obtain rfl := some.inj ha
          exact hFirst hOther
        | succ i =>
          have hNext := hRest i a ha hOther
          omega
    unfold scanPattern
    rw [hIndex]
    by_cases hStar : b = star
    · rw [if_neg (not_not.mpr hStar), ih (by omega)]
      simp [hStar]
    · rw [if_pos hStar, ih (le_refl _)]
      constructor
      · rintro ⟨hHere, hRest⟩
        exact ⟨by omega, fun _ => hHere, hRest⟩
      · rintro ⟨-, hHere, hRest⟩
        exact ⟨hHere hStar, hRest⟩

/- Behind the final position there are only stars. -/
theorem finalOf_le_iff (p : CString) (pos : Nat) :
    finalOf p ≤ pos ↔ Matches (p.chars.drop pos) [] := by
  unfold finalOf
  rw [scanPattern_le_iff (le_refl 0), matches_nil_iff]
  constructor
  · rintro ⟨-, hAll⟩ b hMem
    rcases mem_iff_getElem?.mp hMem with ⟨i, hAt⟩
    rw [getElem?_drop] at hAt
    by_contra hOther
    have hNext := hAll (pos + i) b hAt hOther
    omega
  · intro hAll
    refine ⟨by omega, ?_⟩
    intro i b hAt hOther
    by_contra hNot
    refine hOther (hAll b (mem_iff_getElem?.mpr ⟨i - pos, ?_⟩))
    rw [getElem?_drop, Nat.add_sub_cancel' (by omega)]
    exact hAt

theorem scanPattern_length (bs : List Byte) (j final special : Nat) :
    (scanPattern j final special bs).2.2 = j + bs.length := by
  induction bs generalizing j final special with
  | nil => rfl
  | cons b bs ih =>
    unfold scanPattern
    split
    · rw [ih, length_cons]
      omega
    · rw [ih, length_cons]
      omega

/- A pattern is not longer than its length with duplicates. -/
theorem le_lengthOf (p : CString) : p.chars.length ≤ lengthOf p := by
  unfold lengthOf
  dsimp only
  rw [scanPattern_length]
  omega

end Efl.Edje
