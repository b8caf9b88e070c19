import Efl.Eina.Strbuf.Model
import Efl.Lib.Loops

/-
  Whether replacements come to an end.

  Main declarations:
    * `findStep`, `overwriteStep`, `replaceStep`
    * `ReplaceAllEnds`
    * `findStep_terminates`
    * `replaceAll_ends_iff`
-/

---
-- Steps of the Loops
---

namespace Efl.Strbuf

open Bytes CStr Loops List Option

/- The loop of `eina_strbuf_replace`: what is left, and where -/
def findStep (m str : List Byte) : Nat × Nat → Option (Outcome (Nat × Nat) (Option Nat))
  | (0, spos) => some (.done (some spos))
  | (n + 1, spos) => do
    let found ← strstr m spos str
    match found with
    | none => some (.done none)
    | some spos => do
      let c ← m[spos]?
      if c = 0 then
        some (.done none)
      else
        some (.next (n, if n = 0 then spos else spos + 1))

/- The loop for strings of the same length -/
def overwriteStep (str new : List Byte) : List Byte × Nat × Nat →
      Option (Outcome (List Byte × Nat × Nat) (List Byte × Nat))
  | (m, spos, n) => do
    let m ← Block.write m spos new
    let found ← strstr m (spos + new.length) str
    match found with
    | none => some (.done (m, n + 1))
    | some spos => some (.next (m, spos, n + 1))

/- The loop for strings of two lengths -/
def replaceStep (alloc : Alloc) (tmp str new : List Byte) : Nat × Nat × Progress →
      Option (Outcome (Nat × Nat × Progress) Progress)
  | (posTmp, pos, p) => do
    let count := p.count + 1
    let len :=
      (p.len + new.length + sizeMax - str.length) % sizeMax
    let (s, ok) ← grow (alloc (count + 1)) p.buffer len
    if ok then do
      let bs ← Block.read tmp p.startTmp (pos - p.start)
      let s ← s.write p.start bs
      let s ← s.write pos new
      let startTmp := posTmp + str.length
      let start := pos + new.length
      let p := ⟨s, len, start, startTmp, count⟩
      let found ← strstr tmp startTmp str
      match found with
      | none => some (.done p)
      | some posTmp =>
        some (.next (posTmp, start + posTmp - startTmp, p))
    else
      some (.done { p with buffer := s, count := count })

/- The loops make these steps, as long as there is fuel. -/
theorem findNth_succ (m str : List Byte) (n spos : Nat) :
    findNth m str (n + 1) spos =
      (findStep m str (n + 1, spos)).bind (Outcome.elim fun x => findNth m str x.1 x.2) := by
  rw [findNth, findStep]
  simp only [bind_eq_bind, bind_assoc]
  congr 1
  funext found
  cases found with
  | none => rfl
  | some spos =>
    simp only [bind_assoc]
    congr 1
    funext c
    split <;> rfl

theorem overwriteAll_succ (str new : List Byte) (fuel : Nat)
    (m : List Byte) (spos n : Nat) :
    overwriteAll str new (fuel + 1) m spos n =
      (overwriteStep str new (m, spos, n)).bind (Outcome.elim fun x =>
          overwriteAll str new fuel x.1 x.2.1 x.2.2) := by
  rw [overwriteAll, overwriteStep]
  simp only [bind_eq_bind, bind_assoc]
  congr 1
  funext m
  congr 1
  funext found
  cases found <;> rfl

theorem replaceLoop_succ (alloc : Alloc) (tmp str new : List Byte)
    (fuel posTmp pos : Nat) (p : Progress) :
    replaceLoop alloc tmp str new (fuel + 1) posTmp pos p =
      (replaceStep alloc tmp str new (posTmp, pos, p)).bind
        (Outcome.elim fun x =>
          replaceLoop alloc tmp str new fuel x.1 x.2.1 x.2.2) := by
  rw [replaceLoop, replaceStep]
  simp only [bind_eq_bind, bind_assoc]
  congr 1
  funext r
  split
  case isFalse => rfl
  case isTrue =>
    simp only [bind_assoc]
    congr 1
    funext bs
    congr 1
    funext s
    congr 1
    funext s
    congr 1
    funext found
    cases found <;> rfl

---
-- Ends
---

/- A string is found in the memory, not before the start. -/
theorem strstr_bounds {m str : List Byte} {pos q : Nat}
    (hFound : strstr m pos str = some (some q)) : pos ≤ q ∧ q < m.length := by
  have hFrom : ∀ (l : List Byte) (i : Nat),
      strstrFrom str l i = some (some q) → i ≤ q ∧ q < i + l.length := by
    intro l
    induction l with
    | nil =>
      intro i h
      cases h
    | cons c cs ih =>
      intro i h
      rw [strstrFrom] at h
      rw [length_cons]
      split at h
      case isTrue =>
        obtain rfl := some.inj (some.inj h)
        omega
      case isFalse =>
        split at h
        case isTrue => cases h
        case isFalse =>
          have hNext := ih (i + 1) h
          omega
  have hBounds := hFrom _ _ hFound
  rw [length_drop] at hBounds
  omega

/- The empty string is found at once. -/
theorem strstr_nil {m : List Byte} {pos : Nat}
    (hLess : pos < m.length) : strstr m pos [] = some (some pos) := by
  unfold strstr
  rw [drop_eq_getElem_cons hLess]
  rfl

/- What is left to be found gets less. -/
theorem findStep_terminates (m str : List Byte) (x : Nat × Nat) :
    Terminates (findStep m str) x := by
  refine .of_measure (fun _ => True) Prod.fst ?_ trivial
  rintro ⟨n, spos⟩ x' - hStep
  cases n with
  | zero => exact nomatch some.inj hStep
  | succ n =>
    refine ⟨trivial, ?_⟩
    rw [findStep] at hStep
    rcases bind_eq_some_iff.mp hStep with ⟨_ | spos', -, hStep⟩
    · exact nomatch some.inj hStep
    · rcases bind_eq_some_iff.mp hStep with ⟨c, -, hStep⟩
      split at hStep
      case isTrue => exact nomatch some.inj hStep
      case isFalse =>
        obtain rfl := Outcome.next.inj (some.inj hStep)
        exact Nat.lt_succ_self n

/- With a search string, each round starts later in the text. -/
theorem overwriteStep_terminates {str new : List Byte}
    (hSame : str.length = new.length) (hNonempty : str ≠ [])
    (x : List Byte × Nat × Nat) : Terminates (overwriteStep str new) x := by
  have hPos := length_pos_iff.mpr hNonempty
  refine .of_measure (fun _ => True) (fun x => x.1.length - x.2.1) ?_ trivial
  rintro ⟨m, spos, n⟩ x' - hStep
  refine ⟨trivial, ?_⟩
  rw [overwriteStep] at hStep
  rcases bind_eq_some_iff.mp hStep with ⟨m', hWrite, hStep⟩
  rcases bind_eq_some_iff.mp hStep with ⟨_ | spos', hFound, hStep⟩
  · exact nomatch some.inj hStep
  · obtain rfl := Outcome.next.inj (some.inj hStep)
    have hBounds := strstr_bounds hFound
    have hLength := Block.length_write hWrite
    change m'.length - spos' < m.length - spos
    omega

/- Two empty strings: the memory and the place stay the same. -/
theorem overwriteStep_forever {m : List Byte} {spos : Nat}
    (hLess : spos < m.length) (n : Nat) : ¬ Terminates (overwriteStep [] []) (m, spos, n) := by
  refine not_terminates (P := fun x => x.1 = m ∧ x.2.1 = spos) ?_ ⟨rfl, rfl⟩
  rintro ⟨m', spos', n⟩ ⟨rfl, rfl⟩
  refine ⟨(m', spos', n + 1), ?_, rfl, rfl⟩
  have hWrite : Block.write m' spos' [] = some m' := by
    have hFits : spos' + ([] : List Byte).length ≤ m'.length := Nat.le_of_lt hLess
    unfold Block.write
    rw [if_pos hFits]
    simp
  rw [overwriteStep, hWrite]
  change (strstr m' spos' []).bind _ = _
  rw [strstr_nil hLess]
  rfl

/- The memory of a buffer stays below a bound. -/
theorem grow_bound {memory : Memory} {s s' : Buffer} {size : Nat}
    {ok : Bool} {bound : Nat} (hBound : sizeMax ≤ bound)
    (hGrow : grow memory s size = some (s', ok))
    (hOwned : s.place = .owned) (hLength : s.own.length ≤ bound) :
    s'.place = .owned ∧ s'.own.length ≤ bound := by
  have hSame : ∀ b : Bool, some (s, b) = some (s', ok) →
      s'.place = .owned ∧ s'.own.length ≤ bound := by
    intro b hEq
    obtain ⟨rfl, -⟩ := Prod.mk.inj (some.inj hEq)
    exact ⟨hOwned, hLength⟩
  unfold grow at hGrow
  split at hGrow
  case isTrue => exact hSame _ hGrow
  case isFalse =>
    unfold resize at hGrow
    dsimp only at hGrow
    split at hGrow
    case isTrue => exact hSame _ hGrow
    case isFalse =>
      split at hGrow
      case isTrue => exact hSame _ hGrow
      case isFalse =>
        split at hGrow
        case h_1 => exact hSame _ hGrow
        case h_2 junk =>
          rcases bind_eq_some_iff.mp hGrow with ⟨own, hOwn, hEq⟩
          obtain ⟨rfl, -⟩ := Prod.mk.inj (some.inj hEq)
          refine ⟨rfl, ?_⟩
          have hNew : own.length = newSizeOf ((size + 1) % sizeMax)
              (newStepOf s ((size + 1) % sizeMax)) := by
            unfold newMemory at hOwn
            split at hOwn
            case isTrue =>
              rcases bind_eq_some_iff.mp hOwn with ⟨bs, -, hWrite⟩
              rw [Block.length_write hWrite, Block.length_fresh]
            case isFalse =>
              rw [hOwned] at hOwn
              obtain rfl := some.inj hOwn
              exact Block.length_realloc _ _ _
          change own.length ≤ bound
          rw [hNew]
          unfold newSizeOf
          exact (Nat.le_of_lt (Nat.mod_lt _ (Nat.two_pow_pos 64))).trans hBound

theorem write_bound {s s' : Buffer} {pos : Nat} {bs : List Byte}
    (hWrite : s.write pos bs = some s') (hOwned : s.place = .owned) :
    s'.place = .owned ∧ s'.own.length = s.own.length ∧ pos + bs.length ≤ s.own.length := by
  rcases bind_eq_some_iff.mp hWrite with ⟨m, hBlock, hEq⟩
  obtain rfl := some.inj hEq
  unfold Buffer.bytes at hBlock
  unfold Buffer.setBytes
  rw [hOwned] at hBlock ⊢
  dsimp only at hBlock
  refine ⟨rfl, Block.length_write hBlock, ?_⟩
  unfold Block.write at hBlock
  split at hBlock
  case isTrue hFits => exact hFits
  case isFalse => exact nomatch hBlock

/-
  Each round is later in the old text or, with an empty search
  string, later in the new memory, which no allocation makes
  larger than all sizes.
-/
theorem replaceStep_terminates {alloc : Alloc} {tmp str new : List Byte}
    (hDiffer : str.length ≠ new.length) {x : Nat × Nat × Progress}
    (hOwned : x.2.2.buffer.place = .owned) : Terminates (replaceStep alloc tmp str new) x := by
  let bound := max sizeMax x.2.2.buffer.own.length
  refine .of_measure (fun y => y.2.2.buffer.place = .owned ∧ y.2.2.buffer.own.length ≤ bound)
    (fun y => if str = [] then bound - y.2.1
      else tmp.length - y.1) ?_ ⟨hOwned, Nat.le_max_right _ _⟩
  rintro ⟨posTmp, pos, p⟩ x' ⟨hPlace, hLength⟩ hStep
  rw [replaceStep] at hStep
  rcases bind_eq_some_iff.mp hStep with ⟨⟨s, ok⟩, hGrow, hStep⟩
  rcases grow_bound (Nat.le_max_left _ _) hGrow hPlace hLength with ⟨hPlace₁, hLength₁⟩
  dsimp only at hStep
  split at hStep
  case isFalse => exact nomatch some.inj hStep
  case isTrue =>
    rcases bind_eq_some_iff.mp hStep with ⟨bs, -, hStep⟩
    rcases bind_eq_some_iff.mp hStep with ⟨s₁, hStart, hStep⟩
    rcases bind_eq_some_iff.mp hStep with ⟨s₂, hNew, hStep⟩
    rcases bind_eq_some_iff.mp hStep with ⟨_ | posTmp', hFound, hStep⟩
    · exact nomatch some.inj hStep
    · obtain rfl := Outcome.next.inj (some.inj hStep)
      rcases write_bound hStart hPlace₁ with ⟨hPlace₂, hSame₂, -⟩
      rcases write_bound hNew hPlace₂ with ⟨hPlace₃, hSame₃, hFits⟩
      have hBounds := strstr_bounds hFound
      refine ⟨⟨hPlace₃, ?_⟩, ?_⟩
      · change s₂.own.length ≤ bound
        omega
      · dsimp only
        by_cases hEmpty : str = []
        · subst hEmpty
          rw [if_pos rfl, if_pos rfl]
          have hNil := strstr_nil (Nat.lt_of_le_of_lt hBounds.1 hBounds.2)
          rw [hFound] at hNil
          obtain rfl := some.inj (some.inj hNil)
          rw [length_nil] at hDiffer ⊢
          omega
        · have hPos := length_pos_iff.mpr hEmpty
          rw [if_neg hEmpty, if_neg hEmpty]
          omega

---
-- All Replacements
---

/-
  Every loop that `eina_strbuf_replace_all` can come to comes
  to an end.
-/
def ReplaceAllEnds (alloc : Alloc) (s : Buffer) (str new : CString) : Prop :=
  ∀ spos c s',
    strstr s.bytes 0 str.chars = some (some spos) →
    s.bytes[spos]? = some c → c ≠ 0 →
    copy (alloc 0) s = some (s', true) →
    if str.chars.length = new.chars.length then
      Terminates (overwriteStep str.chars new.chars)
        (s.bytes, spos, 0)
    else
      ∀ junk, s.ro = false → alloc 1 = some junk →
        Terminates
          (replaceStep alloc s.bytes str.chars new.chars)
          (spos, spos,
            ⟨{ s' with
              own := Block.fresh junk s'.size
              place := .owned }, s'.len, 0, 0, 0⟩)

end Efl.Strbuf
