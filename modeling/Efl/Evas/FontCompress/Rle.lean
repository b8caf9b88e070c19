import Efl.Evas.FontCompress.Model
import Mathlib.Data.List.Induction

/-
  Runs of levels: the spans of a row are its levels, up to
  those at its end that are 0.

  Main declarations:
    * `levels`
    * `Spanned`
    * `spanRow_spec`
    * `fullRow_spec`
-/

---
-- Levels
---

namespace Efl.Evas.FontCompress

open Bytes List

theorem alpha8to4_lt (a8 : Byte) : alpha8to4 a8 < 16 := by
  revert a8
  set_option maxRecDepth 8000 in decide

/- A level as 8 bits is the level times 17. -/
theorem expand_eq {level : Nat} (hLevel : level < 16) :
    expand level = BitVec.ofNat 8 (level * 17) := by
  interval_cases level <;> decide

/- A span of `len + 1` pixels -/
def span (len val : Nat) : Byte :=
  BitVec.ofNat 8 (len <<< 4 ||| val)

theorem toNat_span {len val : Nat} (hLen : len < 16) (hVal : val < 16) :
    (span len val).toNat >>> 4 = len ∧ (span len val).toNat &&& 0x0f = val := by
  have hAll : ∀ len < 16, ∀ val < 16,
      (span len val).toNat >>> 4 = len ∧ (span len val).toNat &&& 0x0f = val := by
    set_option maxRecDepth 8000 in decide
  exact hAll len hLen val hVal

/- The levels that spans stand for -/
def levels (spans : List Byte) : List Nat :=
  spans.flatMap fun b =>
    List.replicate ((b.toNat >>> 4) + 1) (b.toNat &&& 0x0f)

theorem levels_append (q q' : List Byte) :
    levels (q ++ q') = levels q ++ levels q' := flatMap_append

theorem levels_span {len val : Nat} (hLen : len < 16)
    (hVal : val < 16) : levels [span len val] = List.replicate (len + 1) val := by
  rcases toNat_span hLen hVal with ⟨hHigh, hLow⟩
  simp only [levels, flatMap_cons, flatMap_nil, append_nil, hHigh, hLow]

---
-- Making Spans
---

/-
  The spans in the buffer behind `p`, and the one that is
  being made, are the levels `l`.
-/
structure Spanned (p : List Byte) (l : List Nat) (r : Spans) : Prop where
  made : ∃ q, r.p = p ++ q ∧ r.spannum = q.length ∧
    levels q ++ List.replicate r.spanlen r.spanval = l ∧
    q.length + min r.spanlen 1 ≤ l.length
  pos : r.pos = r.p.length
  len : r.spanlen ≤ 16
  val : r.spanval < 16

variable {p : List Byte} {l : List Nat} {r : Spans} {room : Nat}

theorem Spanned.new (p : List Byte) : Spanned p [] (.new p) where
  made := ⟨[], (append_nil p).symm, rfl, rfl, Nat.le_refl _⟩
  pos := rfl
  len := Nat.zero_le _
  val := Nat.zero_lt_succ _

/- The span that was made is added. -/
theorem Spanned.add (hSpanned : Spanned p l r) (hSome : 0 < r.spanlen)
    (hRoom : p.length + l.length ≤ room) :
    ∃ r', spanAdd room r = some r' ∧
      r'.spanlen = r.spanlen ∧
      ∃ q, r'.p = p ++ q ∧ r'.spannum = q.length ∧
        r'.pos = r'.p.length ∧ levels q = l ∧ q.length ≤ l.length := by
  rcases hSpanned with ⟨⟨q, hP, hNum, hLevels, hCount⟩, hPos, hLen, hVal⟩
  have hFits : r.p.length < room := by
    rw [hP, length_append]
    omega
  have hLast : levels [span (r.spanlen - 1) r.spanval] = List.replicate r.spanlen r.spanval := by
    rw [levels_span (by omega) hVal]
    congr 1
    omega
  refine ⟨_, if_pos hFits, rfl, q ++ [span (r.spanlen - 1) r.spanval], ?_, ?_, ?_, ?_, ?_⟩
  · show r.p ++ _ = _
    rw [hP, append_assoc]
    rfl
  · show r.spannum + 1 = _
    rw [hNum, length_append]
    rfl
  · show r.pos + 1 = (r.p ++ _).length
    rw [hPos, length_append]
    rfl
  · rw [levels_append, hLast, hLevels]
  · rw [length_append, length_singleton]
    omega

theorem Spanned.pixel (hSpanned : Spanned p l r) (pix : Byte)
    (hRoom : p.length + l.length ≤ room) :
    ∃ r', spanPixel room r pix = some r' ∧ Spanned p (l ++ [alpha8to4 pix]) r' := by
  have hLevel := alpha8to4_lt pix
  unfold spanPixel
  by_cases hNew : alpha8to4 pix ≠ r.spanval ∨ 16 ≤ r.spanlen
  · simp only [if_pos hNew]
    by_cases hSome : 0 < r.spanlen
    · rcases hSpanned.add hSome hRoom with ⟨r', hAdd, -, q, hP, hNum, hPos, hLevels, hCount⟩
      rw [if_pos hSome, hAdd]
      refine ⟨_, rfl, ⟨q, hP, hNum, ?_, ?_⟩, hPos, ?_, hLevel⟩
      · rw [hLevels]
        rfl
      · rw [length_append]
        exact Nat.add_le_add_right hCount 1
      · exact (show 1 ≤ 16 by decide)
    · rcases hSpanned with ⟨⟨q, hP, hNum, hLevels, hCount⟩, hPos, -, -⟩
      have hZero : r.spanlen = 0 := by omega
      rw [if_neg hSome]
      rw [hZero, replicate_zero, append_nil] at hLevels
      refine ⟨_, rfl, ⟨q, hP, hNum, ?_, ?_⟩, hPos, ?_, hLevel⟩
      · rw [hLevels]
        rfl
      · rw [length_append]
        show q.length + 1 ≤ l.length + 1
        omega
      · exact (show 1 ≤ 16 by decide)
  · simp only [if_neg hNew]
    rw [not_or, not_not] at hNew
    rcases hSpanned with ⟨⟨q, hP, hNum, hLevels, hCount⟩, hPos, -, hVal⟩
    refine ⟨_, rfl, ⟨q, hP, hNum, ?_, ?_⟩, hPos, ?_, hVal⟩
    · show levels q ++ List.replicate (r.spanlen + 1) r.spanval = _
      rw [replicate_succ', ← append_assoc, hLevels, hNew.1]
    · rw [length_append]
      show q.length + min (r.spanlen + 1) 1 ≤ l.length + 1
      omega
    · show r.spanlen + 1 ≤ 16
      omega

theorem Spanned.pixels (hSpanned : Spanned p l r) (pix : List Byte)
    (hRoom : p.length + (l.length + pix.length) ≤ room) :
    ∃ r', pix.foldlM (spanPixel room) r = some r' ∧ Spanned p (l ++ pix.map alpha8to4) r' := by
  induction pix generalizing l r with
  | nil => exact ⟨r, rfl, by rwa [map_nil, append_nil]⟩
  | cons a pix ih =>
    rw [length_cons] at hRoom
    rcases hSpanned.pixel a (show p.length + l.length ≤ room by omega) with ⟨r₁, hFirst, hSpanned₁⟩
    rcases ih hSpanned₁ (by
      rw [length_append, length_singleton]
      omega) with ⟨r', hRest, hSpanned'⟩
    refine ⟨r', ?_, ?_⟩
    · rw [foldlM_cons, hFirst]
      exact hRest
    · rw [append_assoc] at hSpanned'
      exact hSpanned'

/- Only levels of 0 are taken away. -/
theorem spanTrim_spec (p q : List Byte) :
    ∃ q' z, spanTrim q.length (p ++ q).length (p ++ q) =
        some ((p ++ q').length, p ++ q') ∧
      levels q = levels q' ++ List.replicate z 0 ∧ q'.length ≤ q.length := by
  induction q using List.reverseRecOn with
  | nil => exact ⟨[], 0, rfl, rfl, Nat.le_refl _⟩
  | append_singleton q b ih =>
    have hLast : (p ++ (q ++ [b])).getLast? = some b := by
      rw [← append_assoc, getLast?_concat]
    rw [show (q ++ [b]).length = q.length + 1 from length_append]
    rw [spanTrim, hLast]
    by_cases hZero : b.toNat &&& 0x0f = 0
    · rcases ih with ⟨q', z, hTrim, hLevels, hCount⟩
      refine ⟨q', z + ((b.toNat >>> 4) + 1), ?_, ?_, by omega⟩
      · show (if b.toNat &&& 0x0f = 0 then _ else _) = _
        rw [if_pos hZero, ← append_assoc, dropLast_concat, ← hTrim]
        rw [show (p ++ q ++ [b]).length = (p ++ q).length + 1 from
          length_append]
        rfl
      · have hHere : levels [b] = List.replicate ((b.toNat >>> 4) + 1) 0 := by
          simp [levels, hZero]
        rw [levels_append, hLevels, hHere, append_assoc, replicate_append_replicate]
    · refine ⟨q ++ [b], 0, ?_, ?_, ?_⟩
      · show (if b.toNat &&& 0x0f = 0 then _ else _) = _
        rw [if_neg hZero]
      · rw [replicate_zero, append_nil]
      · rw [length_append]
        rfl

/- A row of spans -/
theorem spanRow_spec (pix p : List Byte)
    (hRoom : p.length + pix.length ≤ room) :
    ∃ q z, spanRow room pix p = some ((p ++ q).length, p ++ q) ∧
      pix.map alpha8to4 = levels q ++ List.replicate z 0 ∧ q.length ≤ pix.length := by
  have hFits : p.length + (pix.map alpha8to4).length ≤ room := by
    rwa [length_map]
  rcases (Spanned.new p).pixels pix
    (show p.length + (0 + pix.length) ≤ room by omega) with ⟨r, hPixels, hSpanned⟩
  rw [nil_append] at hSpanned
  unfold spanRow
  rw [hPixels, Option.bind_eq_bind, Option.bind_some]
  by_cases hMore : 0 < r.spanlen ∧ 0 < r.spanval
  · rcases hSpanned.add hMore.1 hFits with ⟨r', hAdd, -, q, hP, hNum, hPos, hLevels, hCount⟩
    rcases spanTrim_spec p q with ⟨q', z, hTrim, hSame, hFewer⟩
    refine ⟨q', z, ?_, hLevels ▸ hSame, ?_⟩
    · rw [if_pos hMore, hAdd]
      show spanTrim r'.spannum r'.pos r'.p = _
      rw [hNum, hPos, hP]
      exact hTrim
    · rw [length_map] at hCount
      omega
  · rcases hSpanned with ⟨⟨q, hP, hNum, hLevels, hCount⟩, hPos, -, -⟩
    rcases spanTrim_spec p q with ⟨q', z, hTrim, hSame, hFewer⟩
    refine ⟨q', z + r.spanlen, ?_, ?_, ?_⟩
    · rw [if_neg hMore]
      show spanTrim r.spannum r.pos r.p = _
      rw [hNum, hPos, hP]
      exact hTrim
    · have hZeros : List.replicate r.spanlen r.spanval = List.replicate r.spanlen 0 := by
        by_cases hNone : r.spanlen = 0
        · rw [hNone, replicate_zero, replicate_zero]
        · rw [show r.spanval = 0 by omega]
      rw [← hLevels, hSame, hZeros, append_assoc, replicate_append_replicate]
    · rw [length_map] at hCount
      omega

---
-- Drawing Spans
---

open Option

theorem readAt_mid (a b : List Byte) (s : Byte) :
    readAt (a ++ s :: b) (a.length : Int) = some s := by
  rw [readAt_natCast, getElem?_append_right (Nat.le_refl _), Nat.sub_self]
  rfl

/- A run is written, or it is there as the row was empty. -/
theorem drawRun_spec (out : List Byte) (val : Byte) {len m : Nat}
    (hFits : len ≤ m) :
    drawRun out.length len val (out ++ List.replicate m 0) =
      some (out ++ List.replicate len val ++ List.replicate (m - len) 0) := by
  have hSplit : List.replicate m (0 : Byte) =
      List.replicate len 0 ++ List.replicate (m - len) 0 := by
    rw [replicate_append_replicate]
    congr 1
    omega
  unfold drawRun
  by_cases hZero : val = 0
  · rw [if_pos hZero, hZero, hSplit, append_assoc]
  · rw [if_neg hZero, Block.write_end _ (by simpa using hFits),
      length_replicate, drop_replicate, append_assoc]

/- The spans of a row, on an empty row -/
theorem fullRow_spec (q a b out : List Byte) {m : Nat}
    (hFits : (levels q).length ≤ m) :
    fullRow (a ++ (q ++ b)) q.length a.length out.length
        (out ++ List.replicate m 0) =
      some (out ++ (levels q).map expand ++ List.replicate (m - (levels q).length) 0) := by
  induction q generalizing a out m with
  | nil => simp [fullRow, levels]
  | cons s q ih =>
    let len := (s.toNat >>> 4) + 1
    let level := s.toNat &&& 0x0f
    have hLevels : levels (s :: q) = List.replicate len level ++ levels q := flatMap_cons
    rw [hLevels, length_append, length_replicate] at hFits
    have hRun := drawRun_spec out (expand level) (show len ≤ m by omega)
    have hOut : (out ++ List.replicate len (expand level)).length = out.length + len := by
      rw [length_append, length_replicate]
    have hNext := ih (a ++ [s]) (out ++ List.replicate len (expand level))
      (show (levels q).length ≤ m - len by omega)
    rw [hOut, length_append, append_assoc] at hNext
    rw [length_cons, fullRow, cons_append, readAt_mid, bind_eq_bind, bind_some]
    show (drawRun out.length len (expand level) _).bind _ = _
    rw [hRun, bind_some]
    refine hNext.trans ?_
    rw [hLevels, map_append, map_replicate, length_append, length_replicate]
    simp only [append_assoc, Nat.sub_sub]

end Efl.Evas.FontCompress
