import Efl.Ecore.CommandLine
import Efl.Lib.Block
import Efl.Lib.CStr

/-
  `_unescape` with every access to memory checked.

  The memory of the string ends behind its NUL.  An access
  behind it, or behind the copy for an argument, is `none`.

  Main declarations:
    * `Scan`, `scanStep`, `scan`
    * `dangling`
    * `scanStep_spec`
    * `scan_iff`
-/

---
-- The Scan
---

namespace Efl.Ecore.CommandLine

open Bytes List

/- `p`, the quotes, `tmp` with the place of `d`, and `args` -/
structure Scan where
  p : Nat
  quote : Quote
  tmp : Option (List Byte × Nat)
  args : List (List Byte)

/- `*d = 0`; what is in `tmp` is an argument. -/
def Scan.push (st : Scan) (tmp : List Byte) (d : Nat) : Option Scan := do
  let tmp ← Block.write tmp d [0]
  some { st with tmp := none, args := st.args ++ [CStr.text tmp] }

/- `*d = *p`, then `d++` -/
def Scan.put (m : List Byte) (st : Scan) (tmp : List Byte) (d : Nat) : Option Scan := do
  let c ← m[st.p]?
  let tmp ← Block.write tmp d [c]
  some { st with tmp := some (tmp, d + 1) }

/-
  What the loop does at a character; `strdup` copies what is
  left with its NUL.
-/
def scanStep (m : List Byte) (c : Byte) (st : Scan) : Option Scan :=
  let (tmp, d) := st.tmp.getD (m.drop st.p, 0)
  let next := { st with
    p := if c = backslash then st.p + 1 else st.p }
  match st.quote with
  | .double =>
    if c = doubleQuote then { st with quote := .outside }.push tmp d
    else next.put m tmp d
  | .single =>
    if c = singleQuote then { st with quote := .outside }.push tmp d
    else next.put m tmp d
  | .outside =>
    if isBlank c then st.push tmp d
    else if c = doubleQuote then
      some { st with quote := .double, tmp := some (tmp, d) }
    else if c = singleQuote then
      some { st with quote := .single, tmp := some (tmp, d) }
    else next.put m tmp d

/- The loop, in at most `n` rounds, and what is left behind it -/
def scanLoop (m : List Byte) : Nat → Scan → Option (List (List Byte))
  | 0, _ => none
  | n + 1, st => do
    let c ← m[st.p]?
    if c = 0 then
      match st.tmp with
      | none => some st.args
      | some (tmp, d) => (st.push tmp d).map Scan.args
    else do
      let st ← scanStep m c st
      scanLoop m n { st with p := st.p + 1 }

/- `_unescape` of a string, before its arguments are shared -/
def scan (s : List Byte) : Option (List (List Byte)) :=
  scanLoop (s ++ [0]) (s.length + 1) ⟨0, .outside, none, []⟩

/- A backslash that escapes nothing is at the end. -/
def dangling : List Byte → Bool
  | [] => false
  | [c] => c = backslash
  | c :: d :: s =>
    if c = backslash then dangling s else dangling (d :: s)

---
-- Bounds
---

/- The copy has room for `k` more characters and the NUL. -/
def Scan.Fits (k : Nat) (st : Scan) : Prop :=
  ∀ tmp d, st.tmp = some (tmp, d) → d + k < tmp.length

variable {m : List Byte} {st : Scan} {tmp : List Byte} {c : Byte}
  {d k : Nat}

theorem Scan.push_spec (st : Scan) (hRoom : d < tmp.length) :
    ∃ st', st.push tmp d = some st' ∧ st'.p = st.p ∧ st'.tmp = none := by
  unfold push Block.write
  rw [if_pos (by rw [length_singleton]; omega)]
  exact ⟨_, rfl, rfl, rfl⟩

theorem Scan.put_spec (st : Scan) (hRead : m[st.p]? = some c)
    (hRoom : d + (k + 1) < tmp.length) :
    ∃ st', st.put m tmp d = some st' ∧ st'.p = st.p ∧ st'.Fits k := by
  have hWrite : Block.write tmp d [c] = some _ := if_pos (by rw [length_singleton]; omega)
  have hLength := Block.length_write hWrite
  unfold put
  rw [hRead, Option.bind_eq_bind, Option.bind_some, hWrite]
  refine ⟨_, rfl, rfl, ?_⟩
  rintro tmp' d' hTmp
  obtain ⟨rfl, rfl⟩ := Prod.mk.inj (Option.some.inj hTmp)
  omega

/- A character uses the room of one at most. -/
theorem scanStep_spec {e : Byte} (hRead : m[if c = backslash then st.p + 1 else st.p]? = some e)
    (hLeft : k + 1 < (m.drop st.p).length) (hFits : st.Fits (k + 1)) :
    ∃ st', scanStep m c st = some st' ∧
      st'.p = (if c = backslash then st.p + 1 else st.p) ∧ st'.Fits k := by
  unfold scanStep
  obtain ⟨tmp, d, hTmp, hRoom⟩ : ∃ tmp d,
      st.tmp.getD (m.drop st.p, 0) = (tmp, d) ∧ d + (k + 1) < tmp.length := by
    cases hSome : st.tmp with
    | none => exact ⟨_, _, rfl, by omega⟩
    | some copy => exact ⟨_, _, rfl, hFits _ _ hSome⟩
  rw [hTmp]
  dsimp only
  have hPush : ∀ st' : Scan, st'.p = st.p → c ≠ backslash →
      ∃ st'', st'.push tmp d = some st'' ∧
        st''.p = (if c = backslash then st.p + 1 else st.p) ∧ st''.Fits k := by
    intro st' hp hNe
    rcases Scan.push_spec st' (show d < tmp.length by omega) with ⟨st'', hStep, hp', hNone⟩
    refine ⟨st'', hStep, by rw [if_neg hNe, hp', hp], ?_⟩
    exact fun _ _ hSome => nomatch hNone.symm.trans hSome
  have hOpen : ∀ quote, c ≠ backslash →
      ∃ st', some { st with quote := quote, tmp := some (tmp, d) } =
          some st' ∧
        st'.p = (if c = backslash then st.p + 1 else st.p) ∧ st'.Fits k := by
    intro quote hNe
    refine ⟨_, rfl, (if_neg hNe).symm, ?_⟩
    rintro tmp' d' hSome
    obtain ⟨rfl, rfl⟩ := Prod.mk.inj (Option.some.inj hSome)
    omega
  have hPut := Scan.put_spec { st with
    p := if c = backslash then st.p + 1 else st.p } hRead hRoom
  cases hQuote : st.quote with
  | double =>
    dsimp only
    split
    case isTrue hEnd => exact hPush _ rfl (hEnd ▸ by decide)
    case isFalse => exact hQuote ▸ hPut
  | single =>
    dsimp only
    split
    case isTrue hEnd => exact hPush _ rfl (hEnd ▸ by decide)
    case isFalse => exact hQuote ▸ hPut
  | outside =>
    dsimp only
    split
    case isTrue hBlank =>
      refine hPush st rfl ?_
      rintro rfl
      exact nomatch hBlank
    case isFalse =>
      split
      case isTrue hEnd => exact hOpen _ (hEnd ▸ by decide)
      case isFalse =>
        split
        case isTrue hEnd => exact hOpen _ (hEnd ▸ by decide)
        case isFalse => exact hQuote ▸ hPut

theorem dangling_cons (l : List Byte) (hNe : c ≠ backslash) : dangling (c :: l) = dangling l := by
  cases l with
  | nil => exact decide_eq_false hNe
  | cons d l => rw [dangling, if_neg hNe]

/- The loop ends well exactly if no backslash is left over. -/
theorem scanLoop_spec (l before : List Byte) (n : Nat) (st : Scan)
    (hWhole : before ++ (l ++ [0]) = m) (hNoNul : 0 ∉ l)
    (hAt : st.p = before.length) (hFits : st.Fits l.length)
    (hRounds : l.length < n) : (scanLoop m n st).isSome = !dangling l := by
  induction n generalizing l before st with
  | zero => exact absurd hRounds (Nat.not_lt_zero _)
  | succ n ih =>
    have hRead : ∀ k, m[st.p + k]? = (l ++ [0])[k]? := fun k => by
      rw [hAt, ← hWhole, getElem?_append_right (Nat.le_add_right _ k), Nat.add_sub_cancel_left]
    have hLeft : (m.drop st.p).length = l.length + 1 := by
      rw [hAt, ← hWhole, drop_left, length_append, length_singleton]
    have hHere : m[st.p]? = (l ++ [0])[0]? := hRead 0
    rw [scanLoop, hHere, Option.bind_eq_bind]
    cases l with
    | nil =>
      rw [nil_append, getElem?_cons_zero, Option.bind_some, if_pos rfl]
      cases hTmp : st.tmp with
      | none => rfl
      | some copy =>
        have hRoom : copy.2 < copy.1.length := hFits _ _ hTmp
        rcases Scan.push_spec st hRoom with ⟨st', hPush, -⟩
        dsimp only
        rw [hPush]
        rfl
    | cons c l =>
      have hNe : c ≠ 0 := fun hZero => hNoNul (hZero ▸ mem_cons_self)
      rw [cons_append, getElem?_cons_zero] at hHere ⊢
      rw [Option.bind_some, if_neg hNe]
      rw [length_cons] at hFits hLeft hRounds
      by_cases hBack : c = backslash
      · subst hBack
        have hNext := hRead 1
        rw [cons_append, getElem?_cons_succ] at hNext
        cases l with
        | nil =>
          rcases scanStep_spec (m := m) (e := 0) (c := backslash)
            (k := 0) (by rw [if_pos rfl]; exact hNext)
            (by rw [hLeft]; exact Nat.lt_succ_self _) hFits with ⟨st', hStep, hp, -⟩
          obtain ⟨n, rfl⟩ := Nat.exists_eq_succ_of_ne_zero (show n ≠ 0 by simp at hRounds; omega)
          have hBehind : m[st'.p + 1]? = none := by
            rw [hp, if_pos rfl, Nat.add_assoc, hRead 2]
            rfl
          rw [hStep, Option.bind_eq_bind, Option.bind_some, scanLoop]
          dsimp only
          rw [hBehind]
          rfl
        | cons d l =>
          rw [length_cons] at hFits hLeft hRounds
          rcases scanStep_spec (m := m) (e := d) (c := backslash)
            (k := l.length + 1) (by rw [if_pos rfl]; exact hNext)
            (by omega) hFits with ⟨st', hStep, hp, hFits'⟩
          rw [hStep, Option.bind_eq_bind, Option.bind_some, dangling, if_pos rfl]
          refine ih l (before ++ [backslash, d]) _ ?_ (fun hMem =>
            hNoNul (mem_cons_of_mem _ (mem_cons_of_mem _ hMem)))
            ?_ (fun tmp d hTmp => ?_) (by omega)
          · rw [← hWhole, append_assoc]
            rfl
          · dsimp only
            rw [hp, if_pos rfl, hAt, length_append]
            rfl
          · have hRoom := hFits' tmp d hTmp
            omega
      · rcases scanStep_spec (m := m) (e := c) (c := c)
          (k := l.length) (by rw [if_neg hBack]; exact hHere)
          (by omega) hFits with ⟨st', hStep, hp, hFits'⟩
        rw [hStep, Option.bind_eq_bind, Option.bind_some, dangling_cons l hBack]
        refine ih l (before ++ [c]) _ ?_
          (fun hMem => hNoNul (mem_cons_of_mem _ hMem)) ?_ hFits' (by omega)
        · rw [← hWhole, append_assoc]
          rfl
        · dsimp only
          rw [hp, if_neg hBack, hAt, length_append]
          rfl

/-
  The splitter stays within its memory, and ends, exactly if
  the string has no backslash at its end that escapes nothing.
-/
theorem scan_iff (s : List Byte) (hNoNul : 0 ∉ s) :
    (scan s).isSome = true ↔ dangling s = false := by
  have hFits : (⟨0, .outside, none, []⟩ : Scan).Fits s.length :=
    fun _ _ hSome => nomatch hSome
  have hLoop := scanLoop_spec s [] (s.length + 1) _ rfl hNoNul rfl
    hFits (Nat.lt_succ_self _)
  rw [nil_append] at hLoop
  rw [scan, hLoop, Bool.not_eq_true']

theorem scan_iff_sample :
    (scan [0x61, backslash, 0x62]).isSome = true ↔
      dangling [0x61, backslash, 0x62] = false :=
  scan_iff _ (by decide)

/- Behind a last backslash the NUL is skipped. -/
theorem scan_overruns : scan [0x61, backslash] = none := by
  decide

end Efl.Ecore.CommandLine
