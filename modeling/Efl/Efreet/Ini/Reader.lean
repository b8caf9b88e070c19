import Efl.Efreet.Ini.Model

/-
  What the reader makes of one line, and of a value.

  Main declarations:
    * `Survives`
    * `PlainKey`, `Plain`
    * `readValue_of_survives`, `survives_of_readValue`
    * `parseLine_header`
-/

---
-- Values
---

namespace Efl.Efreet.Ini

open Bytes Eina.FileLines List Option

/- The reader gives a value as it was written. -/
structure Survives (v : Str) : Prop where
  noBreak : ∀ c ∈ v, isBreak c = false
  trimmed : trim v = v
  unescaped : unescape v = some v

instance (v : Str) : Decidable (Survives v) :=
  decidable_of_iff
    ((∀ c ∈ v, isBreak c = false) ∧ trim v = v ∧
      unescape v = some v)
    ⟨fun h => ⟨h.1, h.2.1, h.2.2⟩,
      fun h => ⟨h.noBreak, h.trimmed, h.unescaped⟩⟩

theorem stringshareAdd_eq {s t : Str}
    (hAdd : Ecore.CommandLine.stringshareAdd s = some t) : t = s := by
  unfold Ecore.CommandLine.stringshareAdd at hAdd
  split at hAdd
  · split at hAdd
    · exact nomatch hAdd
    · exact (some.inj hAdd).symm
  · exact (some.inj hAdd).symm

theorem trim_inside (text : Str) : trim text <:+: text :=
  (dropWhile_suffix isSpace).isInfix.trans (List.rdropWhile_prefix isSpace text).isInfix

theorem length_unescapeByte_le (c : Byte) : (unescapeByte c).length ≤ 2 := by
  unfold unescapeByte
  split_ifs <;> simp

/- Only a byte that needs no backslash keeps it. -/
theorem unescapeByte_eq {c : Byte}
    (hLong : 2 ≤ (unescapeByte c).length) : unescapeByte c = [backslash, c] := by
  unfold unescapeByte at hLong ⊢
  split_ifs at hLong ⊢ <;> simp_all

theorem length_unescapeLoop_le (s : Str) : (unescapeLoop s).length ≤ s.length := by
  induction s using unescapeLoop.induct with
  | case1 => exact Nat.le_refl _
  | case2 c => exact Nat.le_refl _
  | case3 d rest ih =>
    have hByte := length_unescapeByte_le d
    rw [unescapeLoop, if_pos rfl, length_append]
    simp only [length_cons]
    omega
  | case4 c d rest hNe ih =>
    rw [unescapeLoop, if_neg hNe]
    simp only [length_cons] at ih ⊢
    omega

/- An escape that is undone makes the string shorter. -/
theorem unescapeLoop_eq {s : Str}
    (hLength : s.length ≤ (unescapeLoop s).length) : unescapeLoop s = s := by
  induction s using unescapeLoop.induct with
  | case1 => rfl
  | case2 c => rfl
  | case3 d rest ih =>
    have hRest := length_unescapeLoop_le rest
    have hByte := length_unescapeByte_le d
    rw [unescapeLoop, if_pos rfl] at hLength ⊢
    rw [length_append] at hLength
    simp only [length_cons] at hLength
    rw [unescapeByte_eq (by omega), ih (by omega)]
    rfl
  | case4 c d rest hNe ih =>
    rw [unescapeLoop, if_neg hNe] at hLength ⊢
    simp only [length_cons] at hLength ih
    rw [ih (by omega)]

/- What is read of a value is not longer than the text. -/
theorem length_readValue_le {text w : Str}
    (hRead : readValue text = some w) : w.length ≤ text.length := by
  unfold readValue at hRead
  split at hRead
  case isTrue =>
    obtain rfl := some.inj hRead
    exact Nat.zero_le _
  case isFalse =>
    have hTrim := (trim_inside text).length_le
    have hText := (List.takeWhile_prefix (· ≠ 0) (l := trim text)).length_le
    unfold unescape at hRead
    split at hRead
    · have hLoop := length_unescapeLoop_le (CStr.text (trim text))
      rw [stringshareAdd_eq hRead]
      exact (hLoop.trans hText).trans hTrim
    · rw [stringshareAdd_eq hRead]
      exact hText.trans hTrim

theorem readValue_of_survives {v : Str} (hNoNul : 0 ∉ v)
    (hSurvives : Survives v) : readValue v = some v := by
  unfold readValue
  rw [hSurvives.trimmed]
  split
  case isTrue hNil => rw [hNil]
  case isFalse => rw [CStr.text_of_noNul hNoNul, hSurvives.unescaped]

/- A value that is read in full survives. -/
theorem survives_of_readValue {u w : Str} (hNoBreak : ∀ c ∈ u, isBreak c = false) (hNoNul : 0 ∉ u)
    (hRead : readValue u = some w) (hLength : u.length ≤ w.length) : Survives u := by
  have hTrim : trim u = u := by
    refine (trim_inside u).eq_of_length_le ?_
    unfold readValue at hRead
    split at hRead
    case isTrue =>
      obtain rfl := some.inj hRead
      exact hLength.trans (Nat.zero_le _)
    case isFalse =>
      have hText := (List.takeWhile_prefix (· ≠ 0) (l := trim u)).length_le
      have hLoop := length_unescapeLoop_le (CStr.text (trim u))
      unfold unescape at hRead
      unfold CStr.text at hRead hLoop
      split at hRead <;> rw [stringshareAdd_eq hRead] at hLength <;> omega
  refine ⟨hNoBreak, hTrim, ?_⟩
  unfold readValue at hRead
  rw [hTrim] at hRead
  split at hRead
  case isTrue hNil =>
    rw [hNil]
    rfl
  case isFalse =>
    rw [CStr.text_of_noNul hNoNul] at hRead
    rw [hRead]
    unfold unescape at hRead
    split at hRead
    · rw [stringshareAdd_eq hRead] at hLength ⊢
      rw [unescapeLoop_eq hLength]
    · rw [stringshareAdd_eq hRead]

---
-- Lines
---

/- The key of a line of its own -/
structure PlainKey (key : Str) : Prop where
  nonempty : key ≠ []
  noEquals : ∀ c ∈ key, c ≠ equals
  noBreak : ∀ c ∈ key, isBreak c = false
  start : key.dropWhile isSpace = key
  stop : key.rdropWhile isSpace = key
  noComment : key.head? ≠ some hashSign
  noHeader : key.head? ≠ some openBracket

/- The section of a header of its own -/
structure PlainName (name : Str) : Prop where
  noBracket : ∀ c ∈ name, c ≠ closeBracket
  noBreak : ∀ c ∈ name, isBreak c = false

theorem takeWhile_of_stop {l rest : Str} {c : Byte} {p : Byte → Bool}
    (hAll : ∀ b ∈ l, p b = true) (hStop : p c = false) :
    (l ++ c :: rest).takeWhile p = l ∧ (l ++ c :: rest).dropWhile p = c :: rest := by
  rw [takeWhile_append_of_pos hAll, dropWhile_append_of_pos hAll,
    takeWhile_cons_of_neg (by rw [hStop]; exact nofun),
    dropWhile_cons_of_neg (by rw [hStop]; exact nofun), append_nil]
  exact ⟨rfl, rfl⟩

/- A header starts a section. -/
theorem parseLine_header {name : Str} (data : Data)
    (hName : PlainName name) (hNoNul : 0 ∉ name) :
    parseLine data (openBracket :: name ++ [closeBracket]) =
      some (some (replace data name [])) := by
  have hStop : (name ++ [closeBracket]).takeWhile (fun c => decide (c ≠ closeBracket)) = name :=
    (takeWhile_of_stop (fun b hMem => decide_eq_true
      (hName.noBracket b hMem)) (decide_eq_false (fun h => h rfl))).1
  unfold parseLine
  rw [cons_append, dropWhile_cons_of_neg (by decide)]
  dsimp only
  rw [if_neg (by decide), if_pos rfl, if_pos (by simp), hStop, CStr.text_of_noNul hNoNul]

/- What is before and behind the `=` of a key -/
theorem splitKey {key : Str} (text : Str) (hKey : PlainKey key) :
    (key ++ equals :: text).takeWhile (· ≠ equals) = key ∧
      (key ++ equals :: text).dropWhile (· ≠ equals) = equals :: text :=
  takeWhile_of_stop (fun b hMem => decide_eq_true (hKey.noEquals b hMem)) rfl

theorem PlainKey.dropWhile_append {key : Str} (text : Str)
    (hKey : PlainKey key) :
    ∃ c rest, key ++ equals :: text = c :: rest ∧
      (key ++ equals :: text).dropWhile isSpace = c :: rest ∧ c ≠ hashSign ∧ c ≠ openBracket := by
  rcases hKey with ⟨hNonempty, hNoEquals, -, hStart, -, hNoComment, hNoHeader⟩
  cases key with
  | nil => exact absurd rfl hNonempty
  | cons c key =>
    refine ⟨c, key ++ equals :: text, rfl, ?_, ?_, ?_⟩
    · have hNoSpace : isSpace c = false := by
        by_contra hSpace
        rw [Bool.not_eq_false] at hSpace
        rw [dropWhile_cons_of_pos hSpace] at hStart
        have hShorter := (dropWhile_suffix isSpace (l := key)).length_le
        rw [hStart, length_cons] at hShorter
        omega
      rw [cons_append, dropWhile_cons_of_neg]
      rw [hNoSpace]
      exact nofun
    · rintro rfl
      exact hNoComment rfl
    · rintro rfl
      exact hNoHeader rfl

/- What the line of a key and a text does -/
theorem parseLine_key {key : Str} (name : Str) (fields : Section)
    (others : Data) (text : Str) (hKey : PlainKey key) :
    parseLine ((name, fields) :: others) (key ++ equals :: text) =
        (readValue text).bind fun value =>
        some (some ((name,
          replace fields (CStr.text key) value) :: others)) := by
  rcases hKey.dropWhile_append text with ⟨c, rest, hLine, hDrop, hComment, hHeader⟩
  have hParts := splitKey text hKey
  have hMem : equals ∈ c :: rest := by
    rw [← hLine]
    simp
  unfold parseLine
  rw [hDrop]
  dsimp only
  rw [if_neg hComment, if_neg hHeader, if_pos hMem, ← hLine]
  unfold readEntry
  dsimp only
  rw [hParts.1, hParts.2, hKey.stop, if_neg hKey.nonempty]
  change (do
    let fields' ← (do
      let value ← readValue text
      some (replace fields (CStr.text key) value))
    some (some ((name, fields') :: others))) = _
  cases readValue text <;> rfl

/- What reading a line leaves in the sections -/
def AllValues (Q : Str → Prop) (data : Data) : Prop :=
  ∀ s ∈ data, ∀ p ∈ s.2, Q p.2

theorem replace_values {Q : Str → Prop} {fields : Section} {key v : Str}
    (hAll : ∀ p ∈ fields, Q p.2) (hNew : Q v) : ∀ p ∈ replace fields key v, Q p.2 := by
  intro p hMem
  rcases mem_cons.mp hMem with rfl | hMem
  · exact hNew
  · exact hAll p (mem_filter.mp hMem).1

/- A value that is read comes from behind the `=` of a line. -/
theorem parseLine_values {Q : Str → Prop} {data data' : Data} {line : List Byte}
    (hAll : AllValues Q data)
    (hLine : ∀ w, line.head? ≠ some openBracket →
      readValue ((line.dropWhile (· ≠ equals)).drop 1) = some w → Q w)
    (hParse : parseLine data line = some (some data')) : AllValues Q data' := by
  have hSpaces : (line.dropWhile isSpace).dropWhile (· ≠ equals) = line.dropWhile (· ≠ equals) := by
    clear hLine hParse
    induction line with
    | nil => rfl
    | cons c line ih =>
      by_cases hSpace : isSpace c = true
      · have hNe : c ≠ equals := by
          rintro rfl
          exact nomatch hSpace
        rw [dropWhile_cons_of_pos hSpace, ih]
        exact (dropWhile_cons_of_pos (p := fun b => decide (b ≠ equals)) (decide_eq_true hNe)).symm
      · rw [dropWhile_cons_of_neg hSpace]
  have hHead : ∀ c rest, line.dropWhile isSpace = c :: rest →
      c ≠ openBracket → line.head? ≠ some openBracket := by
    intro c rest hDrop hNe hOpen
    cases line with
    | nil => exact nomatch hOpen
    | cons b line =>
      obtain rfl : b = openBracket := some.inj hOpen
      rw [dropWhile_cons_of_neg (by decide)] at hDrop
      exact hNe (List.cons.inj hDrop).1.symm
  unfold parseLine at hParse
  cases hDrop : line.dropWhile isSpace with
  | nil =>
    rw [hDrop] at hParse
    obtain rfl := some.inj (some.inj hParse)
    exact hAll
  | cons c rest =>
    rw [hDrop] at hParse hSpaces
    dsimp only at hParse
    by_cases hComment : c = hashSign
    · rw [if_pos hComment] at hParse
      obtain rfl := some.inj (some.inj hParse)
      exact hAll
    rw [if_neg hComment] at hParse
    by_cases hOpen : c = openBracket
    · rw [if_pos hOpen] at hParse
      split at hParse
      · obtain rfl := some.inj (some.inj hParse)
        intro s hMem
        rcases mem_cons.mp hMem with rfl | hMem
        · exact fun p hIn => absurd hIn not_mem_nil
        · exact hAll s (mem_filter.mp hMem).1
      · obtain rfl := some.inj (some.inj hParse)
        exact hAll
    rw [if_neg hOpen] at hParse
    cases data with
    | nil => exact nomatch some.inj hParse
    | cons s others =>
      rcases s with ⟨name, fields⟩
      dsimp only at hParse
      split at hParse
      case isFalse => exact nomatch some.inj hParse
      rw [bind_eq_bind, bind_eq_some_iff] at hParse
      rcases hParse with ⟨fields', hRead, hData⟩
      obtain rfl := some.inj (some.inj hData)
      have hFields : ∀ p ∈ fields, Q p.2 := hAll (name, fields) mem_cons_self
      intro s hMem
      rcases mem_cons.mp hMem with rfl | hMem
      · unfold readEntry at hRead
        dsimp only at hRead
        split at hRead
        · obtain rfl := some.inj hRead
          exact hFields
        · rw [bind_eq_bind, bind_eq_some_iff] at hRead
          rcases hRead with ⟨v, hValue, hNew⟩
          obtain rfl := some.inj hNew
          rw [hSpaces] at hValue
          exact replace_values hFields (hLine v (hHead c rest hDrop hOpen) hValue)
      · exact hAll s (mem_cons_of_mem _ hMem)

end Efl.Efreet.Ini
