import Efl.Efreet.Ini.Reader
import Mathlib.Data.Finset.Max

/-
  Saving sections and loading them again.

  If every value survives, the lines of the file are the ones
  that were written.  If not, the longest value that does not
  survive is read from no line: a line that is a part of a
  value is shorter than the value.

  Main declarations:
    * `Plain`
    * `Same`, `RoundTrips`
    * `segments_save`
    * `roundTrips_of_survives`
-/

---
-- The Lines of a Saved File
---

namespace Efl.Efreet.Ini

open Bytes Eina.FileLines List Option

/- The names and keys that the format can tell -/
structure Plain (data : Data) : Prop where
  names : ∀ s ∈ data, PlainName s.1
  keys : ∀ s ∈ data, ∀ p ∈ s.2, PlainKey p.1

/- The line of a header, and what is written of an entry -/
def header (name : Str) : List Byte :=
  openBracket :: name ++ [closeBracket]

def entry (p : Str × Str) : List Byte :=
  p.1 ++ equals :: p.2

theorem segments_entries (fields : Section) (rest : List Byte) :
    segments (fields.flatMap valueSave ++ rest) = fields.flatMap
      (fun p => segments (entry p)) ++ segments rest := by
  induction fields with
  | nil => rfl
  | cons p fields ih =>
    rw [flatMap_cons, flatMap_cons, append_assoc, append_assoc, ← ih]
    unfold valueSave
    rw [append_assoc, singleton_append]
    exact segments_append (entry p) _ (by decide)

theorem PlainName.noBreak_header {name : Str} (hName : PlainName name) :
    ∀ c ∈ header name, isBreak c = false := by
  intro c hMem
  unfold header at hMem
  rw [mem_append, mem_cons, mem_singleton] at hMem
  rcases hMem with (rfl | hMem) | rfl
  · rfl
  · exact hName.noBreak c hMem
  · rfl

variable {data : Data}

/- The lines of a saved file that are not empty -/
theorem segments_save (hNames : ∀ s ∈ data, PlainName s.1) :
    segments (save data) = data.flatMap fun s => header s.1 ::
      s.2.flatMap fun p => segments (entry p) := by
  induction data with
  | nil => rfl
  | cons s data ih =>
    rw [forall_mem_cons] at hNames
    have hFile : save (s :: data) = header s.1 ++
        lineFeed :: (s.2.flatMap valueSave ++ save data) := by
      unfold save
      rw [flatMap_cons]
      unfold sectionSave header
      simp
    rw [hFile, segments_append _ _ (by decide), segments_of_noBreak hNames.1.noBreak_header,
      segments_entries, ih hNames.2, flatMap_cons]
    rfl

/- Empty lines do nothing. -/
theorem parseLines_filter (data : Data) (lines : List (List Byte)) :
    parseLines data lines = parseLines data (lines.filter (· ≠ [])) := by
  induction lines generalizing data with
  | nil => rfl
  | cons line lines ih =>
    by_cases hNil : line = []
    · subst hNil
      rw [filter_cons_of_neg (by simp), ← ih]
      rfl
    · rw [filter_cons_of_pos (by simpa using hNil)]
      unfold parseLines
      congr 1
      funext o
      cases o with
      | none => rfl
      | some data' => exact ih data'

/- What a saved file is read as -/
theorem parse_save (address : Nat)
    (hNames : ∀ s ∈ data, PlainName s.1) (hNonempty : data ≠ []) :
    parse address (save data) = parseLines [] (data.flatMap fun s =>
      header s.1 :: s.2.flatMap fun p => segments (entry p)) := by
  have hFile : save data ≠ [] := by
    intro hNil
    cases data with
    | nil => exact hNonempty rfl
    | cons s data =>
      unfold save at hNil
      rw [flatMap_cons] at hNil
      exact nomatch hNil
  rcases filter_mapLines address hFile with ⟨lines, hLines, hFilter⟩
  unfold parse
  rw [hLines]
  dsimp only
  rw [parseLines_filter, hFilter, segments_save hNames]

---
-- Values That Survive
---

/- A line that goes through -/
theorem parseLines_cons {data' : Data} {line : List Byte} (lines : List (List Byte))
    (hParse : parseLine data line = some (some data')) :
    parseLines data (line :: lines) = parseLines data' lines := by
  rw [parseLines, hParse]
  rfl

theorem replace_of_notMem {V : Type} {hash : List (Str × V)} {key : Str}
    (v : V) (hOut : key ∉ hash.map Prod.fst) :
    replace hash key v = (key, v) :: hash := by
  unfold replace
  rw [filter_eq_self.mpr]
  intro p hMem
  rw [decide_eq_true_iff]
  rintro rfl
  exact hOut (mem_map.mpr ⟨p, hMem, rfl⟩)

variable {p : Str × Str}

/- The line of an entry whose value survives -/
theorem segments_entry (hKey : PlainKey p.1)
    (hNoBreak : ∀ c ∈ p.2, isBreak c = false) : segments (entry p) = [entry p] := by
  have hLine : ∀ c ∈ entry p, isBreak c = false := by
    intro c hMem
    unfold entry at hMem
    rw [mem_append, mem_cons] at hMem
    rcases hMem with hMem | rfl | hMem
    · exact hKey.noBreak c hMem
    · rfl
    · exact hNoBreak c hMem
  rw [segments_of_noBreak hLine, filter_cons_of_pos]
  · rfl
  · simp [entry]

/- The entries of a section are read one by one. -/
theorem parseLines_entries {fields : Section} {name : Str} {others : Data}
    (before : Section) (rest : List (List Byte)) (hKeys : ∀ p ∈ fields, PlainKey p.1)
    (hNoNul : ∀ p ∈ fields, 0 ∉ p.1 ∧ 0 ∉ p.2) (hNodup : (fields.map Prod.fst).Nodup)
    (hApart : ∀ p ∈ fields, p.1 ∉ before.map Prod.fst)
    (hSurvive : ∀ p ∈ fields, Survives p.2) :
    parseLines ((name, before) :: others)
        (fields.flatMap (fun p => segments (entry p)) ++ rest) =
      parseLines ((name, fields.reverse ++ before) :: others)
        rest := by
  induction fields generalizing before with
  | nil => rfl
  | cons p fields ih =>
    rw [forall_mem_cons] at hKeys hNoNul hApart hSurvive
    rw [map_cons, nodup_cons] at hNodup
    have hLine : parseLine _ (entry p) = _ := parseLine_key name before others p.2 hKeys.1
    rw [readValue_of_survives hNoNul.1.2 hSurvive.1, bind_some, CStr.text_of_noNul hNoNul.1.1,
      replace_of_notMem p.2 hApart.1] at hLine
    rw [flatMap_cons, segments_entry hKeys.1 hSurvive.1.noBreak, append_assoc, singleton_append]
    rw [parseLines_cons _ hLine, ih ((p.1, p.2) :: before) hKeys.2
      hNoNul.2 hNodup.2 ?_ hSurvive.2, reverse_cons, append_assoc]
    · rfl
    · intro q hMem
      rw [map_cons, mem_cons, not_or]
      refine ⟨?_, hApart.2 q hMem⟩
      intro hSame
      exact hNodup.1 (mem_map.mpr ⟨q, hMem, hSame⟩)

/- A section with its entries in the order of the reader -/
def loaded (s : Str × Section) : Str × Section :=
  (s.1, s.2.reverse)

theorem parseLines_sections (before : Data) (hHashes : Hashes data)
    (hPlain : Plain data) (hApart : ∀ s ∈ data, s.1 ∉ before.map Prod.fst)
    (hSurvive : ∀ s ∈ data, ∀ p ∈ s.2, Survives p.2) :
    parseLines before (data.flatMap fun s => header s.1 ::
        s.2.flatMap fun p => segments (entry p)) =
      some (some ((data.map loaded).reverse ++ before)) := by
  induction data generalizing before with
  | nil => rfl
  | cons s data ih =>
    rcases hHashes with ⟨hNames, hKeys, hNoNul⟩
    rcases hPlain with ⟨hPlainNames, hPlainKeys⟩
    rw [forall_mem_cons] at hKeys hNoNul
    rw [forall_mem_cons] at hPlainNames hPlainKeys
    rw [forall_mem_cons] at hApart hSurvive
    rw [map_cons, nodup_cons] at hNames
    have hHeader : parseLine _ (header s.1) = _ := parseLine_header before hPlainNames.1 hNoNul.1.1
    rw [replace_of_notMem [] hApart.1] at hHeader
    rw [flatMap_cons, cons_append, parseLines_cons _ hHeader,
      parseLines_entries [] _ hPlainKeys.1 hNoNul.1.2 hKeys.1
        (fun _ _ => not_mem_nil) hSurvive.1, append_nil,
      ih ((s.1, s.2.reverse) :: before) ⟨hNames.2, hKeys.2, hNoNul.2⟩
        ⟨hPlainNames.2, hPlainKeys.2⟩ ?_ hSurvive.2, map_cons, reverse_cons, append_assoc]
    · rfl
    · intro t hMem
      rw [map_cons, mem_cons, not_or]
      refine ⟨?_, hApart.2 t hMem⟩
      intro hSame
      exact hNames.1 (mem_map.mpr ⟨t, hMem, hSame⟩)

---
-- Round Trips
---

section

variable {V : Type}

/- `eina_hash_find` -/
def find (hash : List (Str × V)) (key : Str) : Option V :=
  hash.lookup key

theorem mem_of_find {hash : List (Str × V)} {key : Str} {v : V}
    (hFind : find hash key = some v) : (key, v) ∈ hash := by
  unfold find at hFind
  rw [lookup_eq_some_iff] at hFind
  rcases hFind with ⟨before, after, rfl, -⟩
  simp

theorem find_of_mem {hash : List (Str × V)} {key : Str} {v : V}
    (hNodup : (hash.map Prod.fst).Nodup) (hMem : (key, v) ∈ hash) : find hash key = some v := by
  rcases append_of_mem hMem with ⟨before, after, rfl⟩
  unfold find
  rw [lookup_eq_some_iff]
  refine ⟨before, after, rfl, ?_⟩
  intro p hIn
  rw [map_append, map_cons, nodup_middle, nodup_cons, ← map_append] at hNodup
  simp only [bne_iff_ne, ne_eq]
  rintro rfl
  exact hNodup.1 (mem_map.mpr ⟨p, mem_append_left after hIn, rfl⟩)

/- The order of the entries does not matter. -/
theorem find_reverse {hash : List (Str × V)}
    (hNodup : (hash.map Prod.fst).Nodup) (key : Str) : find hash.reverse key = find hash key := by
  have hNodup' : (hash.reverse.map Prod.fst).Nodup := by
    rw [map_reverse, nodup_reverse]
    exact hNodup
  cases hFind : find hash key with
  | some v =>
    exact find_of_mem hNodup' (mem_reverse.mpr (mem_of_find hFind))
  | none =>
    by_contra hSome
    rcases ne_none_iff_exists'.mp hSome with ⟨v, hFind'⟩
    have hFound := find_of_mem hNodup (mem_reverse.mp (mem_of_find hFind'))
    rw [hFind] at hFound
    exact nomatch hFound

end

/- The same sections, keys and values -/
structure Same (data data' : Data) : Prop where
  sections :
    ∀ name, (find data name).isSome = (find data' name).isSome
  values :
    ∀ name key,
      ((find data name).bind fun fields => find fields key) =
        (find data' name).bind fun fields => find fields key

/- What is loaded is what was saved; a NULL hash is empty. -/
def RoundTrips (address : Nat) (data : Data) : Prop :=
  ∃ result, parse address (save data) = some result ∧
    Same (result.getD []) data

theorem find_map_loaded (data : Data) (name : Str) :
    find (data.map loaded) name = (find data name).map List.reverse := by
  unfold find
  induction data with
  | nil => rfl
  | cons s data ih =>
    rcases s with ⟨other, fields⟩
    rw [map_cons, loaded, lookup_cons, lookup_cons, ih]
    dsimp only
    cases name == other <;> rfl

theorem roundTrips_of_survives (address : Nat) (hHashes : Hashes data) (hPlain : Plain data)
    (hSurvive : ∀ s ∈ data, ∀ p ∈ s.2, Survives p.2) : RoundTrips address data := by
  by_cases hNil : data = []
  · subst hNil
    exact ⟨none, rfl, fun _ => rfl, fun _ _ => rfl⟩
  · refine ⟨some (data.map loaded).reverse, ?_, ?_⟩
    · rw [parse_save address hPlain.names hNil, parseLines_sections
        [] hHashes hPlain (fun _ _ => not_mem_nil) hSurvive, append_nil]
    · have hNames : ((data.map loaded).map Prod.fst).Nodup := by
        rw [List.map_map]
        exact hHashes.names
      have hFind : ∀ name, find (data.map loaded).reverse name =
            (find data name).map List.reverse := by
        intro name
        rw [find_reverse hNames, find_map_loaded]
      constructor
      · intro name
        rw [getD_some, hFind, isSome_map]
      · intro name key
        rw [getD_some, hFind]
        cases hSection : find data name with
        | none => rfl
        | some fields =>
          have hKeys := hHashes.keys _ (mem_of_find hSection)
          exact find_reverse hKeys key

---
-- Values That Do Not Survive
---

/- The values of the entries -/
def values (data : Data) : List Str :=
  data.flatMap fun s => s.2.map Prod.snd

theorem mem_values {s : Str × Section} (hSection : s ∈ data)
    (hEntry : p ∈ s.2) : p.2 ∈ values data :=
  mem_flatMap.mpr ⟨s, hSection, mem_map.mpr ⟨p, hEntry, rfl⟩⟩

/- What is behind the `=` of a line of an entry -/
theorem text_of_entry {line : List Byte} (hKey : PlainKey p.1)
    (hLine : line ∈ segments (entry p)) :
    let text := (line.dropWhile (· ≠ equals)).drop 1
    (text = p.2 ∧ ∀ c ∈ p.2, isBreak c = false) ∨
      (text.length < p.2.length ∧ ∃ c ∈ p.2, isBreak c = true) := by
  dsimp only
  have hParts := take_findIdx p.2
  by_cases hNone : p.2.drop (p.2.findIdx isBreak) = []
  · have hNoBreak : ∀ c ∈ p.2, isBreak c = false := by
      have hWhole := take_append_drop (p.2.findIdx isBreak) p.2
      rw [hNone, append_nil] at hWhole
      rw [hWhole] at hParts
      exact hParts.1
    rw [segments_entry hKey hNoBreak, mem_singleton] at hLine
    subst hLine
    refine Or.inl ⟨?_, hNoBreak⟩
    unfold entry
    rw [(splitKey p.2 hKey).2]
    rfl
  · rcases hParts.2 with hNil | ⟨c, rest, hRest, hBreak⟩
    · exact absurd hNil hNone
    have hWhole := take_append_drop (p.2.findIdx isBreak) p.2
    obtain ⟨first, hFirst⟩ : ∃ first, p.2.take (p.2.findIdx isBreak) = first := ⟨_, rfl⟩
    rw [hFirst] at hParts hWhole
    rw [hRest] at hWhole
    have hLength : first.length + (rest.length + 1) = p.2.length := by
      rw [← hWhole, length_append, length_cons]
    refine Or.inr ⟨?_, c, ?_, hBreak⟩
    · have hEntry : entry p = entry (p.1, first) ++ c :: rest := by
        unfold entry
        rw [← hWhole]
        simp
      rw [hEntry, segments_append _ _ hBreak, segments_entry (p := (p.1, first)) hKey hParts.1,
        singleton_append, mem_cons] at hLine
      rcases hLine with rfl | hLine
      · unfold entry
        rw [(splitKey first hKey).2]
        change first.length < p.2.length
        omega
      · have hLe := length_le_of_mem_segments hLine
        have hDrop := (dropWhile_suffix (· ≠ equals) (l := line)).length_le
        rw [length_drop]
        omega
    · rw [← hWhole]
      simp

/- The lines of a file leave values of one kind. -/
theorem parseLines_values {Q : Str → Prop} {data' : Data}
    {lines : List (List Byte)} (hAll : AllValues Q data)
    (hLines : ∀ line ∈ lines, ∀ w, line.head? ≠ some openBracket →
    readValue ((line.dropWhile (· ≠ equals)).drop 1) = some w → Q w)
    (hParse : parseLines data lines = some (some data')) : AllValues Q data' := by
  induction lines generalizing data with
  | nil =>
    obtain rfl := some.inj (some.inj hParse)
    exact hAll
  | cons line lines ih =>
    rw [forall_mem_cons] at hLines
    rw [parseLines, bind_eq_bind, bind_eq_some_iff] at hParse
    rcases hParse with ⟨o, hLine, hRest⟩
    cases o with
    | none => exact nomatch some.inj hRest
    | some data₁ =>
      exact ih (parseLine_values hAll hLines.1 hLine) hLines.2 hRest

/- The longest value that does not survive is not read. -/
theorem readValue_ne {v w : Str} {s : Str × Section}
    {line : List Byte} (hHashes : Hashes data) (hPlain : Plain data) (hLost : ¬ Survives v)
    (hLongest : ∀ u ∈ values data, ¬ Survives u → u.length ≤ v.length)
    (hSection : s ∈ data) (hEntry : p ∈ s.2)
    (hLine : line ∈ segments (entry p)) (hRead :
    readValue ((line.dropWhile (· ≠ equals)).drop 1) = some w) : w ≠ v := by
  rintro rfl
  have hKey := hPlain.keys s hSection p hEntry
  have hNoNul := ((hHashes.noNul s hSection).2 p hEntry).2
  have hValue := mem_values hSection hEntry
  have hShort := length_readValue_le hRead
  rcases text_of_entry hKey hLine with ⟨hText, hNoBreak⟩ | ⟨hText, c, hMem, hBreak⟩
  · rw [hText] at hRead hShort
    by_cases hSurvives : Survives p.2
    · rw [readValue_of_survives hNoNul hSurvives] at hRead
      rw [some.inj hRead] at hSurvives
      exact hLost hSurvives
    · exact hSurvives (survives_of_readValue hNoBreak hNoNul hRead (hLongest p.2 hValue hSurvives))
  · have hNot : ¬ Survives p.2 := by
      intro hSurvives
      rw [hSurvives.noBreak c hMem] at hBreak
      exact nomatch hBreak
    have hLe := hLongest p.2 hValue hNot
    omega

theorem survives_of_roundTrips {address : Nat} (hHashes : Hashes data)
    (hPlain : Plain data) (hTrip : RoundTrips address data) :
    ∀ s ∈ data, ∀ p ∈ s.2, Survives p.2 := by
  intro s₀ hSection₀ p₀ hEntry₀
  by_contra hLost₀
  -- the longest value that does not survive
  let lost := (values data).toFinset.filter fun u => ¬ Survives u
  have hNonempty : lost.Nonempty := by
    refine ⟨p₀.2, ?_⟩
    rw [Finset.mem_filter, List.mem_toFinset]
    exact ⟨mem_values hSection₀ hEntry₀, hLost₀⟩
  rcases Finset.exists_max_image lost List.length hNonempty with ⟨v, hV, hLongest⟩
  rw [Finset.mem_filter, List.mem_toFinset] at hV
  rcases hV with ⟨hValue, hLost⟩
  have hLongest' : ∀ u ∈ values data, ¬ Survives u → u.length ≤ v.length := by
    intro u hU hNot
    exact hLongest u (Finset.mem_filter.mpr ⟨mem_toFinset.mpr hU, hNot⟩)
  rcases mem_flatMap.mp hValue with ⟨s, hSection, hMap⟩
  rcases mem_map.mp hMap with ⟨p, hEntry, rfl⟩
  -- it is in what was loaded
  rcases hTrip with ⟨result, hParse, hSame⟩
  have hFind : (find data s.1).bind (fun fields => find fields p.1) = some p.2 := by
    rw [find_of_mem hHashes.names (v := s.2) hSection, bind_some]
    exact find_of_mem (hHashes.keys s hSection) hEntry
  rw [← hSame.values, bind_eq_some_iff] at hFind
  rcases hFind with ⟨fields, hFields, hLoaded⟩
  -- but no line gives it
  have hNonempty : data ≠ [] := ne_nil_of_mem hSection
  have hAll : AllValues (· ≠ p.2) (result.getD []) := by
    cases result with
    | none => exact fun _ hMem => absurd hMem not_mem_nil
    | some data' =>
      rw [parse_save address hPlain.names hNonempty] at hParse
      refine parseLines_values (fun _ hMem => absurd hMem not_mem_nil) ?_ hParse
      intro line hLine w hHead hRead
      rcases mem_flatMap.mp hLine with ⟨t, hT, hLine⟩
      rcases mem_cons.mp hLine with rfl | hLine
      · exact absurd rfl hHead
      · rcases mem_flatMap.mp hLine with ⟨q, hQ, hLine⟩
        exact readValue_ne hHashes hPlain hLost hLongest' hT hQ hLine hRead
  exact hAll _ (mem_of_find hFields) _ (mem_of_find hLoaded) rfl

/-
  Sections are loaded as they were saved exactly if each of
  their values survives.
-/
theorem round_trip_iff {data : Data} (address : Nat)
    (hHashes : Hashes data) (hPlain : Plain data) :
    RoundTrips address data ↔
      ∀ s ∈ data, ∀ p ∈ s.2, Survives p.2 :=
  ⟨survives_of_roundTrips hHashes hPlain,
    roundTrips_of_survives address hHashes hPlain⟩

/- A value that survives, with a backslash in it -/
theorem round_trip_iff_sample :
    RoundTrips 0 [([0x61], [([0x6b], [0x5c, 0x71])])] := by
  refine (round_trip_iff 0 ⟨by decide, by decide, by decide⟩
    ⟨?_, ?_⟩).mpr (by decide)
  · intro s hMem
    rw [mem_singleton.mp hMem]
    exact ⟨by decide, by decide⟩
  · intro s hMem
    rw [mem_singleton.mp hMem]
    intro p hIn
    rw [mem_singleton.mp hIn]
    exact ⟨by decide, by decide, by decide, rfl, rfl, by decide,
      by decide⟩

/- A blank in front of a value is lost. -/
theorem blank_is_lost :
    ¬ RoundTrips 0 [([0x61], [([0x6b], [0x20, 0x76])])] := by
  rintro ⟨result, hParse, hSame⟩
  have hLoaded : parse 0 (save [([0x61], [([0x6b], [0x20, 0x76])])]) =
      some (some [([0x61], [([0x6b], [0x76])])]) := by
    rfl
  rw [hLoaded] at hParse
  obtain rfl := some.inj hParse
  have hValue := hSame.values [0x61] [0x6b]
  exact absurd hValue (by decide)

end Efl.Efreet.Ini
