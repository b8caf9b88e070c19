import Efl.Eet.Bounds
import Efl.Eet.Writer

/-
  Reads through aliases, on a file that is written and read.

  An alias is an entry whose data is the name of another one.
  What compresses and decompresses is a parameter.

  Main declarations:
    * `File.writeComp`, `File.aliasComp`
    * `readStep`, `readDirectStep`, `follow`
    * `run_holds`
    * `Holds.readStep_eq`, `Holds.readDirectStep_eq`
-/

---
-- Calls
---

namespace Efl.Eet.Alias

open Bytes List Option Function

/- `Emile_Compressor_Type` -/
inductive Compressor where
  | zlib
  | lz4hc
  | lz4
  deriving DecidableEq

/- `eet_2_emile_compressor` -/
def eet2EmileCompressor (comp : Nat) : Compressor :=
  if comp = 10 then .lz4hc
  else if comp = 11 then .lz4
  else .zlib

/- `emile_compress` and `emile_decompress` -/
structure Emile where
  compress : Compressor → List Byte → Option (List Byte)
  decompress :
    Compressor → List Byte → Nat → Option (List Byte)

/- What is compressed is not empty, and can be got back. -/
structure Emile.Lossless (emile : Emile) : Prop where
  nonempty : ∀ t data out,
    emile.compress t data = some out → out ≠ []
  back : ∀ t data out,
    emile.compress t data = some out →
      emile.decompress t out data.length = some data

/- `Eet_Compression` -/
abbrev Compression :=
  Fin 12

/- There is memory for everything. -/
def allMemory : Allocs :=
  ⟨true, true, true, true, true⟩

/- `eet_define_data` -/
def defineComp (ef : File) (efn : FileNode) (data : List Byte)
    (originalSize comp : Nat) : FileNode :=
  { efn with
    isAlias := false
    ciphered := false
    compression := comp ≠ 0
    compressionType := comp
    size := data.length
    dataSize := originalSize
    data := if data = [] then none else some data
    offset := ef.dataSize + 1 }

/- What `eet_write_cipher` stores, and how. -/
def writeStored (emile : Emile) (data : List Byte) (comp : Compression) : List Byte × Nat :=
  if comp = 0 then
    (data, 0)
  else
    match emile.compress (eet2EmileCompressor comp) data with
    | none => (data, 0)
    | some out =>
      if out.length < data.length then (out, comp)
      else (data, 0)

/- `eet_write` -/
def writeComp (emile : Emile) (ef : File) (name : CString)
    (data : List Byte) (comp : Compression) : Option File :=
  if data = [] then
    some ef
  else
    let stored := writeStored emile data comp
    ef.define allMemory (ef.nodes.getD fun _ => []) name
      fun efn =>
        defineComp ef efn stored.1 data.length stored.2

/- What `eet_alias` stores, if it can be compressed. -/
def aliasStored (emile : Emile) (destination : CString)
    (comp : Compression) : Option (List Byte) :=
  let data := destination.chars ++ [0]
  if comp = 0 then some data
  else emile.compress (eet2EmileCompressor comp) data

/- `eet_alias` -/
def aliasComp (emile : Emile) (ef : File) (name destination : CString)
    (comp : Compression) : Option File :=
  let nodes := ef.nodes.getD fun _ => []
  match aliasStored emile destination comp with
  | none => some { ef with nodes := some nodes }
  | some stored =>
    ef.define allMemory nodes name fun efn =>
      { defineComp ef efn stored
          (destination.chars.length + 1) comp with
        isAlias := true }

/- The calls that put something into the file -/
inductive Call where
  | write (name : CString) (data : List Byte)
      (comp : Compression)
  | aliasTo (name destination : CString) (comp : Compression)

def callStep (emile : Emile) (ef : File) : Call → Option File
  | .write name data comp => writeComp emile ef name data comp
  | .aliasTo name destination comp =>
    aliasComp emile ef name destination comp

---
-- Reads
---

/- `find_node_by_name`; nothing is found without a header. -/
def find (ef : File) (name : List Byte) : Option FileNode :=
  ef.nodes.bind fun nodes =>
    (nodes (hashGen name)).find? fun efn => efn.name = name

/-
  What a read does with a name: it returns, with data or with
  NULL, or it goes on with another name.
-/
inductive Step where
  | done (data : Option (List Byte))
  | follow (name : List Byte)
  deriving DecidableEq

/- The string at the start of some bytes. -/
def stringOf (bytes : List Byte) : Option (List Byte) :=
  if 0 ∈ bytes then some (bytes.takeWhile (· ≠ 0)) else none

/-
  `eet_read_cipher` without a key, up to the call of itself.
  `none` is a read outside of the data.
-/
def readStep (m : Mapped) (emile : Emile) (ef : File) (name : List Byte) : Option Step :=
  match find ef name with
  | none => some (.done none)
  | some efn => do
    let input ← readBinbuf m efn
    let output := input.bind fun bytes =>
      if efn.compression then
        emile.decompress
          (eet2EmileCompressor efn.compressionType) bytes
          efn.dataSize
      else
        some bytes
    match output with
    | none => some (.done none)
    | some data =>
      if efn.isAlias then do
        let last ← data[efn.dataSize - 1]?
        if last ≠ 0 then
          some (.done none)
        else do
          let name ← stringOf data
          some (.follow name)
      else
        some (.done (some data))

/- The data that `eet_read_direct` returns for an entry. -/
def directData (m : Mapped) (efn : FileNode) : List Byte :=
  match efn.data with
  | some data => data
  | none => m.range efn.offset efn.dataSize

/- `eet_read_direct`, up to the call of itself -/
def readDirectStep (m : Mapped) (emile : Emile) (ef : File) (name : List Byte) : Option Step :=
  match find ef name with
  | none => some (.done none)
  | some efn => do
    let direct ← directStep m (emile.decompress
      (eet2EmileCompressor efn.compressionType)) efn
    match direct with
    | .follow name => some (.follow name)
    | .done none => some (.done none)
    | .done (some efn) => some (.done (some (directData m efn)))

/- How a read ends. -/
inductive Outcome where
  | fault
  | returned (data : Option (List Byte))
  deriving DecidableEq

/- A read with at most so many calls of itself. -/
def follow (step : List Byte → Option Step) : Nat → List Byte → Option Outcome
  | 0, _ => none
  | fuel + 1, name =>
    match step name with
    | none => some .fault
    | some (.done data) => some (.returned data)
    | some (.follow name) => follow step fuel name

/- The read comes to an end, and returns the data. -/
def Returns (step : List Byte → Option Step) (name : List Byte)
    (data : Option (List Byte)) : Prop :=
  ∃ fuel, follow step fuel name = some (.returned data)

---
-- What Is Under a Name
---

/- An entry is data, or the name of another entry. -/
inductive Entry where
  | data (bytes : List Byte)
  | link (destination : List Byte)
  deriving DecidableEq

abbrev Entries :=
  List Byte → Option Entry

/- What a call is for. -/
def Entries.call (emile : Emile) (es : Entries) : Call → Entries
  | .write name data _ =>
    if data = [] then es
    else update es name.chars (some (.data data))
  | .aliasTo name destination comp =>
    if (aliasStored emile destination comp).isNone then es
    else update es name.chars
      (some (.link destination.chars))

/- What the calls have put under the names. -/
def entries (emile : Emile) (calls : List Call) : Entries :=
  calls.foldl (Entries.call emile) fun _ => none

/- The data under a name, if it is no alias. -/
def Entries.data (es : Entries) (name : List Byte) : Option (List Byte) :=
  match es name with
  | some (.data bytes) => some bytes
  | _ => none

/- The chain of aliases of a name ends with another one. -/
inductive LeadsTo (es : Entries) : List Byte → List Byte → Prop where
  | here {name : List Byte} :
      (∀ destination, es name ≠ some (.link destination)) →
      LeadsTo es name name
  | link {name destination last : List Byte} :
      es name = some (.link destination) →
      LeadsTo es destination last →
      LeadsTo es name last

---
-- Calls and Entries
---

/- The node has the bytes, as they are or compressed. -/
structure Content (emile : Emile) (efn : FileNode) (bytes : List Byte) : Prop where
  stored : ∃ raw, efn.data = some raw ∧
    if efn.compression then
      emile.decompress
        (eet2EmileCompressor efn.compressionType) raw
        bytes.length = some bytes
    else raw = bytes
  size : efn.dataSize = bytes.length
  ciphered : efn.ciphered = false

/- The node is that of an entry. -/
structure Stores (emile : Emile) (efn : FileNode) (entry : Entry) : Prop where
  data : ∀ bytes, entry = .data bytes →
    efn.isAlias = false ∧ Content emile efn bytes
  link : ∀ destination, entry = .link destination →
    efn.isAlias = true ∧
      Content emile efn (destination ++ [0]) ∧
      0 ∉ destination ∧ destination.length + 1 < 2 ^ 31

/- The file has the entries. -/
structure Holds (emile : Emile) (ef : File) (es : Entries) : Prop where
  missing : ∀ name, es name = none → find ef name = none
  there : ∀ name entry, es name = some entry →
    ∃ efn, find ef name = some efn ∧ Stores emile efn entry

/-
  Sizes are numbers of the type `int`: that of the data, and
  that of the name of a destination with its NUL.
-/
def Call.Sized : Call → Prop
  | .write _ data _ => data.length < 2 ^ 31
  | .aliasTo _ destination _ => destination.chars.length + 1 < 2 ^ 31

variable {name : List Byte}

/- The first node with the name is another one. -/
theorem find_defineFirst {define : FileNode → FileNode}
    {bucket bucket' : List FileNode} (hName : ∀ efn, (define efn).name = efn.name)
    (hDefine : defineFirst name define bucket = some bucket') :
    (∃ old, bucket'.find? (fun efn => efn.name = name) =
        some (define old)) ∧
      ∀ n, n ≠ name → bucket'.find? (fun efn =>
        efn.name = n) = bucket.find? fun efn => efn.name = n := by
  induction bucket generalizing bucket' with
  | nil => exact nomatch hDefine
  | cons efn efns ih =>
    unfold defineFirst at hDefine
    split at hDefine
    case isTrue hSame =>
      obtain rfl := some.inj hDefine
      constructor
      · refine ⟨efn, find?_cons_of_pos ?_⟩
        rw [decide_eq_true_iff, hName, hSame]
      · intro n hNe
        have hOther : ¬ efn.name = n := by
          rintro rfl
          exact hNe hSame
        rw [find?_cons_of_neg, find?_cons_of_neg]
        · rw [decide_eq_true_iff]
          exact hOther
        · rw [decide_eq_true_iff, hName]
          exact hOther
    case isFalse hOther =>
      rcases map_eq_some_iff.mp hDefine with ⟨rest, hRest, rfl⟩
      rcases ih hRest with ⟨⟨old, hFound⟩, hKept⟩
      constructor
      · refine ⟨old, ?_⟩
        rw [find?_cons_of_neg]
        · exact hFound
        · rw [decide_eq_true_iff]
          exact hOther
      · intro n hNe
        rw [find?_cons, find?_cons, hKept n hNe]

/- The file without a header is as one without nodes. -/
theorem find_getD (ef : File) (name : List Byte) :
    find ef name = ((ef.nodes.getD fun _ =>
      []) (hashGen name)).find? fun efn => efn.name = name := by
  unfold find
  cases ef.nodes with
  | none => rfl
  | some nodes => rfl

theorem find_header (ef : File) (name : List Byte) :
    find { ef with nodes := some (ef.nodes.getD fun _ => []) }
        name = find ef name := (find_getD ef name).symm

/- What is found after a node has been defined. -/
theorem find_define (ef : File) (name : CString) (define : FileNode → FileNode)
    (hName : ∀ efn, (define efn).name = efn.name) :
    ∃ ef' old, ef.define allMemory (ef.nodes.getD fun _ =>
      []) name define = some ef' ∧ ∀ n, find ef' n =
        if n = name.chars then some (define old)
        else find ef n := by
  have hNodes := find_getD ef
  generalize ef.nodes.getD (fun _ => []) = nodes at hNodes ⊢
  have hOther : ∀ {bucket n}, hashGen n ≠ hashGen name.chars →
      (update nodes (hashGen name.chars) bucket (hashGen n)) = nodes (hashGen n) := by
    intro bucket n hNe
    exact update_of_ne hNe _ _
  unfold File.define
  dsimp only
  cases hDefine : defineFirst name.chars define (nodes (hashGen name.chars)) with
  | some bucket =>
    rcases find_defineFirst hName hDefine with ⟨⟨old, hFound⟩, hKept⟩
    refine ⟨_, old, rfl, fun n => ?_⟩
    rw [hNodes, find]
    dsimp only
    rw [bind_some]
    by_cases hHash : hashGen n = hashGen name.chars
    · rw [hHash, update_self]
      split
      case isTrue hSame =>
        rw [hSame]
        exact hFound
      case isFalse hNe => exact hKept n hNe
    · rw [hOther hHash, if_neg]
      rintro rfl
      exact hHash rfl
  | none =>
    refine ⟨_, newNode name, rfl, fun n => ?_⟩
    rw [hNodes, find]
    dsimp only
    rw [bind_some]
    have hNew : (define (newNode name)).name = name.chars := hName _
    by_cases hHash : hashGen n = hashGen name.chars
    · rw [hHash, update_self]
      split
      case isTrue hSame =>
        apply find?_cons_of_pos
        rw [decide_eq_true_iff, hSame]
        exact hNew
      case isFalse hNe =>
        apply find?_cons_of_neg
        rw [decide_eq_true_iff, hNew]
        exact fun hSame => hNe hSame.symm
    · rw [hOther hHash, if_neg]
      rintro rfl
      exact hHash rfl

theorem fin_pos {comp : Compression} (hComp : comp ≠ 0) : (comp : Nat) ≠ 0 := by
  intro hZero
  exact hComp (Fin.ext hZero)

variable {emile : Emile} {ef : File} {efn : FileNode}
  {data : List Byte}

/- Bytes that are stored as they are -/
theorem content_plain (hData : data ≠ []) (isAlias : Bool) :
    Content emile
      { defineComp ef efn data data.length 0 with
        isAlias := isAlias } data := by
  refine ⟨⟨data, if_neg hData, ?_⟩, rfl, rfl⟩
  have hPlain : (defineComp ef efn data data.length 0).compression ≠ true := of_decide_eq_false rfl
  rw [if_neg hPlain]

section

variable (hLossless : emile.Lossless)

include hLossless

/- Bytes that are stored compressed -/
theorem content_packed {out : List Byte} {comp : Nat} (hComp : comp ≠ 0)
    (hOut : emile.compress (eet2EmileCompressor comp) data = some out)
    (isAlias : Bool) :
    Content emile
      { defineComp ef efn out data.length comp with
        isAlias := isAlias } data := by
  refine ⟨⟨out, if_neg (hLossless.nonempty _ _ _ hOut), ?_⟩,
    rfl, rfl⟩
  have hPacked : (defineComp ef efn out data.length comp).compression = true := decide_eq_true hComp
  rw [if_pos hPacked]
  exact hLossless.back _ _ _ hOut

/- What is stored by a write can be got back. -/
theorem content_write (hData : data ≠ [])
    (comp : Compression) :
    Content emile (defineComp ef efn (writeStored emile data comp).1
      data.length (writeStored emile data comp).2) data := by
  unfold writeStored
  split
  case isTrue => exact content_plain hData false
  case isFalse hComp =>
    cases hOut : emile.compress (eet2EmileCompressor comp) data with
    | none => exact content_plain hData false
    | some out =>
      dsimp only
      split
      case isTrue =>
        exact content_packed hLossless (fin_pos hComp) hOut false
      case isFalse => exact content_plain hData false

/- The same for the name of an alias. -/
theorem content_alias {destination : CString} {comp : Compression} {stored : List Byte}
    (hStored : aliasStored emile destination comp = some stored) :
    Content emile
      { defineComp ef efn stored (destination.chars.length + 1) comp with
        isAlias := true } (destination.chars ++ [0]) := by
  have hSize : destination.chars.length + 1 = (destination.chars ++ [0]).length := by
    rw [length_append]
    rfl
  unfold aliasStored at hStored
  dsimp only at hStored
  rw [hSize]
  split at hStored
  case isTrue hComp =>
    obtain rfl := some.inj hStored
    subst hComp
    exact content_plain (by simp) true
  case isFalse hComp =>
    exact content_packed hLossless (fin_pos hComp) hStored true

end

/- The entries after a node has been defined -/
theorem Holds.update {ef' : File} {es : Entries} {entry : Entry}
    (hHolds : Holds emile ef es) (hFind : ∀ n, find ef' n =
      if n = name then some efn else find ef n)
    (hStores : Stores emile efn entry) : Holds emile ef' (update es name (some entry)) := by
  constructor
  · intro n hNone
    by_cases hSame : n = name
    · rw [hSame, update_self] at hNone
      exact nomatch hNone
    · rw [update_of_ne hSame] at hNone
      rw [hFind, if_neg hSame]
      exact hHolds.missing n hNone
  · intro n entry' hSome
    rw [hFind]
    by_cases hSame : n = name
    · rw [hSame, update_self] at hSome
      obtain rfl := some.inj hSome
      rw [if_pos hSame]
      exact ⟨efn, rfl, hStores⟩
    · rw [update_of_ne hSame] at hSome
      rw [if_neg hSame]
      exact hHolds.there n entry' hSome

/- A call does what it is for. -/
theorem callStep_holds {es : Entries} {call : Call}
    (hLossless : emile.Lossless) (hHolds : Holds emile ef es)
    (hSized : call.Sized) :
    ∃ ef', callStep emile ef call = some ef' ∧ Holds emile ef' (es.call emile call) := by
  cases call with
  | write name data comp =>
    unfold callStep Entries.call writeComp
    dsimp only
    by_cases hData : data = []
    · rw [if_pos hData, if_pos hData]
      exact ⟨ef, rfl, hHolds⟩
    · rw [if_neg hData, if_neg hData]
      rcases find_define ef name (fun efn => defineComp ef efn
          (writeStored emile data comp).1 data.length (writeStored emile data comp).2)
        (fun _ => rfl) with ⟨ef', old, hDefine, hFind⟩
      refine ⟨ef', hDefine, hHolds.update hFind ⟨?_, ?_⟩⟩
      · rintro bytes hSame
        obtain rfl := Entry.data.inj hSame
        exact ⟨rfl, content_write hLossless hData comp⟩
      · intro destination hSame
        exact nomatch hSame
  | aliasTo name destination comp =>
    unfold callStep Entries.call aliasComp
    dsimp only
    cases hStored : aliasStored emile destination comp with
    | none =>
      refine ⟨_, rfl, ?_⟩
      rw [if_pos (show (none : Option (List Byte)).isNone = true from rfl)]
      have hFind := find_header ef
      constructor
      · intro n hNone
        rw [hFind]
        exact hHolds.missing n hNone
      · intro n entry hSome
        rw [hFind]
        exact hHolds.there n entry hSome
    | some stored =>
      rw [if_neg (by simp)]
      rcases find_define ef name (fun efn => { defineComp ef efn stored
        (destination.chars.length + 1) comp with
            isAlias := true }) (fun _ => rfl) with ⟨ef', old, hDefine, hFind⟩
      refine ⟨ef', hDefine, hHolds.update hFind ⟨?_, ?_⟩⟩
      · intro bytes hSame
        exact nomatch hSame
      · intro last hSame
        obtain rfl := Entry.link.inj hSame
        exact ⟨rfl, content_alias hLossless hStored, destination.noNul, hSized⟩

/- The file has the entries that the calls are for. -/
theorem run_holds (hLossless : emile.Lossless) (calls : List Call)
    (hSized : ∀ call ∈ calls, call.Sized) (hasDictionary : Bool) :
    ∃ ef, Runs.run (callStep emile) (File.new hasDictionary)
        calls = some ef ∧
      Holds emile ef (entries emile calls) := by
  have hGeneral : ∀ (calls : List Call) (ef : File) (es : Entries),
      (∀ call ∈ calls, call.Sized) → Holds emile ef es →
      ∃ ef', Runs.run (callStep emile) ef calls = some ef' ∧
      Holds emile ef' (calls.foldl (Entries.call emile) es) := by
    intro calls
    induction calls with
    | nil =>
      intro ef es _ hHolds
      exact ⟨ef, rfl, hHolds⟩
    | cons call calls ih =>
      intro ef es hSized hHolds
      rcases callStep_holds hLossless hHolds
        (hSized call (mem_cons_self ..)) with ⟨ef', hStep, hHolds'⟩
      rcases ih ef' _ (fun c hc =>
        hSized c (mem_cons_of_mem _ hc)) hHolds' with
        ⟨ef'', hRun, hDone⟩
      refine ⟨ef'', ?_, hDone⟩
      rw [Runs.run_cons, hStep]
      exact hRun
  refine hGeneral calls _ _ hSized ⟨fun _ _ => rfl, ?_⟩
  intro name entry hSome
  exact nomatch hSome

---
-- Chains of Aliases
---

/- A step that goes on at the aliases, and only there. -/
def Walks (es : Entries) (answer : List Byte → Option (List Byte))
    (step : List Byte → Option Step) : Prop :=
  ∀ name, step name =
    match es name with
    | some (.link destination) => some (.follow destination)
    | _ => some (.done (answer name))

section

variable {es : Entries}
variable {answer : List Byte → Option (List Byte)}
variable {step : List Byte → Option Step}

/- A read gets to the end of a chain. -/
theorem follow_of_leadsTo {name last : List Byte}
    (hWalks : Walks es answer step) (hLeads : LeadsTo es name last) :
    Returns step name (answer last) := by
  induction hLeads with
  | @here name hEnd =>
    refine ⟨1, ?_⟩
    have hStep : step name = some (.done (answer name)) := by
      rw [hWalks]
      split
      · rename_i destination hLink
        exact absurd hLink (hEnd destination)
      · rfl
    rw [follow, hStep]
  | @link name destination last hLink hRest ih =>
    rcases ih with ⟨fuel, hReturned⟩
    refine ⟨fuel + 1, ?_⟩
    have hStep : step name = some (.follow destination) := by
      rw [hWalks, hLink]
    rw [follow, hStep]
    exact hReturned

/- A read of a chain that has no end does not come to one. -/
theorem follow_forever {name : List Byte} (hWalks : Walks es answer step)
    (hEndless : ¬ ∃ last, LeadsTo es name last) (fuel : Nat) : follow step fuel name = none := by
  induction fuel generalizing name with
  | zero => rfl
  | succ fuel ih =>
    have hLink : ∃ destination, es name = some (.link destination) := by
      by_contra hNone
      exact hEndless ⟨name, .here fun destination hLink =>
        hNone ⟨destination, hLink⟩⟩
    rcases hLink with ⟨destination, hLink⟩
    have hStep : step name = some (.follow destination) := by
      rw [hWalks, hLink]
    rw [follow, hStep]
    refine ih ?_
    rintro ⟨last, hLeads⟩
    exact hEndless ⟨last, .link hLink hLeads⟩

end

/- The name in the data of an alias -/
theorem stringOf_append {destination : List Byte}
    (hNoNul : 0 ∉ destination) : stringOf (destination ++ [0]) = some destination := by
  unfold stringOf
  rw [if_pos (by simp), takeWhile_append_of_pos]
  · rw [takeWhile_cons_of_neg (by simp), append_nil]
  · intro b hb
    rw [decide_eq_true_iff]
    rintro rfl
    exact hNoNul hb

/- The node of the name stores its data as they are. -/
def storedPlain (ef : File) (name : List Byte) : Bool :=
  (find ef name).any fun efn => !efn.compression

section

variable {emile : Emile} {ef : File} {es : Entries}
variable {efn : FileNode} {bytes : List Byte}

/- The copying path gets the bytes of a node. -/
theorem Content.output (hContent : Content emile efn bytes)
    (m : Mapped) :
    ∃ raw, readBinbuf m efn = some (some raw) ∧
      (if efn.compression then
        emile.decompress (eet2EmileCompressor efn.compressionType) raw efn.dataSize
      else some raw) = some bytes := by
  rcases hContent with ⟨⟨raw, hData, hRaw⟩, hSize, -⟩
  refine ⟨raw, ?_, ?_⟩
  · unfold readBinbuf
    rw [hData]
  · rw [hSize]
    split at hRaw
    case isTrue hPacked => rw [if_pos hPacked, hRaw]
    case isFalse hPlain => rw [if_neg hPlain, hRaw]

/- `eet_read` goes from entry to entry. -/
theorem Holds.readStep_eq (hHolds : Holds emile ef es) (m : Mapped) :
    Walks es es.data (readStep m emile ef) := by
  intro name
  unfold readStep Entries.data
  cases hEntry : es name with
  | none => rw [hHolds.missing name hEntry]
  | some entry =>
    rcases hHolds.there name entry hEntry with ⟨efn, hFind, hStores⟩
    rw [hFind]
    cases entry with
    | data bytes =>
      rcases hStores.data bytes rfl with ⟨hAlias, hContent⟩
      rcases hContent.output m with ⟨raw, hRead, hOut⟩
      simp only [hRead, bind_eq_bind, bind_some, hOut, hAlias]
      rfl
    | link destination =>
      rcases hStores.link destination rfl with ⟨hAlias, hContent, hNoNul, -⟩
      rcases hContent.output m with ⟨raw, hRead, hOut⟩
      have hLast : (destination ++ [0])[efn.dataSize - 1]? = some (0 : Byte) := by
        rw [hContent.size, length_append]
        simp
      simp only [hRead, bind_eq_bind, bind_some, hOut, hAlias, hLast, stringOf_append hNoNul]
      rfl

/- What is found directly for data -/
theorem Content.directStep_data (hContent : Content emile efn bytes)
    (hAlias : efn.isAlias = false) (m : Mapped)
    (decompress : List Byte → Nat → Option (List Byte)) :
    directStep m decompress efn = some (.done (if efn.compression then none else some efn)) := by
  rcases hContent with ⟨⟨raw, hData, -⟩, -, hCiphered⟩
  have hHere : ¬ (m.size < uintAdd efn.offset efn.size ∧ efn.data = none) := by
    rw [hData]
    simp
  unfold directStep
  rw [if_neg hHere, if_neg (by rw [hAlias]; decide), hCiphered]
  cases efn.compression with
  | true => rfl
  | false => rfl

/- What is found directly for an alias -/
theorem Content.directStep_link {destination : List Byte}
    (hContent : Content emile efn (destination ++ [0]))
    (hAlias : efn.isAlias = true) (hNoNul : 0 ∉ destination)
    (hShort : destination.length + 1 < 2 ^ 31) (m : Mapped) :
    directStep m (emile.decompress
        (eet2EmileCompressor efn.compressionType)) efn =
      some (.follow destination) := by
  rcases hContent.output m with ⟨raw', hRead, hOut⟩
  rcases hContent with ⟨⟨raw, hData, hRaw⟩, hSize, -⟩
  have hHere : ¬ (m.size < uintAdd efn.offset efn.size ∧ efn.data = none) := by
    rw [hData]
    simp
  have hZero : (0 : Byte) ∈ destination ++ [0] := by simp
  have hName := stringOf_append hNoNul
  unfold stringOf at hName
  rw [if_pos hZero] at hName
  unfold directStep
  rw [if_neg hHere, if_pos hAlias]
  by_cases hPacked : efn.compression = true
  · rw [if_pos hPacked] at hOut ⊢
    have hLast : (destination ++ [(0 : Byte)]).getLast? = some 0 := by simp
    simp only [hRead, bind_eq_bind, bind_some, hOut, hLast]
    rw [if_pos trivial, some.inj hName]
  · rw [if_neg hPacked] at hRaw ⊢
    subst hRaw
    have hWrap : CInt.wrap (destination.length + 1 : Nat) = destination.length + 1 := by
      rw [CInt.wrap_of_inRange]
      · push_cast
        rfl
      · unfold CInt.InRange
        push_cast
        omega
    have hIndex : efn.lastIndex = destination.length := by
      unfold FileNode.lastIndex
      rw [hSize, length_append, length_singleton, hWrap, Int.add_sub_cancel, CInt.wrap_of_inRange]
      unfold CInt.InRange
      omega
    have hLast : efn.dataByte m efn.lastIndex = some 0 := by
      unfold FileNode.dataByte
      rw [hData, hIndex]
      simp
    have hString : efn.dataString m = some destination := by
      unfold FileNode.dataString
      rw [hData]
      dsimp only
      rw [if_pos hZero]
      exact hName
    simp only [hLast, hString, bind_eq_bind, bind_some]
    rfl

/- `eet_read_direct` does, but only returns what is plain. -/
theorem Holds.readDirectStep_eq (hHolds : Holds emile ef es)
    (m : Mapped) :
    Walks es (fun name =>
        if storedPlain ef name then es.data name else none) (readDirectStep m emile ef) := by
  intro name
  unfold readDirectStep Entries.data storedPlain
  dsimp only
  cases hEntry : es name with
  | none => simp [hHolds.missing name hEntry]
  | some entry =>
    rcases hHolds.there name entry hEntry with ⟨efn, hFind, hStores⟩
    rw [hFind]
    cases entry with
    | data bytes =>
      rcases hStores.data bytes rfl with ⟨hAlias, hContent⟩
      simp only [hContent.directStep_data hAlias, bind_eq_bind, bind_some, any_some]
      rcases hContent.stored with ⟨raw, hData, hRaw⟩
      by_cases hPacked : efn.compression = true
      · simp [hPacked]
      · rw [if_neg hPacked] at hRaw
        subst hRaw
        simp [hPacked, directData, hData]
    | link destination =>
      rcases hStores.link destination rfl with ⟨hAlias, hContent, hNoNul, hShort⟩
      simp only [hContent.directStep_link hAlias hNoNul hShort, bind_eq_bind, bind_some]

end

/-
  After any calls, `eet_read` of a name whose aliases lead to a
  last name returns the data there, and `eet_read_direct` does
  so if they are not compressed; without data it is NULL.
-/
theorem read_alias {emile : Emile} {calls : List Call} {ef : File}
    {name last : List Byte} (hLossless : emile.Lossless) (hSized :
    ∀ call ∈ calls, call.Sized) (m : Mapped) (hasDictionary : Bool)
    (hRun : Runs.run (callStep emile) (File.new hasDictionary) calls =
    some ef) (hLeads : LeadsTo (entries emile calls) name last) :
    Returns (readStep m emile ef) name
        ((entries emile calls).data last) ∧
      Returns (readDirectStep m emile ef) name
        (if storedPlain ef last then
          (entries emile calls).data last
        else none) := by
  rcases run_holds hLossless calls hSized hasDictionary with
    ⟨ef', hRun', hHolds⟩
  rw [hRun] at hRun'
  obtain rfl := some.inj hRun'
  exact ⟨follow_of_leadsTo (hHolds.readStep_eq m) hLeads,
    follow_of_leadsTo (hHolds.readDirectStep_eq m) hLeads⟩

/-
  Neither of them ever returns for a name whose aliases lead in
  a circle.
-/
theorem read_alias_forever {calls : List Call}
    (hLossless : emile.Lossless) (hSized : ∀ call ∈ calls, call.Sized)
    (m : Mapped) (hasDictionary : Bool) (hRun : Runs.run (callStep emile)
    (File.new hasDictionary) calls = some ef)
    (hEndless : ¬ ∃ last, LeadsTo (entries emile calls) name last)
    (fuel : Nat) :
    follow (readStep m emile ef) fuel name = none ∧
      follow (readDirectStep m emile ef) fuel name = none := by
  rcases run_holds hLossless calls hSized hasDictionary with ⟨ef', hRun', hHolds⟩
  rw [hRun] at hRun'
  obtain rfl := some.inj hRun'
  exact ⟨follow_forever (hHolds.readStep_eq m) hEndless fuel,
    follow_forever (hHolds.readDirectStep_eq m) hEndless fuel⟩

/- A hundred zeros, and what zlib makes of them -/
def hundredZeros : List Byte :=
  List.replicate 100 0

def packedZeros : List Byte :=
  [120, 218, 99, 96, 160, 61, 0, 0, 0, 100, 0, 1]

/- There is memory to compress these, and for nothing else. -/
def zerosEmile : Emile where
  compress t data :=
    if t = .zlib ∧ data = hundredZeros then some packedZeros
    else none
  decompress t packed n :=
    if t = .zlib ∧ packed = packedZeros ∧ n = 100 then
      some hundredZeros
    else none

theorem zerosEmile_lossless : zerosEmile.Lossless := by
  constructor
  · intro t data out hOut
    unfold zerosEmile at hOut
    dsimp only at hOut
    split at hOut
    case isTrue =>
      obtain rfl := some.inj hOut
      exact cons_ne_nil _ _
    case isFalse => exact nomatch hOut
  · intro t data out hOut
    unfold zerosEmile at hOut ⊢
    dsimp only at hOut ⊢
    split at hOut
    case isTrue hBoth =>
      obtain rfl := some.inj hOut
      rcases hBoth with ⟨rfl, rfl⟩
      exact if_pos ⟨rfl, rfl, length_replicate⟩
    case isFalse => exact nomatch hOut

/- The names "a", "b" and "d" -/
def nameA : CString :=
  ⟨[97], noNul_a⟩

def nameB : CString :=
  ⟨[98], noNul_b⟩

def nameD : CString :=
  ⟨[100], by decide⟩

/- An alias of an alias of three bytes -/
def chainCalls : List Call :=
  [.aliasTo nameA nameB 0, .aliasTo nameB nameD 0,
    .write nameD [1, 2, 3] 0]

theorem read_alias_sample :
    ∃ ef, Runs.run (callStep zerosEmile) (File.new false)
        chainCalls = some ef ∧
      Returns (readStep ⟨0, 0, fun _ => 0⟩ zerosEmile ef)
        nameA.chars (some [1, 2, 3]) ∧
      Returns (readDirectStep ⟨0, 0, fun _ => 0⟩ zerosEmile ef)
        nameA.chars (some [1, 2, 3]) := by
  have hSized : ∀ call ∈ chainCalls, call.Sized := by
    intro call hCall
    simp only [chainCalls, mem_cons, not_mem_nil, or_false] at hCall
    rcases hCall with rfl | rfl | rfl
    all_goals
      unfold Call.Sized
      decide
  have hLeads : LeadsTo (entries zerosEmile chainCalls)
      nameA.chars nameD.chars := by
    have hA : entries zerosEmile chainCalls nameA.chars =
        some (.link nameB.chars) := by decide
    have hB : entries zerosEmile chainCalls nameB.chars =
        some (.link nameD.chars) := by decide
    refine .link hA (.link hB (.here fun destination hLink => ?_))
    have hData : entries zerosEmile chainCalls nameD.chars =
        some (.data [1, 2, 3]) := by decide
    rw [hData] at hLink
    cases hLink
  have hPlain : (Runs.run (callStep zerosEmile) (File.new false)
      chainCalls).map (fun ef => storedPlain ef nameD.chars) =
      some true := by decide
  rcases map_eq_some_iff.mp hPlain with ⟨ef, hRun, hStored⟩
  rcases read_alias zerosEmile_lossless hSized
    ⟨0, 0, fun _ => 0⟩ false hRun hLeads with ⟨hRead, hDirect⟩
  have hData : (entries zerosEmile chainCalls).data
      nameD.chars = some [1, 2, 3] := by decide
  rw [hStored, if_pos rfl, hData] at hDirect
  rw [hData] at hRead
  exact ⟨ef, hRun, hRead, hDirect⟩

/- Two aliases of each other -/
def circleCalls : List Call :=
  [.aliasTo nameA nameB 0, .aliasTo nameB nameA 0]

theorem circle_endless : ¬ ∃ last, LeadsTo (entries zerosEmile circleCalls) nameA.chars last := by
  have hA : entries zerosEmile circleCalls nameA.chars =
      some (.link nameB.chars) := by decide
  have hB : entries zerosEmile circleCalls nameB.chars =
      some (.link nameA.chars) := by decide
  have hNever : ∀ name last,
      LeadsTo (entries zerosEmile circleCalls) name last →
      name ≠ nameA.chars ∧ name ≠ nameB.chars := by
    intro name last hLeads
    induction hLeads with
    | @here name hEnd =>
      constructor
      · rintro rfl
        exact hEnd _ hA
      · rintro rfl
        exact hEnd _ hB
    | @link name destination last hLink hRest ih =>
      constructor
      · rintro rfl
        rw [hA] at hLink
        exact ih.2 (Entry.link.inj (some.inj hLink)).symm
      · rintro rfl
        rw [hB] at hLink
        exact ih.1 (Entry.link.inj (some.inj hLink)).symm
  rintro ⟨last, hLeads⟩
  exact (hNever _ _ hLeads).1 rfl

/-
  Two aliases of each other, which no read gets out of; and
  data that is compressed, which is not there directly.
-/
theorem read_alias_circle :
    (∃ ef, Runs.run (callStep zerosEmile) (File.new false)
        circleCalls = some ef ∧
      ∀ fuel, follow (readStep ⟨0, 0, fun _ => 0⟩ zerosEmile ef) fuel
        nameA.chars = none ∧ follow (readDirectStep ⟨0, 0, fun _ =>
        0⟩ zerosEmile ef) fuel nameA.chars = none) ∧
    ∃ ef, Runs.run (callStep zerosEmile) (File.new false)
        [.write nameD hundredZeros 1] = some ef ∧
        Returns (readStep ⟨0, 0, fun _ => 0⟩ zerosEmile ef) nameD.chars
        (some hundredZeros) ∧ Returns (readDirectStep ⟨0, 0, fun _ =>
        0⟩ zerosEmile ef) nameD.chars none := by
  constructor
  · have hSized : ∀ call ∈ circleCalls, call.Sized := by
      intro call hCall
      simp only [circleCalls, mem_cons, not_mem_nil, or_false] at hCall
      rcases hCall with rfl | rfl
      all_goals
        unfold Call.Sized
        decide
    rcases run_holds zerosEmile_lossless circleCalls hSized
      false with ⟨ef, hRun, -⟩
    exact ⟨ef, hRun, read_alias_forever zerosEmile_lossless
      hSized _ false hRun circle_endless⟩
  · have hRuns : (Runs.run (callStep zerosEmile) (File.new false)
        [.write nameD hundredZeros 1]).map (fun ef =>
          (follow (readStep ⟨0, 0, fun _ => 0⟩ zerosEmile ef) 1
              nameD.chars, follow (readDirectStep ⟨0, 0, fun _ =>
              0⟩ zerosEmile ef) 1 nameD.chars)) =
        some (some (.returned (some hundredZeros)),
          some (.returned none)) := by
      decide +kernel
    rcases map_eq_some_iff.mp hRuns with ⟨ef, hRun, hBoth⟩
    rcases Prod.mk.inj hBoth with ⟨hRead, hDirect⟩
    exact ⟨ef, hRun, ⟨1, hRead⟩, ⟨1, hDirect⟩⟩

end Efl.Eet.Alias
