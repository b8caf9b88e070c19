import Efl.Eina.SimpleXml.Rounds
import Efl.Lib.Lists

/-
  A tree that is dumped is loaded again, but for the texts of
  one byte that are padded, and for NUL bytes.

  Main declarations:
    * `Steps`, `Loads`
    * `Node.loaded`, `Node.texts`
    * `Node.loads`, `childrenLoads`
    * `nodeLoad_noNul`
-/

---
-- Runs
---

namespace Efl.Eina.SimpleXml

open Bytes List Option

/- The rounds from one position to another, and their calls -/
inductive Steps (buf : List Byte) : Nat → List Token → Nat → Prop where
  | refl (i : Nat) : Steps buf i [] i
  | step {i j k : Nat} {tokens more : List Token}
      (hStep : step buf true i = (tokens, .go j))
      (hLess : i < j) (hIn : i < buf.length)
      (hMore : Steps buf j more k) :
      Steps buf i (tokens ++ more) k

variable {buf : List Byte} {i j : Nat} {tokens : List Token}

theorem Steps.trans {k : Nat} {more : List Token}
    (hSteps : Steps buf i tokens j) (hMore : Steps buf j more k) :
    Steps buf i (tokens ++ more) k := by
  induction hSteps with
  | refl => exact hMore
  | step hStep hLess hIn _ ih =>
    rw [append_assoc]
    exact .step hStep hLess hIn (ih hMore)

theorem report_all (reported tokens : List Token) :
    report (fun _ => true) reported tokens = (reported ++ tokens, true) := by
  induction tokens generalizing reported with
  | nil => rw [report, append_nil]
  | cons t tokens ih =>
    rw [report, if_pos rfl, ih, append_assoc, singleton_append]

/- Rounds that reach the end are the whole parse. -/
theorem Steps.parseFrom {last : Nat} (hSteps : Steps buf i tokens last) (hEnd : last = buf.length)
    {rounds : Nat} (hRounds : last - i ≤ rounds)
    (reported : List Token) :
    parseFrom (fun _ => true) buf true rounds i reported = some (true, reported ++ tokens) := by
  induction hSteps generalizing rounds reported with
  | refl i =>
    unfold SimpleXml.parseFrom
    rw [if_neg (by omega), append_nil]
  | step hStep hLess hIn hMore ih =>
    cases rounds with
    | zero => omega
    | succ rounds =>
      unfold SimpleXml.parseFrom
      rw [if_pos hIn, hStep]
      dsimp only
      rw [report_all]
      dsimp only
      rw [ih hEnd (by omega), append_assoc]

---
-- Nodes
---

namespace Ctxt

theorem add_nil (ctx : Ctxt) : ctx.add [] = ctx := by
  rcases ctx with ⟨current, root⟩
  cases current with
  | nil =>
    show Ctxt.mk [] (root ++ []) = _
    rw [append_nil]
  | cons tag above =>
    show Ctxt.mk (⟨tag.name, tag.attributes, tag.children ++ []⟩ :: above) root = _
    rw [append_nil]

theorem add_add (ctx : Ctxt) (nodes more : List Node) :
    (ctx.add nodes).add more = ctx.add (nodes ++ more) := by
  rcases ctx with ⟨current, root⟩
  cases current with
  | nil =>
    show Ctxt.mk [] (root ++ nodes ++ more) = _
    rw [append_assoc]
    rfl
  | cons tag above =>
    show Ctxt.mk (⟨tag.name, tag.attributes, tag.children ++ nodes ++ more⟩ :: above) root = _
    rw [append_assoc]
    rfl

end Ctxt

/- From one position to another, these nodes are added. -/
def Loads (buf : List Byte) (i : Nat) (nodes : List Node) (j : Nat) : Prop :=
  ∃ tokens, Steps buf i tokens j ∧ ∀ ctx : Ctxt,
    tokens.foldlM (nodeParse buf) ctx = some (ctx.add nodes)

theorem Loads.refl (buf : List Byte) (i : Nat) : Loads buf i [] i :=
  ⟨[], .refl i, fun ctx => by
    rw [ctx.add_nil]
    rfl⟩

variable {nodes : List Node}

theorem Loads.trans {k : Nat} {more : List Node}
    (hLoads : Loads buf i nodes j) (hMore : Loads buf j more k) :
    Loads buf i (nodes ++ more) k := by
  rcases hLoads with ⟨tokens, hSteps, hFold⟩
  rcases hMore with ⟨tokens', hSteps', hFold'⟩
  refine ⟨tokens ++ tokens', hSteps.trans hSteps', ?_⟩
  intro ctx
  rw [foldlM_append, hFold, bind_eq_bind, bind_some, hFold', ctx.add_add]

/- A round whose last token is a text -/
theorem Loads.of_step (hStep : step buf true i = (tokens, .go j))
    (hLess : i < j) (hIn : i < buf.length)
    (hFold : ∀ ctx : Ctxt, tokens.foldlM (nodeParse buf) ctx =
        some (ctx.add nodes)) : Loads buf i nodes j := by
  refine ⟨tokens ++ [], .step hStep hLess hIn (.refl j), ?_⟩
  rw [append_nil]
  exact hFold

variable {name : List Byte} {attributes : List Attribute}

/- A tag with children -/
theorem Loads.tag (hName : IsName name) (hAttributes : ∀ a ∈ attributes, a.WellFormed)
    (hSize : buf.length < 4294967296)
    (hOpen : Has buf i (0x3c :: (tagBody name attributes ++ [0x3e])))
    (hLoads :
    Loads buf (i + (tagBody name attributes).length + 2) nodes j)
    (hClose : Has buf j (closeDump name)) :
    Loads buf i [.tag name attributes nodes] (j + (closeDump name).length) := by
  rcases hLoads with ⟨tokens, hSteps, hFold⟩
  have hStep := step_opening [] hName hAttributes hSize
    (by rw [append_nil]; exact hOpen) (Or.inl ⟨rfl, rfl⟩)
  have hIn := hOpen.length_le
  have hIn' := hClose.length_le
  have hPos : 0 < (closeDump name).length := by
    unfold closeDump
    simp only [length_append, length_cons]
    omega
  rw [length_cons] at hIn
  refine ⟨_, .step hStep (by omega) (by omega) (hSteps.trans (.step (step_close hName hSize hClose)
    (by omega) (by omega) (.refl _))), ?_⟩
  intro ctx
  have hBody : Has buf (i + 1) (tagBody name attributes) := hOpen.cons.2.left
  have hFirst : Has buf (j + 2) name := by
    unfold closeDump at hClose
    exact hClose.left.right
  rw [singleton_append, foldlM_cons,
    show nodeParse buf ctx
      ⟨.opening, i + 1, (tagBody name attributes).length⟩ =
        some (ctx.enter name attributes) by
      unfold nodeParse
      dsimp only
      rw [tagParse_of hName hAttributes hBody, map_some],
    bind_eq_bind, bind_some, foldlM_append, hFold, bind_eq_bind, bind_some, append_nil, foldlM_cons]
  unfold nodeParse closeParse
  dsimp only [Ctxt.enter, Ctxt.add]
  rw [hName.unskip hFirst, hFirst.slice_eq, if_pos (Or.inr rfl)]
  rfl

/- A tag without children -/
theorem Loads.emptyTag (hName : IsName name) (hAttributes : ∀ a ∈ attributes, a.WellFormed)
    (hSize : buf.length < 4294967296) (hOpen :
    Has buf i (0x3c :: (tagBody name attributes ++ [0x2f, 0x3e]))) :
    Loads buf i [.tag name attributes []] (i + (tagBody name attributes).length + 3) := by
  have hStep := step_opening [0x2f] hName hAttributes hSize
    (by rw [append_assoc]; exact hOpen) (Or.inr ⟨rfl, rfl⟩)
  have hIn := hOpen.length_le
  rw [length_cons] at hIn
  refine Loads.of_step hStep (by omega) (by omega) ?_
  intro ctx
  have hBody : Has buf (i + 1) (tagBody name attributes) := hOpen.cons.2.left
  rw [foldlM_cons,
    show nodeParse buf ctx
      ⟨.openEmpty, i + 1, (tagBody name attributes).length⟩ =
        some (ctx.enter name attributes).leave by
      unfold nodeParse
      dsimp only
      rw [tagParse_of hName hAttributes hBody, map_some]]
  rfl

---
-- Dumps
---

theorem dumpIndent_none (level : Nat) : dumpIndent none level = [] := flatten_replicate_nil

theorem Node.dump_data
    (kind : DataKind) (text : List Byte) (level : Nat) :
    (Node.data kind text).dump none level = kind.before ++ text ++ kind.behind := by
  rw [Node.dump, dumpIndent_none]
  exact append_nil _

theorem Node.dump_emptyTag (name : List Byte)
    (attributes : List Attribute) (level : Nat) :
    (Node.tag name attributes []).dump none level =
      0x3c :: (tagBody name attributes ++ [0x2f, 0x3e]) := by
  rw [Node.dump, dumpIndent_none]
  show 0x3c :: name ++ attributesDump attributes ++ [0x2f, 0x3e] ++ [] ++ [] = _
  rw [append_nil, append_nil, cons_append, cons_append]
  rfl

theorem Node.dump_tag (name : List Byte) (attributes : List Attribute)
    (child : Node) (children : List Node) (level : Nat) :
    (Node.tag name attributes (child :: children)).dump none level =
        0x3c :: (tagBody name attributes ++ [0x3e]) ++ childrenDump none
        (level + 1) (child :: children) ++ closeDump name := by
  rw [Node.dump, dumpIndent_none]
  show 0x3c :: name ++ attributesDump attributes ++ [0x3e] ++ [] ++ (childrenDump none (level + 1)
    (child :: children) ++ [] ++ closeDump name ++ []) = _
  unfold tagBody
  simp only [append_nil, cons_append, append_assoc]

/- All but data starts like a tag. -/
theorem Node.dump_head {node : Node} (hWell : node.WellFormed)
    (hNotData : node.isData = false) (level : Nat) : ∃ s, node.dump none level = 0x3c :: s := by
  cases node with
  | tag name attributes children =>
    cases children with
    | nil => exact ⟨_, Node.dump_emptyTag _ _ _⟩
    | cons child children => exact ⟨_, Node.dump_tag _ _ _ _ _⟩
  | data kind text =>
    rw [Node.dump_data]
    cases kind with
    | data => exact nomatch hNotData
    | cdata => exact ⟨_, rfl⟩
    | processing => exact ⟨_, rfl⟩
    | doctype => exact ⟨_, rfl⟩
    | doctypeChild => exact ⟨_, rfl⟩
    | comment => exact ⟨_, rfl⟩

---
-- Loading a Dump
---

/- What a text is loaded as -/
def DataKind.loaded (text : List Byte) : DataKind → List Byte
  | .comment => padded text
  | .processing => padded text
  | _ => text

mutual

def Node.loaded : Node → Node
  | .tag name attributes children =>
    .tag name attributes (nodesLoaded children)
  | .data kind text => .data kind (kind.loaded text)

def nodesLoaded : List Node → List Node
  | [] => []
  | node :: nodes => node.loaded :: nodesLoaded nodes

end

/- Where data may end: at a tag, or at the end -/
def Ends (buf : List Byte) (i : Nat) : Prop :=
  i = buf.length ∨ charAt buf i 0x3c = true

theorem Node.data_loads {kind : DataKind} {text : List Byte}
    {level : Nat} (hWell : (Node.data kind text).WellFormed) (hSize : buf.length < 4294967296)
    (hHas : Has buf i ((Node.data kind text).dump none level))
    (hEnds : (Node.data kind text).isData = true →
      Ends buf (i + ((Node.data kind text).dump none level).length)) :
    Loads buf i [(Node.data kind text).loaded]
      (i + ((Node.data kind text).dump none level).length) := by
  rw [Node.WellFormed] at hWell
  rcases hWell with ⟨hTrimmed, hText⟩
  have hPos := hTrimmed.length_pos
  have hLength := hHas.length_le
  rw [Node.loaded]
  rw [Node.dump_data] at *
  rw [length_append, length_append] at hLength
  cases kind with
  | data =>
    rw [show DataKind.data.before ++ text ++ DataKind.data.behind = text from append_nil _] at *
    refine Loads.of_step (step_data hTrimmed hText hSize hHas (hEnds rfl))
      (by omega) (by omega) fun ctx => ?_
    show some (ctx.add [.data .data (slice buf i (i + text.length))]) = _
    rw [hHas.slice_eq]
    rfl
  | processing =>
    have hPadded : Has buf (i + 2) (padded text) := by
      refine Has.padded ?_
      have hRight : Has buf (i + 2) (text ++ ([0x20] ++ [0x3f, 0x3e])) := by
        rw [append_assoc] at hHas
        exact hHas.right
      rw [← append_assoc] at hRight
      exact hRight.left
    have hStep := step_processing hTrimmed hText hSize hHas
    rw [show i + text.length + 5 = i + (DataKind.processing.before ++
        text ++ DataKind.processing.behind).length by
      simp only [DataKind.before, DataKind.behind, length_append, length_cons, length_nil]
      omega] at hStep
    refine Loads.of_step hStep (by rw [length_append, length_append]; omega)
      (by omega) fun ctx => ?_
    show some (ctx.add [.data .processing (slice buf (i + 2) (i + 2 + (padded text).length))]) = _
    rw [hPadded.slice_eq]
    rfl
  | comment =>
    have hPadded : Has buf (i + 5) (padded text) := by
      refine Has.padded ?_
      have hRight : Has buf (i + 5) (text ++ ([0x20] ++ [0x2d, 0x2d, 0x3e])) := by
        rw [append_assoc] at hHas
        exact hHas.right
      rw [← append_assoc] at hRight
      exact hRight.left
    have hStep := step_comment hTrimmed hText hSize hHas
    rw [show i + text.length + 9 = i + (DataKind.comment.before ++
        text ++ DataKind.comment.behind).length by
      simp only [DataKind.before, DataKind.behind, commentName,
        length_append, length_cons, length_nil]
      omega] at hStep
    refine Loads.of_step hStep (by rw [length_append, length_append]; omega)
      (by omega) fun ctx => ?_
    show some (ctx.add [.data .comment (slice buf (i + 5) (i + 5 + (padded text).length))]) = _
    rw [hPadded.slice_eq]
    rfl
  | cdata => exact hText.elim
  | doctype => exact hText.elim
  | doctypeChild => exact hText.elim

mutual

/- Where a node is dumped, it is loaded. -/
theorem Node.loads (node : Node) {buf : List Byte} {i level : Nat}
    (hWell : node.WellFormed) (hSize : buf.length < 4294967296)
    (hHas : Has buf i (node.dump none level)) (hEnds :
    node.isData = true → Ends buf (i + (node.dump none level).length)) :
    Loads buf i [node.loaded] (i + (node.dump none level).length) := by
  match node with
  | .data kind text => exact Node.data_loads hWell hSize hHas hEnds
  | .tag name attributes [] =>
    rw [Node.WellFormed] at hWell
    rw [Node.dump_emptyTag] at *
    rw [Node.loaded, nodesLoaded]
    have hLoads := Loads.emptyTag hWell.1 hWell.2.1 hSize hHas
    rw [length_cons, length_append]
    exact hLoads
  | .tag name attributes (child :: children) =>
    rw [Node.WellFormed] at hWell
    rw [Node.dump_tag] at *
    rw [Node.loaded]
    have hOpen := hHas.left.left
    have hChildren := hHas.left.right
    have hClose := hHas.right
    have hLt : charAt buf (i + (0x3c :: (tagBody name attributes ++ [0x3e]) ++ childrenDump
        none (level + 1) (child :: children)).length) 0x3c = true := by
      unfold closeDump at hClose
      exact (charAt_of_get hClose.left.left.cons.1 _).trans rfl
    rw [show ∀ bytes : List Byte, (bytes ++ closeDump name).length =
        bytes.length + (closeDump name).length from fun _ =>
        length_append, ← Nat.add_assoc]
    rw [length_append, length_cons, length_append, length_singleton, ← Nat.add_assoc i] at *
    exact Loads.tag hWell.1 hWell.2.1 hSize hOpen (childrenLoads
      (child :: children) hWell.2.2 hSize hChildren (Or.inr hLt)) hClose

/- Where children are dumped, they are loaded. -/
theorem childrenLoads (nodes : List Node) {buf : List Byte} {i level :
    Nat} (hWell : NodesWellFormed nodes) (hSize : buf.length <
    4294967296) (hHas : Has buf i (childrenDump none level nodes))
    (hEnds : Ends buf (i + (childrenDump none level nodes).length)) :
    Loads buf i (nodesLoaded nodes) (i + (childrenDump none level nodes).length) := by
  match nodes with
  | [] =>
    rw [nodesLoaded]
    exact Loads.refl buf i
  | node :: rest =>
    rw [NodesWellFormed] at hWell
    rcases hWell with ⟨hNode, hNext, hRest⟩
    rw [childrenDump] at *
    rw [nodesLoaded]
    have hBehind := hHas.right
    rw [length_append, ← Nat.add_assoc] at *
    show Loads buf i ([node.loaded] ++ nodesLoaded rest) _
    refine Loads.trans (node.loads hNode hSize hHas.left fun hData =>
      ?_) (childrenLoads rest hRest hSize hBehind hEnds)
    match rest with
    | [] => exact hEnds
    | next :: _ =>
      rw [NodesWellFormed] at hRest
      rcases Node.dump_head hRest.1 (hNext next rfl hData) level with ⟨s, hDump⟩
      rw [childrenDump, hDump] at hBehind
      exact Or.inr ((charAt_of_get hBehind.left.cons.1 _).trans rfl)

end

---
-- Texts of a Tree
---

mutual

/- The data nodes of a tree, at any depth -/
def Node.texts : Node → List (DataKind × List Byte)
  | .tag _ _ children => nodesTexts children
  | .data kind text => [(kind, text)]

def nodesTexts : List Node → List (DataKind × List Byte)
  | [] => []
  | node :: nodes => node.texts ++ nodesTexts nodes

end

theorem nodesTexts_append (nodes more : List Node) :
    nodesTexts (nodes ++ more) = nodesTexts nodes ++ nodesTexts more := by
  induction nodes with
  | nil => rfl
  | cons node nodes ih =>
    rw [cons_append, nodesTexts, nodesTexts, ih, append_assoc]

theorem padded_eq_iff (text : List Byte) : padded text = text ↔ text.length ≠ 1 := by
  unfold padded
  split
  · next hOne =>
      refine iff_of_false (fun hEq => ?_) (fun hNe => hNe hOne)
      have hLength := congrArg List.length hEq
      rw [length_append] at hLength
      exact absurd hLength (Nat.succ_ne_self _)
  · next hNe => exact iff_of_true rfl hNe

theorem DataKind.loaded_eq_iff {kind : DataKind} {text : List Byte}
    (hTrimmed : IsTrimmed text) (hText : kind.WellFormed text) :
    kind.loaded text = text ↔ (kind ≠ .data → 2 ≤ text.length) := by
  have hPos := hTrimmed.length_pos
  have hTwo : text.length ≠ 1 ↔ 2 ≤ text.length := by omega
  cases kind with
  | data => exact iff_of_true rfl fun hNe => absurd rfl hNe
  | processing =>
    refine ((padded_eq_iff text).trans hTwo).trans ?_
    exact ⟨fun hLe _ => hLe, fun hLe => hLe nofun⟩
  | comment =>
    refine ((padded_eq_iff text).trans hTwo).trans ?_
    exact ⟨fun hLe _ => hLe, fun hLe => hLe nofun⟩
  | cdata => exact hText.elim
  | doctype => exact hText.elim
  | doctypeChild => exact hText.elim

/- The texts that are not data have two bytes or more. -/
def Long (texts : List (DataKind × List Byte)) : Prop :=
  ∀ t ∈ texts, t.1 ≠ .data → 2 ≤ t.2.length

mutual

theorem Node.loaded_eq_iff (node : Node) (hWell : node.WellFormed) :
    node.loaded = node ↔ Long node.texts := by
  match node with
  | .tag name attributes children =>
    rw [Node.WellFormed] at hWell
    rw [Node.loaded, Node.texts, ← nodesLoaded_eq_iff children hWell.2.2, Node.tag.injEq]
    exact ⟨fun hEq => hEq.2.2, fun hEq => ⟨rfl, rfl, hEq⟩⟩
  | .data kind text =>
    rw [Node.WellFormed] at hWell
    rw [Node.loaded, Node.texts, Node.data.injEq, DataKind.loaded_eq_iff hWell.1 hWell.2]
    unfold Long
    rw [forall_mem_singleton]
    exact ⟨fun hEq => hEq.2, fun hLong => ⟨rfl, hLong⟩⟩

theorem nodesLoaded_eq_iff
    (nodes : List Node) (hWell : NodesWellFormed nodes) :
    nodesLoaded nodes = nodes ↔ Long (nodesTexts nodes) := by
  match nodes with
  | [] => exact iff_of_true rfl nofun
  | node :: rest =>
    rw [NodesWellFormed] at hWell
    rw [nodesLoaded, nodesTexts, cons_eq_cons,
      node.loaded_eq_iff hWell.1, nodesLoaded_eq_iff rest hWell.2.2]
    unfold Long
    exact forall_mem_append.symm

end

---
-- NUL Bytes
---

/- No text has a NUL byte. -/
def NoNul (texts : List (DataKind × List Byte)) : Prop :=
  ∀ t ∈ texts, 0 ∉ t.2

theorem NoNul.append {texts more : List (DataKind × List Byte)}
    (hTexts : NoNul texts) (hMore : NoNul more) : NoNul (texts ++ more) :=
  forall_mem_append.mpr ⟨hTexts, hMore⟩

structure Ctxt.Clean (ctx : Ctxt) : Prop where
  current : ∀ tag ∈ ctx.current, NoNul (nodesTexts tag.children)
  root : NoNul (nodesTexts ctx.root)

theorem Ctxt.Clean.add {ctx : Ctxt} (hClean : ctx.Clean)
    (hNodes : NoNul (nodesTexts nodes)) : (ctx.add nodes).Clean := by
  rcases ctx with ⟨current, root⟩
  rcases hClean with ⟨hCurrent, hRoot⟩
  cases current with
  | nil =>
    refine ⟨hCurrent, ?_⟩
    show NoNul (nodesTexts (root ++ nodes))
    rw [nodesTexts_append]
    exact hRoot.append hNodes
  | cons tag above =>
    refine ⟨?_, hRoot⟩
    refine forall_mem_cons.mpr ⟨?_, (forall_mem_cons.mp hCurrent).2⟩
    show NoNul (nodesTexts (tag.children ++ nodes))
    rw [nodesTexts_append]
    exact (hCurrent tag mem_cons_self).append hNodes

theorem Ctxt.Clean.enter {ctx : Ctxt} (hClean : ctx.Clean)
    (name : List Byte) (attributes : List Attribute) : (ctx.enter name attributes).Clean :=
  ⟨forall_mem_cons.mpr ⟨nofun, hClean.current⟩, hClean.root⟩

theorem Ctxt.Clean.leave {ctx : Ctxt} (hClean : ctx.Clean) : ctx.leave.Clean := by
  rcases ctx with ⟨current, root⟩
  cases current with
  | nil => exact hClean
  | cons tag above =>
    rcases forall_mem_cons.mp hClean.current with ⟨hTag, hAbove⟩
    have hUp : (Ctxt.mk above root).Clean := ⟨hAbove, hClean.root⟩
    refine hUp.add ?_
    rw [nodesTexts, Node.texts]
    exact hTag.append nofun

theorem slice_noNul (hNoNul : 0 ∉ buf) (start last : Nat) : 0 ∉ slice buf start last :=
  fun hMem => hNoNul (mem_of_mem_drop (mem_of_mem_take hMem))

/- Nothing is loaded that was not in the buffer. -/
theorem nodeParse_clean (hNoNul : 0 ∉ buf) {t : Token}
    {ctx ctx' : Ctxt} (hParse : nodeParse buf ctx t = some ctx')
    (hClean : ctx.Clean) : ctx'.Clean := by
  have hText (kind : DataKind) : NoNul (nodesTexts [.data kind
        (slice buf t.offset (t.offset + t.length))]) := by
    rw [nodesTexts, Node.texts]
    exact forall_mem_singleton.mpr (slice_noNul hNoNul _ _)
  unfold nodeParse at hParse
  dsimp only at hParse
  split at hParse
  case h_1 =>
    rcases map_eq_some_iff.mp hParse with ⟨tag, -, rfl⟩
    exact hClean.enter _ _
  case h_2 =>
    rcases map_eq_some_iff.mp hParse with ⟨tag, -, rfl⟩
    exact (hClean.enter _ _).leave
  case h_3 =>
    obtain rfl := some.inj hParse
    unfold closeParse
    split
    · exact hClean
    · dsimp only
      split
      · exact hClean.leave
      · exact hClean
  all_goals obtain rfl := some.inj hParse
  case h_4 => exact hClean.add (hText _)
  case h_5 => exact hClean.add (hText _)
  case h_6 => exact hClean.add (hText _)
  case h_7 => exact hClean.add (hText _)
  case h_8 => exact hClean.add (hText _)
  case h_9 => exact hClean.add (hText _)
  case h_10 => exact hClean
  case h_11 => exact hClean

variable {root : List Node}

theorem closeAll_noNul {current : List OpenTag} (hRoot : NoNul (nodesTexts root))
    (hCurrent : ∀ tag ∈ current, NoNul (nodesTexts tag.children))
    (hNodes : NoNul (nodesTexts nodes)) :
    NoNul (nodesTexts (Ctxt.closeAll root current nodes)) := by
  induction current generalizing nodes with
  | nil =>
    rw [Ctxt.closeAll, nodesTexts_append]
    exact hRoot.append hNodes
  | cons tag above ih =>
    rcases forall_mem_cons.mp hCurrent with ⟨hTag, hAbove⟩
    rw [Ctxt.closeAll]
    refine ih hAbove ?_
    rw [nodesTexts, Node.texts, nodesTexts_append]
    exact (hTag.append hNodes).append nofun

/- What is loaded from a C string has no NUL byte. -/
theorem nodeLoad_noNul (hNoNul : 0 ∉ buf) {strip : Bool}
    (hLoad : nodeLoad buf strip = some root) : NoNul (nodesTexts root) := by
  unfold nodeLoad at hLoad
  split at hLoad
  · exact nomatch hLoad
  · next tokens hParse =>
      rcases map_eq_some_iff.mp hLoad with ⟨ctx, hFold, rfl⟩
      have hInit : (Ctxt.mk [] []).Clean :=
        ⟨fun _ hMem => (nomatch hMem), fun _ hMem => (nomatch hMem)⟩
      have hClean : ctx.Clean :=
        Lists.inv_of_foldlM Ctxt.Clean (fun _ _ _ hClean hStep =>
            nodeParse_clean hNoNul hStep hClean) hInit hFold
      exact closeAll_noNul hClean.root hClean.current nofun

---
-- Round Trips
---

theorem zero_notMem_attributesDump
    (hAttributes : ∀ a ∈ attributes, a.WellFormed) : 0 ∉ attributesDump attributes := by
  induction attributes with
  | nil => exact not_mem_nil
  | cons a attributes ih =>
    rcases forall_mem_cons.mp hAttributes with ⟨hWell, hRest⟩
    rw [attributesDump_cons]
    unfold Attribute.dump
    simp only [mem_append, not_or]
    exact ⟨⟨⟨⟨⟨by decide, hWell.key.zero_notMem⟩, by decide⟩,
      fun hMem => (hWell.value 0 hMem).2 rfl⟩, by decide⟩, ih hRest⟩

theorem zero_notMem_tagBody (hName : IsName name)
    (hAttributes : ∀ a ∈ attributes, a.WellFormed) : 0 ∉ tagBody name attributes := by
  unfold tagBody
  rw [mem_append, not_or]
  exact ⟨hName.zero_notMem, zero_notMem_attributesDump hAttributes⟩

mutual

theorem Node.zero_notMem_dump (node : Node) {level : Nat}
    (hWell : node.WellFormed) (hNoNul : NoNul node.texts) : 0 ∉ node.dump none level := by
  match node with
  | .data kind text =>
    rw [Node.texts] at hNoNul
    have hText := forall_mem_singleton.mp hNoNul
    rw [Node.dump_data]
    simp only [mem_append, not_or]
    cases kind with
    | data => exact ⟨⟨by decide, hText⟩, by decide⟩
    | cdata => exact ⟨⟨by decide, hText⟩, by decide⟩
    | processing => exact ⟨⟨by decide, hText⟩, by decide⟩
    | doctype => exact ⟨⟨by decide, hText⟩, by decide⟩
    | doctypeChild => exact ⟨⟨by decide, hText⟩, by decide⟩
    | comment => exact ⟨⟨by decide, hText⟩, by decide⟩
  | .tag name attributes [] =>
    rw [Node.WellFormed] at hWell
    rw [Node.dump_emptyTag]
    simp only [mem_cons, mem_append, not_or]
    exact ⟨by decide, zero_notMem_tagBody hWell.1 hWell.2.1, by decide, by decide, not_mem_nil⟩
  | .tag name attributes (child :: children) =>
    rw [Node.WellFormed] at hWell
    rw [Node.texts] at hNoNul
    rw [Node.dump_tag]
    unfold closeDump
    have hName := hWell.1.zero_notMem
    simp only [mem_cons, mem_append, not_or]
    exact ⟨⟨⟨by decide, zero_notMem_tagBody hWell.1 hWell.2.1,
      by decide, not_mem_nil⟩, zero_notMem_childrenDump (child ::
      children) hWell.2.2 hNoNul⟩, ⟨⟨by decide, by decide, not_mem_nil⟩,
      hName⟩, by decide, not_mem_nil⟩

theorem zero_notMem_childrenDump (nodes : List Node) {level : Nat} (hWell : NodesWellFormed nodes)
    (hNoNul : NoNul (nodesTexts nodes)) : 0 ∉ childrenDump none level nodes := by
  match nodes with
  | [] => exact not_mem_nil
  | node :: rest =>
    rw [NodesWellFormed] at hWell
    rw [nodesTexts] at hNoNul
    rcases forall_mem_append.mp hNoNul with ⟨hNode, hRest⟩
    rw [childrenDump, mem_append, not_or]
    exact ⟨node.zero_notMem_dump hWell.1 hNode, zero_notMem_childrenDump rest hWell.2.2 hRest⟩

end

/- A dump that is loaded as a whole -/
theorem nodeLoad_childrenDump (hBuf : childrenDump none 0 root = buf)
    (hWell : NodesWellFormed root) (hSize : buf.length < 4294967296) :
    nodeLoad buf true = some (nodesLoaded root) := by
  have hHas : Has buf 0 (childrenDump none 0 root) := by
    rw [hBuf]
    exact Has.whole buf
  have hLoads := childrenLoads root hWell hSize hHas (Or.inl (by rw [hBuf, Nat.zero_add]))
  rw [hBuf, Nat.zero_add] at hLoads
  rcases hLoads with ⟨tokens, hSteps, hFold⟩
  unfold nodeLoad parse
  rw [hSteps.parseFrom rfl (Nat.sub_le _ _), nil_append]
  dsimp only
  rw [hFold, map_some]
  show some ([] ++ nodesLoaded root ++ []) = _
  rw [nil_append, append_nil]

/-
  The dump of a tree is loaded as the same tree if and only if
  its comments and processing nodes have two bytes or more,
  and no text has a NUL, which ends the string.
-/
theorem load_dump_iff (root : List Node) (hWell : NodesWellFormed root)
    (hSize : (nodeDump root none).length < 4294967296) :
    nodeLoad (nodeDump root none) true = some root ↔
      Long (nodesTexts root) ∧ NoNul (nodesTexts root) := by
  constructor
  · intro hLoad
    have hNoNul := nodeLoad_noNul (CStr.zero_notMem_text _) hLoad
    refine ⟨?_, hNoNul⟩
    have hDump : nodeDump root none = childrenDump none 0 root :=
      text_of_noNul fun c hC hZero =>
        zero_notMem_childrenDump root hWell hNoNul (hZero ▸ hC)
    rw [nodeLoad_childrenDump hDump.symm hWell hSize] at hLoad
    exact (nodesLoaded_eq_iff root hWell).mp (some.inj hLoad)
  · rintro ⟨hLong, hNoNul⟩
    have hDump : nodeDump root none = childrenDump none 0 root :=
      text_of_noNul fun c hC hZero =>
        zero_notMem_childrenDump root hWell hNoNul (hZero ▸ hC)
    rw [nodeLoad_childrenDump hDump.symm hWell hSize,
      (nodesLoaded_eq_iff root hWell).mpr hLong]

/- `<b k="1">x</b><!-- ab -->` -/
def sampleTree : List Node :=
  [.tag [0x62] [⟨[0x6b], [0x31]⟩] [.data .data [0x78]],
    .data .comment [0x61, 0x62]]

theorem load_dump_iff_sample :
    nodeLoad (nodeDump sampleTree none) true =
      some sampleTree := by
  refine (load_dump_iff sampleTree ?_ ?_).mpr ⟨?_, ?_⟩
  · simp only [sampleTree, NodesWellFormed, Node.WellFormed]
    refine ⟨⟨⟨by decide, by decide⟩, ?_,
      ⟨⟨by decide, by decide, by decide⟩,
        show 0x3c ∉ _ by decide⟩, by decide, trivial⟩, by decide,
      ⟨⟨by decide, by decide, by decide⟩,
        show ¬ [0x2d, 0x2d] <:+: _ by decide⟩, by decide, trivial⟩
    rw [forall_mem_singleton]
    exact ⟨⟨by decide, by decide⟩, by decide⟩
  · decide
  · unfold Long
    decide
  · unfold NoNul
    decide

/- A comment of one byte: `<!-- a -->` -/
theorem short_comment_is_padded :
    NodesWellFormed [.data .comment [0x61]] ∧
      nodeLoad (nodeDump [.data .comment [0x61]] none) true =
        some [.data .comment [0x61, 0x20]] ∧
      nodeLoad (nodeDump [.data .comment [0x61]] none) true ≠
        some [.data .comment [0x61]] := by
  have hLoad :
      nodeLoad (nodeDump [.data .comment [0x61]] none) true =
        some [.data .comment [0x61, 0x20]] := by
    rfl
  refine ⟨?_, hLoad, ?_⟩
  · simp only [NodesWellFormed, Node.WellFormed]
    exact ⟨⟨⟨by decide, by decide, by decide⟩,
      show ¬ [0x2d, 0x2d] <:+: _ by decide⟩, by decide, trivial⟩
  · rw [hLoad]
    simp

end Efl.Eina.SimpleXml
