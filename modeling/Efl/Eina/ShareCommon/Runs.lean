import Efl.Eina.ShareCommon.Contents

/-
  Runs of the calls on a share.

  Main declarations:
    * `State`, `step`
    * `Correct`, `Countable`
    * `share_correct`
-/

---
-- Steps
---

namespace Efl.Eina.ShareCommon

open Bytes List Option Function

variable {N : Type} [DecidableEq N]

/- A share, and the references that are held to it -/
structure State (N : Type) where
  share : Share N
  held : Held N

def State.start : State N where
  share :=
    { heads :=
        { live := ∅, node := fun _ => { hash := 0, head := none } }
      nodes :=
        { live := ∅
          node := fun _ =>
            { next := none, length := 0, references := 0,
              str := [] } }
      buckets := fun _ =>
        { root := none
          node := fun _ =>
            { son := fun _ => none, color := .red } } }
  held := []

/- A reference that is held is its pointer and its bytes. -/
inductive Op (N : Type) where
  | add (str : List Byte) (nullSize : Nat) (block : Option N)
  | ref (x : Ptr N × List Byte)
  | del (x : Ptr N × List Byte)

def step (hash : List Byte → Int) (st : State N) : Op N → Option (State N)
  | .add str nullSize block => do
    match ← addLength hash block st.share str nullSize with
    | (share, none) => some { st with share := share }
    | (share, some p) =>
      some { share := share, held := (p, str) :: st.held }
  | .ref x => do
    let share ← ref st.share x.1
    some { share := share, held := x :: st.held }
  | .del x => do
    let (share, _) ← del st.share x.1
    some { share := share, held := st.held.erase x }

variable {hash : List Byte → Int} {st : State N}

variable {share : Share N}

theorem step_failed {str : List Byte} {nullSize : Nat} {block : Option N}
    (hAdd : addLength hash block st.share str nullSize =
      some (share, none)) :
    step hash st (.add str nullSize block) = some { st with share := share } := by
  simp [step, hAdd]

theorem step_added {str : List Byte} {nullSize : Nat} {block : Option N} {p : Ptr N}
    (hAdd : addLength hash block st.share str nullSize =
      some (share, some p)) :
    step hash st (.add str nullSize block) =
      some { share := share, held := (p, str) :: st.held } := by
  simp [step, hAdd]

variable {x : Ptr N × List Byte}

theorem step_ref (hRef : ref st.share x.1 = some share) :
    step hash st (.ref x) = some { share := share, held := x :: st.held } := by
  simp [step, hRef]

theorem step_del {ok : Bool}
    (hDel : del st.share x.1 = some (share, ok)) :
    step hash st (.del x) = some { share := share, held := st.held.erase x } := by
  simp [step, hDel]

/-
  A block is a new one, the numbers are of their types, and
  only references that are held are used.
-/
def Allowed (st : State N) : Op N → Prop
  | .add str nullSize block =>
    Fresh st.share block ∧ str.length < 4294967296 ∧
      nullSize ≤ 4
  | .ref x => x ∈ st.held
  | .del x => x ∈ st.held

/-
  The length is an `int`, and one more reference can be
  counted.
-/
def Countable (st : State N) : Op N → Prop
  | .add str _ _ =>
    str.length < 2147483648 ∧
      (st.held.countP fun x => x.2 = str) + 1 < 4294967296
  | .ref x => uses x.1 st.held + 1 < 4294967296
  | .del _ => True

---
-- Sharing
---

/-
  Pointers that are held are the same exactly when their bytes
  are; the bytes are behind them; the counts are right; a node
  is there while it is used, and a head while its list is; and
  each list ends with the node of its head.
-/
structure Correct (st : State N) : Prop where
  same : ∀ x ∈ st.held, ∀ y ∈ st.held, x.1 = y.1 ↔ x.2 = y.2
  bytes : ∀ x ∈ st.held, ∃ node,
    st.share.nodes.read x.1 = some node ∧
      node.length = x.2.length ∧
      node.str.take node.length = x.2
  references : ∀ p node, st.share.nodes.read p = some node →
    node.references = uses p st.held
  own : ∀ n, .own n ∈ st.share.nodes.live ↔
    0 < uses (.own n) st.held
  builtin : ∀ h, .builtin h ∈ st.share.nodes.live ↔
    h ∈ st.share.heads.live
  lists : ∀ h ∈ st.share.heads.live, ∃ ns,
    Chain.Seg (next st.share) (st.share.heads.node h).head
      (members ns h) ∧
    (0 < uses (.builtin h) st.held ∨ ns ≠ [])

/- Any number of zeros may be behind the bytes. -/
abbrev Sharing (hash : List Byte → Int) (st : State N) : Prop :=
  Shared (fun _ => True) hash st.share st.held

theorem correct_of_sharing (hSharing : Sharing hash st) : Correct st := by
  rcases hSharing with ⟨lists, hBase, hUse⟩
  have hContent := hBase.content
  refine ⟨fun x hX y hY => ?_, fun x hX => ?_, fun p node hRead => ?_,
    fun n => ?_, hBase.listed.builtin, fun h hHead => ?_⟩
  · rcases hContent.handle x hX with ⟨hLive, hText⟩
    rcases hContent.handle y hY with ⟨hLive', hText'⟩
    constructor
    · intro hSame
      rw [← hText, ← hText', hSame]
    · intro hSame
      apply hBase.eq_of_text hLive hLive'
      rw [hText, hText', hSame]
  · rcases hContent.handle x hX with ⟨hLive, hText⟩
    rcases hContent.written x.1 hLive with ⟨bs, n, -, hLength, hStr⟩
    refine ⟨_, Heap.read_of_mem hLive, ?_, hText⟩
    rw [← hText]
    unfold text
    rw [hStr, hLength, take_left]
  · by_cases hLive : p ∈ st.share.nodes.live
    · rw [Heap.read_of_mem hLive] at hRead
      rw [← some.inj hRead]
      exact hContent.references p hLive
    · unfold Heap.read at hRead
      rw [if_neg hLive] at hRead
      exact nomatch hRead
  · constructor
    · exact hUse.own n
    · rw [uses_pos_iff]
      rintro ⟨bs, hMem⟩
      exact (hContent.handle _ hMem).1
  · refine ⟨lists h, hBase.listed.chain h hHead, ?_⟩
    by_cases hNil : lists h = []
    · exact Or.inl (hUse.builtin h hHead hNil)
    · exact Or.inr hNil

theorem sharing_start (hash : List Byte → Int) : Sharing hash (State.start : State N) := by
  refine ⟨fun _ => [], ⟨⟨fun h => ?_, fun n => ?_,
    fun h hHead => ?_, fun h hHead => ?_, fun h hHead => ?_⟩,
    ⟨fun p hLive => ?_, fun p hLive => ?_, fun x hMem => ?_,
      fun h hHead => ?_, fun h hHead => ?_, fun h hHead => ?_⟩,
    fun b => ⟨.nil, Rbtree.isTree_empty rfl⟩⟩, ⟨fun n hLive => ?_, fun h hHead => ?_⟩⟩
  · simp [State.start]
  · simp [State.start]
  · simp [State.start] at hHead
  · simp [State.start] at hHead
  · simp [State.start] at hHead
  · simp [State.start] at hLive
  · simp [State.start] at hLive
  · simp [State.start] at hMem
  · simp [State.start] at hHead
  · simp [State.start] at hHead
  · simp [State.start] at hHead
  · simp [State.start] at hLive
  · simp [State.start] at hHead

/- Each call keeps what is shared. -/
theorem step_sharing {op : Op N} (hSharing : Sharing hash st)
    (hAllowed : Allowed st op) (hCountable : Countable st op) :
    ∃ st', step hash st op = some st' ∧ Sharing hash st' := by
  cases op with
  | add str nullSize block =>
    rcases addLength_spec hSharing hAllowed.1 hCountable.1 trivial
      hAllowed.2.2 hCountable.2 with ⟨share, r, hAdd, ⟨rfl, hNext⟩ | ⟨p, rfl, hNext⟩⟩
    · exact ⟨_, step_failed hAdd, hNext⟩
    · exact ⟨_, step_added hAdd, hNext⟩
  | ref x =>
    rcases ref_spec hSharing hAllowed hCountable with ⟨share, hRef, hNext⟩
    exact ⟨_, step_ref hRef, hNext⟩
  | del x =>
    rcases del_spec hSharing hAllowed with ⟨share, hDel, hNext⟩
    exact ⟨_, step_del hDel, hNext⟩

/-
  In every run whose lengths and references can be counted,
  strings are shared.
-/
theorem share_correct {ops : List (Op N)}
    (hOps : Runs.Guarded (step hash)
      (fun st op => Allowed st op ∧ Countable st op) .start ops) :
    ∃ st, Runs.run (step hash) .start ops = some st ∧
      Correct st := by
  rcases Runs.run_of_guarded (Sharing hash) (fun st op hSharing hOk =>
      step_sharing hSharing hOk.1 hOk.2)
    (sharing_start hash) hOps with ⟨st, hRun, hSharing⟩
  exact ⟨st, hRun, correct_of_sharing hSharing⟩

/- All strings have one hash. -/
def oneHash (_ : List Byte) : Int :=
  0

/- Two strings, of which the one with the head goes first -/
def shareSample : List (Op Nat) :=
  [.add [1] 1 (some 10), .add [2] 1 (some 11),
    .del (.builtin 10, [1])]

theorem share_correct_sample :
    ∃ st, Runs.run (step oneHash) .start shareSample = some st ∧
      Correct st := by
  apply share_correct
  refine ⟨⟨⟨?_, by decide, by decide⟩, by decide, by decide⟩,
    fun st₁ hFirst => ?_⟩
  · rintro n hSame
    obtain rfl := some.inj hSame
    decide
  obtain rfl := some.inj hFirst
  refine ⟨⟨⟨?_, by decide, by decide⟩, by decide, by decide⟩,
    fun st₂ hSecond => ?_⟩
  · rintro n hSame
    obtain rfl := some.inj hSame
    decide
  obtain rfl := some.inj hSecond
  refine ⟨⟨show _ ∈ _ by decide, trivial⟩, fun _ _ => trivial⟩

/- Many references to one pointer -/
theorem run_refs {r : Nat} (n : Nat) (hLive : x.1 ∈ st.share.nodes.live)
    (hCount : (st.share.nodes.node x.1).references = r)
    (hSmall : r < 4294967296) :
    ∃ st', Runs.run (step hash) st (List.replicate n (.ref x)) =
        some st' ∧
      st'.held = List.replicate n x ++ st.held ∧
      ∃ node, st'.share.nodes.read x.1 = some node ∧ node.references = (r + n) % 4294967296 := by
  induction n generalizing st r with
  | zero =>
    refine ⟨st, rfl, rfl, _, Heap.read_of_mem hLive, ?_⟩
    rw [hCount, Nat.add_zero, Nat.mod_eq_of_lt hSmall]
  | succ n ih =>
    have hRef : ref st.share x.1 = some (recount st.share x.1 (uintAdd r 1)) := by
      unfold ref addReference
      rw [modify_references (fun n => uintAdd n 1) hLive, hCount]
    have hCount' : ((recount st.share x.1 (uintAdd r 1)).nodes.node
        x.1).references = uintAdd r 1 := by
      show (update st.share.nodes.node x.1 _ x.1).references = _
      rw [update_self]
    let st₁ : State N := ⟨recount st.share x.1 (uintAdd r 1), x :: st.held⟩
    have hLive₁ : x.1 ∈ st₁.share.nodes.live := hLive
    rcases ih hLive₁ hCount' (Nat.mod_lt _ (by omega)) with ⟨st', hRun, hHeld, node, hRead, hRefs⟩
    refine ⟨st', ?_, ?_, node, hRead, ?_⟩
    · rw [replicate_succ, Runs.run_cons, step_ref hRef, bind_some]
      exact hRun
    · rw [hHeld, replicate_succ', append_assoc]
      rfl
    · rw [hRefs]
      unfold uintAdd
      omega

/-
  There are as many references as an `unsigned int` has
  values, and the count is 0.
-/
theorem references_wrap :
    ∃ st : State Nat,
      Runs.run (step oneHash) .start (.add [1] 1 (some 10) ::
        List.replicate 4294967295 (.ref (.builtin 10, [1]))) =
            some st ∧
      uses (.builtin 10) st.held = 4294967296 ∧
      ∃ node, st.share.nodes.read (.builtin 10) = some node ∧
        node.references = 0 := by
  have hAdd : ∃ st₁ : State Nat,
      step oneHash .start (.add [1] 1 (some 10)) = some st₁ ∧
      st₁.held = [(.builtin 10, [1])] ∧
      .builtin 10 ∈ st₁.share.nodes.live ∧
      (st₁.share.nodes.node (.builtin 10)).references = 1 :=
    ⟨_, rfl, rfl, by decide, rfl⟩
  rcases hAdd with ⟨st₁, hStep, hHeld₁, hLive, hCount⟩
  rcases run_refs (x := (.builtin 10, [1])) 4294967295 hLive
    hCount (by omega) with
    ⟨st, hRun, hHeld, node, hRead, hRefs⟩
  refine ⟨st, ?_, ?_, node, hRead, hRefs⟩
  · rw [Runs.run_cons, hStep, bind_some]
    exact hRun
  · unfold uses
    rw [hHeld, hHeld₁, countP_append, countP_replicate,
      if_pos (decide_eq_true rfl)]
    rfl

end Efl.Eina.ShareCommon
