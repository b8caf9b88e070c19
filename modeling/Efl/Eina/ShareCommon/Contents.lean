import Efl.Eina.ShareCommon.Trees

/-
  What is shared: the references that were given out, and what
  each call does to them.

  Main declarations:
    * `uses`
    * `Base`, `InUse`, `Shared`
    * `addLength_spec`, `ref_spec`, `del_spec`
-/

---
-- References
---

namespace Efl.Eina.ShareCommon

open Bytes List

variable {N : Type} [DecidableEq N]

/-
  The references that were given out and not taken back, each
  with the bytes that were asked for
-/
abbrev Held (N : Type) :=
  List (Ptr N × List Byte)

/- How many of them a pointer has -/
def uses (p : Ptr N) (held : Held N) : Nat :=
  held.countP fun x => x.1 = p

@[simp] theorem uses_cons_self
    (p : Ptr N) (bs : List Byte) (held : Held N) : uses p ((p, bs) :: held) = uses p held + 1 := by
  simp [uses]

variable {p q : Ptr N}

theorem uses_cons_ne (bs : List Byte) (held : Held N) (hOther : q ≠ p) :
    uses q ((p, bs) :: held) = uses q held := by
  simp [uses, Ne.symm hOther]

theorem uses_pos_iff {held : Held N} : 0 < uses p held ↔ ∃ bs, (p, bs) ∈ held := by
  unfold uses
  rw [countP_pos_iff]
  constructor
  · rintro ⟨⟨q, bs⟩, hMem, hSame⟩
    obtain rfl : q = p := of_decide_eq_true hSame
    exact ⟨bs, hMem⟩
  · rintro ⟨bs, hMem⟩
    exact ⟨(p, bs), hMem, decide_eq_true rfl⟩

variable {bs : List Byte}

theorem uses_erase_self {held : Held N} (hMem : (p, bs) ∈ held) :
    uses p held = uses p (held.erase (p, bs)) + 1 := by
  unfold uses
  rw [(perm_cons_erase hMem).countP_eq]
  simp

theorem uses_erase_ne {held : Held N} (hMem : (p, bs) ∈ held)
    (hOther : q ≠ p) : uses q (held.erase (p, bs)) = uses q held := by
  have hPerm := (perm_cons_erase hMem).countP_eq (fun x : Ptr N × List Byte => decide (x.1 = q))
  unfold uses
  rw [hPerm]
  simp [Ne.symm hOther]

/-
  A node has its bytes, and as many zeros behind them as were
  asked for.
-/
def Written (K : Nat → Prop) (node : Node N) : Prop :=
  ∃ bs n, K n ∧ node.length = bs.length ∧
    node.str = bs ++ List.replicate n 0

omit [DecidableEq N] in
theorem nodeEq_iff {K : Nat → Prop} {node : Node N}
    (hWritten : Written K node) (str : List Byte) : nodeEq node str = true ↔ text node = str := by
  rcases hWritten with ⟨bs, n, -, hLength, hStr⟩
  have hText : text node = bs := by
    unfold text
    rw [hStr, hLength, take_left]
  unfold nodeEq
  rw [hText, hLength, hStr, decide_eq_true_eq]
  constructor
  · rintro ⟨hSame, hTake⟩
    rw [← hSame, take_left] at hTake
    exact hTake
  · rintro rfl
    exact ⟨rfl, take_left⟩

---
-- Contents
---

/-
  The counts are those of the references that are held, and
  the nodes of a list have the hash of its head and different
  bytes.
-/
structure Content (K : Nat → Prop) (hash : List Byte → Int) (s : Share N)
    (held : Held N) (lists : N → List N) : Prop where
  references : ∀ p ∈ s.nodes.live,
    (s.nodes.node p).references = uses p held
  written : ∀ p ∈ s.nodes.live, Written K (s.nodes.node p)
  handle : ∀ x ∈ held,
    x.1 ∈ s.nodes.live ∧ text (s.nodes.node x.1) = x.2
  bucket : ∀ h ∈ s.heads.live, ∀ p ∈ members (lists h) h,
    bucketIdx (hash (text (s.nodes.node p))) =
      bucketIdx (s.heads.node h).hash
  hash : ∀ h ∈ s.heads.live, ∀ p ∈ members (lists h) h,
    nodeHash (hash (text (s.nodes.node p))) =
      nodeHash (s.heads.node h).hash
  distinct : ∀ h ∈ s.heads.live,
    ∀ p ∈ members (lists h) h, ∀ q ∈ members (lists h) h,
      text (s.nodes.node p) = text (s.nodes.node q) → p = q

/- The lists, the trees and the contents -/
structure Base (K : Nat → Prop) (hash : List Byte → Int) (s : Share N) (held : Held N)
    (lists : N → List N) : Prop where
  listed : Listed s lists
  content : Content K hash s held lists
  bucketed : Bucketed s

/- Only a built-in node may be in a list that is not used. -/
structure InUse (s : Share N) (held : Held N) (lists : N → List N) : Prop where
  own : ∀ n, .own n ∈ s.nodes.live → 0 < uses (.own n) held
  builtin : ∀ h ∈ s.heads.live, lists h = [] →
    0 < uses (.builtin h) held

/- What holds between the calls -/
def Shared (K : Nat → Prop) (hash : List Byte → Int) (s : Share N) (held : Held N) : Prop :=
  ∃ lists, Base K hash s held lists ∧ InUse s held lists

variable {K : Nat → Prop} {hash : List Byte → Int}
variable {s s' : Share N} {held : Held N} {lists : N → List N}

variable {lists' : N → List N}

omit [DecidableEq N] in
theorem mem_members_of_iff (hSame : ∀ k n, n ∈ lists' k ↔ n ∈ lists k)
    {h : N} : p ∈ members (lists' h) h ↔ p ∈ members (lists h) h := by
  cases p with
  | builtin k => rw [mem_members_builtin, mem_members_builtin]
  | own n => rw [mem_members_own, mem_members_own, hSame]

/- Other links and lists with the same nodes -/
theorem Content.relinked (hContent : Content K hash s held lists) (hLinks : Relinked s s')
    (hSame : ∀ k n, n ∈ lists' k ↔ n ∈ lists k) : Content K hash s' held lists' where
  references p hLive := by
    rw [hLinks.nodesLive] at hLive
    rw [hLinks.references]
    exact hContent.references p hLive
  written p hLive := by
    rw [hLinks.nodesLive] at hLive
    rcases hContent.written p hLive with ⟨bs, n, hK, hLength, hStr⟩
    exact ⟨bs, n, hK, (hLinks.length p).trans hLength, (hLinks.str p).trans hStr⟩
  handle x hMem := by
    rw [hLinks.nodesLive, hLinks.text]
    exact hContent.handle x hMem
  bucket h hHead p hMem := by
    rw [hLinks.headsLive] at hHead
    rw [hLinks.text, hLinks.hash]
    exact hContent.bucket h hHead p ((mem_members_of_iff hSame).mp hMem)
  hash h hHead p hMem := by
    rw [hLinks.headsLive] at hHead
    rw [hLinks.text, hLinks.hash]
    exact hContent.hash h hHead p ((mem_members_of_iff hSame).mp hMem)
  distinct h hHead p hP q hQ := by
    rw [hLinks.headsLive] at hHead
    rw [hLinks.text, hLinks.text]
    exact hContent.distinct h hHead p ((mem_members_of_iff hSame).mp hP) q
      ((mem_members_of_iff hSame).mp hQ)

theorem Relinked.bucketed (hLinks : Relinked s s') (hBucketed : Bucketed s) : Bucketed s' :=
  hBucketed.congr hLinks.headsLive hLinks.hash hLinks.buckets

theorem InUse.relinked (hUse : InUse s held lists) (hLinks : Relinked s s')
    (hSame : ∀ k n, n ∈ lists' k ↔ n ∈ lists k) : InUse s' held lists' where
  own n hLive := by
    rw [hLinks.nodesLive] at hLive
    exact hUse.own n hLive
  builtin h hHead hNil := by
    rw [hLinks.headsLive] at hHead
    apply hUse.builtin h hHead
    apply eq_nil_iff_forall_not_mem.mpr
    intro n hMem
    have hIn := (hSame h n).mpr hMem
    rw [hNil] at hIn
    exact nomatch hIn

/- Nodes with the same bytes are one node. -/
theorem Base.eq_of_text (hBase : Base K hash s held lists)
    (hP : p ∈ s.nodes.live) (hQ : q ∈ s.nodes.live)
    (hText : text (s.nodes.node p) = text (s.nodes.node q)) : p = q := by
  rcases (hBase.listed.live_iff p).mp hP with ⟨h, hHead, hMem⟩
  rcases (hBase.listed.live_iff q).mp hQ with ⟨k, hOther, hMem'⟩
  have hContent := hBase.content
  have hSame : h = k := by
    apply hBase.bucketed.eq_of_hash hHead hOther
    · rw [← hContent.bucket h hHead p hMem, hText, hContent.bucket k hOther q hMem']
    · rw [← hContent.hash h hHead p hMem, hText, hContent.hash k hOther q hMem']
  subst hSame
  exact hContent.distinct h hHead p hMem q hMem' hText

/- Another count, for other references that are held -/
theorem Base.recounted {held' : Held N} (hBase : Base K hash s held lists)
    (hOther : ∀ q, q ≠ p → uses q held' = uses q held) (hHandle : ∀ x ∈ held',
      x.1 ∈ s.nodes.live ∧ text (s.nodes.node x.1) = x.2) :
    Base K hash (recount s p (uses p held')) held' lists := by
  have hNode : ∀ r, (recount s p (uses p held')).nodes.node r =
      if r = p then
        { s.nodes.node p with references := uses p held' }
      else s.nodes.node r := fun r => Function.update_apply _ _ _ _
  have hText : ∀ r, text ((recount s p (uses p held')).nodes.node r) = text (s.nodes.node r) := by
    intro r
    rw [hNode]
    split
    case isTrue hSame =>
      rw [hSame]
      rfl
    case isFalse => rfl
  have hListed := hBase.listed
  have hContent := hBase.content
  refine ⟨⟨hListed.builtin, hListed.own, hListed.nodup, hListed.apart, fun h hHead => ?_⟩,
    ⟨fun r hLive => ?_, fun r hLive => ?_, fun x hMem => ?_,
      fun h hHead r hMem => ?_, fun h hHead r hMem => ?_,
      fun h hHead r hR t hT => ?_⟩, hBase.bucketed.congr rfl (fun _ => rfl) rfl⟩
  · rw [next_recount]
    exact hListed.chain h hHead
  · rw [hNode]
    split
    case isTrue hSame => rw [hSame]
    case isFalse hApart =>
      rw [hOther r hApart]
      exact hContent.references r hLive
  · rw [hNode]
    split
    case isTrue hSame =>
      rw [hSame] at hLive
      exact hContent.written p hLive
    case isFalse => exact hContent.written r hLive
  · rw [hText]
    exact hHandle x hMem
  · rw [hText]
    exact hContent.bucket h hHead r hMem
  · rw [hText]
    exact hContent.hash h hHead r hMem
  · rw [hText, hText]
    exact hContent.distinct h hHead r hR t hT

---
-- Adding
---

open Option Function

/- The references to a string are those of its node. -/
theorem Base.uses_le (hBase : Base K hash s held lists) (p : Ptr N) :
    uses p held ≤ held.countP fun x => x.2 = text (s.nodes.node p) := by
  apply countP_mono_left
  intro x hMem hSame
  rw [decide_eq_true_eq] at hSame ⊢
  rw [← (hBase.content.handle x hMem).2, hSame]

/- One more reference to a node -/
theorem addReference_spec (hBase : Base K hash s held lists)
    (hUse : InUse s held lists) (hLive : p ∈ s.nodes.live)
    (hCount : uses p held + 1 < 4294967296) :
    ∃ s', addReference s p = some s' ∧ Base K hash s'
      ((p, text (s.nodes.node p)) :: held) lists ∧
      InUse s' ((p, text (s.nodes.node p)) :: held) lists := by
  have hRefs := hBase.content.references p hLive
  unfold addReference
  rw [modify_references (fun n => uintAdd n 1) hLive, hRefs,
    show uintAdd (uses p held) 1 = uses p held + 1 from
      Nat.mod_eq_of_lt hCount, ← uses_cons_self p (text (s.nodes.node p)) held]
  refine ⟨_, rfl, hBase.recounted ?_ ?_, ?_, ?_⟩
  · exact fun q hOther => uses_cons_ne _ _ hOther
  · intro x hMem
    rcases mem_cons.mp hMem with rfl | hMem
    · exact ⟨hLive, rfl⟩
    · exact hBase.content.handle x hMem
  · intro n hOwn
    by_cases hSame : .own n = p
    · rw [hSame, uses_cons_self]
      exact Nat.succ_pos _
    · rw [uses_cons_ne _ _ hSame]
      exact hUse.own n hOwn
  · intro h hHead hNil
    by_cases hSame : .builtin h = p
    · rw [hSame, uses_cons_self]
      exact Nat.succ_pos _
    · rw [uses_cons_ne _ _ hSame]
      exact hUse.builtin h hHead hNil

/- The node that `nodeInit` fills -/
def newNode (str : List Byte) (nullSize : Nat) : Node N where
  next := none
  length := str.length
  references := 1
  str := str ++ List.replicate nullSize 0

omit [DecidableEq N] in
theorem text_newNode (str : List Byte) (nullSize : Nat) :
    text (newNode str nullSize : Node N) = str := take_left

variable {room nullSize : Nat} {str : List Byte}

/- The lengths for which an `int` is enough -/
theorem nodeInit_spec (N : Type) (hLength : str.length < 2147483648)
    (hRoom : str.length + nullSize ≤ room) :
    (nodeInit room str nullSize : Option (Node N)) = some (newNode str nullSize) := by
  have hSize : sizeOfInt str.length = str.length := if_pos hLength
  unfold nodeInit
  rw [hSize]
  exact if_pos ⟨rfl, hRoom⟩

variable {block : Option N}

omit [DecidableEq N] in
/- A head that is allocated has room for the string. -/
theorem headAlloc_spec {slen : Nat} {h : N} (hLength : slen < 2147483648) (hNull : nullSize ≤ 4)
    (hAlloc : headAlloc block (uintAdd slen nullSize) =
      some (h, room)) : block = some h ∧ slen + nullSize ≤ room := by
  have hSum : uintAdd slen nullSize = slen + nullSize := Nat.mod_eq_of_lt (by omega)
  unfold headAlloc malloc headSize at hAlloc
  dsimp only at hAlloc
  rw [hSum] at hAlloc
  by_cases hSmall : slen + nullSize < 2147483648
  · rw [show sizeOfInt (slen + nullSize) = slen + nullSize from
        if_pos hSmall, CSize.add_of_lt (by unfold CSize.bound; omega),
      if_pos (by unfold CSize.blockMax; omega), map_eq_some_iff] at hAlloc
    rcases hAlloc with ⟨k, hBlock, hSame⟩
    rw [Prod.mk.injEq] at hSame
    rcases hSame with ⟨rfl, rfl⟩
    exact ⟨hBlock, by omega⟩
  · -- The `int` is below 0, and no block is so large.
    have hSize : sizeOfInt (slen + nullSize) = slen + nullSize + 18446744069414584320 := by
      unfold sizeOfInt CSize.sub CSize.bound
      rw [if_neg hSmall]
      omega
    rw [hSize, CSize.add_of_lt (by unfold CSize.bound; omega),
      if_neg (by unfold CSize.blockMax; omega)] at hAlloc
    exact nomatch hAlloc

omit [DecidableEq N] in
theorem nodeAlloc_spec {slen : Nat} {n : N} (hLength : slen < 2147483648) (hNull : nullSize ≤ 4)
    (hAlloc : nodeAlloc block slen nullSize = some (n, room)) :
    block = some n ∧ slen + nullSize ≤ room := by
  have hSize : CSize.add (CSize.add nodeSize slen) nullSize = nodeSize + slen + nullSize := by
    unfold nodeSize CSize.add CSize.bound
    omega
  unfold nodeAlloc malloc at hAlloc
  dsimp only at hAlloc
  unfold CSize.blockMax at hAlloc
  rw [hSize, if_pos (by unfold nodeSize; omega), map_eq_some_iff] at hAlloc
  rcases hAlloc with ⟨k, hBlock, hSame⟩
  rw [Prod.mk.injEq] at hSame
  rcases hSame with ⟨rfl, rfl⟩
  exact ⟨hBlock, by omega⟩

/- An address that is neither of a head nor of a node -/
def Fresh (s : Share N) (block : Option N) : Prop :=
  ∀ n, block = some n →
    n ∉ s.heads.live ∧ .own n ∉ s.nodes.live

section

variable (hBase : Base K hash s held lists)

include hBase

section

variable (hUse : InUse s held lists)

include hUse

/- A new head, with the node that is built into it -/
theorem Base.withHead {h : N} (hNew : h ∉ s.heads.live)
    (hK : K nullSize) (hHeads : s'.heads = s.heads.alloc h
      { hash := hash str, head := some (.builtin h) })
    (hNodes : s'.nodes = s.nodes.alloc (.builtin h) (newNode str nullSize))
    (hBucketed : Bucketed s') : Shared K hash s' ((.builtin h, str) :: held) := by
  have hListed := hBase.listed
  have hContent := hBase.content
  have hNewNode : .builtin h ∉ s.nodes.live := fun hLive => hNew ((hListed.builtin h).mp hLive)
  have hHeadsLive : s'.heads.live = insert h s.heads.live := by
    rw [hHeads, Heap.live_alloc]
  have hNodesLive : s'.nodes.live = insert (.builtin h) s.nodes.live := by
    rw [hNodes, Heap.live_alloc]
  have hNodeSelf : s'.nodes.node (.builtin h) = newNode str nullSize := by
    rw [hNodes, Heap.node_alloc, update_self]
  have hNodeOther : ∀ p ∈ s.nodes.live, s'.nodes.node p = s.nodes.node p := by
    intro p hLive
    rw [hNodes, Heap.node_alloc, update_of_ne]
    rintro rfl
    exact hNewNode hLive
  have hHeadSelf : s'.heads.node h = { hash := hash str, head := some (.builtin h) } := by
    rw [hHeads, Heap.node_alloc, update_self]
  have hHeadOther : ∀ k ∈ s.heads.live, k ≠ h ∧ s'.heads.node k = s.heads.node k := by
    intro k hLive
    have hApart : k ≠ h := by
      rintro rfl
      exact hNew hLive
    rw [hHeads, Heap.node_alloc, update_of_ne hApart]
    exact ⟨hApart, rfl⟩
  have hNone : uses (.builtin h) held = 0 := by
    rw [← Nat.le_zero, ← Nat.not_lt, uses_pos_iff]
    rintro ⟨bs, hMem⟩
    exact hNewNode (hContent.handle _ hMem).1
  have hUses : ∀ p ∈ s.nodes.live, uses p ((.builtin h, str) :: held) = uses p held := by
    intro p hLive
    apply uses_cons_ne
    rintro rfl
    exact hNewNode hLive
  have hLiveMem : ∀ k ∈ s.heads.live, ∀ p ∈ members (lists k) k, p ∈ s.nodes.live :=
    fun k hK p hMem => (hListed.live_iff p).mpr ⟨k, hK, hMem⟩
  -- A member of a list is the new node, or was one before.
  have hMember : ∀ k ∈ s'.heads.live, ∀ p ∈ members (update lists h [] k) k,
    (k = h ∧ p = .builtin h) ∨ (k ∈ s.heads.live ∧ p ∈ members (lists k) k) := by
    intro k hLive p hMem
    rw [hHeadsLive, Finset.mem_insert] at hLive
    rcases hLive with rfl | hLive
    · rw [update_self] at hMem
      exact Or.inl ⟨rfl, mem_singleton.mp hMem⟩
    · rw [update_of_ne (hHeadOther k hLive).1] at hMem
      exact Or.inr ⟨hLive, hMem⟩
  refine ⟨update lists h [], ⟨⟨fun k => ?_, fun n => ?_, fun k hK => ?_,
    fun j hJ k hK n hIn hIn' => ?_, fun k hK => ?_⟩,
    ⟨fun p hLive => ?_, fun p hLive => ?_, fun x hMem => ?_,
      fun k hK p hMem => ?_, fun k hK p hMem => ?_, fun k hK p hP q hQ hText => ?_⟩, hBucketed⟩,
    ⟨fun n hLive => ?_, fun k hK hNil => ?_⟩⟩
  · rw [hNodesLive, hHeadsLive, Finset.mem_insert,
      Finset.mem_insert, hListed.builtin, Ptr.builtin.injEq]
  · rw [hNodesLive, hHeadsLive, Finset.mem_insert, hListed.own]
    constructor
    · rintro (hSame | ⟨k, hLive, hIn⟩)
      · exact nomatch hSame
      · refine ⟨k, Finset.mem_insert_of_mem hLive, ?_⟩
        rw [update_of_ne (hHeadOther k hLive).1]
        exact hIn
    · rintro ⟨k, hLive, hIn⟩
      rcases Finset.mem_insert.mp hLive with rfl | hLive
      · rw [update_self] at hIn
        exact nomatch hIn
      · rw [update_of_ne (hHeadOther k hLive).1] at hIn
        exact Or.inr ⟨k, hLive, hIn⟩
  · rw [hHeadsLive] at hK
    rcases Finset.mem_insert.mp hK with rfl | hLive
    · rw [update_self]
      exact nodup_nil
    · rw [update_of_ne (hHeadOther k hLive).1]
      exact hListed.nodup k hLive
  · rw [hHeadsLive] at hJ hK
    rcases Finset.mem_insert.mp hJ with rfl | hLive
    · rw [update_self] at hIn
      exact nomatch hIn
    rcases Finset.mem_insert.mp hK with rfl | hLive'
    · rw [update_self] at hIn'
      exact nomatch hIn'
    rw [update_of_ne (hHeadOther j hLive).1] at hIn
    rw [update_of_ne (hHeadOther k hLive').1] at hIn'
    exact hListed.apart j hLive k hLive' n hIn hIn'
  · rw [hHeadsLive] at hK
    rcases Finset.mem_insert.mp hK with rfl | hLive
    · rw [update_self, hHeadSelf]
      refine ⟨rfl, ?_⟩
      show (s'.nodes.node (.builtin k)).next = none
      rw [hNodeSelf]
      rfl
    · rw [update_of_ne (hHeadOther k hLive).1, (hHeadOther k hLive).2]
      apply (hListed.chain k hLive).congr
      intro p hMem
      show (s'.nodes.node p).next = _
      rw [hNodeOther p (hLiveMem k hLive p hMem)]
      rfl
  · rw [hNodesLive] at hLive
    rcases Finset.mem_insert.mp hLive with rfl | hLive
    · rw [hNodeSelf, uses_cons_self, hNone]
      rfl
    · rw [hNodeOther p hLive, hUses p hLive]
      exact hContent.references p hLive
  · rw [hNodesLive] at hLive
    rcases Finset.mem_insert.mp hLive with rfl | hLive
    · rw [hNodeSelf]
      exact ⟨str, nullSize, hK, rfl, rfl⟩
    · rw [hNodeOther p hLive]
      exact hContent.written p hLive
  · rw [hNodesLive]
    rcases mem_cons.mp hMem with rfl | hMem
    · dsimp only
      rw [hNodeSelf]
      exact ⟨Finset.mem_insert_self _ _, text_newNode _ _⟩
    · rcases hContent.handle x hMem with ⟨hLive, hText⟩
      rw [hNodeOther _ hLive]
      exact ⟨Finset.mem_insert_of_mem hLive, hText⟩
  · rcases hMember k hK p hMem with ⟨rfl, rfl⟩ | ⟨hLive, hOld⟩
    · rw [hNodeSelf, text_newNode, hHeadSelf]
    · rw [hNodeOther p (hLiveMem k hLive p hOld), (hHeadOther k hLive).2]
      exact hContent.bucket k hLive p hOld
  · rcases hMember k hK p hMem with ⟨rfl, rfl⟩ | ⟨hLive, hOld⟩
    · rw [hNodeSelf, text_newNode, hHeadSelf]
    · rw [hNodeOther p (hLiveMem k hLive p hOld), (hHeadOther k hLive).2]
      exact hContent.hash k hLive p hOld
  · rcases hMember k hK p hP with ⟨rfl, rfl⟩ | ⟨hLive, hOld⟩
    · rcases hMember k hK q hQ with ⟨-, rfl⟩ | ⟨hLive, -⟩
      · rfl
      · exact absurd hLive hNew
    · rcases hMember k hK q hQ with ⟨rfl, -⟩ | ⟨-, hOld'⟩
      · exact absurd hLive hNew
      · rw [hNodeOther p (hLiveMem k hLive p hOld),
          hNodeOther q (hLiveMem k hLive q hOld')] at hText
        exact hContent.distinct k hLive p hOld q hOld' hText
  · rw [hNodesLive] at hLive
    rcases Finset.mem_insert.mp hLive with hSame | hLive
    · exact nomatch hSame
    · rw [hUses _ hLive]
      exact hUse.own n hLive
  · rw [hHeadsLive] at hK
    rcases Finset.mem_insert.mp hK with rfl | hLive
    · rw [uses_cons_self]
      exact Nat.succ_pos _
    · rw [hUses _ ((hListed.builtin k).mpr hLive)]
      rw [update_of_ne (hHeadOther k hLive).1] at hNil
      exact hUse.builtin k hLive hNil

/- A string whose hash has no head yet -/
theorem addHead_spec (hFresh : Fresh s block) (hLength : str.length < 2147483648) (hK : K nullSize)
    (hNull : nullSize ≤ 4) (hNone : ∀ h ∈ s.heads.live,
      bucketIdx (s.heads.node h).hash = bucketIdx (hash str) →
      nodeHash (s.heads.node h).hash ≠ nodeHash (hash str)) :
    ∃ s' r, addHead block s (bucketIdx (hash str)) (hash str) str
      nullSize = some (s', r) ∧
      ((r = none ∧ Shared K hash s' held) ∨
        ∃ p, r = some p ∧ Shared K hash s' ((p, str) :: held)) := by
  unfold addHead
  cases hAlloc : headAlloc block (uintAdd str.length nullSize) with
  | none => exact ⟨s, none, rfl, Or.inl ⟨rfl, lists, hBase, hUse⟩⟩
  | some found =>
    rcases found with ⟨h, room⟩
    rcases headAlloc_spec hLength hNull hAlloc with ⟨hBlock, hRoom⟩
    have hNew : h ∉ s.heads.live := (hFresh h hBlock).1
    let head : Head N := { hash := hash str, head := some (.builtin h) }
    let s₁ : Share N :=
      { s with
        heads := s.heads.alloc h head
        nodes := s.nodes.alloc (.builtin h) (newNode str nullSize) }
    have hHeads : s₁.heads = s.heads.alloc h head := rfl
    rcases hBase.bucketed.insert hNew hNone hHeads with ⟨tree, hInsert, hBucketed⟩
    have hInsert' : Rbtree.inlineInsert (nodeCmp s₁)
        (s₁.buckets (bucketIdx (hash str))) h = some tree := hInsert
    dsimp only
    rw [nodeInit_spec N hLength hRoom, bind_some]
    unfold putHead
    dsimp only
    rw [hInsert', bind_eq_bind, bind_some]
    refine ⟨_, _, rfl, Or.inr ⟨_, rfl, ?_⟩⟩
    exact hBase.withHead hUse hNew hK rfl rfl hBucketed

/- A new node in front of the list of its head -/
theorem Base.withNode {h n : N} (hHead : h ∈ s.heads.live)
    (hNew : .own n ∉ s.nodes.live) (hK : K nullSize)
    (hIdx : bucketIdx (s.heads.node h).hash = bucketIdx (hash str))
    (hHash : nodeHash (s.heads.node h).hash = nodeHash (hash str))
    (hOther : ∀ p ∈ members (lists h) h, text (s.nodes.node p) ≠ str)
    (hHeads : s'.heads = s.heads.set h { s.heads.node h with head := some (.own n) })
    (hNodes : s'.nodes = s.nodes.alloc (.own n)
      { (newNode str nullSize : Node N) with
        next := (s.heads.node h).head })
    (hBuckets : s'.buckets = s.buckets) : Shared K hash s' ((.own n, str) :: held) := by
  have hListed := hBase.listed
  have hContent := hBase.content
  have hHeadsLive : s'.heads.live = s.heads.live := by
    rw [hHeads, Heap.live_set]
  have hNodesLive : s'.nodes.live = insert (.own n) s.nodes.live := by
    rw [hNodes, Heap.live_alloc]
  have hNodeSelf : s'.nodes.node (.own n) =
      { (newNode str nullSize : Node N) with
        next := (s.heads.node h).head } := by
    rw [hNodes, Heap.node_alloc, update_self]
  have hTextSelf : text (s'.nodes.node (.own n)) = str := by
    rw [hNodeSelf]
    exact take_left
  have hNodeOther : ∀ p, p ≠ .own n → s'.nodes.node p = s.nodes.node p := by
    intro p hApart
    rw [hNodes, Heap.node_alloc, update_of_ne hApart]
  have hLiveOther : ∀ p ∈ s.nodes.live, p ≠ .own n := by
    rintro p hLive rfl
    exact hNew hLive
  have hHeadHash : ∀ k, (s'.heads.node k).hash = (s.heads.node k).hash := by
    intro k
    rw [hHeads, Heap.node_set, update_apply]
    split
    case isTrue hSame => rw [hSame]
    case isFalse => rfl
  have hUses : ∀ p ∈ s.nodes.live, uses p ((.own n, str) :: held) = uses p held :=
    fun p hLive => uses_cons_ne _ _ (hLiveOther p hLive)
  have hNone : uses (.own n) held = 0 := by
    rw [← Nat.le_zero, ← Nat.not_lt, uses_pos_iff]
    rintro ⟨bs, hMem⟩
    exact hNew (hContent.handle _ hMem).1
  have hNotIn : n ∉ lists h := fun hMem =>
    hNew ((hListed.own n).mpr ⟨h, hHead, hMem⟩)
  have hLiveMem : ∀ k ∈ s.heads.live, ∀ p ∈ members (lists k) k, p ∈ s.nodes.live :=
    fun k hK p hMem => (hListed.live_iff p).mpr ⟨k, hK, hMem⟩
  have hNext : next s' = update (next s) (.own n) (s.heads.node h).head := by
    funext p
    unfold next
    rw [hNodes, Heap.node_alloc, update_apply, update_apply]
    split <;> rfl
  have hListed' : Listed s' (update lists h (n :: lists h)) := by
    refine hListed.replace hHead hHeadsLive (fun k => ?_) (fun m => ?_)
      (nodup_cons.mpr ⟨hNotIn, hListed.nodup h hHead⟩) (fun m hMem => ?_) ?_ (fun k hK hApart => ?_)
    · rw [hNodesLive, Finset.mem_insert]
      exact or_iff_right fun hSame => (nomatch hSame)
    · rw [hNodesLive, Finset.mem_insert, mem_cons, Ptr.own.injEq]
      constructor
      · rintro (rfl | hLive)
        · exact Or.inl (Or.inl rfl)
        · by_cases hMem : m ∈ lists h
          · exact Or.inl (Or.inr hMem)
          · exact Or.inr ⟨hLive, hMem⟩
      · rintro ((rfl | hMem) | ⟨hLive, -⟩)
        · exact Or.inl rfl
        · exact Or.inr ((hListed.own m).mpr ⟨h, hHead, hMem⟩)
        · exact Or.inr hLive
    · rcases mem_cons.mp hMem with rfl | hMem
      · exact Or.inr hNew
      · exact Or.inl hMem
    · rw [hHeads, Heap.node_set, update_self, hNext]
      apply (hListed.chain h hHead).push
      rw [mem_members_own]
      exact hNotIn
    · rw [hHeads, Heap.node_set, update_of_ne hApart, hNext]
      apply (hListed.chain k hK).update
      exact fun hMem => hNew (hLiveMem k hK _ hMem)
  -- A member of a list is the new node, or was one before.
  have hMember : ∀ k ∈ s'.heads.live, ∀ p ∈ members (update lists h (n :: lists h) k) k,
    k ∈ s.heads.live ∧ ((k = h ∧ p = .own n) ∨ p ∈ members (lists k) k) := by
    intro k hLive p hMem
    rw [hHeadsLive] at hLive
    refine ⟨hLive, ?_⟩
    by_cases hSame : k = h
    · subst hSame
      rw [update_self] at hMem
      rcases mem_cons.mp hMem with rfl | hMem
      · exact Or.inl ⟨rfl, rfl⟩
      · exact Or.inr hMem
    · rw [update_of_ne hSame] at hMem
      exact Or.inr hMem
  have hOldNode : ∀ k ∈ s.heads.live, ∀ p ∈ members (lists k) k, s'.nodes.node p = s.nodes.node p :=
    fun k hK p hMem =>
      hNodeOther p (hLiveOther p (hLiveMem k hK p hMem))
  refine ⟨_, ⟨hListed', ⟨fun p hLive => ?_, fun p hLive => ?_, fun x hMem => ?_,
    fun k hK p hMem => ?_, fun k hK p hMem => ?_, fun k hK p hP q hQ hText => ?_⟩,
    hBase.bucketed.congr hHeadsLive hHeadHash hBuckets⟩, ⟨fun m hLive => ?_, fun k hK hNil => ?_⟩⟩
  · rw [hNodesLive] at hLive
    rcases Finset.mem_insert.mp hLive with rfl | hLive
    · rw [hNodeSelf, uses_cons_self, hNone]
      rfl
    · rw [hNodeOther p (hLiveOther p hLive), hUses p hLive]
      exact hContent.references p hLive
  · rw [hNodesLive] at hLive
    rcases Finset.mem_insert.mp hLive with rfl | hLive
    · rw [hNodeSelf]
      exact ⟨str, nullSize, hK, rfl, rfl⟩
    · rw [hNodeOther p (hLiveOther p hLive)]
      exact hContent.written p hLive
  · rw [hNodesLive]
    rcases mem_cons.mp hMem with rfl | hMem
    · exact ⟨Finset.mem_insert_self _ _, hTextSelf⟩
    · rcases hContent.handle x hMem with ⟨hLive, hText⟩
      rw [hNodeOther _ (hLiveOther _ hLive)]
      exact ⟨Finset.mem_insert_of_mem hLive, hText⟩
  · rcases hMember k hK p hMem with ⟨hLive, ⟨rfl, rfl⟩ | hOld⟩
    · rw [hTextSelf, hHeadHash, hIdx]
    · rw [hOldNode k hLive p hOld, hHeadHash]
      exact hContent.bucket k hLive p hOld
  · rcases hMember k hK p hMem with ⟨hLive, ⟨rfl, rfl⟩ | hOld⟩
    · rw [hTextSelf, hHeadHash, hHash]
    · rw [hOldNode k hLive p hOld, hHeadHash]
      exact hContent.hash k hLive p hOld
  · rcases hMember k hK p hP with ⟨hLive, ⟨rfl, rfl⟩ | hOld⟩
    · rcases hMember k hK q hQ with ⟨-, ⟨-, rfl⟩ | hOld'⟩
      · rfl
      · rw [hTextSelf, hOldNode k hLive q hOld'] at hText
        exact absurd hText.symm (hOther q hOld')
    · rcases hMember k hK q hQ with ⟨-, ⟨rfl, rfl⟩ | hOld'⟩
      · rw [hTextSelf, hOldNode k hLive p hOld] at hText
        exact absurd hText (hOther p hOld)
      · rw [hOldNode k hLive p hOld, hOldNode k hLive q hOld'] at hText
        exact hContent.distinct k hLive p hOld q hOld' hText
  · rw [hNodesLive] at hLive
    rcases Finset.mem_insert.mp hLive with hSame | hLive
    · obtain rfl := Ptr.own.inj hSame
      rw [uses_cons_self]
      exact Nat.succ_pos _
    · rw [hUses _ hLive]
      exact hUse.own m hLive
  · rw [hHeadsLive] at hK
    rw [hUses _ ((hListed.builtin k).mpr hK)]
    apply hUse.builtin k hK
    by_cases hSame : k = h
    · subst hSame
      rw [update_self] at hNil
      exact nomatch hNil
    · rw [update_of_ne hSame] at hNil
      exact hNil

/- A string whose hash has a head -/
theorem addNode_spec {h : N} (hFresh : Fresh s block)
    (hHead : h ∈ s.heads.live) (hLength : str.length < 2147483648)
    (hK : K nullSize) (hNull : nullSize ≤ 4)
    (hIdx : bucketIdx (s.heads.node h).hash = bucketIdx (hash str))
    (hHash : nodeHash (s.heads.node h).hash = nodeHash (hash str))
    (hCount : (held.countP fun x => x.2 = str) + 1 < 4294967296) :
    ∃ s' r,
      addNode block s h str nullSize = some (s', r) ∧
      ((r = none ∧ Shared K hash s' held) ∨
        ∃ p, r = some p ∧ Shared K hash s' ((p, str) :: held)) := by
  rcases headFind_spec hBase.listed hHead str with
    ⟨s₁, lists₁, r, hFind, hListed, hLinks, hSame, hCases⟩
  have hBase₁ : Base K hash s₁ held lists₁ :=
    ⟨hListed, hBase.content.relinked hLinks hSame, hLinks.bucketed hBase.bucketed⟩
  have hUse₁ := hUse.relinked hLinks hSame
  have hLiveMem : ∀ p ∈ members (lists h) h, p ∈ s.nodes.live :=
    fun p hMem => (hBase.listed.live_iff p).mpr ⟨h, hHead, hMem⟩
  unfold addNode
  rw [hFind, bind_eq_bind, bind_some]
  rcases hCases with ⟨p, hMem, rfl, hEq⟩ | ⟨rfl, hNone⟩
  · have hLive := hLiveMem p hMem
    have hText : text (s₁.nodes.node p) = str := by
      rw [hLinks.text]
      exact (nodeEq_iff (hBase.content.written p hLive) str).mp hEq
    have hUses := hBase₁.uses_le p
    rw [hText] at hUses
    rcases addReference_spec hBase₁ hUse₁ (by rw [hLinks.nodesLive]; exact hLive)
      (show uses p held + 1 < 4294967296 by omega) with ⟨s₂, hAdd, hBase₂, hUse₂⟩
    rw [hText] at hBase₂ hUse₂
    dsimp only
    rw [hAdd, bind_eq_bind, bind_some]
    exact ⟨s₂, some p, rfl, Or.inr ⟨p, rfl, lists₁, hBase₂, hUse₂⟩⟩
  · dsimp only
    cases hAlloc : nodeAlloc block str.length nullSize with
    | none => exact ⟨s₁, none, rfl, Or.inl ⟨rfl, lists₁, hBase₁, hUse₁⟩⟩
    | some found =>
      rcases found with ⟨n, room⟩
      rcases nodeAlloc_spec hLength hNull hAlloc with ⟨hBlock, hRoom⟩
      have hHead₁ : h ∈ s₁.heads.live := by
        rw [hLinks.headsLive]
        exact hHead
      dsimp only
      rw [nodeInit_spec N hLength hRoom, bind_some]
      unfold putNode
      rw [Heap.read_of_mem hHead₁, bind_eq_bind, bind_some]
      let s₂ : Share N :=
        { s₁ with
          nodes := s₁.nodes.alloc (.own n)
            { (newNode str nullSize : Node N) with
              next := (s₁.heads.node h).head } }
      have hHead₂ : h ∈ s₂.heads.live := hHead₁
      have hSet := setHead_of_mem (some (.own n)) hHead₂
      dsimp only
      rw [show setHead { s₁ with
        nodes := s₁.nodes.alloc (.own n)
          { (newNode str nullSize : Node N) with
            next := (s₁.heads.node h).head } } h
        (some (.own n)) = some (rehead s₂ h (some (.own n))) from
          hSet, bind_eq_bind, bind_some]
      have hNew : .own n ∉ s₁.nodes.live := by
        rw [hLinks.nodesLive]
        exact (hFresh n hBlock).2
      refine ⟨_, _, rfl, Or.inr ⟨_, rfl, ?_⟩⟩
      have hOther : ∀ p ∈ members (lists₁ h) h, text (s₁.nodes.node p) ≠ str := by
        intro p hMem hText
        have hMem' := (mem_members_of_iff hSame).mp hMem
        rw [hLinks.text] at hText
        have hYes := (nodeEq_iff (hBase.content.written p (hLiveMem p hMem')) str).mpr hText
        rw [hNone p hMem'] at hYes
        exact nomatch hYes
      exact hBase₁.withNode hUse₁ hHead₁ hNew hK ((congrArg bucketIdx (hLinks.hash h)).trans hIdx)
        ((congrArg nodeHash (hLinks.hash h)).trans hHash) hOther
        (show (rehead s₂ h (some (.own n))).heads = _ from rfl)
        (show (rehead s₂ h (some (.own n))).nodes = _ from rfl)
        (show (rehead s₂ h (some (.own n))).buckets = _ from rfl)

end

end

/- A string is added, or there is no memory for it. -/
theorem addLength_spec (hShared : Shared K hash s held)
    (hFresh : Fresh s block) (hLength : str.length < 2147483648)
    (hK : K nullSize) (hNull : nullSize ≤ 4)
    (hCount : (held.countP fun x => x.2 = str) + 1 < 4294967296) :
    ∃ s' r,
      addLength hash block s str nullSize = some (s', r) ∧
      ((r = none ∧ Shared K hash s' held) ∨
        ∃ p, r = some p ∧ Shared K hash s' ((p, str) :: held)) := by
  rcases hShared with ⟨lists, hBase, hUse⟩
  unfold addLength
  by_cases hNil : str.length = 0
  · rw [if_pos hNil]
    exact ⟨s, none, rfl, Or.inl ⟨rfl, lists, hBase, hUse⟩⟩
  rw [if_neg hNil]
  dsimp only
  rcases hBase.bucketed.findHash (hash str) with ⟨h, hHead, hIdx, hHash, hFind⟩ | ⟨hFind, hNone⟩
  · rw [hFind, bind_eq_bind, bind_some]
    exact addNode_spec hBase hUse hFresh hHead hLength hK hNull hIdx hHash hCount
  · rw [hFind, bind_eq_bind, bind_some]
    exact addHead_spec hBase hUse hFresh hLength hK hNull hNone

/- One more reference to a string -/
theorem ref_spec (hShared : Shared K hash s held)
    (hMem : (p, bs) ∈ held) (hCount : uses p held + 1 < 4294967296) :
    ∃ s', ref s p = some s' ∧ Shared K hash s' ((p, bs) :: held) := by
  rcases hShared with ⟨lists, hBase, hUse⟩
  rcases hBase.content.handle _ hMem with ⟨hLive, hText⟩
  rcases addReference_spec hBase hUse hLive hCount with ⟨s', hAdd, hBase', hUse'⟩
  dsimp only at hText
  rw [hText] at hBase' hUse'
  exact ⟨s', hAdd, lists, hBase', hUse'⟩

---
-- Deleting
---

variable {h : N}

/- The nodes of their own are in use, and the other lists. -/
structure InUseBut (s : Share N) (held : Held N) (lists : N → List N) (h : N) : Prop where
  own : ∀ n, .own n ∈ s.nodes.live → 0 < uses (.own n) held
  builtin : ∀ k ∈ s.heads.live, k ≠ h → lists k = [] →
    0 < uses (.builtin k) held

section

variable (hBase : Base K hash s held lists)

include hBase

section

variable (hUse : InUseBut s held lists h)

include hUse

/- What the test of the first node of a list tells -/
theorem headUnused_spec
    (hHead : h ∈ s.heads.live) :
    headUnused s h = some (decide (lists h = [] ∧ uses (.builtin h) held = 0)) := by
  have hFirst := (hBase.listed.chain h hHead).head
  have hRefs := hBase.content.references
  unfold headUnused
  rw [Heap.read_of_mem hHead, bind_eq_bind, bind_some, hFirst]
  cases hList : lists h with
  | nil =>
    have hLive := (hBase.listed.builtin h).mpr hHead
    have hCount := hRefs _ hLive
    simp only [members, map_nil, nil_append, head?_cons, Heap.read_of_mem hLive,
      bind_eq_bind, bind_some, hCount, true_and]
    rfl
  | cons n ns =>
    have hLive : .own n ∈ s.nodes.live := (hBase.listed.own n).mpr ⟨h, hHead, by simp [hList]⟩
    have hCount := hRefs _ hLive
    have hPos := hUse.own n hLive
    simp only [members, map_cons, cons_append, head?_cons,
      Heap.read_of_mem hLive, bind_eq_bind, bind_some, hCount,
      reduceCtorEq, false_and, decide_false]
    rw [beq_eq_false_iff_ne.mpr (by omega)]

/- A head whose last node is not used is freed with it. -/
theorem delHead_spec (hHead : h ∈ s.heads.live)
    (hNil : lists h = []) (hNone : uses (.builtin h) held = 0) :
    ∃ s', delHead s (bucketIdx (s.heads.node h).hash) h = some s' ∧ Shared K hash s' held := by
  have hListed := hBase.listed
  have hContent := hBase.content
  have hLive := (hListed.builtin h).mpr hHead
  let s₁ : Share N :=
    { s with
      heads := { s.heads with live := s.heads.live.erase h }
      nodes := { s.nodes with
        live := s.nodes.live.erase (.builtin h) } }
  rcases hBase.bucketed.erase (show s₁.heads.live = s.heads.live.erase h from rfl)
    (show s₁.heads.node = s.heads.node from rfl) with ⟨tree, hRemove, hBucketed⟩
  unfold delHead
  rw [hRemove, Heap.free_of_mem hHead, Heap.free_of_mem hLive]
  refine ⟨_, rfl, lists, ⟨⟨fun k => ?_, fun n => ?_,
      fun k hK => ?_, fun j hJ k hK n hIn hIn' => ?_, fun k hK => ?_⟩,
    ⟨fun p hP => ?_, fun p hP => ?_, fun x hMem => ?_, fun k hK p hMem => ?_, fun k hK p hMem => ?_,
      fun k hK p hP q hQ hText => ?_⟩, hBucketed⟩, ⟨fun n hN => ?_, fun k hK hEmpty => ?_⟩⟩
  · simp only [Finset.mem_erase, ne_eq, Ptr.builtin.injEq, hListed.builtin]
  · simp only [Finset.mem_erase, ne_eq, reduceCtorEq, not_false_eq_true, true_and, hListed.own]
    constructor
    · rintro ⟨k, hK, hIn⟩
      refine ⟨k, ⟨?_, hK⟩, hIn⟩
      rintro rfl
      rw [hNil] at hIn
      exact nomatch hIn
    · rintro ⟨k, ⟨-, hK⟩, hIn⟩
      exact ⟨k, hK, hIn⟩
  · exact hListed.nodup k (Finset.mem_of_mem_erase hK)
  · exact hListed.apart j (Finset.mem_of_mem_erase hJ) k (Finset.mem_of_mem_erase hK) n hIn hIn'
  · exact hListed.chain k (Finset.mem_of_mem_erase hK)
  · exact hContent.references p (Finset.mem_of_mem_erase hP)
  · exact hContent.written p (Finset.mem_of_mem_erase hP)
  · rcases hContent.handle x hMem with ⟨hX, hText⟩
    refine ⟨Finset.mem_erase.mpr ⟨?_, hX⟩, hText⟩
    intro hSame
    have hPos : 0 < uses (.builtin h) held := by
      rw [uses_pos_iff]
      exact ⟨x.2, by rw [← hSame]; exact hMem⟩
    omega
  · exact hContent.bucket k (Finset.mem_of_mem_erase hK) p hMem
  · exact hContent.hash k (Finset.mem_of_mem_erase hK) p hMem
  · exact hContent.distinct k (Finset.mem_of_mem_erase hK) p hP q hQ hText
  · exact hUse.own n (Finset.mem_of_mem_erase hN)
  · rcases Finset.mem_erase.mp hK with ⟨hApart, hK⟩
    exact hUse.builtin k hK hApart hEmpty

/- The last part of `del`: the head is looked at. -/
def delUnused (s : Share N) (ed : N) : Option (Share N × Bool) := do
  let unused ← headUnused s ed
  if unused then do
    let head ← s.heads.read ed
    let s ← delHead s (bucketIdx head.hash) ed
    some (s, true)
  else
    some (s, true)

theorem delUnused_spec
    (hHead : h ∈ s.heads.live) : ∃ s', delUnused s h = some (s', true) ∧ Shared K hash s' held := by
  unfold delUnused
  rw [headUnused_spec hBase hUse hHead, bind_eq_bind, bind_some]
  by_cases hBoth : lists h = [] ∧ uses (.builtin h) held = 0
  · rcases delHead_spec hBase hUse hHead hBoth.1 hBoth.2 with ⟨s', hDel, hShared⟩
    rw [if_pos (decide_eq_true hBoth), Heap.read_of_mem hHead, bind_eq_bind, bind_some, hDel]
    exact ⟨s', rfl, hShared⟩
  · rw [if_neg (by simpa using hBoth)]
    refine ⟨s, rfl, lists, hBase, hUse.own, fun k hK hNil => ?_⟩
    by_cases hSame : k = h
    · subst hSame
      exact Nat.pos_of_ne_zero fun hZero => hBoth ⟨hNil, hZero⟩
    · exact hUse.builtin k hK hSame hNil

end

/- A node of its own is taken out of its list and freed. -/
theorem delNode_own {n : N}
    (hHead : h ∈ s.heads.live) (hMem : n ∈ lists h) (hNone : uses (.own n) held = 0)
    (hUse : ∀ m, m ≠ n → .own m ∈ s.nodes.live →
      0 < uses (.own m) held)
    (hBuiltin : ∀ k ∈ s.heads.live, k ≠ h → lists k = [] →
      0 < uses (.builtin k) held) :
    ∃ s' lists', delNode s h (.own n) = some (s', true) ∧
      h ∈ s'.heads.live ∧ Base K hash s' held lists' ∧ InUseBut s' held lists' h := by
  have hListed := hBase.listed
  have hContent := hBase.content
  have hLive : .own n ∈ s.nodes.live := (hListed.own n).mpr ⟨h, hHead, hMem⟩
  have hNodup := hListed.nodup h hHead
  rcases headRemoveNode_spec hListed hHead hMem with ⟨s₁, hRemove, hLinks, hSeg, hNext, hHeads⟩
  have hLive₁ : .own n ∈ s₁.nodes.live := by
    rw [hLinks.nodesLive]
    exact hLive
  unfold delNode
  rw [if_pos (fun hSame => (nomatch hSame)), hRemove]
  simp only [bind_eq_bind, bind_some, if_true, Heap.free_of_mem hLive₁]
  have hIn : ∀ k m, m ∈ update lists h ((lists h).erase n) k → m ∈ lists k := by
    intro k m hM
    by_cases hSame : k = h
    · subst hSame
      rw [update_self] at hM
      exact mem_of_mem_erase hM
    · rw [update_of_ne hSame] at hM
      exact hM
  have hMembers : ∀ k, ∀ p ∈ members
      (update lists h ((lists h).erase n) k) k, p ∈ members (lists k) k := by
    intro k p hP
    cases p with
    | builtin j =>
      rw [mem_members_builtin] at hP ⊢
      exact hP
    | own m =>
      rw [mem_members_own] at hP ⊢
      exact hIn k m hP
  let s₂ : Share N :=
    { s₁ with
      nodes := { s₁.nodes with
        live := s₁.nodes.live.erase (.own n) } }
  have hLive₂ : s₂.heads.live = s.heads.live := hLinks.headsLive
  refine ⟨s₂, update lists h ((lists h).erase n), rfl, by rw [hLive₂]; exact hHead,
    ⟨?_, ⟨fun p hP => ?_, fun p hP => ?_, fun x hX => ?_,
      fun k hK p hP => ?_, fun k hK p hP => ?_, fun k hK p hP q hQ hText => ?_⟩, ?_⟩,
    fun m hM => ?_, fun k hK hApart hNil => ?_⟩
  · refine hListed.replace hHead hLive₂ (fun k => ?_) (fun m => ?_) (hNodup.erase n)
      (fun m hM => Or.inl (mem_of_mem_erase hM)) hSeg (fun k hK hApart => ?_)
    · show _ ∈ s₁.nodes.live.erase (.own n) ↔ _
      rw [hLinks.nodesLive, Finset.mem_erase]
      exact and_iff_right fun hSame => (nomatch hSame)
    · show _ ∈ s₁.nodes.live.erase (.own n) ↔ _
      rw [hLinks.nodesLive, Finset.mem_erase, hNodup.mem_erase_iff, ne_eq, Ptr.own.injEq]
      constructor
      · rintro ⟨hOther, hM⟩
        by_cases hOld : m ∈ lists h
        · exact Or.inl ⟨hOther, hOld⟩
        · exact Or.inr ⟨hM, hOld⟩
      · rintro (⟨hOther, hOld⟩ | ⟨hM, hOld⟩)
        · exact ⟨hOther, (hListed.own m).mpr ⟨h, hHead, hOld⟩⟩
        · refine ⟨?_, hM⟩
          rintro rfl
          exact hOld hMem
    · exact hListed.chain_of_frame hHead hK hApart (hHeads k hApart) hNext
  · change p ∈ s₁.nodes.live.erase (.own n) at hP
    rw [hLinks.nodesLive] at hP
    rw [hLinks.references]
    exact hContent.references p (Finset.mem_of_mem_erase hP)
  · change p ∈ s₁.nodes.live.erase (.own n) at hP
    rw [hLinks.nodesLive] at hP
    rcases hContent.written p (Finset.mem_of_mem_erase hP) with ⟨bs, k, hK, hLength, hStr⟩
    exact ⟨bs, k, hK, (hLinks.length p).trans hLength, (hLinks.str p).trans hStr⟩
  · rcases hContent.handle x hX with ⟨hOld, hText⟩
    show _ ∈ s₁.nodes.live.erase (.own n) ∧ text (s₁.nodes.node x.1) = _
    rw [hLinks.nodesLive, hLinks.text]
    refine ⟨Finset.mem_erase.mpr ⟨?_, hOld⟩, hText⟩
    intro hSame
    have hPos : 0 < uses (.own n) held := by
      rw [uses_pos_iff]
      exact ⟨x.2, by rw [← hSame]; exact hX⟩
    omega
  · rw [hLive₂] at hK
    rw [hLinks.text, hLinks.hash]
    exact hContent.bucket k hK p (hMembers k p hP)
  · rw [hLive₂] at hK
    rw [hLinks.text, hLinks.hash]
    exact hContent.hash k hK p (hMembers k p hP)
  · rw [hLive₂] at hK
    rw [hLinks.text, hLinks.text] at hText
    exact hContent.distinct k hK p (hMembers k p hP) q (hMembers k q hQ) hText
  · exact hBase.bucketed.congr hLive₂ hLinks.hash hLinks.buckets
  · change .own m ∈ s₁.nodes.live.erase (.own n) at hM
    rw [hLinks.nodesLive] at hM
    rcases Finset.mem_erase.mp hM with ⟨hOther, hM⟩
    exact hUse m (fun hSame => hOther (congrArg Ptr.own hSame)) hM
  · rw [hLive₂] at hK
    rw [update_of_ne hApart] at hNil
    exact hBuiltin k hK hApart hNil

end

/- A reference is given back. -/
theorem del_spec (hShared : Shared K hash s held)
    (hMem : (p, bs) ∈ held) :
    ∃ s', del s p = some (s', true) ∧ Shared K hash s' (held.erase (p, bs)) := by
  rcases hShared with ⟨lists, hBase, hUse⟩
  have hLive := (hBase.content.handle _ hMem).1
  dsimp only at hLive
  have hRefs := hBase.content.references p hLive
  have hErase := uses_erase_self hMem
  have hOther : ∀ q, q ≠ p →
      uses q (held.erase (p, bs)) = uses q held := fun q hApart => uses_erase_ne hMem hApart
  have hBase' := hBase.recounted hOther fun x hX => hBase.content.handle x (mem_of_mem_erase hX)
  unfold del
  rw [Heap.read_of_mem hLive, bind_eq_bind, bind_some, hRefs]
  by_cases hMany : 1 < uses p held
  · rw [if_pos hMany, modify_references (fun n => n - 1) hLive,
      hRefs, show uses p held - 1 = uses p (held.erase (p, bs)) by
        omega]
    refine ⟨_, rfl, lists, hBase', fun n hN => ?_, fun k hK hNil => ?_⟩
    · by_cases hSame : .own n = p
      · rw [hSame]
        omega
      · rw [hOther _ hSame]
        exact hUse.own n hN
    · by_cases hSame : .builtin k = p
      · rw [hSame]
        omega
      · rw [hOther _ hSame]
        exact hUse.builtin k hK hNil
  have hZero : uses p (held.erase (p, bs)) = 0 := by omega
  rw [hZero] at hBase'
  rcases (hBase.listed.live_iff p).mp hLive with ⟨h, hHead, hIn⟩
  have hFrom := hBase'.listed.headFromNode hHead hIn
  rw [if_neg hMany, modify_references (fun _ => 0) hLive,
    bind_eq_bind, bind_some, hFrom, bind_eq_bind, bind_some]
  have hRest : ∃ s₁ lists₁,
      delNode (recount s p 0) h p = some (s₁, true) ∧
      h ∈ s₁.heads.live ∧
      Base K hash s₁ (held.erase (p, bs)) lists₁ ∧ InUseBut s₁ (held.erase (p, bs)) lists₁ h := by
    cases p with
    | builtin k =>
      obtain rfl := mem_members_builtin.mp hIn
      refine ⟨recount s (.builtin k) 0, lists, ?_, hHead, hBase',
        fun n hN => ?_, fun j hJ hApart hNil => ?_⟩
      · unfold delNode
        rw [if_neg (not_not.mpr rfl)]
      · rw [hOther (.own n) (by simp)]
        exact hUse.own n hN
      · rw [hOther _ (fun hSame =>
          hApart (Ptr.builtin.inj hSame))]
        exact hUse.builtin j hJ hNil
    | own n =>
      apply delNode_own hBase' hHead (mem_members_own.mp hIn) hZero
      · intro m hApart hM
        rw [hOther _ (fun hSame => hApart (Ptr.own.inj hSame))]
        exact hUse.own m hM
      · intro k hK _ hNil
        rw [hOther (.builtin k) (by simp)]
        exact hUse.builtin k hK hNil
  rcases hRest with ⟨s₁, lists₁, hDel, hHead₁, hBase₁, hUse₁⟩
  rw [hDel, bind_eq_bind, bind_some]
  exact delUnused_spec hBase₁ hUse₁ hHead₁

end Efl.Eina.ShareCommon
