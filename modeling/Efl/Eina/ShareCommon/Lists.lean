import Mathlib.Data.List.Nodup
import Efl.Eina.ShareCommon.Model
import Efl.Lib.Chain

/-
  The lists of the heads.

  Every list ends with the node that is built into its head.

  Main declarations:
    * `Listed`
    * `Relinked`
    * `headFind_spec`
    * `headRemoveNode_spec`, `headFromNode_spec`
-/

---
-- Updates
---

namespace Efl.Eina.ShareCommon

open Bytes Function

section

variable {N : Type} [DecidableEq N]

/- The links between the nodes -/
def next (s : Share N) (p : Ptr N) : Option (Ptr N) :=
  (s.nodes.node p).next

/- The bytes of a node, without what ends them -/
def text (node : Node N) : List Byte :=
  node.str.take node.length

/- The assignment of a link -/
def relink (s : Share N) (p : Ptr N) (q : Option (Ptr N)) : Share N :=
  { s with
    nodes := s.nodes.set p { s.nodes.node p with next := q } }

/- The assignment of a count -/
def recount (s : Share N) (p : Ptr N) (n : Nat) : Share N :=
  { s with
    nodes := s.nodes.set p
      { s.nodes.node p with references := n } }

/- The assignment of the first node of a list -/
def rehead (s : Share N) (ed : N) (p : Option (Ptr N)) : Share N :=
  { s with
    heads := s.heads.set ed { s.heads.node ed with head := p } }

variable {s : Share N} {p : Ptr N}

theorem modify_next (q : Option (Ptr N)) (hLive : p ∈ s.nodes.live) :
    modify s p (fun node => { node with next := q }) = some (relink s p q) := by
  unfold modify
  rw [Heap.modify_of_mem _ hLive]
  rfl

theorem modify_references (f : Nat → Nat) (hLive : p ∈ s.nodes.live) :
    modify s p (fun node =>
        { node with references := f node.references }) =
      some (recount s p (f (s.nodes.node p).references)) := by
  unfold modify
  rw [Heap.modify_of_mem _ hLive]
  rfl

theorem setHead_of_mem {ed : N} (q : Option (Ptr N))
    (hLive : ed ∈ s.heads.live) : setHead s ed q = some (rehead s ed q) := by
  unfold setHead
  rw [Heap.modify_of_mem _ hLive]
  rfl

/- Only links and the firsts of lists are others. -/
structure Relinked (s s' : Share N) : Prop where
  headsLive : s'.heads.live = s.heads.live
  nodesLive : s'.nodes.live = s.nodes.live
  hash : ∀ h, (s'.heads.node h).hash = (s.heads.node h).hash
  length : ∀ p, (s'.nodes.node p).length = (s.nodes.node p).length
  references : ∀ p,
    (s'.nodes.node p).references = (s.nodes.node p).references
  str : ∀ p, (s'.nodes.node p).str = (s.nodes.node p).str
  buckets : s'.buckets = s.buckets

omit [DecidableEq N] in
theorem Relinked.refl (s : Share N) : Relinked s s :=
  ⟨rfl, rfl, fun _ => rfl, fun _ => rfl, fun _ => rfl, fun _ => rfl, rfl⟩

omit [DecidableEq N] in
theorem Relinked.trans {s s' s'' : Share N}
    (hFirst : Relinked s s') (hSecond : Relinked s' s'') : Relinked s s'' where
  headsLive := hSecond.headsLive.trans hFirst.headsLive
  nodesLive := hSecond.nodesLive.trans hFirst.nodesLive
  hash h := (hSecond.hash h).trans (hFirst.hash h)
  length p := (hSecond.length p).trans (hFirst.length p)
  references p := (hSecond.references p).trans (hFirst.references p)
  str p := (hSecond.str p).trans (hFirst.str p)
  buckets := hSecond.buckets.trans hFirst.buckets

omit [DecidableEq N] in
theorem Relinked.text {s s' : Share N} (hLinks : Relinked s s')
    (p : Ptr N) : text (s'.nodes.node p) = text (s.nodes.node p) := by
  unfold ShareCommon.text
  rw [hLinks.str, hLinks.length]

theorem relinked_relink (s : Share N) (p : Ptr N) (q : Option (Ptr N)) :
    Relinked s (relink s p q) := by
  have hNode : ∀ r, (relink s p q).nodes.node r =
      if r = p then { s.nodes.node p with next := q }
      else s.nodes.node r := fun r => update_apply _ _ _ _
  refine ⟨rfl, rfl, fun _ => rfl, fun r => ?_, fun r => ?_, fun r => ?_, rfl⟩ <;>
  · rw [hNode]
    split
    case isTrue hSame => rw [hSame]
    case isFalse => rfl

theorem relinked_rehead (s : Share N) (ed : N) (q : Option (Ptr N)) :
    Relinked s (rehead s ed q) := by
  refine ⟨rfl, rfl, fun h => ?_, fun _ => rfl, fun _ => rfl, fun _ => rfl, rfl⟩
  show (update s.heads.node ed _ h).hash = _
  rw [update_apply]
  split
  case isTrue hSame => rw [hSame]
  case isFalse => rfl

theorem next_relink (s : Share N) (p : Ptr N) (q : Option (Ptr N)) :
    next (relink s p q) = update (next s) p q := by
  funext r
  show (update s.nodes.node p _ r).next = _
  rw [update_apply, update_apply]
  split <;> rfl

theorem next_recount (s : Share N) (p : Ptr N) (n : Nat) :
    next (recount s p n) = next s := by
  funext r
  show (update s.nodes.node p _ r).next = _
  rw [update_apply]
  split
  case isTrue hSame =>
    rw [hSame]
    rfl
  case isFalse => rfl

theorem head_rehead_self (s : Share N) (ed : N) (q : Option (Ptr N)) :
    ((rehead s ed q).heads.node ed).head = q := by
  show (update s.heads.node ed _ ed).head = q
  rw [update_self]

theorem head_rehead_ne (s : Share N) {ed h : N} (q : Option (Ptr N))
    (hOther : h ≠ ed) : ((rehead s ed q).heads.node h).head = (s.heads.node h).head := by
  show (update s.heads.node ed _ h).head = _
  rw [update_of_ne hOther]

end

---
-- Lists
---

variable {N : Type}

/- The list of a head: nodes of their own, and the built-in one -/
def members (ns : List N) (h : N) : List (Ptr N) :=
  ns.map .own ++ [.builtin h]

theorem mem_members_own {ns : List N} {h n : N} : .own n ∈ members ns h ↔ n ∈ ns := by
  simp [members]

theorem mem_members_builtin {ns : List N} {h k : N} : .builtin k ∈ members ns h ↔ k = h := by
  simp [members]

theorem nodup_members {ns : List N} (h : N) (hNodup : ns.Nodup) : (members ns h).Nodup := by
  refine List.nodup_append.mpr ⟨?_, List.nodup_singleton _, ?_⟩
  · refine hNodup.map ?_
    intro a b hSame
    exact Ptr.own.inj hSame
  · intro a hMem b hLast hSame
    rcases List.mem_map.mp hMem with ⟨n, -, rfl⟩
    rw [List.mem_singleton] at hLast
    rw [hLast] at hSame
    exact nomatch hSame

/-
  The nodes that are allocated are the ones in the lists of
  the heads that are.
-/
structure Listed (s : Share N) (lists : N → List N) : Prop where
  builtin : ∀ h, .builtin h ∈ s.nodes.live ↔ h ∈ s.heads.live
  own : ∀ n, .own n ∈ s.nodes.live ↔
    ∃ h ∈ s.heads.live, n ∈ lists h
  nodup : ∀ h ∈ s.heads.live, (lists h).Nodup
  apart : ∀ h ∈ s.heads.live, ∀ k ∈ s.heads.live,
    ∀ n ∈ lists h, n ∈ lists k → h = k
  chain : ∀ h ∈ s.heads.live,
    Chain.Seg (next s) (s.heads.node h).head
      (members (lists h) h)

variable {s : Share N} {lists : N → List N}

section

variable (hListed : Listed s lists)

include hListed

theorem Listed.live_iff (p : Ptr N) :
    p ∈ s.nodes.live ↔ ∃ h ∈ s.heads.live, p ∈ members (lists h) h := by
  cases p with
  | builtin k =>
    rw [hListed.builtin]
    constructor
    · exact fun hLive => ⟨k, hLive, mem_members_builtin.mpr rfl⟩
    · rintro ⟨h, hLive, hMem⟩
      rw [mem_members_builtin.mp hMem]
      exact hLive
  | own n => simp only [hListed.own, mem_members_own]

/- A node is in one list. -/
theorem Listed.member_apart {h k : N}
    {p : Ptr N} (hHead : h ∈ s.heads.live) (hOther : k ∈ s.heads.live)
    (hMem : p ∈ members (lists h) h) (hMem' : p ∈ members (lists k) k) : h = k := by
  cases p with
  | builtin j =>
    rw [← mem_members_builtin.mp hMem, ← mem_members_builtin.mp hMem']
  | own n =>
    exact hListed.apart h hHead k hOther n (mem_members_own.mp hMem) (mem_members_own.mp hMem')

/- Other lists are as before. -/
theorem Listed.chain_of_frame
    {s' : Share N} {h k : N} (hHead : h ∈ s.heads.live) (hOther : k ∈ s.heads.live) (hApart : k ≠ h)
    (hFirst : (s'.heads.node k).head = (s.heads.node k).head)
    (hNext : ∀ p ∉ members (lists h) h, next s' p = next s p) :
    Chain.Seg (next s') (s'.heads.node k).head (members (lists k) k) := by
  rw [hFirst]
  apply (hListed.chain k hOther).congr
  intro p hMem
  apply hNext
  intro hMem'
  exact hApart (hListed.member_apart hOther hHead hMem hMem')

theorem Listed.length_le [DecidableEq N]
    {h : N} (hHead : h ∈ s.heads.live) : (members (lists h) h).length ≤ s.nodes.live.card :=
  Heap.length_le_card (nodup_members h (hListed.nodup h hHead))
    fun p hMem => (hListed.live_iff p).mpr ⟨h, hHead, hMem⟩

end

end Efl.Eina.ShareCommon

---
-- Searches
---

namespace Efl.Eina.ShareCommon

open Bytes List Option Function

section

variable {N : Type} [DecidableEq N]
variable {s : Share N} {lists : N → List N}

/- The first node with the string, and the one before it -/
theorem findFrom_spec (str : List Byte) {q : Option (Ptr N)}
    {ps : List (Ptr N)} {fuel : Nat} (prev : Ptr N) (hSeg : Chain.Seg (next s) q ps)
    (hLive : ∀ p ∈ ps, p ∈ s.nodes.live) (hFuel : ps.length ≤ fuel) :
    (∃ before prev' p after, prev :: ps = before ++ prev' :: p ::
      after ∧ nodeEq (s.nodes.node p) str = true ∧
      findFrom s str fuel prev q = some (some (prev', p))) ∨
    (findFrom s str fuel prev q = some none ∧ ∀ p ∈ ps, nodeEq (s.nodes.node p) str = false) := by
  induction ps generalizing q prev fuel with
  | nil =>
    obtain rfl : q = none := hSeg
    refine Or.inr ⟨?_, fun p hMem => (nomatch hMem)⟩
    cases fuel <;> rfl
  | cons p ps ih =>
    rcases hSeg with ⟨rfl, hRest⟩
    cases fuel with
    | zero => exact absurd hFuel (by simp)
    | succ fuel =>
      have hRead := Heap.read_of_mem (hLive p (by simp))
      unfold findFrom
      rw [hRead, bind_eq_bind, bind_some]
      by_cases hEq : nodeEq (s.nodes.node p) str = true
      · rw [if_pos hEq]
        exact Or.inl ⟨[], prev, p, ps, rfl, hEq, rfl⟩
      · rw [if_neg hEq]
        rcases ih p hRest (fun r hMem => hLive r (by simp [hMem])) (by simpa using hFuel) with
          ⟨before, prev', r, after, hParts, hFound, hFind⟩ | ⟨hFind, hNone⟩
        · refine Or.inl ⟨prev :: before, prev', r, after, ?_, hFound, hFind⟩
          rw [hParts, cons_append]
        · refine Or.inr ⟨hFind, fun r hMem => ?_⟩
          rcases mem_cons.mp hMem with rfl | hMem
          · exact Bool.eq_false_iff.mpr hEq
          · exact hNone r hMem

/- A node that is not the last one comes first. -/
theorem promote_spec {h : N} {before after : List (Ptr N)}
    {prev p : Ptr N} (hHead : h ∈ s.heads.live)
    (hSeg : Chain.Seg (next s) (s.heads.node h).head (before ++ prev ::
    p :: after)) (hNodup : (before ++ prev :: p :: after).Nodup)
    (hLive : ∀ r ∈ before ++ prev :: p :: after, r ∈ s.nodes.live) :
    ∃ s', promote s h prev p = some s' ∧ Relinked s s' ∧
      ((after = [] ∧ s' = s) ∨ (after ≠ [] ∧ Chain.Seg (next s')
      (s'.heads.node h).head (p :: (before ++ prev :: after)) ∧
      (∀ r ∉ before ++ prev :: p :: after, next s' r = next s r) ∧ ∀ k,
      k ≠ h → (s'.heads.node k).head = (s.heads.node k).head)) := by
  have hPrev := hLive prev (by simp)
  have hP := hLive p (by simp)
  have hAfter : Chain.Seg (next s) (next s p) after := by
    have hSeg' := hSeg
    rw [append_cons] at hSeg'
    exact hSeg'.rest
  unfold promote
  rw [Heap.read_of_mem hP, bind_eq_bind, bind_some]
  cases after with
  | nil =>
    have hNone : (s.nodes.node p).next = none := hAfter
    simp only [hNone]
    exact ⟨s, rfl, Relinked.refl s, Or.inl ⟨trivial, rfl⟩⟩
  | cons y after =>
    have hNext : (s.nodes.node p).next = some y := hAfter.1
    simp only [hNext, Heap.read_of_mem hHead, bind_eq_bind, bind_some]
    have hP' : p ∈ (relink s prev (some y)).nodes.live := hP
    have hHead' : h ∈ (relink (relink s prev (some y)) p (s.heads.node h).head).heads.live := hHead
    rw [modify_next _ hPrev, bind_some, modify_next _ hP', bind_some, setHead_of_mem _ hHead']
    refine ⟨_, rfl, ((relinked_relink _ _ _).trans
      (relinked_relink _ _ _)).trans (relinked_rehead _ _ _),
      Or.inr ⟨by simp, ?_, ?_, fun k hOther => ?_⟩⟩
    · rw [head_rehead_self]
      show Chain.Seg (next (relink (relink s prev (some y)) p (s.heads.node h).head)) _ _
      rw [next_relink, next_relink,
        show some y = next s p from hNext.symm]
      apply (hSeg.unlink hNodup).push
      have hApart := nodup_append.mp hNodup
      intro hMem
      rcases mem_append.mp hMem with hMem | hMem
      · exact hApart.2.2 p hMem p (by simp) rfl
      · have hTail := hApart.2.1
        rcases mem_cons.mp hMem with rfl | hMem
        · exact (nodup_cons.mp hTail).1 (by simp)
        · exact (nodup_cons.mp (nodup_cons.mp hTail).2).1 hMem
    · intro r hOut
      show next (relink (relink s prev (some y)) p (s.heads.node h).head) r = _
      rw [next_relink, next_relink, update_of_ne, update_of_ne]
      · rintro rfl
        exact hOut (by simp)
      · rintro rfl
        exact hOut (by simp)
    · exact head_rehead_ne _ _ hOther

/- The loop that takes a node out -/
theorem removeFrom_spec {q : Option (Ptr N)} {ps : List (Ptr N)}
    {fuel : Nat} {prev node : Ptr N} (hSeg : Chain.Seg (next s) q ps)
    (hLive : ∀ p ∈ prev :: ps, p ∈ s.nodes.live) (hMem : node ∈ ps)
    (hFuel : ps.length ≤ fuel) :
    ∃ before prev' after,
      prev :: ps = before ++ prev' :: node :: after ∧
      removeFrom s node fuel prev q = some (relink s prev' (next s node), true) := by
  induction ps generalizing q prev fuel with
  | nil => exact nomatch hMem
  | cons p ps ih =>
    rcases hSeg with ⟨rfl, hRest⟩
    cases fuel with
    | zero => exact absurd hFuel (by simp)
    | succ fuel =>
      unfold removeFrom
      rw [Heap.read_of_mem (hLive p (by simp)), bind_eq_bind, bind_some]
      by_cases hSame : p = node
      · subst hSame
        rw [if_pos rfl, modify_next _ (hLive prev (by simp))]
        exact ⟨[], prev, ps, rfl, rfl⟩
      · rw [if_neg hSame]
        have hIn : node ∈ ps := (mem_cons.mp hMem).resolve_left (Ne.symm hSame)
        rcases ih hRest (fun r hR => hLive r (mem_cons_of_mem _ hR)) hIn
          (by simpa using hFuel) with ⟨before, prev', after, hParts, hRemove⟩
        refine ⟨prev :: before, prev', after, ?_, hRemove⟩
        rw [hParts, cons_append]

/- The last node of a list tells its head. -/
theorem headFromNode_spec {p : Ptr N} {ps : List (Ptr N)} {h : N} {fuel : Nat}
    (hSeg : Chain.Seg (next s) (some p) (ps ++ [.builtin h]))
    (hLive : ∀ r ∈ ps ++ [.builtin h], r ∈ s.nodes.live)
    (hFuel : ps.length < fuel) : headFromNode s fuel p = some h := by
  induction ps generalizing p fuel with
  | nil =>
    rcases hSeg with ⟨hSame, hEnd⟩
    obtain rfl := some.inj hSame
    cases fuel with
    | zero => exact absurd hFuel (by simp)
    | succ fuel =>
      have hNone : (s.nodes.node (.builtin h)).next = none := hEnd
      unfold headFromNode
      rw [Heap.read_of_mem (hLive _ (by simp)), bind_eq_bind, bind_some]
      simp only [hNone]
  | cons q ps ih =>
    rcases hSeg with ⟨hSame, hRest⟩
    obtain rfl := some.inj hSame
    cases fuel with
    | zero => exact absurd hFuel (by simp)
    | succ fuel =>
      have hSome : ∃ y, (s.nodes.node p).next = some y := by
        cases ps with
        | nil => exact ⟨_, hRest.1⟩
        | cons y ps => exact ⟨y, hRest.1⟩
      rcases hSome with ⟨y, hNext⟩
      unfold headFromNode
      rw [Heap.read_of_mem (hLive _ (by simp)), bind_eq_bind, bind_some]
      simp only [hNext]
      apply ih
      · rw [← show next s p = some y from hNext]
        exact hRest
      · exact fun r hR => hLive r (mem_cons_of_mem _ hR)
      · simpa using hFuel

end

---
-- Heads
---

variable {N : Type} [DecidableEq N]
variable {s s' : Share N} {lists : N → List N} {h : N}

/- One list is another one, and what it lost or won with it. -/
theorem Listed.replace (hListed : Listed s lists)
    (hHead : h ∈ s.heads.live) (hHeads : s'.heads.live = s.heads.live)
    (hBuiltin : ∀ k, .builtin k ∈ s'.nodes.live ↔ .builtin k ∈
    s.nodes.live) {ns : List N} (hOwn : ∀ n, .own n ∈ s'.nodes.live ↔
    n ∈ ns ∨ (.own n ∈ s.nodes.live ∧ n ∉ lists h)) (hNodup : ns.Nodup)
    (hFresh : ∀ n ∈ ns, n ∈ lists h ∨ .own n ∉ s.nodes.live)
    (hChain : Chain.Seg (next s') (s'.heads.node h).head (members ns h))
    (hFrame : ∀ k ∈ s.heads.live, k ≠ h →
    Chain.Seg (next s') (s'.heads.node k).head (members (lists k) k)) :
    Listed s' (update lists h ns) := by
  -- A node in the new list is in no other one.
  have hOther : ∀ k ∈ s.heads.live, k ≠ h → ∀ n ∈ ns, n ∉ lists k := by
    intro k hK hApart n hMem hIn
    rcases hFresh n hMem with hOld | hNew
    · exact hApart (hListed.apart k hK h hHead n hIn hOld)
    · exact hNew ((hListed.own n).mpr ⟨k, hK, hIn⟩)
  refine ⟨fun k => ?_, fun n => ?_, fun k hK => ?_, fun j hJ k hK n hIn hIn' => ?_, fun k hK => ?_⟩
  · rw [hBuiltin, hListed.builtin, hHeads]
  · rw [hOwn, hHeads]
    constructor
    · rintro (hMem | ⟨hLive, hOut⟩)
      · exact ⟨h, hHead, by rwa [update_self]⟩
      · rcases (hListed.own n).mp hLive with ⟨k, hK, hIn⟩
        have hApart : k ≠ h := by
          rintro rfl
          exact hOut hIn
        exact ⟨k, hK, by rwa [update_of_ne hApart]⟩
    · rintro ⟨k, hK, hIn⟩
      by_cases hSame : k = h
      · subst hSame
        rw [update_self] at hIn
        exact Or.inl hIn
      · rw [update_of_ne hSame] at hIn
        refine Or.inr ⟨(hListed.own n).mpr ⟨k, hK, hIn⟩, ?_⟩
        exact fun hOld =>
          hSame (hListed.apart k hK h hHead n hIn hOld)
  · rw [hHeads] at hK
    by_cases hSame : k = h
    · subst hSame
      rw [update_self]
      exact hNodup
    · rw [update_of_ne hSame]
      exact hListed.nodup k hK
  · rw [hHeads] at hJ hK
    by_cases hFirst : j = h
    · subst hFirst
      by_cases hSecond : k = j
      · exact hSecond.symm
      · rw [update_self] at hIn
        rw [update_of_ne hSecond] at hIn'
        exact absurd hIn' (hOther k hK hSecond n hIn)
    · rw [update_of_ne hFirst] at hIn
      by_cases hSecond : k = h
      · subst hSecond
        rw [update_self] at hIn'
        exact absurd hIn (hOther j hJ hFirst n hIn')
      · rw [update_of_ne hSecond] at hIn'
        exact hListed.apart j hJ k hK n hIn hIn'
  · rw [hHeads] at hK
    by_cases hSame : k = h
    · subst hSame
      rw [update_self]
      exact hChain
    · rw [update_of_ne hSame]
      exact hFrame k hK hSame

omit [DecidableEq N] in
/- A node that is not the last one is a node of its own. -/
theorem exists_members {ns : List N} {before after : List (Ptr N)} {prev p : Ptr N}
    (hParts : members ns h = before ++ prev :: p :: after)
    (hSome : after ≠ []) : ∃ ns', ns'.Perm ns ∧ members ns' h = p :: (before ++ prev :: after) := by
  rcases eq_nil_or_concat after with rfl | ⟨rest, last, rfl⟩
  · exact absurd rfl hSome
  unfold members at hParts
  rw [concat_eq_append,
    show before ++ prev :: p :: (rest ++ [last]) =
      (before ++ prev :: p :: rest) ++ [last] by simp] at hParts
  rcases append_inj' hParts rfl with ⟨hOwn, hLast⟩
  rw [map_eq_append_iff] at hOwn
  rcases hOwn with ⟨first, second, rfl, rfl, hSecond⟩
  rw [map_eq_cons_iff] at hSecond
  rcases hSecond with ⟨n, third, rfl, rfl, hThird⟩
  rw [map_eq_cons_iff] at hThird
  rcases hThird with ⟨m, fourth, rfl, rfl, rfl⟩
  refine ⟨m :: (first ++ n :: fourth), ?_, ?_⟩
  · have hMiddle : (first ++ n :: m :: fourth).Perm (m :: (first ++ n :: fourth)) := by
      rw [append_cons, append_cons first n fourth]
      exact perm_middle
    exact hMiddle.symm
  · unfold members
    rw [concat_eq_append, ← hLast]
    simp

/-
  A string is looked for in the list of a head, and what was
  found may come first.
-/
theorem headFind_spec (hListed : Listed s lists)
    (hHead : h ∈ s.heads.live) (str : List Byte) :
    ∃ s' lists' r, headFind s h str = some (s', r) ∧
      Listed s' lists' ∧ Relinked s s' ∧
      (∀ k n, n ∈ lists' k ↔ n ∈ lists k) ∧
      ((∃ p ∈ members (lists h) h, r = some p ∧
          nodeEq (s.nodes.node p) str = true) ∨
        (r = none ∧ ∀ p ∈ members (lists h) h, nodeEq (s.nodes.node p) str = false)) := by
  have hChain := hListed.chain h hHead
  have hNodup := nodup_members h (hListed.nodup h hHead)
  have hLength := hListed.length_le hHead
  have hLive : ∀ r ∈ members (lists h) h, r ∈ s.nodes.live :=
    fun r hMem => (hListed.live_iff r).mpr ⟨h, hHead, hMem⟩
  rcases hMembers : members (lists h) h with - | ⟨first, rest⟩
  · unfold members at hMembers
    exact absurd hMembers (by simp)
  rw [hMembers] at hChain hNodup hLength hLive
  have hFirst : (s.heads.node h).head = some first := hChain.1
  have hRead := Heap.read_of_mem (hLive first (by simp))
  unfold headFind
  rw [Heap.read_of_mem hHead]
  simp only [bind_eq_bind, bind_some, hFirst, hRead]
  by_cases hEq : nodeEq (s.nodes.node first) str = true
  · rw [if_pos hEq]
    exact ⟨s, lists, some first, rfl, hListed, Relinked.refl s,
      fun _ _ => Iff.rfl, Or.inl ⟨first, by simp, rfl, hEq⟩⟩
  rw [if_neg hEq]
  rcases findFrom_spec str first hChain.2 (fun r hMem => hLive r (mem_cons_of_mem _ hMem))
    (show rest.length ≤ s.nodes.live.card by
      rw [length_cons] at hLength
      omega) with ⟨before, prev, p, after, hParts, hFound, hFind⟩ | ⟨hFind, hNone⟩
  · have hFind' : findFrom s str s.nodes.live.card first
        (s.nodes.node first).next = some (some (prev, p)) := hFind
    have hIn : p ∈ first :: rest := by
      rw [hParts]
      simp
    rw [hFind', bind_some]
    dsimp only
    rw [hParts] at hChain hNodup hLive
    rcases promote_spec hHead (hFirst ▸ hChain) hNodup hLive with ⟨s', hPromote, hLinks, hCases⟩
    rw [hPromote, bind_some]
    rcases hCases with ⟨-, rfl⟩ | ⟨hSome, hSeg, hNext, hHeads⟩
    · exact ⟨s', lists, some p, rfl, hListed, Relinked.refl s',
        fun _ _ => Iff.rfl, Or.inl ⟨p, hIn, rfl, hFound⟩⟩
    · rcases exists_members (hMembers.trans hParts) hSome with ⟨ns, hPerm, hNew⟩
      rw [← hNew] at hSeg
      refine ⟨s', update lists h ns, some p, rfl, ?_,
        hLinks, fun k n => ?_, Or.inl ⟨p, hIn, rfl, hFound⟩⟩
      · apply hListed.replace hHead hLinks.headsLive (fun k =>
          by rw [hLinks.nodesLive]) (fun n => ?_)
          (hPerm.nodup_iff.mpr (hListed.nodup h hHead)) (fun n hMem =>
          Or.inl (hPerm.mem_iff.mp hMem)) hSeg (fun k hK hApart => ?_)
        · rw [hLinks.nodesLive, hPerm.mem_iff]
          constructor
          · intro hOwn
            by_cases hMem : n ∈ lists h
            · exact Or.inl hMem
            · exact Or.inr ⟨hOwn, hMem⟩
          · rintro (hMem | ⟨hOwn, -⟩)
            · exact (hListed.own n).mpr ⟨h, hHead, hMem⟩
            · exact hOwn
        · apply hListed.chain_of_frame hHead hK hApart (hHeads k hApart)
          rw [hMembers, hParts]
          exact hNext
      · rw [update_apply]
        split
        case isTrue hSame =>
          rw [hSame]
          exact hPerm.mem_iff
        case isFalse => exact Iff.rfl
  · have hFind' : findFrom s str s.nodes.live.card first
        (s.nodes.node first).next = some none := hFind
    rw [hFind', bind_some]
    refine ⟨s, lists, none, rfl, hListed, Relinked.refl s,
      fun _ _ => Iff.rfl, Or.inr ⟨rfl, fun p hMem => ?_⟩⟩
    rcases mem_cons.mp hMem with rfl | hMem
    · exact Bool.eq_false_iff.mpr hEq
    · exact hNone p hMem

theorem members_erase {ns : List N} {n : N} :
    members (ns.erase n) h = (members ns h).erase (.own n) := by
  unfold members
  induction ns with
  | nil => rfl
  | cons m ns ih =>
    by_cases hSame : m = n
    · subst hSame
      simp
    · rw [erase_cons_tail (by simpa using hSame), map_cons, map_cons,
        cons_append, ih, cons_append, erase_cons_tail]
      simpa using hSame

/- A node of its own is taken out of the list of its head. -/
theorem headRemoveNode_spec {n : N} (hListed : Listed s lists)
    (hHead : h ∈ s.heads.live) (hMem : n ∈ lists h) :
    ∃ s', headRemoveNode s h (.own n) = some (s', true) ∧
      Relinked s s' ∧ Chain.Seg (next s') (s'.heads.node h).head
        (members ((lists h).erase n) h) ∧
      (∀ r ∉ members (lists h) h, next s' r = next s r) ∧
      ∀ k, k ≠ h → (s'.heads.node k).head = (s.heads.node k).head := by
  have hChain := hListed.chain h hHead
  have hNodup := nodup_members h (hListed.nodup h hHead)
  have hLength := hListed.length_le hHead
  have hLive : ∀ r ∈ members (lists h) h, r ∈ s.nodes.live :=
    fun r hMem => (hListed.live_iff r).mpr ⟨h, hHead, hMem⟩
  have hIn : .own n ∈ members (lists h) h := mem_members_own.mpr hMem
  rw [members_erase]
  rcases hMembers : members (lists h) h with - | ⟨first, rest⟩
  · unfold members at hMembers
    exact absurd hMembers (by simp)
  rw [hMembers] at hChain hNodup hLength hLive hIn
  have hFirst : (s.heads.node h).head = some first := hChain.1
  have hRead := Heap.read_of_mem (hLive first (by simp))
  unfold headRemoveNode
  rw [Heap.read_of_mem hHead]
  simp only [bind_eq_bind, bind_some, hFirst, hRead]
  by_cases hSame : first = .own n
  · subst hSame
    rw [if_pos rfl, setHead_of_mem _ hHead, bind_some]
    refine ⟨_, rfl, relinked_rehead _ _ _, ?_, fun r _ => rfl,
      fun k hOther => head_rehead_ne _ _ hOther⟩
    rw [head_rehead_self, erase_cons_head]
    exact hChain.2
  · rw [if_neg hSame]
    have hRest : .own n ∈ rest := (mem_cons.mp hIn).resolve_left (Ne.symm hSame)
    rcases removeFrom_spec hChain.2 hLive hRest
      (show rest.length ≤ s.nodes.live.card by
        rw [length_cons] at hLength
        omega) with ⟨before, prev, after, hParts, hRemove⟩
    have hRemove' : removeFrom s (.own n) s.nodes.live.card first
        (s.nodes.node first).next =
          some (relink s prev (next s (.own n)), true) := hRemove
    rw [hRemove', hParts]
    rw [hParts] at hChain hNodup
    refine ⟨_, rfl, relinked_relink _ _ _, ?_, fun r hOut => ?_, fun k _ => rfl⟩
    · have hOut : .own n ∉ before ++ [prev] := by
        have hApart := nodup_append.mp
          (show ((before ++ [prev]) ++ .own n :: after).Nodup by
            rwa [← append_cons])
        exact fun hBefore =>
          hApart.2.2 _ hBefore _ (by simp) rfl
      rw [next_relink, append_cons, erase_append_right _ hOut, erase_cons_head, ← append_cons]
      exact hChain.unlink hNodup
    · rw [next_relink, update_of_ne]
      rintro rfl
      exact hOut (by simp)

/- The head of a node in its list -/
theorem Listed.headFromNode {p : Ptr N} (hListed : Listed s lists)
    (hHead : h ∈ s.heads.live) (hMem : p ∈ members (lists h) h) :
    headFromNode s s.nodes.live.card p = some h := by
  have hLength := hListed.length_le hHead
  have hLive : ∀ r ∈ members (lists h) h, r ∈ s.nodes.live :=
    fun r hMem => (hListed.live_iff r).mpr ⟨h, hHead, hMem⟩
  have hRest : ∃ before ps,
      members (lists h) h = before ++ p :: ps ∧ (p :: ps).getLast? = some (.builtin h) := by
    rcases append_of_mem hMem with ⟨before, ps, hParts⟩
    refine ⟨before, ps, hParts, ?_⟩
    have hLast : (members (lists h) h).getLast? = some (.builtin h) := by
      simp [members]
    rw [hParts, getLast?_append] at hLast
    simpa using hLast
  rcases hRest with ⟨before, ps, hParts, hLast⟩
  have hChain := hListed.chain h hHead
  rw [hParts] at hChain hLength hLive
  have hSeg : Chain.Seg (next s) (some p) (p :: ps) := ⟨rfl, hChain.rest⟩
  rcases getLast?_eq_some_iff.mp hLast with ⟨init, hInit⟩
  rw [hInit] at hSeg
  apply headFromNode_spec hSeg
  · rw [← hInit]
    exact fun r hR => hLive r (mem_append_right _ hR)
  · have hCount := congrArg List.length hInit
    simp only [length_append, length_cons, length_nil] at hCount hLength
    omega

end Efl.Eina.ShareCommon
