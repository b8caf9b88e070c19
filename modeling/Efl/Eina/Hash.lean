import Efl.Eina.Rbtree.Traversal

/-
  The iterators of hashes, `eina_hash.c`.

  A bucket is a tree of hash heads, and a head is the tree of
  its elements; an iterator over a tree is what is left of its
  nodes, as `iterators_traverse` has it.  A call of `malloc`
  that fails in `eina_hash_add` leaves a head without elements.

  Main declarations:
    * `Hash`, `Iterator`
    * `iteratorNext`, `results`
    * `iteratorNext_spec`
    * `complete_iff`
-/

---
-- Hashes
---

namespace Efl.Eina.Hashes

open RedBlack Rbtree List Option

/- `Eina_Hash_Head` and the trees of these -/
abbrev Head (E : Type) := RedBlack.Tree E

abbrev Bucket (E : Type) := RedBlack.Tree (Head E)

variable {E : Type}

/- The heads of buckets, as an iterator comes to them -/
def headsOf (bs : List (Bucket E)) : List (Head E) :=
  bs.flatMap prefixNodes

/- The elements of heads, in the same order -/
def elementsOf (heads : List (Head E)) : List E :=
  heads.flatMap prefixNodes

/- `Eina_Hash`, where an element is counted once -/
structure Hash (E : Type) where
  buckets : Option (List (Bucket E))
  size : Nat
  population : Nat
  sized : ∀ bs ∈ buckets, bs.length = size
  counted : population =
    (elementsOf (headsOf (buckets.getD []))).length
  nodup : (elementsOf (headsOf (buckets.getD []))).Nodup

def Hash.heads (h : Hash E) : List (Head E) :=
  headsOf (h.buckets.getD [])

def Hash.elements (h : Hash E) : List E :=
  elementsOf h.heads

---
-- Iterators
---

/- `Eina_Iterator_Hash` -/
structure Iterator (E : Type) where
  current : Option (List (Head E))
  list : Option (List E)
  hashHead : Option (Head E)
  hashElement : Option E
  bucket : Nat
  index : Int

/- What `calloc` gives to `eina_hash_iterator_data_new` -/
def Iterator.new (E : Type) : Iterator E :=
  ⟨none, none, none, none, 0, 0⟩

/- `it->list` over a head, and its first element -/
def enter (it : Iterator E) (head : Head E) : Iterator E × Bool :=
  match prefixNodes head with
  | [] => ({ it with list := some [] }, false)
  | e :: es =>
    ({ it with list := some es, hashElement := some e }, true)

/- The first part, which looks at the bucket it is in -/
def advance (it : Iterator E) : Iterator E × Bool :=
  match it.current with
  | none => ({ it with bucket := 0, index := -1 }, false)
  | some heads =>
    match it.list.getD [] with
    | e :: es =>
      ({ it with list := some es, hashElement := some e }, true)
    | [] =>
      match heads with
      | [] =>
        ({ it with
           list := none
           current := none
           bucket := it.bucket + 1 }, false)
      | head :: heads =>
        enter { it with current := some heads, hashHead := some head }
          head

/- The loop over the buckets from `bucket` on -/
def seek : List (Bucket E) → Iterator E → Iterator E
  | [], it => it
  | b :: bs, it =>
    match prefixNodes b with
    | [] => seek bs { it with bucket := it.bucket + 1 }
    | head :: heads =>
      { it with current := some heads, hashHead := some head }

/- The second part, which goes on with another bucket -/
def nextBucket (h : Hash E) (it : Iterator E) : Option (Iterator E × Bool) := do
  let bs ← h.buckets
  let it := seek (bs.drop it.bucket) it
  let head ← it.hashHead
  let (it, ok) := enter it head
  some (it, ok && it.bucket != h.size)

/-
  `_eina_hash_iterator_next`; `none` is an access through
  NULL, and the content of the element is left to the kind of
  the iterator.
-/
def iteratorNext (h : Hash E) (it : Iterator E) : Option (Iterator E × Option (Option E)) :=
  if it.index < h.population then do
    let (it, ok) := advance it
    let (it, ok) ← if ok then some (it, ok) else nextBucket h it
    some
      ({ it with index := it.index + 1 },
        if ok then some it.hashElement else none)
  else
    some (it, none)

/- What a number of calls yield -/
def results (h : Hash E) : Nat → Iterator E → Option (List (Option (Option E)))
  | 0, _ => some []
  | n + 1, it => do
    let (it, data) ← iteratorNext h it
    let rest ← results h n it
    some (data :: rest)

/- What the calls yield, of a sequence, from one place on -/
def outputs (es : List E) (n count : Nat) : List (Option (Option E)) :=
  (range count).map fun i => es[n + i]?.map some

/- Each element once, and then `EINA_FALSE` -/
def Complete (h : Hash E) : Prop :=
  ∃ es : List E, es.Perm h.elements ∧ ∀ count,
    results h count (.new E) = some (outputs es 0 count)

/-
  Where a bucket has a head without elements, it has no
  elements, and neither have the buckets behind it.
-/
def Parted (bs : List (Bucket E)) : Prop :=
  ∀ b rest, b :: rest <:+ bs →
    (∃ head ∈ prefixNodes b, prefixNodes head = []) →
      elementsOf (headsOf (b :: rest)) = []

---
-- What Is Left
---

variable {h : Hash E} {it : Iterator E} {n : Nat} {es : List E}
  {head : Head E} {heads : List (Head E)} {b : Bucket E}
  {bs skip rest : List (Bucket E)}

theorem headsOf_append (bs cs : List (Bucket E)) :
    headsOf (bs ++ cs) = headsOf bs ++ headsOf cs := flatMap_append

theorem headsOf_cons (b : Bucket E) (bs : List (Bucket E)) :
    headsOf (b :: bs) = prefixNodes b ++ headsOf bs := flatMap_cons

theorem elementsOf_append (heads heads' : List (Head E)) :
    elementsOf (heads ++ heads') = elementsOf heads ++ elementsOf heads' := flatMap_append

/- The heads that are left, of one bucket and of others -/
def Fine (heads : List (Head E)) (bs : List (Bucket E)) : Prop :=
  (∀ head ∈ heads, prefixNodes head ≠ []) ∧ Parted bs

/- The first bucket that has heads -/
theorem exists_bucket (bs : List (Bucket E)) :
    headsOf bs = [] ∨ ∃ skip b rest head heads,
      bs = skip ++ b :: rest ∧ headsOf skip = [] ∧ prefixNodes b = head :: heads := by
  induction bs with
  | nil => exact .inl rfl
  | cons b bs ih =>
    cases hNodes : prefixNodes b with
    | cons head heads =>
      exact .inr ⟨[], b, bs, head, heads, rfl, rfl, hNodes⟩
    | nil =>
      have hCons (cs : List (Bucket E)) : headsOf (b :: cs) = headsOf cs := by
        unfold headsOf
        rw [flatMap_cons, hNodes, nil_append]
      rcases ih with hNone | ⟨skip, c, rest, head, heads, rfl, hSkip, hHead⟩
      · exact .inl ((hCons bs).trans hNone)
      · exact .inr ⟨b :: skip, c, rest, head, heads, rfl, (hCons skip).trans hSkip, hHead⟩

theorem seek_append (bs : List (Bucket E)) (it : Iterator E)
    (hSkip : headsOf skip = []) :
    seek (skip ++ bs) it = seek bs { it with bucket := it.bucket + skip.length } := by
  induction skip generalizing it with
  | nil => rfl
  | cons b skip ih =>
    unfold headsOf at hSkip
    rw [flatMap_cons, append_eq_nil_iff] at hSkip
    rw [cons_append, seek, hSkip.1]
    dsimp only
    rw [ih _ hSkip.2, length_cons, Nat.add_assoc, Nat.add_comm 1]

theorem parted_cons (b : Bucket E) (bs : List (Bucket E)) :
    Parted (b :: bs) ↔
      ((∃ head ∈ prefixNodes b, prefixNodes head = []) →
        elementsOf (headsOf (b :: bs)) = []) ∧ Parted bs := by
  unfold Parted
  simp only [suffix_cons_iff]
  grind

theorem parted_empty (hEmpty : elementsOf (headsOf bs) = []) : Parted bs := by
  rintro b rest ⟨front, rfl⟩ -
  rw [headsOf_append, elementsOf_append] at hEmpty
  exact (append_eq_nil_iff.mp hEmpty).2

/- Buckets without heads do not matter. -/
theorem parted_skip (bs : List (Bucket E)) (hSkip : headsOf skip = []) :
    Parted (skip ++ bs) ↔ Parted bs := by
  induction skip with
  | nil => rfl
  | cons b skip ih =>
    rw [headsOf_cons, append_eq_nil_iff] at hSkip
    rw [cons_append, parted_cons, ih hSkip.2, hSkip.1]
    simp

/- A first head that has elements, and one that has none -/
theorem parted_head (hHeads : prefixNodes b = head :: heads) :
    Parted (b :: rest) ↔
      if prefixNodes head = [] then
        elementsOf (headsOf (b :: rest)) = []
      else Fine heads rest := by
  rw [parted_cons, headsOf_cons, hHeads]
  unfold Fine
  split
  case isTrue hHead =>
    refine ⟨fun hParted => hParted.1 ⟨head, mem_cons_self, hHead⟩,
      fun hEmpty => ⟨fun _ => hEmpty, parted_empty ?_⟩⟩
    rw [elementsOf_append] at hEmpty
    exact (append_eq_nil_iff.mp hEmpty).2
  case isFalse hHead =>
    have hSome : elementsOf (head :: heads ++ headsOf rest) ≠ [] := by
      simp [elementsOf, hHead]
    grind

/-
  An iterator that yielded `n` elements, with the elements that
  are left of its head, the heads that are left of its bucket,
  and the buckets behind it.  The first element of its bucket
  was yielded.
-/
inductive Left (h : Hash E) : Iterator E → Nat → List E →
    List (Head E) → List (Bucket E) → Prop
  | new : Left h (.new E) 0 [] [] (h.buckets.getD [])
  | inside {it : Iterator E} {n : Nat} {es : List E} {e : E}
      {b : Bucket E} {front bs : List (Bucket E)}
      {head : Head E} {heads heads' : List (Head E)}
      (hBuckets : h.buckets = some (front ++ b :: bs))
      (hBucket : it.bucket = front.length)
      (hHeads : prefixNodes b = head :: heads')
      (hHead : (prefixNodes head).head? = some e)
      (hFirst : e ∈ h.elements.take (n + 1))
      (hCurrent : it.current = some heads)
      (hList : it.list = some es) (hLast : it.hashHead.isSome)
      (hIndex : it.index = n)
      (hRest : h.elements.drop (n + 1) =
        es ++ elementsOf (heads ++ headsOf bs)) :
      Left h it (n + 1) es heads bs

/- What a call yields, and what it leaves -/
inductive Outcome (h : Hash E) (n : Nat) (heads : List (Head E))
    (bs : List (Bucket E)) (it : Iterator E) : Option (Option E) → Prop
  | next {e : E} (es : List E) {heads' : List (Head E)}
      {bs' : List (Bucket E)} (hGet : h.elements[n]? = some e)
      (hLeft : Left h it (n + 1) es heads' bs')
      (hFine : Fine heads bs ↔ Fine heads' bs') :
      Outcome h n heads bs it (some (some e))
  | stop (hIndex : it.index = n)
      (hFine : Fine heads bs ↔ h.elements.length ≤ n) :
      Outcome h n heads bs it none
  | again {e : E} (hFirst : e ∈ h.elements.take n)
      (hFine : ¬ Fine heads bs) :
      Outcome h n heads bs it (some (some e))

---
-- Calls
---

theorem enter_nil (hNodes : prefixNodes head = []) :
    enter it head = ({ it with list := some [] }, false) := by
  unfold enter
  rw [hNodes]

theorem enter_cons {e : E} (hNodes : prefixNodes head = e :: es) :
    enter it head = ({ it with list := some es, hashElement := some e }, true) := by
  unfold enter
  rw [hNodes]

/- The element that comes next, and those behind it -/
theorem elements_next (e : E) (rest : List E)
    (hRest : h.elements.drop n = e :: rest) :
    h.elements[n]? = some e ∧ h.elements.drop (n + 1) = rest := by
  rw [← head?_drop, ← tail_drop, hRest]
  exact ⟨rfl, rfl⟩

/- A call that leaves its bucket -/
theorem nextBucket_spec (front bs : List (Bucket E)) (it : Iterator E)
    (hBuckets : h.buckets = some (front ++ bs))
    (hBucket : it.bucket = front.length) (hIndex : it.index + 1 = n)
    (hLast : it.hashHead.isSome ∨ headsOf bs ≠ [])
    (hRest : h.elements.drop n = elementsOf (headsOf bs)) :
    ∃ it' ok, nextBucket h it = some (it', ok) ∧
      Outcome h n [] bs { it' with index := it'.index + 1 }
        (if ok then some it'.hashElement else none) := by
  have hSize := h.sized _ hBuckets
  rw [length_append] at hSize
  have hFine : Fine [] bs ↔ Parted bs := and_iff_right nofun
  have hDone : h.elements.length ≤ n ↔ elementsOf (headsOf bs) = [] := by
    rw [← hRest, drop_eq_nil_iff]
  unfold nextBucket
  rw [hBuckets, bind_eq_bind, bind_some, hBucket, drop_left]
  rcases exists_bucket bs with hNone | ⟨skip, b, rest, head, heads, rfl, hSkip, hHeads⟩
  · rcases isSome_iff_exists.mp (hLast.resolve_right (· hNone)) with ⟨head, hHead⟩
    have hEmpty : elementsOf (headsOf bs) = [] := by
      rw [hNone]
      rfl
    have hStop : Fine [] bs ↔ h.elements.length ≤ n :=
      iff_of_true (hFine.mpr (parted_empty hEmpty)) (hDone.mpr hEmpty)
    have hSeek := seek_append [] it hNone
    rw [append_nil] at hSeek
    rw [hSeek, seek]
    cases hNodes : prefixNodes head with
    | nil =>
      simp [hHead, enter_nil hNodes]
      exact .stop hIndex hStop
    | cons e es =>
      simp [hHead, enter_cons hNodes, hBucket, ← hSize]
      exact .stop hIndex hStop
  · have hParted := (parted_skip (b :: rest) hSkip).trans (parted_head hHeads)
    rw [headsOf_append, hSkip, nil_append] at hRest hDone
    rw [seek_append _ _ hSkip, seek, hHeads]
    cases hNodes : prefixNodes head with
    | nil =>
      rw [if_pos hNodes] at hParted
      simp [enter_nil hNodes]
      exact .stop hIndex (hFine.trans (hParted.trans hDone.symm))
    | cons e es =>
      rw [if_neg (by simp [hNodes])] at hParted
      rw [headsOf_cons, hHeads, cons_append] at hRest
      have hNext := elements_next e
        (es ++ elementsOf (heads ++ headsOf rest)) (by
          rw [hRest]
          simp [elementsOf, hNodes])
      have hFirst : e ∈ h.elements.take (n + 1) := by
        rw [take_add_one, hNext.1]
        exact mem_append_right _ mem_cons_self
      simp [enter_cons hNodes, hBucket, ← hSize]
      refine .next es hNext.1 ?_ (hFine.trans hParted)
      exact .inside (by simp [hBuckets]) length_append.symm hHeads
        (by rw [hNodes]; rfl) hFirst rfl rfl rfl hIndex hNext.2

theorem iteratorNext_spec (hLeft : Left h it n es heads bs)
    (hCount : n ≤ h.population) (hPos : 0 < h.population) :
    ∃ it' data, iteratorNext h it = some (it', data) ∧ Outcome h n heads bs it' data := by
  have hIndex : it.index < h.population := by
    cases hLeft <;> grind [Iterator.new]
  unfold iteratorNext
  rw [if_pos hIndex]
  cases hLeft with
  | new =>
    have hSome : h.heads ≠ [] := by
      have hCounted : h.population = h.elements.length := h.counted
      unfold Hash.elements at hCounted
      intro hNone
      rw [hNone] at hCounted
      exact absurd hCounted (Nat.ne_of_gt hPos)
    obtain ⟨bs, hBuckets⟩ : ∃ bs, h.buckets = some bs := by
      unfold Hash.heads at hSome
      cases hNull : h.buckets with
      | none =>
        rw [hNull] at hSome
        exact absurd rfl hSome
      | some bs => exact ⟨bs, rfl⟩
    rcases nextBucket_spec [] (h.buckets.getD []) { Iterator.new E with index := -1 }
      (by rw [hBuckets]; rfl) rfl rfl (.inr hSome) rfl with ⟨it', ok, hNext, hOut⟩
    refine ⟨_, _, ?_, hOut⟩
    simp [advance, Iterator.new] at hNext ⊢
    simp [hNext]
  | inside hBuckets hBucket hHeads hHead hFirst hCurrent hList hLast
      hIndex' hRest =>
    rename_i n e₁ b front head₁ heads₁
    -- the iterator stays in its bucket
    have hMove (it' : Iterator E) (e : E) (es' : List E)
        (heads' : List (Head E)) (hCurrent' : it'.current = heads')
        (hList' : it'.list = es') (hLast' : it'.hashHead.isSome)
        (hBucket' : it'.bucket = it.bucket) (hIndex' : it'.index = n + 1)
        (hRest' : es ++ elementsOf (heads ++ headsOf bs) =
          e :: (es' ++ elementsOf (heads' ++ headsOf bs)))
        (hFine : Fine heads bs ↔ Fine heads' bs) : Outcome h (n + 1) heads bs it' (some (some e)) :=
      have hNext := elements_next _ _ (hRest.trans hRest')
      .next es' hNext.1 (.inside hBuckets (hBucket'.trans hBucket)
        hHeads hHead (take_subset_take_left _ (Nat.le_succ _) hFirst)
        hCurrent' hList' hLast' hIndex' hNext.2) hFine
    unfold advance
    rw [hCurrent, hList]
    dsimp only [getD_some]
    cases es with
    | cons e es =>
      exact ⟨_, _, rfl, hMove _ e es heads rfl rfl hLast rfl (by simp [hIndex']) rfl .rfl⟩
    | nil =>
      cases heads with
      | nil =>
        rcases nextBucket_spec (n := n + 1) (front ++ [b]) bs
          { it with
            list := none, current := none, bucket := it.bucket + 1 }
          (by simp [hBuckets]) (by simp [hBucket])
          (by simp [hIndex']) (.inl hLast) hRest with ⟨it', ok, hNext, hOut⟩
        refine ⟨_, _, ?_, hOut⟩
        simp [hNext]
      | cons head heads =>
        cases hNodes : prefixNodes head with
        | cons e es =>
          simp only [enter_cons hNodes]
          exact ⟨_, _, rfl, hMove _ e es heads rfl rfl rfl rfl
            (by simp [hIndex']) (by simp [elementsOf, hNodes]) (by simp [Fine, hNodes])⟩
        | nil =>
          -- the bucket starts again
          have hSize := h.sized _ hBuckets
          rcases head?_eq_some_iff.mp hHead with ⟨es₁, hNodes₁⟩
          have hOut (it' : Iterator E) : Outcome h (n + 1)
              (head :: heads) bs it' (some (some e₁)) :=
            .again hFirst fun hFine =>
              hFine.1 head mem_cons_self hNodes
          refine ⟨?next, _, ?call, hOut ?next⟩
          case call =>
            simp [enter_nil hNodes, nextBucket, hBuckets, hBucket,
              seek, hHeads, enter_cons hNodes₁, ← hSize]
            rfl

---
-- Results
---

theorem Hash.lt_of_get {e : E} (hGet : h.elements[n]? = some e) : n < h.population := by
  rw [h.counted]
  exact (List.getElem?_eq_some_iff.mp hGet).1

theorem results_succ {it' : Iterator E} {data : Option (Option E)}
    (hNext : iteratorNext h it = some (it', data)) (n : Nat) :
    results h (n + 1) it = (results h n it').map (data :: ·) := by
  rw [results, hNext]
  exact map_eq_bind.symm

theorem outputs_succ (es : List E) (n count : Nat) :
    outputs es n (count + 1) = es[n]?.map some :: outputs es (n + 1) count := by
  unfold outputs
  rw [range_succ_eq_map, map_cons, List.map_map]
  simp [Function.comp_def, Nat.add_comm, Nat.add_left_comm]

theorem results_done (hIndex : h.population ≤ it.index)
    (hDone : es.length ≤ n) (count : Nat) : results h count it = some (outputs es n count) := by
  induction count generalizing n with
  | zero => rfl
  | succ count ih =>
    have hNext : iteratorNext h it = some (it, none) := if_neg (by omega)
    rw [results_succ hNext, ih (Nat.le_succ_of_le hDone), outputs_succ, getElem?_eq_none hDone]
    rfl

/- The elements that are left come in order. -/
theorem results_left (hLeft : Left h it n es heads bs)
    (hCount : n ≤ h.population) (hPos : 0 < h.population)
    (hFine : Fine heads bs) (count : Nat) :
    results h count it = some (outputs h.elements n count) := by
  induction count generalizing it n es heads bs with
  | zero => rfl
  | succ count ih =>
    rcases iteratorNext_spec hLeft hCount hPos with ⟨it', data, hNext, hOut⟩
    rw [results_succ hNext, outputs_succ]
    cases hOut with
    | next _ hGet hLeft' hIff =>
      rw [ih hLeft' (Hash.lt_of_get hGet) (hIff.mp hFine), hGet]
      rfl
    | stop hIndex hIff =>
      have hDone := hIff.mp hFine
      have hPopulation : h.population = h.elements.length := h.counted
      rw [results_done (by omega) (Nat.le_succ_of_le hDone), getElem?_eq_none hDone]
      rfl
    | again _ hNot => exact absurd hFine hNot

/- Where the calls yield the elements in some order -/
theorem fine_of_results {it : Iterator E} {n : Nat}
    {es seq : List E} {heads : List (Head E)} {bs : List (Bucket E)} (hPerm : seq.Perm h.elements)
    (hLeft : Left h it n es heads bs) (hCount : n ≤ h.population)
    (hPos : 0 < h.population) (hTake : seq.take n = h.elements.take n) (hResults : ∀ count,
      results h count it = some (outputs seq n count)) : Fine heads bs := by
  rcases iteratorNext_spec hLeft hCount hPos with ⟨it', data, hNext, hOut⟩
  have hCalls (count : Nat) : data = seq[n]?.map some ∧
      results h count it' = some (outputs seq (n + 1) count) := by
    have hCall := hResults (count + 1)
    rw [results_succ hNext, outputs_succ] at hCall
    rcases map_eq_some_iff.mp hCall with ⟨rest, hRest, hCons⟩
    rw [hRest, ← (cons.inj hCons).2]
    exact ⟨(cons.inj hCons).1, rfl⟩
  have hSeq := (hCalls 0).1
  cases hOut with
  | next _ hGet hLeft' hIff =>
    refine hIff.mpr (fine_of_results hPerm hLeft'
      (Hash.lt_of_get hGet) hPos ?_ fun count => (hCalls count).2)
    rw [take_add_one, take_add_one, hTake, hGet]
    grind
  | stop hIndex hIff =>
    have hLength := hPerm.length_eq
    exact hIff.mpr (by grind)
  | again hFirst hNot =>
    have hNodup : seq.Nodup := hPerm.nodup_iff.mpr h.nodup
    rw [← hTake, mem_take_iff_getElem] at hFirst
    rcases hFirst with ⟨i, hLess, hGet⟩
    grind [pairwise_iff_getElem]
termination_by h.population - n
decreasing_by
  have := Hash.lt_of_get hGet
  omega

/-
  The iterator yields each element once, and then nothing for
  ever, just if the hash is parted.
-/
theorem complete_iff (h : Hash E) :
    Complete h ↔ Parted (h.buckets.getD []) := by
  by_cases hZero : h.population = 0
  · have hNil : h.elements = [] :=
      eq_nil_of_length_eq_zero (h.counted.symm.trans hZero)
    refine iff_of_true ⟨[], by rw [hNil], ?_⟩ (parted_empty hNil)
    intro count
    exact results_done (by rw [hZero]; exact Int.le_refl 0)
      (Nat.le_refl 0) count
  · have hPos := Nat.pos_of_ne_zero hZero
    constructor
    · rintro ⟨seq, hPerm, hResults⟩
      exact (fine_of_results hPerm .new (Nat.zero_le _) hPos rfl
        hResults).2
    · intro hParted
      exact ⟨_, .refl _, results_left .new (Nat.zero_le _) hPos
        ⟨nofun, hParted⟩⟩

/- A bucket with an element, and an empty head behind it -/
def leftover : Hash Nat where
  buckets := some (.node .black .nil (.node .black .nil 0 .nil)
    (.node .red .nil .nil .nil) :: replicate 7 .nil)
  size := 8
  population := 1
  sized := by simp
  counted := rfl
  nodup := by decide

theorem leftover_repeats : ¬ Complete leftover := by
  rintro ⟨es, hPerm, hResults⟩
  obtain rfl : es = [0] := perm_singleton.mp hPerm
  exact absurd (hResults 2) (by decide)

end Efl.Eina.Hashes
