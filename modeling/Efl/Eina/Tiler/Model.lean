import Efl.Eina.Rectangle

/-
  `Eina_Tiler` and its splitter.

  The linked lists of the splitter are lists, and a node
  pointer into the list of rectangles is the number of nodes
  up to it.  Loops that the source does not bound take fuel.
  `none` is fuel that ran out, a call of `abort` or a read of
  an uninitialised pointer.

  Main declarations:
    * `Tiler.Rect`
    * `Tiler.delSplitStrict`
-/

---
-- Rectangles of the Splitter
---

namespace Efl.Eina.Tiler

open CInt

/- `rect_t` -/
structure Rect where
  right : Int
  bottom : Int
  left : Int
  top : Int
  width : Int
  height : Int
  area : Int
  deriving DecidableEq, Repr

/- `rect_init` -/
def rectInit (x y w h : Int) : Rect where
  right := wrap (x + w)
  bottom := wrap (y + h)
  left := x
  top := y
  width := w
  height := h
  area := wrap (w * h)

/- `_calc_intra_rect_area` -/
def calcIntraRectArea (a b : Rect) : Int × Int :=
  let maxLeft := if a.left < b.left then b.left else a.left
  let minRight :=
    if a.right < b.right then a.right else b.right
  let maxTop := if a.top < b.top then b.top else a.top
  let minBottom :=
    if a.bottom < b.bottom then a.bottom else b.bottom
  (wrap (minRight - maxLeft), wrap (minBottom - maxTop))

/-
  The cut at the top of `a` in `_split_strict` and in
  `_split_fuzzy`: what it appends to `dirty`, and the rest.
-/
def cutAbove (a b : Rect) : List Rect × Rect :=
  let h₁ := wrap (a.top - b.top)
  if 0 < h₁ then
    ([rectInit b.left b.top b.width h₁],
      { b with
        height := wrap (b.height - h₁)
        top := a.top })
  else
    ([], b)

/- The cut at the bottom of `a`. -/
def cutBelow (a b : Rect) : List Rect × Rect :=
  let h₂ := wrap (b.bottom - a.bottom)
  if 0 < h₂ then
    ([rectInit b.left a.bottom b.width h₂],
      { b with height := wrap (b.height - h₂) })
  else
    ([], b)

/- The cuts at both sides of `a`. -/
def cutSides (a b : Rect) : List Rect :=
  let w₁ := wrap (a.left - b.left)
  let w₂ := wrap (b.right - a.right)
  (if 0 < w₁ then
    [rectInit b.left b.top w₁ b.height]
  else
    []) ++
  (if 0 < w₂ then
    [rectInit a.right b.top w₂ b.height]
  else
    [])

/- `_split_strict`, the rectangles it appends to `dirty`. -/
def splitStrict (current r : Rect) : List Rect :=
  let (above, r) := cutAbove current r
  let (below, r) := cutBelow current r
  above ++ below ++ cutSides current r

/- `_calc_outer_rect_area` -/
def calcOuterRectArea (a b : Rect) : Rect :=
  let minLeft := if a.left < b.left then a.left else b.left
  let maxRight :=
    if a.right < b.right then b.right else a.right
  let minTop := if a.top < b.top then a.top else b.top
  let maxBottom :=
    if a.bottom < b.bottom then b.bottom else a.bottom
  let width := wrap (maxRight - minLeft)
  let height := wrap (maxBottom - minTop)
  { left := minLeft
    right := maxRight
    width := width
    top := minTop
    bottom := maxBottom
    height := height
    area := wrap (width * height) }

/-
  `_calc_intra_outer_rect_area`, the intersection.  The outer
  rectangle is the one of `_calc_outer_rect_area`.
-/
def calcIntra (a b : Rect) : Rect :=
  let maxLeft := if a.left < b.left then b.left else a.left
  let minRight :=
    if a.right < b.right then a.right else b.right
  let maxTop := if a.top < b.top then b.top else a.top
  let minBottom :=
    if a.bottom < b.bottom then a.bottom else b.bottom
  let width := wrap (minRight - maxLeft)
  let height := wrap (minBottom - maxTop)
  { left := maxLeft
    right := minRight
    width := width
    top := maxTop
    bottom := minBottom
    height := height
    area :=
      if 0 < width ∧ 0 < height then
        wrap (width * height)
      else
        0 }

/- The `SPLIT_FUZZY_ACTION_` constants. -/
inductive SplitFuzzyAction where
  | none
  | split
  | merge
  deriving DecidableEq

/-
  `_split_fuzzy`: the rectangles it appends to `dirty`, the
  new `b` and the action.
-/
def splitFuzzy (a b : Rect) : List Rect × Rect × SplitFuzzyAction :=
  let w₁ := wrap (a.left - b.left)
  let w₂ := wrap (b.right - a.right)
  let (above, b) := cutAbove a b
  let (below, b) := cutBelow a b
  if (0 < w₁ ∨ 0 < w₂) ∧ a.height = b.height then
    (above ++ below, b, .merge)
  else
    let dirty := above ++ below ++ cutSides a b
    (dirty, b, if dirty.isEmpty then .none else .split)

---
-- The Splitter
---

/-
  `rect_list_del_split_strict`: the rectangles that stay, and
  those that are appended in the end.
-/
def delSplitStrictLoop (delR : Rect) : List Rect → List Rect × List Rect
  | [] => ([], [])
  | current :: rects =>
    let (intraWidth, intraHeight) :=
      calcIntraRectArea delR current
    let (kept, modified) := delSplitStrictLoop delR rects
    if intraWidth ≤ 0 ∨ intraHeight ≤ 0 then
      (current :: kept, modified)
    else if intraWidth = current.width ∧
        intraHeight = current.height then
      (kept, modified)
    else
      (kept, splitStrict delR current ++ modified)

/- `rect_list_del_split_strict` -/
def delSplitStrict (rects : List Rect) (delR : Rect) : List Rect :=
  let (kept, modified) := delSplitStrictLoop delR rects
  kept ++ modified

/-
  What the inner loop of `rect_list_add_split_fuzzy` leaves:
  the list, `old_last`, `keep_dirty` and what it appends to
  `dirty`.
-/
structure Scan where
  rects : List Rect
  oldLast : Nat
  keepDirty : Bool
  dirty : List Rect

/- `old_last` after node `i` is unlinked. -/
def unlinkAt (oldLast i : Nat) : Nat :=
  if i < oldLast then oldLast - 1 else oldLast

/- The branch "split is required" of the inner loop. -/
def scanSplit (r current outer : Rect) (pre rects : List Rect) (oldLast : Nat) : Option Scan :=
  match splitFuzzy current r with
  | (_, _, .none) => none
  | (dirty, _, .split) =>
    some ⟨pre ++ current :: rects, oldLast, false, dirty⟩
  | (dirty, r, .merge) =>
    let n :=
      { current with
        left := outer.left
        width := outer.width
        right := outer.right
        area := wrap (outer.width * r.height) }
    some ⟨pre ++ rects, unlinkAt oldLast pre.length,
      false, dirty ++ [n]⟩

/-
  The inner loop, where `pre` are the nodes up to
  `prev_cur_node` and the other list begins at `cur_node`.
-/
def scan (acceptedError : Int) (r : Rect) : List Rect → List Rect → Nat → Option Scan
  | pre, [], oldLast => some ⟨pre, oldLast, true, []⟩
  | pre, current :: rects, oldLast =>
    let intra := calcIntra r current
    let outer := calcOuterRectArea r current
    let area :=
      wrap (wrap (current.area + r.area) - intra.area)
    if intra.width = r.width ∧ intra.height = r.height then
      some ⟨pre ++ current :: rects, oldLast, false, []⟩
    else if intra.width = current.width ∧
        intra.height = current.height then
      scan acceptedError r pre rects
        (unlinkAt oldLast pre.length)
    else if wrap (outer.area - area) ≤ acceptedError then
      some ⟨pre ++ rects, unlinkAt oldLast pre.length,
        false, [outer]⟩
    else if intra.area ≤ acceptedError then
      scan acceptedError r (pre ++ [current]) rects oldLast
    else
      scanSplit r current outer pre rects oldLast

/- The outer loop: the list and `old_last` at its end. -/
def addSplitFuzzyLoop (acceptedError : Int) : Nat → List Rect → List Rect → Nat →
      Option (List Rect × Nat)
  | _, rects, [], oldLast => some (rects, oldLast)
  | 0, _, _ :: _, _ => none
  | fuel + 1, rects, r :: dirty, oldLast => do
    let s ← scan acceptedError r [] rects oldLast
    addSplitFuzzyLoop acceptedError fuel
      (if s.keepDirty then s.rects ++ [r] else s.rects)
      (dirty ++ s.dirty) s.oldLast

/- `rect_list_add_split_fuzzy` -/
def addSplitFuzzy (fuel : Nat) (rects : List Rect) (node : Rect)
    (acceptedError : Int) : Option (List Rect × Nat) :=
  if rects.isEmpty then
    some ([node], 0)
  else
    addSplitFuzzyLoop acceptedError fuel rects [node]
      rects.length

/-
  The inner loop of `rect_list_merge_rects`: the list without
  the node merged with `r₁`, and the merged rectangle.
-/
def findMerge (acceptedError : Int) (r₁ : Rect) : List Rect → Option (List Rect × Rect)
  | [] => none
  | r₂ :: rects =>
    let outer := calcOuterRectArea r₁ r₂
    let area := wrap (r₁.area + r₂.area)
    if wrap (outer.area - area) ≤ acceptedError then
      some (rects, outer)
    else
      (findMerge acceptedError r₁ rects).map
        fun (rects, outer) => (r₂ :: rects, outer)

/- `rect_list_merge_rects` -/
def mergeRects (acceptedError : Int) : Nat → List Rect → List Rect → Option (List Rect)
  | _, rects, [] => some rects
  | 0, _, _ :: _ => none
  | fuel + 1, rects, r₁ :: toMerge =>
    match findMerge acceptedError r₁ rects with
    | some (rects, outer) =>
      mergeRects acceptedError fuel rects
        (toMerge ++ [outer])
    | none =>
      mergeRects acceptedError fuel (rects ++ [r₁])
        toMerge

/- `rect_list_add_split_fuzzy_and_merge` -/
def addSplitFuzzyAndMerge (fuel : Nat) (rects : List Rect)
    (node : Rect) (splitAcceptedError mergeAcceptedError : Int) : Option (List Rect) := do
  let (rects, n) ←
    addSplitFuzzy fuel rects node splitAcceptedError
  if 0 < n then
    mergeRects mergeAcceptedError fuel (rects.take n)
      (rects.drop n)
  else
    some rects

end Efl.Eina.Tiler

---
-- The Tiler
---

namespace Efl.Eina

open CInt

/- `Eina_Tiler` -/
structure Tiler where
  tileW : Int
  tileH : Int
  lastAdd : Rectangle
  lastDel : Rectangle
  area : Rectangle
  needMerge : Bool
  rects : List Tiler.Rect
  rounding : Bool
  strict : Bool

namespace Tiler

/- `x >> 1` -/
def half (x : Int) : Int :=
  x / 2

/- `x << 1` -/
def twice (x : Int) : Int :=
  wrap (x * 2)

/- The accepted error: the area of a tile. -/
def tileArea (t : Tiler) : Int :=
  wrap (t.tileW * t.tileH)

/- `eina_tiler_new` -/
def new (w h : Int) : Option Tiler :=
  if w ≤ 0 ∨ h ≤ 0 then
    none
  else
    some
      { tileW := 32
        tileH := 32
        lastAdd := ⟨0, 0, -1, -1⟩
        lastDel := ⟨0, 0, -1, -1⟩
        area := ⟨0, 0, w, h⟩
        needMerge := false
        rects := []
        rounding := true
        strict := false }

/- `eina_tiler_tile_size_set` -/
def tileSizeSet (t : Tiler) (w h : Int) : Tiler :=
  if w ≤ 0 ∨ h ≤ 0 then t
  else if t.tileW = w ∧ t.tileH = h then t
  else
    { t with
      rounding :=
        if w = 1 ∨ h = 1 then false else t.rounding
      tileW := w
      tileH := h
      rects := [] }

/- `eina_tiler_strict_set` -/
def strictSet (t : Tiler) (strict : Bool) : Tiler :=
  { t with strict := strict }

/- The rectangle that `_splitter_rect_add` adds. -/
def roundAdd (rounding : Bool) (r : Rectangle) : Rectangle :=
  if rounding then
    ⟨half r.x, half r.y, half (wrap (r.w + 2)),
      half (wrap (r.h + 2))⟩
  else
    r

/- `_splitter_rect_add` -/
def splitterRectAdd (fuel : Nat) (t : Tiler) (rect : Rectangle) : Option Tiler := do
  let rect := roundAdd t.rounding rect
  let rects ←
    addSplitFuzzyAndMerge fuel t.rects
      (rectInit rect.x rect.y rect.w rect.h)
      t.tileArea t.tileArea
  some { t with rects := rects }

/- The rectangle that `_splitter_rect_del` deletes. -/
def roundDel (rounding : Bool) (r : Rectangle) : Rectangle :=
  if rounding then
    ⟨half (wrap (r.x + 1)), half (wrap (r.y + 1)),
      half (wrap (r.w - 1)), half (wrap (r.h - 1))⟩
  else
    r

/- `_splitter_rect_del` -/
def splitterRectDel (t : Tiler) (rect : Rectangle) : Tiler :=
  if t.rects.isEmpty then
    t
  else
    let rect := roundDel t.rounding rect
    if rect.w ≤ 0 ∨ rect.h ≤ 0 then
      t
    else
      { t with
        rects := delSplitStrict t.rects
          (rectInit rect.x rect.y rect.w rect.h)
        needMerge := true }

/- `last.add.w = last.add.h = -1` -/
def forget (r : Rectangle) : Rectangle :=
  { r with
    w := -1
    h := -1 }

/-
  The rectangle that an add or a delete is about, or `none`
  when the call does nothing.
-/
def clip (t : Tiler) (r : Rectangle) : Option Rectangle :=
  if r.w ≤ 0 ∨ r.h ≤ 0 then
    none
  else
    let (tmp, meets) := Rectangle.intersection r t.area
    if !meets then none
    else if tmp.w ≤ 0 ∨ tmp.h ≤ 0 then none
    else some tmp

/- `eina_tiler_rect_add` -/
def rectAdd (fuel : Nat) (t : Tiler) (r : Rectangle) : Option (Tiler × Bool) :=
  match t.clip r with
  | none => some (t, false)
  | some tmp =>
    if tmp = t.lastAdd then
      some (t, true)
    else do
      let t :=
        { t with
          lastAdd := tmp
          lastDel := forget t.lastDel }
      let t ← splitterRectAdd fuel t tmp
      some (t, true)

/- `eina_tiler_rect_del` -/
def rectDel (t : Tiler) (r : Rectangle) : Tiler :=
  match t.clip r with
  | none => t
  | some tmp =>
    if tmp = t.lastDel then
      t
    else
      splitterRectDel
        { t with
          lastDel := tmp
          lastAdd := forget t.lastAdd } tmp

/- `eina_tiler_clear` -/
def clear (t : Tiler) : Tiler :=
  { t with
    rects := []
    needMerge := false
    lastAdd := forget t.lastAdd
    lastDel := forget t.lastDel }

/- A rectangle rounded up to whole tiles. -/
def roundTiles (t : Tiler) (r : Rect) : Rect :=
  let x₁ := r.left
  let x₂ := wrap (x₁ + r.width)
  let y₁ := r.top
  let y₂ := wrap (y₁ + r.height)
  let x₁ := wrap (t.tileW * x₁.tdiv t.tileW)
  let y₁ := wrap (t.tileH * y₁.tdiv t.tileH)
  let x₂ := wrap (t.tileW *
    (wrap (wrap (x₂ + t.tileW) - 1)).tdiv t.tileW)
  let y₂ := wrap (t.tileH *
    (wrap (wrap (y₂ + t.tileH) - 1)).tdiv t.tileH)
  rectInit x₁ y₁ (wrap (x₂ - x₁)) (wrap (y₂ - y₁))

/- The loop of strict mode over the rectangles. -/
def roundRects (fuel : Nat) (t : Tiler) : List Rect → List Rect → Option (List Rect)
  | [], toMerge => some toMerge
  | r :: rects, toMerge => do
    let toMerge ←
      addSplitFuzzyAndMerge fuel toMerge (t.roundTiles r)
        t.tileArea t.tileArea
    roundRects fuel t rects toMerge

/-
  `eina_tiler_iterator_new`: the tiler whose rectangles the
  iterator goes through.
-/
def iteratorNew (fuel : Nat) (t : Tiler) : Option Tiler :=
  if t.needMerge then do
    let toMerge ←
      if t.strict then
        roundRects fuel t t.rects []
      else
        some t.rects
    let rects ← mergeRects t.tileArea fuel [] toMerge
    some
      { t with
        rects := rects
        needMerge := false }
  else
    some t

/-
  One pass of `_iterator_next`: the value of `it->r`, and
  whether it is passed on.
-/
def iteratorPass (t : Tiler) (cur : Rect) : Rectangle × Bool :=
  let r : Rectangle :=
    if t.rounding then
      ⟨twice cur.left, twice cur.top, twice cur.width,
        twice cur.height⟩
    else
      ⟨cur.left, cur.top, cur.width, cur.height⟩
  let (r, meets) := Rectangle.intersection r t.area
  (r, meets && !(decide (r.w ≤ 0) || decide (r.h ≤ 0)))

/- The rectangles that the iterator yields. -/
def yielded (t : Tiler) : List Rectangle :=
  ((t.rects.map t.iteratorPass).filter fun p => p.2).map
    fun p => p.1

/- The value of `it->r` when the iterator has ended. -/
def lastPass (t : Tiler) : Option (Rectangle × Bool) :=
  (t.rects.map t.iteratorPass).getLast?

/- The rectangle that union and subtract pass on. -/
def shrink (rounding : Bool) (r : Rectangle) : Rectangle :=
  if rounding then
    { r with
      w := wrap (r.w - 1)
      h := wrap (r.h - 1) }
  else
    r

/- Add a list of rectangles, as `eina_tiler_union` does. -/
def addAll (fuel : Nat) (rounding : Bool) : Tiler → List Rectangle → Option Tiler
  | t, [] => some t
  | t, r :: rs => do
    let t ← splitterRectAdd fuel t (shrink rounding r)
    addAll fuel rounding t rs

/-
  `eina_tiler_union`: the tilers `dst` and `src` after the
  call, and its result.  The pointer `rect` is initialised
  by the first rectangle that the iterator yields.
-/
def union (fuel : Nat) (dst src : Tiler) : Option (Tiler × Tiler × Bool) :=
  if src.area.w ≤ 0 ∨ src.area.h ≤ 0 then
    some (dst, src, false)
  else do
    let dst :=
      { dst with
        area :=
          { dst.area with
            w := max src.area.w dst.area.w
            h := max src.area.h dst.area.h } }
    let src ← src.iteratorNew fuel
    if src.rects.isEmpty then
      some (dst, src, false)
    else do
      let dst ← addAll fuel src.rounding dst src.yielded
      if src.yielded.isEmpty then
        none
      else do
        let (rect, _) ← src.lastPass
        some ({ dst with lastAdd := rect }, src, true)

/- Delete a list of rectangles, as `eina_tiler_subtract` does. -/
def delAll (rounding : Bool) : Tiler → List Rectangle → Tiler
  | t, [] => t
  | t, r :: rs =>
    delAll rounding
      (splitterRectDel t (shrink rounding r)) rs

/- `eina_tiler_subtract` -/
def subtract (fuel : Nat) (dst src : Tiler) : Option (Tiler × Tiler × Bool) :=
  if src.area.w ≤ 0 ∨ src.area.h ≤ 0 then
    some (dst, src, false)
  else do
    let src ← src.iteratorNew fuel
    if src.rects.isEmpty then
      some (dst, src, false)
    else do
      let dst := delAll src.rounding dst src.yielded
      if src.yielded.isEmpty then
        none
      else do
        let (rect, _) ← src.lastPass
        some ({ dst with lastDel := rect }, src, true)

end Tiler

end Efl.Eina
