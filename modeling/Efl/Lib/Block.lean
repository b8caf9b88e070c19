import Mathlib.Data.List.Basic

/-
  Blocks of memory.

  An access outside of the block is `none`.

  Main declarations:
    * `Block.read`, `Block.write`, `Block.move`
    * `Block.fresh`, `Block.realloc`
    * `Block.write_append`
    * `Block.write_end`
-/

---
-- Accesses
---

namespace Efl.Block

open List Option

variable {α : Type}

def read (m : List α) (pos n : Nat) : Option (List α) :=
  if pos + n ≤ m.length then
    some ((m.drop pos).take n)
  else
    none

/- `memcpy` to the block, or `memset` -/
def write (m : List α) (pos : Nat) (bs : List α) : Option (List α) :=
  if pos + bs.length ≤ m.length then
    some (m.take pos ++ (bs ++ m.drop (pos + bs.length)))
  else
    none

/- `memmove` in the block -/
def move (m : List α) (dst src n : Nat) : Option (List α) := do
  let bs ← read m src n
  write m dst bs

/- A new block, with what is in its memory. -/
def fresh (junk : Nat → α) (n : Nat) : List α :=
  (List.range n).map junk

/- `realloc` -/
def realloc (junk : Nat → α) (m : List α) (n : Nat) : List α :=
  m.take n ++
    (List.range (n - m.length)).map fun i =>
      junk (m.length + i)

@[simp] theorem length_fresh (junk : Nat → α) (n : Nat) : (fresh junk n).length = n := by
  unfold fresh
  rw [length_map, length_range]

@[simp] theorem length_realloc (junk : Nat → α) (m : List α) (n : Nat) :
    (realloc junk m n).length = n := by
  unfold realloc
  rw [length_append, length_map, length_range, length_take]
  omega

/- What fits stays. -/
theorem realloc_append (junk : Nat → α) (l rest : List α) {n : Nat}
    (hFits : l.length ≤ n) : ∃ rest', realloc junk (l ++ rest) n = l ++ rest' := by
  unfold realloc
  rw [take_append, take_of_length_le hFits, append_assoc]
  exact ⟨_, rfl⟩

variable {m bs : List α}

theorem length_write {m' : List α} {pos : Nat}
    (hWrite : write m pos bs = some m') : m'.length = m.length := by
  unfold write at hWrite
  split at hWrite
  case isTrue hFits =>
    obtain rfl := some.inj hWrite
    rw [length_append, length_append, length_take, length_drop]
    omega
  case isFalse => exact nomatch hWrite

theorem length_move {m' : List α} {dst src n : Nat}
    (hMove : move m dst src n = some m') : m'.length = m.length := by
  unfold move at hMove
  rw [bind_eq_bind, bind_eq_some_iff] at hMove
  rcases hMove with ⟨bs, -, hWrite⟩
  exact length_write hWrite

theorem read_append (a b c : List α) : read (a ++ (b ++ c)) a.length b.length = some b := by
  unfold read
  rw [if_pos, drop_left, take_left]
  simp only [length_append]
  omega

theorem write_append (a : List α) {b : List α} (c : List α)
    (hLength : bs.length = b.length) :
    write (a ++ (b ++ c)) a.length bs = some (a ++ (bs ++ c)) := by
  unfold write
  rw [if_pos]
  · rw [take_left, hLength, ← append_assoc a b c, ← length_append, drop_left]
  · simp only [length_append]
    omega

variable {rest : List α}

/- A write over the start of what follows. -/
theorem write_end (a : List α) (hFits : bs.length ≤ rest.length) :
    write (a ++ rest) a.length bs = some (a ++ (bs ++ rest.drop bs.length)) := by
  have hLength : bs.length = (rest.take bs.length).length := by
    rw [length_take]
    omega
  conv_lhs => rw [← take_append_drop bs.length rest]
  exact write_append a _ hLength

theorem write_zero (hFits : bs.length ≤ rest.length) :
    write rest 0 bs = some (bs ++ rest.drop bs.length) := write_end [] hFits

theorem read_prefix {l : List α} (hPrefix : l <+: m) {pos n : Nat}
    (hFits : pos + n ≤ l.length) : read m pos n = some ((l.drop pos).take n) := by
  rcases hPrefix with ⟨rest, rfl⟩
  unfold read
  rw [if_pos (by rw [length_append]; omega), drop_append_of_le_length (by omega),
    take_append_of_le_length (by rw [length_drop]; omega)]

/- A write that starts in a prefix, and may go on after it. -/
theorem write_prefix {l : List α} (hPrefix : l <+: m) {pos : Nat}
    (hStart : pos ≤ l.length) (hFits : pos + bs.length ≤ m.length) :
    ∃ m', write m pos bs = some m' ∧ m'.length = m.length ∧
      l.take pos ++ (bs ++ l.drop (pos + bs.length)) <+: m' := by
  rcases hPrefix with ⟨rest, rfl⟩
  refine ⟨_, if_pos hFits, length_write (if_pos hFits), ?_⟩
  rw [take_append_of_le_length hStart, drop_append]
  refine ⟨rest.drop (pos + bs.length - l.length), ?_⟩
  rw [append_assoc, append_assoc]

/- A part moves to another distance from what is before. -/
theorem move_over (a mid b rest : List α) {n : Nat}
    (hFits : n ≤ mid.length + rest.length) :
    ∃ gap rest', gap.length = n ∧ move (a ++ (mid ++ (b ++ rest))) (a.length + n)
      (a.length + mid.length) b.length = some (a ++ (gap ++ (b ++ rest'))) := by
  have hRead : read (a ++ (mid ++ (b ++ rest))) (a.length + mid.length) b.length = some b := by
    rw [← append_assoc a mid, ← length_append]
    exact read_append _ _ _
  have hLength : (mid ++ (b ++ rest)).length = mid.length + (b.length + rest.length) := by
    rw [length_append, length_append]
  have hGap : ((mid ++ (b ++ rest)).take n).length = n := by
    rw [length_take]
    omega
  have hTo : a.length + n = (a ++ (mid ++ (b ++ rest)).take n).length := by
    rw [length_append, hGap]
  have hSplit : a ++ (mid ++ (b ++ rest)) =
      (a ++ (mid ++ (b ++ rest)).take n) ++ (mid ++ (b ++ rest)).drop n := by
    rw [append_assoc, take_append_drop]
  have hRoom : b.length ≤ ((mid ++ (b ++ rest)).drop n).length := by
    rw [length_drop]
    omega
  refine ⟨(mid ++ (b ++ rest)).take n, ((mid ++ (b ++ rest)).drop n).drop b.length, hGap, ?_⟩
  unfold move
  rw [hRead, bind_eq_bind, bind_some, hTo]
  conv_lhs => rw [hSplit]
  rw [write_end _ hRoom, append_assoc]

/- A part moves up, and a gap is before it. -/
theorem move_gap (a b : List α) {n : Nat} (hFits : n ≤ rest.length) :
    ∃ gap rest', gap.length = n ∧
      move (a ++ (b ++ rest)) (a.length + n) a.length b.length =
        some (a ++ (gap ++ (b ++ rest'))) := by
  rcases move_over a [] b rest (show n ≤ 0 + rest.length by omega) with ⟨gap, rest', hGap, hMove⟩
  exact ⟨gap, rest', hGap, hMove⟩

/- A part moves down, over what was before it. -/
theorem move_back (a gap b rest : List α) :
    ∃ rest', move (a ++ (gap ++ (b ++ rest))) a.length
      (a.length + gap.length) b.length = some (a ++ (b ++ rest')) := by
  rcases move_over a gap b rest (Nat.zero_le _) with ⟨none', rest', hNone, hMove⟩
  rw [length_eq_zero_iff.mp hNone] at hMove
  exact ⟨rest', hMove⟩

end Efl.Block
