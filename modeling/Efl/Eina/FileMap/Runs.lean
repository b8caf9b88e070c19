import Efl.Eina.FileMap.Regions
import Efl.Lib.Runs

/-
  Runs of the calls on the mappings of a file.

  Main declarations:
    * `Op`, `step`
    * `Admissible`, `Sound`
    * `maps_correct`
-/

---
-- Steps
---

namespace Efl.Eina.FileMap

open Option

inductive Op where
  | mapAll (answer : Option Nat)
  | mapNew (answer : Option Nat) (offset length : Nat)
  | mapFree (addr : Nat)
  | refresh (size : Nat)

def step (st : State) : Op → Option State
  | .mapAll answer =>
    let (f, addr) := mapAll st.file answer
    some (st.handOut f addr)
  | .mapNew answer offset length => do
    let (f, addr) ← mapNew st.file answer offset length
    some (st.handOut f addr)
  | .mapFree addr => do
    let f ← mapFree st.file addr
    some ⟨f, Function.update st.held addr (st.held addr - 1)⟩
  | .refresh size => do
    let f ← refresh st.file size
    some ⟨f, st.held⟩

/-
  New regions are inside of the file, what is freed was
  returned more often than freed, and sizes are 64 bits wide.
-/
def Admissible (st : State) : Op → Prop
  | .mapAll answer => Fresh st.file answer
  | .mapNew answer offset length =>
    Fresh st.file answer ∧ offset + length ≤ st.file.length
  | .mapFree addr => 0 < st.held addr
  | .refresh size => size < 18446744073709551616

/-
  References can be counted.  When the size changes, a global
  map is held as often as the file, and no other region ends
  behind the new size.
-/
def Sound (st : State) : Op → Prop
  | .mapAll _ => ∀ addr, st.held addr < 2147483647
  | .mapNew _ _ _ => ∀ addr, st.held addr < 2147483647
  | .mapFree _ => True
  | .refresh size => st.file.length ≠ size →
      (st.file.globalMap ≠ none →
        st.file.refcount = st.file.globalRefcount) ∧
      ∀ e ∈ st.file.map, e.1.1 + e.1.2 ≤ size

/-
  What is held is mapped, what is not held is not, nothing is
  mapped twice, and all that is left is unmapped once when the
  file is closed.
-/
structure Correct (st : State) : Prop where
  mapped : ∀ addr,
    addr ∈ st.file.mapped.map Prod.fst ↔ 0 < st.held addr
  once : (st.file.mapped.map Prod.fst).Nodup
  closed : ∃ f, close st.file = some f ∧ f.mapped = []

variable {st : State}

theorem Inv.correct {hs : List Nat} (hInv : Inv st hs) : Correct st where
  mapped := hInv.mapped_iff
  once := hInv.once
  closed := close_spec hInv

/- Every call keeps what is mapped and what is held together. -/
theorem step_spec {hs : List Nat} {op : Op} (hInv : Inv st hs)
    (hAdmissible : Admissible st op) (hSound : Sound st op) :
    ∃ st' hs', step st op = some st' ∧ Inv st' hs' := by
  cases op with
  | mapAll answer =>
    exact ⟨_, hs, rfl, mapAll_spec hInv hAdmissible hSound⟩
  | mapNew answer offset length =>
    rcases mapNew_spec hInv hAdmissible.1 hAdmissible.2 hSound with ⟨f, addr, hs', hNew, hInv'⟩
    refine ⟨_, hs', ?_, hInv'⟩
    unfold step
    dsimp only
    rw [hNew]
    rfl
  | mapFree addr =>
    rcases mapFree_spec hInv hAdmissible with ⟨f, hs', hFree, hInv'⟩
    refine ⟨_, hs', ?_, hInv'⟩
    unfold step
    dsimp only
    rw [hFree]
    rfl
  | refresh size =>
    rcases refresh_spec hInv hAdmissible hSound with ⟨f, hRefresh, hInv'⟩
    refine ⟨_, hs, ?_, hInv'⟩
    unfold step
    dsimp only
    rw [hRefresh]
    rfl

/-
  The mappings of a file of any size, that is open any number
  of times
-/
theorem maps_correct {length : Nat} {refcount : Int} {ops : List Op}
    (hSize : length < 18446744073709551616)
    (hGuarded : Runs.Guarded step (fun st op => Admissible st op ∧
    Sound st op) ⟨File.new length refcount, fun _ => 0⟩ ops) :
    ∃ st, Runs.run step ⟨File.new length refcount, fun _ =>
        0⟩ ops = some st ∧ Correct st := by
  rcases Runs.run_of_guarded (fun st => ∃ hs, Inv st hs)
      (fun st op hInv hOk => by
        rcases hInv with ⟨hs, hInv⟩
        rcases step_spec hInv hOk.1 hOk.2 with ⟨st', hs', hStep, hInv'⟩
        exact ⟨st', hStep, hs', hInv'⟩)
      ⟨[], new_spec refcount hSize⟩ hGuarded with
    ⟨st, hRun, hs, hInv⟩
  exact ⟨st, hRun, hInv.correct⟩

theorem maps_correct_sample :
    ∃ st, Runs.run step ⟨File.new 8192 1, fun _ => 0⟩
        [.mapAll (some 4096), .refresh 4096, .mapFree 4096] =
        some st ∧
      Correct st := by
  apply maps_correct (by decide)
  have hBound : 0 < 2147483647 := by decide
  refine ⟨⟨?_, fun _ => hBound⟩, ?_⟩
  · exact fun addr _ h => nomatch h
  intro st₁ hFirst
  obtain rfl := some.inj hFirst
  refine ⟨⟨show 4096 < 18446744073709551616 by decide, ?_⟩, ?_⟩
  · exact fun _ => ⟨fun _ => rfl, fun e h => (nomatch h)⟩
  intro st₂ hSecond
  obtain rfl := some.inj hSecond
  exact ⟨⟨show 0 < 1 by decide, trivial⟩, fun _ _ => trivial⟩

/-
  A region that was handed out twice is unmapped when it was
  freed once, after the size has changed.
-/
theorem held_region_is_unmapped :
    ¬ ∀ length refcount ops,
      length < 18446744073709551616 →
      Runs.Guarded step Admissible
        ⟨File.new length refcount, fun _ => 0⟩ ops →
      ∃ st, Runs.run step ⟨File.new length refcount, fun _ =>
          0⟩ ops = some st ∧ Correct st := by
  intro hClaim
  rcases hClaim 8192 1 [.mapAll (some 4096), .mapAll none,
      .refresh 4096, .mapFree 4096] (by decide) (by
        refine ⟨fun addr _ h => (nomatch h), fun st₁ h₁ => ?_⟩
        obtain rfl := some.inj h₁
        refine ⟨fun addr h => (nomatch h), fun st₂ h₂ => ?_⟩
        obtain rfl := some.inj h₂
        refine ⟨show 4096 < 18446744073709551616 by decide,
          fun st₃ h₃ => ?_⟩
        obtain rfl := some.inj h₃
        exact ⟨show 0 < 2 by decide, fun _ _ => trivial⟩) with
    ⟨st, hRun, hCorrect⟩
  obtain rfl := some.inj hRun
  have hMapped := (hCorrect.mapped 4096).mpr (show 0 < 1 by decide)
  exact nomatch hMapped

end Efl.Eina.FileMap
