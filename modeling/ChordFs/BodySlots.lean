import ChordFs.Lib.Runs
import Mathlib.Algebra.BigOperators.Group.List.Basic
import Mathlib.Algebra.Order.Ring.Int

/-! # Body slots

How many chunk bodies a process holds at once (`hold_body` and `Slot`, `chunk.cpp`).  The threads of
the process share one counter, and each of them moves by one atomic operation on it at a time: a
call adds one and looks at what was there before, a refused call takes its one back in a second
step, and a slot that is dropped gives its one back.  Between the two steps of a refused call the
counter is above the number of slots held (`bodies_never_exceeded`). -/

namespace ChordFs

/-- Chunk bodies held in memory at once, per process. -/
def MAX_BODIES : ℤ := 32

/-- A thread: whether its call of `hold_body` was refused and has yet to undo its `fetch_add`, and
how many of the slots it got are still held. -/
structure BodyThread where
  refused : Bool
  slots : ℕ
deriving DecidableEq

/-- `ChunkNode::bodies`, and the threads that use it. -/
structure BodySlots where
  bodies : ℤ
  threads : List BodyThread
deriving DecidableEq

/-- Which thread moves, and how. -/
inductive BodyStep where
  /-- `hold_body` up to its `fetch_add`. -/
  | holdBody (t : ℕ)
  /-- The `fetch_sub` of a refused call, which then returns. -/
  | undo (t : ℕ)
  /-- The destructor of a `Slot` that thread `t` got, in whichever thread it runs. -/
  | release (t : ℕ)

namespace BodySlots

def start (threads : ℕ) : BodySlots := ⟨0, List.replicate threads ⟨false, 0⟩⟩

/-- One atomic operation on the counter; `none` if the thread is not about to do it. -/
def step? (s : BodySlots) : BodyStep → Option BodySlots
  | .holdBody t =>
    match s.threads[t]? with
    | some ⟨false, k⟩ =>
      some ⟨s.bodies + 1, s.threads.set t (if s.bodies ≥ MAX_BODIES then ⟨true, k⟩ else ⟨false, k + 1⟩)⟩
    | _ => none
  | .undo t =>
    match s.threads[t]? with
    | some ⟨true, k⟩ => some ⟨s.bodies - 1, s.threads.set t ⟨false, k⟩⟩
    | _ => none
  | .release t =>
    match s.threads[t]? with
    | some ⟨r, k + 1⟩ => some ⟨s.bodies - 1, s.threads.set t ⟨r, k⟩⟩
    | _ => none

/-- The slots held. -/
def held (s : BodySlots) : ℕ := (s.threads.map BodyThread.slots).sum

/-- The refused calls not yet undone. -/
def refusals (s : BodySlots) : ℕ := (s.threads.map fun th => th.refused.toNat).sum

/-- The counter is the slots held and the refused calls not yet undone, and there are never too many
of the first. -/
structure Balanced (s : BodySlots) : Prop where
  bodies : s.bodies = s.held + s.refusals
  held_le : (s.held : ℤ) ≤ MAX_BODIES

theorem balanced_start (threads : ℕ) : Balanced (start threads) := by
  constructor <;> simp [start, held, refusals, MAX_BODIES]

theorem sum_map_set {α : Type} (f : α → ℕ) {l : List α} {t : ℕ} {x : α} (h : l[t]? = some x) (y : α) :
    ((l.set t y).map f).sum + f x = (l.map f).sum + f y := by
  induction l generalizing t with
  | nil => simp at h
  | cons a l ih =>
    cases t with
    | zero =>
      obtain rfl : a = x := by simpa using h
      simp only [List.set_cons_zero, List.map_cons, List.sum_cons]
      omega
    | succ t =>
      have := ih (t := t) (by simpa using h)
      simp only [List.set_cons_succ, List.map_cons, List.sum_cons]
      omega

variable {s s' : BodySlots}

theorem Balanced.set (h : Balanced s) {t : ℕ} {x y : BodyThread} {d : ℤ} (ht : s.threads[t]? = some x)
    (hd : (y.slots : ℤ) + y.refused.toNat = x.slots + x.refused.toNat + d)
    (hroom : x.slots < y.slots → y.slots = x.slots + 1 ∧ s.bodies < MAX_BODIES) :
    Balanced ⟨s.bodies + d, s.threads.set t y⟩ := by
  have hslots := sum_map_set BodyThread.slots ht y
  have hrefused := sum_map_set (fun th => th.refused.toNat) ht y
  obtain ⟨hb, hle⟩ := h
  simp only [held, refusals] at hb hle
  constructor <;> simp only [held, refusals] <;> omega

theorem Balanced.step (h : Balanced s) {e : BodyStep} (hs : s.step? e = some s') : Balanced s' := by
  cases e with
  | holdBody t =>
    rw [step?] at hs
    split at hs
    · rename_i ht
      cases hs
      refine h.set ht ?_ ?_ <;> split <;> simp
      omega
    · cases hs
  | undo t =>
    rw [step?] at hs
    split at hs
    · rename_i ht
      cases hs
      exact h.set ht (by simp) (by simp)
    · cases hs
  | release t =>
    rw [step?] at hs
    split at hs
    · rename_i ht
      cases hs
      exact h.set ht (by simp; omega) (by simp)
    · cases hs

theorem refusals_eq_zero (h : ∀ th ∈ s.threads, th.refused = false) : s.refusals = 0 := by
  rw [refusals, List.sum_eq_zero]
  simpa using h

theorem refusals_le (s : BodySlots) : s.refusals ≤ s.threads.length := by
  rw [refusals]
  induction s.threads with
  | nil => simp
  | cons th l ih =>
    have := Bool.toNat_le th.refused
    simp only [List.map_cons, List.sum_cons, List.length_cons]
    omega

/-- **Body slots are neither exceeded nor leaked.**  Whatever the threads do, no more than
`MAX_BODIES` slots are held, and the counter is the slots held once no refused call is left to undo.
It stays close to the number of threads, far from the end of an `int`. -/
theorem bodies_never_exceeded {threads : ℕ} {es : List BodyStep}
    (h : Runs.exec step? (start threads) es = some s) :
    (s.held : ℤ) ≤ MAX_BODIES ∧ s.bodies = s.held + s.refusals ∧
      ((∀ th ∈ s.threads, th.refused = false) → s.bodies = s.held) ∧
      s.bodies ≤ MAX_BODIES + s.threads.length := by
  obtain ⟨hb, hle⟩ : Balanced s :=
    Runs.exec_induction (fun _ _ _ _ hs h => h.step hs) h (balanced_start threads)
  have hr := s.refusals_le
  refine ⟨hle, hb, fun hnone => ?_, by omega⟩
  rw [hb, refusals_eq_zero hnone]
  simp

/-- One thread has all the slots, and two more are refused at the same time. -/
def twoRefused : List BodyStep := List.replicate 32 (.holdBody 0) ++ [.holdBody 1, .holdBody 2]

theorem bodies_never_exceeded_twoRefused :
    let s : BodySlots := ⟨34, [⟨false, 32⟩, ⟨true, 0⟩, ⟨true, 0⟩]⟩
    Runs.exec step? (start 3) twoRefused = some s ∧ (s.held : ℤ) ≤ MAX_BODIES ∧
      s.bodies = s.held + s.refusals := by
  have h : Runs.exec step? (start 3) twoRefused = some ⟨34, [⟨false, 32⟩, ⟨true, 0⟩, ⟨true, 0⟩]⟩ := by
    decide +kernel
  exact ⟨h, (bodies_never_exceeded h).1, (bodies_never_exceeded h).2.1⟩

end BodySlots

end ChordFs
