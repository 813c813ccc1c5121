import Mathlib.Algebra.Order.Ring.Int
import Mathlib.Data.List.Basic

/-! # Tilings

Ranges of numbers that cover an interval once.  `Abut` lists them in order, each one beginning where
the one before it ends; `Tiles` forgets the order.  A range can be replaced by ranges that tile it
(`Tiles.refine`), so a tiling can be refined piece by piece in any order. -/

namespace Tiling

/-- A range: where it starts, and how long it is. -/
structure Span where
  start : ℕ
  len : ℕ
deriving DecidableEq

/-- Just behind the range. -/
def Span.stop (s : Span) : ℕ := s.start + s.len

/-- Ranges from `lo` to `hi`, end to end. -/
def Abut : ℕ → List Span → ℕ → Prop
  | lo, [], hi => lo = hi
  | lo, s :: l, hi => s.start = lo ∧ Abut s.stop l hi

/-- The ranges cover `[lo, hi)` once, in whatever order they stand. -/
def Tiles (lo hi : ℕ) (l : List Span) : Prop := ∃ l', l.Perm l' ∧ Abut lo l' hi

variable {lo mid hi : ℕ} {l l' a b sub : List Span} {s t : Span}

theorem abut_append : Abut lo (a ++ b) hi ↔ ∃ mid, Abut lo a mid ∧ Abut mid b hi := by
  induction a generalizing lo with
  | nil => simp [Abut]
  | cons s a ih =>
    rw [List.cons_append, Abut, ih]
    constructor
    · rintro ⟨hstart, mid, ha, hb⟩
      exact ⟨mid, ⟨hstart, ha⟩, hb⟩
    · rintro ⟨mid, ⟨hstart, ha⟩, hb⟩
      exact ⟨hstart, mid, ha, hb⟩

section
variable (h : Abut lo l hi)
include h

theorem Abut.le : lo ≤ hi := by
  induction l generalizing lo with
  | nil => exact le_of_eq h
  | cons s l ih =>
    obtain ⟨rfl, hrest⟩ := h
    exact le_trans (Nat.le_add_right _ _) (ih hrest)

theorem Abut.inside (hs : s ∈ l) : lo ≤ s.start ∧ s.stop ≤ hi := by
  induction l generalizing lo with
  | nil => cases hs
  | cons t l ih =>
    obtain ⟨rfl, hrest⟩ := h
    rcases List.mem_cons.mp hs with rfl | hs
    · exact ⟨le_rfl, hrest.le⟩
    · obtain ⟨hlo, hhi⟩ := ih hrest hs
      exact ⟨le_trans (Nat.le_add_right _ _) hlo, hhi⟩

theorem Abut.cover {x : ℕ} (hlo : lo ≤ x) (hhi : x < hi) : ∃ s ∈ l, s.start ≤ x ∧ x < s.stop := by
  induction l generalizing lo with
  | nil =>
    rw [Abut] at h
    omega
  | cons t l ih =>
    obtain ⟨rfl, hrest⟩ := h
    by_cases hx : x < t.stop
    · exact ⟨t, List.mem_cons_self, hlo, hx⟩
    · obtain ⟨s, hs, hin⟩ := ih hrest (Nat.le_of_not_lt hx)
      exact ⟨s, List.mem_cons_of_mem _ hs, hin⟩

theorem Abut.ordered : l.Pairwise fun s t => s.stop ≤ t.start := by
  induction l generalizing lo with
  | nil => exact List.Pairwise.nil
  | cons s l ih =>
    obtain ⟨rfl, hrest⟩ := h
    exact List.pairwise_cons.mpr ⟨fun t ht => (hrest.inside ht).1, ih hrest⟩

/-! ### In any order -/

theorem Abut.tiles : Tiles lo hi l := ⟨l, List.Perm.refl l, h⟩

end

theorem Tiles.perm (h : Tiles lo hi l) (hp : l'.Perm l) : Tiles lo hi l' := by
  obtain ⟨l₀, hl, habut⟩ := h
  exact ⟨l₀, hp.trans hl, habut⟩

/-- **A range may be cut up.** -/
theorem Tiles.refine (h : Tiles lo hi (s :: l)) (hsub : Abut s.start sub s.stop) :
    Tiles lo hi (sub ++ l) := by
  obtain ⟨l₀, hp, habut⟩ := h
  obtain ⟨a, b, rfl⟩ := List.append_of_mem (hp.subset List.mem_cons_self)
  obtain ⟨mid, ha, hstart, hb⟩ := abut_append.mp habut
  refine ⟨a ++ (sub ++ b), ?_,
    abut_append.mpr ⟨mid, ha, abut_append.mpr ⟨s.stop, hstart ▸ hsub, hb⟩⟩⟩
  have hrest : l.Perm (a ++ b) := (List.perm_cons s).mp (hp.trans List.perm_middle)
  calc (sub ++ l).Perm (sub ++ (a ++ b)) := hrest.append_left sub
    _ = (sub ++ a) ++ b := (List.append_assoc ..).symm
    _ |>.Perm ((a ++ sub) ++ b) := List.perm_append_comm.append_right b
    _ = a ++ (sub ++ b) := List.append_assoc ..

theorem Tiles.inside (h : Tiles lo hi l) (hs : s ∈ l) : lo ≤ s.start ∧ s.stop ≤ hi := by
  obtain ⟨l₀, hp, habut⟩ := h
  exact habut.inside (hp.subset hs)

theorem Tiles.cover (h : Tiles lo hi l) {x : ℕ} (hlo : lo ≤ x) (hhi : x < hi) :
    ∃ s ∈ l, s.start ≤ x ∧ x < s.stop := by
  obtain ⟨l₀, hp, habut⟩ := h
  obtain ⟨s, hs, hin⟩ := habut.cover hlo hhi
  exact ⟨s, hp.symm.subset hs, hin⟩

theorem Tiles.disjoint (h : Tiles lo hi l) :
    l.Pairwise fun s t => s.stop ≤ t.start ∨ t.stop ≤ s.start := by
  obtain ⟨l₀, hp, habut⟩ := h
  have hsymm : ∀ {s t : Span}, s.stop ≤ t.start ∨ t.stop ≤ s.start →
      t.stop ≤ s.start ∨ s.stop ≤ t.start :=
    fun h => h.symm
  exact (hp.pairwise_iff hsymm).mpr (habut.ordered.imp .inl)

end Tiling
