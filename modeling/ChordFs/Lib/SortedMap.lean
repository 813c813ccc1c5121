import Mathlib.Algebra.Order.Ring.Int
import Mathlib.Order.Defs.LinearOrder
import Mathlib.Data.List.Basic

/-! # Maps as sorted lists

A finite map whose entries are kept in the order of their keys, each key once.  The order is part
of the structure, so an unsorted map cannot be built. -/

/-- Entries in strictly increasing order of their keys. -/
structure SortedMap (κ β : Type*) [LinearOrder κ] where
  entries : List (κ × β)
  sorted : entries.Pairwise fun a b => a.1 < b.1

namespace SortedMap

variable {κ β : Type*} [LinearOrder κ]

def empty : SortedMap κ β := ⟨[], List.Pairwise.nil⟩

def find? (m : SortedMap κ β) (k : κ) : Option β := (m.entries.find? fun e => e.1 = k).map Prod.snd

/-- The entries with `(k, v)` at its place; an entry for `k` that is there already is kept. -/
def insertEntry (k : κ) (v : β) : List (κ × β) → List (κ × β)
  | [] => [(k, v)]
  | e :: l => if k < e.1 then (k, v) :: e :: l else if k = e.1 then e :: l else e :: insertEntry k v l

variable {l : List (κ × β)}

theorem mem_insertEntry {k : κ} {v : β} {e : κ × β} (h : e ∈ insertEntry k v l) : e = (k, v) ∨ e ∈ l := by
  induction l with
  | nil => exact .inl (List.mem_singleton.mp h)
  | cons a l ih =>
    rw [insertEntry] at h
    split at h
    · exact List.mem_cons.mp h
    split at h
    · exact .inr h
    · rcases List.mem_cons.mp h with rfl | h
      · exact .inr (by simp)
      · exact (ih h).imp id fun h => List.mem_cons_of_mem _ h

theorem pairwise_insertEntry (k : κ) (v : β) (h : l.Pairwise fun a b => a.1 < b.1) :
    (insertEntry k v l).Pairwise fun a b => a.1 < b.1 := by
  induction l with
  | nil => simp [insertEntry]
  | cons a l ih =>
    obtain ⟨ha, hl⟩ := List.pairwise_cons.mp h
    rw [insertEntry]
    split
    · rename_i hk
      refine List.pairwise_cons.mpr ⟨fun b hb => ?_, h⟩
      rcases List.mem_cons.mp hb with rfl | hb
      · exact hk
      · exact lt_trans hk (ha b hb)
    split
    · exact h
    · rename_i hk hne
      refine List.pairwise_cons.mpr ⟨fun b hb => ?_, ih hl⟩
      rcases mem_insertEntry hb with hbk | hb
      · rw [hbk]
        exact lt_of_le_of_ne (not_lt.mp hk) fun h => hne h.symm
      · exact ha b hb

/-- The map with `v` at `k`, unless `k` has a value already. -/
def insertNew (m : SortedMap κ β) (k : κ) (v : β) : SortedMap κ β :=
  ⟨insertEntry k v m.entries, pairwise_insertEntry k v m.sorted⟩

def erase (m : SortedMap κ β) (k : κ) : SortedMap κ β :=
  ⟨m.entries.filter fun e => e.1 ≠ k, m.sorted.filter _⟩

/-- The map with `v` at `k`. -/
def set (m : SortedMap κ β) (k : κ) (v : β) : SortedMap κ β := (m.erase k).insertNew k v

/-- The entries whose key passes. -/
def filterKeys (m : SortedMap κ β) (keep : κ → Bool) : SortedMap κ β :=
  ⟨m.entries.filter fun e => keep e.1, m.sorted.filter _⟩

/-- The map with every value replaced. -/
def mapValues {γ : Type*} (m : SortedMap κ β) (f : κ → β → γ) : SortedMap κ γ :=
  ⟨m.entries.map fun e => (e.1, f e.1 e.2), List.pairwise_map.mpr m.sorted⟩

/-- The keys, in order. -/
def keys (m : SortedMap κ β) : List κ := m.entries.map Prod.fst

/-- The entries behind `k`, in order. -/
def after (m : SortedMap κ β) (k : κ) : List (κ × β) := m.entries.dropWhile fun e => e.1 ≤ k

/-! ### What is found -/

variable {m : SortedMap κ β} {k k' : κ} {v : β}

@[simp] theorem find?_empty : (empty : SortedMap κ β).find? k = none := rfl

theorem find?_filterKeys (keep : κ → Bool) :
    (m.filterKeys keep).find? k = if keep k then m.find? k else none := by
  simp only [find?, filterKeys]
  induction m.entries with
  | nil => simp
  | cons e l ih => grind

theorem find?_erase : (m.erase k').find? k = if k = k' then none else m.find? k := by
  have h : m.erase k' = m.filterKeys fun key => key ≠ k' := rfl
  rw [h, find?_filterKeys]
  simp

theorem find?_insertEntry_of_ne (h : k ≠ k') :
    (insertEntry k' v l).find? (fun e => e.1 = k) = l.find? fun e => e.1 = k := by
  induction l with
  | nil => simp [insertEntry, h.symm]
  | cons a l ih => grind [insertEntry]

theorem find?_insertEntry_self (h : ∀ e ∈ l, e.1 ≠ k) :
    (insertEntry k v l).find? (fun e => e.1 = k) = some (k, v) := by
  induction l with
  | nil => simp [insertEntry]
  | cons a l ih => grind [insertEntry]

theorem find?_insertNew (h : m.find? k' = none) :
    (m.insertNew k' v).find? k = if k = k' then some v else m.find? k := by
  have hfind : (m.insertNew k' v).find? k =
      ((insertEntry k' v m.entries).find? fun e => e.1 = k).map Prod.snd := rfl
  rw [hfind]
  split
  · rename_i hk
    subst hk
    rw [find?_insertEntry_self]
    · rfl
    · intro e he hk
      have hnone := List.find?_eq_none.mp (Option.map_eq_none_iff.mp h) e he
      exact hnone (decide_eq_true hk)
  · rename_i hk
    rw [find?_insertEntry_of_ne hk]
    rfl

theorem find?_set : (m.set k' v).find? k = if k = k' then some v else m.find? k := by
  have hfind : (m.set k' v).find? k =
      ((insertEntry k' v (m.erase k').entries).find? fun e => e.1 = k).map Prod.snd := rfl
  rw [hfind]
  split
  · rename_i h
    subst h
    rw [find?_insertEntry_self]
    · rfl
    · intro e he
      simpa using (List.mem_filter.mp he).2
  · rename_i h
    rw [find?_insertEntry_of_ne h]
    have hold := @find?_erase _ _ _ m k k'
    rwa [if_neg h] at hold

theorem filter_insertEntry : (insertEntry k v l).filter (fun e => e.1 ≠ k) = l.filter fun e => e.1 ≠ k := by
  induction l with
  | nil => simp [insertEntry]
  | cons a l ih => grind [insertEntry]

theorem erase_set : (m.set k v).erase k = m.erase k := by
  have hentries : ((m.set k v).erase k).entries = (m.erase k).entries := by
    change (insertEntry k v (m.entries.filter fun e => e.1 ≠ k)).filter (fun e => e.1 ≠ k) = _
    rw [filter_insertEntry, List.filter_filter]
    simp [erase]
  rw [erase, erase, SortedMap.mk.injEq]
  exact hentries

theorem set_set {w : β} : (m.set k v).set k w = m.set k w := by
  rw [set, erase_set, ← set]

theorem find?_mapValues {γ : Type*} (f : κ → β → γ) : (m.mapValues f).find? k = (m.find? k).map (f k) := by
  simp only [find?, mapValues]
  induction m.entries with
  | nil => rfl
  | cons e l ih => grind

theorem mem_keys : k ∈ m.keys ↔ (m.find? k).isSome = true := by
  simp only [keys, find?]
  induction m.entries with
  | nil => simp
  | cons e l ih => grind

end SortedMap
