/-
A partial map kept in cells of a pool: an index that has an entry is backed by a cell of its own, and the
cells that back nothing are on a free list. What the cells hold stores a map from indices to values; a
value may be unspecified.
-/
import Mathlib.Logic.Function.Basic
import Mathlib.Data.List.Nodup

namespace Fos.Lib

section Backed

variable {ι κ V : Type*} {pool : Set κ} {cell : ι → Option κ} {free : List κ} {x : ι} {k : κ}

/-- Every cell of the pool is free or backs one index. -/
structure Backed (pool : Set κ) (cell : ι → Option κ) (free : List κ) : Prop where
  nodup : free.Nodup
  free_mem : ∀ k ∈ free, k ∈ pool
  cell_mem : ∀ x k, cell x = some k → k ∈ pool ∧ k ∉ free
  inj : ∀ x y k, cell x = some k → cell y = some k → x = y
  cover : ∀ k ∈ pool, k ∈ free ∨ ∃ x, cell x = some k

/-- A cell is on the free list or backs exactly one index, not both. -/
theorem Backed.exactly (h : Backed pool cell free) (hk : k ∈ pool) :
    (k ∈ free ∧ ∀ x, cell x ≠ some k) ∨ (k ∉ free ∧ ∃! x, cell x = some k) := by
  by_cases hf : k ∈ free
  · exact .inl ⟨hf, fun x hx => (h.cell_mem x k hx).2 hf⟩
  · obtain ⟨x, hx⟩ := (h.cover k hk).resolve_left hf
    exact .inr ⟨hf, x, hx, fun y hy => h.inj y x k hy hx⟩

variable [DecidableEq ι]

/-- The first free cell backs an index that had none. -/
theorem Backed.take (h : Backed pool cell (k :: free)) (hx : cell x = none) :
    Backed pool (Function.update cell x (some k)) free := by
  obtain ⟨hk, hnodup⟩ := List.nodup_cons.1 h.nodup
  have hother : ∀ y j, y ≠ x → Function.update cell x (some k) y = some j → cell y = some j := by
    intro y j hy hj
    rwa [Function.update_of_ne hy] at hj
  constructor
  · exact hnodup
  · exact fun j hj => h.free_mem j (List.mem_cons_of_mem k hj)
  · intro y j hj
    by_cases hy : y = x
    · rw [hy, Function.update_self] at hj
      obtain rfl := Option.some.inj hj
      exact ⟨h.free_mem k List.mem_cons_self, hk⟩
    · obtain ⟨hpool, hfree⟩ := h.cell_mem y j (hother y j hy hj)
      exact ⟨hpool, fun hc => hfree (List.mem_cons_of_mem k hc)⟩
  · intro y z j hy hz
    -- a cell that backs another index is not the one taken
    have hnew : ∀ y, y ≠ x → Function.update cell x (some k) y ≠ some k := fun y hy hc =>
      (h.cell_mem y k (hother y k hy hc)).2 List.mem_cons_self
    by_cases hyx : y = x <;> by_cases hzx : z = x
    · rw [hyx, hzx]
    · rw [hyx, Function.update_self] at hy
      exact absurd (hy ▸ hz) (hnew z hzx)
    · rw [hzx, Function.update_self] at hz
      exact absurd (hz ▸ hy) (hnew y hyx)
    · exact h.inj y z j (hother y j hyx hy) (hother z j hzx hz)
  · intro j hj
    rcases h.cover j hj with hf | ⟨y, hy⟩
    · rcases List.mem_cons.1 hf with rfl | hf
      · exact .inr ⟨x, Function.update_self ..⟩
      · exact .inl hf
    · refine .inr ⟨y, ?_⟩
      rw [Function.update_of_ne (by rintro rfl; rw [hx] at hy; cases hy)]
      exact hy

/-- The cell of an index that loses its entry is free again. -/
theorem Backed.drop (h : Backed pool cell free) (hx : cell x = some k) :
    Backed pool (Function.update cell x none) (k :: free) := by
  obtain ⟨hpool, hfree⟩ := h.cell_mem x k hx
  have hother : ∀ y j, Function.update cell x none y = some j → y ≠ x ∧ cell y = some j := by
    intro y j hj
    by_cases hy : y = x
    · rw [hy, Function.update_self] at hj
      cases hj
    · rw [Function.update_of_ne hy] at hj
      exact ⟨hy, hj⟩
  constructor
  · exact List.nodup_cons.2 ⟨hfree, h.nodup⟩
  · intro j hj
    rcases List.mem_cons.1 hj with rfl | hj
    · exact hpool
    · exact h.free_mem j hj
  · intro y j hj
    obtain ⟨hy, hj⟩ := hother y j hj
    refine ⟨(h.cell_mem y j hj).1, fun hc => ?_⟩
    rcases List.mem_cons.1 hc with rfl | hc
    · exact hy (h.inj y x j hj hx)
    · exact (h.cell_mem y j hj).2 hc
  · exact fun y z j hy hz => h.inj y z j (hother y j hy).2 (hother z j hz).2
  · intro j hj
    rcases h.cover j hj with hf | ⟨y, hy⟩
    · exact .inl (List.mem_cons_of_mem k hf)
    · by_cases hyx : y = x
      · rw [hyx, hx] at hy
        obtain rfl := Option.some.inj hy
        exact .inl List.mem_cons_self
      · exact .inr ⟨y, by rw [Function.update_of_ne hyx]; exact hy⟩

end Backed

section Stores

variable {ι κ V : Type*} {pool : Set κ} {cell : ι → Option κ} {free : List κ} {disk : κ → V}
    {abs : ι → Option (Option V)}
  {x : ι} {k : κ}

/-- The cells hold the values of a map; `some none` is an entry without a specified value. -/
structure Stores (cell : ι → Option κ) (disk : κ → V) (abs : ι → Option (Option V)) : Prop where
  dom : ∀ x, abs x = none ↔ cell x = none
  val : ∀ x k v, cell x = some k → abs x = some (some v) → disk k = v

/-- Entries that are gone from the cells are gone from the map. -/
theorem Stores.restrict {cell' : ι → Option κ} (h : Stores cell disk abs) (p : ι → Prop) [DecidablePred p]
    (hin : ∀ y, p y → cell' y = none) (hout : ∀ y, ¬ p y → cell' y = cell y) :
    Stores cell' disk (fun y => if p y then none else abs y) := by
  constructor
  · intro y
    by_cases hy : p y
    · simp [hy, hin y hy]
    · simp [hy, hout y hy, h.dom y]
  · intro y j w hj hw
    by_cases hy : p y
    · simp [hy] at hw
    · rw [hout y hy] at hj
      simp only [hy, if_false] at hw
      exact h.val y j w hj hw

variable [DecidableEq ι]

/-- Writing the cell of an index changes the value at that index alone. -/
theorem Stores.write [DecidableEq κ] (h : Stores cell disk abs) (hB : Backed pool cell free) (hx : cell x = some k)
    (v : V) :
    Stores cell (Function.update disk k v) (Function.update abs x (some (some v))) := by
  constructor
  · intro y
    by_cases hy : y = x
    · rw [hy, Function.update_self, hx]
      simp
    · rw [Function.update_of_ne hy]
      exact h.dom y
  · intro y j w hj hw
    by_cases hy : y = x
    · rw [hy, hx] at hj
      rw [hy, Function.update_self] at hw
      cases hj
      cases hw
      exact Function.update_self ..
    · rw [Function.update_of_ne hy] at hw
      have hjk : j ≠ k := fun hc => hy (hB.inj y x k (by rw [hj, hc]) hx)
      rw [Function.update_of_ne hjk]
      exact h.val y j w hj hw

/-- A new entry has no specified value. -/
theorem Stores.take (h : Stores cell disk abs) (k : κ) :
    Stores (Function.update cell x (some k)) disk (Function.update abs x (some none)) := by
  constructor
  · intro y
    by_cases hy : y = x
    · rw [hy, Function.update_self, Function.update_self]
      simp
    · rw [Function.update_of_ne hy, Function.update_of_ne hy]
      exact h.dom y
  · intro y j w hj hw
    by_cases hy : y = x
    · rw [hy, Function.update_self] at hw
      cases hw
    · rw [Function.update_of_ne hy] at hj hw
      exact h.val y j w hj hw

end Stores

end Fos.Lib
