/-
The gaps of a line of cells: maximal runs of free cells between two bounds. A scan from the left meets
them one by one, each when it reaches the cell after it; the choices of the custom fit (the lowest gap of
exactly `n` cells, else the lowest of the largest) are kept as the scan goes.
-/
import Mathlib.Tactic

namespace Fos.Lib

/-- `k` free cells from `p` on, between `lo` and `hi`, with no free cell next to them. -/
structure Gap (free : Nat → Prop) (lo hi p k : Nat) : Prop where
  pos : 0 < k
  above : lo ≤ p
  below : p + k ≤ hi
  cells : ∀ w, p ≤ w → w < p + k → free w
  left : p = lo ∨ ¬ free (p - 1)
  right : p + k = hi ∨ ¬ free (p + k)

/-- The gaps that end before cell `b`. -/
def Passed (free : Nat → Prop) (lo hi b p k : Nat) : Prop := Gap free lo hi p k ∧ p + k < b

/-- The free cells just before `b`, as far as they reach: they start at `p`. -/
structure Run (free : Nat → Prop) (lo p b : Nat) : Prop where
  above : lo ≤ p
  le : p ≤ b
  cells : ∀ w, p ≤ w → w < b → free w
  left : p = lo ∨ ¬ free (p - 1)

section Scan

variable {free : Nat → Prop} {lo hi p q k n b : Nat}

theorem Run.nil (free : Nat → Prop) (lo : Nat) : Run free lo lo lo :=
  ⟨le_rfl, le_rfl, fun _ h1 h2 => absurd h1 (by omega), .inl rfl⟩

theorem Run.free_cell (h : Run free lo p b) (hb : free b) : Run free lo p (b + 1) := by
  refine ⟨h.above, h.le.trans (Nat.le_succ b), fun w h1 h2 => ?_, h.left⟩
  rcases Nat.lt_succ_iff_lt_or_eq.1 h2 with hlt | rfl
  · exact h.cells w h1 hlt
  · exact hb

theorem Run.held_cell (h : Run free lo p b) (hb : ¬ free b) : Run free lo (b + 1) (b + 1) :=
  ⟨h.above.trans (h.le.trans (Nat.le_succ b)), le_rfl, fun _ h1 h2 => absurd h1 (by omega), .inr hb⟩

/-- A gap that ends before `b` ends before the run there. -/
theorem Run.passed_lt (h : Run free lo p b) (hb : b ≤ hi) (hq : Passed free lo hi b q k) : q < p := by
  obtain ⟨hG, hlt⟩ := hq
  have hpos := hG.pos
  rcases hG.right with he | hne
  · omega
  · by_contra hge
    exact hne (h.cells (q + k) (by omega) hlt)

/-- No gap ends at a free cell. -/
theorem passed_free (hb : free b) (hlt : b < hi) : Passed free lo hi (b + 1) q k ↔ Passed free lo hi b q k := by
  constructor
  · rintro ⟨hG, hle⟩
    refine ⟨hG, ?_⟩
    rcases hG.right with he | hne
    · omega
    · rcases Nat.lt_succ_iff_lt_or_eq.1 hle with h | rfl
      · exact h
      · exact absurd hb hne
  · rintro ⟨hG, hle⟩
    exact ⟨hG, Nat.lt_succ_of_lt hle⟩

/-- At a cell that is not free, and at the end of the line, the gap that ends there is the run, if it has cells. -/
theorem Run.closes (h : Run free lo p b) (hb : b ≤ hi) (hend : b = hi ∨ ¬ free b) :
    Passed free lo hi (b + 1) q k ↔ Passed free lo hi b q k ∨ (p < b ∧ q = p ∧ k = b - p) := by
  constructor
  · rintro ⟨hG, hle⟩
    rcases Nat.lt_succ_iff_lt_or_eq.1 hle with hlt | he
    · exact .inl ⟨hG, hlt⟩
    · right
      have hpos := hG.pos
      have hlo := hG.above
      have hle' := h.le
      have hlo' := h.above
      -- both start where the free cells before `b` start
      have h1 : p ≤ q := by
        rcases h.left with he' | hne
        · omega
        · by_contra hlt
          exact hne (hG.cells (p - 1) (by omega) (by omega))
      have h2 : q ≤ p := by
        rcases hG.left with he' | hne
        · omega
        · by_contra hlt
          exact hne (h.cells (q - 1) (by omega) (by omega))
      omega
  · rintro (⟨hG, hlt⟩ | ⟨hpb, rfl, rfl⟩)
    · exact ⟨hG, Nat.lt_succ_of_lt hlt⟩
    · have he : q + (b - q) = b := by omega
      refine ⟨⟨by omega, h.above, by omega, fun w h1 h2 => h.cells w h1 (by omega), h.left, ?_⟩, by omega⟩
      rw [he]
      exact hend

theorem not_passed_lo (h : Passed free lo hi lo q k) : False := by
  have := h.1.above
  have := h.2
  omega

theorem passed_all : Passed free lo hi (hi + 1) q k ↔ Gap free lo hi q k :=
  ⟨fun h => h.1, fun h => ⟨h, Nat.lt_succ_of_le h.below⟩⟩

end Scan

/-! ## The custom fit -/

/-- `p` is the lowest start of a gap of `n` cells in `S`. -/
def LowestExact (S : Nat → Nat → Prop) (n p : Nat) : Prop := S p n ∧ ∀ q, S q n → p ≤ q

/-- `p` is the lowest start of a gap of `k` cells in `S`, and no gap has more. -/
def LowestLargest (S : Nat → Nat → Prop) (p k : Nat) : Prop :=
  S p k ∧ ∀ q j, S q j → j ≤ k ∧ (j = k → p ≤ q)

/-- What has been chosen among the gaps `S`: the exact fit, and of the gaps with at least `n` cells the largest. -/
structure Chosen (S : Nat → Nat → Prop) (n : Nat) (exact : Option Nat) (largest : Option (Nat × Nat)) : Prop where
  exact_some : ∀ p, exact = some p → LowestExact S n p
  exact_none : exact = none → ∀ q, ¬ S q n
  largest_some : ∀ p k, largest = some (p, k) → n ≤ k ∧ LowestLargest S p k
  largest_none : largest = none → ∀ q k, S q k → k < n

section Chosen

variable {S S' : Nat → Nat → Prop} {n p k : Nat} {exact : Option Nat} {largest : Option (Nat × Nat)}

theorem Chosen.none (hS : ∀ q k, ¬ S q k) : Chosen S n none none :=
  ⟨nofun, fun _ q => hS q n, nofun, fun _ q k h => absurd h (hS q k)⟩

theorem Chosen.congr (h : Chosen S n exact largest) (hS : ∀ q k, S' q k ↔ S q k) : Chosen S' n exact largest := by
  obtain rfl : S' = S := funext fun q => funext fun k => propext (hS q k)
  exact h

/-- The choice of the exact fit when the gap `(p, k)`, right of all others, is added. -/
def nextExact (n p k : Nat) (exact : Option Nat) : Option Nat :=
  match exact with
  | some q => some q
  | none => if k = n then some p else none

/-- The choice of the largest gap when `(p, k)` is added. -/
def nextLargest (n p k : Nat) (largest : Option (Nat × Nat)) : Option (Nat × Nat) :=
  if n ≤ k ∧ (largest.elim 0 (·.2)) < k then some (p, k) else largest

theorem Chosen.add (h : Chosen S n exact largest) (hpos : 0 < k) (hlt : ∀ q j, S q j → q < p)
    (hS : ∀ q j, S' q j ↔ S q j ∨ (q = p ∧ j = k)) :
    Chosen S' n (nextExact n p k exact) (nextLargest n p k largest) := by
  constructor
  · intro q hq
    cases exact with
    | some r =>
      obtain rfl : r = q := by simpa [nextExact] using hq
      obtain ⟨h1, h2⟩ := h.exact_some r rfl
      refine ⟨(hS r n).2 (.inl h1), fun q hq => ?_⟩
      rcases (hS q n).1 hq with hq | ⟨rfl, -⟩
      · exact h2 q hq
      · exact (hlt r n h1).le
    | none =>
      have hno := h.exact_none rfl
      simp only [nextExact] at hq
      split at hq
      · rename_i hk
        obtain rfl : p = q := by simpa using hq
        refine ⟨(hS p n).2 (.inr ⟨rfl, hk.symm⟩), fun q hq => ?_⟩
        rcases (hS q n).1 hq with hq | ⟨rfl, -⟩
        · exact absurd hq (hno q)
        · exact le_rfl
      · cases hq
  · intro he q hq
    cases exact with
    | some r => simp [nextExact] at he
    | none =>
      simp only [nextExact] at he
      split at he
      · cases he
      · rename_i hk
        rcases (hS q n).1 hq with hq | ⟨-, rfl⟩
        · exact h.exact_none rfl q hq
        · exact hk rfl
  · intro q j hq
    unfold nextLargest at hq
    split at hq
    · rename_i hk
      obtain ⟨rfl, rfl⟩ : p = q ∧ k = j := by simpa using hq
      refine ⟨hk.1, (hS p k).2 (.inr ⟨rfl, rfl⟩), fun q j hj => ?_⟩
      rcases (hS q j).1 hj with hj | ⟨rfl, rfl⟩
      · -- an earlier gap is smaller
        have : j < k := by
          cases hl : largest with
          | none => exact (h.largest_none hl q j hj).trans_le hk.1
          | some r =>
            have h1 := ((h.largest_some r.1 r.2 hl).2.2 q j hj).1
            have h2 := hk.2
            rw [hl] at h2
            exact h1.trans_lt h2
        omega
      · exact ⟨le_rfl, fun _ => le_rfl⟩
    · rename_i hk
      obtain ⟨h1, h2, h3⟩ := h.largest_some q j hq
      refine ⟨h1, (hS q j).2 (.inl h2), fun q' j' hj => ?_⟩
      rcases (hS q' j').1 hj with hj | ⟨rfl, rfl⟩
      · exact h3 q' j' hj
      · rw [hq] at hk
        have hle : j' ≤ j := by
          by_contra hgt
          exact hk ⟨by omega, by simpa using hgt⟩
        exact ⟨hle, fun _ => (hlt q j h2).le⟩
  · intro he q j hj
    unfold nextLargest at he
    split at he
    · cases he
    · rename_i hk
      rcases (hS q j).1 hj with hj | ⟨rfl, rfl⟩
      · exact h.largest_none he q j hj
      · rw [he] at hk
        by_contra hge
        exact hk ⟨by omega, hpos⟩

end Chosen

/-- The cell a request of `n` cells is given: the lowest gap of exactly `n` cells, else the lowest of the
largest gaps of more, else the end of the line. -/
def CustomFit (free : Nat → Prop) (lo hi n p : Nat) : Prop :=
  LowestExact (Gap free lo hi) n p ∨
  ((∀ q, ¬ Gap free lo hi q n) ∧ ∃ k, n < k ∧ LowestLargest (Gap free lo hi) p k) ∨
  ((∀ q k, Gap free lo hi q k → k < n) ∧ p = hi)

theorem Chosen.fit {free : Nat → Prop} {lo hi n : Nat} {exact : Option Nat} {largest : Option (Nat × Nat)}
    (h : Chosen (Gap free lo hi) n exact largest) :
    CustomFit free lo hi n (exact.elim (largest.elim hi (·.1)) id) := by
  cases he : exact with
  | some p => exact .inl (h.exact_some p he)
  | none =>
    have hno := h.exact_none he
    refine .inr ?_
    cases hl : largest with
    | some r =>
      obtain ⟨hle, hL⟩ := h.largest_some r.1 r.2 hl
      refine .inl ⟨hno, r.2, hle.lt_of_ne ?_, hL⟩
      rintro rfl
      exact hno r.1 hL.1
    | none => exact .inr ⟨h.largest_none hl, rfl⟩

end Fos.Lib
