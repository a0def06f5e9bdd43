/-
The address `kmalloc` chooses for a request of pages: the custom fit among the holes below the break.
The scan keeps the exact and the worst fit of the holes it has passed and the hole it is in.
-/
import Fos.Lib.Gaps
import Fos.Heap.KernelProgress

namespace Fos.Heap

open Fos.Lib Fos.Memory

/-- The pages of the kernel heap that hold nothing. -/
def FreePage (m : Mem) (v : Nat) : Prop := ¬ HoldsPage m v

/-! ## The scan -/

/-- What the scan knows at page `b`: the free pages just before it start at page `p`, and of the holes it
has passed `exact` and `largest` are chosen. -/
structure Scan.Knows (m : Mem) (lo hi n b : Nat) (c : Scan) (p : Nat) (exact : Option Nat)
    (largest : Option (Nat × Nat)) :
    Prop where
  run : Run (FreePage m) lo p b
  pages : c.pages = b - p
  start : c.pages ≠ 0 → c.start = p * 4096
  custom : c.custom = exact.elim 0 (· * 4096)
  worst : c.worst = largest.elim 0 (·.1 * 4096)
  worstPages : c.worstPages = largest.elim 0 (·.2)
  chosen : Chosen (Passed (FreePage m) lo hi b) n exact largest

section Scan

variable {m : Mem} {lo hi n b p : Nat} {c : Scan} {exact : Option Nat} {largest : Option (Nat × Nat)}

theorem Scan.close_fields (n : Nat) (hp : 0 < c.pages) :
    (c.close n).custom = (if c.pages = n ∧ c.custom = 0 then c.start else c.custom) ∧
    (c.close n).worst = (if n ≤ c.pages ∧ c.worstPages < c.pages then c.start else c.worst) ∧
    (c.close n).worstPages = (if n ≤ c.pages ∧ c.worstPages < c.pages then c.pages else c.worstPages) := by
  simp only [Scan.close, if_pos hp]
  by_cases hc : c.pages = n ∧ c.custom = 0
  · simp only [if_pos hc]
    split <;> exact ⟨rfl, rfl, rfl⟩
  · simp only [if_neg hc]
    split <;> exact ⟨rfl, rfl, rfl⟩

/-- At the end of a hole it is one more to choose from. -/
theorem Scan.Knows.close (h : c.Knows m lo hi n b p exact largest) (hlo : 0 < lo) (hb : b ≤ hi)
    (hend : b = hi ∨ ¬ FreePage m b) : ∃ exact' largest',
      (c.close n).custom = exact'.elim 0 (· * 4096) ∧ (c.close n).worst = largest'.elim 0 (·.1 * 4096) ∧
      (c.close n).worstPages = largest'.elim 0 (·.2) ∧
      Chosen (Passed (FreePage m) lo hi (b + 1)) n exact' largest' := by
  have hS := fun q k => h.run.closes (q := q) (k := k) hb hend
  have hle := h.run.le
  by_cases hp : p < b
  · refine ⟨nextExact n p (b - p) exact, nextLargest n p (b - p) largest, ?_⟩
    have hst := h.start (by rw [h.pages]; omega)
    have hadd : Chosen (Passed (FreePage m) lo hi (b + 1)) n (nextExact n p (b - p) exact)
        (nextLargest n p (b - p) largest) :=
      h.chosen.add (by omega) (fun q j hq => h.run.passed_lt hb hq)
        (fun q k => by rw [hS q k]; simp only [hp, true_and])
    have hc : (c.custom = 0) ↔ exact = none := by
      rw [h.custom]
      cases exact with
      | none => exact ⟨fun _ => rfl, fun _ => rfl⟩
      | some q =>
        have := (h.chosen.exact_some q rfl).1.1.above
        simp only [Option.elim, reduceCtorEq, iff_false]
        omega
    obtain ⟨k1, k2, k3⟩ := Scan.close_fields n (show 0 < c.pages by rw [h.pages]; omega)
    rw [hst, h.pages] at k1 k2
    rw [h.pages] at k3
    refine ⟨k1.trans ?_, k2.trans ?_, k3.trans ?_, hadd⟩
    · by_cases hx : b - p = n ∧ c.custom = 0
      · rw [if_pos hx, hc.1 hx.2, nextExact, if_pos hx.1]
        rfl
      · rw [if_neg hx, h.custom]
        cases exact with
        | some q => rfl
        | none => rw [nextExact, if_neg fun he => hx ⟨he, hc.2 rfl⟩]
    · rw [h.worstPages, h.worst, nextLargest]
      split <;> rfl
    · rw [h.worstPages, nextLargest]
      split <;> rfl
  · refine ⟨exact, largest, ?_⟩
    simp only [Scan.close, if_neg (show ¬ 0 < c.pages by rw [h.pages]; omega)]
    exact ⟨h.custom, h.worst, h.worstPages, h.chosen.congr fun q k => by
      rw [hS q k]; simp only [hp, false_and, or_false]⟩

theorem scanHoles_knows (h : HeapTables m) (n : Nat) (hlo : 1007616 ≤ lo) (hhi : hi ≤ 1048575) :
    ∀ (fuel b : Nat) (c : Scan) (p : Nat) (exact : Option Nat) (largest : Option (Nat × Nat)), lo ≤ b → b ≤ hi →
      hi - b < fuel → c.Knows m lo hi n b p exact largest →
      ∃ p' exact' largest', (scanHoles m n (hi * 4096) fuel (b * 4096) c).Knows m lo hi n hi p' exact' largest'
  | 0, b, c, _, _, _, _, _, h3, _ => by omega
  | fuel + 1, b, c, p, exact, largest, h1, h2, h3, hc => by
    unfold scanHoles
    by_cases hb : b = hi
    · subst hb
      rw [if_neg (by omega)]
      exact ⟨p, exact, largest, hc⟩
    · have hv : HeapPage b := ⟨by omega, by omega⟩
      rw [if_pos (by omega), h.getFrameInfo hv, add_page hv.2]
      have hle := hc.run.le
      cases hf : (m.pte (0, b)).held with
      | none =>
        -- the hole grows by the page
        have hfree : FreePage m b := by rw [FreePage, HoldsPage, hf]; simp
        refine scanHoles_knows h n hlo hhi fuel (b + 1) _ p exact largest (by omega) (by omega) (by omega)
          ⟨hc.run.free_cell hfree, ?_, fun _ => ?_, hc.custom, hc.worst, hc.worstPages,
            hc.chosen.congr fun q k => passed_free hfree (by omega)⟩
        · simp only [hc.pages]; omega
        · by_cases hp : c.pages = 0
          · have := hc.pages
            simp only [if_pos hp]
            omega
          · simp only [if_neg hp]
            exact hc.start hp
      | some f =>
        have hheld : ¬ FreePage m b := by rw [FreePage, HoldsPage, hf]; simp
        obtain ⟨exact', largest', k1, k2, k3, k4⟩ := hc.close (by omega) h2 (.inr hheld)
        exact scanHoles_knows h n hlo hhi fuel (b + 1) _ (b + 1) exact' largest' (by omega) (by omega) (by omega)
          ⟨hc.run.held_cell hheld, (Nat.sub_self _).symm, fun hne => absurd rfl hne, k1, k2, k3, k4⟩

end Scan

/-- The address of the scan, with the break for `0`, is the custom fit. -/
theorem fitAddress_custom {s : Kernel} (h : HeapTables s.mem) {lo hi : Nat} (n : Nat) (hlo : 1007616 ≤ lo)
    (hle : lo ≤ hi)
    (hhi : hi ≤ 1048575) (hst : s.kheapPageAllocStart = lo * 4096) (hbr : s.kheapPageAllocBreak = hi * 4096) :
    ∃ p, (if fitAddress s n ≠ 0 then fitAddress s n else hi * 4096) = p * 4096 ∧
      CustomFit (FreePage s.mem) lo hi n p ∧ (fitAddress s n = 0 ↔ ∀ q k, Gap (FreePage s.mem) lo hi q k → k < n) := by
  obtain ⟨p, exact, largest, hK⟩ := scanHoles_knows h n hlo hhi ((hi * 4096 - lo * 4096) / pageSize + 1) lo
    {} lo none none le_rfl hle (by simp only [pageSize]; omega)
    ⟨Run.nil _ lo, (Nat.sub_self _).symm, fun hne => absurd rfl hne, rfl, rfl, rfl, Chosen.none fun q k =>
      not_passed_lo⟩
  obtain ⟨exact', largest', k1, k2, k3, k4⟩ := hK.close (by omega) le_rfl (.inl rfl)
  have hC : Chosen (Gap (FreePage s.mem) lo hi) n exact' largest' := k4.congr fun q k => passed_all.symm
  have hpos : ∀ q k, Gap (FreePage s.mem) lo hi q k → q * 4096 ≠ 0 := by
    intro q k hG
    have := hG.above
    omega
  simp only [fitAddress, hst, hbr, k1, k2]
  refine ⟨_, ?_, hC.fit, ?_⟩
  · cases exact' with
    | some q => simp [hpos q n (hC.exact_some q rfl).1]
    | none =>
      cases largest' with
      | some r => simp [hpos r.1 r.2 (hC.largest_some r.1 r.2 rfl).2.1]
      | none => simp
  · cases exact' with
    | some q =>
      have hG := (hC.exact_some q rfl).1
      simp only [Option.elim, ne_eq, hpos q n hG, not_false_eq_true, if_true, false_iff, not_forall, not_lt]
      exact ⟨q, n, hG, le_rfl⟩
    | none =>
      cases largest' with
      | some r =>
        obtain ⟨h1, hG, -⟩ := hC.largest_some r.1 r.2 rfl
        simp only [Option.elim, ne_eq, not_true_eq_false, if_false, hpos r.1 r.2 hG, false_iff, not_forall, not_lt]
        exact ⟨r.1, r.2, hG, h1⟩
      | none => exact ⟨fun _ => hC.largest_none rfl, fun _ => by simp⟩

/-! ## The address `kmalloc` returns -/

/-- The pages of a call that returned an address are those of the scan, or those at the break. -/
theorem kmalloc_address {s t : Kernel} (h : HeapOk s) {size va : Nat} (hs : 2048 < size)
    (hr : kmalloc size s = .ok va t)
    (hne : va ≠ 0) : va =
      if fitAddress s (pagesOf size) ≠ 0 then fitAddress s (pagesOf size) else s.kheapPageAllocBreak := by
  obtain ⟨b, hb, hlow, -⟩ := h.brk
  rw [kmalloc_pages (lock_free hr) hs (by omega)] at hr
  split at hr
  · cases hr
    exact absurd rfl hne
  · split at hr
    · rename_i hf
      obtain ⟨-, r, -, hr⟩ := ok_of_bind hr
      obtain ⟨-, r, -, hr⟩ := ok_of_bind hr
      obtain ⟨-, r, -, hr⟩ := ok_of_bind hr
      cases hr
      rw [if_pos hf]
    · rename_i hf
      obtain ⟨-, r, -, hr⟩ := ok_of_bind hr
      obtain ⟨-, r, -, hr⟩ := ok_of_bind hr
      obtain ⟨-, r, -, hr⟩ := ok_of_bind hr
      obtain ⟨-, r, -, hr⟩ := ok_of_bind hr
      cases hr
      rw [if_neg hf]

/-- An address that `kmalloc` returns for a request of pages is the custom fit for their number. -/
theorem kmalloc_custom_fit {s t : Kernel} (h : HeapOk s) {size va : Nat} (hs : 2048 < size)
    (hr : kmalloc size s = .ok va t)
    (hne : va ≠ 0) : va % 4096 = 0 ∧ CustomFit (FreePage s.mem) (s.kheapPageAllocStart / 4096)
      (s.kheapPageAllocBreak / 4096) (pagesOf size) (va / 4096) := by
  obtain ⟨b, hb, hlow, hhigh⟩ := h.brk
  obtain ⟨p, hp, hfit, -⟩ := fitAddress_custom h.tables (pagesOf size) (by omega) hlow (by omega) h.start hb
  rw [← hb, ← kmalloc_address h hs hr hne] at hp
  rw [h.start, hb, hp, Nat.mul_div_cancel _ (by decide), Nat.mul_div_cancel _ (by decide),
    Nat.mul_div_cancel _ (by decide)]
  exact ⟨Nat.mul_mod_left p 4096, hfit⟩

theorem kmalloc_custom_fit_machine : ∃ s va t, kheapInit (unusedKernel machine) = .ok s ∧ kmalloc 8192 s = .ok va t ∧
    va % 4096 = 0 ∧ CustomFit (FreePage s.mem) (s.kheapPageAllocStart / 4096) (s.kheapPageAllocBreak / 4096)
      (pagesOf 8192) (va / 4096) := by
  obtain ⟨s, hinit⟩ : ∃ s, kheapInit (unusedKernel machine) = .ok s := ⟨_, rfl⟩
  have h := kheapInit_ready machine_booted hinit
  obtain ⟨va, t, hr, hne, -⟩ := kmalloc_returns 8192 h (by cases hinit; rfl) (by decide) (by cases hinit; decide)
    (by rw [(kheapInit_same hinit).1]; simp [unusedKernel, machine, pagesOf, roundUp, roundDown, pageSize])
  exact ⟨s, va, t, hinit, hr, kmalloc_custom_fit h.heap (by decide) hr hne⟩

end Fos.Heap
