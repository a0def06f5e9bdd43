/-
The user heap over runs of `malloc`, `free`, `smalloc`, `sget` and `sfree` by one process. The live
ranges of the page allocator are recorded from what the calls are asked for and what they return.
-/
import Fos.Heap.UserHeapLists
import Fos.Lib.Trace

namespace Fos.Heap

open Fos.Lib Fos.Lib.Extent

/-! ## The invariant of the heap -/

/-- Free ranges and allocations are packed together, and the break is a page boundary of the heap
at or above the end of every allocation. -/
structure UHeap.Inv (s : UHeap) : Prop where
  start : s.uheapPageAllocStart = 2181042176
  packed : UPacked (s.freeHead.map FreeBlockNode.extent ++ s.allocHead.map OurAllocationNode.extent)
  breakLo : 2181042176 ≤ s.uheapPageAllocBreak
  breakHi : s.uheapPageAllocBreak ≤ userHeapMax
  breakPage : s.uheapPageAllocBreak % 4096 = 0
  below : ∀ a ∈ s.allocHead, a.extent.fin ≤ s.uheapPageAllocBreak

theorem uheapInit_inv : uheapInit.Inv := by
  refine ⟨rfl, ⟨.nil, ?_⟩, ?_, ?_, ?_, ?_⟩ <;> simp [uheapInit, add32]

namespace UHeap.Inv

variable {s : UHeap}

theorem free_fits (h : s.Inv) {n : FreeBlockNode} (hn : n ∈ s.freeHead) :
    n.extent.Fits 2181042176 userHeapMax 4096 :=
  h.packed.fits _ (List.mem_append_left _ (List.mem_map_of_mem hn))

theorem alloc_fits (h : s.Inv) {a : OurAllocationNode} (ha : a ∈ s.allocHead) :
    a.extent.Fits 2181042176 userHeapMax 4096 :=
  h.packed.fits _ (List.mem_append_right _ (List.mem_map_of_mem ha))

theorem free_start (h : s.Inv) : ∀ n ∈ s.freeHead, 4096 ≤ n.startVa := by
  intro n hn
  have := (h.free_fits hn).lo
  simp only [FreeBlockNode.extent] at this
  omega

end UHeap.Inv

/-! ## The custom fit -/

theorem customFit_start (s : UHeap) (n : Nat) :
    (customFit s n).2.uheapPageAllocStart = s.uheapPageAllocStart := by
  simp only [customFit]; split <;> rfl

theorem customFit_break (s : UHeap) (n : Nat) :
    (customFit s n).2.uheapPageAllocBreak = s.uheapPageAllocBreak := by
  simp only [customFit]; split <;> rfl

theorem customFit_alloc (s : UHeap) (n : Nat) : (customFit s n).2.allocHead = s.allocHead := by
  simp only [customFit]; split <;> rfl

/-- Without a fit nothing changes. -/
theorem customFit_zero {s : UHeap} {n : Nat} (h : s.Inv) (hz : (customFit s n).1 = 0) :
    (customFit s n).2 = s := by
  simp only [customFit] at hz ⊢
  split at hz
  · rename_i he
    have h1 := exacttt_zero h.free_start he
    rw [if_pos he]
    rw [h1] at hz ⊢
    rw [worsttt_zero (fun d hd => by have := h.free_start d hd; omega) hz]
  · rename_i he
    exact absurd hz he

/-- A fit is taken out of the free ranges. -/
theorem customFit_packed {s : UHeap} {n : Nat} (h : s.Inv) (hn : 0 < n) (hne : (customFit s n).1 ≠ 0) :
    UPacked (⟨(customFit s n).1, n * 4096⟩ ::
      ((customFit s n).2.freeHead.map FreeBlockNode.extent ++ s.allocHead.map OurAllocationNode.extent)) := by
  simp only [customFit] at hne ⊢
  split at hne
  · rename_i he
    have h1 := exacttt_zero h.free_start he
    rw [if_pos he]
    rw [h1] at hne ⊢
    exact worsttt_packed hn h.packed hne
  · rename_i he
    rw [if_neg he]
    exact h.packed.perm ((exacttt_perm (fun d hd => (h.free_fits hd).start) he).append_right _)

/-- A fit starts inside the heap, whatever the number of pages. -/
theorem customFit_start_mem {s : UHeap} {n : Nat} (h : s.Inv) (hne : (customFit s n).1 ≠ 0) :
    ∃ d ∈ s.freeHead, (customFit s n).1 = d.startVa := by
  simp only [customFit] at hne ⊢
  split at hne
  · rename_i he
    rw [if_pos he]
    have h1 := exacttt_zero h.free_start he
    rw [h1] at hne ⊢
    exact worsttt_mem hne
  · rename_i he
    rw [if_neg he]
    exact exacttt_mem (fun d hd => (h.free_fits hd).start) he

/-! ## What a call can do -/

/-- The heap after `n` pages were taken at the break. -/
def UHeap.extend (s : UHeap) (n stale : Nat) : UHeap :=
  { s with uheapPageAllocBreak := s.uheapPageAllocBreak + n * 4096,
           allocHead := ⟨s.uheapPageAllocBreak, n * 4096, stale⟩ :: s.allocHead }

/-- The heap after the fit of `n` pages was taken for `size` bytes, with break `b`. -/
def UHeap.takeFit (s : UHeap) (n size stale b : Nat) : UHeap :=
  { (customFit s n).2 with uheapPageAllocBreak := b,
                           allocHead := ⟨(customFit s n).1, size, stale⟩ :: s.allocHead }

/-- `malloc` of a large request refuses, extends the break or takes the fit; after a fit above the
break it raises the break to the end of the fit. -/
theorem malloc_cases {s : UHeap} (h : s.Inv) {size : Nat} (blk stale : Nat) (hb : 2048 < size)
    (hs : size < 4294967296) :
    (userHeapMax < s.uheapPageAllocBreak + (size + 4095) / 4096 * 4096 ∧ malloc s size blk stale = (0, s)) ∨
    ∃ n, n = (size + 4095) / 4096 ∧ 0 < n ∧ n ≤ 122879 ∧
      (((customFit s n).1 = 0 ∧ s.uheapPageAllocBreak + n * 4096 ≤ userHeapMax ∧
          malloc s size blk stale = (s.uheapPageAllocBreak, s.extend n stale)) ∨
       ((customFit s n).1 ≠ 0 ∧ malloc s size blk stale =
          ((customFit s n).1, s.takeFit n (n * 4096) stale
            (max s.uheapPageAllocBreak ((customFit s n).1 + n * 4096))))) := by
  have hst := h.start
  have hlo := h.breakLo
  have hhi := h.breakHi
  simp only [userHeapMax] at hhi
  have h0 : ¬ size = 0 := by omega
  have h1 : ¬ size ≤ dynAllocMaxBlockSize := by simp only [dynAllocMaxBlockSize]; omega
  obtain ⟨n, hn⟩ : ∃ n, n = roundUp size pageSize / pageSize := ⟨_, rfl⟩
  have hcap : sub32 userHeapMax s.uheapPageAllocStart / pageSize = 122879 := by rw [hst]; rfl
  have hcov : size ≤ 4294963200 → n = (size + 4095) / 4096 := fun hw => hn.trans (roundUp_div size hw)
  by_cases hc : n = 0 ∨ 122879 < n
  · refine .inl ⟨by simp only [userHeapMax]; omega, ?_⟩
    simp only [malloc, h0, h1, if_false, ← hn, hcap, if_pos hc]
  · have hw : size ≤ 4294963200 := by
      by_contra hw
      have : roundUp size pageSize = 0 := roundUp_wraps (by omega) hs
      rw [this] at hn
      exact hc (.inl (by rw [hn]; rfl))
    have hn' := hcov hw
    have hneed : mul32 n pageSize = n * 4096 := mul32_of_lt (by simp only [pageSize]; omega)
    have hgrow : add32 s.uheapPageAllocBreak (n * 4096) = s.uheapPageAllocBreak + n * 4096 :=
      add32_of_lt (by omega)
    by_cases hf : (customFit s n).1 = 0
    · have hmal : malloc s size blk stale =
          if userHeapMax < s.uheapPageAllocBreak + n * 4096 then (0, s)
          else mallocAt { s with uheapPageAllocBreak := s.uheapPageAllocBreak + n * 4096 }
            s.uheapPageAllocBreak (n * 4096) stale := by
        simp only [malloc, h0, h1, if_false, ← hn, hcap, if_neg hc, if_pos hf, customFit_zero h hf, hneed, hgrow]
      by_cases hmax : userHeapMax < s.uheapPageAllocBreak + n * 4096
      · exact .inl ⟨by rwa [← hn'], by rw [hmal, if_pos hmax]⟩
      · refine .inr ⟨n, hn', by omega, by omega, .inl ⟨hf, by omega, ?_⟩⟩
        have hin : ¬ (s.uheapPageAllocBreak < s.uheapPageAllocStart ∨ userHeapMax ≤ s.uheapPageAllocBreak) := by
          simp only [userHeapMax] at hmax ⊢; omega
        have hx : ¬ s.uheapPageAllocBreak + n * 4096 < s.uheapPageAllocBreak + n * 4096 := lt_irrefl _
        rw [hmal, if_neg hmax]
        simp only [mallocAt, if_neg hin, hgrow, allocationGded, if_neg hx, UHeap.extend]
    · refine .inr ⟨n, hn', by omega, by omega, .inr ⟨hf, ?_⟩⟩
      have hfit := (packed_cons.1 (customFit_packed h (by omega) hf)).2.1
      have hf1 := hfit.lo
      have hf2 := hfit.hi
      simp only [fin, userHeapMax] at hf1 hf2
      have hin : ¬ ((customFit s n).1 < (customFit s n).2.uheapPageAllocStart ∨ userHeapMax ≤ (customFit s n).1) := by
        rw [customFit_start, hst, userHeapMax]; omega
      have hx : add32 (customFit s n).1 (n * 4096) = (customFit s n).1 + n * 4096 := add32_of_lt (by omega)
      simp only [malloc, h0, h1, if_false, ← hn, hcap, if_neg hc, if_neg hf, hneed, mallocAt, if_neg hin, hx,
        allocationGded, customFit_break, customFit_alloc, UHeap.takeFit]
      split
      · rename_i hlt
        rw [max_eq_right (by omega)]
      · rename_i hle
        rw [max_eq_left (by omega)]

/-- `placeShared` refuses, takes the break or takes the fit, and leaves the break alone after a fit. -/
theorem placeShared_cases {s : UHeap} (h : s.Inv) {n need : Nat} (hneed : mul32 n pageSize = need) {ret : Int}
    (hr : 0 ≤ ret) (stale : Nat) :
    (userHeapMax < add32 s.uheapPageAllocBreak need ∧ placeShared s n ret stale = (0, s)) ∨
    (add32 s.uheapPageAllocBreak need ≤ userHeapMax ∧
      (((customFit s n).1 = 0 ∧ placeShared s n ret stale = (s.uheapPageAllocBreak,
          { s with uheapPageAllocBreak := add32 s.uheapPageAllocBreak need,
                   allocHead := ⟨s.uheapPageAllocBreak, need, stale⟩ :: s.allocHead })) ∨
       ((customFit s n).1 ≠ 0 ∧ placeShared s n ret stale =
          ((customFit s n).1, s.takeFit n need stale s.uheapPageAllocBreak)))) := by
  have hlo := h.breakLo
  have hhi := h.breakHi
  have hbp := h.breakPage
  simp only [userHeapMax] at hhi
  have hst : alignStart s = s := by
    simp only [alignStart, h.start, pageSize]; rfl
  have hr' : ¬ ret < 0 := by omega
  by_cases hmax : userHeapMax < add32 s.uheapPageAllocBreak need
  · exact .inl ⟨hmax, by simp only [placeShared, hneed, if_pos hmax]⟩
  · refine .inr ⟨by omega, ?_⟩
    by_cases hf : (customFit s n).1 = 0
    · refine .inl ⟨hf, ?_⟩
      have hb : roundUp s.uheapPageAllocBreak pageSize = s.uheapPageAllocBreak := roundUp_of_dvd hbp (by omega)
      simp only [placeShared, hneed, if_neg hmax, hst, if_pos hf, customFit_zero h hf, shareAt, hb,
        if_neg hr', allocationGded]
    · refine .inr ⟨hf, ?_⟩
      obtain ⟨d, hd, hfd⟩ := customFit_start_mem h hf
      have hdf := h.free_fits hd
      have h1 := hdf.start
      have h2 := hdf.hi
      simp only [FreeBlockNode.extent, fin, userHeapMax] at h1 h2
      have hb : roundUp (customFit s n).1 pageSize = (customFit s n).1 := by
        rw [hfd]; exact roundUp_of_dvd h1 (by omega)
      simp only [placeShared, hneed, if_neg hmax, hst, if_neg hf, shareAt, hb, if_neg hr', allocationGded,
        customFit_alloc, UHeap.takeFit]
      rw [← customFit_break s n]

/-! ## What keeps the invariant -/

/-- Taking pages at the break keeps the invariant when no free range reaches into them. -/
theorem UHeap.Inv.extend {s : UHeap} (h : s.Inv) {n : Nat} (stale : Nat) (hn : 0 < n)
    (hmax : s.uheapPageAllocBreak + n * 4096 ≤ userHeapMax)
    (hap : ∀ d ∈ s.freeHead, d.extent.Apart ⟨s.uheapPageAllocBreak, n * 4096⟩) : (s.extend n stale).Inv := by
  have hlo := h.breakLo
  have hbp := h.breakPage
  have hfits : Fits 2181042176 userHeapMax 4096 ⟨s.uheapPageAllocBreak, n * 4096⟩ :=
    ⟨hlo, hmax, hbp, by simp, by simp only; omega⟩
  refine ⟨h.start, ?_, ?_, hmax, ?_, ?_⟩
  · refine Packed.perm (packed_cons.2 ⟨?_, hfits, h.packed⟩) List.perm_middle.symm
    intro d hd
    rcases List.mem_append.1 hd with hd | hd
    · obtain ⟨f, hf, rfl⟩ := List.mem_map.1 hd
      exact (hap f hf).symm
    · obtain ⟨a, ha, rfl⟩ := List.mem_map.1 hd
      exact .inr (h.below a ha)
  · simp only [UHeap.extend]; omega
  · simp only [UHeap.extend]; omega
  · intro a ha
    rcases List.mem_cons.1 ha with rfl | ha
    · exact le_rfl
    · have := h.below a ha
      simp only [UHeap.extend]; omega

/-- Taking the fit keeps the invariant when the break ends up at or above it. -/
theorem UHeap.Inv.takeFit {s : UHeap} (h : s.Inv) {n b : Nat} (stale : Nat) (hn : 0 < n)
    (hf : (customFit s n).1 ≠ 0) (hb : s.uheapPageAllocBreak ≤ b) (hfb : (customFit s n).1 + n * 4096 ≤ b)
    (hmax : b ≤ userHeapMax) (hp : b % 4096 = 0) : (s.takeFit n (n * 4096) stale b).Inv := by
  have hlo := h.breakLo
  refine ⟨?_, ?_, le_trans hlo hb, hmax, hp, ?_⟩
  · simp only [UHeap.takeFit, customFit_start, h.start]
  · exact Packed.perm (customFit_packed h hn hf) List.perm_middle.symm
  · intro a ha
    rcases List.mem_cons.1 ha with rfl | ha
    · exact hfb
    · exact le_trans (h.below a ha) hb

/-! ## Freeing -/

/-- The break found by `ta7dethElBreakTofree` bounds every allocation, and is a page boundary. -/
theorem a5erelEnd_spec : ∀ {l : List OurAllocationNode} {e : Nat},
    (∀ a ∈ l, a.extent.Fits 2181042176 userHeapMax 4096) → e % 4096 = 0 → e ≤ userHeapMax →
    e ≤ a5erelEnd e l ∧ a5erelEnd e l ≤ userHeapMax ∧ a5erelEnd e l % 4096 = 0 ∧
      ∀ a ∈ l, a.extent.fin ≤ a5erelEnd e l
  | [], _, _, hp, hm => ⟨le_rfl, hm, hp, by simp⟩
  | a :: l, e, hl, hp, hm => by
    have ha := hl a List.mem_cons_self
    have hrest := fun b hb => hl b (List.mem_cons_of_mem _ hb)
    have h1 := ha.hi
    have h2 := ha.start
    have h3 := ha.len
    simp only [OurAllocationNode.extent, fin, userHeapMax] at h1 h2 h3
    have hend : add32 a.bedayetEladd a.size = a.bedayetEladd + a.size := add32_of_lt (by omega)
    simp only [a5erelEnd, hend]
    split
    · rename_i hc
      obtain ⟨g1, g2, g3, g4⟩ := a5erelEnd_spec hrest (e := a.bedayetEladd + a.size) (by omega) hc.2
      refine ⟨by omega, g2, g3, fun b hb => ?_⟩
      rcases List.mem_cons.1 hb with rfl | hb
      · exact g1
      · exact g4 b hb
    · rename_i hc
      obtain ⟨g1, g2, g3, g4⟩ := a5erelEnd_spec hrest hp hm
      refine ⟨g1, g2, g3, fun b hb => ?_⟩
      rcases List.mem_cons.1 hb with rfl | hb
      · simp only [OurAllocationNode.extent, fin, userHeapMax] at hc ⊢; omega
      · exact g4 b hb

theorem ta7dethElBreakTofree_spec {s : UHeap} (hst : s.uheapPageAllocStart = 2181042176)
    (hl : ∀ a ∈ s.allocHead, a.extent.Fits 2181042176 userHeapMax 4096) :
    ∃ b, ta7dethElBreakTofree s = { s with uheapPageAllocBreak := b } ∧ 2181042176 ≤ b ∧ b ≤ userHeapMax ∧
      b % 4096 = 0 ∧ ∀ a ∈ s.allocHead, a.extent.fin ≤ b := by
  obtain ⟨h1, h2, h3, h4⟩ := a5erelEnd_spec (e := s.uheapPageAllocStart) hl (by rw [hst]) (by rw [hst]; decide)
  refine ⟨a5erelEnd s.uheapPageAllocStart s.allocHead, ?_, by omega, h2, h3, h4⟩
  have g1 : ¬ userHeapMax < a5erelEnd s.uheapPageAllocStart s.allocHead := by omega
  have g2 : ¬ a5erelEnd s.uheapPageAllocStart s.allocHead < s.uheapPageAllocStart := by omega
  have g3 : roundUp (a5erelEnd s.uheapPageAllocStart s.allocHead) pageSize =
      a5erelEnd s.uheapPageAllocStart s.allocHead :=
    roundUp_of_dvd h3 (by simp only [userHeapMax] at h2; omega)
  simp only [ta7dethElBreakTofree, if_neg g1, if_neg g2, g3]

/-- The start of an allocation is found, and the list is that allocation and what is left without it. -/
theorem findAllocation_some {va : Nat} : ∀ {l : List OurAllocationNode}, va ∈ l.map (·.bedayetEladd) →
    ∃ a, findAllocation l va = some a ∧ a.bedayetEladd = va ∧ l.Perm (a :: nemsa7allocation l va)
  | [], h => absurd h List.not_mem_nil
  | b :: l, h => by
    by_cases hb : b.bedayetEladd = va
    · exact ⟨b, by simp [findAllocation, hb], hb, by simp [nemsa7allocation, hb]⟩
    · have hl : va ∈ l.map (·.bedayetEladd) := by
        rcases List.mem_cons.1 h with h | h
        · exact absurd h.symm hb
        · exact h
      obtain ⟨a, h1, h2, h3⟩ := findAllocation_some hl
      refine ⟨a, by simpa [findAllocation, hb] using h1, h2, ?_⟩
      have : nemsa7allocation (b :: l) va = b :: nemsa7allocation l va := by simp [nemsa7allocation, hb]
      rw [this]
      exact (h3.cons b).trans (.swap ..)

/-- `free` of an allocation gives its range to the free list and lowers the break. -/
theorem free_alloc {s : UHeap} (h : s.Inv) {va : Nat} (hva : va ∈ s.allocHead.map (·.bedayetEladd)) :
    ∃ s', free s va = .ok s' ∧ s'.Inv ∧ s'.allocHead = nemsa7allocation s.allocHead va := by
  obtain ⟨a, hfind, hav, hperm⟩ := findAllocation_some hva
  have hfit := h.alloc_fits (hperm.mem_iff.2 List.mem_cons_self)
  have h1 := hfit.lo
  have h2 := hfit.hi
  have h3 := hfit.start
  have h4 := hfit.len
  have h5 := hfit.pos
  simp only [OurAllocationNode.extent, fin, userHeapMax, hav] at h1 h2 h3 h4 h5
  have hround : roundDown va pageSize = va := roundDown_of_dvd h3
  have hrest : ∀ b ∈ nemsa7allocation s.allocHead va, b.extent.Fits 2181042176 userHeapMax 4096 :=
    fun b hb => h.alloc_fits (hperm.mem_iff.2 (List.mem_cons_of_mem _ hb))
  obtain ⟨b, hb, hlo, hhi, hbp, hbelow⟩ := ta7dethElBreakTofree_spec
    (s := { s with allocHead := nemsa7allocation s.allocHead va }) h.start hrest
  refine ⟨{ s with uheapPageAllocBreak := b, allocHead := nemsa7allocation s.allocHead va,
                   freeHead := mergee (freeBlockk s.freeHead va (a.size / pageSize)) }, ?_, ?_, rfl⟩
  · have g1 : ¬ (userHeapStart ≤ va ∧ va < s.uheapPageAllocStart) := by rw [h.start]; omega
    have g2 : s.uheapPageAllocStart ≤ va ∧ va < userHeapMax := by
      rw [h.start]; exact ⟨h1, by simp only [userHeapMax]; omega⟩
    simp only [free, if_neg (show ¬ va = 0 by omega), if_neg g1, if_pos g2, hround, hfind, hb]
  · refine ⟨h.start, mergee_packed (freeBlockk_packed (by simp only [pageSize]; omega) ?_), hlo, hhi, hbp, hbelow⟩
    have hext : a.extent = ⟨va, a.size / pageSize * 4096⟩ := by
      simp only [OurAllocationNode.extent, hav, pageSize, Extent.mk.injEq, true_and]; omega
    rw [← hext]
    apply h.packed.perm
    exact (((hperm.map OurAllocationNode.extent).append_left _).trans List.perm_middle)

/-- `sfree` of an allocation gives its range to the free list and leaves the break alone. -/
theorem sfree_alloc {s : UHeap} (h : s.Inv) {va : Nat} (hva : va ∈ s.allocHead.map (·.bedayetEladd)) {ret : Int}
    (hr : 0 ≤ ret) :
    (sfree s va ret).Inv ∧ (sfree s va ret).allocHead = nemsa7allocation s.allocHead va := by
  obtain ⟨a, hfind, hav, hperm⟩ := findAllocation_some hva
  have hfit := h.alloc_fits (hperm.mem_iff.2 List.mem_cons_self)
  have h2 := hfit.hi
  have h4 := hfit.len
  simp only [OurAllocationNode.extent, fin, userHeapMax, hav] at h2 h4
  have hpages : add32 a.size (pageSize - 1) / pageSize * 4096 = a.size := by
    rw [pageSize, add32_of_lt (by omega)]; omega
  simp only [sfree, hfind, if_neg (show ¬ ret < 0 by omega)]
  refine ⟨⟨h.start, mergee_packed (insertNode_packed ?_), h.breakLo, h.breakHi, h.breakPage, ?_⟩, trivial⟩
  · have hext : a.extent = ⟨va, add32 a.size (pageSize - 1) / pageSize * 4096⟩ := by
      rw [hpages, OurAllocationNode.extent, hav]
    rw [← hext]
    exact h.packed.perm (((hperm.map OurAllocationNode.extent).append_left _).trans List.perm_middle)
  · exact fun b hb => h.below b (hperm.mem_iff.2 (List.mem_cons_of_mem _ hb))

/-! ## Runs of a process -/

/-- A process: its heap and the page-allocator ranges it was given and has not freed. -/
structure UProc where
  heap : UHeap
  live : List Extent
  deriving DecidableEq

inductive UCall where
  | malloc (size blk stale : Nat)
  | free (va : Nat)
  | smalloc (size : Nat) (ret : Int) (stale : Nat)
  | sget (size ret : Int) (stale : Nat)
  | sfree (va : Nat) (ret : Int)

/-- The range a request of `size` bytes obtained when the call returned `va`. -/
def grant (live : List Extent) (va size : Nat) : List Extent :=
  if va = 0 then live else ⟨va, (size + 4095) / 4096 * 4096⟩ :: live

def UCall.run (p : UProc) : UCall → Res UProc
  | .malloc size blk stale =>
    let r := Heap.malloc p.heap size blk stale
    .ok ⟨r.2, if size ≤ dynAllocMaxBlockSize then p.live else grant p.live r.1 size⟩
  | .free va => do
    let heap ← Heap.free p.heap va
    return ⟨heap, release p.live va⟩
  | .smalloc size ret stale =>
    let r := Heap.smalloc p.heap size ret stale
    .ok ⟨r.2, grant p.live r.1 size⟩
  | .sget size ret stale =>
    let r := Heap.sget p.heap size ret stale
    .ok ⟨r.2, grant p.live r.1 size.toNat⟩
  | .sfree va ret => .ok ⟨Heap.sfree p.heap va ret, release p.live va⟩

/-- The calls of the property: 32-bit sizes, frees of live addresses (or of the block allocator's),
and the kernel's calls succeeding. -/
def UCall.Legal (p : UProc) : UCall → Prop
  | .malloc size _ _ => size < 4294967296
  | .free va => (∃ e ∈ p.live, e.start = va) ∨ (userHeapStart ≤ va ∧ va < p.heap.uheapPageAllocStart)
  | .smalloc size ret _ => size < 4294967296 ∧ 0 ≤ ret
  | .sget size ret _ => -2147483648 ≤ size ∧ size < 2147483648 ∧ 0 ≤ ret
  | .sfree va ret => (∃ e ∈ p.live, e.start = va) ∧ 0 ≤ ret

def UStep (p : UProc) (c : UCall) (p' : UProc) : Prop := c.Legal p ∧ c.run p = .ok p'

def uprocInit : UProc := ⟨uheapInit, []⟩

/-- Live ranges are pairwise disjoint, inside the page allocator's part of the heap, end at or
below the break, and no free range overlaps one. -/
structure UProc.Wf (p : UProc) : Prop where
  disjoint : p.live.Pairwise Extent.Disjoint
  inside : ∀ e ∈ p.live, p.heap.uheapPageAllocStart ≤ e.start ∧ e.fin ≤ userHeapMax
  below : ∀ e ∈ p.live, e.fin ≤ p.heap.uheapPageAllocBreak
  free : ∀ n ∈ p.heap.freeHead, ∀ e ∈ p.live, n.extent.Disjoint e

structure UProc.Inv (p : UProc) : Prop where
  heap : p.heap.Inv
  live : p.live = p.heap.allocHead.map OurAllocationNode.extent

theorem uprocInit_inv : uprocInit.Inv := ⟨uheapInit_inv, rfl⟩

theorem UProc.Inv.wf {p : UProc} (h : p.Inv) : p.Wf := by
  have hpack := h.heap.packed
  have hap := List.pairwise_append.1 hpack.apart
  refine ⟨?_, ?_, ?_, ?_⟩
  · rw [h.live]; exact hap.2.1.imp Apart.disjoint
  · rw [h.live]
    intro e he
    have := hpack.fits e (List.mem_append_right _ he)
    exact ⟨by rw [h.heap.start]; exact this.lo, this.hi⟩
  · rw [h.live]
    intro e he
    obtain ⟨a, ha, rfl⟩ := List.mem_map.1 he
    exact h.heap.below a ha
  · rw [h.live]
    exact fun n hn e he => (hap.2.2 _ (List.mem_map_of_mem hn) e he).disjoint

/-! ## When a run keeps the ranges apart -/

/-- The condition on `malloc`: when nothing fits and the break can be extended, no free range
reaches into the pages above the break that the request needs. -/
def MallocOk (s : UHeap) (size : Nat) : Prop :=
  dynAllocMaxBlockSize < size → s.uheapPageAllocBreak + (size + 4095) / 4096 * 4096 ≤ userHeapMax →
    (customFit s ((size + 4095) / 4096)).1 = 0 →
    ∀ d ∈ s.freeHead, d.extent.Apart ⟨s.uheapPageAllocBreak, (size + 4095) / 4096 * 4096⟩

/-- The condition on `smalloc` and `sget`, which compute `pages` for `size` bytes: when their check
of the break passes, the true sum passes it too, a fit ends at or below the break, and without a
fit no free range reaches into the pages above the break. -/
def ShareOk (s : UHeap) (size pages : Nat) : Prop :=
  let n := (size + 4095) / 4096
  add32 s.uheapPageAllocBreak (mul32 pages pageSize) ≤ userHeapMax →
    s.uheapPageAllocBreak + n * 4096 ≤ userHeapMax ∧
    ((customFit s n).1 ≠ 0 → (customFit s n).1 + n * 4096 ≤ s.uheapPageAllocBreak) ∧
    ((customFit s n).1 = 0 → ∀ d ∈ s.freeHead, d.extent.Apart ⟨s.uheapPageAllocBreak, n * 4096⟩)

def UCall.Ok (p : UProc) : UCall → Prop
  | .malloc size _ _ => MallocOk p.heap size
  | .smalloc size _ _ => 0 < size → ShareOk p.heap size (roundUp size pageSize / pageSize)
  | .sget size _ _ => 0 < size → ShareOk p.heap size.toNat (numOfPagesNeededSgetFun size)
  | .free _ => True
  | .sfree _ _ => True

theorem malloc_inv {p : UProc} (h : p.Inv) {size : Nat} (blk stale : Nat) (hs : size < 4294967296)
    (hok : MallocOk p.heap size) {p' : UProc} (hrun : UCall.run p (.malloc size blk stale) = .ok p') : p'.Inv := by
  obtain rfl := Except.ok.inj hrun.symm
  by_cases hsmall : size ≤ dynAllocMaxBlockSize
  · have : (malloc p.heap size blk stale).2 = p.heap := by
      simp only [malloc, if_pos hsmall]; split <;> rfl
    simp only [if_pos hsmall]
    exact ⟨by rw [this]; exact h.heap, by rw [this]; exact h.live⟩
  · have hb : 2048 < size := by simpa using hsmall
    simp only [if_neg hsmall]
    rcases malloc_cases h.heap blk stale hb hs with ⟨-, hm⟩ | ⟨n, hn, hpos, -, ⟨hf, hmax, hm⟩ | ⟨hf, hm⟩⟩
    · rw [hm]; exact h
    · subst hn
      have hne : ¬ p.heap.uheapPageAllocBreak = 0 := by have := h.heap.breakLo; omega
      rw [hm]
      refine ⟨h.heap.extend stale hpos hmax (hok hb hmax hf), ?_⟩
      simp only [grant, if_neg hne, h.live]
      rfl
    · subst hn
      have hfit := (packed_cons.1 (customFit_packed h.heap hpos hf)).2.1
      have h1 := hfit.hi
      have h2 := hfit.start
      have h3 := h.heap.breakHi
      have h4 := h.heap.breakPage
      simp only [fin] at h1 h2
      rw [hm]
      refine ⟨h.heap.takeFit stale hpos hf (le_max_left ..) (le_max_right ..) (max_le h3 h1) (by omega), ?_⟩
      simp only [grant, if_neg hf, h.live]
      rfl

theorem malloc_exact {p : UProc} (h : p.Inv) {size : Nat} (blk stale : Nat) (hs : size < 4294967296)
    {p' : UProc} (hrun : UCall.run p (.malloc size blk stale) = .ok p') (hwf : p'.Wf) : MallocOk p.heap size := by
  obtain rfl := Except.ok.inj hrun.symm
  intro hb hmax hf d hd
  have hlo := h.heap.breakLo
  have hne : ¬ p.heap.uheapPageAllocBreak = 0 := by omega
  have hfree := hwf.free
  simp only [if_neg (show ¬ size ≤ dynAllocMaxBlockSize by omega)] at hfree
  rcases malloc_cases h.heap blk stale hb hs with ⟨hbig, -⟩ | ⟨n, hn, hpos, -, ⟨-, -, hm⟩ | ⟨hf', -⟩⟩
  · omega
  · subst hn
    rw [hm] at hfree
    refine apart_of_disjoint (h.heap.free_fits hd).pos (by simp only; omega) (hfree d hd _ ?_)
    simp only [grant, if_neg hne]
    exact List.mem_cons_self
  · subst hn
    exact absurd hf hf'

section Shared

/-! `smalloc` and `sget` compute the number of pages `n` for `size` bytes; it is the true one for
every size that fits the heap. -/

variable {p : UProc} {size n : Nat} {ret : Int}

theorem share_inv (h : p.Inv) (hpos : 0 < size) (hn : (size + 4095) / 4096 ≤ 122879 → n = (size + 4095) / 4096)
    (hr : 0 ≤ ret) (stale : Nat) (hok : ShareOk p.heap size n) :
    UProc.Inv ⟨(placeShared p.heap n ret stale).2, grant p.live (placeShared p.heap n ret stale).1 size⟩ := by
  have hlo := h.heap.breakLo
  rcases placeShared_cases h.heap (n := n) rfl hr stale with ⟨-, hm⟩ | ⟨hle, hcase⟩
  · rw [hm]; exact h
  · obtain ⟨hmax, hfit, hnofit⟩ := hok hle
    have hn := hn (by simp only [userHeapMax] at hmax; omega)
    subst hn
    have hneed : mul32 ((size + 4095) / 4096) pageSize = (size + 4095) / 4096 * 4096 :=
      mul32_of_lt (by simp only [pageSize, userHeapMax] at *; omega)
    have hgrow : add32 p.heap.uheapPageAllocBreak ((size + 4095) / 4096 * 4096) =
        p.heap.uheapPageAllocBreak + (size + 4095) / 4096 * 4096 :=
      add32_of_lt (by simp only [userHeapMax] at hmax; omega)
    rcases hcase with ⟨hf, hm⟩ | ⟨hf, hm⟩
    · have hne : ¬ p.heap.uheapPageAllocBreak = 0 := by omega
      rw [hm, hneed, hgrow]
      refine ⟨h.heap.extend stale (by omega) hmax (hnofit hf), ?_⟩
      simp only [grant, if_neg hne, h.live]
      rfl
    · rw [hm, hneed]
      refine ⟨h.heap.takeFit stale (by omega) hf le_rfl (hfit hf) h.heap.breakHi h.heap.breakPage, ?_⟩
      simp only [grant, if_neg hf, h.live]
      rfl

theorem share_exact (h : p.Inv) (hpos : 0 < size) (hn : (size + 4095) / 4096 ≤ 122879 → n = (size + 4095) / 4096)
    (hr : 0 ≤ ret) (stale : Nat)
    (hwf : UProc.Wf ⟨(placeShared p.heap n ret stale).2, grant p.live (placeShared p.heap n ret stale).1 size⟩) :
    ShareOk p.heap size n := by
  have hlo := h.heap.breakLo
  have hhi := h.heap.breakHi
  intro hle
  rcases placeShared_cases h.heap (n := n) rfl hr stale with ⟨hlt, -⟩ | ⟨-, hcase⟩
  · omega
  · -- the granted range starts in the heap, so its size fits the heap
    have hstart : ∃ va s', placeShared p.heap n ret stale = (va, s') ∧ 2181042176 ≤ va ∧
        s'.uheapPageAllocStart = 2181042176 := by
      rcases hcase with ⟨hf, hm⟩ | ⟨hf, hm⟩
      · exact ⟨_, _, hm, hlo, h.heap.start⟩
      · obtain ⟨d, hd, hfd⟩ := customFit_start_mem h.heap hf
        refine ⟨_, _, hm, ?_, ?_⟩
        · rw [hfd]; exact (h.heap.free_fits hd).lo
        · simp only [UHeap.takeFit, customFit_start, h.heap.start]
    obtain ⟨va, s', hm', hva, hst⟩ := hstart
    have hne : ¬ va = 0 := by omega
    have hin := hwf.inside ⟨va, (size + 4095) / 4096 * 4096⟩ (by
      rw [hm']; simp only [grant, if_neg hne]; exact List.mem_cons_self)
    simp only [fin, userHeapMax] at hin hle hhi
    have hn := hn (by omega)
    subst hn
    have hneed : mul32 ((size + 4095) / 4096) pageSize = (size + 4095) / 4096 * 4096 :=
      mul32_of_lt (by simp only [pageSize]; omega)
    have hgrow : add32 p.heap.uheapPageAllocBreak ((size + 4095) / 4096 * 4096) =
        p.heap.uheapPageAllocBreak + (size + 4095) / 4096 * 4096 := add32_of_lt (by omega)
    rw [hneed, hgrow] at hle
    rw [hneed, hgrow] at hcase
    refine ⟨by simp only [userHeapMax]; omega, fun hf => ?_, fun hf d hd => ?_⟩
    · rcases hcase with ⟨hf', -⟩ | ⟨-, hm⟩
      · exact absurd hf' hf
      · rw [hm] at hwf
        apply hwf.below ⟨_, (size + 4095) / 4096 * 4096⟩
        simp only [grant, if_neg hf]
        exact List.mem_cons_self
    · rcases hcase with ⟨-, hm⟩ | ⟨hf', -⟩
      · have hne : ¬ p.heap.uheapPageAllocBreak = 0 := by omega
        rw [hm] at hwf
        refine apart_of_disjoint (h.heap.free_fits hd).pos (by simp only; omega) (hwf.free d hd _ ?_)
        simp only [grant, if_neg hne]
        exact List.mem_cons_self
      · exact absurd hf hf'

end Shared

theorem smalloc_pages {size : Nat} (h : (size + 4095) / 4096 ≤ 122879) :
    roundUp size pageSize / pageSize = (size + 4095) / 4096 := roundUp_div size (by omega)

theorem sget_pages {size : Int} (hs : 0 < size) (h : (size.toNat + 4095) / 4096 ≤ 122879) :
    numOfPagesNeededSgetFun size = (size.toNat + 4095) / 4096 := by
  have h1 : ofInt32 size = size.toNat := by unfold ofInt32; omega
  have h2 : roundUp size.toNat pageSize = (size.toNat + 4095) / 4096 * 4096 := by
    have := roundUp_div size.toNat (by omega)
    unfold roundUp roundDown at *
    simp only [pageSize]
    omega
  have h3 : toInt32 ((size.toNat + 4095) / 4096 * 4096) = ((size.toNat + 4095) / 4096 * 4096 : Nat) := by
    unfold toInt32; rw [if_pos (by omega)]
  have h4 : (((size.toNat + 4095) / 4096 * 4096 : Nat) : Int).tdiv (pageSize : Nat) =
      ((size.toNat + 4095) / 4096 : Nat) := by
    rw [← Int.ofNat_tdiv]
    simp only [pageSize, Nat.mul_div_cancel _ (show 0 < 4096 by decide)]
  unfold numOfPagesNeededSgetFun
  rw [h1, h2, h3, h4]
  unfold ofInt32; omega

/-- Giving a live range back. -/
theorem release_live {p : UProc} (h : p.Inv) (va : Nat) :
    release p.live va = (nemsa7allocation p.heap.allocHead va).map OurAllocationNode.extent := by
  rw [h.live, release, List.eraseP_map]
  rfl

theorem live_starts {p : UProc} (h : p.Inv) {va : Nat} (hva : ∃ e ∈ p.live, e.start = va) :
    va ∈ p.heap.allocHead.map (·.bedayetEladd) := by
  obtain ⟨e, he, rfl⟩ := hva
  rw [h.live] at he
  obtain ⟨a, ha, rfl⟩ := List.mem_map.1 he
  exact List.mem_map_of_mem ha

theorem free_inv {p p' : UProc} (h : p.Inv) {va : Nat} (hl : UCall.Legal p (.free va))
    (hrun : UCall.run p (.free va) = .ok p') : p'.Inv := by
  obtain ⟨s', hs', hp'⟩ := bind_ok hrun
  obtain rfl := Except.ok.inj hp'.symm
  rcases hl with hl | ⟨h1, h2⟩
  · obtain ⟨s'', hs'', hinv, halloc⟩ := free_alloc h.heap (live_starts h hl)
    rw [hs''] at hs'
    cases hs'
    exact ⟨hinv, by rw [release_live h, halloc]⟩
  · have hne : ¬ va = 0 := by simp only [userHeapStart] at h1; omega
    simp only [free, if_neg hne, if_pos (And.intro h1 h2), Except.ok.injEq] at hs'
    subst hs'
    -- the address lies below every live range
    have hno : nemsa7allocation p.heap.allocHead va = p.heap.allocHead := by
      apply List.eraseP_of_forall_not
      intro a ha
      have := (h.heap.alloc_fits ha).lo
      have hst := h.heap.start
      simp only [OurAllocationNode.extent] at this
      simp only [beq_iff_eq]; omega
    exact ⟨h.heap, by rw [release_live h, hno]⟩

/-- A legal step that meets the condition keeps the invariant. -/
theorem UStep.inv (p : UProc) (c : UCall) (p' : UProc) (h : p.Inv) (hok : c.Ok p) (hstep : UStep p c p') :
    p'.Inv := by
  obtain ⟨hl, hrun⟩ := hstep
  cases c with
  | malloc size blk stale => exact malloc_inv h blk stale hl hok hrun
  | free va => exact free_inv h hl hrun
  | smalloc size ret stale =>
    obtain rfl := Except.ok.inj hrun.symm
    rcases Nat.eq_zero_or_pos size with rfl | hpos
    · exact h
    · simp only [smalloc, if_neg hpos.ne']
      exact share_inv h hpos smalloc_pages hl.2 stale (hok hpos)
  | sget size ret stale =>
    obtain rfl := Except.ok.inj hrun.symm
    by_cases hpos : 0 < size
    · simp only [sget, if_neg (show ¬ size ≤ 0 by omega)]
      exact share_inv h (by omega) (sget_pages hpos) hl.2.2 stale (hok hpos)
    · simp only [sget, if_pos (show size ≤ 0 by omega)]
      exact h
  | sfree va ret =>
    obtain rfl := Except.ok.inj hrun.symm
    obtain ⟨hinv, halloc⟩ := sfree_alloc h.heap (live_starts h hl.1) hl.2
    exact ⟨hinv, by rw [release_live h, halloc]⟩

/-- A legal step after which the ranges are still apart met the condition. -/
theorem UStep.ok (p : UProc) (c : UCall) (p' : UProc) (h : p.Inv) (hstep : UStep p c p') (hwf : p'.Wf) :
    c.Ok p := by
  obtain ⟨hl, hrun⟩ := hstep
  cases c with
  | malloc size blk stale => exact malloc_exact h blk stale hl hrun hwf
  | free va => trivial
  | smalloc size ret stale =>
    obtain rfl := Except.ok.inj hrun.symm
    intro hpos
    simp only [smalloc, if_neg hpos.ne'] at hwf
    exact share_exact h hpos smalloc_pages hl.2 stale hwf
  | sget size ret stale =>
    obtain rfl := Except.ok.inj hrun.symm
    intro hpos
    simp only [sget, if_neg (show ¬ size ≤ 0 by omega)] at hwf
    exact share_exact h (by omega) (sget_pages hpos) hl.2.2 stale hwf
  | sfree va ret => trivial

/-- In a run of the user heap the live ranges stay disjoint, inside the heap, below the break and
off the free list exactly when no step takes pages at the break that a free range reaches into, no
shared request passes the check of the break by wrapping, and none is placed above the break. -/
theorem user_heap_ranges (cs : List UCall) :
    Always UStep UProc.Wf uprocInit cs ↔ Each UStep (fun p c => c.Ok p) uprocInit cs :=
  always_iff_each (fun _ h => h.wf) UStep.inv UStep.ok uprocInit_inv

/-- Two requests of three pages, the second freed, then one of four pages: it is placed at the
lowered break, on the range that is still on the free list. -/
theorem user_heap_overlap :
    ¬ Always UStep UProc.Wf uprocInit
      [.malloc 12288 0 0, .malloc 12288 0 0, .free 2181054464, .malloc 16384 0 0] := by
  have hinit : uprocInit = ⟨⟨2181042176, 2181042176, [], []⟩, []⟩ := rfl
  rw [hinit]
  intro h
  have h1 := h.2 ⟨⟨2181042176, 2181054464, [⟨2181042176, 12288, 0⟩], []⟩, [⟨2181042176, 12288⟩]⟩
    ⟨by simp [UCall.Legal], by decide⟩
  have h2 := h1.2 ⟨⟨2181042176, 2181066752, [⟨2181054464, 12288, 0⟩, ⟨2181042176, 12288, 0⟩], []⟩,
    [⟨2181054464, 12288⟩, ⟨2181042176, 12288⟩]⟩ ⟨by simp [UCall.Legal], by decide⟩
  have h3 := h2.2 ⟨⟨2181042176, 2181054464, [⟨2181042176, 12288, 0⟩], [⟨2181054464, 3⟩]⟩, [⟨2181042176, 12288⟩]⟩
    ⟨by simp [UCall.Legal], by decide⟩
  have h4 := h3.2 ⟨⟨2181042176, 2181070848, [⟨2181054464, 16384, 0⟩, ⟨2181042176, 12288, 0⟩], [⟨2181054464, 3⟩]⟩,
    [⟨2181054464, 16384⟩, ⟨2181042176, 12288⟩]⟩ ⟨by simp [UCall.Legal], by decide⟩
  exact h4.free ⟨2181054464, 3⟩ List.mem_cons_self ⟨2181054464, 16384⟩ List.mem_cons_self 2181054464
    (by simp [Has, fin, FreeBlockNode.extent])

end Fos.Heap
