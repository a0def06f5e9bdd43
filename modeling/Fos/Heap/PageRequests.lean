/-
When `kmalloc` refuses a request of pages, and what it hands out for the sizes near the top of the range.
-/
import Fos.Heap.CustomFit
import Fos.Heap.KernelProgress

namespace Fos.Heap

open Fos.Lib Fos.Lib.Extent Fos.Memory

/-! ## Refused requests -/

/-- Below the break there is a hole of at least `n` pages. -/
def Kernel.HasHole (s : Kernel) (n : Nat) : Prop :=
  ∃ p k, Gap (FreePage s.mem) (s.kheapPageAllocStart / 4096) (s.kheapPageAllocBreak / 4096) p k ∧ n ≤ k

/-- There is no room for `n` pages: no hole below the break, and too few pages above it. -/
def Kernel.NoRoom (s : Kernel) (n : Nat) : Prop :=
  ¬ s.HasHole n ∧ kernelHeapMax < s.kheapPageAllocBreak + n * pageSize

section Refused

variable {s t : Kernel} {size n b : Nat}

/-- The check before the scan compares the exact end of the request with the end of the heap. -/
theorem refuses_iff (hb : s.kheapPageAllocBreak = b * 4096) (hlt : b < 1048575) (hn : n < 1048576) :
    s.Refuses n ↔ kernelHeapMax ≤ s.kheapPageAllocBreak + n * pageSize := by
  unfold Kernel.Refuses
  rw [mul32_of_lt (by simp only [pageSize]; omega), hb]
  simp only [kernelHeapMax, pageSize]
  unfold add32
  omega

/-- With frames for its pages a request gets `NULL` exactly if its end above the break reaches the end of the heap. -/
theorem null_iff (h : HeapReady s) (hl : s.lock = false) (hs : 2048 < size)
    (hfree : pagesOf size ≤ s.mem.freeFrameList.length) :
    (∃ t, kmalloc size s = .ok 0 t) ↔ kernelHeapMax ≤ s.kheapPageAllocBreak + pagesOf size * pageSize := by
  obtain ⟨b, hb, hlow, hhigh⟩ := h.heap.brk
  rw [← refuses_iff hb hhigh (pagesOf_lt size)]
  constructor
  · rintro ⟨t, ht⟩
    by_contra hr
    obtain ⟨va, t', ht', hne, -⟩ := kmalloc_returns size h hl hs hr hfree
    rw [ht'] at ht
    injection ht with hva
    exact hne hva
  · intro hr
    exact ⟨s, by rw [kmalloc_pages hl hs (by omega), if_pos hr]⟩

end Refused

/-- `NULL` means that there is no room exactly while the request ends before the end of the heap, or ends
after it and no hole below the break is large enough. -/
theorem null_without_room {s : Kernel} (h : HeapReady s) (hl : s.lock = false) {size : Nat} (hs : 2048 < size)
    (hsize : size ≤ 4294963200) (hfree : (size + 4095) / 4096 ≤ s.mem.freeFrameList.length) :
    ((∃ t, kmalloc size s = .ok 0 t) ↔ s.NoRoom ((size + 4095) / 4096)) ↔
      s.kheapPageAllocBreak + (size + 4095) / 4096 * pageSize < kernelHeapMax ∨
      (kernelHeapMax < s.kheapPageAllocBreak + (size + 4095) / 4096 * pageSize ∧
        ¬ s.HasHole ((size + 4095) / 4096)) := by
  have hn : pagesOf size = (size + 4095) / 4096 := roundUp_div size hsize
  rw [← hn] at hfree ⊢
  rw [null_iff h hl hs hfree, Kernel.NoRoom]
  constructor
  · intro hiff
    rcases Nat.lt_or_ge (s.kheapPageAllocBreak + pagesOf size * pageSize) kernelHeapMax with hlt | hge
    · exact .inl hlt
    · exact .inr (hiff.1 hge).symm
  · rintro (hlt | ⟨hgt, hno⟩)
    · exact ⟨fun hge => absurd hge hlt.not_ge, fun hroom => absurd hroom.2 hlt.le.not_gt⟩
    · exact ⟨fun _ => ⟨hno, hgt⟩, fun _ => hgt.le⟩

/-! ## A full heap with a hole -/

/-- The heap after a request of two pages and one of all others but two, the first of them freed. -/
def fullKernel : Kernel where
  mem := {
    numberOfFrames := 786432
    framesInfo := fun f =>
      if f < 1024 then { references := 1 }
      else if f < 33787 then { va := (1015811 + (f - 1024)) * 4096, references := 1 }
      else {}
    freeFrameList := List.range' 33787 752645
    dirs := {0}
    table := fun d i => if d = 0 ∧ 960 ≤ i ∧ i < 1024 then some i else none
    pte := fun a =>
      if a.1 = 0 ∧ 983040 ≤ a.2 ∧ a.2 < 984064 then ⟨a.2 - 983040, { present := true, writeable := true }⟩
      else if a.1 = 0 ∧ 1015811 ≤ a.2 ∧ a.2 < 1048574 then
        ⟨1024 + (a.2 - 1015811), { present := true, writeable := true }⟩
      else {} }
  dyn := { zeroedAlloc with
    dynAllocStart := kernelHeapStart
    dynAllocEnd := kernelHeapStart + dynAllocMaxSize
    freePagesList := List.range 8192 }
  kheapPageAllocStart := 1015809 * 4096
  kheapPageAllocBreak := 1048574 * 4096
  allocatedSize := ⟨fun i => if 1015811 ≤ i ∧ i < 1048574 then 32763 * 4096 else 0, []⟩
  lock := false

theorem fullKernel_ready : HeapReady fullKernel := by
  refine ⟨⟨fun v hv => ?_, rfl, 1048574, rfl, by decide, by decide⟩, rfl⟩
  have h1 := hv.1
  have h2 := hv.2
  show (if 0 = 0 ∧ 960 ≤ v / 1024 ∧ v / 1024 < 1024 then some (v / 1024) else none).isSome
  rw [if_pos (by omega)]
  rfl

theorem fullKernel_page {v : Nat} (h : 1015809 ≤ v) : FreePage fullKernel.mem v ↔ ¬ (1015811 ≤ v ∧ v < 1048574) := by
  have hpte : fullKernel.mem.pte (0, v) = if 1015811 ≤ v ∧ v < 1048574 then
      ⟨1024 + (v - 1015811), { present := true, writeable := true }⟩ else {} := by
    simp only [fullKernel, true_and]
    rw [if_neg (by omega)]
  rw [FreePage, HoldsPage, hpte]
  by_cases hv : 1015811 ≤ v ∧ v < 1048574
  · simp [hv, Pte.held]
  · rw [if_neg hv]
    exact ⟨fun _ => hv, fun _ => by decide⟩

theorem null_without_room_3gb :
    ((∃ t, kmalloc 12288 fullKernel = .ok 0 t) ↔ fullKernel.NoRoom ((12288 + 4095) / 4096)) ↔
    fullKernel.kheapPageAllocBreak + (12288 + 4095) / 4096 * pageSize < kernelHeapMax ∨
      (kernelHeapMax < fullKernel.kheapPageAllocBreak + (12288 + 4095) / 4096 * pageSize ∧
        ¬ fullKernel.HasHole ((12288 + 4095) / 4096)) :=
  null_without_room fullKernel_ready rfl (by decide) (by decide) (by simp [fullKernel])

/-- The two pages freed are a hole, and a request of two pages is refused. -/
theorem null_with_hole : ¬ ((∃ t, kmalloc 8192 fullKernel = .ok 0 t) ↔ fullKernel.NoRoom ((8192 + 4095) / 4096)) := by
  intro hiff
  have hnull : ∃ t, kmalloc 8192 fullKernel = .ok 0 t :=
    ⟨fullKernel, by rw [kmalloc_pages rfl (by decide) (by decide), if_pos (by decide)]⟩
  refine (hiff.1 hnull).1 ⟨1015809, 2, ?_, by decide⟩
  refine ⟨by decide, by decide, by decide, fun w h1 h2 => (fullKernel_page h1).2 (by omega), .inl (by decide), .inr ?_⟩
  rw [fullKernel_page (by decide)]
  decide

/-! ## Sizes near the top of the range -/

/-- Whatever address a request of `size` bytes gets, the range of bytes ends before `2^32`, and each of its
pages was unmapped and in no range in use, and is now mapped and recorded as a page of this allocation. -/
def KHeap.Serves (h : KHeap) (size : Nat) : Prop :=
  ∀ va t, kmalloc size h.kernel = .ok va t → va ≠ 0 → va + size < 4294967296 ∧
    ∀ x, va ≤ x → x < va + size → h.kernel.mem.getFrameInfo 0 x = none ∧ (∀ e ∈ h.live, ¬ e.Has x) ∧
      (t.mem.getFrameInfo 0 x).isSome ∧ (t.mem.pte (slot 0 x)).perm.present = true ∧
      t.allocatedSize.val (x / 4096) = (size + 4095) / 4096 * 4096

section Serves

variable {h : KHeap} {b size : Nat}

/-- A size that does not wrap gets the pages of all its bytes. -/
theorem serves_of_le (hI : h.Inv b) (hs : 2048 < size) (hsize : size ≤ 4294963200) : h.Serves size := by
  intro va t hr hne
  have hn : pagesOf size = (size + 4095) / 4096 := roundUp_div size hsize
  have hlow := hI.low
  have hnr : ¬ h.kernel.Refuses ((size + 4095) / 4096) := by
    rintro hr'
    rw [kmalloc_pages hI.lock hs (by rw [hI.brk]; omega), hn, if_pos hr'] at hr
    injection hr with hva
    exact hne hva.symm
  obtain ⟨p, b', hlo, hb, hb', hfree, ⟨m', hM, hrun⟩ | ⟨-, e, m', hrun⟩⟩ :=
    kmalloc_takes hI hs hn (by omega) (by omega) hnr
  · rw [hrun] at hr
    cases hr
    refine ⟨by omega, fun x h1 h2 => ?_⟩
    -- the page of `x` is one of those mapped
    have hx1 : p ≤ x / 4096 := by omega
    have hx2 : x / 4096 < p + (size + 4095) / 4096 := by omega
    have hpage : HeapPage (x / 4096) := ⟨by omega, by omega⟩
    have hK : KPages (Mem.withSize m' (p * 4096) ((size + 4095) / 4096 * 4096)) := hM.pages.withSize
    obtain ⟨hheld, hpres⟩ := hM.held (x / 4096) hx1 hx2
    have hpte : (Mem.withSize m' (p * 4096) ((size + 4095) / 4096 * 4096)).pte = m'.pte := (withSize_same _ _ _).1
    refine ⟨?_, fun e he hex => ?_, ?_, ?_, ?_⟩
    · rw [hI.pages.getFrameInfo_of hpage]
      exact not_not.1 (hfree _ hx1 hx2)
    · exact hfree _ hx1 hx2 ((hI.mapped _ (by omega) (by omega)).2 ⟨e, he, (has_page (hI.packed.fits e he)).1 hex⟩)
    · rw [hK.getFrameInfo_of hpage, hpte]
      exact Option.isSome_iff_ne_none.2 hheld
    · rw [slot_zero, hpte]
      exact hpres
    · simp only [SizeTable.fill]
      rw [if_pos ⟨hx1, hx2⟩]
  · rw [hrun] at hr
    cases hr

/-- For a size that wraps the number of pages is `0`: `kmalloc` returns the address of a page that holds nothing, and
nothing changed. -/
theorem kmalloc_wrapped_same {k : KHeap} {size : Nat} (hI : k.Inv b) (hsize : 4294963200 < size)
    (hlt : size < 4294967296) :
    ∃ p, 1015809 ≤ p ∧ p < 1048575 ∧ ¬ HoldsPage k.kernel.mem p ∧ kmalloc size k.kernel = .ok (p * 4096) k.kernel := by
  have hlow := hI.low
  have hhigh := hI.high
  have hn : pagesOf size = 0 := by
    unfold pagesOf roundUp roundDown
    simp only [pageSize]
    omega
  have hnr : ¬ k.kernel.Refuses 0 := by
    rw [refuses_iff hI.brk hhigh (by decide), hI.brk]
    simp only [kernelHeapMax]
    omega
  have hdone : ∀ p, HeapPage p → ¬ HoldsPage k.kernel.mem p →
      ({ k.kernel with
        mem := Mem.withSize k.kernel.mem (p * 4096) (0 * 4096)
        allocatedSize := k.kernel.allocatedSize.fill p 0 (0 * 4096)
        lock := false } : Kernel) = k.kernel := fun p hp hnot => by
    have hnone : k.kernel.mem.getFrameInfo 0 (p * 4096) = none := by
      rw [hI.pages.getFrameInfo hp]
      exact not_not.1 hnot
    have hl := hI.lock
    simp only [SizeTable.fill_zero, Mem.withSize, hnone]
    rw [← hl]
  rw [kmalloc_pages hI.lock (by omega) (by rw [hI.brk]; omega), hn, if_neg hnr]
  by_cases hf : fitAddress k.kernel 0 ≠ 0
  · obtain ⟨p, hp, hH⟩ := fitAddress_free hI.pages.tables (by omega) hlow (by omega) hI.start hI.brk hf
    have hlo := hH.lo
    have hhi := hH.hi
    have hnot : ¬ HoldsPage k.kernel.mem p := hH.free p le_rfl (by omega)
    refine ⟨p, hlo, by omega, hnot, ?_⟩
    rw [if_pos hf, hp, bind_of_ok (show mapPages (p * 4096) 0 k.kernel.locked = .ok () _ from rfl),
      record_done rfl (by decide)]
    exact congrArg _ (hdone p ⟨by omega, by omega⟩ hnot)
  · have hnot : ¬ HoldsPage k.kernel.mem b := by
      intro hh
      obtain ⟨e, he, hev⟩ := (hI.mapped b hlow hhigh).1 hh
      have := (hI.packed.fits e he).hi
      simp only [Has] at hev
      omega
    refine ⟨b, hlow, hhigh, hnot, ?_⟩
    rw [if_neg hf, hI.brk, bind_of_ok (show mapPages (b * 4096) 0 k.kernel.locked = .ok () _ from rfl),
      bind_of_ok (modify_eq _ _), record_done rfl (by decide)]
    refine congrArg _ ((congrArg (fun c : Nat => ({ k.kernel with
        mem := Mem.withSize k.kernel.mem (b * 4096) (0 * 4096)
        kheapPageAllocBreak := c
        allocatedSize := k.kernel.allocatedSize.fill b 0 (0 * 4096)
        lock := false } : Kernel)) ?_).trans (hdone b ⟨by omega, hhigh⟩ hnot))
    rw [hI.brk]
    exact (add32_of_lt (by rw [mul32]; omega)).trans (by rw [mul32]; omega)

end Serves

/-- The pages of a request are its own exactly for the sizes that can be rounded up to pages. -/
theorem kmalloc_serves {h : KHeap} {b : Nat} (hI : h.Inv b) {size : Nat} (hs : 2048 < size) (hlt : size < 4294967296) :
    h.Serves size ↔ size ≤ 4294963200 := by
  constructor
  · intro hserves
    by_contra hsize
    obtain ⟨p, hlo, -, -, hr⟩ := kmalloc_wrapped_same hI (Nat.lt_of_not_le hsize) hlt
    have := (hserves _ _ hr (by omega)).1
    omega
  · exact serves_of_le hI hs

theorem kmalloc_serves_machine : ∃ s, kheapInit (unusedKernel machine) = .ok s ∧
    (KHeap.Serves ⟨s, []⟩ 5000 ↔ 5000 ≤ 4294963200) :=
  ⟨_, rfl, kmalloc_serves (kheapInit_inv machine_booted rfl) (by decide) (by decide)⟩

/-- A request of `2^32 - 1` bytes gets the address of the break. -/
theorem kmalloc_wraps : ∃ s, kheapInit (unusedKernel machine) = .ok s ∧ ¬ KHeap.Serves ⟨s, []⟩ 4294967295 := by
  refine ⟨_, rfl, fun hserves => ?_⟩
  obtain ⟨p, hlo, -, -, hr⟩ := kmalloc_wrapped_same (@kheapInit_inv (unusedKernel machine) _ machine_booted rfl)
    (show 4294963200 < 4294967295 by decide) (by decide)
  have := (hserves _ _ hr (by omega)).1
  omega

end Fos.Heap
