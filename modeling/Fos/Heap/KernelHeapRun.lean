/-
The page allocator of the kernel heap over whole runs: the ranges in use, the page tables, the break
and the recorded sizes agree after every `kmalloc` and `kfree`.
-/
import Fos.Heap.KernelLoops
import Fos.Lib.Extent
import Fos.Lib.Trace

namespace Fos.Heap

open Fos.Memory Fos.Lib Fos.Lib.Extent

/-! ## The calls as sequences of loops -/

/-- `ROUNDUP(size, PAGE_SIZE) / PAGE_SIZE`. -/
def pagesOf (size : Nat) : Nat := roundUp size pageSize / pageSize

theorem pagesOf_lt (size : Nat) : pagesOf size < 1048576 := by
  unfold pagesOf roundUp roundDown; simp only [pageSize]; omega

/-- `kmalloc` finds no room above the break for `n` pages and returns `NULL`. -/
def Kernel.Refuses (s : Kernel) (n : Nat) : Prop :=
  kernelHeapMax ≤ add32 s.kheapPageAllocBreak (mul32 n pageSize) ∨
    add32 s.kheapPageAllocBreak (mul32 n pageSize) < s.kheapPageAllocBreak

instance (s : Kernel) (n : Nat) : Decidable (s.Refuses n) := inferInstanceAs (Decidable (_ ∨ _))

/-- The state inside a call. -/
def Kernel.locked (s : Kernel) : Kernel := { s with lock := true }

@[simp] theorem locked_mem (s : Kernel) : s.locked.mem = s.mem := rfl
@[simp] theorem locked_dyn (s : Kernel) : s.locked.dyn = s.dyn := rfl
@[simp] theorem locked_start (s : Kernel) : s.locked.kheapPageAllocStart = s.kheapPageAllocStart := rfl
@[simp] theorem locked_break (s : Kernel) : s.locked.kheapPageAllocBreak = s.kheapPageAllocBreak := rfl
@[simp] theorem locked_size (s : Kernel) : s.locked.allocatedSize = s.allocatedSize := rfl
@[simp] theorem locked_fit (s : Kernel) (n : Nat) : fitAddress s.locked n = fitAddress s n := rfl

theorem get_eq (s : Kernel) : (get : KM Kernel) s = .ok s s := rfl

theorem modify_eq (g : Kernel → Kernel) (s : Kernel) : (modify g : KM Unit) s = .ok () (g s) := rfl

section Calls

variable {s : Kernel} {size va : Nat}

theorem acquireLock_eq (hl : s.lock = false) : acquireLock s = .ok () s.locked := by
  unfold acquireLock
  rw [bind_of_ok (get_eq s), hl]
  rfl

theorem acquireLock_held (hl : s.lock = true) :
    acquireLock s = .error (.panic "acquire_spinlock: lock \"%s\" is already held by the same CPU.") s := by
  unfold acquireLock
  rw [bind_of_ok (get_eq s), hl]
  rfl

/-- A call that takes the lock returns only if the lock was free. -/
theorem lock_free {α : Type} {f : Unit → KM α} {a : α} {t : Kernel}
    (h : (acquireLock >>= f) s = .ok a t) : s.lock = false := by
  by_contra hl
  rw [bind_of_error (acquireLock_held (by simpa using hl))] at h
  cases h

theorem releaseLock_eq (hl : s.lock = true) : releaseLock s = .ok () { s with lock := false } := by
  unfold releaseLock
  rw [bind_of_ok (get_eq s), hl]
  rfl

theorem releaseLock_ok {t : Kernel} (h : releaseLock s = .ok () t) : t = { s with lock := false } := by
  cases hl : s.lock with
  | true => rw [releaseLock_eq hl] at h; cases h; rfl
  | false =>
    unfold releaseLock at h
    rw [bind_of_ok (get_eq s), hl] at h
    cases h

theorem unlock_locked (hl : s.lock = false) : { s.locked with lock := false } = s := by
  unfold Kernel.locked; rw [← hl]

/-- What `kmalloc` does with a request for pages, under the lock. -/
theorem kmalloc_pages (hl : s.lock = false) (hs : 2048 < size) (hb : s.kheapPageAllocBreak ≠ 0) :
    kmalloc size s =
      if s.Refuses (pagesOf size) then .ok 0 s
      else if fitAddress s (pagesOf size) ≠ 0 then
        (do
          mapPages (fitAddress s (pagesOf size)) (pagesOf size)
          recordSize (fitAddress s (pagesOf size)) (pagesOf size)
          releaseLock
          return fitAddress s (pagesOf size) : KM Nat) s.locked
      else
        (do
          mapPages s.kheapPageAllocBreak (pagesOf size)
          modify ({ · with kheapPageAllocBreak := add32 s.kheapPageAllocBreak (mul32 (pagesOf size) pageSize) })
          recordSize s.kheapPageAllocBreak (pagesOf size)
          releaseLock
          return s.kheapPageAllocBreak : KM Nat) s.locked := by
  have h0 : size ≠ 0 := by omega
  have h1 : ¬ size ≤ dynAllocMaxBlockSize := by simp only [dynAllocMaxBlockSize]; omega
  unfold kmalloc
  rw [bind_of_ok (acquireLock_eq hl)]
  simp only [if_neg h0, if_neg h1, show roundUp size pageSize / pageSize = pagesOf size from rfl]
  rw [bind_of_ok (get_eq s.locked), locked_break, if_neg hb]
  by_cases hr : s.Refuses (pagesOf size)
  · rw [if_pos hr, if_pos (show _ ∨ _ from hr), bind_of_ok (releaseLock_eq rfl), unlock_locked hl]
    rfl
  · rw [if_neg hr, if_neg (show ¬ (_ ∨ _) from hr), bind_of_ok (get_eq s.locked), locked_fit]
    by_cases hf : fitAddress s (pagesOf size) ≠ 0
    · rw [if_pos hf, if_pos (show _ ≠ _ from hf)]
    · rw [if_neg hf, if_neg (show ¬ _ ≠ _ from hf), bind_of_ok (get_eq s.locked), locked_break,
        if_neg (fun h => hr (Or.comm.1 h))]

/-- The end of `kmalloc`, once the pages are mapped. -/
theorem record_done {p n : Nat} (hl : s.lock = true) (hn : n < 1048576) :
    (do recordSize (p * 4096) n; releaseLock; return p * 4096 : KM Nat) s = .ok (p * 4096) { s with
      mem := Mem.withSize s.mem (p * 4096) (n * 4096)
      allocatedSize := s.allocatedSize.fill p n (n * 4096)
      lock := false } := by
  rw [bind_of_ok (recordSize_eq _ n s), mul32_of_lt (by simp only [pageSize]; omega), pageSize,
    Nat.mul_div_cancel _ (show 0 < 4096 by decide)]
  exact bind_of_ok (releaseLock_eq hl)

/-- Requests that do not go to the page allocator. -/
theorem kmalloc_block (hl : s.lock = false) (h0 : 0 < size) (hs : size ≤ 2048) :
    kmalloc size s = (do let va ← kallocBlock size; releaseLock; return va : KM Nat) s.locked := by
  unfold kmalloc
  rw [bind_of_ok (acquireLock_eq hl)]
  simp only [if_neg h0.ne', if_pos (show size ≤ dynAllocMaxBlockSize from hs)]

theorem kmalloc_of_block {b : Nat} {d : DynAlloc} {m : Mem} (hl : s.lock = false) (h0 : 0 < size) (hs : size ≤ 2048)
    (hr : allocBlock kernelPages s.dyn s.mem size = .ok (.block b, d, m)) :
    kmalloc size s = .ok b { s with dyn := d, mem := m, lock := false } := by
  have hrun : kallocBlock size s.locked = .ok b { s.locked with dyn := d, mem := m } := by
    unfold kallocBlock
    simp only [locked_dyn, locked_mem, hr]
  rw [kmalloc_block hl h0 hs, bind_of_ok hrun, bind_of_ok (releaseLock_eq rfl)]
  rfl

theorem kmalloc_empty (hl : s.lock = false) : kmalloc 0 s = .ok 0 s := by
  unfold kmalloc
  rw [bind_of_ok (acquireLock_eq hl)]
  simp only [if_true]
  rw [bind_of_ok (releaseLock_eq rfl), unlock_locked hl]
  rfl

theorem roundDown_page (va : Nat) : roundDown va pageSize = va / 4096 * 4096 := by
  unfold roundDown; simp only [pageSize]; omega

/-- `kfree` of an address of the page allocator. -/
theorem kfree_page (hl : s.lock = false) (hd : va < s.dyn.dynAllocStart ∨ s.dyn.dynAllocEnd ≤ va)
    (hst : s.kheapPageAllocStart ≤ va) (hmax : va < kernelHeapMax) :
    kfree va s =
      if s.mem.getFrameInfo 0 (va / 4096 * 4096) = none then .error (.panic "trying to free unallocated page") s
      else if s.allocatedSize.val (va / 4096) = 0 then .error (.panic "size not found for this address")
        { s with allocatedSize := ⟨s.allocatedSize.val, va / 4096 :: s.allocatedSize.used⟩ }
      else (do
        freePages (va / 4096 * 4096) (va / 4096) (add32 (s.allocatedSize.val (va / 4096)) (pageSize - 1) / pageSize)
        modify fun s =>
          let fuel := (s.kheapPageAllocBreak - s.kheapPageAllocStart) / pageSize + 1
          { s with kheapPageAllocBreak := lowerBreak s.mem s.kheapPageAllocStart fuel s.kheapPageAllocBreak }
        releaseLock : KM Unit)
        { s.locked with allocatedSize := ⟨s.allocatedSize.val, va / 4096 :: s.allocatedSize.used⟩ } := by
  have hd' : ¬ (s.locked.dyn.dynAllocStart ≤ va ∧ va < s.locked.dyn.dynAllocEnd) := by rw [locked_dyn]; omega
  have hin : s.locked.kheapPageAllocStart ≤ va ∧ va < kernelHeapMax := ⟨hst, hmax⟩
  have hdiv : va / 4096 * 4096 / 4096 = va / 4096 := by omega
  unfold kfree
  rw [bind_of_ok (acquireLock_eq hl), bind_of_ok (get_eq s.locked), if_neg hd', if_pos hin]
  simp only [roundDown_page, locked_mem, hdiv]
  by_cases hg : s.mem.getFrameInfo 0 (va / 4096 * 4096) = none
  · rw [if_pos hg, if_pos hg, bind_of_ok (releaseLock_eq rfl), unlock_locked hl]
    rfl
  · rw [if_neg hg, if_neg hg, bind_of_ok (show readSize (va / 4096) s.locked =
        .ok (s.allocatedSize.val (va / 4096)) _ from rfl)]
    by_cases hsz : s.allocatedSize.val (va / 4096) = 0
    · rw [if_pos hsz, if_pos hsz, bind_of_ok (releaseLock_eq rfl), ← hl]
      rfl
    · rw [if_neg hsz, if_neg hsz]
      rfl

end Calls

/-! ## The invariant -/

/-- The kernel heap and the ranges of its page allocator that are in use. -/
structure KHeap where
  kernel : Kernel
  live : List Extent

structure KHeap.Inv (h : KHeap) (b : Nat) : Prop where
  lock : h.kernel.lock = false
  dynStart : h.kernel.dyn.dynAllocStart = kernelHeapStart
  dynEnd : h.kernel.dyn.dynAllocEnd = kernelHeapStart + dynAllocMaxSize
  start : h.kernel.kheapPageAllocStart = 1015809 * 4096
  brk : h.kernel.kheapPageAllocBreak = b * 4096
  low : 1015809 ≤ b
  high : b < 1048575
  pages : KPages h.kernel.mem
  packed : Packed (1015809 * 4096) (b * 4096) 4096 h.live
  mapped : ∀ v, 1015809 ≤ v → v < 1048575 → (HoldsPage h.kernel.mem v ↔ ∃ e ∈ h.live, e.Has (v * 4096))
  tight : b = 1015809 ∨ HoldsPage h.kernel.mem (b - 1)
  sizes : ∀ e ∈ h.live, ∀ v, e.Has (v * 4096) → h.kernel.allocatedSize.val v = e.len

/-- The ranges in use are disjoint and fully mapped, every mapped page above the block allocator is in
exactly one, and the break is the end of the last mapped page. -/
structure KHeap.Wf (h : KHeap) : Prop where
  disjoint : h.live.Pairwise Extent.Disjoint
  mapped : ∀ e ∈ h.live, ∀ va, e.Has va → (h.kernel.mem.getFrameInfo 0 va).isSome
  owned : ∀ va, h.kernel.kheapPageAllocStart ≤ va → va < kernelHeapMax → (h.kernel.mem.getFrameInfo 0 va).isSome →
    ∃! e, e ∈ h.live ∧ e.Has va
  above : ∀ va, h.kernel.kheapPageAllocBreak ≤ va → va < kernelHeapMax → h.kernel.mem.getFrameInfo 0 va = none
  last : h.kernel.kheapPageAllocBreak = h.kernel.kheapPageAllocStart ∨
    h.kernel.kheapPageAllocStart < h.kernel.kheapPageAllocBreak ∧
      ∀ va, va < h.kernel.kheapPageAllocBreak → h.kernel.kheapPageAllocBreak ≤ va + pageSize →
        (h.kernel.mem.getFrameInfo 0 va).isSome

section Inv

variable {h : KHeap} {b : Nat}

/-- `get_frame_info` of any address of a page of the heap. -/
theorem KPages.getFrameInfo_of {m : Mem} (hm : KPages m) {va : Nat} (hv : HeapPage (va / 4096)) :
    m.getFrameInfo 0 va = (m.pte (0, va / 4096)).held := by
  have ht : (m.table (owner 0 va) (pdx va)).isSome = true := by
    rw [owner, ite_self, show pdx va = va / 4096 / 1024 by unfold pdx; omega]
    exact hm.tables _ hv
  rw [Mem.getFrameInfo, if_pos ht, slot_zero]

/-- A range on page boundaries has an address exactly if it has the start of its page. -/
theorem has_page {e : Extent} {lo hi : Nat} (he : e.Fits lo hi 4096) {va : Nat} :
    e.Has va ↔ e.Has (va / 4096 * 4096) := by
  have h1 := he.start
  have h2 := he.len
  simp only [Has, fin]; omega

theorem KHeap.Inv.holds (hI : h.Inv b) {va : Nat} (h1 : 1015809 * 4096 ≤ va) (h2 : va < kernelHeapMax) :
    (h.kernel.mem.getFrameInfo 0 va).isSome ↔ ∃ e ∈ h.live, e.Has va := by
  simp only [kernelHeapMax] at h2
  rw [hI.pages.getFrameInfo_of ⟨by omega, by omega⟩, Option.isSome_iff_ne_none]
  refine (hI.mapped (va / 4096) (by omega) (by omega)).trans ⟨?_, ?_⟩
  · rintro ⟨e, he, hh⟩
    exact ⟨e, he, (has_page (hI.packed.fits e he)).2 hh⟩
  · rintro ⟨e, he, hh⟩
    exact ⟨e, he, (has_page (hI.packed.fits e he)).1 hh⟩

theorem KHeap.Inv.wf (hI : h.Inv b) : h.Wf := by
  have hlow := hI.low
  have hhigh := hI.high
  have bounds : ∀ e ∈ h.live, ∀ va, e.Has va → 1015809 * 4096 ≤ va ∧ va < b * 4096 := by
    intro e he va hva
    have h1 := (hI.packed.fits e he).lo
    have h2 := (hI.packed.fits e he).hi
    obtain ⟨h3, h4⟩ := hva
    omega
  constructor
  · exact hI.packed.apart.imp Apart.disjoint
  · intro e he va hva
    obtain ⟨h1, h2⟩ := bounds e he va hva
    exact (hI.holds h1 (by simp only [kernelHeapMax]; omega)).2 ⟨e, he, hva⟩
  · intro va h1 h2 h3
    rw [hI.start] at h1
    obtain ⟨e, he, hva⟩ := (hI.holds h1 h2).1 h3
    refine ⟨e, ⟨he, hva⟩, ?_⟩
    rintro d ⟨hd, hdva⟩
    by_contra hne
    exact (hI.packed.apart.forall hd he hne).disjoint va ⟨hdva, hva⟩
  · intro va h1 h2
    rw [hI.brk] at h1
    by_contra hn
    have h3 : 1015809 * 4096 ≤ va := (Nat.mul_le_mul_right 4096 hlow).trans h1
    obtain ⟨e, he, hva⟩ := (hI.holds h3 h2).1 (Option.isSome_iff_ne_none.2 hn)
    have := (bounds e he va hva).2
    omega
  · rw [hI.start, hI.brk]
    rcases hI.tight with rfl | hlast
    · exact .inl rfl
    · by_cases hb : b = 1015809
      · exact .inl (by rw [hb])
      · refine .inr ⟨by omega, fun va h1 h2 => ?_⟩
        simp only [pageSize] at h2
        have hva : va / 4096 = b - 1 := by omega
        rw [hI.pages.getFrameInfo_of (by rw [hva]; exact ⟨by omega, by omega⟩), hva]
        exact Option.isSome_iff_ne_none.2 hlast

theorem first_page : add32 (kernelHeapStart + dynAllocMaxSize) pageSize = 1015809 * 4096 := by decide

theorem kheapInit_same {s₀ s : Kernel} (hinit : kheapInit s₀ = .ok s) :
    s.mem = s₀.mem ∧ s.allocatedSize = s₀.allocatedSize := by
  obtain ⟨dyn, -, hs⟩ := bind_ok hinit
  obtain rfl := Except.ok.inj hs.symm
  exact ⟨rfl, rfl⟩

/-- `kheap_init` on what boot leaves. -/
theorem kheapInit_inv {s₀ s : Kernel} (hb : Booted s₀.mem) (hinit : kheapInit s₀ = .ok s) :
    KHeap.Inv ⟨s, []⟩ 1015809 := by
  obtain ⟨dyn, hdyn, hs⟩ := bind_ok hinit
  obtain rfl := Except.ok.inj hs.symm
  unfold initializeDynamicAllocator at hdyn
  rw [if_neg (by decide)] at hdyn
  obtain rfl := Except.ok.inj hdyn.symm
  refine ⟨rfl, rfl, rfl, first_page, first_page, le_refl _,
    by decide, hb.pages, packed_nil, fun v h1 h2 => ?_, .inl rfl, by simp⟩
  have : (s₀.mem.pte (0, v)).held = none := by rw [hb.empty v ⟨by omega, h2⟩]; rfl
  simp [HoldsPage, this]

/-! ## `kmalloc` -/

/-- The page numbers of a range. -/
theorem has_pages {p n v : Nat} : (Extent.mk (p * 4096) (n * 4096)).Has (v * 4096) ↔ p ≤ v ∧ v < p + n := by
  simp only [Has, fin]; omega

/-- No range in use meets pages that hold nothing. -/
theorem KHeap.Inv.apart_of_free (hI : h.Inv b) {p n : Nat} (hn : 0 < n) (hlo : 1015809 ≤ p) (hhi : p + n < 1048575)
    (hfree : ∀ w, p ≤ w → w < p + n → ¬ HoldsPage h.kernel.mem w) {e : Extent} (he : e ∈ h.live) :
    (Extent.mk (p * 4096) (n * 4096)).Apart e := by
  apply apart_of_disjoint (by simp only; omega) (hI.packed.fits e he).pos
  rintro x ⟨h1, h2⟩
  have h3 := (has_page (hI.packed.fits e he)).1 h2
  have h4 : p ≤ x / 4096 ∧ x / 4096 < p + n := by
    simp only [Has, fin] at h1; omega
  exact hfree _ h4.1 h4.2 ((hI.mapped _ (by omega) (by omega)).2 ⟨e, he, h3⟩)

/-- Mapping a range of free pages below the break, or at the break and raising it. -/
theorem KHeap.Inv.take (hI : h.Inv b) {p n b' : Nat} {m' : Mem} (hn : 0 < n) (hlo : 1015809 ≤ p)
    (hb : p + n ≤ b ∧ b' = b ∨ p = b ∧ b' = b + n) (hb' : b' < 1048575)
    (hfree : ∀ w, p ≤ w → w < p + n → ¬ HoldsPage h.kernel.mem w) (hM : Mapped h.kernel.mem p n m') :
    KHeap.Inv ⟨{ h.kernel with
      mem := Mem.withSize m' (p * 4096) (n * 4096)
      kheapPageAllocBreak := b' * 4096
      allocatedSize := h.kernel.allocatedSize.fill p n (n * 4096)
      lock := false },
      ⟨p * 4096, n * 4096⟩ :: h.live⟩ b' := by
  have hlow := hI.low
  have hpte : (Mem.withSize m' (p * 4096) (n * 4096)).pte = m'.pte := (withSize_same _ _ _).1
  have hout : ∀ v, ¬ (p ≤ v ∧ v < p + n) → (HoldsPage m' v ↔ HoldsPage h.kernel.mem v) := by
    intro v hv
    rw [HoldsPage, HoldsPage, hM.same (0, v) (fun hc => hv hc.2)]
  have hap : ∀ e ∈ h.live, (Extent.mk (p * 4096) (n * 4096)).Apart e := fun e he =>
    hI.apart_of_free hn hlo (by omega) hfree he
  constructor
  · rfl
  · exact hI.dynStart
  · exact hI.dynEnd
  · exact hI.start
  · rfl
  · omega
  · exact hb'
  · exact hM.pages.withSize
  · refine packed_cons.2 ⟨hap, ⟨by simp only; omega, by simp only [fin]; omega, by simp only; omega,
      by simp only; omega, by simp only; omega⟩, hI.packed.apart, fun e he => ?_⟩
    have hf := hI.packed.fits e he
    have hb' : b ≤ b' := by omega
    exact ⟨hf.lo, hf.hi.trans (Nat.mul_le_mul_right 4096 hb'), hf.start, hf.len, hf.pos⟩
  · intro v h1 h2
    simp only [HoldsPage, hpte]
    by_cases hv : p ≤ v ∧ v < p + n
    · exact ⟨fun _ => ⟨_, List.mem_cons_self, has_pages.2 hv⟩, fun _ => (hM.held v hv.1 hv.2).1⟩
    · refine (hout v hv).trans ((hI.mapped v h1 h2).trans ⟨?_, ?_⟩)
      · rintro ⟨e, he, hev⟩
        exact ⟨e, List.mem_cons_of_mem _ he, hev⟩
      · rintro ⟨e, he, hev⟩
        rcases List.mem_cons.1 he with rfl | he
        · exact absurd (has_pages.1 hev) hv
        · exact ⟨e, he, hev⟩
  · simp only [HoldsPage, hpte]
    rcases hb with ⟨hpb, rfl⟩ | ⟨rfl, rfl⟩
    · by_cases hin : p ≤ b' - 1 ∧ b' - 1 < p + n
      · exact .inr (hM.held _ hin.1 hin.2).1
      · exact hI.tight.imp_right (hout _ hin).2
    · exact .inr (hM.held _ (by omega) (by omega)).1
  · intro e he v hev
    simp only [SizeTable.fill]
    rcases List.mem_cons.1 he with rfl | he
    · rw [if_pos (has_pages.1 hev)]
    · rw [if_neg]
      · exact hI.sizes e he v hev
      · intro hin
        exact (hap e he).disjoint _ ⟨has_pages.2 hin, hev⟩

theorem KPages.free_length {m : Mem} (hm : KPages m) : m.freeFrameList.length ≤ m.numberOfFrames := by
  have hsub : m.freeFrameList.toFinset ⊆ Finset.range m.numberOfFrames := fun f hf =>
    Finset.mem_range.2 (hm.freeLt f (List.mem_toFinset.1 hf))
  have := Finset.card_le_card hsub
  rwa [List.toFinset_card_of_nodup hm.freeNodup, Finset.card_range] at this

/-- A request that is not refused ends below the end of the heap. -/
theorem not_refused {s : Kernel} (hbrk : s.kheapPageAllocBreak = b * 4096) (hb : b < 1048575) {n : Nat}
    (hn : n < 1048576) (hr : ¬ s.Refuses n) :
    mul32 n pageSize = n * 4096 ∧ add32 s.kheapPageAllocBreak (mul32 n pageSize) = (b + n) * 4096 ∧
      b + n < 1048575 := by
  have hmul : mul32 n pageSize = n * 4096 := mul32_of_lt (by simp only [pageSize]; omega)
  unfold Kernel.Refuses at hr
  rw [hmul, hbrk, kernelHeapMax] at hr
  rw [hmul, hbrk]
  unfold add32 at *
  omega

/-- A request that is not refused maps `n` free pages below the break or at it, or runs out of frames. -/
theorem kmalloc_takes (hI : h.Inv b) {size n : Nat} (hs : 2048 < size) (hn : pagesOf size = n) (hpos : 0 < n)
    (hn1 : n < 1048576) (hr : ¬ h.kernel.Refuses n) :
    ∃ p b', 1015809 ≤ p ∧ (p + n ≤ b ∧ b' = b ∨ p = b ∧ b' = b + n) ∧ b' < 1048575 ∧
      (∀ w, p ≤ w → w < p + n → ¬ HoldsPage h.kernel.mem w) ∧
      ((∃ m', Mapped h.kernel.mem p n m' ∧ kmalloc size h.kernel = .ok (p * 4096) { h.kernel with
          mem := Mem.withSize m' (p * 4096) (n * 4096)
          kheapPageAllocBreak := b' * 4096
          allocatedSize := h.kernel.allocatedSize.fill p n (n * 4096)
          lock := false }) ∨
        h.kernel.mem.freeFrameList.length < n ∧ ∃ e m', kmalloc size h.kernel =
          .error e { h.kernel.locked with mem := m' }) := by
  have hlow := hI.low
  have hhigh := hI.high
  have hb0 : h.kernel.kheapPageAllocBreak ≠ 0 := by rw [hI.brk]; omega
  obtain ⟨hmul, hgrown, hend⟩ := not_refused hI.brk hhigh hn1 hr
  rw [kmalloc_pages hI.lock hs hb0, hn, if_neg hr]
  by_cases hf : fitAddress h.kernel n ≠ 0
  · obtain ⟨p, hp, hH⟩ := fitAddress_hole hI.pages.tables (by omega) hlow (by omega) hI.start hI.brk hf
    have hlo := hH.lo
    have hhi := hH.hi
    rw [if_pos hf, hp]
    refine ⟨p, b, hlo, .inl ⟨hhi, rfl⟩, hhigh, hH.free, ?_⟩
    rcases mapPages_spec n p h.kernel.locked hI.pages (fun i hi => ⟨by omega, by omega⟩)
        (fun w h1 h2 hw => absurd hw (hH.free w h1 h2)) with
      ⟨m', hm', hM⟩ | ⟨hlt, e, m', hm'⟩
    · refine .inl ⟨m', hM, ?_⟩
      rw [bind_of_ok hm', record_done rfl hn1, ← hI.brk]
      rfl
    · exact .inr ⟨hlt, e, m', bind_of_error hm'⟩
  · have hfree : ∀ w, b ≤ w → w < b + n → ¬ HoldsPage h.kernel.mem w := by
      intro w h1 h2 hw
      obtain ⟨e, he, hev⟩ := (hI.mapped w (by omega) (by omega)).1 hw
      have := (hI.packed.fits e he).hi
      simp only [Has] at hev; omega
    rw [if_neg hf, hgrown, hI.brk]
    refine ⟨b, b + n, hlow, .inr ⟨rfl, rfl⟩, hend, hfree, ?_⟩
    · rcases mapPages_spec n b h.kernel.locked hI.pages (fun i hi => ⟨by omega, by omega⟩)
        (fun w h1 h2 hw => absurd hw (hfree w h1 h2)) with
        ⟨m', hm', hM⟩ | ⟨hlt, e, m', hm'⟩
      · refine .inl ⟨m', hM, ?_⟩
        rw [bind_of_ok hm', bind_of_ok (modify_eq _ _), record_done rfl hn1]
        rfl
      · exact .inr ⟨hlt, e, m', bind_of_error hm'⟩

/-- A request for pages, with frames for them: it is refused and nothing changes, or it takes a new range. -/
theorem kmalloc_inv (hI : h.Inv b) {size : Nat} (hs : 2048 < size) (hlt : size < 4294967296)
    (hfit : (size + 4095) / 4096 ≤ h.kernel.mem.freeFrameList.length) :
    kmalloc size h.kernel = .ok 0 h.kernel ∨
    ∃ va s' b', kmalloc size h.kernel = .ok va s' ∧ va ≠ 0 ∧
      KHeap.Inv ⟨s', ⟨va, (size + 4095) / 4096 * 4096⟩ :: h.live⟩ b' := by
  have hb0 : h.kernel.kheapPageAllocBreak ≠ 0 := by
    have := hI.low
    rw [hI.brk]; omega
  have hn1 : (size + 4095) / 4096 < 1048576 :=
    (hfit.trans hI.pages.free_length).trans_lt hI.pages.few
  have hn : pagesOf size = (size + 4095) / 4096 := roundUp_div size (by omega)
  by_cases hr : h.kernel.Refuses ((size + 4095) / 4096)
  · left
    rw [kmalloc_pages hI.lock hs hb0, hn, if_pos hr]
  · obtain ⟨p, b', hlo, hb, hb', hfree, ⟨m', hM, hrun⟩ | ⟨hno, -⟩⟩ :=
      kmalloc_takes hI hs hn (by omega) hn1 hr
    · exact .inr ⟨p * 4096, _, b', hrun, by omega, hI.take (by omega) hlo hb hb' hfree hM⟩
    · omega

/-! ## `kfree` -/

theorem pages_of_size {n : Nat} (hn : n < 1048575) : add32 (n * 4096) (pageSize - 1) / pageSize = n := by
  have hadd : add32 (n * 4096) 4095 = n * 4096 + 4095 := add32_of_lt (by omega)
  simp only [pageSize, hadd]; omega

/-- A range in use given back: its pages are unmapped and the break comes down to the last page mapped. -/
theorem kfree_inv (hI : h.Inv b) {e : Extent} {rest : List Extent} (he : h.live.Perm (e :: rest)) :
    ∃ s' b', kfree e.start h.kernel = .ok () s' ∧ KHeap.Inv ⟨s', rest⟩ b' ∧
      ∀ v, ¬ e.Has (v * 4096) → s'.mem.pte (0, v) = h.kernel.mem.pte (0, v) := by
  have hlow := hI.low
  have hhigh := hI.high
  have hmem : e ∈ h.live := he.mem_iff.2 List.mem_cons_self
  obtain ⟨hap, hf, hrest⟩ := packed_cons.1 (hI.packed.perm he)
  obtain ⟨p, hp⟩ : ∃ p, e.start = p * 4096 := ⟨e.start / 4096, by have := hf.start; omega⟩
  obtain ⟨n, hn⟩ : ∃ n, e.len = n * 4096 := ⟨e.len / 4096, by have := hf.len; omega⟩
  obtain rfl : e = ⟨p * 4096, n * 4096⟩ := by rw [← hp, ← hn]
  have h1 := hf.lo
  have h2 := hf.hi
  have h3 := hf.pos
  simp only [fin] at h1 h2 h3
  have hsz : h.kernel.allocatedSize.val p = n * 4096 := hI.sizes _ hmem p (has_pages.2 ⟨le_refl p, by omega⟩)
  have hdiv : p * 4096 / 4096 = p := by omega
  have hheld : h.kernel.mem.getFrameInfo 0 (p * 4096) ≠ none := by
    rw [hI.pages.getFrameInfo ⟨by omega, by omega⟩]
    exact (hI.mapped p (by omega) (by omega)).2 ⟨_, hmem, has_pages.2 ⟨le_refl p, by omega⟩⟩
  rw [kfree_page hI.lock (.inr ?_) (by rw [hI.start]; exact h1) ?_, hdiv, if_neg hheld, hsz, if_neg (by omega)]
  rotate_left
  · rw [hI.dynEnd]; simp only [kernelHeapStart, dynAllocMaxSize]; omega
  · simp only [kernelHeapMax]; omega
  rw [pages_of_size (by omega)]
  obtain ⟨m', hm', hU⟩ := freePages_spec n p
    { h.kernel.locked with allocatedSize := ⟨h.kernel.allocatedSize.val, p :: h.kernel.allocatedSize.used⟩ }
    hI.pages (fun i hi => ⟨by omega, by omega⟩)
  obtain ⟨b', hb', hb1, hb2, hb3, hb4⟩ := lowerBreak_spec hU.pages (show 1007616 ≤ 1015809 by decide)
    ((b * 4096 - 1015809 * 4096) / pageSize + 1) b hlow (by omega) (by simp only [pageSize]; omega)
  refine ⟨{ h.kernel with
    mem := m'
    kheapPageAllocBreak := b' * 4096
    allocatedSize := (SizeTable.mk h.kernel.allocatedSize.val (p :: h.kernel.allocatedSize.used)).fill p n 0
    lock := false }, b', ?_, ?_, fun v hv => hU.same (0, v) fun hc => hv (has_pages.2 hc.2)⟩
  · rw [bind_of_ok hm', bind_of_ok (modify_eq _ _), releaseLock_eq rfl]
    simp only [locked_start, locked_break, hI.start, hI.brk, hb']
    rfl
  · have hout : ∀ v, ¬ (p ≤ v ∧ v < p + n) → (HoldsPage m' v ↔ HoldsPage h.kernel.mem v) := by
      intro v hv
      rw [HoldsPage, HoldsPage, hU.same (0, v) (fun hc => hv hc.2)]
      rfl
    have hmapped : ∀ v, 1015809 ≤ v → v < 1048575 → (HoldsPage m' v ↔ ∃ d ∈ rest, d.Has (v * 4096)) := by
      intro v hv1 hv2
      by_cases hv : p ≤ v ∧ v < p + n
      · refine ⟨fun hh => absurd hh (hU.held v hv.1 hv.2), ?_⟩
        rintro ⟨d, hd, hdv⟩
        exact absurd ⟨has_pages.2 hv, hdv⟩ ((hap d hd).disjoint _)
      · refine (hout v hv).trans ((hI.mapped v hv1 hv2).trans ⟨?_, ?_⟩)
        · rintro ⟨d, hd, hdv⟩
          rcases List.mem_cons.1 (he.mem_iff.1 hd) with rfl | hd
          · exact absurd (has_pages.1 hdv) hv
          · exact ⟨d, hd, hdv⟩
        · rintro ⟨d, hd, hdv⟩
          exact ⟨d, he.mem_iff.2 (List.mem_cons_of_mem _ hd), hdv⟩
    constructor
    · rfl
    · exact hI.dynStart
    · exact hI.dynEnd
    · exact hI.start
    · rfl
    · exact hb1
    · omega
    · exact hU.pages
    · refine ⟨hrest.apart, fun d hd => ?_⟩
      have hd' := hrest.fits d hd
      refine ⟨hd'.lo, ?_, hd'.start, hd'.len, hd'.pos⟩
      -- the last page of `d` is still mapped
      by_contra hn'
      have h4 := hd'.lo
      have h5 := hd'.start
      have h6 := hd'.len
      have h7 := hd'.pos
      have h8 := hd'.hi
      simp only [fin] at *
      refine hb4 ((d.start + d.len) / 4096 - 1) (by omega) (by omega) ((hmapped _ (by omega) (by omega)).2 ⟨d, hd, ?_⟩)
      simp only [Has, fin]; omega
    · exact hmapped
    · exact hb3
    · intro d hd v hdv
      simp only [SizeTable.fill]
      rw [if_neg fun hin => (hap d hd).disjoint _ ⟨has_pages.2 hin, hdv⟩]
      exact hI.sizes d (he.mem_iff.2 (List.mem_cons_of_mem _ hd)) v hdv

end Inv

/-! ## Runs -/

inductive HeapCall where
  | kmalloc (size : Nat)
  | kfree (va : Nat)
  deriving DecidableEq, Repr

/-- A call for pages with enough free frames for them, or that returns `NULL`; `kfree` of the start of a
range in use. -/
def KHeap.Legal (h : KHeap) : HeapCall → Prop
  | .kmalloc size => 2048 < size ∧ size < 4294967296 ∧
      ((∃ s, kmalloc size h.kernel = .ok 0 s) ∨ (size + 4095) / 4096 ≤ h.kernel.mem.freeFrameList.length)
  | .kfree va => ∃ e ∈ h.live, e.start = va

/-- The call and the ranges in use after it; no state follows a call that stops. -/
def KHeap.call (h : KHeap) : HeapCall → Option KHeap
  | .kmalloc size =>
    match kmalloc size h.kernel with
    | .ok va s => some ⟨s, if va = 0 then h.live else ⟨va, (size + 4095) / 4096 * 4096⟩ :: h.live⟩
    | .error _ _ => none
  | .kfree va =>
    match kfree va h.kernel with
    | .ok _ s => some ⟨s, release h.live va⟩
    | .error _ _ => none

def HeapStep (h : KHeap) (c : HeapCall) (h' : KHeap) : Prop := h.Legal c ∧ h.call c = some h'

theorem kmalloc_null {s s' : Kernel} {size : Nat} (hl : s.lock = false) (hs : 2048 < size)
    (hb : s.kheapPageAllocBreak ≠ 0) (h : kmalloc size s = .ok 0 s') : s' = s := by
  rw [kmalloc_pages hl hs hb] at h
  split at h
  · cases h; rfl
  · split at h
    · rename_i hf
      obtain ⟨-, r, -, h⟩ := ok_of_bind h
      obtain ⟨-, r, -, h⟩ := ok_of_bind h
      obtain ⟨-, r, -, h⟩ := ok_of_bind h
      injection h with h
      exact absurd h hf
    · obtain ⟨-, r, -, h⟩ := ok_of_bind h
      obtain ⟨-, r, -, h⟩ := ok_of_bind h
      obtain ⟨-, r, -, h⟩ := ok_of_bind h
      obtain ⟨-, r, -, h⟩ := ok_of_bind h
      injection h with h
      exact absurd h hb

/-- Every legal call returns, and keeps the invariant. -/
theorem KHeap.Inv.call {h : KHeap} {b : Nat} (hI : h.Inv b) (c : HeapCall) (hl : h.Legal c) :
    ∃ h' b', h.call c = some h' ∧ h'.Inv b' := by
  cases c with
  | kmalloc size =>
    obtain ⟨hs, hlt, hcase⟩ := hl
    have hnull : kmalloc size h.kernel = .ok 0 h.kernel → ∃ h' b', h.call (.kmalloc size) = some h' ∧ h'.Inv b' :=
      fun hnone => ⟨h, b, by simp only [KHeap.call, hnone, if_pos], hI⟩
    rcases hcase with ⟨s, hnone⟩ | hfit
    · have hb0 : h.kernel.kheapPageAllocBreak ≠ 0 := by
        have := hI.low
        rw [hI.brk]; omega
      obtain rfl := kmalloc_null hI.lock hs hb0 hnone
      exact hnull hnone
    · rcases kmalloc_inv hI hs hlt hfit with hnone | ⟨va, s', b', hrun, hne, hI'⟩
      · exact hnull hnone
      · exact ⟨_, b', by simp only [KHeap.call, hrun, if_neg hne], hI'⟩
  | kfree va =>
    obtain ⟨e, rfl, hperm⟩ := release_perm hl
    obtain ⟨s', b', hrun, hI', -⟩ := kfree_inv hI hperm
    exact ⟨_, b', by simp only [KHeap.call, hrun], hI'⟩

/-- From boot on, whatever pages are allocated and freed, the ranges in use, the page tables and the break
agree, and no call stops. -/
theorem kernel_heap_ranges (s₀ s : Kernel) (hboot : Booted s₀.mem) (hinit : kheapInit s₀ = .ok s) (cs : List HeapCall) :
    Always HeapStep (fun h => h.Wf ∧ ∀ c, h.Legal c → ∃ h', HeapStep h c h') ⟨s, []⟩ cs := by
  refine Always.mono (P := fun h => ∃ b, h.Inv b) ?_ (always_of_step ?_ ⟨_, kheapInit_inv hboot hinit⟩)
  · rintro h ⟨b, hI⟩
    refine ⟨hI.wf, fun c hl => ?_⟩
    obtain ⟨h', b', hrun, -⟩ := hI.call c hl
    exact ⟨h', hl, hrun⟩
  · rintro h c h' ⟨b, hI⟩ ⟨hl, hrun⟩
    obtain ⟨h'', b', hrun', hI'⟩ := hI.call c hl
    obtain rfl : h'' = h' := by rw [hrun] at hrun'; exact (Option.some.inj hrun').symm
    exact ⟨b', hI'⟩

/-- The kernel before `kheap_init`, on a given machine. -/
def unusedKernel (m : Mem) : Kernel := ⟨m, zeroedAlloc, 0, 0, ⟨fun _ => 0, []⟩, false⟩

theorem kernel_heap_ranges_machine : ∃ s, kheapInit (unusedKernel machine) = .ok s ∧
    Always HeapStep (fun h => h.Wf ∧ ∀ c, h.Legal c → ∃ h', HeapStep h c h') ⟨s, []⟩
      [.kmalloc 8192, .kmalloc 4096, .kfree 4160753664, .kmalloc 4096] :=
  ⟨_, rfl, kernel_heap_ranges (unusedKernel machine) _ machine_booted rfl _⟩

end Fos.Heap
