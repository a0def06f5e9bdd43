/-
The two directions of the kernel heap's addresses: `kheap_physical_address` reads the page tables,
`kheap_virtual_address` the address that each frame descriptor records. They agree as long as no frame
is mapped on two pages of the heap.
-/
import Fos.Heap.KernelChanges

namespace Fos.Heap

open Fos.Memory Fos.Lib

/-! ## Runs -/

/-- The kernel, and the frames that callers of `allocate_frame` hold and have not mapped. -/
structure KMap where
  kernel : Kernel
  owned : List Nat

inductive MapCall where
  | kmalloc (size : Nat)
  | kfree (va : Nat)
  | allocBlock (size : Nat)
  | freeBlock (va : Nat)
  | allocateFrame
  | mapFrame (f v : Nat) (perm : Perm)
  | unmapFrame (v : Nat)

/-- Frames and blocks are mapped, by page, into the kernel heap; a frame to map is held by the caller or
mapped there already. -/
def KMap.Legal (h : KMap) : MapCall → Prop
  | .mapFrame f v perm => HeapPage v ∧ perm.buffered = false ∧
      (f ∈ h.owned ∨ ∃ w, HeapPage w ∧ (h.kernel.mem.pte (0, w)).held = some f)
  | .unmapFrame v => HeapPage v
  | .kmalloc size => size < 4294967296
  | .kfree va => va < 4294967296
  | .allocBlock _ | .freeBlock _ | .allocateFrame => True

/-- The state a call that returns leaves. -/
def returned {α : Type} (owned : List Nat) : EStateM.Result Halt Kernel α → Option KMap
  | .ok _ s => some ⟨s, owned⟩
  | .error _ _ => none

def KMap.call (h : KMap) : MapCall → Option KMap
  | .kmalloc size => returned h.owned (kmalloc size h.kernel)
  | .kfree va => returned h.owned (kfree va h.kernel)
  | .allocBlock size =>
    match allocBlock kernelPages h.kernel.dyn h.kernel.mem size with
    | .ok (_, dyn, mem) => some { h with kernel := { h.kernel with dyn, mem } }
    | .error _ => none
  | .freeBlock va =>
    match freeBlock kernelPages h.kernel.dyn h.kernel.mem va with
    | .ok (dyn, mem) => some { h with kernel := { h.kernel with dyn, mem } }
    | .error _ => none
  | .allocateFrame =>
    match h.kernel.mem.allocateFrame with
    | .ok (f, mem) => some ⟨{ h.kernel with mem }, f :: h.owned⟩
    | .error _ => none
  | .mapFrame f v perm => returned (h.owned.erase f) (mapFrame 0 f (v * 4096) perm h.kernel)
  | .unmapFrame v => some { h with kernel := { h.kernel with mem := h.kernel.mem.unmapFrame 0 (v * 4096) } }

def MapStep (h : KMap) (c : MapCall) (h' : KMap) : Prop := h.Legal c ∧ h.call c = some h'

/-- The two directions agree. -/
structure KMap.Inverse (h : KMap) : Prop where
  back : ∀ va, kernelHeapStart ≤ va → va < kernelHeapMax → (h.kernel.mem.pte (slot 0 va)).perm.present = true →
    kheapVirtualAddress h.kernel (kheapPhysicalAddress h.kernel va) = va
  entry : ∀ pa < h.kernel.mem.numberOfFrames * pageSize, kheapVirtualAddress h.kernel pa ≠ 0 →
    h.kernel.mem.getFrameInfo 0 (kheapVirtualAddress h.kernel pa) = some (pa / pageSize)

/-- A frame that `map_frame` maps is on no other page of the heap. -/
def KMap.NoAlias (h : KMap) : MapCall → Prop
  | .mapFrame f v _ => ∀ w, HeapPage w → w ≠ v → (h.kernel.mem.pte (0, w)).held ≠ some f
  | _ => True

/-! ## The pages agree with the frames -/

section Inverse

variable {s : Kernel} {v f : Nat}

/-- The physical address of a present page of the heap. -/
theorem physical_eq {va : Nat} (hv : HeapPage (va / 4096)) (ht : (s.mem.table 0 (va / 4096 / 1024)).isSome)
    (hp : (s.mem.pte (0, va / 4096)).perm.present = true) (hf : (s.mem.pte (0, va / 4096)).frame < 1048576) :
    kheapPhysicalAddress s va = (s.mem.pte (0, va / 4096)).frame * 4096 + va % 4096 := by
  have h1 := hv.1
  have h2 := hv.2
  have hin : ¬ (va < kernelHeapStart ∨ kernelHeapMax ≤ va) := by simp only [kernelHeapStart, kernelHeapMax]; omega
  have ht' : ¬ (s.mem.table 0 (pdx va)).isNone = true := by
    rw [show pdx va = va / 4096 / 1024 by unfold pdx; omega, Option.isNone_iff_eq_none]
    exact Option.isSome_iff_ne_none.1 ht
  simp only [kheapPhysicalAddress, if_neg hin, if_neg ht', slot_zero, hp, if_true, pageSize]
  rw [mul32_of_lt (by omega), add32_of_lt (by omega)]

/-- The virtual address of a frame that records a page of the heap. -/
theorem virtual_eq {pa v : Nat} (hfew : s.mem.numberOfFrames < 1048576) (hv : HeapPage v)
    (hpa : pa / 4096 < s.mem.numberOfFrames) (hva : (s.mem.framesInfo (pa / 4096)).va = v * 4096) :
    kheapVirtualAddress s pa = v * 4096 + pa % 4096 := by
  have h1 := hv.1
  have h2 := hv.2
  have hmul : mul32 s.mem.numberOfFrames 4096 = s.mem.numberOfFrames * 4096 := mul32_of_lt (by omega)
  have hin : ¬ (v * 4096 = 0 ∨ v * 4096 < kernelHeapStart ∨ kernelHeapMax ≤ v * 4096) := by
    simp only [kernelHeapStart, kernelHeapMax]; omega
  simp only [kheapVirtualAddress, hmul, if_neg (show ¬ s.mem.numberOfFrames * 4096 ≤ pa by omega), hva, if_neg hin,
    pageSize]
  rw [add32_of_lt (by omega)]

theorem KPages.inverse {h : KMap} (hK : KPages h.kernel.mem) : h.Inverse := by
  have hfew := hK.few
  constructor
  · intro va h1 h2 hp
    simp only [kernelHeapStart, kernelHeapMax] at h1 h2
    have hv : HeapPage (va / 4096) := ⟨by omega, by omega⟩
    rw [slot_zero] at hp
    have hheld := held_of_present hp
    have hlt := (hK.notFree _ hv _ hheld).2
    have hdiv : ((h.kernel.mem.pte (0, va / 4096)).frame * 4096 + va % 4096) / 4096 =
        (h.kernel.mem.pte (0, va / 4096)).frame := by omega
    rw [physical_eq hv (hK.tables _ hv) hp (by omega), virtual_eq hfew hv (by rw [hdiv]; exact hlt)
      (by rw [hdiv]; exact hK.va _ hv _ hheld)]
    omega
  · intro pa hpa hne
    simp only [pageSize] at hpa ⊢
    have hlt : pa / 4096 < h.kernel.mem.numberOfFrames := by omega
    have hin : kernelHeapStart ≤ (h.kernel.mem.framesInfo (pa / 4096)).va ∧
        (h.kernel.mem.framesInfo (pa / 4096)).va < kernelHeapMax := by
      by_contra hn
      apply hne
      have hmul : mul32 h.kernel.mem.numberOfFrames pageSize = h.kernel.mem.numberOfFrames * 4096 :=
        mul32_of_lt (by simp only [pageSize]; omega)
      simp only [kheapVirtualAddress, hmul, if_neg (show ¬ h.kernel.mem.numberOfFrames * 4096 ≤ pa by omega)]
      rw [if_pos (.inr (by omega))]
    obtain ⟨h3, h4⟩ := hK.stale _ hlt hin.1 hin.2
    have hv : HeapPage ((h.kernel.mem.framesInfo (pa / 4096)).va / 4096) := by
      simp only [kernelHeapStart, kernelHeapMax] at hin
      exact ⟨by omega, by omega⟩
    rw [virtual_eq hfew hv hlt (by omega), hK.getFrameInfo_of (by
      rwa [show ((h.kernel.mem.framesInfo (pa / 4096)).va / 4096 * 4096 + pa % 4096) / 4096 =
        (h.kernel.mem.framesInfo (pa / 4096)).va / 4096 by omega])]
    rwa [show ((h.kernel.mem.framesInfo (pa / 4096)).va / 4096 * 4096 + pa % 4096) / 4096 =
      (h.kernel.mem.framesInfo (pa / 4096)).va / 4096 by omega]

end Inverse

/-! ## The invariant -/

/-- What holds of the kernel between calls. A page that holds a frame without being present, the guard page of
a kernel stack, is below the break. -/
structure MapOk (s : Kernel) : Prop where
  pages : KPages s.mem
  guards : ∀ v, HeapPage v → HoldsPage s.mem v → (s.mem.pte (0, v)).perm.present = false →
    v * 4096 < s.kheapPageAllocBreak
  lower : ∀ i < 955, s.mem.table 0 i = none
  last : s.mem.pte (0, 1048575) = {}
  dynStart : s.dyn.dynAllocStart = kernelHeapStart
  dynEnd : s.dyn.dynAllocEnd = kernelHeapStart + dynAllocMaxSize
  start : s.kheapPageAllocStart = 1015809 * 4096
  brk : ∃ b, s.kheapPageAllocBreak = b * 4096 ∧ 1015809 ≤ b ∧ b < 1048575
  sizes : ∀ i, s.allocatedSize.val i ≤ 134217728

/-- A call keeps it and only maps and unmaps pages. -/
structure Keeps (s t : Kernel) : Prop where
  ok : MapOk t
  evolves : Evolves s.mem t.mem

section Keeps

variable {s t : Kernel}

/-- Without guard pages. -/
theorem AllPresent.guards {m : Mem} (h : AllPresent m) {brk : Nat} :
    ∀ v, HeapPage v → HoldsPage m v → (m.pte (0, v)).perm.present = false → v * 4096 < brk := by
  intro v hv hh hp
  rw [h v hv hh] at hp
  cases hp

theorem MapOk.locked (h : MapOk s) : MapOk s.locked := ⟨h.1, h.2, h.3, h.4, h.5, h.6, h.7, h.8, h.9⟩

/-- A change of the pages makes no guard page. -/
theorem MapOk.guarded (h : MapOk s) {m' : Mem} (he : Evolves s.mem m') {v : Nat} (hv : HeapPage v) (hh : HoldsPage m' v)
    (hp : (m'.pte (0, v)).perm.present = false) : v * 4096 < s.kheapPageAllocBreak := by
  rcases he.present v hv hh with hc | hsame
  · rw [hp] at hc
    cases hc
  · rw [HoldsPage, hsame] at hh
    exact h.guards v hv hh (hsame ▸ hp)

/-- A change of the pages alone. -/
theorem MapOk.mem (h : MapOk s) {m' : Mem} (he : Evolves s.mem m') : MapOk { s with mem := m' } :=
  ⟨he.pages, fun _ hv => h.guarded he hv, fun i hi => by rw [he.table]; exact h.lower i hi,
    (he.outside _ fun hc => absurd hc.2.2 (by decide)).trans h.last, h.5, h.6, h.7, h.8, h.9⟩

theorem MapOk.allocBlock (h : MapOk s) {size : Nat} {r : AllocResult} {dyn : DynAlloc} {m' : Mem}
    (ha : Heap.allocBlock kernelPages s.dyn s.mem size = .ok (r, dyn, m')) : Keeps s { s with dyn, mem := m' } := by
  obtain ⟨⟨h1, h2⟩, hm⟩ := allocBlock_pages ha
  have he : Evolves s.mem m' := by
    rcases hm with rfl | ⟨p, hp, hget⟩
    · exact .refl h.pages
    · obtain ⟨hva, hpage⟩ := dyn_page (show p < 8192 from hp)
      rw [h.dynStart, hva] at hget
      exact h.pages.evolves_get hpage hget
  have hm := h.mem he
  exact ⟨⟨hm.1, hm.2, hm.3, hm.4, h1.trans h.5, h2.trans h.6, hm.7, hm.8, hm.9⟩, he⟩

theorem MapOk.freeBlock (h : MapOk s) {va : Nat} {dyn : DynAlloc} {m' : Mem}
    (ha : Heap.freeBlock kernelPages s.dyn s.mem va = .ok (dyn, m')) : Keeps s { s with dyn, mem := m' } := by
  obtain ⟨⟨h1, h2⟩, hm⟩ := freeBlock_pages ha
  have he : Evolves s.mem m' := by
    rcases hm with rfl | ⟨hlo, hhi, hret⟩
    · exact .refl h.pages
    · rw [h.dynStart] at hlo hret
      rw [h.dynEnd] at hhi
      have hp : sub32 va kernelHeapStart / pageSize < 8192 := by
        simp only [kernelHeapStart, dynAllocMaxSize, pageSize, sub32] at *; omega
      obtain ⟨hva, hpage⟩ := dyn_page hp
      rw [hva] at hret
      exact h.pages.evolves_return hpage hret
  have hm := h.mem he
  exact ⟨⟨hm.1, hm.2, hm.3, hm.4, h1.trans h.5, h2.trans h.6, hm.7, hm.8, hm.9⟩, he⟩

/-- Mapping a range of the heap and recording its size. -/
theorem MapOk.take (h : MapOk s) {p n b : Nat} {m' : Mem} (hM : Mapped s.mem p n m')
    (hp : ∀ i < n, HeapPage (p + i)) (hn : n ≤ 32768) (hb : 1015809 ≤ b ∧ b < 1048575)
    (hbrk : s.kheapPageAllocBreak ≤ b * 4096) :
    Keeps s { s with
      mem := Mem.withSize m' (p * 4096) (n * 4096)
      kheapPageAllocBreak := b * 4096
      allocatedSize := s.allocatedSize.fill p n (n * 4096)
      lock := false } := by
  have he : Evolves s.mem (Mem.withSize m' (p * 4096) (n * 4096)) := (hM.evolves hp).trans hM.pages.evolves_size
  have hm := h.mem he
  refine ⟨⟨hm.1, fun v hv hh hc => (hm.2 v hv hh hc).trans_le hbrk, hm.3, hm.4, hm.5, hm.6, hm.7, ⟨b, rfl, hb⟩,
    fun i => ?_⟩, he⟩
  simp only [SizeTable.fill]
  split
  · omega
  · exact h.sizes i

theorem Keeps.unlock (h : Keeps s t) : Keeps s { t with lock := false } :=
  ⟨⟨h.ok.1, h.ok.2, h.ok.3, h.ok.4, h.ok.5, h.ok.6, h.ok.7, h.ok.8, h.ok.9⟩, h.evolves⟩

/-- The loop of `kmalloc` over pages that are unused below the break. -/
theorem MapOk.mapped (h : MapOk s) {p n : Nat} {m' : Mem} (hp : ∀ i < n, HeapPage (p + i))
    (hm : mapPages (p * 4096) n s.locked = .ok () { s.locked with mem := m' })
    (hfresh : ∀ w, p ≤ w → w < p + n → HoldsPage s.mem w → s.kheapPageAllocBreak ≤ w * 4096) : Mapped s.mem p n m' := by
  -- the guard pages hold a frame below the break
  have hpresent : ∀ w, p ≤ w → w < p + n → HoldsPage s.mem w → (s.mem.pte (0, w)).perm.present = true :=
    fun w h1 h2 hw => by
      by_contra hc
      have hpage := hp (w - p) (by omega)
      rw [Nat.add_sub_cancel' h1] at hpage
      have := h.guards w hpage hw (Bool.eq_false_iff.2 hc)
      have := hfresh w h1 h2 hw
      omega
  rcases mapPages_spec n p s.locked h.pages hp hpresent with ⟨m₂, hm₂, hM⟩ | ⟨-, e, m₂, hm₂⟩
  · rw [hm] at hm₂
    obtain ⟨-, he⟩ := EStateM.Result.ok.inj hm₂
    obtain rfl : m' = m₂ := congrArg Kernel.mem he
    exact hM
  · rw [hm] at hm₂
    cases hm₂

theorem MapOk.kmalloc (h : MapOk s) {size va : Nat} (hr : Heap.kmalloc size s = .ok va t) : Keeps s t := by
  obtain ⟨b, hb, hlow, hhigh⟩ := h.brk
  cases kmalloc_outcome h.pages.tables h.start hb hlow hhigh hr with
  | null => exact ⟨h, .refl h.pages⟩
  | block hs ha hr => exact (h.allocBlock ha).unlock
  | @pages p b' m' hs hp hlo hb' hn hm hbrk hend hfresh =>
    exact h.take (h.mapped hp hm hfresh) hp hn hb' hbrk

/-- Unmapping a page of the heap, the last page of the address space, or a page of user addresses. -/
theorem MapOk.evolves_unmap (h : MapOk s) {va : Nat} (ha : va % 4096 = 0) (hlt : va < 4294967296)
    (hin : 1007616 ≤ va / 4096 ∨ va / 4096 < 977920) : Evolves s.mem (s.mem.unmapFrame 0 va) := by
  by_cases hv : HeapPage (va / 4096)
  · have := h.pages.evolves_unmap hv
    rwa [show va / 4096 * 4096 = va by omega] at this
  · have hnone : s.mem.getFrameInfo 0 va = none := by
      rw [Mem.getFrameInfo, slot_zero]
      split
      · rename_i ht
        have hlast : va / 4096 = 1048575 := by
          by_contra hne
          simp only [HeapPage] at hv
          rw [owner, ite_self, h.lower (pdx va) (by unfold pdx; omega)] at ht
          cases ht
        rw [hlast, h.last]; rfl
      · rfl
    rw [unmap_none hnone]
    exact .refl h.pages

/-- The loop of `kfree`, also where it runs past the end of the address space. -/
theorem MapOk.freePages : ∀ (n va i : Nat) (s : Kernel), MapOk s → va % 4096 = 0 → va < 4294967296 → n ≤ 977920 →
    (1007616 ≤ va / 4096 ∨ va / 4096 + n ≤ 977920) →
    ∃ m' t', Heap.freePages va i n s = .ok () { s with mem := m', allocatedSize := t' } ∧ Evolves s.mem m' ∧
      ∀ j, t'.val j ≤ 134217728
  | 0, va, i, s, h, _, _, _, _ => ⟨s.mem, s.allocatedSize, rfl, .refl h.pages, h.sizes⟩
  | n + 1, va, i, s, h, ha, hlt, hn, hin => by
    have he := h.evolves_unmap ha hlt (by omega)
    have hrd : roundDown va pageSize = va := roundDown_of_dvd ha
    have h1 : onMem (fun m => return ((), ← returnPage m va)) s = .ok () { s with mem := s.mem.unmapFrame 0 va } := by
      simp only [onMem, returnPage, hrd]; rfl
    have hm := h.mem he
    have hnext : add32 va pageSize = (va + 4096) % 4294967296 := rfl
    obtain ⟨m', t', hrun, he', hsz⟩ := MapOk.freePages n (add32 va pageSize) (i + 1)
      { s with
        mem := s.mem.unmapFrame 0 va
        allocatedSize := ⟨Function.update s.allocatedSize.val i 0, i :: s.allocatedSize.used⟩ }
      ⟨hm.1, hm.2, hm.3, hm.4, hm.5, hm.6, hm.7, hm.8, fun j => by
        simp only [Function.update_apply]
        split
        · exact Nat.zero_le _
        · exact h.sizes j⟩
      (by rw [hnext]; omega) (by rw [hnext]; omega) (by omega) (by rw [hnext]; omega)
    refine ⟨m', t', ?_, he.trans he', hsz⟩
    unfold Heap.freePages
    rw [bind_of_ok h1, bind_of_ok (show writeSize i 0 _ = .ok () _ from rfl), hrun]

theorem MapOk.kfree (h : MapOk s) {va : Nat} (hr : Heap.kfree va s = .ok () t) : Keeps s t := by
  have hl : s.lock = false := lock_free hr
  obtain ⟨b, hb, hlow, hhigh⟩ := h.brk
  by_cases hd : s.locked.dyn.dynAllocStart ≤ va ∧ va < s.locked.dyn.dynAllocEnd
  · unfold Heap.kfree at hr
    rw [bind_of_ok (acquireLock_eq hl), bind_of_ok (get_eq s.locked), if_pos hd] at hr
    cases hf : Heap.freeBlock kernelPages s.locked.dyn s.locked.mem va with
    | error e => simp only [hf] at hr; cases hr
    | ok r =>
      simp only [hf] at hr
      obtain ⟨dyn, mem⟩ := r
      obtain ⟨_, r, hset, hr⟩ := ok_of_bind hr
      cases hset
      obtain rfl := releaseLock_ok hr
      have hk := h.locked.freeBlock hf
      exact ⟨hk.unlock.ok, hk.evolves⟩
  by_cases hp : s.locked.kheapPageAllocStart ≤ va ∧ va < kernelHeapMax
  · have hd' : va < s.dyn.dynAllocStart ∨ s.dyn.dynAllocEnd ≤ va := by
      rw [locked_dyn] at hd; omega
    rw [kfree_page hl hd' hp.1 hp.2] at hr
    split at hr
    · cases hr
    split at hr
    · cases hr
    have hst : 1015809 * 4096 ≤ va := h.start ▸ hp.1
    have hmax := hp.2
    simp only [kernelHeapMax] at hmax
    have hsz := h.sizes (va / 4096)
    have hcount : add32 (s.allocatedSize.val (va / 4096)) (pageSize - 1) / pageSize ≤ 32768 := by
      rw [add32_of_lt (by simp only [pageSize]; omega)]; simp only [pageSize]; omega
    obtain ⟨m', t', hrun, he, hsz'⟩ := MapOk.freePages _ (va / 4096 * 4096) (va / 4096)
      { s.locked with allocatedSize := ⟨s.allocatedSize.val, va / 4096 :: s.allocatedSize.used⟩ }
      ⟨h.1, h.2, h.3, h.4, h.5, h.6, h.7, h.8, h.9⟩ (by omega) (by omega) (hcount.trans (by decide)) (.inl (by omega))
    rw [bind_of_ok hrun, bind_of_ok (modify_eq _ _), releaseLock_eq rfl] at hr
    cases hr
    obtain ⟨b', hb', h1, h2, -, hfree⟩ := lowerBreak_spec he.pages (show 1007616 ≤ 1015809 by decide)
      ((b * 4096 - 1015809 * 4096) / pageSize + 1) b hlow (by omega) (by simp only [pageSize]; omega)
    have hm := h.mem he
    have hbrk : lowerBreak m' (1015809 * 4096) ((b * 4096 - 1015809 * 4096) / pageSize + 1) (b * 4096) =
        b' * 4096 := hb'
    simp only [locked_start, locked_break, h.start, hb, hbrk]
    refine ⟨⟨hm.1, fun v hv hh hp => ?_, hm.3, hm.4, hm.5, hm.6, rfl, ⟨b', rfl, h1, by omega⟩, hsz'⟩, he⟩
    -- the break comes down to the last page that holds a frame
    have hlt : v * 4096 < b * 4096 := (hm.2 v hv hh hp).trans_eq hb
    show v * 4096 < b' * 4096
    by_contra hc
    exact hfree v (by omega) (by omega) hh
  · unfold Heap.kfree at hr
    rw [bind_of_ok (acquireLock_eq hl), bind_of_ok (get_eq s.locked), if_neg hd, if_neg hp] at hr
    split at hr
    · obtain ⟨_, r, -, hr⟩ := ok_of_bind hr
      cases hr
    · cases hr
      exact ⟨h.locked, .refl h.pages⟩

end Keeps

/-! ## Steps -/

/-- No page loses its presence in such a run. -/
structure KMap.Inv (h : KMap) : Prop where
  ok : MapOk h.kernel
  present : AllPresent h.kernel.mem
  owned : ∀ f ∈ h.owned, Loose h.kernel.mem f 0
  nodup : h.owned.Nodup

section Steps

variable {h h' : KMap}

theorem KMap.Inv.keeps (hI : h.Inv) {t : Kernel} (hk : Keeps h.kernel t) : KMap.Inv ⟨t, h.owned⟩ :=
  ⟨hk.ok, hk.evolves.allPresent hI.present, fun f hf => hk.evolves.loose f 0 (hI.owned f hf), hI.nodup⟩

theorem returned_some {α : Type} {owned : List Nat} {r : EStateM.Result Halt Kernel α}
    (hr : returned owned r = some h') : ∃ a s, r = .ok a s ∧ h' = ⟨s, owned⟩ := by
  cases r with
  | ok a s => exact ⟨a, s, rfl, (Option.some.inj hr).symm⟩
  | error e s => cases hr

/-- `map_frame` on a page of the heap, whose page table is there. -/
theorem mapFrame_heap {s : Kernel} (hK : KPages s.mem) (f : Nat) {v : Nat} (hv : HeapPage v) (perm : Perm) :
    ∃ m', mapKernelFrame s.mem f (v * 4096) perm = .ok m' ∧
      m' = (s.mem.setFrameVa f (v * 4096)).enterFrame 0 f (v * 4096) perm ∧
      mapFrame 0 f (v * 4096) perm s = .ok () { s with mem := m' } := by
  have ht : ((s.mem.setFrameVa f (v * 4096)).table 0 (pdx (v * 4096))).isSome = true := by
    rw [pdx_page]; exact hK.tables v hv
  have hnone : ((s.mem.setFrameVa f (v * 4096)).table 0 (pdx (v * 4096))).isNone = false := by
    rw [← Option.not_isSome, ht]; rfl
  refine ⟨_, by simp only [mapKernelFrame, if_pos ht], rfl, ?_⟩
  unfold mapFrame
  rw [bind_of_ok (modify_eq _ s), bind_of_ok (get_eq _), owner, ite_self, hnone]
  rfl

/-- A legal `map_frame` returns; a frame that the caller held is then on the page. -/
theorem KMap.Inv.mapFrame_returns (hI : h.Inv) {f v : Nat} (perm : Perm) (hl : h.Legal (.mapFrame f v perm)) :
    ∃ m', MapStep h (.mapFrame f v perm) ⟨{ h.kernel with mem := m' }, h.owned.erase f⟩ ∧
      (f ∈ h.owned → (m'.pte (0, v)).held = some f) := by
  obtain ⟨m', hm', -, hmap⟩ := mapFrame_heap hI.ok.pages f hl.1 perm
  refine ⟨m', ⟨hl, by simp only [KMap.call, hmap, returned]⟩, fun ho => ?_⟩
  obtain ⟨m₂, hm₂, -, hheld, -⟩ := hI.ok.pages.map hl.1 (hI.present v hl.1) (hI.owned f ho) perm hl.2.1
  obtain rfl : m₂ = m' := Except.ok.inj (hm₂.symm.trans hm')
  exact hheld.1

/-- A frame that is on no other page of the heap: mapping it keeps the pages in order. -/
theorem KMap.Inv.mapFrame (hI : h.Inv) {f v : Nat} {perm : Perm} (hl : h.Legal (.mapFrame f v perm))
    (hc : h.NoAlias (.mapFrame f v perm)) (hrun : h.call (.mapFrame f v perm) = some h') : h'.Inv := by
  obtain ⟨hv, hp, hf⟩ := hl
  have hK := hI.ok.pages
  obtain ⟨m', hm', hme, hmap⟩ := mapFrame_heap hK f hv perm
  simp only [KMap.call, hmap, returned] at hrun
  obtain rfl := Option.some.inj hrun
  by_cases ho : f ∈ h.owned
  · obtain ⟨m₂, hm₂, hK', hheld, hsame, -, hloose⟩ := hK.map hv (hI.present v hv) (hI.owned f ho) perm hp
    obtain rfl : m₂ = m' := Except.ok.inj (hm₂.symm.trans hm')
    have hok := hI.ok
    have hpres : AllPresent m₂ := by
      intro w hw hh
      by_cases hwv : w = v
      · rw [hwv]; exact hheld.2
      · have he := hsame (0, w) (by simpa using hwv)
        rw [HoldsPage, he] at hh
        rw [he]
        exact hI.present w hw hh
    refine ⟨⟨hK', hpres.guards, fun i hi => ?_, ?_, hok.5, hok.6, hok.7, hok.8, hok.9⟩, hpres, fun g hg => ?_,
      hI.nodup.erase f⟩
    · rw [mapKernelFrame_table hm']; exact hok.lower i hi
    · rw [hsame _ fun he => absurd (Prod.mk.inj he).2 (by have := hv.2; omega)]; exact hok.last
    · obtain ⟨hne, hg⟩ := (List.Nodup.mem_erase_iff hI.nodup).1 hg
      exact hloose g 0 hne (hI.owned g hg)
  · -- the frame is on the page itself, and nothing changes
    obtain ⟨w, hw, hfw⟩ := hf.resolve_left ho
    obtain rfl : w = v := by
      by_contra hne
      exact hc w hw hne hfw
    have hpres := hI.present w hw (by rw [HoldsPage, hfw]; simp)
    have hva : h.kernel.mem.setFrameVa f (w * 4096) = h.kernel.mem := by
      rw [Mem.setFrameVa, Mem.setFrame, ← hK.va w hw f hfw, Function.update_eq_self]
    have hsame : m' = h.kernel.mem := by
      rw [hme, hva, Mem.enterFrame, slot_page]
      simp only [hpres, if_true, held_frame hfw]
    rw [hsame, List.erase_of_not_mem ho]
    exact hI

/-- A step that maps no frame a second time keeps the invariant. -/
theorem KMap.Inv.step (h : KMap) (c : MapCall) (h' : KMap) (hI : h.Inv) (hc : h.NoAlias c) (hstep : MapStep h c h') :
    h'.Inv := by
  obtain ⟨hl, hrun⟩ := hstep
  cases c with
  | kmalloc size =>
    obtain ⟨va, s, hr, rfl⟩ := returned_some hrun
    exact hI.keeps (hI.ok.kmalloc hr)
  | kfree va =>
    obtain ⟨_, s, hr, rfl⟩ := returned_some hrun
    exact hI.keeps (hI.ok.kfree hr)
  | allocBlock size =>
    simp only [KMap.call] at hrun
    split at hrun
    · rename_i ha
      cases hrun
      exact hI.keeps (hI.ok.allocBlock ha)
    · cases hrun
  | freeBlock va =>
    simp only [KMap.call] at hrun
    split at hrun
    · rename_i ha
      cases hrun
      exact hI.keeps (hI.ok.freeBlock ha)
    · cases hrun
  | allocateFrame =>
    simp only [KMap.call] at hrun
    split at hrun
    · rename_i f m' ha
      cases hrun
      obtain ⟨hK, hl, hpte, hfree, hloose⟩ := hI.ok.pages.allocate ha
      have hok := hI.ok
      have hpres : AllPresent m' := by unfold AllPresent HoldsPage; rw [hpte]; exact hI.present
      refine ⟨⟨hK, hpres.guards, fun i hi => ?_, by rw [hpte]; exact hok.last, hok.5, hok.6, hok.7, hok.8, hok.9⟩,
        hpres, fun g hg => ?_, List.nodup_cons.2 ⟨fun ho => ?_, hI.nodup⟩⟩
      · rw [allocateFrame_table ha]; exact hok.lower i hi
      · rcases List.mem_cons.1 hg with rfl | hg
        · exact hl
        · exact hloose g 0 (hI.owned g hg)
      · exact (hI.owned f ho).notFree (by rw [hfree]; exact List.mem_cons_self)
    · cases hrun
  | mapFrame f v perm => exact hI.mapFrame hl hc hrun
  | unmapFrame v =>
    simp only [KMap.call] at hrun
    obtain rfl := Option.some.inj hrun
    have he := hI.ok.pages.evolves_unmap hl
    exact hI.keeps ⟨hI.ok.mem he, he⟩

/-- Mapping a frame a second time leaves the first page without its way back. -/
theorem KMap.Inv.exact (h : KMap) (c : MapCall) (h' : KMap) (hI : h.Inv) (hstep : MapStep h c h') (hinv : h'.Inverse) :
    h.NoAlias c := by
  obtain ⟨hl, hrun⟩ := hstep
  cases c with
  | mapFrame f v perm =>
    intro w hw hwv hfw
    obtain ⟨hv, hp, -⟩ := hl
    have hK := hI.ok.pages
    obtain ⟨m', hm', -, hmap⟩ := mapFrame_heap hK f hv perm
    have hfv : (h.kernel.mem.pte (0, v)).held ≠ some f := fun hfv => hwv (hK.inj hw hv hfw hfv)
    obtain rfl := Except.ok.inj (hm'.symm.trans (hK.map_eq hv (hI.present v hv) hfv perm))
    simp only [KMap.call, hmap, returned] at hrun
    obtain rfl := Option.some.inj hrun
    obtain ⟨-, hsame, -⟩ := hK.unmap hv
    have hne : ((0, w) : Nat × Nat) ≠ (0, v) := by simpa using hwv
    have hlt := (hK.notFree w hw f hfw).2
    have hpte : ((((h.kernel.mem.unmapFrame 0 (v * 4096)).setFrameVa f (v * 4096)).linkFrame 0 f (v * 4096)
        perm).pte (0, w)) = h.kernel.mem.pte (0, w) := by
      rw [← hsame _ hne]
      simp [Mem.linkFrame, Mem.setFrameVa, slot_page, hwv]
    have hfew := hK.few
    have hnum : (((h.kernel.mem.unmapFrame 0 (v * 4096)).setFrameVa f (v * 4096)).linkFrame 0 f (v * 4096)
        perm).numberOfFrames = h.kernel.mem.numberOfFrames := (Mem.unmapFrame_same _ _ _).2.1
    have hdiv : w * 4096 / 4096 = w := by omega
    have hpres := hI.present w hw (by rw [HoldsPage, hfw]; simp)
    have htab : (((h.kernel.mem.unmapFrame 0 (v * 4096)).setFrameVa f (v * 4096)).linkFrame 0 f (v * 4096)
        perm).table = h.kernel.mem.table := (Mem.unmapFrame_same _ _ _).1
    have hva : ((((h.kernel.mem.unmapFrame 0 (v * 4096)).setFrameVa f (v * 4096)).linkFrame 0 f (v * 4096)
        perm).framesInfo f).va = v * 4096 := by
      simp [Mem.linkFrame, Mem.setFrameVa]
    generalize (((h.kernel.mem.unmapFrame 0 (v * 4096)).setFrameVa f (v * 4096)).linkFrame 0 f (v * 4096) perm) =
      m' at *
    have h1 := hw.1
    have h2 := hw.2
    -- the first page leads to the frame, the frame to the second page
    have hback := hinv.back (w * 4096) (by simp only [kernelHeapStart]; omega) (by simp only [kernelHeapMax]; omega)
      (by rw [slot_page]; exact (congrArg (·.perm.present) hpte).trans hpres)
    rw [physical_eq (by rwa [hdiv]) (by rw [hdiv]; exact htab ▸ hK.tables w hw) (by rw [hdiv]; exact hpte ▸ hpres)
      (by rw [hdiv]; show (m'.pte (0, w)).frame < _; rw [hpte, held_frame hfw]; omega), hdiv] at hback
    simp only [hpte, held_frame hfw, Nat.mul_mod_left, Nat.add_zero] at hback
    have hf : f * 4096 / 4096 = f := Nat.mul_div_cancel f (by decide)
    have hfew' : m'.numberOfFrames < 1048576 := by rw [hnum]; exact hfew
    have hlt' : f * 4096 / 4096 < m'.numberOfFrames := by rw [hf, hnum]; exact hlt
    rw [virtual_eq hfew' hv hlt' (by rw [hf]; exact hva), Nat.mul_mod_left,
      Nat.add_zero] at hback
    exact hwv (Nat.eq_of_mul_eq_mul_right (show 0 < 4096 by decide) hback).symm
  | kmalloc _ | kfree _ | allocBlock _ | freeBlock _ | allocateFrame | unmapFrame _ => trivial

end Steps

theorem kheapInit_mapOk {s₀ s : Kernel} (hboot : Booted s₀.mem) (hinit : kheapInit s₀ = .ok s)
    (hsize : ∀ i, s₀.allocatedSize.val i = 0) : KMap.Inv ⟨s, []⟩ := by
  obtain ⟨hmem, hsz⟩ := kheapInit_same hinit
  have hI := kheapInit_inv hboot hinit
  have hpres : AllPresent s.mem := by
    intro v hv hh
    rw [HoldsPage, hmem, hboot.empty v hv] at hh
    exact absurd rfl hh
  refine ⟨⟨hI.pages, hpres.guards, ?_, ?_, hI.dynStart, hI.dynEnd, hI.start, ⟨_, hI.brk, hI.low, hI.high⟩, ?_⟩,
    hpres, by simp, .nil⟩
  · rw [hmem]; exact hboot.lower
  · rw [hmem]; exact hboot.last
  · intro i
    rw [hsz, hsize]
    exact Nat.zero_le _

/-- From boot on, the two directions of the kernel heap's addresses agree in every state of a run exactly
when the run maps no frame on a second page of the heap. -/
theorem kernel_heap_inverse (s₀ s : Kernel) (hboot : Booted s₀.mem) (hinit : kheapInit s₀ = .ok s)
    (hsize : ∀ i, s₀.allocatedSize.val i = 0) (cs : List MapCall) :
    Always MapStep KMap.Inverse ⟨s, []⟩ cs ↔ Each MapStep KMap.NoAlias ⟨s, []⟩ cs :=
  always_iff_each (fun _ hI => hI.ok.pages.inverse) KMap.Inv.step KMap.Inv.exact
    (kheapInit_mapOk hboot hinit hsize)

theorem kernel_heap_inverse_machine : ∃ s, kheapInit (unusedKernel machine) = .ok s ∧
    (Always MapStep KMap.Inverse ⟨s, []⟩ [.kmalloc 4096, .allocateFrame, .mapFrame 1026 1015900 { writeable := true }] ↔
      Each MapStep KMap.NoAlias ⟨s, []⟩
        [.kmalloc 4096, .allocateFrame, .mapFrame 1026 1015900 { writeable := true }]) :=
  ⟨_, rfl, kernel_heap_inverse (unusedKernel machine) _ machine_booted rfl (fun _ => rfl) _⟩

/-- A frame mapped on two pages of the heap: the first page has no way back. -/
theorem kernel_heap_alias : ∃ s, kheapInit (unusedKernel machine) = .ok s ∧
    ¬ Always MapStep KMap.Inverse ⟨s, []⟩
      [.allocateFrame, .mapFrame 1027 1015900 { writeable := true }, .mapFrame 1027 1015901 { writeable := true }] := by
  obtain ⟨s, hs⟩ : ∃ s, kheapInit (unusedKernel machine) = .ok s := ⟨_, rfl⟩
  refine ⟨s, hs, fun h => ?_⟩
  have hv : HeapPage 1015900 := by decide
  have hw : HeapPage 1015901 := by decide
  have hI := kheapInit_mapOk machine_booted hs (fun _ => rfl)
  have hstep : MapStep ⟨s, []⟩ .allocateFrame
      ⟨{ s with mem := { machine with freeFrameList := machine.freeFrameList.tail }.setFrame 1027 {} }, [1027]⟩ := by
    refine ⟨trivial, ?_⟩
    simp only [KMap.call, (kheapInit_same hs).1]
    rfl
  have hI₁ := KMap.Inv.step _ .allocateFrame _ hI trivial hstep
  obtain ⟨m₁, hstep₁, hheld⟩ := hI₁.mapFrame_returns { writeable := true } ⟨hv, rfl, .inl List.mem_cons_self⟩
  have hI₂ := KMap.Inv.step _ (.mapFrame 1027 1015900 { writeable := true }) _ hI₁
    (fun w hw _ => (hI₁.owned 1027 List.mem_cons_self).unmapped w hw) hstep₁
  obtain ⟨m₂, hstep₂, -⟩ := hI₂.mapFrame_returns { writeable := true }
    ⟨hw, rfl, .inr ⟨1015900, hv, hheld List.mem_cons_self⟩⟩
  have hinv := ((h.2 _ hstep).2 _ hstep₁).2 _ hstep₂
  exact KMap.Inv.exact _ (.mapFrame 1027 1015901 { writeable := true }) _ hI₂ hstep₂ hinv 1015900 hv (by decide)
    (hheld List.mem_cons_self)

end Fos.Heap
