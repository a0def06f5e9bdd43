/-
The kernel heap as user pages depend on it: its calls touch no page of a process, and making a page table or
mapping a page of a process leaves it ready for the next call.
-/
import Fos.Memory.UserPages

namespace Fos.Memory

open Fos.Lib Fos.Heap

/-- What boot leaves of the kernel heap and no call changes. Directory `0` has no page tables of user pages, and
no recorded size is beyond the heap, so `kfree` of any address unmaps pages of the heap only. -/
structure KernelReady (s : Kernel) : Prop where
  heap : HeapReady s
  dynEnd : s.dyn.dynAllocEnd = kernelHeapStart + dynAllocMaxSize
  lower : ∀ i < 955, s.mem.table 0 i = none
  last : s.mem.pte (0, 1048575) = {}
  sizes : ∀ i, s.allocatedSize.val i ≤ 134217728

/-! ## Calls of the heap -/

section Calls

variable {s t : Kernel} {m m' : Mem} {va : Nat}

theorem KernelReady.mem (h : KernelReady s) (ht : m.table = s.mem.table)
    (hl : m.pte (0, 1048575) = s.mem.pte (0, 1048575)) :
    KernelReady { s with mem := m } := by
  constructor
  · exact h.heap.mem ht
  · exact h.dynEnd
  · exact fun i hi => (congrFun (congrFun ht 0) i).trans (h.lower i hi)
  · exact hl.trans h.last
  · exact h.sizes

/-- A change of the lock, of the sizes or of what blocks are free. -/
theorem KernelReady.congr (h : KernelReady s) (hm : t.mem = s.mem) (hd : t.dyn.dynAllocStart = s.dyn.dynAllocStart)
    (he : t.dyn.dynAllocEnd = s.dyn.dynAllocEnd) (hs : t.kheapPageAllocStart = s.kheapPageAllocStart)
    (hb : t.kheapPageAllocBreak = s.kheapPageAllocBreak) (hz : ∀ i, t.allocatedSize.val i ≤ 134217728) :
      KernelReady t := by
  constructor
  · exact ⟨⟨hm ▸ h.heap.heap.tables, hs.trans h.heap.heap.start, hb ▸ h.heap.heap.brk⟩, hd.trans h.heap.dynStart⟩
  · exact he.trans h.dynEnd
  · exact fun i hi => hm ▸ h.lower i hi
  · exact hm ▸ h.last
  · exact hz

theorem KernelReady.within (h : KernelReady s) (hw : Within s.mem m) : KernelReady { s with mem := m } :=
  h.mem hw.table (hw.pte _ fun hc => absurd hc.2 (by decide))

theorem KernelReady.kmalloc (h : KernelReady s) {size : Nat} (hr : Heap.kmalloc size s = .ok va t) :
    KernelReady t ∧ Within s.mem t.mem := by
  obtain ⟨hh, hw⟩ := h.heap.kmalloc hr
  have hin := h.within hw
  obtain ⟨b, hb, hlow, hhigh⟩ := h.heap.heap.brk
  refine ⟨⟨hh, ?_, hin.lower, hin.last, ?_⟩, hw⟩
  · cases kmalloc_outcome h.heap.heap.tables h.heap.heap.start hb hlow hhigh hr with
    | null => exact h.dynEnd
    | block _ ha _ => exact (allocBlock_pages ha).1.2.trans h.dynEnd
    | pages => exact h.dynEnd
  · cases kmalloc_outcome h.heap.heap.tables h.heap.heap.start hb hlow hhigh hr with
    | null => exact h.sizes
    | block => exact h.sizes
    | pages _ _ _ _ hn _ =>
      intro i
      simp only [SizeTable.fill]
      split
      · omega
      · exact h.sizes i

/-- Unmapping a page of the heap, the last page of the address space, or a page of user addresses. -/
theorem KernelReady.unmap_within (h : KernelReady s) (hlt : va < 4294967296)
    (hin : 1007616 ≤ va / 4096 ∨ va / 4096 < 977920) : Within s.mem (s.mem.unmapFrame 0 va) := by
  obtain ⟨ht, -, -⟩ := Mem.unmapFrame_same s.mem 0 va
  by_cases hv : HeapPage (va / 4096)
  · refine ⟨ht, fun a ha => unmapFrame_pte s.mem 0 va fun hc => ha ?_⟩
    rw [hc, slot_zero]
    exact ⟨rfl, hv⟩
  · have hnone : s.mem.getFrameInfo 0 va = none := by
      rw [Mem.getFrameInfo, slot_zero]
      split
      · rename_i htab
        have hlast : va / 4096 = 1048575 := by
          by_contra hne
          simp only [HeapPage] at hv
          rw [owner, ite_self, h.lower (pdx va) (by unfold pdx; omega)] at htab
          cases htab
        rw [hlast, h.last]
        rfl
      · rfl
    rw [unmap_none hnone]
    exact .refl _

/-- The loop of `kfree`, also where it runs past the end of the address space. -/
theorem KernelReady.freePages {n i : Nat} (h : KernelReady s) (ha : va % 4096 = 0) (hlt : va < 4294967296)
    (hn : n ≤ 977920) (hin : 1007616 ≤ va / 4096 ∨ va / 4096 + n ≤ 977920) (hr : Heap.freePages va i n s = .ok () t) :
    KernelReady t ∧ Within s.mem t.mem := by
  induction n generalizing va i s with
  | zero =>
    cases hr
    exact ⟨h, .refl _⟩
  | succ n ih =>
    have hw := h.unmap_within hlt (by omega)
    have hrd : roundDown va pageSize = va := roundDown_of_dvd ha
    have hret : onMem (fun m => return ((), ← returnPage m va)) s = .ok () { s with mem := s.mem.unmapFrame 0 va } := by
      simp only [onMem, returnPage, hrd]; rfl
    have hnext : add32 va pageSize = (va + 4096) % 4294967296 := rfl
    unfold Heap.freePages at hr
    rw [bind_of_ok hret, bind_of_ok (show writeSize i 0 _ = .ok () _ from rfl)] at hr
    have hm := h.within hw
    have hu : KernelReady { s with
        mem := s.mem.unmapFrame 0 va
        allocatedSize := ⟨Function.update s.allocatedSize.val i 0, i :: s.allocatedSize.used⟩ } := by
      refine hm.congr rfl rfl rfl rfl rfl fun j => ?_
      simp only [Function.update_apply]
      split
      · exact Nat.zero_le _
      · exact h.sizes j
    obtain ⟨ht, hw'⟩ := ih hu (by rw [hnext]; omega) (by rw [hnext]; omega) (by omega) (by rw [hnext]; omega) hr
    exact ⟨ht, hw.trans hw'⟩

/-- The lowered break is still a break. -/
theorem lowerBreak_bounds (m : Mem) (lo : Nat) : ∀ (fuel b : Nat), lo ≤ b → b ≤ 1048575 →
    ∃ b', lowerBreak m (lo * 4096) fuel (b * 4096) = b' * 4096 ∧ lo ≤ b' ∧ b' ≤ b
  | 0, b, h, _ => ⟨b, rfl, h, le_rfl⟩
  | fuel + 1, b, h, hb => by
    unfold lowerBreak
    by_cases hlt : lo * 4096 < b * 4096
    · have hsub : sub32 (b * 4096) pageSize = (b - 1) * 4096 := by
        have hle : 4096 ≤ b * 4096 := by omega
        have hmax : b * 4096 < 4294967296 := lt_of_le_of_lt (Nat.mul_le_mul_right 4096 hb) (by decide)
        simp only [pageSize]
        rw [sub32_of_le hle hmax]
        omega
      obtain ⟨b', hb', h1, h2⟩ := lowerBreak_bounds m lo fuel (b - 1) (by omega) (by omega)
      have hrest : ∃ b', lowerBreak m (lo * 4096) fuel ((b - 1) * 4096) = b' * 4096 ∧ lo ≤ b' ∧ b' ≤ b :=
        ⟨b', hb', h1, by omega⟩
      rw [if_pos hlt, hsub]
      split
      · split
        · exact ⟨b, rfl, h, le_rfl⟩
        · exact hrest
      · exact hrest
    · exact ⟨b, if_neg hlt, h, le_rfl⟩

theorem KernelReady.kfree (h : KernelReady s) (hr : Heap.kfree va s = .ok () t) :
    KernelReady t ∧ Within s.mem t.mem := by
  have hl : s.lock = false := lock_free hr
  have hdyn := h.heap.dynStart
  have hend := h.dynEnd
  by_cases hd : s.locked.dyn.dynAllocStart ≤ va ∧ va < s.locked.dyn.dynAllocEnd
  · unfold Heap.kfree at hr
    rw [bind_of_ok (acquireLock_eq hl), bind_of_ok (get_eq s.locked), if_pos hd] at hr
    cases hf : Heap.freeBlock kernelPages s.locked.dyn s.locked.mem va with
    | error e => simp only [hf] at hr; cases hr
    | ok r =>
      simp only [hf] at hr
      obtain ⟨dyn, mem⟩ := r
      obtain ⟨_, u, hset, hr⟩ := ok_of_bind hr
      cases hset
      obtain rfl := releaseLock_ok hr
      obtain ⟨⟨hs, he⟩, hm⟩ := freeBlock_pages hf
      rw [locked_dyn] at hs he hm hd
      rw [hdyn] at hs hm hd
      rw [hend] at he hd
      have hw : Within s.mem mem := by
        rcases hm with rfl | ⟨-, -, hret⟩
        · exact .refl _
        · simp only [kernelHeapStart, dynAllocMaxSize] at hd
          have hp : sub32 va kernelHeapStart / pageSize < 8192 := by
            simp only [pageSize, kernelHeapStart]
            rw [sub32_of_le (by omega) (by omega)]
            omega
          obtain ⟨hva, hpage⟩ := dyn_page hp
          rw [hva] at hret
          have hrd : roundDown ((1007616 + sub32 va kernelHeapStart / pageSize) * 4096) pageSize =
              (1007616 + sub32 va kernelHeapStart / pageSize) * 4096 :=
                roundDown_of_dvd (by simp only [pageSize]; omega)
          simp only [kernelPages, returnPage, hrd] at hret
          obtain rfl := Except.ok.inj hret
          refine h.unmap_within ?_ (.inl ?_)
          · have := hpage.2
            omega
          · have := hpage.1
            omega
      exact ⟨(h.within hw).congr rfl (hs.trans hdyn.symm) (he.trans hend.symm) rfl rfl h.sizes, hw⟩
  by_cases hp : s.locked.kheapPageAllocStart ≤ va ∧ va < kernelHeapMax
  · have hd' : va < s.dyn.dynAllocStart ∨ s.dyn.dynAllocEnd ≤ va := by
      rw [locked_dyn] at hd
      omega
    rw [kfree_page hl hd' hp.1 hp.2] at hr
    split at hr
    · cases hr
    split at hr
    · cases hr
    have hst : 1015809 * 4096 ≤ va := h.heap.heap.start ▸ hp.1
    have hmax := hp.2
    simp only [kernelHeapMax] at hmax
    have hsz := h.sizes (va / 4096)
    have hcount : add32 (s.allocatedSize.val (va / 4096)) (pageSize - 1) / pageSize ≤ 32768 := by
      rw [add32_of_lt (by simp only [pageSize]; omega)]
      simp only [pageSize]
      omega
    obtain ⟨_, u, hfree, hr⟩ := ok_of_bind hr
    obtain ⟨_, w, hmod, hr⟩ := ok_of_bind hr
    rw [modify_eq] at hmod
    cases hmod
    obtain rfl := releaseLock_ok hr
    have hread : KernelReady { s.locked with allocatedSize := ⟨s.allocatedSize.val,
        va / 4096 :: s.allocatedSize.used⟩ } :=
      h.congr rfl rfl rfl rfl rfl h.sizes
    obtain ⟨hu, hw⟩ := hread.freePages (by omega) (by omega) (hcount.trans (by decide)) (.inl (by omega)) hfree
    obtain ⟨b, hb, hlow, hhigh⟩ := hu.heap.heap.brk
    obtain ⟨b', hb', h1, h2⟩ := lowerBreak_bounds u.mem 1015809
      ((u.kheapPageAllocBreak - u.kheapPageAllocStart) / pageSize + 1) b hlow (by omega)
    refine ⟨⟨⟨⟨hu.heap.heap.tables, hu.heap.heap.start, b', ?_, h1, by omega⟩, hu.heap.dynStart⟩, hu.dynEnd, hu.lower,
      hu.last, hu.sizes⟩, hw⟩
    simp only [hu.heap.heap.start, hb] at hb' ⊢
    exact hb'
  · unfold Heap.kfree at hr
    rw [bind_of_ok (acquireLock_eq hl), bind_of_ok (get_eq s.locked), if_neg hd, if_neg hp] at hr
    split at hr
    · obtain ⟨_, u, -, hr⟩ := ok_of_bind hr
      cases hr
    · cases hr
      exact ⟨h.congr rfl rfl rfl rfl rfl h.sizes, .refl _⟩

end Calls

/-! ## User pages -/

section UserPages

variable {s t : Kernel} {d f v : Nat} {perm : Perm}

/-- Whether page `v` of directory `d` is there for the CPU. -/
def shown (m : Mem) (d v : Nat) : Bool := (userEntry m d v).perm.present

theorem shown_within {m m' : Mem} (h : Within m m') (hv : v < userPages) : shown m' d v = shown m d v := by
  rw [shown, userEntry_within h hv, shown]

/-- The end of `map_frame` on a user page changes no entry of another page. -/
theorem enterFrame_others (m : Mem) (perm : Perm) (hv : v < userPages) {e w : Nat} (hne : (e, w) ≠ (d, v)) :
    userEntry (m.enterFrame d f (v * 4096) perm) e w = userEntry m e w := by
  unfold userEntry
  rw [(Mem.enterFrame_same m d f (v * 4096) perm).1]
  rw [enterFrame_pte m d f _ perm (by rwa [(user_slot hv).2])]

/-- A new page table for a user page: no user page changes. -/
theorem KernelReady.createPageTable (h : KernelReady s) (hd : d ≠ 0) (hno : s.mem.table d (v / 1024) = none)
    (hr : Heap.createPageTable d (v * 4096) s = .ok () t) :
    KernelReady t ∧ (t.mem.table d (v / 1024)).isSome ∧ ∀ e w, w < userPages →
      userEntry t.mem e w = userEntry s.mem e w := by
  obtain ⟨hh, htab, hsame⟩ := h.heap.createPageTable hno hr
  unfold Heap.createPageTable at hr
  obtain ⟨ptr, u, hk, hr⟩ := ok_of_bind hr
  obtain ⟨hu, -⟩ := h.kmalloc hk
  split at hr
  · obtain ⟨_, _, hr, -⟩ := ok_of_bind hr
    cases hr
  cases hr
  refine ⟨⟨hh, hu.dynEnd, fun i hi => ?_, ?_, hu.sizes⟩, htab, hsame⟩
  · simp only [Kernel.linkTable, Function.update_of_ne hd.symm]
    exact hu.lower i hi
  · simp only [Kernel.linkTable]
    rw [if_neg fun hc => hd hc.1.symm]
    exact hu.last

/-- `map_frame` on a user page changes no entry of another page. -/
theorem KernelReady.mapFrame (h : KernelReady s) (hd : d ≠ 0) (hv : v < userPages)
    (hr : Heap.mapFrame d f (v * 4096) perm s = .ok () t) :
    KernelReady t ∧ ∀ e w, w < userPages → (e, w) ≠ (d, v) → userEntry t.mem e w = userEntry s.mem e w := by
  obtain ⟨hown, hslot⟩ := user_slot (d := d) hv
  have hne : ((0, 1048575) : Nat × Nat) ≠ slot d (v * 4096) := by
    rw [hslot]
    exact fun hc => hd (congrArg Prod.fst hc).symm
  rcases mapFrame_ok hr with ⟨ht, rfl⟩ | ⟨hno, u, hc, rfl⟩
  · refine ⟨h.mem (Mem.enterFrame_same _ _ _ _ _).1 (enterFrame_pte _ _ _ _ _ hne), fun e w _ hew => ?_⟩
    exact enterFrame_others _ perm hv hew
  · rw [hown, pdx_page] at hno
    obtain ⟨hu, -, hsame⟩ := (h.mem (m := s.mem.setFrameVa f (v * 4096)) rfl rfl).createPageTable hd hno hc
    refine ⟨hu.mem (Mem.enterFrame_same _ _ _ _ _).1 (enterFrame_pte _ _ _ _ _ hne), fun e w hw hew => ?_⟩
    exact (enterFrame_others _ perm hv hew).trans (hsame e w hw)

/-- The entry of a user page changes: the heap stays ready. -/
theorem KernelReady.setPte (h : KernelReady s) (hd : d ≠ 0) (hv : v < userPages) (p : Pte) :
    KernelReady { s with mem := s.mem.setPte (slot d (v * 4096)) p } := by
  refine h.mem rfl ?_
  rw [Mem.setPte_pte, (user_slot hv).2, if_neg fun hc => hd (congrArg Prod.fst hc).symm]

theorem KernelReady.unmap (h : KernelReady s) (hd : d ≠ 0) (hv : v < userPages) :
    KernelReady { s with mem := s.mem.unmapFrame d (v * 4096) } := by
  refine h.mem (Mem.unmapFrame_same _ _ _).1 (unmapFrame_pte _ _ _ ?_)
  rw [(user_slot hv).2]
  exact fun hc => hd (congrArg Prod.fst hc).symm

end UserPages

end Fos.Memory
