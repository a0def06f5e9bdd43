/-
The kernel stacks of processes, `create_user_kern_stack` of `kern/proc/user_environment.c`: a range of the kernel heap
whose lowest page, the guard page, holds its frame and is not present. Every other page of the heap stays as it is.
-/
import Fos.Heap.HeapUse
import Fos.Memory.LooseFrames
import Fos.Proc.Directories

namespace Fos.Heap

open Fos.Memory Fos.Lib

/-! ## A page of the heap loses its presence -/

/-- Page `p` of the kernel heap, no longer present. -/
def guarded (m : Mem) (p : Nat) : Mem :=
  m.setPte (0, p) { m.pte (0, p) with perm := ((m.pte (0, p)).perm.union .none).diff .permPresent }

section Guard

variable {m : Mem} {s : Kernel} {h : HeapUse} {G : Set Nat} {p b : Nat}

/-- The page keeps its frame, so nothing else shows that it is gone. -/
theorem guarded_held (hf : (m.pte (0, p)).frame ≠ 0) (v : Nat) :
    ((guarded m p).pte (0, v)).held = (m.pte (0, v)).held := by
  rw [guarded, Mem.setPte_pte]
  split
  · rename_i hv
    obtain rfl : v = p := (Prod.mk.inj hv).2
    rw [Pte.held, Pte.held, if_pos (.inl hf), if_pos (.inl hf)]
  · rfl

theorem guarded_pte {a : Nat × Nat} (ha : a ≠ (0, p)) : (guarded m p).pte a = m.pte a := by
  rw [guarded, Mem.setPte_pte, if_neg ha]

theorem guard_last (hp : HeapPage p) : ((0, 1048575) : Nat × Nat) ≠ (0, p) := by
  intro he
  obtain rfl : 1048575 = p := (Prod.mk.inj he).2
  exact absurd hp.2 (by decide)

theorem guarded_buffered (v : Nat) : ((guarded m p).pte (0, v)).perm.buffered = (m.pte (0, v)).perm.buffered := by
  rw [guarded, Mem.setPte_pte]
  split
  · rename_i hv
    obtain rfl : v = p := (Prod.mk.inj hv).2
    simp [Perm.union, Perm.diff, Perm.none, Perm.permPresent]
  · rfl

theorem guarded_holds (hf : (m.pte (0, p)).frame ≠ 0) (v : Nat) : HoldsPage (guarded m p) v ↔ HoldsPage m v := by
  rw [HoldsPage, HoldsPage, guarded_held hf]

theorem guarded_loose (hf : (m.pte (0, p)).frame ≠ 0) {g r : Nat} (hl : Loose m g r) : Loose (guarded m p) g r :=
  ⟨hl.lt, hl.notFree, hl.references, fun v hv => by rw [guarded_held hf]; exact hl.unmapped v hv⟩

/-- `pt_set_page_permissions` finds the page in the kernel's tables, whatever the directory. -/
theorem guarded_eq (ht : HeapTables m) (hp : HeapPage p) (d : Nat) :
    m.ptSetPagePermissions d (p * 4096) .none .permPresent = .ok (guarded m p) := by
  have hlow := hp.1
  have hown : owner d (p * 4096) = 0 := by
    rw [owner, isKernelAddress, if_pos (decide_eq_true (show userTop ≤ p * 4096 by simp only [userTop]; omega))]
  have hslot : slot d (p * 4096) = (0, p) := by
    rw [slot, hown, Nat.mul_div_cancel p (by decide)]
  rw [Mem.ptSetPagePermissions, hown, pdx_page, if_pos (ht p hp), hslot]
  rfl

theorem KPages.guarded (h : KPages m) (hf : (m.pte (0, p)).frame ≠ 0) : KPages (guarded m p) := by
  constructor
  · exact h.few
  · exact h.freeNodup
  · exact h.freeLt
  · exact h.tables
  · exact fun v hv => (guarded_buffered v).trans (h.notBuffered v hv)
  · exact fun v hv f hg => h.references v hv f (guarded_held hf v ▸ hg)
  · exact fun v hv f hg => h.va v hv f (guarded_held hf v ▸ hg)
  · exact fun v hv f hg => h.notFree v hv f (guarded_held hf v ▸ hg)
  · intro f hlt h1 h2
    obtain ⟨h3, h4⟩ := h.stale f hlt h1 h2
    exact ⟨h3, (guarded_held hf _).trans h4⟩

/-- A page below the break becomes a guard page. -/
theorem mapOk_guarded (h : MapOk s) (hp : HeapPage p) (hf : (s.mem.pte (0, p)).frame ≠ 0)
    (hbrk : p * 4096 < s.kheapPageAllocBreak) : MapOk { s with mem := guarded s.mem p } := by
  refine ⟨h.pages.guarded hf, fun v hv hh hc => ?_, h.lower, ?_, h.dynStart, h.dynEnd, h.start, h.brk, h.sizes⟩
  · by_cases hvp : v = p
    · rw [hvp]
      exact hbrk
    · have hpte : (guarded s.mem p).pte (0, v) = s.mem.pte (0, v) := guarded_pte fun he => hvp (Prod.mk.inj he).2
      exact h.guards v hv ((guarded_holds hf v).1 hh) (hpte ▸ hc)
  · show (guarded s.mem p).pte (0, 1048575) = {}
    rw [guarded_pte (guard_last hp)]
    exact h.last

/-- The ranges in use do not show it. -/
theorem kHeap_guarded {live : List Extent} (hI : KHeap.Inv ⟨s, live⟩ b) (hf : (s.mem.pte (0, p)).frame ≠ 0) :
    KHeap.Inv ⟨{ s with mem := guarded s.mem p }, live⟩ b :=
  { hI with
    pages := hI.pages.guarded hf
    mapped := fun v h1 h2 => (guarded_holds hf v).trans (hI.mapped v h1 h2)
    tight := hI.tight.imp_right (guarded_holds hf _).2 }

/-- The heap in use, with one guard page more. -/
theorem HeapUse.Inv.guarded_page (hI : h.Inv G b) (hp : HeapPage p) (hf : (h.kernel.mem.pte (0, p)).frame ≠ 0) :
    HeapUse.Inv ⟨{ h.kernel with mem := guarded h.kernel.mem p }, h.blocks, h.live⟩ (insert p G) b := by
  constructor
  · exact kHeap_guarded hI.heap hf
  · exact hI.blocks
  · intro v hv hpage hh
    obtain ⟨hvp, hvG⟩ := not_or.1 hv
    have hpte : (Heap.guarded h.kernel.mem p).pte (0, v) = h.kernel.mem.pte (0, v) :=
      guarded_pte fun he => hvp (Prod.mk.inj he).2
    show ((Heap.guarded h.kernel.mem p).pte (0, v)).perm.present = true
    rw [hpte]
    exact hI.present v hvG hpage ((guarded_holds hf v).1 hh)
  · show (guarded h.kernel.mem p).pte (0, 1048575) = {}
    rw [guarded_pte (guard_last hp)]
    exact hI.last
  · exact fun q hq => (guarded_holds hf _).trans (hI.split q hq)
  · exact fun e he f hg => hI.sizes e he f (guarded_held hf _ ▸ hg)

/-- After boot frame `0` is off the free list and on no page of the heap. -/
theorem Booted.loose_zero (h : Booted m) (hpos : 0 < m.numberOfFrames) : Loose m 0 (m.framesInfo 0).references :=
  ⟨hpos, h.zero, rfl, fun v hv => by rw [h.empty v hv]; exact (Option.some_ne_none 0).symm⟩

end Guard

end Fos.Heap

namespace Fos.Proc

open Fos.Memory Fos.Heap Fos.Lib

/-! ## `create_user_kern_stack` -/

section Stack

variable {s t : Kernel} {d base r : Nat}

theorem guarded_gone (m : Mem) (p : Nat) : ((guarded m p).pte (0, p)).perm.present = false := by
  rw [guarded, Mem.setPte_pte, if_pos rfl]
  simp [Perm.diff, Perm.permPresent]

/-- The first page of a range that `kmalloc` took: it holds a frame that was free, and is below the break. -/
structure FirstPage (k : Kernel) (p : Nat) : Prop where
  page : HeapPage p
  held : HoldsPage k.mem p
  frame : (k.mem.pte (0, p)).frame ≠ 0
  below : p * 4096 < k.kheapPageAllocBreak

theorem kmalloc_first (h : MapOk s) (hz : Loose s.mem 0 r) {size va : Nat} {k : Kernel} (hs : 2048 < size)
    (hpos : 0 < pagesOf size) (hne : va ≠ 0) (hr : kmalloc size s = .ok va k) :
      ∃ p, va = p * 4096 ∧ FirstPage k p ∧ k.dyn = s.dyn := by
  obtain ⟨-, he⟩ := h.kmalloc hr
  obtain ⟨b, hb, hlow, hhigh⟩ := h.brk
  cases kmalloc_outcome h.pages.tables h.start hb hlow hhigh hr with
  | null => exact absurd rfl hne
  | block hs' => exact absurd hs'.2 (not_le.2 hs)
  | @pages p b' m' hs' hp hlo hb' hn hm hbrk hend hfresh =>
    have hpage : HeapPage p := hp 0 hpos
    have hM := h.mapped hp hm hfresh
    have hpte : (Mem.withSize m' (p * 4096) (pagesOf size * 4096)).pte = m'.pte := (withSize_same _ _ _).1
    have hheld := hM.held p le_rfl (by omega)
    refine ⟨p, rfl, ⟨hpage, ?_, fun hzero => ?_, ?_⟩, rfl⟩
    · show HoldsPage (Mem.withSize _ _ _) p
      rw [HoldsPage, hpte]
      exact hheld.1
    · -- frame `0` is loose and stays so
      have hnone := (he.loose 0 r hz).unmapped p hpage
      simp only [hpte] at hzero hnone
      exact hnone ((held_of_present hheld.2).trans (congrArg some hzero))
    · show p * 4096 < b' * 4096
      omega

/-- `create_user_kern_stack`, when it returns. Frame `0` is never one of the heap's. -/
theorem createUserKernStack_ok (h : MapOk s) (hz : Loose s.mem 0 r) (hr : createUserKernStack d s = .ok base t) :
    ∃ p k, base = p * 4096 ∧ kmalloc kernelStackSize s = .ok (p * 4096) k ∧ FirstPage k p ∧ k.dyn = s.dyn ∧
      t = { k with mem := guarded k.mem p } := by
  unfold createUserKernStack at hr
  obtain ⟨_, k, hk, hr⟩ := ok_of_bind hr
  split at hr
  · obtain ⟨_, _, hr, -⟩ := ok_of_bind hr
    cases hr
  rename_i hne
  obtain ⟨_, u, hset, hr⟩ := ok_of_bind hr
  cases hr
  obtain ⟨p, rfl, hfirst, hdyn⟩ := kmalloc_first h hz (by decide) (by decide) hne hk
  simp only [onMem, guarded_eq (h.kmalloc hk).ok.pages.tables hfirst.page] at hset
  cases hset
  exact ⟨p, k, rfl, hk, hfirst, hdyn, rfl⟩

/-- A new kernel stack leaves the kernel heap in order, the block allocator as it was and every loose frame loose; its
lowest page holds a frame and is not present. -/
structure Stacked (s t : Kernel) (base : Nat) : Prop where
  ok : MapOk t
  within : Within s.mem t.mem
  dyn : t.dyn = s.dyn
  loose : ∀ g r, Loose s.mem g r → Loose t.mem g r
  page : HeapPage (base / 4096)
  held : HoldsPage t.mem (base / 4096)
  gone : (t.mem.pte (0, base / 4096)).perm.present = false

theorem createUserKernStack_stacked (h : MapOk s) (hz : Loose s.mem 0 r) (hr : createUserKernStack d s = .ok base t) :
    Stacked s t base := by
  obtain ⟨p, k, rfl, hk, hfirst, hdyn, rfl⟩ := createUserKernStack_ok h hz hr
  obtain ⟨hok, he⟩ := h.kmalloc hk
  have hdiv : p * 4096 / 4096 = p := Nat.mul_div_cancel p (by decide)
  constructor
  · exact mapOk_guarded hok hfirst.page hfirst.frame hfirst.below
  · refine ⟨he.table, fun a ha => (guarded_pte fun hc => ha ?_).trans (he.outside a ha)⟩
    rw [hc]
    exact ⟨rfl, hfirst.page⟩
  · exact hdyn
  · exact fun g r hl => guarded_loose hfirst.frame (he.loose g r hl)
  · rw [hdiv]
    exact hfirst.page
  · rw [hdiv]
    exact (guarded_holds hfirst.frame p).2 hfirst.held
  · rw [hdiv]
    exact guarded_gone k.mem p

/-- The user pages are as they were. -/
theorem Stacked.user (h : Stacked s t base) {v : Nat} (e : Nat) (hv : v < userPages) :
    userEntry t.mem e v = userEntry s.mem e v := by
  rw [userEntry, userEntry, h.within.table, h.within.pte (e, v) fun hc => ?_]
  have := hc.2.1
  simp only [userPages] at hv
  omega

/-- The guard page is there. -/
theorem Stacked.not_present (h : Stacked s t base) : ¬ AllPresent t.mem := by
  intro hp
  have := h.gone
  rw [hp _ h.page h.held] at this
  cases this

/-- The pages that kernel code holds are still its own. -/
theorem createUserKernStack_pages {P : Set Nat} (h : PageHeap s P) (hM : MapOk s) (hz : Loose s.mem 0 r)
    (hr : createUserKernStack d s = .ok base t) : PageHeap t P := by
  obtain ⟨p, k, rfl, hk, hfirst, -, rfl⟩ := createUserKernStack_ok hM hz hr
  obtain ⟨live, b, hI, hP⟩ := (h.holding_kmalloc (by decide) hk).heap
  exact ⟨live, b, kHeap_guarded hI hfirst.frame, hP⟩

/-- The stack is a range in use, with one guard page more. -/
theorem createUserKernStack_use {h : HeapUse} {G : Set Nat} {b : Nat} (hI : h.Inv G b) (hM : MapOk h.kernel)
    (hz : Loose h.kernel.mem 0 r) (hr : createUserKernStack d h.kernel = .ok base t) :
    ∃ b', HeapUse.Inv ⟨t, h.blocks, ⟨base, kernelStackSize⟩ :: h.live⟩ (insert (base / 4096) G) b' := by
  obtain ⟨p, k, rfl, hk, hfirst, -, rfl⟩ := createUserKernStack_ok hM hz hr
  rcases hI.kmallocPages (by decide) (by decide) hk with ⟨hp, -⟩ | ⟨q, n, b', hq, hn, -, -, -, hI', -⟩
  · have := hfirst.page.1
    omega
  · obtain rfl : q = p := by omega
    rw [Nat.mul_div_cancel q (by decide)]
    obtain rfl : n = 8 := hn
    exact ⟨b', hI'.guarded_page hfirst.page hfirst.frame⟩

end Stack

end Fos.Proc
