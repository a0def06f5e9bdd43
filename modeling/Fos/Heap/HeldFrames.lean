/-
Frames that code of the kernel took and holds: as long as nothing gives them back, whatever else is taken from
the free list and from the kernel heap is other than these.
-/
import Fos.Heap.SinglePages

namespace Fos.Heap

open Fos.Memory Fos.Lib

/-- Pages of `P` keep their frames, and frames that are held stay held. -/
structure Holding (P : Set Nat) (s t : Kernel) : Prop where
  heap : PageHeap t P
  same : ∀ p ∈ P, t.mem.pte (0, p) = s.mem.pte (0, p)
  loose : ∀ g r, Loose s.mem g r → Loose t.mem g r

section Holding

variable {s t u : Kernel} {P : Set Nat} {d f v va : Nat}

theorem Holding.refl (h : PageHeap s P) : Holding P s s := ⟨h, fun _ _ => rfl, fun _ _ h => h⟩

theorem Holding.trans (h : Holding P s t) (h' : Holding P t u) : Holding P s u :=
  ⟨h'.heap, fun p hp => (h'.same p hp).trans (h.same p hp), fun g r hg => h'.loose g r (h.loose g r hg)⟩

/-- The page allocator sees nothing of a change that leaves its own pages alone. -/
theorem KHeap.Inv.congr {live : List Extent} {b : Nat} (hI : KHeap.Inv ⟨s, live⟩ b) (hl : t.lock = false)
    (hds : t.dyn.dynAllocStart = s.dyn.dynAllocStart) (hde : t.dyn.dynAllocEnd = s.dyn.dynAllocEnd)
    (hs : t.kheapPageAllocStart = s.kheapPageAllocStart) (hb : t.kheapPageAllocBreak = s.kheapPageAllocBreak)
    (hz : t.allocatedSize = s.allocatedSize) (hK : KPages t.mem)
    (hp : ∀ v, 1015809 ≤ v → v < 1048575 → t.mem.pte (0, v) = s.mem.pte (0, v)) : KHeap.Inv ⟨t, live⟩ b := by
  have hold : ∀ v, 1015809 ≤ v → v < 1048575 → (HoldsPage t.mem v ↔ HoldsPage s.mem v) := by
    intro v h1 h2
    rw [HoldsPage, HoldsPage, hp v h1 h2]
  constructor
  · exact hl
  · exact hds.trans hI.dynStart
  · exact hde.trans hI.dynEnd
  · exact hs.trans hI.start
  · exact hb.trans hI.brk
  · exact hI.low
  · exact hI.high
  · exact hK
  · exact hI.packed
  · exact fun v h1 h2 => (hold v h1 h2).trans (hI.mapped v h1 h2)
  · have hlow := hI.low
    have hhigh := hI.high
    by_cases hb : b = 1015809
    · exact .inl hb
    · exact .inr ((hold _ (by omega) (by omega)).2 (hI.tight.resolve_left hb))
  · intro e he v hv
    show t.allocatedSize.val v = e.len
    rw [hz]
    exact hI.sizes e he v hv

theorem PageHeap.mem (h : PageHeap s P) {m : Mem} (hK : KPages m)
    (hp : ∀ v, HeapPage v → m.pte (0, v) = s.mem.pte (0, v)) : PageHeap { s with mem := m } P := by
  obtain ⟨live, b, hI, hP⟩ := h
  exact ⟨live, b, hI.congr hI.lock rfl rfl rfl rfl rfl hK fun v h1 h2 => hp v ⟨by omega, h2⟩, hP⟩

theorem PageHeap.pages (h : PageHeap s P) : KPages s.mem := by
  obtain ⟨live, b, hI, -⟩ := h
  exact hI.pages

theorem PageHeap.allocateFrame (h : PageHeap s P) (hr : onMem Mem.allocateFrame s = .ok f t) :
    Holding P s t ∧ Loose t.mem f 0 ∧ s.mem.freeFrameList = f :: t.mem.freeFrameList ∧ t.mem.pte = s.mem.pte ∧
      t.mem.table = s.mem.table := by
  obtain ⟨m, hm, rfl⟩ := onMem_ok hr
  obtain ⟨hK, hl, hpte, hfree, hloose⟩ := h.pages.allocate hm
  exact ⟨⟨h.mem hK fun v _ => by rw [hpte], fun p _ => by rw [hpte], hloose⟩, hl, hfree, hpte, allocateFrame_table hm⟩

/-- A block of the block allocator: at most one of its pages is new. -/
theorem PageHeap.allocBlock (h : PageHeap s P) {size : Nat} {r : AllocResult} {dyn : DynAlloc} {m : Mem}
    (ha : Heap.allocBlock kernelPages s.dyn s.mem size = .ok (r, dyn, m)) :
    Holding P s { s with dyn, mem := m, lock := false } := by
  obtain ⟨⟨h1, h2⟩, hm⟩ := allocBlock_pages ha
  have hrange : ∀ p ∈ P, 1015809 ≤ p ∧ p < 1048575 := fun p hp => h.range hp
  obtain ⟨live, b, hI, hP⟩ := h
  have hkeep : KPages m ∧ (∀ v, 1015809 ≤ v → m.pte (0, v) = s.mem.pte (0, v)) ∧ ∀ g r, Loose s.mem g r →
      Loose m g r := by
    rcases hm with rfl | ⟨p, hp, hget⟩
    · exact ⟨hI.pages, fun _ _ => rfl, fun _ _ h => h⟩
    obtain ⟨hva, hpage⟩ := dyn_page (show p < 8192 from hp)
    rw [show s.dyn.dynAllocStart = kernelHeapStart from hI.dynStart, hva] at hget
    have hrd : roundDown ((1007616 + p) * 4096) pageSize = (1007616 + p) * 4096 :=
      roundDown_of_dvd (by simp only [pageSize]; omega)
    have hget : getPage s.mem ((1007616 + p) * 4096) = .ok m := hget
    simp only [getPage, hrd] at hget
    cases hf : s.mem.getFrameInfo 0 ((1007616 + p) * 4096) with
    | some f =>
      rw [hf] at hget
      cases hget
      exact ⟨hI.pages, fun _ _ => rfl, fun _ _ h => h⟩
    | none =>
      rw [hf] at hget
      obtain ⟨⟨f, m₁⟩, hal, hmap⟩ := bind_ok hget
      obtain ⟨m₂, hm₂, hM, -⟩ := map_new hI.pages hpage
        (fun hh => absurd (KPages.getFrameInfo hI.pages hpage ▸ hf) hh) hal { writeable := true } rfl
      obtain rfl : m₂ = m := Except.ok.inj (hm₂.symm.trans hmap)
      have hp : p < 8192 := hp
      exact ⟨hM.pages, fun v hv => hM.same _ fun hc => by have := hc.2.2; dsimp only at this; omega, hM.loose⟩
  obtain ⟨hK, hsame, hloose⟩ := hkeep
  have hI' : KHeap.Inv ⟨{ s with dyn, mem := m, lock := false }, live⟩ b :=
    hI.congr rfl h1 h2 rfl rfl rfl hK fun v hv _ => hsame v hv
  exact ⟨⟨live, b, hI', hP⟩, fun p hp => hsame p (hrange p hp).1, hloose⟩

theorem PageHeap.holding_kmalloc (h : PageHeap s P) {size : Nat} (hsz : size ≤ 4294963200)
    (hr : Heap.kmalloc size s = .ok va t) :
    Holding P s t := by
  have hrange : ∀ p ∈ P, 1015809 ≤ p ∧ p < 1048575 := fun p hp => h.range hp
  obtain ⟨live, b, hI, hP⟩ := id h
  by_cases hbig : 2048 < size
  · have hn : pagesOf size = (size + 4095) / 4096 := roundUp_div size hsz
    have hb0 : s.kheapPageAllocBreak ≠ 0 := by
      have := hI.low
      have hb : s.kheapPageAllocBreak = b * 4096 := hI.brk
      omega
    by_cases href : s.Refuses ((size + 4095) / 4096)
    · rw [kmalloc_pages hI.lock hbig hb0, hn, if_pos href] at hr
      cases hr
      exact .refl h
    obtain ⟨p, b', hlo, hb, hb', hfree, ⟨m', hM, hrun⟩ | ⟨-, e, m', hrun⟩⟩ :=
      kmalloc_takes hI hbig hn (by omega) (by omega) href
    · rw [hrun] at hr
      cases hr
      have hI' := hI.take (by omega) hlo hb hb' hfree hM
      refine ⟨⟨_, b', hI', fun q hq => List.mem_cons_of_mem _ (hP q hq)⟩, fun q hq => ?_,
        fun g r hg => (hM.loose g r hg).withSize⟩
      show (Mem.withSize m' _ _).pte _ = _
      rw [(withSize_same _ _ _).1]
      apply hM.same (0, q)
      intro hc
      obtain ⟨hq1, hq2⟩ := hrange q hq
      exact hfree q hc.2.1 hc.2.2 ((hI.mapped q hq1 hq2).2 ⟨_, hP q hq, single_page.2 rfl⟩)
    · rw [hrun] at hr
      cases hr
  · cases kmalloc_outcome hI.pages.tables hI.start hI.brk hI.low hI.high hr with
    | null => exact .refl h
    | block hs ha hr => exact h.allocBlock ha
    | pages hs => omega

/-- A page table for user addresses is no concern of the kernel heap. -/
theorem PageHeap.linkTable (h : PageHeap s P) (hd : d ≠ 0) (ptr : Nat) : Holding P s (s.linkTable d va ptr) := by
  have hpte : ∀ v, (s.linkTable d va ptr).mem.pte (0, v) = s.mem.pte (0, v) := fun v => if_neg fun hc => hd hc.1.symm
  have hK := h.pages
  have hK' : KPages (s.linkTable d va ptr).mem := by
    constructor
    · exact hK.few
    · exact hK.freeNodup
    · exact hK.freeLt
    · exact fun v hv => linkTable_table _ _ (hK.tables v hv)
    · exact fun v hv => by rw [hpte]; exact hK.notBuffered v hv
    · exact fun v hv => by rw [hpte]; exact hK.references v hv
    · exact fun v hv => by rw [hpte]; exact hK.va v hv
    · exact fun v hv => by rw [hpte]; exact hK.notFree v hv
    · exact fun f hf h1 h2 => by rw [hpte]; exact hK.stale f hf h1 h2
  refine ⟨h.mem hK' fun v _ => hpte v, fun p _ => hpte p,
    fun g r hg => ⟨hg.lt, hg.notFree, hg.references, fun v hv => ?_⟩⟩
  rw [hpte]
  exact hg.unmapped v hv

theorem PageHeap.createPageTable (h : PageHeap s P) (hd : d ≠ 0) (hr : Heap.createPageTable d va s = .ok () t) :
    Holding P s t := by
  unfold Heap.createPageTable at hr
  obtain ⟨ptr, u, hk, hr⟩ := ok_of_bind hr
  have hu := h.holding_kmalloc (by decide) hk
  split at hr
  · obtain ⟨_, _, hr, -⟩ := ok_of_bind hr
    cases hr
  cases hr
  exact hu.trans (hu.heap.linkTable hd ptr)

/-- The references of a frame that is held change, or the address it is known by, to none of the kernel heap. -/
theorem PageHeap.setFrame (h : PageHeap s P) {r : Nat} (hf : Loose s.mem f r) {i : FrameInfo}
    (hi : i.va = (s.mem.framesInfo f).va ∨ i.va < kernelHeapStart) :
    PageHeap { s with mem := s.mem.setFrame f i } P ∧ Loose (s.mem.setFrame f i) f i.references ∧
      ∀ g r', g ≠ f → Loose s.mem g r' → Loose (s.mem.setFrame f i) g r' := by
  have hK := h.pages
  have hne : ∀ v, HeapPage v → ∀ g, (s.mem.pte (0, v)).held = some g → g ≠ f := fun v hv g hg he =>
    hf.unmapped v hv (he ▸ hg)
  refine ⟨h.mem ?_ fun _ _ => rfl, ⟨hf.lt, hf.notFree, ?_, hf.unmapped⟩,
    fun g r' hg hl => ⟨hl.lt, hl.notFree, ?_, hl.unmapped⟩⟩
  · constructor
    · exact hK.few
    · exact hK.freeNodup
    · exact hK.freeLt
    · exact hK.tables
    · exact hK.notBuffered
    · intro v hv g hg
      rw [Mem.setFrame_info, if_neg (hne v hv g hg)]
      exact hK.references v hv g hg
    · intro v hv g hg
      rw [Mem.setFrame_info, if_neg (hne v hv g hg)]
      exact hK.va v hv g hg
    · exact hK.notFree
    · intro g hg h1 h2
      have hva : ((s.mem.setFrame f i).framesInfo g).va = (s.mem.framesInfo g).va := by
        rw [Mem.setFrame_info] at h1 ⊢
        split
        · rename_i hgf
          rw [if_pos hgf] at h1
          rw [hgf]
          exact hi.resolve_right (not_lt.2 h1)
        · rfl
      rw [hva] at h1 h2 ⊢
      exact hK.stale g hg h1 h2
  · rw [Mem.setFrame_info, if_pos rfl]
  · rw [Mem.setFrame_info, if_neg hg]
    exact hl.references

theorem PageHeap.setUserPte (h : PageHeap s P) (hd : d ≠ 0) (e : Pte) :
    Holding P s { s with mem := s.mem.setPte (d, v) e } := by
  have hne : ∀ w, ((0, w) : Nat × Nat) ≠ (d, v) := fun w hc => hd (congrArg Prod.fst hc).symm
  refine ⟨h.setPte (fun w _ => (hne w).symm) e, fun p _ => ?_,
    fun g r hg => ⟨hg.lt, hg.notFree, hg.references, fun w hw => ?_⟩⟩
  · rw [Mem.setPte_pte, if_neg (hne p)]
  · rw [Mem.setPte_pte, if_neg (hne w)]
    exact hg.unmapped w hw

end Holding

end Fos.Heap
