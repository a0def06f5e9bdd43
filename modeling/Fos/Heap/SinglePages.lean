/-
Kernel code that takes single pages from `kmalloc` and gives them back: as long as it holds a page, the
page keeps its frame, whatever else is taken and given back.
-/
import Fos.Heap.InverseMap
import Fos.Memory.UserPages

namespace Fos.Heap

open Fos.Memory Fos.Lib Fos.Lib.Extent

/-! ## Pages that are held -/

/-- The page allocator is in order, and each page of `P` is an allocation of its own. -/
def PageHeap (s : Kernel) (P : Set Nat) : Prop :=
  ∃ live b, KHeap.Inv ⟨s, live⟩ b ∧ ∀ p ∈ P, Extent.mk (p * 4096) 4096 ∈ live

theorem single_page {p v : Nat} : (Extent.mk (p * 4096) 4096).Has (v * 4096) ↔ v = p := by
  simp only [Has, fin]; omega

/-- Entries outside the kernel heap are no concern of it. -/
theorem KPages.setPte {m : Mem} (h : KPages m) {a : Nat × Nat} (ha : ∀ v, HeapPage v → a ≠ (0, v)) (e : Pte) :
    KPages (m.setPte a e) := by
  have hsame : ∀ v, HeapPage v → (m.setPte a e).pte (0, v) = m.pte (0, v) := by
    intro v hv
    rw [Mem.setPte_pte, if_neg (ha v hv).symm]
  constructor
  · exact h.few
  · exact h.freeNodup
  · exact h.freeLt
  · exact h.tables
  · exact fun v hv => by rw [hsame v hv]; exact h.notBuffered v hv
  · exact fun v hv => by rw [hsame v hv]; exact h.references v hv
  · exact fun v hv => by rw [hsame v hv]; exact h.va v hv
  · exact fun v hv => by rw [hsame v hv]; exact h.notFree v hv
  · intro g hg h1 h2
    rw [Mem.setPte_info] at *
    obtain ⟨h3, h4⟩ := h.stale g hg h1 h2
    simp only [kernelHeapStart, kernelHeapMax] at h1 h2
    exact ⟨h3, by rw [hsame _ ⟨by omega, by omega⟩]; exact h4⟩

theorem physical_page {s : Kernel} {p : Nat} (h : KPages s.mem) (hp : HeapPage p)
    (hpres : (s.mem.pte (0, p)).perm.present = true) :
    kheapPhysicalAddress s (p * 4096) / 4096 = (s.mem.pte (0, p)).frame := by
  have hdiv : p * 4096 / 4096 = p := by omega
  have hlt := (h.notFree p hp _ (held_of_present hpres)).2
  have hfew := h.few
  rw [physical_eq (by rwa [hdiv]) (by rw [hdiv]; exact h.tables p hp) (by rwa [hdiv])
    (by rw [hdiv]; exact hlt.trans hfew), hdiv, Nat.mul_mod_left, Nat.add_zero,
    Nat.mul_div_cancel _ (show 0 < 4096 by decide)]

section PageHeap

variable {s t : Kernel} {P Q : Set Nat} {p f va : Nat}

theorem PageHeap.mono (h : PageHeap s P) (hQ : Q ⊆ P) : PageHeap s Q := by
  obtain ⟨live, b, hI, hP⟩ := h
  exact ⟨live, b, hI, fun p hp => hP p (hQ hp)⟩

theorem kheapInit_pages {s₀ : Kernel} (hboot : Booted s₀.mem) (hinit : kheapInit s₀ = .ok s) : PageHeap s ∅ :=
  ⟨[], _, kheapInit_inv hboot hinit, fun _ hp => absurd hp (Set.notMem_empty _)⟩

theorem PageHeap.range (h : PageHeap s P) (hp : p ∈ P) : 1015809 ≤ p ∧ p < 1048575 := by
  obtain ⟨live, b, hI, hP⟩ := h
  have hf := hI.packed.fits _ (hP p hp)
  have hlo := hf.lo
  have hhi := hf.hi
  have hhigh := hI.high
  simp only [fin] at hlo hhi
  omega

theorem PageHeap.ready (h : PageHeap s P) : HeapReady s := by
  obtain ⟨live, b, hI, -⟩ := h
  exact inv_ready hI

/-- The frame of a page leads back to the page. -/
theorem PageHeap.virtual (h : PageHeap s P) (hp : p ∈ P) (hf : (s.mem.pte (0, p)).held = some f) :
    kheapVirtualAddress s (f * 4096) = p * 4096 := by
  obtain ⟨hlo, hhi⟩ := h.range hp
  obtain ⟨live, b, hI, -⟩ := h
  have hpage : HeapPage p := ⟨by omega, by omega⟩
  have hdiv : f * 4096 / 4096 = f := by omega
  rw [virtual_eq hI.pages.few hpage (by rw [hdiv]; exact (hI.pages.notFree p hpage f hf).2)
    (by rw [hdiv]; exact hI.pages.va p hpage f hf)]
  omega

/-- Entries of user pages are no concern of the page allocator. -/
theorem PageHeap.setPte (h : PageHeap s P) {a : Nat × Nat} (ha : ∀ v, HeapPage v → a ≠ (0, v)) (e : Pte) :
    PageHeap { s with mem := s.mem.setPte a e } P := by
  obtain ⟨live, b, hI, hP⟩ := h
  have hsame : ∀ v, HeapPage v → (s.mem.setPte a e).pte (0, v) = s.mem.pte (0, v) := by
    intro v hv
    rw [Mem.setPte_pte, if_neg (ha v hv).symm]
  have hold : ∀ v, HeapPage v → (HoldsPage (s.mem.setPte a e) v ↔ HoldsPage s.mem v) := by
    intro v hv
    rw [HoldsPage, HoldsPage, hsame v hv]
  refine ⟨live, b, ?_, hP⟩
  constructor
  · exact hI.lock
  · exact hI.dynStart
  · exact hI.dynEnd
  · exact hI.start
  · exact hI.brk
  · exact hI.low
  · exact hI.high
  · exact hI.pages.setPte ha e
  · exact hI.packed
  · intro v h1 h2
    exact (hold v ⟨by omega, by omega⟩).trans (hI.mapped v h1 h2)
  · have hlow := hI.low
    have hhigh := hI.high
    exact hI.tight.imp_right fun h => (hold _ ⟨by omega, by omega⟩).2 h
  · exact hI.sizes

/-- One page from `kmalloc`. -/
theorem PageHeap.kmalloc (h : PageHeap s P) (hr : Heap.kmalloc pageSize s = .ok va t) (hne : va ≠ 0) :
    ∃ p f, p ∉ P ∧ va = p * 4096 ∧ PageHeap t (insert p P) ∧ (t.mem.pte (0, p)).held = some f ∧
      kheapPhysicalAddress t va / 4096 = f ∧ ∀ v, v ≠ p → t.mem.pte (0, v) = s.mem.pte (0, v) := by
  obtain ⟨live, b, hI, hP⟩ := h
  have hb0 : s.kheapPageAllocBreak ≠ 0 := by
    have := hI.low
    rw [hI.brk]; omega
  have hn : pagesOf pageSize = 1 := by decide
  by_cases href : s.Refuses 1
  · rw [kmalloc_pages hI.lock (by decide) hb0, hn, if_pos href] at hr
    cases hr
    exact absurd rfl hne
  obtain ⟨p, b', hlo, hb, hb', hfree, ⟨m', hM, hrun⟩ | ⟨-, e, m', hrun⟩⟩ :=
    kmalloc_takes hI (show 2048 < pageSize by decide) hn (by decide) (by decide) href
  · rw [hrun] at hr
    cases hr
    have hI' := hI.take (by decide) hlo hb hb' hfree hM
    have hpte : (Mem.withSize m' (p * 4096) (1 * 4096)).pte = m'.pte := (withSize_same _ _ _).1
    have hpage : HeapPage p := ⟨by omega, by omega⟩
    have hpres := (hM.held p le_rfl (by omega)).2
    rw [← hpte] at hpres
    refine ⟨p, _, ?_, rfl, ⟨_, b', hI', ?_⟩, held_of_present hpres, physical_page hI'.pages hpage hpres, ?_⟩
    · intro hp
      exact hfree p le_rfl (by omega) ((hI.mapped p hlo (by omega)).2 ⟨_, hP p hp, single_page.2 rfl⟩)
    · intro q hq
      rcases Set.mem_insert_iff.1 hq with rfl | hq
      · exact List.mem_cons_self
      · exact List.mem_cons_of_mem _ (hP q hq)
    · intro v hv
      rw [hpte]
      exact hM.same (0, v) fun hc => hv (by omega)
  · rw [hrun] at hr
    cases hr

/-- A page given back to `kfree`. -/
theorem PageHeap.kfree (h : PageHeap s P) (hp : p ∈ P) :
    ∃ t, Heap.kfree (p * 4096) s = .ok () t ∧ PageHeap t (P \ {p}) ∧
      ∀ v, v ≠ p → t.mem.pte (0, v) = s.mem.pte (0, v) := by
  obtain ⟨live, b, hI, hP⟩ := h
  have hmem := hP p hp
  obtain ⟨t, b', hrun, hI', hsame⟩ := kfree_inv hI (List.perm_cons_erase hmem)
  refine ⟨t, hrun, ⟨_, b', hI', ?_⟩, ?_⟩
  · rintro q ⟨hq, hqp⟩
    have hne : Extent.mk (q * 4096) 4096 ≠ Extent.mk (p * 4096) 4096 := by
      intro hc
      rw [Extent.mk.injEq] at hc
      exact hqp (Set.mem_singleton_iff.2 (by omega))
    exact (List.mem_erase_of_ne hne).2 (hP q hq)
  · exact fun v hv => hsame v fun hc => hv (single_page.1 hc)

end PageHeap

end Fos.Heap
