/-
Calls of the kernel heap that return: a request for pages that is not refused, with a frame for each page,
and how many frames a call takes.
-/
import Fos.Memory.UserPages

namespace Fos.Heap

open Fos.Lib Fos.Memory

section Returns

variable {m m' : Mem} {s t : Kernel} {va size : Nat}

theorem decrement_free (m : Mem) (f : Nat) :
    m.freeFrameList.length ≤ (m.decrementReferences f).freeFrameList.length := by
  simp only [Mem.decrementReferences]
  split
  · exact Nat.le_succ _
  · exact le_rfl

theorem enterFrame_free (m : Mem) (d f va : Nat) (perm : Perm) :
    m.freeFrameList.length ≤ (m.enterFrame d f va perm).freeFrameList.length := by
  simp only [Mem.enterFrame]
  split
  · split
    · exact le_rfl
    · show m.freeFrameList.length ≤ (m.unmapFrame d va).freeFrameList.length
      unfold Mem.unmapFrame
      split
      · exact le_rfl
      · rw [Mem.setPte_free]
        exact decrement_free m _
  · exact le_rfl

theorem allocateFrame_returns (h : 0 < m.freeFrameList.length) :
    ∃ f m', m.allocateFrame = .ok (f, m') ∧ m'.table = m.table ∧ m'.freeFrameList.length + 1 = m.freeFrameList.length ∧
      m'.pte = m.pte := by
  obtain ⟨f, rest, hl⟩ := List.exists_cons_of_length_pos h
  refine ⟨f, { m with freeFrameList := rest }.setFrame f {}, by rw [Mem.allocateFrame, hl], rfl, ?_, rfl⟩
  rw [hl, List.length_cons]
  rfl

theorem getPage_returns {m : Mem} {v : Nat} (h : HeapTables m) (hv : HeapPage v) (hfree : 0 < m.freeFrameList.length) :
    ∃ m', getPage m (v * 4096) = .ok m' ∧ HeapTables m' ∧ m.freeFrameList.length ≤ m'.freeFrameList.length + 1 := by
  have hrd : roundDown (v * 4096) pageSize = v * 4096 := roundDown_of_dvd (by simp only [pageSize]; omega)
  simp only [getPage, hrd]
  cases hg : m.getFrameInfo 0 (v * 4096) with
  | some f => exact ⟨m, rfl, h, Nat.le_succ _⟩
  | none =>
    obtain ⟨f, m₁, ha, ht₁, hl₁, -⟩ := allocateFrame_returns hfree
    have htab : (m₁.table 0 (pdx (v * 4096))).isSome := by rw [ht₁, pdx_page]; exact h v hv
    have hmap : mapKernelFrame m₁ f (v * 4096) { writeable := true } =
        .ok ((m₁.setFrameVa f (v * 4096)).enterFrame 0 f (v * 4096) { writeable := true }) := by
      simp only [mapKernelFrame]
      exact if_pos htab
    refine ⟨_, by simp only [ha, ok_bind]; exact hmap, fun w hw => ?_, ?_⟩
    · rw [mapKernelFrame_table hmap, ht₁]
      exact h w hw
    · have := enterFrame_free (m₁.setFrameVa f (v * 4096)) 0 f (v * 4096) { writeable := true }
      have hva : (m₁.setFrameVa f (v * 4096)).freeFrameList = m₁.freeFrameList := rfl
      rw [hva] at this
      omega

/-- The loop of `kmalloc` with a frame for each page. -/
theorem mapPages_returns : ∀ (n v : Nat) (s : Kernel), HeapTables s.mem → v + n ≤ 1048575 → 1007616 ≤ v →
    n ≤ s.mem.freeFrameList.length → ∃ t, mapPages (v * 4096) n s = .ok () t ∧
      s.mem.freeFrameList.length ≤ t.mem.freeFrameList.length + n
  | 0, _, s, _, _, _, _ => ⟨s, rfl, le_rfl⟩
  | n + 1, v, s, h, hhi, hlo, hfree => by
    have hv : HeapPage v := ⟨hlo, by omega⟩
    obtain ⟨f, m₁, ha, ht₁, hl₁, -⟩ := allocateFrame_returns (by omega : 0 < s.mem.freeFrameList.length)
    have htab : (m₁.table 0 (pdx (v * 4096))).isSome := by rw [ht₁, pdx_page]; exact h v hv
    obtain ⟨m₂, hm₂, hl₂⟩ : ∃ m₂, mapKernelFrame m₁ f (v * 4096) { writeable := true, present := true } = .ok m₂ ∧
        m₁.freeFrameList.length ≤ m₂.freeFrameList.length := by
      refine ⟨_, by simp only [mapKernelFrame]; exact if_pos htab, ?_⟩
      exact enterFrame_free (m₁.setFrameVa f (v * 4096)) 0 f (v * 4096) _
    have hready : HeapTables m₂ := by
      intro w hw
      rw [mapKernelFrame_table hm₂, ht₁]; exact h w hw
    obtain ⟨t, ht, hlen⟩ := mapPages_returns n (v + 1) { s with mem := m₂ } hready (by omega) (by omega)
      (show n ≤ m₂.freeFrameList.length by omega)
    have h1 : onMem Mem.allocateFrame s = .ok f { s with mem := m₁ } := by simp only [onMem, ha]
    have h2 : onMem (fun m => return ((), ← mapKernelFrame m f (v * 4096) { writeable := true, present := true }))
        { s with mem := m₁ } = .ok () { s with mem := m₂ } := by
      simp only [onMem, hm₂]; rfl
    refine ⟨t, ?_, ?_⟩
    · unfold mapPages
      rw [bind_of_ok h1, bind_of_ok h2, add_page hv.2]
      exact ht
    · change m₂.freeFrameList.length ≤ _ at hlen
      omega

/-- A `kmalloc` of pages that is not refused and has a frame for each. -/
theorem kmalloc_returns (size : Nat) (h : HeapReady s) (hl : s.lock = false) (hs : 2048 < size)
    (hr : ¬ s.Refuses (pagesOf size)) (hfree : pagesOf size ≤ s.mem.freeFrameList.length) :
    ∃ va t, kmalloc size s = .ok va t ∧ va ≠ 0 ∧ s.mem.freeFrameList.length ≤ t.mem.freeFrameList.length +
      pagesOf size := by
  obtain ⟨b, hb, hlow, hhigh⟩ := h.heap.brk
  have hn1 := pagesOf_lt size
  obtain ⟨hmul, hgrown, hend⟩ := not_refused hb hhigh hn1 hr
  have hsize : ∀ m va sz, (Mem.withSize m va sz).freeFrameList = m.freeFrameList :=
    fun m va sz => (withSize_same m va sz).2.2.1
  rw [kmalloc_pages hl hs (by omega), if_neg hr]
  by_cases hf : fitAddress s (pagesOf size) ≠ 0
  · obtain ⟨p, hp, hH⟩ := fitAddress_hole h.heap.tables (by omega) hlow (by omega) h.heap.start hb hf
    have hlo := hH.lo
    have hhi := hH.hi
    obtain ⟨t, ht, hlen⟩ := mapPages_returns (pagesOf size) p s.locked h.heap.tables (by omega) (by omega) hfree
    obtain ⟨m', rfl⟩ := mapPages_mem ht
    rw [if_pos hf, hp, bind_of_ok ht, record_done rfl hn1]
    exact ⟨_, _, rfl, by omega, by rw [hsize]; exact hlen⟩
  · obtain ⟨t, ht, hlen⟩ := mapPages_returns (pagesOf size) b s.locked h.heap.tables (by omega) (by omega) hfree
    obtain ⟨m', rfl⟩ := mapPages_mem ht
    rw [if_neg hf, hb, bind_of_ok ht, bind_of_ok (modify_eq _ _), record_done rfl hn1]
    exact ⟨_, _, rfl, by omega, by rw [hsize]; exact hlen⟩

/-- A block takes at most one frame. -/
theorem kmalloc_block_free (h : HeapReady s) (hs : size ≤ 2048) (hr : kmalloc size s = .ok va t) :
    s.mem.freeFrameList.length ≤ t.mem.freeFrameList.length + 1 ∧ t.lock = false ∧
      t.kheapPageAllocBreak = s.kheapPageAllocBreak := by
  have hl : s.lock = false := lock_free hr
  obtain ⟨b, hb, hlow, hhigh⟩ := h.heap.brk
  cases kmalloc_outcome h.heap.tables h.heap.start hb hlow hhigh hr with
  | null => exact ⟨Nat.le_succ _, hl, rfl⟩
  | @block r dyn m' va hs ha hr =>
    refine ⟨?_, rfl, rfl⟩
    obtain ⟨-, rfl | ⟨p, hp, hget⟩⟩ := allocBlock_pages ha
    · exact Nat.le_succ _
    · simp only [kernelPages, getPage] at hget
      split at hget
      · cases hget; exact Nat.le_succ _
      · obtain ⟨⟨f, m₁⟩, hf, hm⟩ := bind_ok hget
        simp only [mapKernelFrame] at hm
        split at hm
        · cases hm
          have hlen := enterFrame_free (m₁.setFrameVa f
            (roundDown (add32 s.dyn.dynAllocStart (mul32 p pageSize)) pageSize)) 0 f
            (roundDown (add32 s.dyn.dynAllocStart (mul32 p pageSize)) pageSize) { writeable := true }
          have hcons := (allocateFrame_ok hf).1
          have : s.mem.freeFrameList.length = m₁.freeFrameList.length + 1 := by rw [hcons]; rfl
          exact this.le.trans (Nat.succ_le_succ hlen)
        · cases hm
  | pages hbig => omega

end Returns

end Fos.Heap
