/-
What the calls of the kernel heap do to the pages: they map and unmap pages of the heap, one at a time
and with frames of their own, and leave every other entry and every frame off the free list alone.
-/
import Fos.Heap.KernelHeapRun

namespace Fos.Heap

open Fos.Memory Fos.Lib

/-! ## The outcomes of `kmalloc` -/

/-- What a `kmalloc` that returned did: nothing, a request to the block allocator, or pages mapped in a
hole or at the break. -/
inductive Kmallocs (size : Nat) (s : Kernel) : Nat → Kernel → Prop
  | null : Kmallocs size s 0 s
  | block {r : AllocResult} {dyn : DynAlloc} {m' : Mem} {va : Nat} (hs : 0 < size ∧ size ≤ 2048)
      (ha : allocBlock kernelPages s.dyn s.mem size = .ok (r, dyn, m'))
      (hr : r = .null ∧ va = 0 ∨ r = .block va) : Kmallocs size s va { s with dyn, mem := m', lock := false }
  | pages {p b : Nat} {m' : Mem} (hs : 2048 < size) (hp : ∀ i < pagesOf size, HeapPage (p + i)) (hlow : 1015809 ≤ p)
      (hb : 1015809 ≤ b ∧ b < 1048575) (hn : pagesOf size ≤ 32768)
      (hm : mapPages (p * 4096) (pagesOf size) s.locked = .ok () { s.locked with mem := m' })
      (hbrk : s.kheapPageAllocBreak ≤ b * 4096) (hend : p + pagesOf size ≤ b)
      (hfresh : ∀ w, p ≤ w → w < p + pagesOf size → HoldsPage s.mem w → s.kheapPageAllocBreak ≤ w * 4096) :
      Kmallocs size s (p * 4096) { s with
        mem := Mem.withSize m' (p * 4096) (pagesOf size * 4096)
        kheapPageAllocBreak := b * 4096
        allocatedSize := s.allocatedSize.fill p (pagesOf size) (pagesOf size * 4096)
        lock := false }

section Outcomes

variable {s t : Kernel} {size va b : Nat}

theorem mapPages_mem : ∀ {n va : Nat} {s t : Kernel}, mapPages va n s = .ok () t → ∃ m', t = { s with mem := m' }
  | 0, _, s, _, h => by cases h; exact ⟨s.mem, rfl⟩
  | n + 1, va, s, t, h => by
    unfold mapPages at h
    obtain ⟨f, u, h1, h⟩ := ok_of_bind h
    obtain ⟨_, v, h2, h⟩ := ok_of_bind h
    unfold onMem at h1 h2
    split at h1 <;> cases h1
    split at h2 <;> cases h2
    obtain ⟨m', rfl⟩ := mapPages_mem h
    exact ⟨m', rfl⟩

theorem kmalloc_outcome (ht : HeapTables s.mem) (hst : s.kheapPageAllocStart = 1015809 * 4096)
    (hb : s.kheapPageAllocBreak = b * 4096) (hlow : 1015809 ≤ b) (hhigh : b < 1048575)
    (hr : kmalloc size s = .ok va t) : Kmallocs size s va t := by
  have hl : s.lock = false := lock_free hr
  rcases Nat.eq_zero_or_pos size with rfl | hpos
  · rw [kmalloc_empty hl] at hr
    cases hr
    exact .null
  by_cases hs : size ≤ 2048
  · rw [kmalloc_block hl hpos hs] at hr
    obtain ⟨va', r, ha, hr⟩ := ok_of_bind hr
    obtain ⟨_, r', hrel, hr⟩ := ok_of_bind hr
    obtain rfl := releaseLock_ok hrel
    cases hr
    simp only [kallocBlock] at ha
    split at ha
    · rename_i ha'
      cases ha
      exact .block ⟨hpos, hs⟩ ha' (.inl ⟨rfl, rfl⟩)
    · rename_i ha'
      cases ha
      exact .block ⟨hpos, hs⟩ ha' (.inr rfl)
    · cases ha
    · cases ha
  · rw [kmalloc_pages hl (by omega) (by omega)] at hr
    split at hr
    · cases hr; exact .null
    · rename_i hnr
      have hn1 := pagesOf_lt size
      obtain ⟨hmul, hgrown, hend⟩ := not_refused hb hhigh hn1 hnr
      split at hr
      · rename_i hf
        obtain ⟨p, hp, hH⟩ := fitAddress_hole ht (by omega) hlow (by omega) hst hb hf
        have hlo := hH.lo
        have hhi := hH.hi
        rw [hp] at hr
        obtain ⟨_, u, hm, hr⟩ := ok_of_bind hr
        obtain ⟨m', rfl⟩ := mapPages_mem hm
        rw [record_done rfl hn1] at hr
        cases hr
        have := Kmallocs.pages (by omega) (fun i hi => ⟨by omega, by omega⟩) hlo ⟨hlow, hhigh⟩ (by omega) hm (by omega)
          (by omega) fun w h1 h2 hw => absurd hw (hH.free w h1 h2)
        rwa [← hb] at this
      · rw [hgrown, hb] at hr
        obtain ⟨_, u, hm, hr⟩ := ok_of_bind hr
        obtain ⟨m', rfl⟩ := mapPages_mem hm
        rw [bind_of_ok (modify_eq _ _), record_done rfl hn1] at hr
        cases hr
        exact .pages (by omega) (fun i hi => ⟨by omega, by omega⟩) hlow ⟨by omega, hend⟩ (by omega) hm (by omega) le_rfl
          fun w h1 _ _ => by omega

end Outcomes

/-! ## What the calls do to the pages -/

/-- Only entries of the kernel heap's pages changed, and no page table. -/
structure Within (m m' : Mem) : Prop where
  table : m'.table = m.table
  pte : ∀ a : Nat × Nat, ¬ (a.1 = 0 ∧ HeapPage a.2) → m'.pte a = m.pte a

section Within

variable {m m₁ m' : Mem} {v : Nat}

theorem Within.refl (m : Mem) : Within m m := ⟨rfl, fun _ _ => rfl⟩

theorem Within.trans (h : Within m m₁) (h' : Within m₁ m') : Within m m' :=
  ⟨h'.table.trans h.table, fun a ha => (h'.pte a ha).trans (h.pte a ha)⟩

theorem unmapFrame_pte (m : Mem) (d va : Nat) {a : Nat × Nat} (ha : a ≠ slot d va) :
    (m.unmapFrame d va).pte a = m.pte a := by
  unfold Mem.unmapFrame
  split
  · rfl
  · rw [Mem.setPte_pte, if_neg ha, (Mem.decrementReferences_same _ _).2.1]

theorem enterFrame_pte (m : Mem) (d f va : Nat) (perm : Perm) {a : Nat × Nat} (ha : a ≠ slot d va) :
    (m.enterFrame d f va perm).pte a = m.pte a := by
  simp only [Mem.enterFrame]
  split
  · split
    · rfl
    · rw [Mem.linkFrame, Mem.setPte_pte, if_neg ha, Mem.setFrame_pte, unmapFrame_pte m d va ha]
  · rw [Mem.linkFrame, Mem.setPte_pte, if_neg ha, Mem.setFrame_pte]

theorem allocateFrame_within {f : Nat} (h : m.allocateFrame = .ok (f, m')) : Within m m' := by
  unfold Mem.allocateFrame at h
  split at h <;> cases h
  exact ⟨rfl, fun _ _ => rfl⟩

theorem mapKernelFrame_within {f : Nat} {perm : Perm} (hv : HeapPage v)
    (h : mapKernelFrame m f (v * 4096) perm = .ok m') : Within m m' := by
  refine ⟨mapKernelFrame_table h, fun a ha => ?_⟩
  simp only [mapKernelFrame] at h
  split at h
  · obtain rfl := Except.ok.inj h
    refine enterFrame_pte _ 0 f _ perm fun he => ha ?_
    rw [he, slot_page]
    exact ⟨rfl, hv⟩
  · cases h

theorem withSize_within (m : Mem) (va size : Nat) : Within m (Mem.withSize m va size) := by
  obtain ⟨hp, ht, -⟩ := withSize_same m va size
  exact ⟨ht, fun a _ => by rw [hp]⟩

theorem getPage_within (hv : HeapPage v) (h : getPage m (v * 4096) = .ok m') : Within m m' := by
  have hrd : roundDown (v * 4096) pageSize = v * 4096 := roundDown_of_dvd (by simp only [pageSize]; omega)
  simp only [getPage, hrd] at h
  split at h
  · cases h; exact .refl m
  · obtain ⟨⟨f, m₁⟩, ha, hm⟩ := bind_ok h
    exact (allocateFrame_within ha).trans (mapKernelFrame_within hv hm)

/-- One page of the loop of `kmalloc`. -/
theorem mapPages_succ {n : Nat} {s t : Kernel} (hv : HeapPage v) (h : mapPages (v * 4096) (n + 1) s = .ok () t) :
    ∃ m', Within s.mem m' ∧ mapPages ((v + 1) * 4096) n { s with mem := m' } = .ok () t := by
  unfold mapPages at h
  obtain ⟨f, u, h1, h⟩ := ok_of_bind h
  obtain ⟨_, u', h2, h⟩ := ok_of_bind h
  unfold onMem at h1 h2
  split at h1
  · rename_i m₁ ha
    cases h1
    split at h2
    · rename_i m₂ hm
      cases h2
      obtain ⟨m₃, hm₃, he⟩ := bind_ok hm
      cases he
      rw [add_page hv.2] at h
      exact ⟨_, (allocateFrame_within ha).trans (mapKernelFrame_within hv hm₃), h⟩
    · cases h2
  · cases h1

theorem mapPages_within {n v : Nat} {s t : Kernel} (hv : ∀ i < n, HeapPage (v + i))
    (h : mapPages (v * 4096) n s = .ok () t) : Within s.mem t.mem := by
  induction n generalizing v s with
  | zero =>
    cases h
    exact .refl _
  | succ n ih =>
    have hv0 : HeapPage v := hv 0 (Nat.succ_pos n)
    obtain ⟨m', hw, h⟩ := mapPages_succ hv0 h
    have hrest : Within m' t.mem := ih (fun i hi => by
      have := hv (i + 1) (by omega)
      rwa [show v + (i + 1) = v + 1 + i by omega] at this) h
    exact hw.trans hrest

end Within

/-- Pages of the kernel heap were mapped and unmapped, one at a time and with frames of their own: a page that
holds a frame is present, or as it was. -/
structure Evolves (m m' : Mem) : Prop where
  pages : KPages m'
  present : ∀ v, HeapPage v → HoldsPage m' v → (m'.pte (0, v)).perm.present = true ∨ m'.pte (0, v) = m.pte (0, v)
  loose : ∀ g r, Loose m g r → Loose m' g r
  table : m'.table = m.table
  outside : ∀ a : Nat × Nat, ¬ (a.1 = 0 ∧ HeapPage a.2) → m'.pte a = m.pte a

section Evolves

variable {m m₁ m' : Mem} {v n : Nat}

theorem Evolves.refl (h : KPages m) : Evolves m m := ⟨h, fun _ _ _ => .inr rfl, fun _ _ hg => hg, rfl, fun _ _ => rfl⟩

theorem Evolves.trans (h : Evolves m m₁) (h' : Evolves m₁ m') : Evolves m m' :=
  ⟨h'.pages, fun v hv hh => (h'.present v hv hh).elim .inl fun he =>
      (h.present v hv (by rwa [HoldsPage, he] at hh)).imp (he ▸ ·) he.trans,
    fun g r hg => h'.loose g r (h.loose g r hg), h'.table.trans h.table,
      fun a ha => (h'.outside a ha).trans (h.outside a ha)⟩

theorem Evolves.presentBut {G : Set Nat} (h : Evolves m m') (hp : PresentBut G m) : PresentBut G m' := fun v hG hv hh =>
  (h.present v hv hh).elim id fun he => by
    rw [HoldsPage, he] at hh
    rw [he]
    exact hp v hG hv hh

theorem Evolves.allPresent (h : Evolves m m') (hp : AllPresent m) : AllPresent m' :=
  presentBut_empty.1 (h.presentBut (presentBut_empty.2 hp))

theorem Mapped.evolves (h : Mapped m v n m') (hv : ∀ i < n, HeapPage (v + i)) : Evolves m m' := by
  refine ⟨h.pages, fun w hw hheld => ?_, h.loose, h.table, fun a ha => h.same a ?_⟩
  · by_cases hin : v ≤ w ∧ w < v + n
    · exact .inl (h.held w hin.1 hin.2).2
    · exact .inr (h.same (0, w) fun hc => hin hc.2)
  · rintro ⟨h0, h1, h2⟩
    have := hv (a.2 - v) (by omega)
    rw [Nat.add_sub_cancel' h1] at this
    exact ha ⟨h0, this⟩

theorem KPages.evolves_unmap (h : KPages m) (hv : HeapPage v) : Evolves m (m.unmapFrame 0 (v * 4096)) := by
  obtain ⟨hK, hsame, hnone, -, hloose⟩ := h.unmap hv
  refine ⟨hK, fun w hw hheld => .inr (hsame _ ?_), hloose, (Mem.unmapFrame_same m 0 _).1, fun a ha => hsame a ?_⟩
  · rintro he
    rw [HoldsPage, he] at hheld
    exact hheld hnone
  · rintro rfl
    exact ha ⟨rfl, hv⟩

theorem KPages.evolves_size (h : KPages m) {va size : Nat} : Evolves m (Mem.withSize m va size) := by
  obtain ⟨hp, ht, -⟩ := withSize_same m va size
  exact ⟨h.withSize, fun _ _ _ => .inr (by rw [hp]), fun g r hg => hg.withSize, ht, fun a _ => by rw [hp]⟩

theorem KPages.evolves_get (h : KPages m) (hv : HeapPage v) (hg : getPage m (v * 4096) = .ok m') : Evolves m m' := by
  have hrd : roundDown (v * 4096) pageSize = v * 4096 := roundDown_of_dvd (by simp only [pageSize]; omega)
  simp only [getPage, hrd] at hg
  cases hf : m.getFrameInfo 0 (v * 4096) with
  | some f =>
    rw [hf] at hg
    obtain rfl := Except.ok.inj hg
    exact .refl h
  | none =>
    rw [hf] at hg
    obtain ⟨⟨f, m₁⟩, ha, hm⟩ := bind_ok hg
    obtain ⟨m₂, hm₂, hM, -⟩ := map_new h hv (fun hh => absurd (h.getFrameInfo hv ▸ hf) hh) ha { writeable := true } rfl
    obtain rfl : m₂ = m' := Except.ok.inj (hm₂.symm.trans hm)
    exact hM.evolves fun i hi => by
      obtain rfl : i = 0 := by omega
      exact hv

theorem KPages.evolves_return (h : KPages m) (hv : HeapPage v) (hr : returnPage m (v * 4096) = .ok m') :
    Evolves m m' := by
  have hrd : roundDown (v * 4096) pageSize = v * 4096 := roundDown_of_dvd (by simp only [pageSize]; omega)
  simp only [returnPage, hrd] at hr
  obtain rfl := Except.ok.inj hr
  exact h.evolves_unmap hv

end Evolves

/-! ### The block allocator's pages -/

theorem dyn_page {p : Nat} (hp : p < 8192) : add32 kernelHeapStart (mul32 p pageSize) = (1007616 + p) * 4096 ∧
    HeapPage (1007616 + p) := by
  have h1 : mul32 p pageSize = p * 4096 := mul32_of_lt (by simp only [pageSize]; omega)
  rw [h1, kernelHeapStart, add32_of_lt (by omega)]
  exact ⟨by omega, by omega, by omega⟩

section Blocks

variable {M : Type} {src : PageSource M} {s s' : DynAlloc} {m m' : M}

theorem takeFirst_area {i : Nat} {r : AllocResult} (h : takeFirst s i = .ok (r, s')) :
    s'.dynAllocStart = s.dynAllocStart ∧ s'.dynAllocEnd = s.dynAllocEnd := by
  unfold takeFirst at h
  split at h
  · cases h
  · obtain ⟨p, -, h⟩ := bind_ok h
    cases h
    exact ⟨rfl, rfl⟩

/-- `alloc_block` keeps its area, and gets at most one page of it. -/
theorem allocBlock_pages {size : Nat} {r : AllocResult} (h : allocBlock src s m size = .ok (r, s', m')) :
    (s'.dynAllocStart = s.dynAllocStart ∧ s'.dynAllocEnd = s.dynAllocEnd) ∧
    (m' = m ∨ ∃ p < maxPages, src.getPage m (add32 s.dynAllocStart (mul32 p pageSize)) = .ok m') := by
  unfold allocBlock at h
  split at h
  · cases h
  split at h
  · cases h; exact ⟨⟨rfl, rfl⟩, .inl rfl⟩
  simp only at h
  split at h
  · obtain ⟨⟨b, s₁⟩, ht, h⟩ := bind_ok h
    cases h
    exact ⟨takeFirst_area ht, .inl rfl⟩
  split at h
  · rename_i p rest _
    obtain ⟨pageVa, hva, h⟩ := bind_ok h
    obtain ⟨m₁, hget, h⟩ := bind_ok h
    obtain ⟨⟨b, s₁⟩, ht, h⟩ := bind_ok h
    cases h
    unfold toPageVa at hva
    split at hva
    · cases hva
    · rename_i hp
      cases hva
      have harea := takeFirst_area ht
      exact ⟨harea, .inr ⟨p, by omega, hget⟩⟩
  · split at h
    · obtain ⟨⟨b, s₁⟩, ht, h⟩ := bind_ok h
      cases h
      exact ⟨takeFirst_area ht, .inl rfl⟩
    · cases h; exact ⟨⟨rfl, rfl⟩, .inl rfl⟩

/-- `free_block` keeps its area, and returns at most one page of it. -/
theorem freeBlock_pages {va : Nat} (h : freeBlock src s m va = .ok (s', m')) :
    (s'.dynAllocStart = s.dynAllocStart ∧ s'.dynAllocEnd = s.dynAllocEnd) ∧
    (m' = m ∨ s.dynAllocStart ≤ va ∧ va < s.dynAllocEnd ∧
      src.returnPage m (add32 s.dynAllocStart (mul32 (sub32 va s.dynAllocStart / pageSize) pageSize)) = .ok m') := by
  unfold freeBlock at h
  split at h
  · cases h
  rename_i hin
  simp only at h
  split at h
  · cases h
  split at h
  · obtain ⟨m₁, hret, h⟩ := bind_ok h
    cases h
    exact ⟨⟨rfl, rfl⟩, .inr ⟨by omega, by omega, hret⟩⟩
  · cases h; exact ⟨⟨rfl, rfl⟩, .inl rfl⟩

end Blocks

end Fos.Heap
