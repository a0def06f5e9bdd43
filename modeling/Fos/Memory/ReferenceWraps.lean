/-
`FrameInfo.references` has 16 bits and `map_frame` does not look before it adds to it. While no map
finds a full count, no count is too small and no page-table entry holds a free frame, whatever the
entries that are mapped over; the 65536th reference takes the count back to `0`.
-/
import Fos.Memory.ReferencesRun

namespace Fos.Memory

open Fos.Lib Fos.Heap

/-- Mapping the frame at entry `a` adds no reference, or there is room for it. -/
def Fits (m : Mem) (a : Nat × Nat) (f : Nat) : Prop := MapsTo m a f ∨ (m.framesInfo f).references + 1 < 65536

/-- A new page table that takes page `p` of the kernel heap leaves frame `f` referenced, with room for one
more reference. -/
def Leaves (m : Mem) (p f : Nat) : Prop := Fits m (0, p) f ∧ (MapsTo m (0, p) f → 1 < (m.framesInfo f).references)

section New

variable {pool : Finset Nat} {held : List Nat} {s t : Kernel} {d f v p g w : Nat} {perm : Perm} {m m₁ m₂ : Mem}
  {a : Nat × Nat}

theorem fits_setFrameVa : Fits (m.setFrameVa f w) a f ↔ Fits m a f := by
  unfold Fits
  rw [setFrameVa_references]
  exact Iff.rfl

theorem leaves_setFrameVa : Leaves (m.setFrameVa f w) p f ↔ Leaves m p f := by
  unfold Leaves
  rw [fits_setFrameVa, setFrameVa_references]
  exact Iff.rfl

/-- The page that a new table takes is a hole, or the one at the break. -/
theorem leaves_iff (hH : HeapOk s) (hT : TakesPage s p g m₁ m₂) :
    (if fitAddress s 1 = 0 then Leaves s.mem (s.kheapPageAllocBreak / 4096) f
      else (s.mem.framesInfo f).references + 1 < 65536) ↔ Leaves s.mem p f := by
  rcases hT.place with ⟨hfit, hhole⟩ | ⟨hfit, hbrk⟩
  · have hnone : entry s.mem (0, p) = none := by
      rw [entry_eq (heap_slot hT.page), if_pos (hH.tables p hT.page)]
      exact not_not.1 hhole
    have hno : ¬ MapsTo s.mem (0, p) f := fun hm => absurd (hnone.symm.trans hm.2) (by simp)
    rw [if_neg hfit]
    exact ⟨fun hr => ⟨.inr hr, fun hm => absurd hm hno⟩, fun hl => hl.1.resolve_left hno⟩
  · rw [if_pos hfit, hbrk, Nat.mul_div_cancel _ (show 0 < 4096 by decide)]

/-- `map_frame` with a new page table that leaves the frame referenced. -/
theorem Guards.mapNew (h : Guards pool held s.mem) (hH : HeapOk s) (hcr : Creates s d v p g m₁ m₂ t)
    (ha : (d, v) ∈ slots s.mem) (hpool : f ∈ pool) (hnf : f ∉ s.mem.freeFrameList) (hp : perm.buffered = false)
    (hl : Leaves s.mem p f) : Guards pool (held.erase f) (t.mem.enterFrame d f (v * 4096) perm) := by
  obtain ⟨hG, hother⟩ := h.creates hH hcr
  obtain ⟨ha', -⟩ := hcr.slot ha
  rcases hother f hnf with ⟨hm, hr, hfree⟩ | ⟨hm, hr, hfree⟩
  · have hlast := hl.2 hm
    have hlt := h.small f hpool
    refine hG.enter (a := (d, v)) perm ha' hcr.table hpool (fun hc => hlast.ne' (hfree.1 hc)) (.inr ?_) hp
    omega
  · have hroom := hl.1.resolve_left hm
    refine hG.enter (a := (d, v)) perm ha' hcr.table hpool hfree (.inr ?_) hp
    rwa [hr]

/-- After a map with a new page table that leaves no count too small and the frame not free, the table left
the frame referenced. -/
theorem Guards.mapNew_leaves (h : Guards pool held s.mem) (hH : HeapOk s) (hcr : Creates s d v p g m₁ m₂ t)
    (ha : (d, v) ∈ slots s.mem) (hpool : f ∈ pool) (hnf : f ∉ s.mem.freeFrameList)
    (hle : holders (slots t.mem) (entry (t.mem.enterFrame d f (v * 4096) perm)) f ≤
      ((t.mem.enterFrame d f (v * 4096) perm).framesInfo f).references)
    (hfree : f ∈ (t.mem.enterFrame d f (v * 4096) perm).freeFrameList →
      holders (slots t.mem) (entry (t.mem.enterFrame d f (v * 4096) perm)) f = 0) : Leaves s.mem p f := by
  obtain ⟨hG, hother⟩ := h.creates hH hcr
  obtain ⟨ha', hnone⟩ := hcr.slot ha
  have hroom := (hG.enter_fits (a := (d, v)) ha' hcr.table hpool hle).resolve_left fun hm => by
    cases hnone.symm.trans hm.2
  have hlink : t.mem.enterFrame d f (v * 4096) perm = t.mem.linkFrame d f (v * 4096) perm := by
    rw [Mem.enterFrame, slot_slot ha', hcr.empty]
    rfl
  have hheld := (link_eq f perm ha' hcr.table).2 (d, v) ha'
  rw [Function.update_self] at hheld
  rw [hlink] at hfree
  have hnt : f ∉ t.mem.freeFrameList := fun hc => (holders_pos ha' hheld).ne' (hfree hc)
  rcases hother f hnf with ⟨hm, hr, hiff⟩ | ⟨hm, hr, -⟩
  · refine ⟨.inl hm, fun _ => ?_⟩
    have hpos := h.pos (heap_slot hcr.takes.page) hm.2
    have hone : (s.mem.framesInfo f).references ≠ 1 := fun hc => hnt (hiff.2 hc)
    omega
  · rw [hr] at hroom
    exact ⟨.inr hroom, fun hc => absurd hc hm⟩

end New

/-! ## Runs -/

namespace MemRun

/-- No count is smaller than the number of entries that hold the frame, and no entry holds a free frame. -/
def Safe (pool : Finset Nat) (h : MemRun) : Prop :=
  ∀ f ∈ pool, holders (slots h.kernel.mem) (entry h.kernel.mem) f ≤ (h.kernel.mem.framesInfo f).references ∧
    (f ∈ h.kernel.mem.freeFrameList → holders (slots h.kernel.mem) (entry h.kernel.mem) f = 0)

/-- A `map_frame` that adds a reference finds fewer than `65535`. A missing page table is first made in a
hole of the kernel heap or at its break; what the page there maps is not the last reference. -/
def Fitting (h : MemRun) : MemCall → Prop
  | .mapFrame d f v _ =>
    if (h.kernel.mem.table d (v / 1024)).isSome then Fits h.kernel.mem (d, v) f
    else if fitAddress h.kernel 1 = 0 then Leaves h.kernel.mem (h.kernel.kheapPageAllocBreak / 4096) f
    else (h.kernel.mem.framesInfo f).references + 1 < 65536
  | _ => True

/-- The counts guard the frames, and the kernel heap is ready. -/
structure Sound (pool : Finset Nat) (h : MemRun) : Prop where
  guards : Guards pool h.held h.kernel.mem
  heap : HeapOk h.kernel

section Steps

variable {pool : Finset Nat} {h h' : MemRun} {d f v p g : Nat} {perm : Perm} {m₁ m₂ : Mem}

theorem Inv.sound (hI : h.Inv pool) : h.Sound pool := ⟨hI.counted.guards, hI.heap⟩

theorem Sound.safe (hI : h.Sound pool) : h.Safe pool := fun f hf =>
  ⟨hI.guards.guarded.references f hf, fun hc => (hI.guards.guarded.free f hc).1⟩

theorem fitting_there (ht : (h.kernel.mem.table d (v / 1024)).isSome) :
    h.Fitting (.mapFrame d f v perm) ↔ Fits h.kernel.mem (d, v) f := by
  rw [Fitting, if_pos ht]

theorem fitting_new (hH : HeapOk h.kernel) (hno : h.kernel.mem.table d (v / 1024) = none)
    (hT : TakesPage { h.kernel with mem := h.kernel.mem.setFrameVa f (v * 4096) } p g m₁ m₂) :
    h.Fitting (.mapFrame d f v perm) ↔ Leaves h.kernel.mem p f := by
  have hH' := hH.mem (m := h.kernel.mem.setFrameVa f (v * 4096)) rfl
  rw [← leaves_setFrameVa, ← leaves_iff hH' hT, fitAddress_setFrameVa, setFrameVa_references, leaves_setFrameVa,
    Fitting, if_neg (show ¬ (h.kernel.mem.table d (v / 1024)).isSome by rw [hno]; simp)]

/-- A step that finds room for its reference keeps the frames guarded. -/
theorem Sound.step (h : MemRun) (c : MemCall) (h' : MemRun) (hI : h.Sound pool) (hc : h.Fitting c)
    (hstep : Step h c h') :
    h'.Sound pool := by
  obtain ⟨hl, hrun⟩ := hstep
  cases c with
  | allocateFrame =>
    simp only [call] at hrun
    split at hrun
    · rename_i f m' ha
      cases hrun
      exact ⟨hI.guards.allocate ha, hI.heap.mem (allocateFrame_table ha)⟩
    · cases hrun
  | freeFrame f =>
    obtain rfl := Option.some.inj hrun
    exact ⟨hI.guards.freeFrame hl, hI.heap.mem rfl⟩
  | mapFrame d f v perm =>
    obtain ⟨hpool, hnf⟩ := mappable hI.guards hl.2.2
    have hG := hI.guards.setFrameVa f (v * 4096)
    rcases mapFrame_cases hI.heap hl hrun with ⟨ht, rfl⟩ | ⟨hno, p, g, m₁, m₂, u, hcr, rfl⟩
    · rw [fitting_there ht] at hc
      have henter := hG.enter (a := (d, v)) perm hl.1 ht hpool hnf (fits_setFrameVa.2 hc) hl.2.1
      exact ⟨henter, hI.heap.mem (Mem.enterFrame_same _ _ _ _ _).1⟩
    · have hH := hI.heap.mem (m := h.kernel.mem.setFrameVa f (v * 4096)) rfl
      rw [fitting_new hI.heap hno hcr.takes] at hc
      have hmap := hG.mapNew hH hcr hl.1 hpool hnf hl.2.1 (leaves_setFrameVa.2 hc)
      exact ⟨hmap, hcr.heap.mem (Mem.enterFrame_same _ _ _ _ _).1⟩
  | unmapFrame d v =>
    obtain rfl := Option.some.inj hrun
    exact ⟨(hI.guards.unmap hl).1, hI.heap.mem (Mem.unmapFrame_same _ _ _).1⟩
  | ptSetPagePermissions d v permissionsToSet permissionsToClear =>
    simp only [call] at hrun
    split at hrun
    · rename_i m' hm
      cases hrun
      obtain ⟨-, ht, -⟩ := hI.guards.setPermissions_same hl.1 hl.2.1 hl.2.2 hm
      exact ⟨hI.guards.setPermissions hl.1 hl.2.1 hl.2.2 hm, hI.heap.mem ht⟩
    · cases hrun

/-- A step after which no entry holds a free frame and no count is too small found room. -/
theorem Sound.fitting (h : MemRun) (c : MemCall) (h' : MemRun) (hI : h.Sound pool) (hstep : Step h c h')
    (hs : h'.Safe pool) : h.Fitting c := by
  obtain ⟨hl, hrun⟩ := hstep
  cases c with
  | mapFrame d f v perm =>
    obtain ⟨hpool, hnf⟩ := mappable hI.guards hl.2.2
    have hG := hI.guards.setFrameVa f (v * 4096)
    rcases mapFrame_cases hI.heap hl hrun with ⟨ht, rfl⟩ | ⟨hno, p, g, m₁, m₂, u, hcr, rfl⟩
    · have hle := (hs f hpool).1
      rw [slots_congr (Mem.enterFrame_same _ _ _ _ _).2.2] at hle
      exact (fitting_there ht).2 (fits_setFrameVa.1 (hG.enter_fits (a := (d, v)) hl.1 ht hpool hle))
    · have hH := hI.heap.mem (m := h.kernel.mem.setFrameVa f (v * 4096)) rfl
      obtain ⟨hle, hfree⟩ := hs f hpool
      rw [slots_congr (Mem.enterFrame_same _ _ _ _ _).2.2] at hle hfree
      exact (fitting_new hI.heap hno hcr.takes).2
        (leaves_setFrameVa.1 (hG.mapNew_leaves hH hcr hl.1 hpool hnf hle hfree))
  | allocateFrame | freeFrame _ | unmapFrame _ _ | ptSetPagePermissions _ _ _ _ => trivial

end Steps

end MemRun

end Fos.Memory
