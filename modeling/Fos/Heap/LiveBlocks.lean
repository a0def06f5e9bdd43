/-
The blocks of the kernel heap that are in use, whatever is done with its pages: pages of the heap and pages of
processes come and go without the block allocator, `kmalloc` of a block adds one and `kfree` of it takes it away.
-/
import Fos.Heap.HeapUse
import Fos.Heap.KernelCode

namespace Fos.Heap

open Fos.Lib Fos.Memory DynAlloc

section LiveBlocks

variable {s t : Kernel} {n size va : Nat} {live rest : List LiveBlock}

/-! ## Without the block allocator -/

theorem onMem_dyn {α : Type} (g : Mem → Res (α × Mem)) : Does (fun s t => t.dyn = s.dyn) (onMem g) := by
  intro s a t h
  unfold onMem at h
  split at h
  · cases h
    rfl
  · cases h

/-- Pages of the kernel heap come without the block allocator. -/
theorem dynRule : HeapRule fun s t => t.dyn = s.dyn where
  refl _ := rfl
  trans h h' := h'.trans h
  fields hg := .modify fun s => (hg s).2
  allocateFrame := onMem_dyn _
  mapKernelFrame _ _ _ := onMem_dyn _
  setFrameSize va size := by
    intro s a t h
    unfold setFrameSize at h
    split at h <;> cases h <;> rfl

theorem dyn_createPageTable (d : Nat) : Does (fun s t : Kernel => t.dyn = s.dyn) (createPageTable d va) := by
  unfold createPageTable
  refine dynRule.bind dynRule.kmallocPage fun ptr => dynRule.guard (.modify fun _ => ?_)
  unfold Kernel.linkTable
  rfl

theorem dyn_mapFrame (d f : Nat) (perm : Perm) : Does (fun s t : Kernel => t.dyn = s.dyn) (mapFrame d f va perm) := by
  unfold mapFrame
  refine dynRule.bind (.modify fun _ => rfl) fun _ => dynRule.bind dynRule.get fun k =>
    .ite_rest (.modify fun _ => rfl) fun hrest => ?_
  exact dynRule.bind (dyn_createPageTable _) fun _ => hrest

/-! ## Blocks -/

/-- The block that `kmalloc` returns is none of those in use. -/
theorem kmalloc_block_live (hok : s.dyn.Ok n live) (h0 : 0 < size) (hs : size ≤ 2048) (h : kmalloc size s = .ok va t) :
    t.dyn.Ok n (⟨va, size⟩ :: live) := by
  obtain ⟨dyn, m, ha, rfl⟩ := kmalloc_block_ok (lock_free h) h0 hs h
  rcases allocBlock_spec kernelPages hok s.mem hs with ⟨e, pageVa, -, hbad⟩ | ⟨r, s', m', hrun, hok'⟩
  · rw [hbad] at ha
    cases ha
  · rw [hrun] at ha
    cases ha
    exact hok'

/-- `kmalloc` of any size: there is a new block in use, or none. -/
theorem kmalloc_live (hok : s.dyn.Ok n live) (h : kmalloc size s = .ok va t) : ∃ new, t.dyn.Ok n (new ++ live) := by
  by_cases hs : size ≤ 2048
  · rcases Nat.eq_zero_or_pos size with rfl | h0
    · rw [kmalloc_empty (lock_free h)] at h
      cases h
      exact ⟨[], hok⟩
    · exact ⟨[⟨va, size⟩], kmalloc_block_live hok h0 hs h⟩
  · have hdyn := dynRule.kmalloc_of (fun hc => absurd hc hs) _ _ _ h
    exact ⟨[], hdyn ▸ hok⟩

/-- `kfree` of a block in use. -/
theorem kfree_block_live {c : LiveBlock} (hok : s.dyn.Ok n (c :: rest)) (h : kfree c.va s = .ok () t) :
    t.dyn.Ok n rest := by
  obtain ⟨k, hB, -⟩ := hok.inv.liveBlock c List.mem_cons_self
  have hpos := class_pos k
  have hend := Block.below hok.inv hB
  rcases freeBlock_spec kernelPages hok s.mem with ⟨e, pageVa, hbad, -⟩ | ⟨dyn, m, hrun, hok'⟩
  · cases hbad
  · rw [kfree_of_block (lock_free h) ⟨hB.lo, by omega⟩ hrun] at h
    cases h
    exact hok'

end LiveBlocks

end Fos.Heap
