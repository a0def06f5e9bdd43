/-
`del_page_table` as its callers mean it: the table of `va` in the directory they give goes, and nothing else of
any directory. It works on the kernel's directory instead.
-/
import Fos.Fault.KernelTables
import Fos.Heap.KernelLock

namespace Fos.Fault

open Fos.Memory Fos.Heap Fos.Lib

/-! ## What the call is for -/

/-- The call returns, entry `va` of directory `d` is cleared, its table is free, and every other entry of every
directory is as before. -/
def DeletesTable (s : Kernel) (d va : Nat) : Prop :=
  ∃ t, Shared.delPageTable va s = .ok () t ∧ t.mem.table d (pdx va) = none ∧
    (∀ f, s.mem.table d (pdx va) = some f → f ∈ t.mem.freeFrameList) ∧
    ∀ e i, ¬ (e = d ∧ i = pdx va) → t.mem.table e i = s.mem.table e i

/-- The kernel's page tables are those that `initialize_kernel_VM` took from the boot memory, which ends below the
physical addresses that would be in the kernel heap if they were mapped from `KERNEL_BASE` on. -/
def BootTables (m : Mem) : Prop := ∀ i f, m.table 0 i = some f → f < 24576

section DeletesTable

variable {s t : Kernel} {d va : Nat}

/-- The entry of a process stays. -/
theorem delPageTable_others (h : Shared.delPageTable va s = .ok () t) (hd : d ≠ 0) :
    t.mem.table d (pdx va) = s.mem.table d (pdx va) := by
  rw [(delPageTable_table h).2, if_neg fun hc => hd hc.1]

/-- `kfree` of an address below the kernel heap. -/
theorem kfree_below (hs : KernelReady s) {a : Nat} (ha : a < kernelHeapStart) : ∃ e u, kfree a s = .error e u := by
  cases hl : s.lock with
  | true =>
    unfold kfree
    exact ⟨_, _, bind_of_error (acquireLock_held hl)⟩
  | false =>
    have hblocks : ¬ s.InBlocks a := by
      rintro ⟨hlow, -⟩
      rw [hs.heap.dynStart] at hlow
      omega
    have hpages : ¬ s.InPages a := by
      rintro ⟨hlow, -⟩
      rw [hs.heap.heap.start] at hlow
      simp only [kernelHeapStart] at ha
      omega
    rw [kfree_outside hl hblocks hpages, if_pos (.inl ha)]
    exact ⟨_, _, rfl⟩

/-- The table of an address of the kernel is not in the kernel heap. -/
theorem delPageTable_kernel (hs : KernelReady s) (hb : BootTables s.mem) (ht : (s.mem.table 0 (pdx va)).isSome) :
    ∃ e u, Shared.delPageTable va s = .error e u := by
  obtain ⟨f, hf⟩ := Option.isSome_iff_exists.1 ht
  have hva : isKernelAddress va = true := by
    by_contra hno
    have hlow : pdx va < 955 := by
      have hlt : ¬ userTop ≤ va := fun hc => hno (decide_eq_true hc)
      simp only [userTop] at hlt
      unfold pdx
      omega
    rw [hs.lower _ hlow] at hf
    cases hf
  have hbelow : add32 (f * 4096) 0xF0000000 < kernelHeapStart := by
    have := hb _ _ hf
    unfold add32
    simp only [kernelHeapStart]
    omega
  obtain ⟨e, u, hk⟩ := kfree_below hs hbelow
  refine ⟨e, u, ?_⟩
  unfold Shared.delPageTable
  rw [get_bind]
  simp only [hf, hva, if_true]
  exact bind_of_error hk

/-! ## The two kinds of directories -/

/-- Of the directory of a process the entry stays, and for the kernel's own directory `kfree` panics: the call never
does what it is for. -/
theorem del_page_table_never (hs : KernelReady s) (hb : BootTables s.mem) (ht : (s.mem.table d (pdx va)).isSome) :
    ¬ DeletesTable s d va := by
  rintro ⟨t, hrun, hnone, -, -⟩
  by_cases hd : d = 0
  · subst hd
    obtain ⟨e, u, herr⟩ := delPageTable_kernel hs hb ht
    rw [hrun] at herr
    cases herr
  · rw [delPageTable_others hrun hd] at hnone
    rw [hnone] at ht
    cases ht

end DeletesTable

/-- Directory `1` has the table of its stack. -/
theorem del_page_table_never_stack : ¬ DeletesTable (stackProcess 2).machine.kernel 1 (stackPage 0) := by
  refine del_page_table_never (stackProcess_start 2).ready.kernel ?_ (by decide)
  intro i f hf
  have hkernel : stackMemory.table 0 i = machine.table 0 i := by simp [stackMemory]
  have hf : machine.table 0 i = some f := hkernel.symm.trans hf
  rw [machine_table] at hf
  split at hf
  · cases hf
    omega
  · cases hf

/-- The stack's page table of a process whose pages are gone is left in its directory. -/
theorem page_table_not_deleted : ¬ ∀ (s : Kernel) (d va : Nat), (s.mem.table d (pdx va)).isSome →
    DeletesTable s d va := by
  intro h
  obtain ⟨t, hrun, hnone, -, -⟩ := h (stackProcess 2).machine.kernel 1 (stackPage 0) (by decide)
  rw [delPageTable_others hrun (by decide)] at hnone
  exact absurd hnone (by decide)

end Fos.Fault
