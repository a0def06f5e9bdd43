/-
`virtual_to_physical` of `kern/mem/paging_helpers.c`. The entry written by `map_frame` is a word here: the address of
the frame in its upper twenty bits, the permissions in its lower twelve. The function masks the word with `0xFFF` and
not with its complement, so what it returns is the permissions with the offset added.
-/
import Fos.Memory.ReferencesRun

namespace Fos.Memory

open Fos.Heap Fos.Lib

/-! ## Entries as words -/

def Perm.bits (p : Perm) : Nat :=
  0x001 * p.present.toNat + 0x002 * p.writeable.toNat + 0x004 * p.user.toNat + 0x020 * p.used.toNat +
    0x040 * p.modified.toNat + 0x200 * p.buffered.toNat + 0x400 * p.uhpage.toNat + 0x800 * p.avail.toNat

/-- `CONSTRUCT_ENTRY`. -/
def Pte.word (e : Pte) : Nat := e.frame * pageSize + e.perm.bits

/-- `virtual_to_physical`; `0xFFFFFFFF` is `-1`. -/
def virtualToPhysical (m : Mem) (d va : Nat) : Nat :=
  if (m.table (owner d va) (pdx va)).isNone then 0xFFFFFFFF
  else
    let word := (m.pte (slot d va)).word
    if word &&& 0x001 = 0 then 0xFFFFFFFF
    else
      let physicalFrameAddress := word &&& 0xFFF
      let pageOffset := va &&& 0xFFF
      add32 physicalFrameAddress pageOffset

theorem Perm.bits_lt (p : Perm) : p.bits < 4096 := by
  unfold bits
  have := p.present.toNat_le
  have := p.writeable.toNat_le
  have := p.user.toNat_le
  have := p.used.toNat_le
  have := p.modified.toNat_le
  have := p.buffered.toNat_le
  have := p.uhpage.toNat_le
  have := p.avail.toNat_le
  omega

theorem Perm.bits_odd (p : Perm) : p.bits % 2 = p.present.toNat := by
  unfold bits
  have := p.present.toNat_le
  omega

theorem Pte.word_offset (e : Pte) : e.word &&& 0xFFF = e.perm.bits := by
  have hbits := e.perm.bits_lt
  calc e.word &&& 0xFFF = e.word % 4096 := Nat.and_two_pow_sub_one_eq_mod e.word 12
    _ = e.perm.bits := by unfold word; simp only [pageSize]; omega

theorem Pte.word_present (e : Pte) : e.word &&& 0x001 = e.perm.present.toNat := by
  rw [Nat.and_one_is_mod, ← e.perm.bits_odd]
  unfold word
  simp only [pageSize]
  omega

/-! ## What the function returns -/

section Translation

variable {m : Mem} {d va : Nat}

theorem virtualToPhysical_absent
    (h : ¬ ((m.table (owner d va) (pdx va)).isSome = true ∧ (m.pte (slot d va)).perm.present = true)) :
    virtualToPhysical m d va = 0xFFFFFFFF := by
  simp only [virtualToPhysical]
  split
  · rfl
  · rename_i ht
    have hp : (m.pte (slot d va)).perm.present = false := by
      by_contra hp
      exact h ⟨Option.isSome_iff_ne_none.2 fun hn => ht (Option.isNone_iff_eq_none.2 hn), eq_true_of_ne_false hp⟩
    rw [if_pos (by rw [Pte.word_present, hp]; rfl)]

/-- The permissions and the offset. -/
theorem virtualToPhysical_present (ht : (m.table (owner d va) (pdx va)).isSome = true)
    (hp : (m.pte (slot d va)).perm.present = true) :
    virtualToPhysical m d va = (m.pte (slot d va)).perm.bits + va % 4096 := by
  have hn : ¬ (m.table (owner d va) (pdx va)).isNone = true := by
    rw [Option.isNone_iff_eq_none]
    exact Option.isSome_iff_ne_none.1 ht
  have hbits := (m.pte (slot d va)).perm.bits_lt
  have hoff : va &&& 0xFFF = va % 4096 := Nat.and_two_pow_sub_one_eq_mod va 12
  simp only [virtualToPhysical, if_neg hn, Pte.word_present, hp, Pte.word_offset, hoff]
  rw [if_neg (by decide), add32_of_lt (by omega)]

/-- `-1` exactly when the page or its table is not there. -/
theorem virtualToPhysical_absent_iff : virtualToPhysical m d va = 0xFFFFFFFF ↔
    ¬ ((m.table (owner d va) (pdx va)).isSome = true ∧ (m.pte (slot d va)).perm.present = true) := by
  refine ⟨fun h hc => ?_, virtualToPhysical_absent⟩
  rw [virtualToPhysical_present hc.1 hc.2] at h
  have hbits := (m.pte (slot d va)).perm.bits_lt
  omega

/-- A present page's own permission bit keeps the result apart from every address of the page's frame. -/
theorem virtualToPhysical_ne (hp : (m.pte (slot d va)).perm.present = true) {f : Nat} (hf : f < 1048575) :
    virtualToPhysical m d va ≠ f * pageSize + va % pageSize := by
  simp only [pageSize]
  intro h
  by_cases ht : (m.table (owner d va) (pdx va)).isSome = true
  · rw [virtualToPhysical_present ht hp] at h
    have hbits := (m.pte (slot d va)).perm.bits_lt
    have hodd := (m.pte (slot d va)).perm.bits_odd
    rw [hp, Bool.toNat_true] at hodd
    omega
  · rw [virtualToPhysical_absent fun hc => ht hc.1] at h
    omega

end Translation

theorem slot_offset {d va off : Nat} (hva : va % 4096 = 0) (hoff : off < 4096) : slot d (va + off) = slot d va := by
  have hkernel : isKernelAddress (va + off) = isKernelAddress va :=
    decide_eq_decide.2 (by simp only [userTop]; omega)
  unfold slot owner
  rw [hkernel, show (va + off) / 4096 = va / 4096 by omega]

/-! ## After `map_frame` -/

theorem mapFrame_present {d f va : Nat} {perm : Perm} {s t : Kernel} (h : mapFrame d f va perm s = .ok () t) :
    (t.mem.pte (slot d va)).perm.present = true := by
  rcases mapFrame_ok h with ⟨-, rfl⟩ | ⟨-, u, -, rfl⟩
  · exact Mem.enterFrame_present _ d f va perm
  · exact Mem.enterFrame_present _ d f va perm

/-- After `map_frame` no address of the page is translated to the frame, and none of the kernel heap agrees with
`kheap_physical_address`; `-1` is returned exactly for what is not present. -/
theorem virtual_to_physical_never {s t : Kernel} {d f va off : Nat} {perm : Perm}
    (hfew : s.mem.numberOfFrames < 1048576)
    (hf : f < s.mem.numberOfFrames) (hva : va % pageSize = 0) (hoff : off < pageSize)
    (h : mapFrame d f va perm s = .ok () t) :
    virtualToPhysical t.mem d (va + off) ≠ f * pageSize + off ∧
    (∀ e v, virtualToPhysical t.mem e v = 0xFFFFFFFF ↔
      ¬ ((t.mem.table (owner e v) (pdx v)).isSome = true ∧ (t.mem.pte (slot e v)).perm.present = true)) ∧
    ∀ e v, kernelHeapStart ≤ v → v < kernelHeapMax → (t.mem.table 0 (pdx v)).isSome = true →
      (t.mem.pte (slot e v)).perm.present = true → virtualToPhysical t.mem e v ≠ kheapPhysicalAddress t v := by
  simp only [pageSize] at hva hoff
  refine ⟨?_, fun e v => virtualToPhysical_absent_iff, fun e v h1 h2 ht hp => ?_⟩
  · have hp := mapFrame_present h
    rw [← slot_offset hva hoff] at hp
    have := virtualToPhysical_ne hp (show f < 1048575 by omega)
    simp only [pageSize] at this ⊢
    rwa [show (va + off) % 4096 = off by omega] at this
  · have hslot : slot e v = slot 0 v := by
      have hkernel : isKernelAddress v = true :=
        decide_eq_true (by simp only [kernelHeapStart, userTop] at h1 ⊢; omega)
      rw [slot, owner, if_pos hkernel, slot, owner, if_pos hkernel]
    have hown : owner e v = owner 0 v := congrArg Prod.fst hslot
    have hzero : owner 0 v = 0 := ite_self _
    rw [virtualToPhysical_present (by rw [hown, hzero]; exact ht) hp]
    have hin : ¬ (v < kernelHeapStart ∨ kernelHeapMax ≤ v) := by omega
    have hn : ¬ (t.mem.table 0 (pdx v)).isNone = true := by
      rw [Option.isNone_iff_eq_none]
      exact Option.isSome_iff_ne_none.1 ht
    have hbits := (t.mem.pte (slot e v)).perm.bits_lt
    have hodd := (t.mem.pte (slot e v)).perm.bits_odd
    rw [hp, Bool.toNat_true] at hodd
    rw [hslot] at hp
    simp only [kheapPhysicalAddress, if_neg hin, if_neg hn, hp, if_true, add32, mul32, pageSize]
    omega

/-- Page `0xF8001000` of the kernel heap, mapped to frame 1024: `virtual_to_physical` returns 3. -/
theorem virtual_to_physical_mapped :
    ∃ t, mapFrame 0 1024 0xF8001000 { writeable := true } (unusedKernel machine) = .ok () t ∧
    virtualToPhysical t.mem 0 0xF8001000 ≠ 1024 * pageSize ∧ virtualToPhysical t.mem 0 0xF8001000 = 3 := by
  refine ⟨_, mapFrame_there (by decide), ?_⟩
  decide +kernel

theorem virtual_to_physical_never_machine :
    ∃ t, mapFrame 0 1024 0xF8001000 { writeable := true } (unusedKernel machine) = .ok () t ∧
    virtualToPhysical t.mem 0 (0xF8001000 + 5) ≠ 1024 * pageSize + 5 :=
  ⟨_, mapFrame_there (by decide), (virtual_to_physical_never (by decide) (by decide) (by decide) (by decide)
    (mapFrame_there (by decide))).1⟩

end Fos.Memory
