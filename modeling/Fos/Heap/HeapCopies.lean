/-
Copies through the page tables of the kernel: between pages of the heap that hold frames they move the
bytes, and where a page is missing they fault. What the heap does to other pages moves no byte of a page
that keeps its entry.
-/
import Fos.Heap.Krealloc

namespace Fos.Heap

open Fos.Memory Fos.Lib Fos.Lib.Extent

/-! ## Reading and writing -/

/-- The address is on a page of the heap that holds a frame. -/
def InHeap (m : Mem) (a : Nat) : Prop := HeapPage (a / 4096) ∧ HoldsPage m (a / 4096)

section Bytes

variable {m m' : Mem} {ram : Nat → Nat → UInt8} {a n dst src : Nat}

theorem frameAt_heap (hK : KPages m) (ha : HeapPage (a / 4096)) : KernelRam.frameAt m a =
    if (m.pte (0, a / 4096)).perm.present = true then some (m.pte (0, a / 4096)).frame else none := by
  have ht : (m.table 0 (pdx a)).isSome := by
    rw [show pdx a = a / 4096 / 1024 by unfold pdx; omega]
    exact hK.tables _ ha
  rw [KernelRam.frameAt, slot_zero]
  by_cases hp : (m.pte (0, a / 4096)).perm.present = true
  · rw [if_pos ⟨ht, hp⟩, if_pos hp]
  · rw [if_neg fun h => hp h.2, if_neg hp]

/-- A page that keeps its entry keeps its bytes. -/
theorem load_same (hK : KPages m) (hK' : KPages m') (ha : HeapPage (a / 4096))
    (hp : m'.pte (0, a / 4096) = m.pte (0, a / 4096)) : KernelRam.load ⟨m', ram⟩ a = KernelRam.load ⟨m, ram⟩ a := by
  simp only [KernelRam.load, frameAt_heap hK ha, frameAt_heap hK' ha, hp]

theorem kernelBytes_lawful (hK : KPages m) (hp : AllPresent m) : kernelBytes.Lawful (·.mem = m) (InHeap m) := by
  refine ⟨fun x a v hx ha => ?_⟩
  subst hx
  have hB : KernelRam.Backed x {w | HeapPage w ∧ HoldsPage x.mem w} := ⟨hK, hp, fun w hw => hw⟩
  refine ⟨?_, (hB.store v ha).2⟩
  show (KernelRam.store x a v).mem = x.mem
  unfold KernelRam.store
  split
  · rfl
  · rfl

theorem InHeap.reached (hK : KPages m) (hp : AllPresent m) (h : ∀ i < n, InHeap m (a + i)) :
    Reaches m a n := by
  intro i hi
  obtain ⟨hpage, hheld⟩ := h i hi
  rw [frameAt_heap hK hpage, if_pos (hp _ hpage hheld)]
  rfl

/-- Bytes that are reached from the heap on are bytes of the heap: the page above it is not there. -/
theorem reaches_iff (hK : KPages m) (hp : AllPresent m) (hlast : m.pte (0, 1048575) = {}) (hlo : kernelHeapStart ≤ a)
    (hhi : a ≤ kernelHeapMax) : Reaches m a n ↔ ∀ i < n, InHeap m (a + i) := by
  simp only [kernelHeapStart, kernelHeapMax] at hlo hhi
  constructor
  · intro h i hi
    have hin : a + i < 4294963200 := by
      by_contra hout
      have hmax := h (4294963200 - a) (by omega)
      rw [show a + (4294963200 - a) = 4294963200 by omega, KernelRam.frameAt, slot_zero,
        show 4294963200 / 4096 = 1048575 by decide, hlast, if_neg (fun hc => by cases hc.2)] at hmax
      cases hmax
    have hpage : HeapPage ((a + i) / 4096) := ⟨by omega, by omega⟩
    refine ⟨hpage, ?_⟩
    have hreach := h i hi
    rw [frameAt_heap hK hpage] at hreach
    split at hreach
    · rename_i hpres
      rw [HoldsPage, held_of_present hpres]
      exact Option.some_ne_none _
    · cases hreach
  · exact InHeap.reached hK hp

/-- Pages that hold frames, as bytes. -/
theorem inHeap_range {p k : Nat} (hp : ∀ v, p ≤ v → v < p + k → HeapPage v ∧ HoldsPage m v) (ha : p * 4096 ≤ a)
    (hn : a + n ≤ (p + k) * 4096) : ∀ i < n, InHeap m (a + i) := fun i hi => hp _ (by omega) (by omega)

end Bytes

/-! ## Copies -/

section Copies

variable {k : Kernel} {r : Nat → Nat → UInt8} {dst src n : Nat} {s t : HeapBytes}

theorem copying_ok {f : KernelRam → KernelRam} (h : copying f dst src n s = .ok () t) :
    Reaches s.kernel.mem src n ∧ Reaches s.kernel.mem dst n ∧ t = { s with ram := (f s.bytes).ram } := by
  unfold copying at h
  split at h
  · rename_i hr
    cases h
    exact ⟨hr.1, hr.2, rfl⟩
  · cases h

theorem copying_run {f : KernelRam → KernelRam} (hs : Reaches k.mem src n) (hd : Reaches k.mem dst n)
    (hf : (f ⟨k.mem, r⟩).mem = k.mem) :
    ∃ ram', copying f dst src n ⟨k, r⟩ = .ok () ⟨k, ram'⟩ ∧ f ⟨k.mem, r⟩ = ⟨k.mem, ram'⟩ := by
  refine ⟨(f ⟨k.mem, r⟩).ram, if_pos ⟨hs, hd⟩, ?_⟩
  generalize f ⟨k.mem, r⟩ = x at hf ⊢
  cases x
  cases hf
  rfl

/-- The bytes of the heap after a copy of `n` bytes. -/
def Moved (m : Mem) (ram ram' : Nat → Nat → UInt8) (dst src n : Nat) : Prop := ∀ c, InHeap m c →
  KernelRam.load ⟨m, ram'⟩ c =
    if dst ≤ c ∧ c < dst + n then KernelRam.load ⟨m, ram⟩ (src + (c - dst)) else KernelRam.load ⟨m, ram⟩ c

section Moves

variable (hK : KPages k.mem) (hp : AllPresent k.mem) (hs : ∀ i < n, InHeap k.mem (src + i))
  (hd : ∀ i < n, InHeap k.mem (dst + i)) (hdis : src + n ≤ dst ∨ dst ≤ src)
include hK hp hs hd hdis

theorem memcpy_moves : ∃ ram', memcpy dst src n ⟨k, r⟩ = .ok () ⟨k, ram'⟩ ∧ Moved k.mem r ram' dst src n := by
  obtain ⟨hm, hcopy⟩ := ByteMemory.memcpy_spec (kernelBytes_lawful hK hp) (m := ⟨k.mem, r⟩) rfl hd hs hdis
  obtain ⟨ram', hrun, hram⟩ := copying_run (f := (kernelBytes.memcpy · dst src n)) (InHeap.reached hK hp hs)
    (InHeap.reached hK hp hd) hm
  rw [hram] at hcopy
  exact ⟨ram', hrun, hcopy⟩

theorem memmove_moves : ∃ ram', memmove dst src n ⟨k, r⟩ = .ok () ⟨k, ram'⟩ ∧ Moved k.mem r ram' dst src n := by
  obtain ⟨hm, hcopy⟩ := ByteMemory.memmove_spec (kernelBytes_lawful hK hp) (m := ⟨k.mem, r⟩) rfl hd hs hdis
  obtain ⟨ram', hrun, hram⟩ := copying_run (f := (kernelBytes.memmove · dst src n)) (InHeap.reached hK hp hs)
    (InHeap.reached hK hp hd) hm
  rw [hram] at hcopy
  exact ⟨ram', hrun, hcopy⟩

end Moves

/-- Whatever it reads, a copy that returned wrote to its destination alone. -/
theorem memcpy_outside (hK : KPages s.kernel.mem) (hp : AllPresent s.kernel.mem)
    (hd : ∀ i < n, InHeap s.kernel.mem (dst + i))
    (h : memcpy dst src n s = .ok () t) : t.kernel = s.kernel ∧
      ∀ c, InHeap s.kernel.mem c → ¬ (dst ≤ c ∧ c < dst + n) → t.bytes.load c = s.bytes.load c := by
  obtain ⟨-, -, rfl⟩ := copying_ok h
  have hw : kernelBytes.WritesTo (·.mem = s.kernel.mem) (InHeap s.kernel.mem) s.bytes
      (kernelBytes.memcpy s.bytes dst src n) dst
      (dst + n) := ByteMemory.memcpy_writes (kernelBytes_lawful hK hp) rfl hd
  refine ⟨rfl, fun c hc hout => ?_⟩
  have hsame := hw.2 c hc hout
  have hmem : (kernelBytes.memcpy s.bytes dst src n).mem = s.kernel.mem := hw.1
  generalize kernelBytes.memcpy s.bytes dst src n = x at hsame hmem
  cases x
  cases hmem
  exact hsame

end Copies

end Fos.Heap
