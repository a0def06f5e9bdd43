/-
The bytes behind the kernel heap: an address reads and writes the frame its page holds. The pages of
the block allocator hold frames of their own, so `get_page` and `return_page` of the kernel are pages
with bytes, for any contents that the frames come with.
-/
import Fos.Heap.KernelChanges
import Fos.Heap.ReallocBlock

namespace Fos.Heap

open Fos.Lib Fos.Memory DynAlloc

/-- The frames and page tables, and the bytes of each frame. -/
structure KernelRam where
  mem : Mem
  ram : Nat → Nat → UInt8

namespace KernelRam

/-- The frame that the page tables of the kernel lead to. -/
def frameAt (m : Mem) (va : Nat) : Option Nat :=
  if (m.table 0 (pdx va)).isSome ∧ (m.pte (slot 0 va)).perm.present = true then some (m.pte (slot 0 va)).frame else none

/-- The byte at an address; a page that is not there faults. -/
def load (x : KernelRam) (va : Nat) : UInt8 :=
  match frameAt x.mem va with
  | some f => x.ram f (va % 4096)
  | none => 0

def store (x : KernelRam) (va : Nat) (v : UInt8) : KernelRam :=
  match frameAt x.mem va with
  | some f => { x with ram := Function.update x.ram f (Function.update (x.ram f) (va % 4096) v) }
  | none => x

/-- The pages of `P` are pages of the kernel heap that hold frames. -/
structure Backed (x : KernelRam) (P : Set Nat) : Prop where
  pages : KPages x.mem
  present : AllPresent x.mem
  held : ∀ v ∈ P, HeapPage v ∧ HoldsPage x.mem v

section Laws

variable {x : KernelRam} {P : Set Nat} {a c f : Nat}

theorem frameAt_congr {m m' : Mem} (ht : m'.table = m.table) (hp : m'.pte (slot 0 a) = m.pte (slot 0 a)) :
    frameAt m' a = frameAt m a := by
  rw [frameAt, frameAt, ht, hp]

theorem Backed.frame (h : x.Backed P) (ha : a / 4096 ∈ P) :
    frameAt x.mem a = some (x.mem.pte (0, a / 4096)).frame ∧
      (x.mem.pte (0, a / 4096)).held = some (x.mem.pte (0, a / 4096)).frame := by
  obtain ⟨hv, hh⟩ := h.held _ ha
  have hp := h.present _ hv hh
  have ht := h.pages.tables _ hv
  have hpdx : pdx a = a / 4096 / 1024 := by unfold pdx; omega
  exact ⟨by rw [frameAt, slot_zero, hpdx, if_pos ⟨ht, hp⟩], held_of_present hp⟩

theorem Backed.store (h : x.Backed P) (v : UInt8) (ha : a / 4096 ∈ P) : (x.store a v).Backed P ∧
    ∀ c, c / 4096 ∈ P → (x.store a v).load c = if c = a then v else x.load c := by
  obtain ⟨hfa, hha⟩ := h.frame ha
  obtain ⟨f, hf⟩ : ∃ f, (x.mem.pte (0, a / 4096)).frame = f := ⟨_, rfl⟩
  rw [hf] at hfa hha
  have hst : x.store a v = ⟨x.mem, Function.update x.ram f (Function.update (x.ram f) (a % 4096) v)⟩ := by
    simp only [KernelRam.store, hfa]
  rw [hst]
  refine ⟨⟨h.pages, h.present, h.held⟩, fun c hc => ?_⟩
  obtain ⟨hfc, hhc⟩ := h.frame hc
  simp only [load, hfc]
  by_cases hca : c = a
  · rw [if_pos hca, hca, hf, Function.update_self, Function.update_self]
  rw [if_neg hca]
  by_cases hcf : (x.mem.pte (0, c / 4096)).frame = f
  · -- one frame, so one page, and another place on it
    rw [hcf] at hhc
    have hpage := h.pages.inj (h.held _ hc).1 (h.held _ ha).1 hhc hha
    rw [hcf, Function.update_self, Function.update_of_ne (by omega)]
  · rw [Function.update_of_ne hcf]

/-- An entry and a table that did not change lead to the same byte. -/
theorem load_congr {m : Mem} (ht : m.table = x.mem.table) (hp : m.pte (0, c / 4096) = x.mem.pte (0, c / 4096)) :
    load { x with mem := m } c = x.load c := by
  have hframe : frameAt m c = frameAt x.mem c := frameAt_congr ht (by rw [slot_zero, hp])
  simp only [load, hframe]

theorem Backed.getPage {va : Nat} (h : x.Backed P) (hva : va % 4096 = 0) (hv : HeapPage (va / 4096))
    (hnot : va / 4096 ∉ P) {m : Mem} (hg : Heap.getPage x.mem va = .ok m) :
    Backed { x with mem := m } (insert (va / 4096) P) ∧ ∀ c, c / 4096 ∈ P → load { x with mem := m } c = x.load c := by
  obtain ⟨v, rfl⟩ : ∃ v, va = v * 4096 := ⟨va / 4096, by omega⟩
  rw [Nat.mul_div_cancel _ (by decide)] at hv hnot ⊢
  have hE := h.pages.evolves_get hv hg
  have hrd : roundDown (v * 4096) pageSize = v * 4096 := roundDown_of_dvd (by simp only [pageSize]; omega)
  have hframe := h.pages.getFrameInfo hv
  simp only [Heap.getPage, hrd] at hg
  split at hg
  · -- the page holds a frame already
    rename_i f hf
    cases hg
    refine ⟨⟨h.pages, h.present, fun w hw => ?_⟩, fun c _ => rfl⟩
    rcases Set.mem_insert_iff.1 hw with rfl | hw
    · exact ⟨hv, by rw [HoldsPage, ← hframe, hf]; exact Option.some_ne_none f⟩
    · exact h.held w hw
  · rename_i hf
    obtain ⟨⟨f, m₁⟩, ha, hm⟩ := bind_ok hg
    obtain ⟨m₂, hm₂, hM, -⟩ := map_new h.pages hv (fun hh => absurd (hframe ▸ hf) hh) ha { writeable := true } rfl
    obtain rfl : m₂ = m := Except.ok.inj (hm₂.symm.trans hm)
    have hsame : ∀ w, w ≠ v → m₂.pte (0, w) = x.mem.pte (0, w) := fun w hw => hM.same (0, w) fun hc => hw (by omega)
    refine ⟨⟨hM.pages, hE.allPresent h.present, fun w hw => ?_⟩, fun c hc => ?_⟩
    · rcases Set.mem_insert_iff.1 hw with rfl | hw
      · exact ⟨hv, (hM.held w le_rfl (Nat.lt_succ_self w)).1⟩
      · rw [HoldsPage, hsame w fun he => hnot (he ▸ hw)]
        exact h.held w hw
    · exact load_congr hM.table (hsame _ fun he => hnot (he ▸ hc))

theorem Backed.returnPage {va : Nat} (h : x.Backed P) (hva : va % 4096 = 0) (hp : va / 4096 ∈ P) {m : Mem}
    (hr : Heap.returnPage x.mem va = .ok m) :
    Backed { x with mem := m } (P \ {va / 4096}) ∧
      ∀ c, c / 4096 ∈ P \ {va / 4096} → load { x with mem := m } c = x.load c := by
  obtain ⟨v, rfl⟩ : ∃ v, va = v * 4096 := ⟨va / 4096, by omega⟩
  rw [Nat.mul_div_cancel _ (by decide)] at hp ⊢
  have hv := (h.held v hp).1
  have hE := h.pages.evolves_return hv hr
  have hrd : roundDown (v * 4096) pageSize = v * 4096 := roundDown_of_dvd (by simp only [pageSize]; omega)
  simp only [Heap.returnPage, hrd] at hr
  cases hr
  obtain ⟨hK, hsame, -⟩ := h.pages.unmap hv
  have hother : ∀ w, w ≠ v → (x.mem.unmapFrame 0 (v * 4096)).pte (0, w) = x.mem.pte (0, w) := fun w hw =>
    hsame (0, w) fun he => hw (Prod.mk.inj he).2
  refine ⟨⟨hK, hE.allPresent h.present, fun w hw => ?_⟩, fun c hc => load_congr hE.table (hother _ hc.2)⟩
  rw [HoldsPage, hother w hw.2]
  exact h.held w hw.1

end Laws

end KernelRam

/-- The pages of the kernel heap, with the bytes of their frames. -/
def kernelMemory : PagedMemory KernelRam where
  getPage x va := do
    let mem ← getPage x.mem va
    return { x with mem }
  returnPage x va := do
    let mem ← returnPage x.mem va
    return { x with mem }
  load := KernelRam.load
  store := KernelRam.store
  area := {v | HeapPage v}
  Backed := KernelRam.Backed
  store_backed _ _ _ v h ha := h.store v ha
  getPage_backed x x' P va h hva hv hnot hg := by
    obtain ⟨m, hm, he⟩ := bind_ok hg
    cases he
    exact h.getPage hva hv hnot hm
  returnPage_backed x x' P va h hva hp hr := by
    obtain ⟨m, hm, he⟩ := bind_ok hr
    cases he
    exact h.returnPage hva hp hm

/-- At boot no page of the kernel heap is there. -/
theorem Booted.backed {m : Mem} (h : Booted m) (ram : Nat → Nat → UInt8) : KernelRam.Backed ⟨m, ram⟩ ∅ :=
  ⟨h.pages, fun v hv hh => absurd (by rw [h.empty v hv]; rfl) hh, fun _ hv => absurd hv (Set.notMem_empty _)⟩

/-- The kernel heap from boot on: whatever the frames hold, no call on its blocks changes a byte of another block in
use, and `realloc_block` answers with a block and takes the contents along. -/
theorem kernel_blocks_kept {m : Mem} (hm : Booted m) (ram : Nat → Nat → UInt8) {d₀ d : LinkedAlloc}
    (hinit : d₀.initializeDynamicAllocator kernelHeapStart (kernelHeapStart + dynAllocMaxSize) = .ok d)
    (cs : List LinkedCall) : Always (LinkedStep kernelMemory)
      (fun x => (∀ c y, LinkedStep kernelMemory x c y → x.Keeps kernelMemory c y) ∧ x.Serves kernelMemory)
        ⟨d, ⟨m, ram⟩, []⟩ cs := by
  refine (initialize_sound (by decide) (by decide) (by decide) (by decide) (hm.backed ram)
    (fun v h1 h2 => ?_) hinit).keeps cs
  simp only [kernelHeapStart, dynAllocMaxSize] at h1 h2
  exact ⟨by omega, by omega⟩

end Fos.Heap
