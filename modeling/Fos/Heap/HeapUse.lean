/-
Everything in use in the kernel heap, the blocks and the ranges of pages, over runs of `kmalloc` and
`kfree`: the block allocator's pages are the ones it has split, and the first frame of each range
records the size of the range.
-/
import Fos.Heap.BlockContents
import Fos.Heap.HeldFrames
import Fos.Heap.InverseMap
import Fos.Heap.PageRequests
import Fos.Heap.WaitingLoop

namespace Fos.Heap

open Fos.Memory Fos.Lib Fos.Lib.Extent DynAlloc

/-! ## Pages that are left alone -/

/-- The pages outside `T` keep their frames, and these what is recorded of them. -/
structure Beside (T : Nat → Prop) (m m' : Mem) : Prop where
  pte : ∀ w, HeapPage w → ¬ T w → m'.pte (0, w) = m.pte (0, w)
  info : ∀ w, HeapPage w → ¬ T w → ∀ g, (m.pte (0, w)).held = some g → m'.framesInfo g = m.framesInfo g

section Beside

variable {T T' : Nat → Prop} {m m₁ m' : Mem} {f v n : Nat}

theorem Beside.refl (T : Nat → Prop) (m : Mem) : Beside T m m := ⟨fun _ _ _ => rfl, fun _ _ _ _ _ => rfl⟩

theorem Beside.mono (h : Beside T m m') (hT : ∀ w, T w → T' w) : Beside T' m m' :=
  ⟨fun w hw hn => h.pte w hw fun ht => hn (hT w ht), fun w hw hn => h.info w hw fun ht => hn (hT w ht)⟩

theorem Beside.trans (h : Beside T m m₁) (h' : Beside T m₁ m') : Beside T m m' := by
  refine ⟨fun w hw hn => (h'.pte w hw hn).trans (h.pte w hw hn), fun w hw hn g hg => ?_⟩
  have hg' : (m₁.pte (0, w)).held = some g := by rw [h.pte w hw hn, hg]
  exact (h'.info w hw hn g hg').trans (h.info w hw hn g hg)

theorem KPages.beside_allocate (h : KPages m) (ha : m.allocateFrame = .ok (f, m')) : Beside T m m' := by
  have hmem : f ∈ m.freeFrameList := by
    rw [(h.allocate ha).2.2.2.1]
    exact List.mem_cons_self
  unfold Mem.allocateFrame at ha
  split at ha
  · cases ha
  · cases ha
    refine ⟨fun _ _ _ => rfl, fun w hw _ g hg => ?_⟩
    rw [Mem.setFrame_info, if_neg]
    rintro rfl
    exact (h.notFree w hw g hg).1 hmem

theorem KPages.beside_unmap (h : KPages m) (hv : HeapPage v) : Beside (· = v) m (m.unmapFrame 0 (v * 4096)) := by
  obtain ⟨-, hsame, -⟩ := h.unmap hv
  refine ⟨fun w _ hn => hsame (0, w) (by simpa using hn), fun w hw hn g hg => ?_⟩
  cases hf : (m.pte (0, v)).held with
  | none =>
    have hnone := h.getFrameInfo hv
    rw [hf] at hnone
    rw [unmap_none hnone]
  | some f =>
    have hgf : g ≠ f := fun he => hn (h.inj hw hv (he ▸ hg) hf)
    rw [h.unmap_eq hv hf, Mem.setPte_info, Mem.freeFrame, Mem.setFrame_info, if_neg hgf]

theorem KPages.beside_map (h : KPages m) (hv : HeapPage v) (hpres : HoldsPage m v → (m.pte (0, v)).perm.present = true)
    (hl : Loose m f 0) {perm : Perm} (hm : mapKernelFrame m f (v * 4096) perm = .ok m') : Beside (· = v) m m' := by
  obtain rfl := Except.ok.inj (hm.symm.trans (h.map_eq hv hpres (hl.unmapped v hv) perm))
  have hU := h.beside_unmap hv
  constructor
  · intro w hw hn
    have hne : ((0, w) : Nat × Nat) ≠ (0, v) := by simpa using hn
    rw [Mem.linkFrame, Mem.setPte_pte, slot_page, if_neg hne]
    exact hU.pte w hw hn
  · intro w hw hn g hg
    have hgf : g ≠ f := fun he => hl.unmapped w hw (he ▸ hg)
    simp only [Mem.linkFrame, Mem.setFrameVa, Mem.setPte_info, Mem.setFrame_info, if_neg hgf]
    exact hU.info w hw hn g hg

theorem KPages.beside_withSize (h : KPages m) (hv : HeapPage v) (size : Nat) :
    Beside (· = v) m (Mem.withSize m (v * 4096) size) := by
  refine ⟨fun w _ _ => by rw [(withSize_same m _ size).1], fun w hw hn g hg => ?_⟩
  unfold Mem.withSize
  cases hf : m.getFrameInfo 0 (v * 4096) with
  | none => rfl
  | some f =>
    rw [h.getFrameInfo hv] at hf
    simp only [Mem.setFrame_info]
    rw [if_neg fun he : g = f => hn (h.inj hw hv (he ▸ hg) hf)]

/-- `get_page` of one page. -/
theorem KPages.beside_get (h : KPages m) (hv : HeapPage v) (hg : getPage m (v * 4096) = .ok m') :
    Beside (· = v) m m' := by
  have hrd : roundDown (v * 4096) pageSize = v * 4096 := roundDown_of_dvd (by simp only [pageSize]; omega)
  simp only [getPage, hrd] at hg
  split at hg
  · cases hg
    exact .refl _ m
  · rename_i hf
    obtain ⟨⟨f, m₁⟩, ha, hm⟩ := bind_ok hg
    obtain ⟨hK, hl, hpte, -⟩ := h.allocate ha
    have hpres : HoldsPage m₁ v → (m₁.pte (0, v)).perm.present = true := by
      rw [HoldsPage, hpte, ← h.getFrameInfo hv, hf]
      exact fun hh => absurd rfl hh
    exact (h.beside_allocate ha).trans (hK.beside_map hv hpres hl hm)

theorem KPages.get_holds (h : KPages m) (hv : HeapPage v) (hg : getPage m (v * 4096) = .ok m') : HoldsPage m' v := by
  have hrd : roundDown (v * 4096) pageSize = v * 4096 := roundDown_of_dvd (by simp only [pageSize]; omega)
  simp only [getPage, hrd] at hg
  split at hg
  · rename_i f hf
    cases hg
    rw [HoldsPage, ← h.getFrameInfo hv, hf]
    exact Option.some_ne_none f
  · rename_i hf
    obtain ⟨⟨f, m₁⟩, ha, hm⟩ := bind_ok hg
    obtain ⟨m₂, hm₂, hM, -⟩ := map_new h hv (fun hh => absurd (h.getFrameInfo hv ▸ hf) hh) ha { writeable := true } rfl
    obtain rfl : m₂ = m' := Except.ok.inj (hm₂.symm.trans hm)
    exact (hM.held v le_rfl (Nat.lt_succ_self v)).1

/-- The loop of `kmalloc` over free pages. -/
theorem mapPages_beside {s t : Kernel} (hK : KPages s.mem) (hv : ∀ i < n, HeapPage (v + i))
    (hfree : ∀ w, v ≤ w → w < v + n → ¬ HoldsPage s.mem w) (h : mapPages (v * 4096) n s = .ok () t) :
    Beside (fun w => v ≤ w ∧ w < v + n) s.mem t.mem := by
  induction n generalizing v s with
  | zero =>
    cases h
    exact .refl _ _
  | succ n ih =>
    have hv0 : HeapPage v := hv 0 (Nat.succ_pos n)
    unfold mapPages at h
    obtain ⟨f, u, h1, h⟩ := ok_of_bind h
    obtain ⟨_, u', h2, h⟩ := ok_of_bind h
    obtain ⟨m₁, ha, rfl⟩ := onMem_ok h1
    obtain ⟨m₂, hm, rfl⟩ := onMem_ok h2
    obtain ⟨m₃, hm₃, he⟩ := bind_ok hm
    cases he
    obtain ⟨hK₁, hl, hpte, -⟩ := hK.allocate ha
    have hnone : ¬ HoldsPage m₁ v := by
      rw [HoldsPage, hpte]
      exact hfree v le_rfl (by omega)
    obtain ⟨m₂', hm₂', hK₂, -, hsame, -⟩ :=
      hK₁.map hv0 (fun hh => absurd hh hnone) hl { writeable := true, present := true } rfl
    obtain rfl : m₂' = m₂ := Except.ok.inj (hm₂'.symm.trans hm₃)
    have hfirst : Beside (fun w => v ≤ w ∧ w < v + (n + 1)) s.mem m₂' :=
      (hK.beside_allocate ha).trans ((hK₁.beside_map hv0 (fun hh => absurd hh hnone) hl hm₃).mono fun w hw => by omega)
    rw [add_page hv0.2] at h
    have hrest := ih hK₂ (fun i hi => by
      have := hv (i + 1) (by omega)
      rwa [show v + (i + 1) = v + 1 + i by omega] at this) (fun w h1 h2 hh => by
        apply hfree w (by omega) (by omega)
        have hne : ((0, w) : Nat × Nat) ≠ (0, v) := by
          intro he
          have := (Prod.mk.inj he).2
          omega
        rwa [HoldsPage, hsame _ hne, hpte] at hh) h
    exact hfirst.trans (hrest.mono fun w hw => by omega)

/-- The loop of `kfree`. -/
theorem freePages_beside {s t : Kernel} {i : Nat} (hK : KPages s.mem) (hv : ∀ i < n, HeapPage (v + i))
    (h : freePages (v * 4096) i n s = .ok () t) : Beside (fun w => v ≤ w ∧ w < v + n) s.mem t.mem := by
  induction n generalizing v i s with
  | zero =>
    cases h
    exact .refl _ _
  | succ n ih =>
    have hv0 : HeapPage v := hv 0 (Nat.succ_pos n)
    have hrd : roundDown (v * 4096) pageSize = v * 4096 := roundDown_of_dvd (by simp only [pageSize]; omega)
    unfold freePages at h
    obtain ⟨_, u, h1, h⟩ := ok_of_bind h
    obtain ⟨_, u', h2, h⟩ := ok_of_bind h
    obtain ⟨m₁, hr, rfl⟩ := onMem_ok h1
    obtain ⟨m₂, hm₂, he⟩ := bind_ok hr
    cases he
    cases h2
    simp only [returnPage, hrd] at hm₂
    cases hm₂
    rw [add_page hv0.2] at h
    have hrest := ih (hK.unmap hv0).1 (fun i hi => by
      have := hv (i + 1) (by omega)
      rwa [show v + (i + 1) = v + 1 + i by omega] at this) h
    exact ((hK.beside_unmap hv0).mono fun w hw => by omega).trans (hrest.mono fun w hw => by omega)

/-- The frames that the loop of `kfree` gives back are those of its pages. -/
theorem freePages_frees {s t : Kernel} {i : Nat} (hK : KPages s.mem) (hv : ∀ i < n, HeapPage (v + i))
    (h : freePages (v * 4096) i n s = .ok () t) : f ∈ t.mem.freeFrameList ↔
      f ∈ s.mem.freeFrameList ∨ ∃ w, v ≤ w ∧ w < v + n ∧ (s.mem.pte (0, w)).held = some f := by
  induction n generalizing v i s with
  | zero =>
    cases h
    refine ⟨.inl, ?_⟩
    rintro (hf | ⟨w, h1, h2, -⟩)
    · exact hf
    · omega
  | succ n ih =>
    have hv0 : HeapPage v := hv 0 (Nat.succ_pos n)
    have hrd : roundDown (v * 4096) pageSize = v * 4096 := roundDown_of_dvd (by simp only [pageSize]; omega)
    unfold freePages at h
    obtain ⟨_, u, h1, h⟩ := ok_of_bind h
    obtain ⟨_, u', h2, h⟩ := ok_of_bind h
    obtain ⟨m₁, hr, rfl⟩ := onMem_ok h1
    obtain ⟨m₂, hm₂, he⟩ := bind_ok hr
    cases he
    cases h2
    simp only [returnPage, hrd] at hm₂
    cases hm₂
    rw [add_page hv0.2] at h
    obtain ⟨hK', hsame, -, hfree, -⟩ := hK.unmap hv0
    have hrest := ih hK' (fun i hi => by
      have := hv (i + 1) (by omega)
      rwa [show v + (i + 1) = v + 1 + i by omega] at this) h
    have hpte : ∀ w, v + 1 ≤ w → (s.mem.unmapFrame 0 (v * 4096)).pte (0, w) = s.mem.pte (0, w) := fun w hw =>
      hsame (0, w) fun he => by
        have := (Prod.mk.inj he).2
        omega
    rw [hrest]
    simp only [hfree, List.mem_append, Option.mem_toList]
    constructor
    · rintro ((hf | hf) | ⟨w, h1, h2, hf⟩)
      · exact .inr ⟨v, le_rfl, by omega, hf⟩
      · exact .inl hf
      · exact .inr ⟨w, by omega, by omega, by rwa [hpte w h1] at hf⟩
    · rintro (hf | ⟨w, h1, h2, hf⟩)
      · exact .inl (.inr hf)
      · rcases Nat.eq_or_lt_of_le h1 with rfl | hlt
        · exact .inl (.inl hf)
        · exact .inr ⟨w, hlt, by omega, by rwa [hpte w hlt]⟩

end Beside

/-! ## The pages of the block allocator -/

section Blocks

variable {M : Type} {src : PageSource M} {s s' : DynAlloc} {m m' : M}

/-- `alloc_block` leaves the pages alone, or gets the first free page. -/
theorem allocBlock_split {size : Nat} {r : AllocResult} (h : allocBlock src s m size = .ok (r, s', m')) :
    (m' = m ∧ s'.freePagesList = s.freePagesList) ∨
    ∃ p rest pageVa, s.freePagesList = p :: rest ∧ s'.freePagesList = rest ∧ toPageVa s p = .ok pageVa ∧
      src.getPage m pageVa = .ok m' := by
  unfold allocBlock at h
  split at h
  · cases h
  split at h
  · cases h; exact .inl ⟨rfl, rfl⟩
  simp only at h
  split at h
  · obtain ⟨⟨b, s₁⟩, ht, h⟩ := bind_ok h
    cases h
    obtain ⟨-, -, -, -, hpages, -⟩ := takeFirst_ok ht
    exact .inl ⟨rfl, hpages⟩
  split at h
  · rename_i p rest hp
    obtain ⟨pageVa, hva, h⟩ := bind_ok h
    obtain ⟨m₁, hget, h⟩ := bind_ok h
    obtain ⟨⟨b, s₁⟩, ht, h⟩ := bind_ok h
    cases h
    obtain ⟨-, -, -, -, hpages, -⟩ := takeFirst_ok ht
    exact .inr ⟨p, rest, pageVa, hp, hpages, hva, hget⟩
  · split at h
    · obtain ⟨⟨b, s₁⟩, ht, h⟩ := bind_ok h
      cases h
      obtain ⟨-, -, -, -, hpages, -⟩ := takeFirst_ok ht
      exact .inl ⟨rfl, hpages⟩
    · cases h; exact .inl ⟨rfl, rfl⟩

theorem allocBlock_ne_null {size : Nat} (h0 : 0 < size) : allocBlock src s m size ≠ .ok (.null, s', m') := by
  intro h
  unfold allocBlock at h
  split at h
  · cases h
  rw [if_neg h0.ne'] at h
  simp only at h
  split at h
  · obtain ⟨⟨b, s₁⟩, ht, h⟩ := bind_ok h
    obtain ⟨va, -, -, rfl, -⟩ := takeFirst_ok ht
    cases h
  split at h
  · obtain ⟨pageVa, -, h⟩ := bind_ok h
    obtain ⟨m₁, -, h⟩ := bind_ok h
    obtain ⟨⟨b, s₁⟩, ht, h⟩ := bind_ok h
    obtain ⟨va, -, -, rfl, -⟩ := takeFirst_ok ht
    cases h
  · split at h
    · obtain ⟨⟨b, s₁⟩, ht, h⟩ := bind_ok h
      obtain ⟨va, -, -, rfl, -⟩ := takeFirst_ok ht
      cases h
    · cases h

/-- `free_block` leaves the pages alone, or returns the page of the block. -/
theorem freeBlock_split {va : Nat} (h : freeBlock src s m va = .ok (s', m')) :
    (m' = m ∧ s'.freePagesList = s.freePagesList) ∨
    (s'.freePagesList = sub32 va s.dynAllocStart / pageSize :: s.freePagesList ∧
      src.returnPage m (add32 s.dynAllocStart (mul32 (sub32 va s.dynAllocStart / pageSize) pageSize)) = .ok m') := by
  unfold freeBlock at h
  split at h
  · cases h
  simp only at h
  split at h
  · cases h
  split at h
  · obtain ⟨m₁, hret, h⟩ := bind_ok h
    cases h
    exact .inr ⟨rfl, hret⟩
  · cases h; exact .inl ⟨rfl, rfl⟩

end Blocks

/-! ## The invariant -/

/-- The kernel, and what is in use of its heap. -/
structure HeapUse where
  kernel : Kernel
  blocks : List LiveBlock
  live : List Extent

/-- The pages in use hold frames, and are present but for the guard pages `G` of kernel stacks. -/
structure HeapUse.Inv (h : HeapUse) (G : Set Nat) (b : Nat) : Prop where
  heap : KHeap.Inv ⟨h.kernel, h.live⟩ b
  blocks : DynAlloc.Ok 8192 h.kernel.dyn h.blocks
  present : PresentBut G h.kernel.mem
  last : h.kernel.mem.pte (0, 1048575) = {}
  split : ∀ p < 8192, HoldsPage h.kernel.mem (1007616 + p) ↔ p ∉ h.kernel.dyn.freePagesList
  sizes : ∀ e ∈ h.live, ∀ f, (h.kernel.mem.pte (0, e.start / 4096)).held = some f →
    (h.kernel.mem.framesInfo f).size = e.len

section Inv

variable {h : HeapUse} {G : Set Nat} {b : Nat}

theorem HeapUse.Inv.allPresent (hI : h.Inv ∅ b) : AllPresent h.kernel.mem := presentBut_empty.1 hI.present

/-- The first page of a range in use. -/
theorem HeapUse.Inv.first (hI : h.Inv G b) {e : Extent} (he : e ∈ h.live) : ∃ p n, e = ⟨p * 4096, n * 4096⟩ ∧ 0 < n ∧
    1015809 ≤ p ∧ p + n ≤ b ∧ ∀ w, p ≤ w → w < p + n → HoldsPage h.kernel.mem w := by
  have hf := hI.heap.packed.fits e he
  have h1 := hf.lo
  have h2 := hf.hi
  have h3 := hf.start
  have h4 := hf.len
  have h5 := hf.pos
  have hhigh := hI.heap.high
  simp only [fin] at h2
  refine ⟨e.start / 4096, e.len / 4096, ?_, by omega, by omega, by omega, fun w hw1 hw2 => ?_⟩
  · rw [Extent.mk.injEq]
    omega
  · refine (hI.heap.mapped w (by omega) (by omega)).2 ⟨e, he, ?_⟩
    simp only [Has, fin]
    omega

/-- A change of the blocks and of their pages alone. -/
theorem HeapUse.Inv.changeBlocks (hI : h.Inv G b) {dyn : DynAlloc} {m : Mem} {blocks : List LiveBlock}
    (hok : DynAlloc.Ok 8192 dyn blocks) (hs : dyn.dynAllocStart = h.kernel.dyn.dynAllocStart)
    (he : dyn.dynAllocEnd = h.kernel.dyn.dynAllocEnd) (hE : Evolves h.kernel.mem m)
    (hB : Beside (fun w => w < 1015809) h.kernel.mem m)
    (hsplit : ∀ p < 8192, HoldsPage m (1007616 + p) ↔ p ∉ dyn.freePagesList) :
    HeapUse.Inv ⟨{ h.kernel with dyn, mem := m }, blocks, h.live⟩ G b := by
  have hpte : ∀ v, 1015809 ≤ v → v < 1048575 → m.pte (0, v) = h.kernel.mem.pte (0, v) := fun v h1 h2 =>
    hB.pte v ⟨by omega, h2⟩ (by omega)
  constructor
  · exact hI.heap.congr hI.heap.lock hs he rfl rfl rfl hE.pages hpte
  · exact hok
  · exact hE.presentBut hI.present
  · exact (hE.outside _ fun hc => absurd hc.2.2 (by decide)).trans hI.last
  · exact hsplit
  · intro e he f hf
    obtain ⟨p, n, rfl, hn, hlo, hhi, -⟩ := hI.first he
    have hhigh := hI.heap.high
    have hdiv : p * 4096 / 4096 = p := by omega
    simp only [hdiv] at hf
    rw [hpte p hlo (by omega)] at hf
    show (m.framesInfo f).size = _
    rw [hB.info p ⟨by omega, by omega⟩ (by omega) f hf]
    exact hI.sizes _ he f (by simp only [hdiv]; exact hf)

theorem HeapUse.Inv.dynStart (hI : h.Inv G b) : h.kernel.dyn.dynAllocStart = kernelHeapStart := hI.heap.dynStart

/-- The page that index `p` of the block allocator stands for. -/
theorem HeapUse.Inv.pageVa (hI : h.Inv G b) {p : Nat} (hp : p < 8192) :
    add32 h.kernel.dyn.dynAllocStart (mul32 p pageSize) = (1007616 + p) * 4096 ∧ HeapPage (1007616 + p) := by
  rw [hI.dynStart]
  exact dyn_page hp

/-- `alloc_block`: the block is in use, and at most a page was added. -/
theorem HeapUse.Inv.allocBlock (hI : h.Inv G b) {size va : Nat} {dyn : DynAlloc} {m : Mem} (hs : size ≤ 2048)
    (ha : Heap.allocBlock kernelPages h.kernel.dyn h.kernel.mem size = .ok (.block va, dyn, m)) :
    HeapUse.Inv ⟨{ h.kernel with dyn, mem := m }, ⟨va, size⟩ :: h.blocks, h.live⟩ G b ∧
      Beside (fun w => ¬ HoldsPage h.kernel.mem w) h.kernel.mem m := by
  obtain ⟨⟨hs', he'⟩, -⟩ := allocBlock_pages ha
  have hok : DynAlloc.Ok 8192 dyn (⟨va, size⟩ :: h.blocks) := by
    rcases allocBlock_spec kernelPages hI.blocks h.kernel.mem hs with ⟨e, pageVa, -, hbad⟩ | ⟨r, s', m', hrun, hok⟩
    · rw [hbad] at ha; cases ha
    · rw [hrun] at ha
      cases ha
      exact hok
  rcases allocBlock_split ha with ⟨rfl, hpages⟩ | ⟨p, rest, pageVa, hp, hrest, hva, hget⟩
  · exact ⟨hI.changeBlocks hok hs' he' (.refl hI.heap.pages) (.refl _ _)
      (fun p hp => by rw [hpages]; exact hI.split p hp), .refl _ _⟩
  · obtain ⟨hp8, -⟩ := hI.blocks.inv.freePages p (by rw [hp]; exact List.mem_cons_self)
    obtain ⟨hpv, hpage⟩ := hI.pageVa hp8
    obtain rfl : pageVa = (1007616 + p) * 4096 := by
      rw [toPageVa, if_neg (by have : maxPages = 8192 := rfl; omega), hpv] at hva
      exact (Except.ok.inj hva).symm
    have hget : getPage h.kernel.mem ((1007616 + p) * 4096) = .ok m := hget
    have hE := hI.heap.pages.evolves_get hpage hget
    have hB := hI.heap.pages.beside_get hpage hget
    have hnot : ¬ HoldsPage h.kernel.mem (1007616 + p) := fun hh =>
      (hI.split p hp8).1 hh (by rw [hp]; exact List.mem_cons_self)
    have hheld : HoldsPage m (1007616 + p) := hI.heap.pages.get_holds hpage hget
    have hnd := hI.blocks.inv.freeNodup
    rw [hp, List.nodup_cons] at hnd
    refine ⟨hI.changeBlocks hok hs' he' hE (hB.mono fun w hw => by omega) fun q hq => ?_,
      hB.mono fun w hw => by rw [hw]; exact hnot⟩
    rw [hrest]
    by_cases hqp : q = p
    · subst hqp
      exact ⟨fun _ => hnd.1, fun _ => hheld⟩
    · rw [HoldsPage, hB.pte (1007616 + q) (dyn_page hq).2 (by omega), ← HoldsPage, hI.split q hq, hp, List.mem_cons]
      tauto

/-- `free_block` of a block in use: at most its page was given back. -/
theorem HeapUse.Inv.freeBlock (hI : h.Inv G b) {c : LiveBlock} {rest : List LiveBlock}
    (hc : h.blocks.Perm (c :: rest)) :
    ∃ dyn m, Heap.freeBlock kernelPages h.kernel.dyn h.kernel.mem c.va = .ok (dyn, m) ∧
      HeapUse.Inv ⟨{ h.kernel with dyn, mem := m }, rest, h.live⟩ G b ∧
      Beside (fun w => ¬ HoldsPage m w) h.kernel.mem m := by
  have hok : DynAlloc.Ok 8192 h.kernel.dyn (c :: rest) := ⟨hI.blocks.inv.perm hc, hI.blocks.used⟩
  obtain ⟨k, hblk, -⟩ := hok.inv.liveBlock c List.mem_cons_self
  rcases freeBlock_spec kernelPages hok h.kernel.mem with ⟨e, pageVa, hbad, -⟩ | ⟨dyn, m, hrun, hok'⟩
  · cases hbad
  refine ⟨dyn, m, hrun, ?_⟩
  obtain ⟨⟨hs', he'⟩, -⟩ := freeBlock_pages hrun
  rcases freeBlock_split hrun with ⟨rfl, hpages⟩ | ⟨hrest, hret⟩
  · exact ⟨hI.changeBlocks hok' hs' he' (.refl hI.heap.pages) (.refl _ _)
      (fun p hp => by rw [hpages]; exact hI.split p hp), .refl _ _⟩
  · obtain ⟨hidx, -⟩ := Block.index hok.inv hblk
    have hp8 := hblk.page
    obtain ⟨p, hp⟩ : ∃ p, h.kernel.dyn.page c.va = p := ⟨_, rfl⟩
    rw [hp] at hidx hp8
    rw [hidx] at hrest hret
    obtain ⟨hpv, hpage⟩ := hI.pageVa hp8
    rw [hpv] at hret
    have hret : returnPage h.kernel.mem ((1007616 + p) * 4096) = .ok m := hret
    have hE := hI.heap.pages.evolves_return hpage hret
    have hrd : roundDown ((1007616 + p) * 4096) pageSize = (1007616 + p) * 4096 :=
      roundDown_of_dvd (by simp only [pageSize]; omega)
    simp only [returnPage, hrd] at hret
    obtain rfl := Except.ok.inj hret
    have hB := hI.heap.pages.beside_unmap hpage
    have hnone : ¬ HoldsPage (h.kernel.mem.unmapFrame 0 ((1007616 + p) * 4096)) (1007616 + p) := by
      rw [HoldsPage, (hI.heap.pages.unmap hpage).2.2.1]
      exact fun hh => hh rfl
    refine ⟨hI.changeBlocks hok' hs' he' hE (hB.mono fun w hw => by omega) fun q hq => ?_,
      hB.mono fun w hw => by rw [hw]; exact hnone⟩
    rw [hrest]
    by_cases hqp : q = p
    · subst hqp
      exact ⟨fun hh => absurd hh hnone, fun hh => absurd List.mem_cons_self hh⟩
    · rw [HoldsPage, hB.pte (1007616 + q) (dyn_page hq).2 (by omega), ← HoldsPage, hI.split q hq, List.mem_cons]
      tauto

/-- `kmalloc` of a range of free pages. -/
theorem kmalloc_beside {k : KHeap} {size va p n : Nat} {t : Kernel} (hI : k.Inv b) (hs : 2048 < size)
    (hn : pagesOf size = n) (hpos : 0 < n)
    (hva : va = p * 4096) (hp : 0 < p) (hfree : ∀ w, p ≤ w → w < p + n → ¬ HoldsPage k.kernel.mem w)
    (hr : kmalloc size k.kernel = .ok va t) : Beside (fun w => p ≤ w ∧ w < p + n) k.kernel.mem t.mem := by
  cases kmalloc_outcome hI.pages.tables hI.start hI.brk hI.low hI.high hr with
  | null => omega
  | block hs' => omega
  | @pages q b' m' hs' hq hlow hb' hlen hm =>
    obtain rfl : q = p := by omega
    rw [hn] at hq hm ⊢
    rcases mapPages_spec n q k.kernel.locked hI.pages hq (fun w h1 h2 hh => absurd hh (hfree w h1 h2)) with
      ⟨m₂, hm₂, hM⟩ | ⟨-, e, m₂, hm₂⟩
    · have hB := mapPages_beside (s := k.kernel.locked) hI.pages hq hfree hm₂
      obtain rfl : m' = m₂ := congrArg Kernel.mem (EStateM.Result.ok.inj (hm.symm.trans hm₂)).2
      exact hB.trans ((hM.pages.beside_withSize (hq 0 hpos) (n * 4096)).mono fun w hw => by omega)
    · rw [hm] at hm₂
      cases hm₂

/-- `kmalloc` of pages: `NULL` and nothing changed, or a range of free pages is in use. -/
theorem HeapUse.Inv.kmallocPages (hI : h.Inv G b) {size va : Nat} {t : Kernel} (hs : 2048 < size)
    (hsize : size ≤ 4294963200)
    (hr : kmalloc size h.kernel = .ok va t) : va = 0 ∧ t = h.kernel ∨
    ∃ p n b', va = p * 4096 ∧ n = (size + 4095) / 4096 ∧ 1015809 ≤ p ∧ p + n < 1048575 ∧
      (∀ w, p ≤ w → w < p + n → ¬ HoldsPage h.kernel.mem w) ∧
      HeapUse.Inv ⟨t, h.blocks, ⟨p * 4096, n * 4096⟩ :: h.live⟩ G b' ∧
      Beside (fun w => p ≤ w ∧ w < p + n) h.kernel.mem t.mem := by
  have hlow := hI.heap.low
  obtain ⟨n, hn⟩ : ∃ n, (size + 4095) / 4096 = n := ⟨_, rfl⟩
  have hpn : pagesOf size = n := (roundUp_div size hsize).trans hn
  by_cases hr' : h.kernel.Refuses n
  · rw [kmalloc_pages hI.heap.lock hs (by rw [hI.heap.brk]; omega), hpn, if_pos hr'] at hr
    cases hr
    exact .inl ⟨rfl, rfl⟩
  obtain ⟨p, b', hlo, hb, hb', hfree, ⟨m', hM, hrun⟩ | ⟨-, e, m', hrun⟩⟩ :=
    kmalloc_takes hI.heap hs hpn (by omega) (by omega) hr'
  · have hpages : ∀ i < n, HeapPage (p + i) := fun i hi => ⟨by omega, by omega⟩
    rw [hrun] at hr
    cases hr
    have hT := hI.heap.take (by omega) hlo hb hb' hfree hM
    have hE : Evolves h.kernel.mem (Mem.withSize m' (p * 4096) (n * 4096)) :=
      (hM.evolves hpages).trans hM.pages.evolves_size
    have hB : Beside (fun w => p ≤ w ∧ w < p + n) h.kernel.mem (Mem.withSize m' (p * 4096) (n * 4096)) :=
      kmalloc_beside hI.heap hs hpn (by omega) rfl (by omega) hfree hrun
    refine .inr ⟨p, n, b', rfl, hn.symm, hlo, by omega, hfree, ⟨hT, hI.blocks, hE.presentBut hI.present, ?_,
      fun q hq => ?_, ?_⟩, hB⟩
    · exact (hE.outside _ fun hc => absurd hc.2.2 (by decide)).trans hI.last
    · show HoldsPage (Mem.withSize m' (p * 4096) (n * 4096)) _ ↔ _
      rw [HoldsPage, hB.pte _ (dyn_page hq).2 (by omega)]
      exact hI.split q hq
    · intro e he f hf
      rcases List.mem_cons.1 he with rfl | he
      · have hdiv : p * 4096 / 4096 = p := by omega
        simp only [hdiv, (withSize_same m' (p * 4096) (n * 4096)).1] at hf
        have hframe : m'.getFrameInfo 0 (p * 4096) = some f := (hM.pages.getFrameInfo (hpages 0 (by omega))).trans hf
        simp only [Mem.withSize, hframe, Mem.setFrame_info, if_true]
      · obtain ⟨q, k, rfl, hk, hq, hqk, hheld⟩ := hI.first he
        have hdiv : q * 4096 / 4096 = q := by omega
        have hhigh := hI.heap.high
        have hout : ¬ (p ≤ q ∧ q < p + n) := fun hin => hfree q hin.1 hin.2 (hheld q le_rfl (by omega))
        have hqp : HeapPage q := ⟨by omega, by omega⟩
        simp only [hdiv] at hf
        rw [hB.pte q hqp hout] at hf
        rw [hB.info q hqp hout f hf]
        exact hI.sizes _ he f (by simp only [hdiv]; exact hf)
  · rw [hrun] at hr
    cases hr

/-- What `kfree` of a range in use leaves alone, and the frames it frees. -/
theorem kfree_beside {k : KHeap} {e : Extent} {t : Kernel} (hI : k.Inv b) (he : e ∈ k.live)
    (hr : kfree e.start k.kernel = .ok () t) : t.dyn = k.kernel.dyn ∧
      Beside (fun w => e.Has (w * 4096)) k.kernel.mem t.mem ∧
      ∀ f, f ∈ t.mem.freeFrameList ↔ f ∈ k.kernel.mem.freeFrameList ∨
        ∃ w, e.Has (w * 4096) ∧ (k.kernel.mem.pte (0, w)).held = some f := by
  have hhigh := hI.high
  have hf := hI.packed.fits e he
  have h1 := hf.lo
  have h2 := hf.hi
  have h3 := hf.start
  have h4 := hf.len
  have h5 := hf.pos
  simp only [fin] at h2
  obtain ⟨p, hp⟩ : ∃ p, e.start = p * 4096 := ⟨e.start / 4096, by omega⟩
  obtain ⟨n, hn⟩ : ∃ n, e.len = n * 4096 := ⟨e.len / 4096, by omega⟩
  obtain rfl : e = ⟨p * 4096, n * 4096⟩ := by rw [← hp, ← hn]
  have hsz : k.kernel.allocatedSize.val p = n * 4096 :=
    hI.sizes _ he p (has_pages.2 ⟨le_rfl, by simp only at h5; omega⟩)
  have hdiv : p * 4096 / 4096 = p := by omega
  simp only at h1 h2 h5
  have hout : p * 4096 < k.kernel.dyn.dynAllocStart ∨ k.kernel.dyn.dynAllocEnd ≤ p * 4096 := by
    right
    rw [hI.dynEnd]
    simp only [kernelHeapStart, dynAllocMaxSize]
    omega
  rw [kfree_page hI.lock hout (by rw [hI.start]; exact h1) (by simp only [kernelHeapMax]; omega), hdiv, hsz,
    pages_of_size (by omega)] at hr
  split at hr
  · cases hr
  split at hr
  · cases hr
  obtain ⟨m', hm', -⟩ := freePages_spec n p
    { k.kernel.locked with allocatedSize := ⟨k.kernel.allocatedSize.val, p :: k.kernel.allocatedSize.used⟩ }
    hI.pages (fun i hi => ⟨by omega, by omega⟩)
  have hpages : ∀ i < n, HeapPage (p + i) := fun i hi => ⟨by omega, by omega⟩
  have hB := freePages_beside (s := { k.kernel.locked with
      allocatedSize := ⟨k.kernel.allocatedSize.val, p :: k.kernel.allocatedSize.used⟩ }) hI.pages hpages hm'
  have hfree := fun f => freePages_frees (f := f) (s := { k.kernel.locked with
      allocatedSize := ⟨k.kernel.allocatedSize.val, p :: k.kernel.allocatedSize.used⟩ }) hI.pages hpages hm'
  rw [bind_of_ok hm', bind_of_ok (modify_eq _ _), releaseLock_eq rfl] at hr
  cases hr
  refine ⟨rfl, hB.mono fun w hw => has_pages.2 hw, fun f => (hfree f).trans (or_congr Iff.rfl ?_)⟩
  exact exists_congr fun w => (and_assoc.symm.trans (and_congr has_pages.symm Iff.rfl))

/-- `kfree` of a range in use. -/
theorem HeapUse.Inv.kfree (hI : h.Inv G b) {e : Extent} {rest : List Extent} (he : h.live.Perm (e :: rest)) :
    ∃ t b', Heap.kfree e.start h.kernel = .ok () t ∧ HeapUse.Inv ⟨t, h.blocks, rest⟩ G b' ∧
      Beside (fun w => e.Has (w * 4096)) h.kernel.mem t.mem ∧ (∀ w, e.Has (w * 4096) → ¬ HoldsPage t.mem w) ∧
      ∀ f, f ∈ t.mem.freeFrameList ↔ f ∈ h.kernel.mem.freeFrameList ∨
        ∃ w, e.Has (w * 4096) ∧ (h.kernel.mem.pte (0, w)).held = some f := by
  have hhigh := hI.heap.high
  obtain ⟨t, b', hrun, hI', hpte⟩ := kfree_inv hI.heap he
  obtain ⟨p, n, rfl, hn, hlo, hhi, hheld⟩ := hI.first (he.mem_iff.2 List.mem_cons_self)
  obtain ⟨hdyn, hB, hfree⟩ := kfree_beside hI.heap (he.mem_iff.2 List.mem_cons_self) hrun
  have hnone : ∀ w, (Extent.mk (p * 4096) (n * 4096)).Has (w * 4096) → ¬ HoldsPage t.mem w := by
    intro w hw hh
    obtain ⟨h1, h2⟩ := has_pages.1 hw
    obtain ⟨d, hd, hdw⟩ := (hI'.mapped w (by omega) (by omega)).1 hh
    exact ((packed_cons.1 (hI.heap.packed.perm he)).1 d hd).disjoint _ ⟨hw, hdw⟩
  refine ⟨t, b', hrun, ⟨hI', ?_, fun w hG hw hh => ?_, ?_, fun q hq => ?_, fun d hd f hf => ?_⟩, hB, hnone, hfree⟩
  · show DynAlloc.Ok 8192 t.dyn h.blocks
    rw [hdyn]
    exact hI.blocks
  · by_cases hin : (Extent.mk (p * 4096) (n * 4096)).Has (w * 4096)
    · exact absurd hh (hnone w hin)
    · rw [HoldsPage, hpte w hin] at hh
      rw [show t.mem.pte (0, w) = _ from hpte w hin]
      exact hI.present w hG hw hh
  · exact (hpte 1048575 fun hin => by have := has_pages.1 hin; omega).trans hI.last
  · show HoldsPage t.mem _ ↔ _ ∉ t.dyn.freePagesList
    rw [hdyn, HoldsPage, hpte _ fun hin => by have := has_pages.1 hin; omega]
    exact hI.split q hq
  · have hmem : d ∈ h.live := he.mem_iff.2 (List.mem_cons_of_mem _ hd)
    obtain ⟨q, k, rfl, hk, hq, hqk, -⟩ := hI.first hmem
    have hdiv : q * 4096 / 4096 = q := by omega
    have hout : ¬ (Extent.mk (p * 4096) (n * 4096)).Has (q * 4096) := fun hin =>
      ((packed_cons.1 (hI.heap.packed.perm he)).1 _ hd).disjoint _ ⟨hin, has_pages.2 ⟨le_rfl, by omega⟩⟩
    have hqp : HeapPage q := ⟨by omega, by omega⟩
    simp only [hdiv] at hf
    rw [show t.mem.pte (0, q) = _ from hpte q hout] at hf
    show (t.mem.framesInfo f).size = _
    rw [hB.info q hqp hout f hf]
    exact hI.sizes _ hmem f (by simp only [hdiv]; exact hf)

/-- `kfree` of an address in the area of the block allocator. -/
theorem kfree_of_block {s : Kernel} {va : Nat} {dyn : DynAlloc} {m : Mem} (hl : s.lock = false)
    (hin : s.dyn.dynAllocStart ≤ va ∧ va < s.dyn.dynAllocEnd)
    (hrun : Heap.freeBlock kernelPages s.dyn s.mem va = .ok (dyn, m)) :
    Heap.kfree va s = .ok () { s with dyn, mem := m } := by
  have hin' : s.locked.dyn.dynAllocStart ≤ va ∧ va < s.locked.dyn.dynAllocEnd := hin
  have hrun' : Heap.freeBlock kernelPages s.locked.dyn s.locked.mem va = .ok (dyn, m) := hrun
  unfold Heap.kfree
  rw [bind_of_ok (acquireLock_eq hl), bind_of_ok (get_eq s.locked), if_pos hin']
  simp only [hrun']
  have hset : (set { s.locked with dyn, mem := m } : KM Unit) s.locked = .ok () { s.locked with dyn, mem := m } := rfl
  rw [bind_of_ok hset, releaseLock_eq rfl]
  exact congrArg (fun l => EStateM.Result.ok () ({ s with dyn, mem := m, lock := l } : Kernel)) hl.symm

/-- Where a block in use lies. -/
theorem HeapUse.Inv.block (hI : h.Inv G b) {c : LiveBlock} (hc : c ∈ h.blocks) :
    ∃ k, h.kernel.dyn.Block 8192 k c.va ∧ c.size ≤ 8 * 2 ^ k ∧ kernelHeapStart ≤ c.va ∧
      c.va + 8 * 2 ^ k ≤ 1015808 * 4096 := by
  obtain ⟨k, hB, hsz, -⟩ := hI.blocks.inv.liveBlock c hc
  have hend : h.kernel.dyn.dynAllocEnd = 1015808 * 4096 := hI.heap.dynEnd
  exact ⟨k, hB, hsz, hI.dynStart ▸ hB.lo, hend ▸ Block.below hI.blocks.inv hB⟩

/-- `kfree` of a block in use. -/
theorem HeapUse.Inv.kfreeBlock (hI : h.Inv G b) {c : LiveBlock} {rest : List LiveBlock}
    (hc : h.blocks.Perm (c :: rest)) :
    ∃ t, Heap.kfree c.va h.kernel = .ok () t ∧ HeapUse.Inv ⟨t, rest, h.live⟩ G b := by
  obtain ⟨k, -, -, hlo, hhi⟩ := hI.block (hc.mem_iff.2 List.mem_cons_self)
  obtain ⟨dyn, m, hrun, hI', -⟩ := hI.freeBlock hc
  refine ⟨{ h.kernel with dyn, mem := m }, kfree_of_block hI.heap.lock ?_ hrun, hI'⟩
  have hpos := class_pos k
  rw [hI.dynStart, show h.kernel.dyn.dynAllocEnd = 1015808 * 4096 from hI.heap.dynEnd]
  exact ⟨hlo, by omega⟩

/-- What `alloc_block` did for a `kmalloc` of a block that returned. -/
theorem kmalloc_block_ok {s t : Kernel} {size va : Nat} (hl : s.lock = false) (h0 : 0 < size) (hs : size ≤ 2048)
    (hr : kmalloc size s = .ok va t) :
    ∃ dyn m, Heap.allocBlock kernelPages s.dyn s.mem size = .ok (.block va, dyn, m) ∧ t = { s with dyn, mem := m } := by
  rw [kmalloc_block hl h0 hs] at hr
  obtain ⟨va', r, ha, hr⟩ := ok_of_bind hr
  obtain ⟨_, r', hrel, hr⟩ := ok_of_bind hr
  obtain rfl := releaseLock_ok hrel
  cases hr
  simp only [kallocBlock, locked_dyn, locked_mem] at ha
  split at ha
  · rename_i ha'
    exact absurd ha' (allocBlock_ne_null h0)
  · rename_i dyn m ha'
    cases ha
    exact ⟨dyn, m, ha', congrArg (fun l => ({ s with dyn, mem := m, lock := l } : Kernel)) hl.symm⟩
  · cases ha
  · cases ha

/-- `kmalloc` of a block that returned. -/
theorem HeapUse.Inv.kmallocBlock (hI : h.Inv G b) {size va : Nat} {t : Kernel} (h0 : 0 < size) (hs : size ≤ 2048)
    (hr : kmalloc size h.kernel = .ok va t) : va ≠ 0 ∧ HeapUse.Inv ⟨t, ⟨va, size⟩ :: h.blocks, h.live⟩ G b ∧
      Beside (fun w => ¬ HoldsPage h.kernel.mem w) h.kernel.mem t.mem := by
  obtain ⟨dyn, m, ha, rfl⟩ := kmalloc_block_ok hI.heap.lock h0 hs hr
  obtain ⟨hI', hB⟩ := hI.allocBlock hs ha
  obtain ⟨k, -, -, hlo, -⟩ := hI'.block List.mem_cons_self
  exact ⟨by simp only [kernelHeapStart] at hlo; omega, hI', hB⟩

end Inv

/-! ## Runs -/

/-- Any size can be asked for; what is in use can be freed. -/
def HeapUse.Legal (h : HeapUse) : HeapCall → Prop
  | .kmalloc size => size < 4294967296
  | .kfree va => (∃ c ∈ h.blocks, c.va = va) ∨ ∃ e ∈ h.live, e.start = va

/-- What is in use after a `kmalloc` of `size` bytes. A size whose pages wrap to none gets an address and no page. -/
def HeapUse.grant (h : HeapUse) (size va : Nat) (s : Kernel) : HeapUse :=
  if va = 0 then ⟨s, h.blocks, h.live⟩
  else if size ≤ dynAllocMaxBlockSize then ⟨s, ⟨va, size⟩ :: h.blocks, h.live⟩
  else if pagesOf size = 0 then ⟨s, h.blocks, h.live⟩
  else ⟨s, h.blocks, ⟨va, pagesOf size * 4096⟩ :: h.live⟩

/-- The call and what is in use after it; no state follows a call that stops. -/
def HeapUse.call (h : HeapUse) : HeapCall → Option HeapUse
  | .kmalloc size =>
    match kmalloc size h.kernel with
    | .ok va s => some (h.grant size va s)
    | .error _ _ => none
  | .kfree va =>
    match kfree va h.kernel with
    | .ok _ s => some ⟨s, h.blocks.eraseP (·.va == va), release h.live va⟩
    | .error _ _ => none

def HeapUseStep (h : HeapUse) (c : HeapCall) (h' : HeapUse) : Prop := h.Legal c ∧ h.call c = some h'

section Steps

variable {h h' : HeapUse} {b : Nat}

theorem HeapUse.Inv.step (hI : h.Inv G b) {c : HeapCall} (hstep : HeapUseStep h c h') : ∃ b', h'.Inv G b' := by
  obtain ⟨hl, hrun⟩ := hstep
  cases c with
  | kmalloc size =>
    simp only [HeapUse.call] at hrun
    split at hrun
    · rename_i va s hr
      obtain rfl := Option.some.inj hrun
      rcases Nat.eq_zero_or_pos size with rfl | hpos
      · rw [kmalloc_empty hI.heap.lock] at hr
        cases hr
        exact ⟨b, hI⟩
      by_cases hs : size ≤ 2048
      · obtain ⟨hne, hI', -⟩ := hI.kmallocBlock hpos hs hr
        rw [HeapUse.grant, if_neg hne, if_pos (show size ≤ dynAllocMaxBlockSize from hs)]
        exact ⟨b, hI'⟩
      by_cases hsize : size ≤ 4294963200
      · rcases hI.kmallocPages (by omega) hsize hr with ⟨rfl, rfl⟩ | ⟨p, n, b', rfl, hn, hlo, -, -, hI', -⟩
        · rw [HeapUse.grant, if_pos rfl]
          exact ⟨b, hI⟩
        · have hpn : pagesOf size = n := (roundUp_div size hsize).trans hn.symm
          rw [HeapUse.grant, if_neg (by omega), if_neg (show ¬ size ≤ dynAllocMaxBlockSize from hs), hpn,
            if_neg (by omega)]
          exact ⟨b', hI'⟩
      · obtain ⟨p, hlo, -, -, hsame⟩ := kmalloc_wrapped_same hI.heap (Nat.lt_of_not_le hsize) hl
        rw [hsame] at hr
        cases hr
        have hpn : pagesOf size = 0 := by
          rw [pagesOf, pageSize, roundUp_wraps (by omega) hl]
        rw [HeapUse.grant, if_neg (by omega), if_neg (show ¬ size ≤ dynAllocMaxBlockSize from hs), if_pos hpn]
        exact ⟨b, hI⟩
    · cases hrun
  | kfree va =>
    rcases hl with hc | he
    · obtain ⟨c, hc, hcva⟩ := hc
      obtain ⟨c, l₁, l₂, -, hva, hl, hl'⟩ := List.exists_of_eraseP hc (p := (·.va == va)) (beq_iff_eq.2 hcva)
      obtain rfl : c.va = va := beq_iff_eq.1 hva
      have hperm : h.blocks.Perm (c :: h.blocks.eraseP (·.va == c.va)) := by
        rw [hl', hl]
        exact List.perm_middle
      obtain ⟨t, hr, hI'⟩ := hI.kfreeBlock hperm
      simp only [HeapUse.call, hr] at hrun
      obtain rfl := Option.some.inj hrun
      obtain ⟨k, -, -, -, hhi⟩ := hI.block (hperm.mem_iff.2 List.mem_cons_self)
      have hrest : release h.live c.va = h.live := by
        apply List.eraseP_of_forall_not
        intro e he
        obtain ⟨p, n, rfl, -, hlo, -⟩ := hI.first he
        have hpos := class_pos k
        simp only [beq_iff_eq]
        omega
      rw [hrest]
      exact ⟨b, hI'⟩
    · obtain ⟨e, rfl, hperm⟩ := release_perm he
      obtain ⟨t, b', hr, hI', -⟩ := hI.kfree hperm
      simp only [HeapUse.call, hr] at hrun
      obtain rfl := Option.some.inj hrun
      have hrest : h.blocks.eraseP (·.va == e.start) = h.blocks := by
        apply List.eraseP_of_forall_not
        intro c hc
        obtain ⟨k, -, -, -, hhi⟩ := hI.block hc
        obtain ⟨p, n, rfl, -, hlo, -⟩ := hI.first (hperm.mem_iff.2 List.mem_cons_self)
        have hpos := class_pos k
        simp only [beq_iff_eq]
        omega
      rw [hrest]
      exact ⟨b', hI'⟩

theorem HeapUse.Inv.always (hI : h.Inv G b) (cs : List HeapCall) : Always HeapUseStep (fun h => ∃ b, h.Inv G b) h cs :=
  always_of_step (fun _ _ _ hI hstep => hI.elim fun _ hI => hI.step hstep) ⟨b, hI⟩

/-- `kheap_init` on what boot leaves: nothing is in use. -/
theorem kheapInit_use {s₀ s : Kernel} (hboot : Booted s₀.mem) (hinit : kheapInit s₀ = .ok s) :
    HeapUse.Inv ⟨s, [], []⟩ ∅ 1015809 := by
  have hI := kheapInit_inv hboot hinit
  obtain ⟨hmem, -⟩ := kheapInit_same hinit
  obtain ⟨dyn, hdyn, hs⟩ := bind_ok hinit
  obtain rfl := Except.ok.inj hs.symm
  have hok : DynAlloc.Ok ((kernelHeapStart + dynAllocMaxSize - kernelHeapStart) / 4096) dyn [] :=
    initialize_ok (by decide) (by decide) (by decide) (by decide) hdyn
  have hnone : ∀ v, HeapPage v → ¬ HoldsPage s₀.mem v := by
    intro v hv hh
    rw [HoldsPage, hboot.empty v hv] at hh
    exact hh rfl
  have hfree : dyn.freePagesList = List.range 8192 := (initialize_empty hdyn).2.1
  refine ⟨hI, hok, fun v _ hv hh => absurd hh (hnone v hv), hboot.last, fun p hp => ?_, by simp⟩
  refine ⟨fun hh => absurd hh (hnone _ (dyn_page hp).2), fun hp' => ?_⟩
  rw [hfree] at hp'
  exact absurd (List.mem_range.2 hp) hp'

end Steps

end Fos.Heap
