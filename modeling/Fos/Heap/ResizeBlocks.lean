/-
What `krealloc` promises, and when it keeps the promise for a block: the block allocator has to find a
block for the new size, or the page allocator has to have room and frames.
-/
import Fos.Heap.HeapCopies
import Fos.Heap.KernelProgress
import Fos.Heap.ShrinkPages

namespace Fos.Heap

open Fos.Memory Fos.Lib Fos.Lib.Extent DynAlloc

/-! ## The promise -/

/-- The bytes of `a` are there and as they were. -/
def Intact (s : HeapBytes) (a : Extent) (t : HeapBytes) : Prop :=
  Reaches t.kernel.mem a.start a.len ∧ ∀ i < a.len, t.bytes.load (a.start + i) = s.bytes.load (a.start + i)

/-- `newSize` bytes at `p`, the first of them as those of `a` were, in none of the other allocations. -/
structure Resized (s : HeapBytes) (a : Extent) (others : List Extent) (newSize p : Nat) (t : HeapBytes) : Prop where
  contents : ∀ i < min a.len newSize, t.bytes.load (p + i) = s.bytes.load (a.start + i)
  mapped : Reaches t.kernel.mem p newSize
  apart : ∀ d ∈ others, (Extent.mk p newSize).Disjoint d

/-- The result of a `krealloc` of `a`: `NULL` and `a` is as it was, or the address of the resized allocation. -/
def Reallocates (s : HeapBytes) (a : Extent) (others : List Extent) (newSize : Nat) :
    EStateM.Result Halt HeapBytes Nat → Prop
  | .ok p t => p = 0 ∧ Intact s a t ∨ p ≠ 0 ∧ Resized s a others newSize p t
  | .error _ _ => False

/-- What `krealloc` does to an allocation, whatever the bytes are. -/
def HeapUse.Resizes (h : HeapUse) (a : Extent) (others : List Extent) (newSize : Nat) : Prop :=
  ∀ ram, Reallocates ⟨h.kernel, ram⟩ a others newSize (krealloc a.start newSize ⟨h.kernel, ram⟩)

/-- The other allocations than a block. -/
def HeapUse.besideBlock (h : HeapUse) (c : LiveBlock) : List Extent :=
  (h.blocks.erase c).map (fun d => h.kernel.dyn.extent d.va) ++ h.live

/-- The other allocations than a range of pages. -/
def HeapUse.besidePages (h : HeapUse) (e : Extent) : List Extent :=
  h.blocks.map (fun d => h.kernel.dyn.extent d.va) ++ h.live.erase e

/-! ## When there is room -/

/-- `alloc_block` finds a block of the class, a page with a frame for it, or a larger block. -/
def Kernel.HasBlock (s : Kernel) (size : Nat) : Prop := s.dyn.Finds size ∧
  (s.dyn.freeBlockLists (classOf size) = [] → s.dyn.freePagesList ≠ [] → s.mem.freeFrameList ≠ [])

/-- The page allocator refuses `n` pages at once, or it has the frames. -/
def Kernel.HasPages (s : Kernel) (n : Nat) : Prop := s.Refuses n ∨ n ≤ s.mem.freeFrameList.length

section Room

variable {h : HeapUse} {b size : Nat}

/-- `get_page` of a page that holds nothing needs a frame. -/
theorem getPage_empty {m : Mem} {v : Nat} (hK : KPages m) (hv : HeapPage v) (hnot : ¬ HoldsPage m v) :
    (∃ m', getPage m (v * 4096) = .ok m') ↔ m.freeFrameList ≠ [] := by
  have hrd : roundDown (v * 4096) pageSize = v * 4096 := roundDown_of_dvd (by simp only [pageSize]; omega)
  have hnone : m.getFrameInfo 0 (v * 4096) = none := by
    rw [hK.getFrameInfo hv]
    exact not_not.1 hnot
  constructor
  · rintro ⟨m', hg⟩ hnil
    simp only [getPage, hrd, hnone, Mem.allocateFrame, hnil] at hg
    cases hg
  · intro hne
    obtain ⟨m', hm', -⟩ := getPage_returns hK.tables hv (List.length_pos_of_ne_nil hne)
    exact ⟨m', hm'⟩

/-- `alloc_block` with no block of the class and a free page. -/
theorem allocBlock_page {s : DynAlloc} {p : Nat} {rest : List Nat} (h0 : 0 < size) (hs : size ≤ 2048)
    (hlist : s.freeBlockLists (classOf size) = []) (hp : s.freePagesList = p :: rest) :
    ∃ blockSize, ∀ (src : PageSource Mem) (m : Mem), allocBlock src s m size = do
      let pageVa ← toPageVa s p
      let m ← src.getPage m pageVa
      let (b, s) ← takeFirst (splitPage s p (pageSize / blockSize) pageVa blockSize (classOf size) rest) (classOf size)
      return (b, s, m) := by
  obtain ⟨blockSize, k, hc⟩ : ∃ b k, sizeClass (min size maxBlockSize) 16 minBlockSize 0 = (b, k) := ⟨_, _, rfl⟩
  obtain rfl : classOf size = k := congrArg Prod.snd hc
  have hmax : ¬ dynAllocMaxBlockSize < size := not_lt.2 hs
  refine ⟨blockSize, fun src m => ?_⟩
  simp only [allocBlock, if_neg hmax, if_neg h0.ne', hc, if_neg (not_not.2 hlist), hp]

/-- Where it needs no page, `alloc_block` does not care who provides the pages. -/
theorem allocBlock_anySource {s : DynAlloc} (hs : s.freeBlockLists (classOf size) ≠ [] ∨ s.freePagesList = [])
    (src src' : PageSource Mem) (m : Mem) : allocBlock src s m size = allocBlock src' s m size := by
  obtain ⟨blockSize, k, hc⟩ : ∃ b k, sizeClass (min size maxBlockSize) 16 minBlockSize 0 = (b, k) := ⟨_, _, rfl⟩
  obtain rfl : classOf size = k := congrArg Prod.snd hc
  unfold allocBlock
  simp only [hc]
  rcases hs with hlist | hpages
  · simp only [if_pos hlist]
  · simp only [hpages]

theorem HeapUse.Inv.hasBlock_iff (hI : h.Inv ∅ b) (h0 : 0 < size) (hs : size ≤ 2048) :
    (∃ va dyn m, Heap.allocBlock kernelPages h.kernel.dyn h.kernel.mem size = .ok (.block va, dyn, m)) ↔
      h.kernel.HasBlock size := by
  have hpage : ∀ p rest, h.kernel.dyn.freePagesList = p :: rest → toPageVa h.kernel.dyn p = .ok ((1007616 + p) * 4096) ∧
      HeapPage (1007616 + p) ∧ ¬ HoldsPage h.kernel.mem (1007616 + p) := by
    intro p rest hp
    have hmem : p ∈ h.kernel.dyn.freePagesList := by rw [hp]; exact List.mem_cons_self
    obtain ⟨hp8, -⟩ := hI.blocks.inv.freePages p hmem
    obtain ⟨hva, hv⟩ := hI.pageVa hp8
    refine ⟨?_, hv, fun hh => (hI.split p hp8).1 hh hmem⟩
    rw [toPageVa, if_neg (by have : maxPages = 8192 := rfl; omega), hva]
  constructor
  · rintro ⟨va, dyn, m, ha⟩
    constructor
    · by_contra hno
      rw [allocBlock_waits h0 hs hno] at ha
      cases ha
    · intro hlist hpages
      obtain ⟨p, rest, hp⟩ := List.exists_cons_of_ne_nil hpages
      obtain ⟨hva, hv, hnot⟩ := hpage p rest hp
      obtain ⟨blockSize, heq⟩ := allocBlock_page h0 hs hlist hp
      rw [heq, hva, ok_bind] at ha
      obtain ⟨m', hget, -⟩ := bind_ok ha
      exact (getPage_empty hI.heap.pages hv hnot).1 ⟨m', hget⟩
  · rintro ⟨hfinds, hframes⟩
    -- with pages for the asking there is a result, and the kernel gets the one page it may need
    have hrun : ∃ r dyn m, Heap.allocBlock kernelPages h.kernel.dyn h.kernel.mem size = .ok (r, dyn, m) := by
      by_cases hneed : h.kernel.dyn.freeBlockLists (classOf size) = [] ∧ h.kernel.dyn.freePagesList ≠ []
      · obtain ⟨p, rest, hp⟩ := List.exists_cons_of_ne_nil hneed.2
        obtain ⟨hva, hv, hnot⟩ := hpage p rest hp
        obtain ⟨m', hget⟩ := (getPage_empty hI.heap.pages hv hnot).2 (hframes hneed.1 hneed.2)
        obtain ⟨blockSize, heq⟩ := allocBlock_page h0 hs hneed.1 hp
        rcases allocBlock_spec ⟨fun _ _ => .ok m', fun m _ => .ok m⟩ hI.blocks h.kernel.mem hs with
          ⟨e, pageVa, hbad, -⟩ | ⟨r, dyn, m, hr, -⟩
        · cases hbad
        · have hget : kernelPages.getPage h.kernel.mem ((1007616 + p) * 4096) = .ok m' := hget
          rw [heq, hva, ok_bind, ok_bind] at hr
          refine ⟨r, dyn, m, ?_⟩
          rw [heq, hva, ok_bind, hget, ok_bind]
          exact hr
      · rcases allocBlock_spec ⟨fun m _ => .ok m, fun m _ => .ok m⟩ hI.blocks h.kernel.mem hs with
          ⟨e, pageVa, hbad, -⟩ | ⟨r, dyn, m, hr, -⟩
        · cases hbad
        · refine ⟨r, dyn, m, ?_⟩
          rw [allocBlock_anySource (by tauto) kernelPages ⟨fun m _ => .ok m, fun m _ => .ok m⟩, hr]
    obtain ⟨r, dyn, m, hrun⟩ := hrun
    obtain ⟨va, rfl, -⟩ := allocBlock_finds h0 hfinds hrun
    exact ⟨va, dyn, m, hrun⟩

/-- What `kmalloc` says to a request for pages. -/
theorem HeapUse.Inv.hasPages_iff (hI : h.Inv ∅ b) (hs : 2048 < size) (hsize : size ≤ 4294963200) :
    (∃ va t, kmalloc size h.kernel = .ok va t) ↔ h.kernel.HasPages (pagesOf size) := by
  have hn : pagesOf size = (size + 4095) / 4096 := roundUp_div size hsize
  have hlow := hI.heap.low
  constructor
  · rintro ⟨va, t, hr⟩
    by_cases hr' : h.kernel.Refuses (pagesOf size)
    · exact .inl hr'
    obtain ⟨p, b', -, -, -, hfree, ⟨m', hM, -⟩ | ⟨-, e, m', hrun⟩⟩ :=
      kmalloc_takes hI.heap hs rfl (by omega) (pagesOf_lt size) hr'
    · have hframes : m'.freeFrameList.length + pagesOf size = h.kernel.mem.freeFrameList.length := hM.frames hfree
      exact .inr (by omega)
    · rw [hrun] at hr
      cases hr
  · rintro (hr | hframes)
    · exact ⟨0, h.kernel, by rw [kmalloc_pages hI.heap.lock hs (by rw [hI.heap.brk]; omega), if_pos hr]⟩
    · by_cases hr' : h.kernel.Refuses (pagesOf size)
      · exact ⟨0, h.kernel, by rw [kmalloc_pages hI.heap.lock hs (by rw [hI.heap.brk]; omega), if_pos hr']⟩
      obtain ⟨p, b', -, -, -, -, ⟨m', -, hrun⟩ | ⟨hno, -⟩⟩ :=
        kmalloc_takes hI.heap hs rfl (by omega) (pagesOf_lt size) hr'
      · exact ⟨_, _, hrun⟩
      · exact absurd hframes (not_le.2 hno)

end Room

/-! ## Moving the contents -/

/-- `n` bytes at `p` are in use. -/
def HeapUse.Covers (h : HeapUse) (p n : Nat) : Prop :=
  (⟨p, n⟩ : LiveBlock) ∈ h.blocks ∨ ∃ e ∈ h.live, e.start = p ∧ n ≤ e.len

section Move

variable {h h' h'' : HeapUse} {b b' b'' : Nat}

/-- The bytes of a block in use, up to the size of its class. -/
theorem HeapUse.Inv.blockBytes (hI : h.Inv ∅ b) {c : LiveBlock} (hc : c ∈ h.blocks) : ∃ k,
    h.kernel.dyn.Block 8192 k c.va ∧ c.size ≤ 8 * 2 ^ k ∧ ∀ i < 8 * 2 ^ k, InHeap h.kernel.mem (c.va + i) := by
  obtain ⟨k, hB, hsz, hlo, -⟩ := hI.block hc
  refine ⟨k, hB, hsz, fun i hi => ?_⟩
  have hlt := Block.lt hB
  have hp := hB.page
  have hst := hI.dynStart
  simp only [kernelHeapStart] at hlo hst
  have hpage : (c.va + i) / 4096 = 1007616 + h.kernel.dyn.page c.va := by
    rw [DynAlloc.page, hst] at hlt ⊢
    omega
  rw [InHeap, hpage]
  exact ⟨(dyn_page hp).2, (hI.split _ hp).2 (Inv.not_free hI.blocks.inv hB)⟩

theorem HeapUse.Inv.pageBytes (hI : h.Inv ∅ b) {e : Extent} (he : e ∈ h.live) :
    ∀ i < e.len, InHeap h.kernel.mem (e.start + i) := by
  have hhigh := hI.heap.high
  obtain ⟨p, n, rfl, hn, hlo, hhi, hheld⟩ := hI.first he
  exact inHeap_range (fun v h1 h2 => ⟨⟨by omega, by omega⟩, hheld v h1 h2⟩) le_rfl (by simp only; omega)

theorem HeapUse.Inv.covers (hI : h.Inv ∅ b) {p n : Nat} (hp : h.Covers p n) : ∀ i < n, InHeap h.kernel.mem (p + i) := by
  rcases hp with hc | ⟨e, he, rfl, hn⟩
  · obtain ⟨k, -, hsz, hbytes⟩ := hI.blockBytes hc
    exact fun i hi => hbytes i (hi.trans_le hsz)
  · exact fun i hi => hI.pageBytes he i (hi.trans_le hn)

/-- The contents of `a` are copied to bytes that are in use once `a` is released. -/
theorem HeapUse.Inv.move (hI : h.Inv ∅ b) (hI' : h'.Inv ∅ b') (hI'' : h''.Inv ∅ b'') {release : KM Unit}
    {a p sz n : Nat}
    (hrel : release h'.kernel = .ok () h''.kernel)
    (hB : Beside (fun w => ¬ HoldsPage h.kernel.mem w) h.kernel.mem h'.kernel.mem)
    (hB' : Beside (fun w => ¬ HoldsPage h''.kernel.mem w) h'.kernel.mem h''.kernel.mem)
    (ha : ∀ i < sz, InHeap h.kernel.mem (a + i)) (hp : h''.Covers p n) (hsz : sz ≤ n) (hdis : a + sz ≤ p ∨ p ≤ a)
    (ram : Nat → Nat → UInt8) : ∃ ram', memcpy p a sz ⟨h'.kernel, ram⟩ = .ok () ⟨h'.kernel, ram'⟩ ∧
      onHeap release ⟨h'.kernel, ram'⟩ = .ok () ⟨h''.kernel, ram'⟩ ∧ Reaches h''.kernel.mem p n ∧
      ∀ i < sz, KernelRam.load ⟨h''.kernel.mem, ram'⟩ (p + i) = KernelRam.load ⟨h.kernel.mem, ram⟩ (a + i) := by
  have hsame : ∀ w, HeapPage w → HoldsPage h.kernel.mem w → h'.kernel.mem.pte (0, w) = h.kernel.mem.pte (0, w) :=
    fun w hw hh => hB.pte w hw (not_not.2 hh)
  have hsame' : ∀ w, HeapPage w → HoldsPage h''.kernel.mem w → h''.kernel.mem.pte (0, w) = h'.kernel.mem.pte (0, w) :=
    fun w hw hh => hB'.pte w hw (not_not.2 hh)
  have hp' := hI''.covers hp
  have hsrc : ∀ i < sz, InHeap h'.kernel.mem (a + i) := by
    intro i hi
    obtain ⟨hw, hh⟩ := ha i hi
    exact ⟨hw, by rw [HoldsPage, hsame _ hw hh]; exact hh⟩
  have hdst : ∀ i < sz, InHeap h'.kernel.mem (p + i) := by
    intro i hi
    obtain ⟨hw, hh⟩ := hp' i (hi.trans_le hsz)
    exact ⟨hw, by rw [HoldsPage, ← hsame' _ hw hh]; exact hh⟩
  obtain ⟨ram', hrun, hmoved⟩ := memcpy_moves (r := ram) hI'.heap.pages hI'.allPresent hsrc hdst hdis
  refine ⟨ram', hrun, by simp only [onHeap, hrel], InHeap.reached hI''.heap.pages hI''.allPresent hp', fun i hi => ?_⟩
  obtain ⟨hw, hh⟩ := hp' i (hi.trans_le hsz)
  obtain ⟨hwa, hha⟩ := ha i hi
  rw [load_same hI'.heap.pages hI''.heap.pages hw (hsame' _ hw hh), hmoved _ (hdst i hi), if_pos (by omega),
    Nat.add_sub_cancel_left, load_same hI.heap.pages hI'.heap.pages hwa (hsame _ hwa hha)]

end Move

/-! ## Blocks -/

/-- When `krealloc` of a block keeps its promise. -/
def Kernel.BlockResizes (s : Kernel) (va newSize : Nat) : Prop :=
  newSize ≤ getBlockSize s.dyn va ∨ newSize ≤ dynAllocMaxBlockSize ∧ s.HasBlock newSize ∨
    dynAllocMaxBlockSize < newSize ∧ newSize ≤ 4294963200 ∧ s.HasPages (pagesOf newSize)

section Block

variable {h : HeapUse} {b k newSize : Nat} {c : LiveBlock}

theorem HeapUse.Inv.blockSize (hI : h.Inv ∅ b) (hB : h.kernel.dyn.Block 8192 k c.va) :
    getBlockSize h.kernel.dyn c.va = 8 * 2 ^ k ∧ h.kernel.dyn.extent c.va = ⟨c.va, 8 * 2 ^ k⟩ := by
  refine ⟨?_, by rw [DynAlloc.extent, hB.size]⟩
  rw [getBlockSize, (Block.index hI.blocks.inv hB).1, hB.size]

theorem HeapUse.Inv.releaseBlock (hI : h.Inv ∅ b) {rest : List LiveBlock} (hc : h.blocks.Perm (c :: rest)) :
    ∃ t, Heap.releaseBlock c.va h.kernel = .ok () t ∧ HeapUse.Inv ⟨t, rest, h.live⟩ ∅ b ∧
      Beside (fun w => ¬ HoldsPage t.mem w) h.kernel.mem t.mem := by
  obtain ⟨dyn, m, hrun, hI', hB⟩ := hI.freeBlock hc
  exact ⟨_, by simp only [Heap.releaseBlock, hrun], hI', hB⟩

/-- The contents of a block in a new one. -/
theorem HeapUse.Inv.moveToBlock (hI : h.Inv ∅ b) (hc : c ∈ h.blocks) (hB : h.kernel.dyn.Block 8192 k c.va)
    (hlt : 8 * 2 ^ k < newSize) (hs : newSize ≤ 2048) {p : Nat} {dyn : DynAlloc} {m : Mem}
    (ha : Heap.allocBlock kernelPages h.kernel.dyn h.kernel.mem newSize = .ok (.block p, dyn, m))
    (ram : Nat → Nat → UInt8) :
    ∃ t ram', memcpy p c.va (8 * 2 ^ k) ⟨{ h.kernel with dyn, mem := m }, ram⟩ = .ok ()
      ⟨{ h.kernel with dyn, mem := m }, ram'⟩ ∧
      onHeap (Heap.releaseBlock c.va) ⟨{ h.kernel with dyn, mem := m }, ram'⟩ = .ok () ⟨t, ram'⟩ ∧ p ≠ 0 ∧
      Resized ⟨h.kernel, ram⟩ ⟨c.va, 8 * 2 ^ k⟩ (h.besideBlock c) newSize p ⟨t, ram'⟩ := by
  obtain ⟨hI', hBeside⟩ := hI.allocBlock hs ha
  have hsizes := allocBlock_sizes ha
  have hperm : (⟨p, newSize⟩ :: h.blocks : List LiveBlock).Perm (c :: ⟨p, newSize⟩ :: h.blocks.erase c) :=
    ((List.perm_cons_erase hc).cons _).trans (.swap _ _ _)
  obtain ⟨t, hrel, hI'', hBeside'⟩ := HeapUse.Inv.releaseBlock hI' hperm
  obtain ⟨j, hBp, hszp, hlo, hhi⟩ := hI'.block (c := ⟨p, newSize⟩) List.mem_cons_self
  simp only at hszp hlo hhi
  -- a block in use is in the new state what it was, and is not the new block
  have hkeep : ∀ d ∈ h.blocks, ∀ i, h.kernel.dyn.Block 8192 i d.va → dyn.Block 8192 i d.va ∧
      d.va ≠ p := by
    intro d hd i hBd
    have hnot := Inv.not_free hI.blocks.inv hBd
    refine ⟨hBd.congr hsizes.1 (hsizes.2 _ hnot), ?_⟩
    rintro rfl
    have hnd := hI'.blocks.inv.liveNodup
    rw [List.map_cons, List.nodup_cons] at hnd
    exact hnd.1 (List.mem_map.2 ⟨d, hd, rfl⟩)
  have hapart : ∀ d ∈ h.blocks, (Extent.mk p newSize).Disjoint (h.kernel.dyn.extent d.va) := by
    intro d hd
    obtain ⟨i, hBd, -⟩ := hI.block hd
    obtain ⟨hBd', hne⟩ := hkeep d hd i hBd
    rw [(hI.blockSize (c := d) hBd).2]
    rintro x ⟨hx, hx'⟩
    refine Block.disjoint hBp hBd' hne.symm x ⟨⟨hx.1, hx.2.trans_le ?_⟩, hx'⟩
    exact Nat.add_le_add_left hszp p
  have hdis : c.va + 8 * 2 ^ k ≤ p ∨ p ≤ c.va := by
    have := hapart c hc
    rw [(hI.blockSize hB).2] at this
    have hpos := class_pos k
    rcases apart_of_disjoint (by show 0 < newSize; omega) hpos this with h1 | h1
    · exact .inr (le_trans (Nat.le_add_right p newSize) h1)
    · exact .inl h1
  obtain ⟨k', hBk, -, hbytes⟩ := hI.blockBytes hc
  obtain rfl := hB.class_eq hBk
  obtain ⟨ram', hrun, hrel', hmapped, hcontents⟩ := hI.move hI' hI'' hrel hBeside hBeside' hbytes
    (.inl List.mem_cons_self) hlt.le hdis ram
  refine ⟨t, ram', hrun, hrel', ?_, fun i hi => hcontents i (lt_of_lt_of_le hi (min_le_left _ _)), hmapped,
    fun d hd => ?_⟩
  · simp only [kernelHeapStart] at hlo
    omega
  · rcases List.mem_append.1 hd with hd | hd
    · obtain ⟨d', hd', rfl⟩ := List.mem_map.1 hd
      exact hapart d' (List.mem_of_mem_erase hd')
    · obtain ⟨q, n, rfl, -, hq, -⟩ := hI.first hd
      rintro x ⟨hx, hx'⟩
      have h1 := hx.2
      have h2 := hx'.1
      simp only [fin] at h1 h2
      omega

/-- The contents of a block in new pages. -/
theorem HeapUse.Inv.moveToPages (hI : h.Inv ∅ b) (hc : c ∈ h.blocks) (hB : h.kernel.dyn.Block 8192 k c.va)
    (hs : 2048 < newSize) (hsize : newSize ≤ 4294963200) {va : Nat} {s : Kernel}
    (hr : kmalloc newSize h.kernel = .ok va s) (hne : va ≠ 0) (ram : Nat → Nat → UInt8) :
    ∃ t ram', memcpy va c.va (8 * 2 ^ k) ⟨s, ram⟩ = .ok () ⟨s, ram'⟩ ∧
      onHeap (Heap.releaseBlock c.va) ⟨s, ram'⟩ = .ok () ⟨t, ram'⟩ ∧
      Resized ⟨h.kernel, ram⟩ ⟨c.va, 8 * 2 ^ k⟩ (h.besideBlock c) newSize va ⟨t, ram'⟩ := by
  obtain ⟨k', hBk, -, hbytes⟩ := hI.blockBytes hc
  obtain rfl := hB.class_eq hBk
  have hcls := class_le hB.cls
  rcases hI.kmallocPages hs hsize hr with ⟨rfl, -⟩ | ⟨p, n, b', rfl, hn, hlo, hhi, hfree, hI', hBeside⟩
  · exact absurd rfl hne
  obtain ⟨t, hrel, hI'', hBeside'⟩ := HeapUse.Inv.releaseBlock hI' (List.perm_cons_erase hc)
  have hbelow : ∀ d ∈ h.blocks, ∀ i, h.kernel.dyn.Block 8192 i d.va → d.va + 8 * 2 ^ i ≤ 1015808 * 4096 :=
      fun d hd i hBd => by
    obtain ⟨j, hBj, -, -, hj⟩ := hI.block hd
    obtain rfl := hBd.class_eq hBj
    exact hj
  have hcbelow := hbelow c hc k hB
  have hfits : newSize ≤ n * 4096 := by omega
  have hdis : c.va + 8 * 2 ^ k ≤ p * 4096 := hcbelow.trans (by omega)
  obtain ⟨ram', hrun, hrel', hmapped, hcontents⟩ := hI.move (p := p * 4096) (n := newSize) hI' hI'' hrel
    (hBeside.mono fun w hw => hfree w hw.1 hw.2) hBeside' hbytes
    (.inr ⟨_, List.mem_cons_self, rfl, hfits⟩) (hcls.trans hs.le) (.inl hdis) ram
  refine ⟨t, ram', hrun, hrel', fun i hi => hcontents i (lt_of_lt_of_le hi (min_le_left _ _)), hmapped, fun d hd => ?_⟩
  rcases List.mem_append.1 hd with hd | hd
  · obtain ⟨d', hd', rfl⟩ := List.mem_map.1 hd
    obtain ⟨i, hBd, -⟩ := hI.block (List.mem_of_mem_erase hd')
    rw [(hI.blockSize (c := d') hBd).2]
    have := hbelow d' (List.mem_of_mem_erase hd') i hBd
    rintro x ⟨hx, hx'⟩
    have h1 := hx.1
    have h2 := hx'.2
    simp only [fin] at h1 h2
    omega
  · have hap := (packed_cons.1 hI'.heap.packed).1 d hd
    rintro x ⟨hx, hx'⟩
    refine hap.disjoint x ⟨⟨hx.1, hx.2.trans_le ?_⟩, hx'⟩
    simp only [fin]
    omega

/-- `krealloc` of a block is the part about blocks. -/
theorem krealloc_block (hI : h.Inv ∅ b) (hc : c ∈ h.blocks) (hpos : 0 < newSize) (ram : Nat → Nat → UInt8) :
    (∀ p t, kreallocBlock c.va newSize ⟨h.kernel, ram⟩ = .ok (some p) t → krealloc c.va newSize ⟨h.kernel, ram⟩ =
      .ok p t) ∧
    (∀ t, kreallocBlock c.va newSize ⟨h.kernel, ram⟩ = .ok none t → krealloc c.va newSize ⟨h.kernel, ram⟩ = .ok 0 t) ∧
    ∀ e t, kreallocBlock c.va newSize ⟨h.kernel, ram⟩ = .error e t →
      krealloc c.va newSize ⟨h.kernel, ram⟩ = .error e t := by
  obtain ⟨k, hB, -, hlo, hhi⟩ := hI.block hc
  have hposk := class_pos k
  have hin : h.kernel.dyn.dynAllocStart ≤ c.va ∧ c.va < h.kernel.dyn.dynAllocEnd := by
    have hend : h.kernel.dyn.dynAllocEnd = 1015808 * 4096 := hI.heap.dynEnd
    rw [hI.dynStart, hend]
    omega
  have hst : h.kernel.kheapPageAllocStart = 1015809 * 4096 := hI.heap.start
  have hne : ¬ c.va = 0 := by
    simp only [kernelHeapStart] at hlo
    omega
  have habove : ∀ t, kreallocAbove h.kernel c.va newSize t = .ok 0 t := by
    intro t
    rw [kreallocAbove, if_neg (by rw [hst]; omega), if_neg (by simp only [kernelHeapMax]; omega)]
    rfl
  have heq : krealloc c.va newSize ⟨h.kernel, ram⟩ =
      (kreallocBlock c.va newSize >>= kreallocNext h.kernel c.va newSize) ⟨h.kernel, ram⟩ := by
    unfold krealloc
    rw [get_bind]
    simp only [if_neg hne, if_neg hpos.ne', if_pos hin]
  rw [heq]
  refine ⟨fun p t hr => ?_, fun t hr => ?_, fun e t hr => bind_of_error hr⟩
  · rw [bind_of_ok hr]
    rfl
  · rw [bind_of_ok hr]
    exact habove t

/-- A size that the block has. -/
theorem kreallocBlock_fits (hsize : getBlockSize h.kernel.dyn c.va = 8 * 2 ^ k) (hk : k ≤ 8) (hva : c.va ≠ 0)
    (hpos : 0 < newSize)
    (hle : newSize ≤ 8 * 2 ^ k) (ram : Nat → Nat → UInt8) :
    kreallocBlock c.va newSize ⟨h.kernel, ram⟩ = .ok (some c.va) ⟨h.kernel, ram⟩ := by
  have hcls := class_le hk
  unfold kreallocBlock
  rw [get_bind]
  simp only [hsize]
  by_cases heq : newSize = 8 * 2 ^ k
  · rw [if_pos heq]
    rfl
  · have hrun : reallocBlock c.va newSize ⟨h.kernel, ram⟩ = .ok c.va ⟨h.kernel, ram⟩ := by
      unfold reallocBlock
      rw [if_neg hva, if_neg hpos.ne', get_bind]
      simp only [hsize, if_pos hle]
      rfl
    rw [if_neg heq, if_pos (show newSize < dynAllocMaxBlockSize by simp only [dynAllocMaxBlockSize]; omega),
      bind_of_ok hrun]
    rfl

/-- A new block for a larger size. -/
theorem kreallocBlock_block (hsize : getBlockSize h.kernel.dyn c.va = 8 * 2 ^ k) (hva : c.va ≠ 0)
    (hlt : 8 * 2 ^ k < newSize)
    (hs : newSize < 2048) {s : HeapBytes} (hker : s.kernel = h.kernel) : kreallocBlock c.va newSize s = (do
      let p ← (do
        let latestBlock ← onHeap (kallocBlock newSize)
        if latestBlock = 0 then throw .spins
        else do
          memcpy latestBlock c.va (8 * 2 ^ k)
          onHeap (releaseBlock c.va)
          return latestBlock)
      return some p : RM (Option Nat)) s := by
  unfold kreallocBlock
  rw [get_bind]
  simp only [hker, hsize]
  rw [if_neg hlt.ne', if_pos (show newSize < dynAllocMaxBlockSize from hs)]
  have hrun : reallocBlock c.va newSize s = (do
        let latestBlock ← onHeap (kallocBlock newSize)
        if latestBlock = 0 then throw .spins
        else do
          memcpy latestBlock c.va (8 * 2 ^ k)
          onHeap (releaseBlock c.va)
          return latestBlock : RM Nat) s := by
    unfold reallocBlock
    rw [if_neg hva, if_neg (show ¬ newSize = 0 by omega), get_bind]
    simp only [hker, hsize, if_neg (not_le.2 hlt)]
  simp only [bind, EStateM.bind, hrun]

/-- `kmalloc` for a size past the blocks. -/
theorem kreallocBlock_kmalloc (hsize : getBlockSize h.kernel.dyn c.va = 8 * 2 ^ k) (hlt : 8 * 2 ^ k < newSize)
    (hs : 2048 ≤ newSize) (ram : Nat → Nat → UInt8) : kreallocBlock c.va newSize ⟨h.kernel, ram⟩ = (do
      let newAllocatedAdress ← onHeap (kmalloc newSize)
      if newAllocatedAdress ≠ 0 then do
        memcpy newAllocatedAdress c.va (8 * 2 ^ k)
        onHeap (releaseBlock c.va)
        return some newAllocatedAdress
      else return none : RM (Option Nat)) ⟨h.kernel, ram⟩ := by
  unfold kreallocBlock
  rw [get_bind]
  simp only [hsize]
  rw [if_neg hlt.ne', if_neg (show ¬ newSize < dynAllocMaxBlockSize from not_lt.2 hs)]

/-- Without a block to give, `alloc_block` does not return. -/
theorem HeapUse.Inv.kallocBlock_error (hI : h.Inv ∅ b) (h0 : 0 < newSize) (hs : newSize ≤ 2048)
    (hno : ¬ h.kernel.HasBlock newSize)
    {s : Kernel} (hdyn : s.dyn = h.kernel.dyn) (hmem : s.mem = h.kernel.mem) :
      ∃ e t, kallocBlock newSize s = .error e t := by
  unfold kallocBlock
  rw [hdyn, hmem]
  split
  · rename_i ha
    exact absurd ha (allocBlock_ne_null h0)
  · rename_i ha
    exact absurd ((hI.hasBlock_iff h0 hs).1 ⟨_, _, _, ha⟩) hno
  · exact ⟨_, _, rfl⟩
  · exact ⟨_, _, rfl⟩

section Cases

variable (hI : h.Inv ∅ b) (hc : c ∈ h.blocks) (hB : h.kernel.dyn.Block 8192 k c.va)
include hI hc hB

/-- A new block, from either place that asks for one. -/
theorem resizesBlock_block (hlt : 8 * 2 ^ k < newSize) (hs : newSize ≤ 2048) (ram : Nat → Nat → UInt8) :
    Reallocates ⟨h.kernel, ram⟩ ⟨c.va, 8 * 2 ^ k⟩ (h.besideBlock c) newSize (krealloc c.va newSize ⟨h.kernel, ram⟩) ↔
      h.kernel.HasBlock newSize := by
  have hpos : 0 < newSize := by omega
  obtain ⟨hsize, -⟩ := hI.blockSize hB
  obtain ⟨hsome, -, herror⟩ := krealloc_block hI hc hpos ram
  have hva : c.va ≠ 0 := by
    obtain ⟨j, -, -, hlo, -⟩ := hI.block hc
    simp only [kernelHeapStart] at hlo
    omega
  have hl : h.kernel.lock = false := hI.heap.lock
  by_cases hblock : h.kernel.HasBlock newSize
  · obtain ⟨p, dyn, m, ha⟩ := (hI.hasBlock_iff hpos hs).2 hblock
    obtain ⟨t, ram', hcopy, hrel, hne, hres⟩ := hI.moveToBlock hc hB hlt hs ha ram
    refine ⟨fun _ => hblock, fun _ => ?_⟩
    have hrun : kreallocBlock c.va newSize ⟨h.kernel, ram⟩ = .ok (some p) ⟨t, ram'⟩ := by
      by_cases hlt' : newSize < 2048
      · have halloc : onHeap (kallocBlock newSize) ⟨h.kernel, ram⟩ = .ok p ⟨{ h.kernel with dyn, mem := m }, ram⟩ := by
          simp only [onHeap, kallocBlock, ha]
        rw [kreallocBlock_block hsize hva hlt hlt' rfl]
        apply bind_of_ok (a := p) (t := HeapBytes.mk t ram')
        rw [bind_of_ok halloc, if_neg hne, bind_of_ok hcopy, bind_of_ok hrel]
        rfl
      · obtain rfl : newSize = 2048 := by omega
        have hk : ({ h.kernel with dyn, mem := m, lock := false } : Kernel) = { h.kernel with dyn, mem := m } :=
          congrArg (fun l => ({ h.kernel with dyn, mem := m, lock := l } : Kernel)) hl.symm
        have halloc : onHeap (kmalloc 2048) ⟨h.kernel, ram⟩ = .ok p ⟨{ h.kernel with dyn, mem := m }, ram⟩ := by
          simp only [onHeap, kmalloc_of_block hl hpos hs ha, hk]
        rw [kreallocBlock_kmalloc hsize hlt le_rfl, bind_of_ok halloc, if_pos hne, bind_of_ok hcopy, bind_of_ok hrel]
        rfl
    rw [hsome p _ hrun]
    exact .inr ⟨hne, hres⟩
  · refine ⟨fun hres => ?_, fun hh => absurd hh hblock⟩
    obtain ⟨e, t, hrun⟩ : ∃ e t, kreallocBlock c.va newSize ⟨h.kernel, ram⟩ = .error e t := by
      by_cases hlt' : newSize < 2048
      · obtain ⟨e, t, hfail⟩ := hI.kallocBlock_error hpos hs hblock (s := h.kernel) rfl rfl
        have halloc : onHeap (kallocBlock newSize) ⟨h.kernel, ram⟩ = .error e ⟨t, ram⟩ := by simp only [onHeap, hfail]
        refine ⟨e, ⟨t, ram⟩, ?_⟩
        rw [kreallocBlock_block hsize hva hlt hlt' rfl]
        exact bind_of_error (bind_of_error halloc)
      · obtain rfl : newSize = 2048 := by omega
        obtain ⟨e, t, hfail⟩ := hI.kallocBlock_error hpos hs hblock (s := h.kernel.locked) rfl rfl
        have halloc : onHeap (kmalloc 2048) ⟨h.kernel, ram⟩ = .error e ⟨t, ram⟩ := by
          simp only [onHeap, kmalloc_block hl hpos hs, bind_of_error hfail]
        refine ⟨e, ⟨t, ram⟩, ?_⟩
        rw [kreallocBlock_kmalloc hsize hlt le_rfl]
        exact bind_of_error halloc
    rw [herror e t hrun] at hres
    exact hres.elim

/-- New pages. -/
theorem resizesBlock_pages (hs : 2048 < newSize) (hmax : newSize ≤ 4294963200) (ram : Nat → Nat → UInt8) :
    Reallocates ⟨h.kernel, ram⟩ ⟨c.va, 8 * 2 ^ k⟩ (h.besideBlock c) newSize (krealloc c.va newSize ⟨h.kernel, ram⟩) ↔
      h.kernel.HasPages (pagesOf newSize) := by
  have hpos : 0 < newSize := by omega
  obtain ⟨hsize, -⟩ := hI.blockSize hB
  have hcls := class_le hB.cls
  obtain ⟨hsome, hnone, herror⟩ := krealloc_block hI hc hpos ram
  rw [← hI.hasPages_iff hs hmax]
  cases hr : kmalloc newSize h.kernel with
  | ok va s =>
    refine ⟨fun _ => ⟨va, s, rfl⟩, fun _ => ?_⟩
    have halloc : onHeap (kmalloc newSize) ⟨h.kernel, ram⟩ = .ok va ⟨s, ram⟩ := by simp only [onHeap, hr]
    by_cases hne : va ≠ 0
    · obtain ⟨t, ram', hcopy, hrel, hres⟩ := hI.moveToPages hc hB hs hmax hr hne ram
      have hrun : kreallocBlock c.va newSize ⟨h.kernel, ram⟩ = .ok (some va) ⟨t, ram'⟩ := by
        rw [kreallocBlock_kmalloc hsize (by omega) hs.le, bind_of_ok halloc, if_pos hne, bind_of_ok hcopy,
          bind_of_ok hrel]
        rfl
      rw [hsome va _ hrun]
      exact .inr ⟨hne, hres⟩
    · obtain rfl := not_not.1 hne
      obtain rfl : s = h.kernel := by
        rcases hI.kmallocPages hs hmax hr with ⟨-, hs'⟩ | ⟨p, n, b', hva, -, hlo, -⟩
        · exact hs'
        · omega
      have hrun : kreallocBlock c.va newSize ⟨h.kernel, ram⟩ = .ok none ⟨h.kernel, ram⟩ := by
        rw [kreallocBlock_kmalloc hsize (by omega) hs.le, bind_of_ok halloc, if_neg hne]
        rfl
      obtain ⟨k', hBk, -, hbytes⟩ := hI.blockBytes hc
      obtain rfl := hB.class_eq hBk
      rw [hnone _ hrun]
      exact .inl ⟨rfl, InHeap.reached hI.heap.pages hI.allPresent hbytes, fun _ _ => rfl⟩
  | error e s =>
    have halloc : onHeap (kmalloc newSize) ⟨h.kernel, ram⟩ = .error e ⟨s, ram⟩ := by simp only [onHeap, hr]
    refine ⟨fun hres => ?_, fun ⟨va, t, hbad⟩ => by cases hbad⟩
    rw [herror e ⟨s, ram⟩ (by rw [kreallocBlock_kmalloc hsize (by omega) hs.le]; exact bind_of_error halloc)] at hres
    exact hres.elim

/-- For a size that wraps the contents are copied to a page that is not there. -/
theorem resizesBlock_wrapped (hmax : 4294963200 < newSize) (hlt : newSize < 4294967296) (ram : Nat → Nat → UInt8) :
    ¬ Reallocates ⟨h.kernel, ram⟩ ⟨c.va, 8 * 2 ^ k⟩ (h.besideBlock c) newSize
      (krealloc c.va newSize ⟨h.kernel, ram⟩) := by
  have hcls := class_le hB.cls
  obtain ⟨hsize, -⟩ := hI.blockSize hB
  obtain ⟨-, -, herror⟩ := krealloc_block hI hc (by omega : 0 < newSize) ram
  obtain ⟨p, hlo, hhi, hnot, hr⟩ := kmalloc_wrapped_same hI.heap hmax hlt
  have halloc : onHeap (kmalloc newSize) ⟨h.kernel, ram⟩ = .ok (p * 4096) ⟨h.kernel, ram⟩ := by simp only [onHeap, hr]
  have hfault : memcpy (p * 4096) c.va (8 * 2 ^ k) ⟨h.kernel, ram⟩ = .error .faults ⟨h.kernel, ram⟩ := by
    refine if_neg fun hreach => hnot ?_
    have hin := (reaches_iff hI.heap.pages hI.allPresent hI.last (by simp only [kernelHeapStart]; omega)
      (by simp only [kernelHeapMax]; omega)).1 hreach.2 0 (class_pos k)
    rw [InHeap, Nat.add_zero, Nat.mul_div_cancel _ (show 0 < 4096 by decide)] at hin
    exact hin.2
  rw [herror .faults ⟨h.kernel, ram⟩ (by
    rw [kreallocBlock_kmalloc hsize (by omega) (by omega), bind_of_ok halloc, if_pos (by omega), bind_of_error hfault])]
  exact fun hres => hres

/-- A size that fits where the contents are. -/
theorem resizesBlock_fits (hpos : 0 < newSize) (hle : newSize ≤ 8 * 2 ^ k) (ram : Nat → Nat → UInt8) :
    Reallocates ⟨h.kernel, ram⟩ ⟨c.va, 8 * 2 ^ k⟩ (h.besideBlock c) newSize
      (krealloc c.va newSize ⟨h.kernel, ram⟩) := by
  obtain ⟨hsize, hext⟩ := hI.blockSize hB
  obtain ⟨hsome, -, -⟩ := krealloc_block hI hc hpos ram
  obtain ⟨j, -, -, hlo, hhi⟩ := hI.block hc
  have hva : c.va ≠ 0 := by
    simp only [kernelHeapStart] at hlo
    omega
  obtain ⟨k', hBk, -, hbytes⟩ := hI.blockBytes hc
  obtain rfl := hB.class_eq hBk
  rw [hsome c.va _ (kreallocBlock_fits hsize hB.cls hva hpos hle ram)]
  refine .inr ⟨hva, fun _ _ => rfl, InHeap.reached hI.heap.pages hI.allPresent fun i hi => hbytes i (hi.trans_le hle),
    fun d hd => ?_⟩
  have hwhole : ∀ d : Extent, (Extent.mk c.va (8 * 2 ^ k)).Disjoint d → (Extent.mk c.va newSize).Disjoint d := by
    rintro d hdis x ⟨hx, hx'⟩
    exact hdis x ⟨⟨hx.1, hx.2.trans_le (Nat.add_le_add_left hle c.va)⟩, hx'⟩
  apply hwhole d
  rcases List.mem_append.1 hd with hd | hd
  · obtain ⟨d', hd', rfl⟩ := List.mem_map.1 hd
    obtain ⟨i, hBd, -⟩ := hI.block (List.mem_of_mem_erase hd')
    rw [(hI.blockSize (c := d') hBd).2]
    apply Block.disjoint hB hBd
    intro he
    have hnd := (hI.blocks.inv.perm (List.perm_cons_erase hc)).liveNodup
    rw [List.map_cons, List.nodup_cons] at hnd
    exact hnd.1 (he ▸ List.mem_map.2 ⟨d', hd', rfl⟩)
  · obtain ⟨q, n, rfl, -, hq, -⟩ := hI.first hd
    obtain ⟨i, hBi, -, -, hi⟩ := hI.block hc
    obtain rfl := hB.class_eq hBi
    rintro x ⟨hx, hx'⟩
    have h1 := hx.2
    have h2 := hx'.1
    simp only [fin] at h1 h2
    omega

end Cases

/-- `krealloc` of a block in use. -/
theorem HeapUse.Inv.resizesBlock_iff (hI : h.Inv ∅ b) (hc : c ∈ h.blocks) (hpos : 0 < newSize)
    (hlt : newSize < 4294967296) :
    h.Resizes (h.kernel.dyn.extent c.va) (h.besideBlock c) newSize ↔ h.kernel.BlockResizes c.va newSize := by
  obtain ⟨k, hB, -⟩ := hI.block hc
  obtain ⟨hsize, hext⟩ := hI.blockSize hB
  have hcls := class_le hB.cls
  rw [HeapUse.Resizes, hext, Kernel.BlockResizes, hsize, dynAllocMaxBlockSize]
  by_cases hle : newSize ≤ 8 * 2 ^ k
  · exact ⟨fun _ => .inl hle, fun _ => resizesBlock_fits hI hc hB hpos hle⟩
  by_cases hs : newSize ≤ 2048
  · have hiff := resizesBlock_block hI hc hB (not_le.1 hle) hs
    refine ⟨fun hres => .inr (.inl ⟨hs, (hiff fun _ _ => 0).1 (hres _)⟩), fun hcond ram => (hiff ram).2 ?_⟩
    rcases hcond with h1 | ⟨-, h1⟩ | ⟨h1, -⟩
    · exact absurd h1 hle
    · exact h1
    · omega
  by_cases hmax : newSize ≤ 4294963200
  · have hiff := resizesBlock_pages hI hc hB (not_le.1 hs) hmax
    refine ⟨fun hres => .inr (.inr ⟨not_le.1 hs, hmax, (hiff fun _ _ => 0).1 (hres _)⟩),
      fun hcond ram => (hiff ram).2 ?_⟩
    rcases hcond with h1 | ⟨h1, -⟩ | ⟨-, -, h1⟩
    · exact absurd h1 hle
    · exact absurd h1 hs
    · exact h1
  · have hno := resizesBlock_wrapped hI hc hB (not_le.1 hmax) hlt
    refine ⟨fun hres => absurd (hres fun _ _ => 0) (hno _), fun hcond => ?_⟩
    rcases hcond with h1 | ⟨h1, -⟩ | ⟨-, h1, -⟩
    · exact absurd h1 hle
    · exact absurd h1 hs
    · exact absurd h1 hmax

end Block

end Fos.Heap
