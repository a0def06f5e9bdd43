/-
The indices used into `allocatedSize`. The table is declared for the pages of the kernel heap but
indexed by page numbers of the whole address space, so the first allocation of pages leaves it.
-/
import Fos.Heap.KernelHeapRun

namespace Fos.Heap

open Fos.Memory Fos.Lib

/-! ## Runs -/

/-- The kernel, and whether a call has stopped it. -/
structure KRun where
  kernel : Kernel
  stopped : Bool

def KRun.after {α : Type} : EStateM.Result Halt Kernel α → KRun
  | .ok _ s => ⟨s, false⟩
  | .error _ s => ⟨s, true⟩

/-- A call in the range of the page allocator, on a kernel that has not stopped. -/
def SizeStep (r : KRun) (c : HeapCall) (r' : KRun) : Prop :=
  r.stopped = false ∧
  match c with
  | .kmalloc size => 2048 < size ∧ size < 4294967296 ∧ r' = .after (kmalloc size r.kernel)
  | .kfree va => r.kernel.kheapPageAllocStart ≤ va ∧ va < kernelHeapMax ∧ r' = .after (kfree va r.kernel)

/-- Every index used so far is one of the table. -/
def KRun.InBounds (r : KRun) : Prop := ∀ i ∈ r.kernel.allocatedSize.used, i < allocatedSizeEntries

/-- The call is not a request that obtains pages: `kmalloc` refuses it, or its size rounds to no page, or
the free frames run out. -/
def KRun.TakesNoPage (r : KRun) : HeapCall → Prop
  | .kmalloc size => r.kernel.Refuses (pagesOf size) ∨ pagesOf size = 0 ∨
      r.kernel.mem.freeFrameList.length < pagesOf size
  | .kfree _ => True

/-! ## While no page is taken -/

/-- Nothing was allocated and no index used. -/
def KRun.Unused (r : KRun) : Prop :=
  r.kernel.allocatedSize.used = [] ∧ (r.stopped = false → ∃ b, KHeap.Inv ⟨r.kernel, []⟩ b)

section Unused

variable {s : Kernel} {b : Nat}

theorem nothing_held (hI : KHeap.Inv ⟨s, []⟩ b) {va : Nat} (h1 : 1015809 * 4096 ≤ va) (h2 : va < kernelHeapMax) :
    s.mem.getFrameInfo 0 va = none := by
  by_contra hn
  obtain ⟨e, he, -⟩ := (hI.holds h1 h2).1 (Option.isSome_iff_ne_none.2 hn)
  cases he

theorem kfree_unmapped (hI : KHeap.Inv ⟨s, []⟩ b) {va : Nat} (h1 : s.kheapPageAllocStart ≤ va)
    (h2 : va < kernelHeapMax) :
    kfree va s = .error (.panic "trying to free unallocated page") s := by
  have hst : s.kheapPageAllocStart = 1015809 * 4096 := hI.start
  have hend : s.dyn.dynAllocEnd ≤ va := by
    rw [show s.dyn.dynAllocEnd = _ from hI.dynEnd]; simp only [kernelHeapStart, dynAllocMaxSize]; omega
  rw [kfree_page hI.lock (.inr hend) h1 h2, if_pos (nothing_held hI (by omega) (by omega))]

theorem fit_nothing (hI : KHeap.Inv ⟨s, []⟩ b) : b = 1015809 := by
  rcases hI.tight with hb | hb
  · exact hb
  · have hlow := hI.low
    have hhigh := hI.high
    by_contra hne
    obtain ⟨e, he, -⟩ := (hI.mapped (b - 1) (by omega) (by omega)).1 hb
    cases he

/-- A request that rounds to no page changes nothing. -/
theorem kmalloc_zero (hI : KHeap.Inv ⟨s, []⟩ b) {size : Nat} (hs : 2048 < size) (hn : pagesOf size = 0) :
    ∃ va, kmalloc size s = .ok va s := by
  obtain rfl := fit_nothing hI
  have hst := hI.start
  have hbr := hI.brk
  have hlock := hI.lock
  simp only at hst hbr hlock
  have hb0 : s.kheapPageAllocBreak ≠ 0 := by rw [hbr]; omega
  have hgrown : add32 s.kheapPageAllocBreak (mul32 0 pageSize) = s.kheapPageAllocBreak := by rw [hbr]; decide
  have hr : ¬ s.Refuses 0 := by
    unfold Kernel.Refuses
    rw [hgrown, hbr]; decide
  have hscan : ∀ fuel, scanHoles s.mem 0 (1015809 * 4096) (fuel + 1) (1015809 * 4096) {} = {} := by
    intro fuel
    rw [scanHoles, if_neg (by omega)]
  have hf : ¬ fitAddress s 0 ≠ 0 := by
    simp only [fitAddress, hst, hbr, hscan]; decide
  have hsize : Mem.withSize s.mem s.kheapPageAllocBreak (0 * 4096) = s.mem := by
    rw [Mem.withSize, hbr, nothing_held hI (le_refl _) (by decide)]
  refine ⟨s.kheapPageAllocBreak, ?_⟩
  rw [kmalloc_pages hlock hs hb0, hn, if_neg hr, if_neg hf, hgrown,
    bind_of_ok (show mapPages _ 0 _ = .ok () _ from rfl), bind_of_ok (modify_eq _ _), hbr, record_done rfl (by decide)]
  simp only [locked_mem, locked_size, ← hbr, hsize, SizeTable.fill_zero, ← hlock]
  rfl

/-- While no call takes pages, no index is used. -/
theorem KRun.Unused.step (r : KRun) (c : HeapCall) (r' : KRun) (h : r.Unused) (hc : r.TakesNoPage c)
    (hstep : SizeStep r c r') : r'.Unused := by
  obtain ⟨hrun, hstep⟩ := hstep
  obtain ⟨hused, hI⟩ := h
  obtain ⟨b, hI⟩ := hI hrun
  have hst := hI.start
  cases c with
  | kmalloc size =>
    obtain ⟨hs, hlt, rfl⟩ := hstep
    have hb0 : r.kernel.kheapPageAllocBreak ≠ 0 := by
      have := hI.low
      rw [show r.kernel.kheapPageAllocBreak = b * 4096 from hI.brk]; omega
    by_cases hr : r.kernel.Refuses (pagesOf size)
    · rw [kmalloc_pages hI.lock hs hb0, if_pos hr]
      exact ⟨hused, fun _ => ⟨b, hI⟩⟩
    · by_cases hn : pagesOf size = 0
      · obtain ⟨va, hva⟩ := kmalloc_zero hI hs hn
        rw [hva]
        exact ⟨hused, fun _ => ⟨b, hI⟩⟩
      · have hfew : r.kernel.mem.freeFrameList.length < pagesOf size := (hc.resolve_left hr).resolve_left hn
        obtain ⟨p, b', -, -, -, hfree, ⟨m', hM, -⟩ | ⟨-, e, m', he⟩⟩ :=
          kmalloc_takes hI hs rfl (Nat.pos_of_ne_zero hn) (pagesOf_lt size) hr
        · have := hM.frames hfree
          simp only at this
          omega
        · rw [show kmalloc size r.kernel = _ from he]
          exact ⟨hused, fun h => by cases h⟩
  | kfree va =>
    obtain ⟨h1, h2, rfl⟩ := hstep
    rw [kfree_unmapped hI h1 h2]
    exact ⟨hused, fun h => by cases h⟩

/-- A call that takes pages uses an index beyond the table. -/
theorem KRun.Unused.exact (r : KRun) (c : HeapCall) (r' : KRun) (h : r.Unused) (hstep : SizeStep r c r')
    (hin : r'.InBounds) : r.TakesNoPage c := by
  obtain ⟨hrun, hstep⟩ := hstep
  obtain ⟨-, hI⟩ := h
  obtain ⟨b, hI⟩ := hI hrun
  cases c with
  | kfree va => trivial
  | kmalloc size =>
    obtain ⟨hs, hlt, rfl⟩ := hstep
    by_contra hc
    simp only [KRun.TakesNoPage, not_or] at hc
    obtain ⟨hr, hn, hfew⟩ := hc
    obtain ⟨p, b', hp, -, -, -, ⟨m', -, he⟩ | ⟨hlt', -⟩⟩ :=
      kmalloc_takes hI hs rfl (Nat.pos_of_ne_zero hn) (pagesOf_lt size) hr
    · rw [show kmalloc size r.kernel = _ from he] at hin
      have hmem : p ∈ (r.kernel.allocatedSize.fill p (pagesOf size) (pagesOf size * 4096)).used := by
        refine List.mem_append_left _ (List.mem_reverse.2 (List.mem_range'_1.2 ⟨le_refl p, by omega⟩))
      have hlt := hin p hmem
      have : allocatedSizeEntries = 40959 := by decide
      omega
    · exact hfew hlt'

end Unused

theorem unused_init {s₀ s : Kernel} (hboot : Booted s₀.mem) (hinit : kheapInit s₀ = .ok s)
    (hused : s₀.allocatedSize.used = []) : KRun.Unused ⟨s, false⟩ :=
  ⟨by rw [(kheapInit_same hinit).2, hused], fun _ => ⟨_, kheapInit_inv hboot hinit⟩⟩

/-- In a run of the page allocator the table of sizes is used within its bounds exactly as long as no
request obtains a page. -/
theorem allocated_size_in_bounds (s₀ s : Kernel) (hboot : Booted s₀.mem) (hinit : kheapInit s₀ = .ok s)
    (hused : s₀.allocatedSize.used = []) (cs : List HeapCall) :
    Always SizeStep KRun.InBounds ⟨s, false⟩ cs ↔ Each SizeStep KRun.TakesNoPage ⟨s, false⟩ cs := by
  refine always_iff_each ?_ KRun.Unused.step KRun.Unused.exact (unused_init hboot hinit hused)
  rintro r ⟨hr, -⟩ i hi
  rw [hr] at hi
  cases hi

theorem allocated_size_in_bounds_machine : ∃ s, kheapInit (unusedKernel machine) = .ok s ∧
    (Always SizeStep KRun.InBounds ⟨s, false⟩ [.kmalloc 4294967295] ↔
      Each SizeStep KRun.TakesNoPage ⟨s, false⟩ [.kmalloc 4294967295]) :=
  ⟨_, rfl, allocated_size_in_bounds (unusedKernel machine) _ machine_booted rfl rfl _⟩

/-- The first `kmalloc` of a page writes entry `0xF8001` of the 40959 that there are. -/
theorem allocated_size_overrun : ∃ s, kheapInit (unusedKernel machine) = .ok s ∧
    ¬ Always SizeStep KRun.InBounds ⟨s, false⟩ [.kmalloc 4096] := by
  obtain ⟨s, hs⟩ : ∃ s, kheapInit (unusedKernel machine) = .ok s := ⟨_, rfl⟩
  refine ⟨s, hs, fun h => ?_⟩
  have hstep : SizeStep ⟨s, false⟩ (.kmalloc 4096) (.after (kmalloc 4096 s)) := ⟨rfl, by decide, by decide, rfl⟩
  have hpages : pagesOf 4096 = 1 := by decide
  have hno := KRun.Unused.exact _ _ _ (unused_init machine_booted hs rfl) hstep (h.2 _ hstep)
  simp only [KRun.TakesNoPage, hpages, (kheapInit_same hs).1, Kernel.Refuses,
    show s.kheapPageAllocBreak = 1015809 * 4096 from (kheapInit_inv machine_booted hs).brk] at hno
  rcases hno with hr | hn | hfew
  · exact absurd hr (by decide)
  · exact absurd hn (by decide)
  · simp [unusedKernel, machine] at hfew

end Fos.Heap
