/-
The kernel heap, `kern/mem/kheap.c`, with `map_frame` and `create_page_table` of
`kern/mem/memory_manager.c`, which call it for new page tables. Holes are not stored: `kmalloc` scans
the page tables for them. A call ends with a value or stops, and in both cases leaves a state.
`allocate_frame` panics rather than return an error and `map_frame` always returns `0`, so the
branches of `kmalloc` that undo a partial allocation are never taken and are left out; so is
`MERGEE` of `kfree`, whose list is always empty in the kernel.
-/
import Fos.Heap.DynAlloc
import Fos.Memory.Frame

namespace Fos.Heap

open Fos.Memory

/-! ## The state -/

/-- `allocatedSize` as a map on all indices, and the indices that were used. -/
structure SizeTable where
  val : Nat → Nat
  used : List Nat

/-- The declared number of entries of `allocatedSize`. -/
def allocatedSizeEntries : Nat := (kernelHeapMax - kernelHeapStart) / pageSize

structure Kernel where
  mem : Mem
  dyn : DynAlloc
  kheapPageAllocStart : Nat
  kheapPageAllocBreak : Nat
  allocatedSize : SizeTable
  lock : Bool

/-- Code of the kernel. -/
abbrev KM (α : Type) := EStateM Halt Kernel α

def acquireLock : KM Unit := do
  if (← get).lock then throw (.panic "acquire_spinlock: lock \"%s\" is already held by the same CPU.")
  modify ({ · with lock := true })

def releaseLock : KM Unit := do
  if !(← get).lock then throw (.panic "release: lock \"%s\" is either not held or held by another CPU!")
  modify ({ · with lock := false })

/-- A step on the frames and page tables. -/
def onMem {α : Type} (g : Mem → Res (α × Mem)) : KM α := fun s =>
  match g s.mem with
  | .ok (a, m) => .ok a { s with mem := m }
  | .error e => .error e s

def readSize (i : Nat) : KM Nat := fun s =>
  .ok (s.allocatedSize.val i) { s with allocatedSize := { s.allocatedSize with used := i :: s.allocatedSize.used } }

def writeSize (i v : Nat) : KM Unit := fun s =>
  .ok () { s with allocatedSize := ⟨Function.update s.allocatedSize.val i v, i :: s.allocatedSize.used⟩ }

/-- `kheap_init`, from whatever the globals held. -/
def kheapInit (s : Kernel) : Res Kernel := do
  let dyn ← initializeDynamicAllocator s.dyn kernelHeapStart (kernelHeapStart + dynAllocMaxSize)
  let start := add32 dyn.dynAllocEnd pageSize
  return { s with dyn, kheapPageAllocStart := start, kheapPageAllocBreak := start, lock := false }

/-! ## Pages of the kernel -/

/-- `map_frame` of a kernel page. Its page table was made at boot; making one here would call
`kmalloc` again, with its lock held. -/
def mapKernelFrame (m : Mem) (f va : Nat) (perm : Perm) : Res Mem :=
  let m := m.setFrameVa f va
  if (m.table 0 (pdx va)).isSome then .ok (m.enterFrame 0 f va perm)
  else .error (.panic "acquire_spinlock: lock \"%s\" is already held by the same CPU.")

/-- `get_page`: `alloc_page` of a writeable page, which does nothing where a frame is held. -/
def getPage (m : Mem) (va : Nat) : Res Mem :=
  let va := roundDown va pageSize
  match m.getFrameInfo 0 va with
  | some _ => .ok m
  | none => do
    let (f, m) ← m.allocateFrame
    mapKernelFrame m f va { writeable := true }

/-- `return_page`. -/
def returnPage (m : Mem) (va : Nat) : Res Mem := .ok (m.unmapFrame 0 (roundDown va pageSize))

def kernelPages : PageSource Mem := ⟨getPage, returnPage⟩

/-! ## `kmalloc` -/

/-- What the scan of `kmalloc` has found: the exact and the worst fit (`BydaytElcustomm`,
`BydaytElworsT`, `ElpagesBta3tWorst`) and the hole it is in (`ElstratElfadya`, `ElpagesEllyFadya`). -/
structure Scan where
  custom : Nat := 0
  worst : Nat := 0
  worstPages : Nat := 0
  start : Nat := 0
  pages : Nat := 0

/-- The end of a hole. -/
def Scan.close (n : Nat) (c : Scan) : Scan :=
  if 0 < c.pages then
    let c := if c.pages = n ∧ c.custom = 0 then { c with custom := c.start } else c
    if n ≤ c.pages ∧ c.worstPages < c.pages then { c with worstPages := c.pages, worst := c.start } else c
  else c

/-- The loop over the pages below the break. -/
def scanHoles (m : Mem) (n brk : Nat) : Nat → Nat → Scan → Scan
  | 0, _, c => c
  | fuel + 1, va, c =>
    if va < brk then
      match m.getFrameInfo 0 va with
      | none =>
        scanHoles m n brk fuel (add32 va pageSize)
          { c with start := if c.pages = 0 then va else c.start, pages := c.pages + 1 }
      | some _ => scanHoles m n brk fuel (add32 va pageSize) { c.close n with pages := 0 }
    else c

/-- The address `kmalloc` takes a request of `n` pages from, `0` for the break. -/
def fitAddress (s : Kernel) (n : Nat) : Nat :=
  let fuel := (s.kheapPageAllocBreak - s.kheapPageAllocStart) / pageSize + 1
  let c := (scanHoles s.mem n s.kheapPageAllocBreak fuel s.kheapPageAllocStart {}).close n
  if c.custom ≠ 0 then c.custom else c.worst

/-- Allocate and map a frame for each of `n` pages from `va` on. -/
def mapPages (va : Nat) : Nat → KM Unit
  | 0 => pure ()
  | n + 1 => do
    let f ← onMem Mem.allocateFrame
    onMem fun m => return ((), ← mapKernelFrame m f va { writeable := true, present := true })
    mapPages (add32 va pageSize) n

/-- The loop that writes the size of an allocation at each of its pages. -/
def writeSizes (i v : Nat) : Nat → KM Unit
  | 0 => pure ()
  | n + 1 => do
    writeSize i v
    writeSizes (i + 1) v n

/-- `fi->size` of the first page of the allocation. -/
def setFrameSize (va size : Nat) : KM Unit := fun s =>
  match s.mem.getFrameInfo 0 va with
  | some f => .ok () { s with mem := s.mem.setFrame f { s.mem.framesInfo f with size } }
  | none => .ok () s

/-- Record an allocation of `n` pages at `va`. -/
def recordSize (va n : Nat) : KM Unit := do
  writeSizes (va / 4096) (mul32 n pageSize) n
  setFrameSize va (mul32 n pageSize)

/-- The block allocator under the lock of the kernel heap. When no block is free the loop waits for
a flag that is only cleared by a `kfree`. -/
def kallocBlock (size : Nat) : KM Nat := fun s =>
  match allocBlock kernelPages s.dyn s.mem size with
  | .ok (.null, dyn, mem) => .ok 0 { s with dyn, mem }
  | .ok (.block va, dyn, mem) => .ok va { s with dyn, mem }
  | .ok (.waits, dyn, mem) => .error .spins { s with dyn, mem }
  | .error e => .error e s

def kmalloc (size : Nat) : KM Nat := do
  acquireLock
  let n := roundUp size pageSize / pageSize
  if size = 0 then
    releaseLock
    return 0
  if size ≤ dynAllocMaxBlockSize then
    let va ← kallocBlock size
    releaseLock
    return va
  let brk := (← get).kheapPageAllocBreak
  let grown := add32 brk (mul32 n pageSize)
  if kernelHeapMax ≤ grown ∨ grown < brk then
    releaseLock
    return 0
  if brk = 0 then
    modify fun s => { s with kheapPageAllocStart := roundUp s.dyn.dynAllocEnd pageSize,
                             kheapPageAllocBreak := roundUp s.dyn.dynAllocEnd pageSize }
  let va := fitAddress (← get) n
  if va ≠ 0 then
    mapPages va n
    recordSize va n
    releaseLock
    return va
  let brk := (← get).kheapPageAllocBreak
  let grown := add32 brk (mul32 n pageSize)
  if grown < brk ∨ kernelHeapMax ≤ grown then
    releaseLock
    return 0
  mapPages brk n
  modify ({ · with kheapPageAllocBreak := grown })
  recordSize brk n
  releaseLock
  return brk

/-! ## `kfree` -/

/-- The loop that unmaps the pages of an allocation and clears their sizes. -/
def freePages (va i : Nat) : Nat → KM Unit
  | 0 => pure ()
  | n + 1 => do
    onMem fun m => return ((), ← returnPage m va)
    writeSize i 0
    freePages (add32 va pageSize) (i + 1) n

/-- The loop that lowers the break past unmapped pages. -/
def lowerBreak (m : Mem) (start : Nat) : Nat → Nat → Nat
  | 0, brk => brk
  | fuel + 1, brk =>
    if start < brk then
      match m.getFrameInfo 0 (sub32 brk pageSize) with
      | some f => if 0 < (m.framesInfo f).references then brk else lowerBreak m start fuel (sub32 brk pageSize)
      | none => lowerBreak m start fuel (sub32 brk pageSize)
    else brk

def kfree (virtualAddress : Nat) : KM Unit := do
  acquireLock
  let s ← get
  if s.dyn.dynAllocStart ≤ virtualAddress ∧ virtualAddress < s.dyn.dynAllocEnd then
    match freeBlock kernelPages s.dyn s.mem virtualAddress with
    | .ok (dyn, mem) => set { s with dyn, mem }
    | .error e => throw e
    releaseLock
  else if s.kheapPageAllocStart ≤ virtualAddress ∧ virtualAddress < kernelHeapMax then
    let va := roundDown virtualAddress pageSize
    if s.mem.getFrameInfo 0 va = none then
      releaseLock
      throw (.panic "trying to free unallocated page")
    let size ← readSize (va / 4096)
    if size = 0 then
      releaseLock
      throw (.panic "size not found for this address")
    freePages va (va / 4096) (add32 size (pageSize - 1) / pageSize)
    modify fun s =>
      let fuel := (s.kheapPageAllocBreak - s.kheapPageAllocStart) / pageSize + 1
      { s with kheapPageAllocBreak := lowerBreak s.mem s.kheapPageAllocStart fuel s.kheapPageAllocBreak }
    releaseLock
  else if virtualAddress < kernelHeapStart ∨ kernelHeapMax ≤ virtualAddress then
    releaseLock
    throw (.panic "Invalid Address")

/-! ## Addresses -/

/-- `kheap_virtual_address`; the lock is taken and released around the reads. -/
def kheapVirtualAddress (s : Kernel) (physicalAddress : Nat) : Nat :=
  if mul32 s.mem.numberOfFrames pageSize ≤ physicalAddress then 0
  else
    let va := (s.mem.framesInfo (physicalAddress / 4096)).va
    if va = 0 ∨ va < kernelHeapStart ∨ kernelHeapMax ≤ va then 0
    else add32 va (physicalAddress % pageSize)

/-- `kheap_physical_address`. -/
def kheapPhysicalAddress (s : Kernel) (virtualAddress : Nat) : Nat :=
  if virtualAddress < kernelHeapStart ∨ kernelHeapMax ≤ virtualAddress then 0
  else if (s.mem.table 0 (pdx virtualAddress)).isNone then 0
  else
    let e := s.mem.pte (slot 0 virtualAddress)
    if e.perm.present then add32 (mul32 e.frame pageSize) (virtualAddress % pageSize) else 0

/-! ## Page tables of user pages -/

/-- Link the page table at kernel address `ptr` to entry `PDX(va)` of directory `d`, all entries
cleared. -/
def Kernel.linkTable (s : Kernel) (d va ptr : Nat) : Kernel :=
  { s with mem := { s.mem with
      table := Function.update s.mem.table d
        (Function.update (s.mem.table d) (pdx va) (some (kheapPhysicalAddress s ptr / 4096)))
      pte := fun a => if a.1 = d ∧ a.2 / 1024 = pdx va then {} else s.mem.pte a } }

def createPageTable (d va : Nat) : KM Unit := do
  let ptrPageTable ← kmalloc pageSize
  if ptrPageTable = 0 then throw (.panic "NOT ENOUGH KERNEL HEAP SPACE")
  modify (Kernel.linkTable · d va ptrPageTable)

def mapFrame (d f va : Nat) (perm : Perm) : KM Unit := do
  modify fun s => { s with mem := s.mem.setFrameVa f va }
  if ((← get).mem.table (owner d va) (pdx va)).isNone then createPageTable d va
  modify fun s => { s with mem := s.mem.enterFrame d f va perm }

end Fos.Heap
