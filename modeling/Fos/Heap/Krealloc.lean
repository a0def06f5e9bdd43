/-
`krealloc` of `kern/mem/kheap.c`: a block is given to `realloc_block` or copied to new pages, pages are
given back, added on either side, or copied. The copies read and write through the page tables, and an
address whose page is not mapped faults. The link words of free blocks are not among the bytes here:
they lie in no block in use.
-/
import Fos.Heap.HeapUse
import Fos.Heap.KernelBlocks

namespace Fos.Heap

open Fos.Memory Fos.Lib Fos.Lib.Extent DynAlloc

/-! ## Bytes -/

/-- The kernel, and the bytes of each frame. -/
structure HeapBytes where
  kernel : Kernel
  ram : Nat → Nat → UInt8

/-- Code of the kernel that also reads and writes bytes. -/
abbrev RM (α : Type) := EStateM Halt HeapBytes α

def HeapBytes.bytes (s : HeapBytes) : KernelRam := ⟨s.kernel.mem, s.ram⟩

/-- The bytes at the addresses of the kernel. -/
def kernelBytes : ByteMemory KernelRam := ⟨KernelRam.load, KernelRam.store⟩

/-- Code that touches no byte. -/
def onHeap {α : Type} (x : KM α) : RM α := fun s =>
  match x s.kernel with
  | .ok a kernel => .ok a { s with kernel }
  | .error e kernel => .error e { s with kernel }

/-- The pages of `n` bytes from `va` on are present. -/
def Reaches (m : Mem) (va n : Nat) : Prop := ∀ i < n, (KernelRam.frameAt m (va + i)).isSome

instance (m : Mem) (va n : Nat) : Decidable (Reaches m va n) := inferInstanceAs (Decidable (∀ i < n, _))

/-- A copy of `n` bytes, each read once and written once. -/
def copying (f : KernelRam → KernelRam) (dst src n : Nat) : RM Unit := fun s =>
  if Reaches s.kernel.mem src n ∧ Reaches s.kernel.mem dst n then .ok () { s with ram := (f s.bytes).ram }
  else .error .faults s

def memcpy (dst src n : Nat) : RM Unit := copying (kernelBytes.memcpy · dst src n) dst src n

def memmove (dst src n : Nat) : RM Unit := copying (kernelBytes.memmove · dst src n) dst src n

/-! ## Blocks -/

/-- `get_block_size`. -/
def getBlockSize (s : DynAlloc) (va : Nat) : Nat := (s.pageBlockInfoArr (sub32 va s.dynAllocStart / pageSize)).blockSize

/-- `free_block`, outside the lock. -/
def releaseBlock (va : Nat) : KM Unit := fun s =>
  match freeBlock kernelPages s.dyn s.mem va with
  | .ok (dyn, mem) => .ok () { s with dyn, mem }
  | .error e => .error e s

/-- `realloc_block`, outside the lock. `alloc_block` never returns `NULL` here, or the loop would call it for ever. -/
def reallocBlock (va newSize : Nat) : RM Nat := do
  if va = 0 then onHeap (kallocBlock newSize)
  else if newSize = 0 then do
    onHeap (releaseBlock va)
    return 0
  else do
    let sizeOfCurrent := getBlockSize (← get).kernel.dyn va
    if newSize ≤ sizeOfCurrent then return va
    else do
      let latestBlock ← onHeap (kallocBlock newSize)
      if latestBlock = 0 then throw .spins
      else do
        memcpy latestBlock va sizeOfCurrent
        onHeap (releaseBlock va)
        return latestBlock

/-- `krealloc` of a block; `NULL` is not returned at once. -/
def kreallocBlock (va newSize : Nat) : RM (Option Nat) := do
  let size := getBlockSize (← get).kernel.dyn va
  if newSize = size then return some va
  else if newSize < dynAllocMaxBlockSize then do
    let p ← reallocBlock va newSize
    return some p
  else do
    let newAllocatedAdress ← onHeap (kmalloc newSize)
    if newAllocatedAdress ≠ 0 then do
      memcpy newAllocatedAdress va size
      onHeap (releaseBlock va)
      return some newAllocatedAdress
    else return none

/-! ## Pages -/

/-- `fi->size` of frame `f`. -/
def writeFrameSize (f size : Nat) : KM Unit :=
  modify fun s => { s with mem := s.mem.setFrame f { s.mem.framesInfo f with size } }

/-- `get_frame_info(...)->size`, where `NULL` faults. -/
def writePageSize (va size : Nat) : KM Unit := fun s =>
  match s.mem.getFrameInfo 0 va with
  | some f => writeFrameSize f size s
  | none => .error .faults s

/-- The loop over the pages to give back: what it unmaps is the pages that hold no frame. -/
def unmapTail (m : Mem) (endAddress : Nat) : Nat → Nat → Mem
  | 0, _ => m
  | fuel + 1, i =>
    if i < endAddress then
      match m.getFrameInfo 0 i with
      | none => unmapTail (m.unmapFrame 0 i) endAddress fuel (add32 i pageSize)
      | some _ => unmapTail m endAddress fuel (add32 i pageSize)
    else m

/-- `theNextfreePagesKreallocFunc`: the free pages from `va` on. -/
def nextFreePages (m : Mem) : Nat → Nat → Nat
  | 0, _ => 0
  | fuel + 1, va =>
    if va < kernelHeapMax then
      match m.getFrameInfo 0 va with
      | none => nextFreePages m fuel (add32 va pageSize) + 1
      | some _ => 0
    else 0

/-- `thePrevfreePagesKreallocFunc`: the free pages from `va` down. -/
def prevFreePages (m : Mem) (pageStart : Nat) : Nat → Nat → Nat
  | 0, _ => 0
  | fuel + 1, va =>
    if pageStart ≤ va then
      match m.getFrameInfo 0 va with
      | none => prevFreePages m pageStart fuel (sub32 va pageSize) + 1
      | some _ => 0
    else 0

/-- Where the new pages start (`startAddrFrameKrealloc`), if there is room for them. -/
def growStart (va oldSize newSize next prev : Nat) : Option Nat :=
  let pagesNeeded := sub32 newSize oldSize / pageSize
  if pagesNeeded ≤ next then some (add32 va oldSize)
  else if prev = pagesNeeded then some (sub32 va (sub32 newSize oldSize))
  else if pagesNeeded ≤ prev then some (sub32 va (mul32 pagesNeeded pageSize))
  else if pagesNeeded ≤ prev + next then some (sub32 va (mul32 prev pageSize))
  else none

/-- The loop that maps the new pages and passes over those that are there. -/
def growPages (va oldSize : Nat) : Nat → Nat → KM Nat
  | 0, start => pure start
  | n + 1, start => do
    let f ← onMem Mem.allocateFrame
    let start := if start = va then add32 va oldSize else start
    onMem fun m => return ((), ← mapKernelFrame m f start { writeable := true, present := true })
    growPages va oldSize n (add32 start pageSize)

/-- Record the new size and return, once the new pages are mapped; `start` is where their loop ended and `f` the frame
of the first old page. -/
def recordGrown (va oldSize newSize next prev f start : Nat) : RM Nat := do
  let pagesNeeded := sub32 newSize oldSize / pageSize
  if next = pagesNeeded then do
    onHeap (writeFrameSize f newSize)
    return start
  else if prev = pagesNeeded then do
    onHeap (writeFrameSize f 0)
    onHeap (writePageSize start newSize)
    memcpy (sub32 va (sub32 newSize oldSize)) va newSize
    return sub32 va (sub32 newSize oldSize)
  else do
    onHeap (writeFrameSize f 0)
    onHeap (writePageSize start newSize)
    memcpy start va newSize
    return sub32 va (mul32 prev pageSize)

/-- The contents are moved to where the loop ended, unless that is the end of the old pages. -/
def grown (va oldSize newSize next prev f start : Nat) : RM Nat :=
  if start ≠ add32 va oldSize then do
    memmove start va oldSize
    recordGrown va oldSize newSize next prev f start
  else recordGrown va oldSize newSize next prev f start

/-- Pages that become fewer; `f` is the frame of the first one. -/
def shrinkPages (va oldSize newSize f : Nat) : RM Nat := do
  if newSize ≤ dynAllocMaxBlockSize then
    let newAllocatedAdder ← onHeap (kallocBlock newSize)
    if newAllocatedAdder ≠ 0 then do
      memcpy newAllocatedAdder va newSize
      onHeap (kfree va)
      return newAllocatedAdder
    else return newAllocatedAdder
  else
    let fuel := (oldSize - newSize) / pageSize + 1
    onHeap (modify fun s => { s with mem := unmapTail s.mem (add32 va oldSize) fuel (add32 va newSize) })
    onHeap (writeFrameSize f newSize)
    return va

/-- New pages from `start` on, or new pages elsewhere for all of the contents. -/
def expandAt (va oldSize newSize next prev f : Nat) : Option Nat → RM Nat
  | some start => do
    let start ← onHeap (growPages va oldSize (sub32 newSize oldSize / pageSize) start)
    grown va oldSize newSize next prev f start
  | none => do
    let newAllocationAddress ← onHeap (kmalloc newSize)
    if newAllocationAddress ≠ 0 then do
      memcpy newAllocationAddress va oldSize
      onHeap (kfree va)
      return newAllocationAddress
    else return newAllocationAddress

/-- Pages that become more, on the state `s` the call starts from. -/
def expandPages (s : Kernel) (va oldSize newSize f : Nat) : RM Nat :=
  let next := nextFreePages s.mem (kernelHeapMax / pageSize) (add32 va oldSize)
  let prev := prevFreePages s.mem s.kheapPageAllocStart (kernelHeapMax / pageSize) (sub32 va pageSize)
  expandAt va oldSize newSize next prev f (growStart va oldSize newSize next prev)

/-- `krealloc` of pages, the address and the size on page boundaries. -/
def kreallocPages (va newSize : Nat) : RM Nat := do
  let s := (← get).kernel
  match s.mem.getFrameInfo 0 va with
  | none => throw .faults
  | some f =>
    let oldSize := (s.mem.framesInfo f).size
    if newSize = oldSize then return va
    else if newSize < oldSize then shrinkPages va oldSize newSize f
    else expandPages s va oldSize newSize f

/-- The end of `krealloc`, past the blocks. -/
def kreallocAbove (s : Kernel) (virtualAddress newSize : Nat) : RM Nat :=
  if s.kheapPageAllocStart ≤ virtualAddress ∧ virtualAddress < kernelHeapMax then
    kreallocPages (roundDown virtualAddress pageSize) (roundUp newSize pageSize)
  else if virtualAddress < kernelHeapStart ∨ kernelHeapMax ≤ virtualAddress then throw (.panic "Invalid Address")
  else return 0

/-- After the part on blocks: what it returned, or the end. -/
def kreallocNext (s : Kernel) (virtualAddress newSize : Nat) : Option Nat → RM Nat
  | some p => return p
  | none => kreallocAbove s virtualAddress newSize

def krealloc (virtualAddress newSize : Nat) : RM Nat := do
  let s := (← get).kernel
  if virtualAddress = 0 then onHeap (kmalloc newSize)
  else if newSize = 0 then do
    onHeap (kfree virtualAddress)
    return 0
  else if s.dyn.dynAllocStart ≤ virtualAddress ∧ virtualAddress < s.dyn.dynAllocEnd then do
    let returned ← kreallocBlock virtualAddress newSize
    kreallocNext s virtualAddress newSize returned
  else kreallocAbove s virtualAddress newSize

end Fos.Heap
