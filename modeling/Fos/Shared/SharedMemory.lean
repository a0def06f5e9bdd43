/-
Shared memory objects, `kern/mem/shared_memory_manager.c`, with `strcmp` and `strncpy` of
`lib/string.c` and `del_page_table` of `kern/mem/paging_helpers.c`. An object is known by the address
that `kmalloc` gave it. `allocate_frame` panics rather than return an error, so the branch of
`create_shared_object` that undoes the mapped pages is never taken and is left out.
-/
import Fos.Heap.KernelHeap

namespace Fos.Shared

open Fos.Memory Fos.Heap

/-! ## Strings -/

/-- A `NUL`-terminated string of a caller, without the `NUL`. -/
structure CString where
  bytes : List UInt8
  noNul : 0 ∉ bytes
  deriving DecidableEq

/-- The bytes from the string's first to its `NUL`. -/
def CString.chars (s : CString) : List UInt8 := s.bytes ++ [0]

/-- A buffer that ends before its `NUL` is not read: all strings here have one. -/
def strcmp : List UInt8 → List UInt8 → Int
  | p :: ps, q :: qs => if p ≠ 0 ∧ p = q then strcmp ps qs else (p.toNat : Int) - q.toNat
  | _, _ => 0

/-- The bytes `strncpy` writes: after its `NUL` the source is not left, so the rest is padded. -/
def strncpy : List UInt8 → Nat → List UInt8
  | _, 0 => []
  | src, size + 1 => src.headD 0 :: strncpy (if src.headD 0 ≠ 0 then src.tail else src) size

/-! ## Objects -/

def eNoShare : Int := -14
def eSharedMemExists : Int := -15
def eSharedMemNotExists : Int := -16

/-- `sizeof(struct Share)`. -/
def sizeofShare : Nat := 96

/-- A `struct Share` at `addr`; `frames` is what its `framesStorage` holds. -/
structure Share where
  addr : Nat
  ID : Int
  ownerID : Int
  name : List UInt8
  size : Int
  references : Nat
  isWritable : Nat
  framesStorage : Nat
  frames : Nat → Option Nat

/-- `(size + PAGE_SIZE - 1) / PAGE_SIZE` of the `uint32` that `create_shared_object` is given. -/
def numberOfFrames (size : Nat) : Nat := add32 size (pageSize - 1) / pageSize

/-- The same of the object's `int size`, as the bound of a loop from `0`. -/
def Share.numOfFrames (shr : Share) : Nat := ((toInt32 (add32 (ofInt32 shr.size) (pageSize - 1))).tdiv pageSize).toNat

/-- The kernel with `AllShares`. -/
structure Shares where
  kernel : Kernel
  sharesList : List Share
  shareslock : Bool

/-- Code of the shared memory manager. -/
abbrev SM (α : Type) := EStateM Halt Shares α

def onKernel {α : Type} (x : KM α) : SM α := fun s =>
  match x s.kernel with
  | .ok a k => .ok a { s with kernel := k }
  | .error e k => .error e { s with kernel := k }

/-- `sharing_init`. -/
def sharingInit (k : Kernel) : Shares := ⟨k, [], false⟩

def acquireSharesLock : SM Unit := do
  if (← get).shareslock then throw (.panic "acquire_spinlock: lock \"%s\" is already held by the same CPU.")
  modify ({ · with shareslock := true })

def releaseSharesLock : SM Unit := do
  if !(← get).shareslock then throw (.panic "release: lock \"%s\" is either not held or held by another CPU!")
  modify ({ · with shareslock := false })

/-- Write to the object at `addr`. -/
def Shares.setShare (s : Shares) (addr : Nat) (g : Share → Share) : Shares :=
  { s with sharesList := s.sharesList.map fun shr => if shr.addr = addr then g shr else shr }

def modifyShare (addr : Nat) (g : Share → Share) : SM Unit := modify (·.setShare addr g)

/-- The search of `find_share`. -/
def Shares.lookup (s : Shares) (ownerID : Int) (name : List UInt8) : Option Share :=
  s.sharesList.find? fun shr => shr.ownerID = ownerID ∧ strcmp name shr.name = 0

def findShare (ownerID : Int) (name : List UInt8) : SM (Option Share) := do
  let wasHeld := (← get).shareslock
  if !wasHeld then acquireSharesLock
  let ret := (← get).lookup ownerID name
  if !wasHeld then releaseSharesLock
  return ret

/-! ## Creating -/

/-- The fields of a new object. -/
def newShare (addr framesStorage : Nat) (ownerID : Int) (shareName : List UInt8) (size isWritable : Nat) : Share where
  addr
  ID := addr % 2147483648
  ownerID
  name := strncpy shareName 63 ++ [0]
  size := toInt32 size
  references := 1
  isWritable
  framesStorage
  frames := fun _ => none

/-- `none` is `NULL`. -/
def allocShare (ownerID : Int) (shareName : List UInt8) (size isWritable : Nat) : SM (Option Share) := do
  let addr ← onKernel (kmalloc sizeofShare)
  if addr = 0 then return none
  let framesStorage ← onKernel (kmalloc (mul32 (numberOfFrames size) 4))
  if framesStorage = 0 then
    onKernel (kfree addr)
    return none
  return some (newShare addr framesStorage ownerID shareName size isWritable)

/-- The address of page `i` of a range. -/
def pageOf (virtualAddress i : Nat) : Nat := add32 virtualAddress (mul32 i pageSize)

/-- The loop of `create_shared_object` from page `i` on. -/
def createPages (d addr virtualAddress : Nat) : Nat → Nat → SM Unit
  | _, 0 => pure ()
  | i, n + 1 => do
    let f ← onKernel (onMem Mem.allocateFrame)
    modifyShare addr fun shr => { shr with frames := Function.update shr.frames i (some f) }
    onKernel (mapFrame d f (pageOf virtualAddress i) { user := true, writeable := true, present := true })
    createPages d addr virtualAddress (i + 1) n

/-- `d` is the page directory of the calling environment. -/
def createSharedObject (d : Nat) (ownerID : Int) (shareName : List UInt8) (size isWritable virtualAddress : Nat) :
    SM Int := do
  acquireSharesLock
  if (← findShare ownerID shareName).isSome then
    releaseSharesLock
    return eSharedMemExists
  match ← allocShare ownerID shareName size isWritable with
  | none =>
    releaseSharesLock
    return eNoShare
  | some shr =>
    modify fun s => { s with sharesList := shr :: s.sharesList }
    if virtualAddress % pageSize ≠ 0 then
      releaseSharesLock
      return eNoShare
    createPages d shr.addr virtualAddress 0 (numberOfFrames size)
    releaseSharesLock
    return shr.ID

/-! ## Getting -/

/-- The permissions a getter's pages are mapped with. -/
def Share.perm (shr : Share) : Perm :=
  if shr.isWritable = 0 then { user := true, present := true } else { user := true, present := true, writeable := true }

/-- The loop of `get_shared_object` from page `i` on; `map_frame` of `NULL` faults. -/
def getPages (d : Nat) (shr : Share) (virtualAddress : Nat) : Nat → Nat → SM Unit
  | _, 0 => pure ()
  | i, n + 1 => do
    match shr.frames i with
    | none => throw .faults
    | some f => onKernel (mapFrame d f (pageOf virtualAddress i) shr.perm)
    getPages d shr virtualAddress (i + 1) n

def getSharedObject (d : Nat) (ownerID : Int) (shareName : List UInt8) (virtualAddress : Nat) : SM Int := do
  acquireSharesLock
  match ← findShare ownerID shareName with
  | none =>
    releaseSharesLock
    return eSharedMemNotExists
  | some shr =>
    getPages d shr virtualAddress 0 shr.numOfFrames
    modifyShare shr.addr fun shr => { shr with references := add32 shr.references 1 }
    releaseSharesLock
    return shr.ID

/-! ## Deleting -/

/-- `del_page_table`: it looks the table up in the kernel's directory, not in the given one, and clears
the entry there. -/
def delPageTable (virtualAddress : Nat) : KM Unit := do
  let s ← get
  match s.mem.table 0 (pdx virtualAddress) with
  | none => pure ()
  | some f =>
    kfree (if isKernelAddress virtualAddress then add32 (f * 4096) 0xF0000000 else kheapVirtualAddress s (f * 4096))
    modify fun s => { s with mem := { s.mem with
      table := Function.update s.mem.table 0 (Function.update (s.mem.table 0) (pdx virtualAddress) none) } }

/-- The page table of `va` is there and none of its entries is present. -/
def emptyTable (m : Mem) (d va : Nat) : Bool :=
  (m.table (owner d va) (pdx va)).isSome &&
    (List.range 1024).all fun j => !(m.pte (owner d va, pdx va * 1024 + j)).perm.present

/-- The loop of `delete_shared_object` from page `i` on. -/
def deletePages (d startVA : Nat) : Nat → Nat → SM Unit
  | _, 0 => pure ()
  | i, n + 1 => do
    onKernel do
      modify fun s => { s with mem := s.mem.unmapFrame d (pageOf startVA i) }
      if emptyTable (← get).mem d (pageOf startVA i) then delPageTable (pageOf startVA i)
    deletePages d startVA (i + 1) n

/-- The loop of `free_share` from page `i` on. -/
def freeFrames (shr : Share) : Nat → Nat → KM Unit
  | _, 0 => pure ()
  | i, n + 1 => do
    match shr.frames i with
    | none => pure ()
    | some f => modify fun s => { s with mem := s.mem.freeFrame f }
    freeFrames shr (i + 1) n

def freeShare (shr : Share) : SM Unit := do
  acquireSharesLock
  modify fun s => { s with sharesList := s.sharesList.filter (·.addr ≠ shr.addr) }
  releaseSharesLock
  onKernel do
    freeFrames shr 0 shr.numOfFrames
    kfree shr.framesStorage
    kfree shr.addr

def deleteSharedObject (d : Nat) (sharedObjectID : Int) (startVA : Nat) : SM Int := do
  acquireSharesLock
  match (← get).sharesList.find? (·.ID = sharedObjectID) with
  | none =>
    releaseSharesLock
    return eSharedMemNotExists
  | some shr =>
    deletePages d startVA 0 shr.numOfFrames
    modifyShare shr.addr fun shr => { shr with references := sub32 shr.references 1 }
    if sub32 shr.references 1 = 0 then freeShare shr
    releaseSharesLock
    return 0

end Fos.Shared
