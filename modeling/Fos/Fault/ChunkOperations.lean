/-
The calls of the user heap in the kernel, `kern/mem/chunk_operations.c` and `kern/trap/syscall.c`, with
`env_page_ws_invalidate` of `kern/mem/working_set_manager.c`. `inc/uheap.h` gives the kernel an
`uheapPageAllocStart` of its own that nothing sets, so the comparison with it in `allocate_user_mem` never holds and
is left out, as is `create_page_table` returning an error: it panics.
-/
import Fos.Fault.Handler

namespace Fos.Fault

open Fos.Memory Fos.Heap Fos.Proc Fos.Disk

/-! ## Taking a page out of the working set -/

/-- The first element of the list for the page of `va`. -/
def elementOf (l : List WorkingSetElement) (va : Nat) : Option WorkingSetElement :=
  l.find? fun w => roundDown w.virtualAddress pageSize = roundDown va pageSize

/-- `LIST_REMOVE`. -/
def listRemove (l : List WorkingSetElement) (addr : Nat) : List WorkingSetElement := l.eraseP (·.addr = addr)

/-- `LIST_NEXT` of the element at an address. -/
def listNext (l : List WorkingSetElement) (addr : Nat) : Option Nat :=
  (l.dropWhile (·.addr ≠ addr)).tail.head?.map (·.addr)

/-- The first element of the second list moves to the tail of the active one, and its page is present. -/
def refillActive : Option WorkingSetElement → PM Unit
  | none => pure ()
  | some tmp => do
    modifyEnv fun e => { e with
      secondList := listRemove e.secondList tmp.addr
      activeList := e.activeList ++ [tmp] }
    ptSetPagePermissions tmp.virtualAddress .permPresent .none

/-- `env_page_ws_invalidate`; `lruLists` is whether the policy is `PG_REP_LRU_LISTS_APPROX`. -/
def envPageWsInvalidate (lruLists : Bool) (virtualAddress : Nat) : PM Unit := do
  let E := (← get).env
  if lruLists then
    match elementOf E.activeList virtualAddress, elementOf E.secondList virtualAddress with
    | some wse, _ =>
      unmapUserFrame wse.virtualAddress
      modifyEnv fun e => { e with activeList := listRemove e.activeList wse.addr }
      onKernel (kfree wse.addr)
      refillActive E.secondList.head?
    | none, some wse =>
      unmapUserFrame wse.virtualAddress
      modifyEnv fun e => { e with secondList := listRemove e.secondList wse.addr }
      onKernel (kfree wse.addr)
    | none, none => pure ()
  else
    match elementOf E.pageWsList virtualAddress with
    | some wse =>
      unmapUserFrame wse.virtualAddress
      modifyEnv fun e => { e with
        pageLastWsElement :=
          if e.pageLastWsElement = some wse.addr then listNext e.pageWsList wse.addr else e.pageLastWsElement
        pageWsList := listRemove e.pageWsList wse.addr }
      onKernel (kfree wse.addr)
    | none => pure ()

/-! ## `allocate_user_mem` and `free_user_mem` -/

/-- The body of the loop of `allocate_user_mem`. -/
def allocateUserPage (va : Nat) : PM Unit := do
  if userHeapMax < va then return
  if !(← get).hasTable va then tableFaultHandler va
  modify fun s =>
    let a := slot s.env.envPageDirectory va
    let e := s.mem.pte a
    s.setMem (s.mem.setPte a (if e.perm.present then { e with perm := { e.perm with uhpage := true } }
      else ⟨0, { user := true, writeable := true, uhpage := true }⟩))

/-- The loop of `allocate_user_mem`. -/
def allocateUserPages (va : Nat) : Nat → PM Unit
  | 0 => pure ()
  | n + 1 => do
    allocateUserPage va
    allocateUserPages (va + pageSize) n

/-- The pages of the loops: from `ROUNDDOWN(virtual_address, PAGE_SIZE)` to
`ROUNDUP(virtual_address + size, PAGE_SIZE)`. -/
def chunkPages (virtualAddress size : Nat) : Nat :=
  (roundUp (add32 virtualAddress size) pageSize - roundDown virtualAddress pageSize) / pageSize

def allocateUserMem (virtualAddress size : Nat) : PM Unit := do
  if virtualAddress = 0 ∨ size = 0 then return
  allocateUserPages (roundDown virtualAddress pageSize) (chunkPages virtualAddress size)

/-- The body of the loop of `free_user_mem`: the page table is looked up first and written to last, through a pointer
that is `NULL` where there is none. -/
def freeUserPage (lruLists : Bool) (va : Nat) : PM Unit := do
  let hasTable := (← get).hasTable va
  envPageWsInvalidate lruLists va
  pfRemoveEnvPage va
  if !hasTable then throw .faults
  modify fun s =>
    let a := slot s.env.envPageDirectory va
    let e := s.mem.pte a
    s.setMem (s.mem.setPte a { e with perm := { e.perm with uhpage := false } })

/-- The loop of `free_user_mem`. -/
def freeUserPages (lruLists : Bool) (va : Nat) : Nat → PM Unit
  | 0 => pure ()
  | n + 1 => do
    freeUserPage lruLists va
    freeUserPages lruLists (va + pageSize) n

def freeUserMem (lruLists : Bool) (virtualAddress size : Nat) : PM Unit :=
  freeUserPages lruLists (roundDown virtualAddress pageSize) (chunkPages virtualAddress size)

/-! ## The system calls -/

/-- The range that both calls accept. -/
def legalRange (virtualAddress size : Nat) : Bool :=
  !(virtualAddress = 0 || userHeapMax ≤ virtualAddress || virtualAddress < userHeapStart ||
    userHeapMax ≤ add32 virtualAddress size || add32 virtualAddress size < userHeapStart)

/-- `isPageReplacmentAlgorithmLRU(PG_REP_LRU_LISTS_APPROX)`. -/
def FaultState.lruLists (s : FaultState) : Bool := s.faults.pageRepAlgoType = .lruListsApprox

def sysAllocateUserMem (virtualAddress size : Nat) : FM Unit := do
  if !legalRange virtualAddress size then throw .exits
  onMachine (allocateUserMem virtualAddress size)

def sysFreeUserMem (virtualAddress size : Nat) : FM Unit := do
  if !legalRange virtualAddress size then throw .exits
  let s ← get
  if s.faults.enableBuffering then throw (.panic "__free_user_mem_with_buffering() is not implemented yet...!!")
  onMachine (freeUserMem s.lruLists virtualAddress size)

end Fos.Fault
