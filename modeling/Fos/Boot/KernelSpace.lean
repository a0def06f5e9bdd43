/-
The kernel's part of the address space at boot, `kern/mem/boot_memory_manager.c`, and `initialize_paging` of
`kern/mem/memory_manager.c`. Before paging is on, the frames of the page directory and of the page tables are seen as
what they hold, words that are entries, and every address of the kernel is `KERNEL_BASE` above its physical one. What
the linker and the CMOS decide, and `sizeof(struct Env)`, is given.
-/
import Fos.Disk.PageFile
import Fos.Lib.StateCode

namespace Fos.Boot

open Fos.Memory Fos.Proc Fos.Disk

/-! ## Constants -/

def ptSize : Nat := 4194304
def vpt : Nat := kernelBase - ptSize
def kernStackTop : Nat := vpt
def userLimit : Nat := kernStackTop - ptSize
def uvpt : Nat := userLimit - ptSize
def uenvs : Nat := uvpt - 2 * ptSize
def physIoMem : Nat := 0x0A0000
def physExtendedMem : Nat := 0x100000

/-- `sizeof(struct FrameInfo)`: two links, `va`, `references`, `size`, `proc` and `isBuffered`. -/
def sizeofFrameInfo : Nat := 28

/-- `PTX`. -/
def ptx (va : Nat) : Nat := va / 4096 % 1024

/-! ## The state -/

/-- `entries f i` is word `i` of frame `f`; `ptrFreeMem` is `0` until the first allocation. -/
structure BootState where
  endOfKernel : Nat
  ptrStackBottom : Nat
  sizeofEnv : Nat
  numberOfFrames : Nat
  entries : Nat → Nat → Pte
  framesInfo : Nat → FrameInfo
  ptrFreeMem : Nat := 0
  ptrPageDirectory : Nat := 0
  freeFrameList : List Nat := []

/-- Code of the kernel at boot. -/
abbrev BM (α : Type) := EStateM Halt BootState α

namespace BootState

/-- The word at `kva + 4 * i`. -/
def word (s : BootState) (kva i : Nat) : Pte := s.entries ((kva - kernelBase) / 4096) i

def setWord (s : BootState) (kva i : Nat) (e : Pte) : BootState :=
  let f := (kva - kernelBase) / 4096
  { s with entries := Function.update s.entries f (Function.update (s.entries f) i e) }

/-- `memset(kva, 0, size)`. -/
def clear (s : BootState) (kva size : Nat) : BootState :=
  { s with entries := fun f i =>
      if kva ≤ kernelBase + 4096 * f + 4 * i ∧ kernelBase + 4096 * f + 4 * i < kva + size then {} else s.entries f i }

/-- `NENV * sizeof(struct Env)`, where `NENV` is `(PTSIZE/4) / sizeof(struct Env)`. -/
def envsSize (s : BootState) : Nat := ptSize / 4 / s.sizeofEnv * s.sizeofEnv

end BootState

/-! ## Page tables -/

/-- `STATIC_KERNEL_PHYSICAL_ADDRESS`. -/
def staticKernelPhysicalAddress (kva : Nat) : BM Nat := do
  if kva < kernelBase then throw (.panic "K_PHYSICAL_ADDRESS called with invalid kva %08lx")
  return kva - kernelBase

/-- `STATIC_KERNEL_VIRTUAL_ADDRESS`. -/
def staticKernelVirtualAddress (pa : Nat) : BM Nat := do
  if (← get).numberOfFrames ≤ pa / 4096 then throw (.panic "K_VIRTUAL_ADDRESS called with invalid pa %08lx")
  return add32 pa kernelBase

/-- `boot_allocate_space`. -/
def bootAllocateSpace (size align : Nat) : BM Nat := do
  modify fun s => if s.ptrFreeMem = 0 then { s with ptrFreeMem := s.endOfKernel } else s
  modify fun s => { s with ptrFreeMem := roundUp s.ptrFreeMem align }
  let ptrAllocatedMem := (← get).ptrFreeMem
  modify fun s => { s with ptrFreeMem := add32 s.ptrFreeMem size }
  modify (·.clear ptrAllocatedMem size)
  return ptrAllocatedMem

/-- `boot_get_page_table`, the address of the table or `0`. -/
def bootGetPageTable (ptrPageDirectory va : Nat) (create : Bool) : BM Nat := do
  let physPageTable := ((← get).word ptrPageDirectory (pdx va)).frame * 4096
  let ptrPageTable ← staticKernelVirtualAddress physPageTable
  if physPageTable = 0 then
    if create then
      let ptrPageTable ← bootAllocateSpace pageSize pageSize
      let physPageTable ← staticKernelPhysicalAddress ptrPageTable
      modify (·.setWord ptrPageDirectory (pdx va) ⟨physPageTable / 4096, { present := true, writeable := true }⟩)
      return ptrPageTable
    else return 0
  else return ptrPageTable

/-- The rounds of `boot_map_range`. -/
def mapPages (ptrPageDirectory : Nat) (perm : Perm) : Nat → Nat → Nat → BM Unit
  | 0, _, _ => pure ()
  | n + 1, va, pa => do
    let ptrPageTable ← bootGetPageTable ptrPageDirectory va true
    modify (·.setWord ptrPageTable (ptx va) ⟨pa / 4096, perm.union .permPresent⟩)
    mapPages ptrPageDirectory perm n (add32 va pageSize) (add32 pa pageSize)

/-- `boot_map_range`: the addresses are aligned, and the loop has a round for each page that `size` begins. -/
def bootMapRange (ptrPageDirectory va size pa : Nat) (perm : Perm) : BM Unit :=
  mapPages ptrPageDirectory perm ((size + 4095) / 4096) va pa

/-- `pt_set_page_permissions` for an address of the kernel; an entry of the directory that is not `0` is present. -/
def ptSetPagePermissions (directory va : Nat) (permissionsToSet permissionsToClear : Perm) : BM Unit := do
  let e := (← get).word directory (pdx va)
  if e.perm.present then
    let ptrPageTable ← staticKernelVirtualAddress (e.frame * 4096)
    modify fun s =>
      let e := s.word ptrPageTable (ptx va)
      s.setWord ptrPageTable (ptx va) { e with perm := (e.perm.union permissionsToSet).diff permissionsToClear }
  else throw (.panic "function pt_set_page_permissions() called with invalid virtual address. The corresponding page
  table doesn't exist\n")

/-- `setup_listing_to_all_page_tables_entries`. -/
def setupListingToAllPageTablesEntries : BM Unit := do
  let s ← get
  let physFrameAddress ← staticKernelPhysicalAddress s.ptrPageDirectory
  modify (·.setWord s.ptrPageDirectory (pdx vpt) ⟨physFrameAddress / 4096, { present := true, writeable := true }⟩)
  modify (·.setWord s.ptrPageDirectory (pdx uvpt) ⟨physFrameAddress / 4096, { present := true, user := true }⟩)

/-! ## `check_boot_pgdir` -/

/-- `check_va2pa`; `0xFFFFFFFF` is `~0`. -/
def checkVa2pa (ptrPageDirectory va : Nat) : BM Nat := do
  let dirEntry := (← get).word ptrPageDirectory (pdx va)
  if !dirEntry.perm.present then return 0xFFFFFFFF
  let p ← staticKernelVirtualAddress (dirEntry.frame * 4096)
  let e := (← get).word p (ptx va)
  if !e.perm.present then return 0xFFFFFFFF
  return e.frame * 4096

def assertion (c : Bool) (msg : String) : BM Unit := do
  if !c then throw (.panic msg)

/-- The entries of the directory that are made whatever the size of the kernel. -/
def bootEntry (i : Nat) : Bool :=
  i = pdx vpt || i = pdx uvpt || i = pdx (kernStackTop - 1) || i = pdx uenvs || pdx kernelBase ≤ i

/-- `check_boot_pgdir`. -/
def checkBootPgdir : BM Unit := do
  let s ← get
  let d := s.ptrPageDirectory
  (List.range ((s.ptrFreeMem - kernelBase + 4095) / 4096)).forM fun k => do
    let pa ← checkVa2pa d (kernelBase + k * pageSize)
    assertion (pa = k * pageSize) "assertion failed: check_va2pa(ptr_page_directory, KERNEL_BASE + i) == i"
  let stackBottom ← staticKernelPhysicalAddress s.ptrStackBottom
  (List.range (kernelStackSize / pageSize)).forM fun k => do
    -- the guard page
    if k = 0 then return
    let pa ← checkVa2pa d (kernStackTop - kernelStackSize + k * pageSize)
    assertion (pa = stackBottom + k * pageSize) "assertion failed: check_va2pa(ptr_page_directory,
    KERN_STACK_TOP - NCPUS*KERNEL_STACK_SIZE + i) == STATIC_KERNEL_PHYSICAL_ADDRESS(ptr_stack_bottom) + i"
  (List.range 1024).forM fun i => do
    let e := (← get).word d i
    if bootEntry i then assertion (e ≠ {}) "assertion failed: ptr_page_directory[i]"
    else assertion (e = {}) "assertion failed: ptr_page_directory[i] == 0"

/-! ## Boot -/

/-- `turn_on_paging`: the first megabytes are mapped as those from `KERNEL_BASE` on while the segments change. -/
def turnOnPaging : BM Unit := do
  let s ← get
  let tables := List.range (pdx s.ptrFreeMem - pdx kernelBase)
  tables.forM fun j => modify fun t => t.setWord s.ptrPageDirectory j (t.word s.ptrPageDirectory (pdx kernelBase + j))
  tables.forM fun j => modify (·.setWord s.ptrPageDirectory j {})

/-- `initialize_kernel_VM`. -/
def initializeKernelVM : BM Unit := do
  let d ← bootAllocateSpace pageSize pageSize
  modify ({ · with ptrPageDirectory := d })
  let stackBottom ← staticKernelPhysicalAddress (← get).ptrStackBottom
  bootMapRange d (kernStackTop - kernelStackSize) kernelStackSize stackBottom { writeable := true }
  ptSetPagePermissions d (kernStackTop - kernelStackSize) .none .permPresent
  -- all the tables from `KERNEL_BASE` on
  (List.range 64).forM fun k => do
    let _ ← bootGetPageTable d (kernelBase + k * ptSize) true
  let _ ← bootAllocateSpace (mul32 (← get).numberOfFrames sizeofFrameInfo) pageSize
  modify fun s => { s with framesInfo := fun _ => {} }
  let _ ← bootAllocateSpace (pagesPerFile * sizeofFrameInfo) pageSize
  setupListingToAllPageTablesEntries
  let envs ← bootAllocateSpace (← get).envsSize pageSize
  let physEnvs ← staticKernelPhysicalAddress envs
  bootMapRange d uenvs (← get).envsSize physEnvs { user := true }
  modify fun s =>
    let e := s.word d (pdx uenvs)
    s.setWord d (pdx uenvs) { e with perm := e.perm.union { user := true, present := true } }
  bootMapRange d kernelBase ((← get).ptrFreeMem - kernelBase) 0 { writeable := true }
  checkBootPgdir
  turnOnPaging

def setReferences (i : Nat) : BM Unit :=
  modify fun s => { s with framesInfo := Function.update s.framesInfo i { s.framesInfo i with references := 1 } }

/-- `initialize_frame_info` and `LIST_INSERT_HEAD`. -/
def insertFree (i : Nat) : BM Unit :=
  modify fun s => { s with framesInfo := Function.update s.framesInfo i {}, freeFrameList := i :: s.freeFrameList }

/-- `initialize_paging`, up to the page file. -/
def initializePaging : BM Unit := do
  modify ({ · with freeFrameList := [] })
  setReferences 0
  setReferences 1
  setReferences 2
  modify (·.clear (kernelBase + pageSize) 1024)
  modify (·.clear (kernelBase + 2 * pageSize) 1024)
  (List.range' 3 (physIoMem / pageSize - 3)).forM insertFree
  (List.range' (physIoMem / pageSize) (physExtendedMem / pageSize - physIoMem / pageSize)).forM setReferences
  let rangeEnd := roundUp (← staticKernelPhysicalAddress (← get).ptrFreeMem) pageSize
  (List.range' (physExtendedMem / pageSize) (rangeEnd / pageSize - physExtendedMem / pageSize)).forM setReferences
  (List.range' (rangeEnd / pageSize) ((← get).numberOfFrames - rangeEnd / pageSize)).forM insertFree

/-- What `FOS_initialize` does of the memory before the kernel heap. -/
def boot : BM Unit := do
  initializeKernelVM
  initializePaging

/-! ## The memory that boot leaves -/

namespace BootState

def dirFrame (s : BootState) : Nat := (s.ptrPageDirectory - kernelBase) / 4096

/-- Entry `i` of the page directory. -/
def entry (s : BootState) (i : Nat) : Pte := s.entries s.dirFrame i

/-- The entry that the CPU finds for page `v`. -/
def look (s : BootState) (v : Nat) : Pte :=
  if (s.entry (v / 1024)).perm.present then s.entries (s.entry (v / 1024)).frame (v % 1024) else {}

/-- The frames and the page tables, as the rest of the kernel uses them. -/
def mem (s : BootState) : Mem where
  numberOfFrames := s.numberOfFrames
  framesInfo := s.framesInfo
  freeFrameList := s.freeFrameList
  dirs := {0}
  table d i := if d = 0 ∧ i < 1024 ∧ (s.entry i).perm.present = true then some (s.entry i).frame else none
  pte a := if a.1 = 0 ∧ a.2 < 1048576 then s.look a.2 else {}

end BootState

end Fos.Boot
