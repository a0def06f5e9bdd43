/-
The page file of a process, `kern/disk/pagefile_manager.c`. A table for it comes from `kmalloc`, whose
`NULL` the callers here use without a check. The disk is faithful: a page read is the page
last written. No process has a `disk_env_tabledir`, so `pf_free_env` ends before it.
-/
import Fos.Proc.Machine

namespace Fos.Disk

open Fos.Memory Fos.Heap Fos.Proc

/-! ## Disk frames and tables -/

/-- `PAGES_PER_FILE`. -/
def pagesPerFile : Nat := 545259520 / pageSize

/-- `initialize_disk_page_file`, with the disk as it was. -/
def initializeDiskPageFile (disk : Nat → Page) : PageFile := ⟨disk, (List.range' 1 (pagesPerFile - 1)).reverse⟩

/-- `none` is `E_NO_PAGE_FILE_SPACE`. -/
def allocateDiskFrame : PM (Option Nat) := do
  match (← get).pageFile.diskFreeFrameList with
  | [] => return none
  | dfn :: rest =>
    modifyPageFile ({ · with diskFreeFrameList := rest })
    return some dfn

def freeDiskFrame (dfn : Nat) : PM Unit := do
  if dfn = 0 then return
  modifyPageFile fun d => { d with diskFreeFrameList := dfn :: d.diskFreeFrameList }

def writeDiskPage (dfn : Nat) (p : Page) : PM Unit :=
  modifyPageFile fun d => { d with disk := Function.update d.disk dfn p }

/-- A new directory has no tables. -/
def getDiskPageDirectory : PM Unit := do
  if (← get).env.diskEnvPgdir = 0 then
    let ptr ← onKernel (kmalloc pageSize)
    if ptr = 0 then throw .faults
    modifyEnv ({ · with diskEnvPgdir := ptr, diskTables := fun _ => none })

/-- Whether there is a table for `virtualAddress`; a new one has no entries. -/
def getDiskPageTable (virtualAddress : Nat) (create : Bool) : PM Bool := do
  if ((← get).env.diskTables (pdx virtualAddress)).isSome then return true
  if create then
    let ptr ← onKernel (kmalloc pageSize)
    if ptr = 0 then throw .faults
    let frame := kheapPhysicalAddress (← get).kernel ptr / 4096
    modifyEnv fun e => { e with
      diskTables := Function.update e.diskTables (pdx virtualAddress) (some frame)
      diskPages := fun v => if v / 1024 = pdx virtualAddress then 0 else e.diskPages v }
    return true
  return false

/-! ## Pages -/

/-- The disk frame of a page, a new one if it has none; `none` if the page file is full. -/
def diskFrameFor (virtualAddress : Nat) : PM (Option Nat) := do
  if kernelBase ≤ virtualAddress then throw (.panic "assertion failed: (uint32)virtual_address < KERNEL_BASE")
  getDiskPageDirectory
  let _ ← getDiskPageTable virtualAddress true
  let dfn := (← get).env.diskPages (virtualAddress / 4096)
  if dfn ≠ 0 then return some dfn
  match ← allocateDiskFrame with
  | none => return none
  | some dfn =>
    modifyEnv fun e => { e with diskPages := Function.update e.diskPages (virtualAddress / 4096) dfn }
    return some dfn

/-- `pf_add_env_page`; `false` is `E_NO_PAGE_FILE_SPACE`. -/
def pfAddEnvPage (virtualAddress : Nat) (dataSrc : Page) : PM Bool := do
  match ← diskFrameFor virtualAddress with
  | none => return false
  | some dfn =>
    writeDiskPage dfn dataSrc
    return true

def pfAddEmptyEnvPage (virtualAddress : Nat) (initializeByZero : Bool) : PM Bool := do
  if initializeByZero then pfAddEnvPage virtualAddress zeroPage
  else return (← diskFrameFor virtualAddress).isSome

/-- Whether the page file has the page. -/
def hasDiskPage (virtualAddress : Nat) : PM Bool := do
  let table ← getDiskPageTable virtualAddress false
  return table && (← get).env.diskPages (virtualAddress / 4096) ≠ 0

/-- `pf_update_env_page`: the page is written from its frame, present or not, and is not modified then. -/
def pfUpdateEnvPage (virtualAddress : Nat) : PM Unit := do
  if kernelBase ≤ virtualAddress then throw (.panic "assertion failed: (uint32)virtual_address < KERNEL_BASE")
  getDiskPageDirectory
  if !(← hasDiskPage virtualAddress) then
    if inUserHeap virtualAddress || inStack virtualAddress then
      if !(← pfAddEmptyEnvPage virtualAddress false) then
        throw (.panic "pf_update_env_page: attempt to add a new page, but page file out of space!")
    else
      throw (.panic ("pf_update_env_page: Invalid Access - Attempt to add a new page to page file " ++
        "that's outside the USER HEAP and USER STACK!"))
  let s ← get
  if !s.hasTable virtualAddress then throw .faults
  let e := s.pte virtualAddress
  writeDiskPage (s.env.diskPages (virtualAddress / 4096)) (s.frames e.frame)
  modifyMem (·.setPte (slot s.env.envPageDirectory virtualAddress) { e with perm := { e.perm with modified := false } })

/-- `pf_read_env_page`; `false` is `E_PAGE_NOT_EXIST_IN_PF`. -/
def pfReadEnvPage (virtualAddress : Nat) : PM Bool := do
  let va := roundDown virtualAddress pageSize
  if (← get).env.diskEnvPgdir = 0 then return false
  if !(← hasDiskPage va) then return false
  let s ← get
  storePage va (fun _ => s.pageFile.disk (s.env.diskPages (va / 4096)))
  ptSetPagePermissions va .none { modified := true }
  return true

def pfRemoveEnvPage (virtualAddress : Nat) : PM Unit := do
  if (← get).env.diskEnvPgdir = 0 then return
  if !(← getDiskPageTable virtualAddress false) then return
  let dfn := (← get).env.diskPages (virtualAddress / 4096)
  modifyEnv fun e => { e with diskPages := Function.update e.diskPages (virtualAddress / 4096) 0 }
  freeDiskFrame dfn

/-! ## The end of a process -/

/-- The loop over the entries of a disk page table. -/
def freeDiskPages (v : Nat) : Nat → PM Unit
  | 0 => pure ()
  | n + 1 => do
    let dfn := (← get).env.diskPages v
    modifyEnv fun e => { e with diskPages := Function.update e.diskPages v 0 }
    freeDiskFrame dfn
    freeDiskPages (v + 1) n

/-- The loop over the entries of the disk page directory. -/
def freeDiskTables (pdeno : Nat) : Nat → PM Unit
  | 0 => pure ()
  | n + 1 => do
    match (← get).env.diskTables pdeno with
    | none => freeDiskTables (pdeno + 1) n
    | some frame =>
      let pt := kheapVirtualAddress (← get).kernel (frame * 4096)
      freeDiskPages (pdeno * 1024) 1024
      modifyEnv fun e => { e with diskTables := Function.update e.diskTables pdeno none }
      onKernel (kfree pt)
      freeDiskTables (pdeno + 1) n

/-- `pf_free_env`; it reads the directory without a check that there is one. -/
def pfFreeEnv : PM Unit := do
  if (← get).env.diskEnvPgdir = 0 then throw .faults
  freeDiskTables 0 (pdx userTop)
  onKernel (kfree (← get).env.diskEnvPgdir)
  modifyEnv ({ · with diskEnvPgdir := 0 })

end Fos.Disk
