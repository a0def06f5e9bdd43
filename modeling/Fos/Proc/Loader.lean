/-
The loader of `env_create`, `kern/proc/user_environment.c`: what the body of its loop over the segments of a
program does with one segment. `program_segment_alloc_map_copy_workingset` maps the first pages of the segment
and copies its bytes there, through the mappings of the new process; then all its pages are written to the page
file. The process runs with interrupts disabled, and `lcr3` has made its directory the one in use.
-/
import Fos.Disk.PageFile

namespace Fos.Proc

open Fos.Memory Fos.Heap Fos.Disk

/-! ## State -/

/-- What the loop reads of `struct ProgramSegment`; `ptrStart` is the memory from `ptr_start` on. -/
structure ProgramSegment where
  ptrStart : Nat → UInt8
  sizeInFile : Nat
  sizeInMemory : Nat
  virtualAddress : Nat

/-- `__TWS_MAX_SIZE`. -/
def twsMaxSize : Nat := 50

/-- The process, its name and what else the loader keeps of it: whether the policy is `PG_REP_LRU_LISTS_APPROX` and the
size of the first of its lists, the entries of `__ptr_tws` that are not empty, and `lastTableNumber` of `env_create`. -/
structure Loading where
  machine : Machine
  progName : String
  lruLists : Bool
  activeListSize : Nat := 0
  ptrTws : Nat → Option Nat := fun _ => none
  tableLastWsIndex : Nat := 0
  lastTableNumber : Nat := 0xFFFFFFFF

/-- Code of the loader. -/
abbrev LM (α : Type) := EStateM Halt Loading α

def onProcess {α : Type} (x : PM α) : LM α := fun s =>
  match x s.machine with
  | .ok a m => .ok a { s with machine := m }
  | .error e m => .error e { s with machine := m }

/-! ## Pages of a segment in memory -/

def addReference (m : Mem) (f : Nat) : Mem :=
  let i := m.framesInfo f
  m.setFrame f { i with references := (i.references + 1) % 65536 }

/-- The end of `loadtime_map_frame`: unlike `map_frame` it overwrites the entry. -/
def enterLoaded (m : Mem) (d f va : Nat) (perm : Perm) : Mem :=
  (addReference m f).setPte (slot d va) ⟨f, perm.union .permPresent⟩

/-- `loadtime_map_frame`. -/
def loadtimeMapFrame (d f va : Nat) (perm : Perm) : KM Unit := do
  if ((← get).mem.table (owner d va) (pdx va)).isNone then createPageTable d va
  modify fun s => { s with mem := enterLoaded s.mem d f va perm }

/-- A new element goes to the tail of `page_WS_list`, or to one of the two lists instead. -/
def addElement (wse : WorkingSetElement) : LM Unit := do
  let s ← get
  if s.lruLists then
    onProcess (modifyEnv fun e =>
      if e.activeList.length < sub32 s.activeListSize 1 then { e with activeList := wse :: e.activeList }
      else { e with secondList := wse :: e.secondList })
  else onProcess (modifyEnv fun e => { e with pageWsList := e.pageWsList ++ [wse] })
  onProcess (modifyEnv fun e => { e with
    pageLastWsElement := if e.pageWsList.length = e.pageWsMaxSize then e.pageWsList.head?.map (·.addr) else none })

/-- A page of another table than the last one: its table goes to the working set of tables. -/
def addTable (iVA : Nat) : LM Unit := do
  let s ← get
  if pdx iVA ≠ s.lastTableNumber then
    let next := (s.tableLastWsIndex + 1) % twsMaxSize
    set { s with
      ptrTws := Function.update s.ptrTws s.tableLastWsIndex (some (roundDown iVA (pageSize * 1024)))
      tableLastWsIndex := next }
    if next = 0 then throw (.panic ("\nenv_create: Table working set become FULL during the application loading. " ++
      "Please increase the table working set size to be able to load the program successfully\n"))
    modify ({ · with lastTableNumber := pdx iVA })

/-- The body of the loop over the pages. -/
def loadPage (iVA : Nat) : LM Unit := do
  onProcess do
    let f ← allocateFrame
    fun s => onKernel (loadtimeMapFrame s.env.envPageDirectory f iVA { user := true, writeable := true }) s
  let wse ← onProcess (envPageWsListCreateElement iVA)
  addElement wse
  addTable iVA

/-- The loop over the pages, with the number of pages that may still be loaded; it returns `allocated_pages`. -/
def loadPages (endVaddr iVA : Nat) : Nat → LM Nat
  | 0 => return 0
  | n + 1 => do
    if iVA < endVaddr then
      loadPage iVA
      return (← loadPages endVaddr (add32 iVA pageSize) n) + 1
    else return 0

/-- How many pages of a segment may be loaded: none of the one for debugging, and at most nine of the data of some
programs. -/
def maxLoaded (progName : String) (iVA remainingWsPages : Nat) : Nat :=
  if iVA = 0x200000 then 0
  else if iVA = 0x803000 ∧ progName ∈ ["tpp", "tia", "tia_slave1", "tia_slave2", "tia_slave3", "tia_slave4"] then
    min remainingWsPages 9
  else remainingWsPages

/-- `n` bytes from `src` on are written at `dst`, through the mapping. -/
def copyBytes (bytes : Nat → UInt8) (src dst : Nat) : Nat → PM Unit
  | 0 => pure ()
  | n + 1 => do
    storePage dst fun p => Function.update p (dst % pageSize) (bytes src)
    copyBytes bytes (src + 1) (dst + 1) n

/-- `program_segment_alloc_map_copy_workingset`. -/
def programSegmentAllocMapCopyWorkingset (seg : ProgramSegment) (remainingWsPages : Nat) : LM Nat := do
  let iVA := roundDown seg.virtualAddress pageSize
  let endVaddr := roundUp (add32 seg.virtualAddress seg.sizeInMemory) pageSize
  let allocatedPages ← loadPages endVaddr iVA (maxLoaded (← get).progName iVA remainingWsPages)
  let endLoaded := add32 iVA (mul32 allocatedPages pageSize)
  let endCopied := min endLoaded (add32 seg.virtualAddress seg.sizeInFile)
  onProcess do
    copyBytes seg.ptrStart 0 seg.virtualAddress (endCopied - seg.virtualAddress)
    let dst := max seg.virtualAddress endCopied
    copyBytes (fun _ => 0) 0 dst (endLoaded - dst)
  return allocatedPages

/-! ## Pages of a segment in the page file -/

/-- The loops that fill `ptr_temp_page`. -/
def copyToTemp (bytes : Nat → UInt8) (src dst : Nat) (tempPage : Page) : Nat → Page
  | 0 => tempPage
  | n + 1 => copyToTemp bytes (src + 1) (dst + 1) (Function.update tempPage dst (bytes src)) n

/-- `pf_add_env_page` of a page that must find room. -/
def addPage (va : Nat) (p : Page) : PM Unit := do
  if !(← pfAddEnvPage va p) then
    throw (.panic "ERROR: Page File OUT OF SPACE. can't load the program in Page file!!")

/-- The loop over the pages between the first and the last one. -/
def addPages (bytes : Nat → UInt8) (src i : Nat) : Nat → PM Unit
  | 0 => pure ()
  | n + 1 => do
    addPage i fun j => bytes (src + j)
    addPages bytes (src + pageSize) (i + pageSize) n

/-- The loop over the pages that have no bytes in the file. -/
def addEmptyPages (startRemainingArea : Nat) : Nat → PM Unit
  | 0 => pure ()
  | n + 1 => do
    if !(← pfAddEmptyEnvPage startRemainingArea true) then
      throw (.panic "ERROR: Page File OUT OF SPACE. can't load the program in Page file!!")
    addEmptyPages (startRemainingArea + pageSize) n

/-- Steps 7.2 to 7.5 of `env_create`. The source pointer moves on over the first page, if that one is written, and
over the pages between. -/
def writeSegment (seg : ProgramSegment) : PM Unit := do
  let va := seg.virtualAddress
  let startFirstPage := roundDown va pageSize
  let endFirstPage := roundUp va pageSize
  let offsetFirstPage := sub32 va startFirstPage
  let srcFirst := if offsetFirstPage ≠ 0 then endFirstPage - va else 0
  if offsetFirstPage ≠ 0 then
    addPage startFirstPage (copyToTemp seg.ptrStart 0 offsetFirstPage zeroPage (endFirstPage - va))
  let startLastPage := roundDown (add32 va seg.sizeInFile) pageSize
  let endLastPage := add32 va seg.sizeInFile
  let between := (startLastPage - endFirstPage) / pageSize
  addPages seg.ptrStart srcFirst endFirstPage between
  addPage startLastPage
    (copyToTemp seg.ptrStart (srcFirst + between * pageSize) 0 zeroPage (endLastPage - startLastPage))
  let startRemainingArea := roundUp (add32 va seg.sizeInFile) pageSize
  let remainingLength := sub32 (add32 va seg.sizeInMemory) startRemainingArea
  addEmptyPages startRemainingArea (roundUp remainingLength pageSize / pageSize)

/-- The body of the loop over the segments; it returns `allocated_pages`. -/
def loadSegment (seg : ProgramSegment) (remainingWsPages : Nat) : LM Nat := do
  let allocatedPages ← programSegmentAllocMapCopyWorkingset seg remainingWsPages
  onProcess (writeSegment seg)
  return allocatedPages

end Fos.Proc
