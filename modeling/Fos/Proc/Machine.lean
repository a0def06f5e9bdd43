/-
A process on the machine: the kernel, the `struct Env` of the process, the contents of the frames and
the page file. Pointers to working-set elements are the addresses of their blocks. Contents are
kept by frame and only followed for frames of user pages: what the kernel writes to frames of its own is
left out. The disk page tables lie in pages of the kernel heap that no two of them share, so their entries are
kept with the process.
-/
import Fos.Heap.KernelHeap

namespace Fos.Proc

open Fos.Memory Fos.Heap

/-! ## Constants -/

def utext : Nat := 0x800000
def pgfltemp : Nat := 0x3FF000
def kernelBase : Nat := 0xF0000000
def kernelStackSize : Nat := 8 * pageSize

/-- `sizeof(struct WorkingSetElement)`. -/
def sizeofWorkingSetElement : Nat := 24

/-- `sizeof(struct PageRefElement)`. -/
def sizeofPageRefElement : Nat := 12

/-- `USTACKBOTTOM`; the product in it wraps. -/
def ustackBottom : Nat :=
  roundUp (add32 userHeapMax (mul32 sizeofWorkingSetElement userTop / pageSize)) pageSize

def inStack (va : Nat) : Bool := ustackBottom ≤ va ∧ va < ustackTop
def inUserHeap (va : Nat) : Bool := userHeapStart ≤ va ∧ va < userHeapMax

/-! ## The state -/

/-- The bytes of a page. -/
abbrev Page := Nat → UInt8

def zeroPage : Page := fun _ => 0

structure WorkingSetElement where
  addr : Nat
  virtualAddress : Nat
  timeStamp : Nat
  deriving DecidableEq, Repr

/-- The disk page directory at `diskEnvPgdir` (`0` if there is none) is followed by its entries, the frames of
the disk page tables, and by the entries of these by page number, a disk frame or `0`. -/
structure Env where
  envPageDirectory : Nat
  pageWsMaxSize : Nat
  pageWsList : List WorkingSetElement := []
  pageLastWsElement : Option Nat := none
  activeList : List WorkingSetElement := []
  secondList : List WorkingSetElement := []
  activeWorkingSet : List WorkingSetElement := []
  referenceStreamList : List Nat := []
  diskEnvPgdir : Nat := 0
  diskTables : Nat → Option Nat := fun _ => none
  diskPages : Nat → Nat := fun _ => 0

/-- The page file, which all processes share. -/
structure PageFile where
  disk : Nat → Page
  diskFreeFrameList : List Nat

structure Machine where
  kernel : Kernel
  env : Env
  frames : Nat → Page
  pageFile : PageFile

/-- Code of the kernel on behalf of the process. -/
abbrev PM (α : Type) := EStateM Halt Machine α

namespace Machine

def mem (s : Machine) : Mem := s.kernel.mem

def setMem (s : Machine) (m : Mem) : Machine := { s with kernel := { s.kernel with mem := m } }

/-- The entry of `va`. -/
def pte (s : Machine) (va : Nat) : Pte := s.mem.pte (slot s.env.envPageDirectory va)

/-- The page table of `va` is there. -/
def hasTable (s : Machine) (va : Nat) : Bool := (s.mem.table (owner s.env.envPageDirectory va) (pdx va)).isSome

/-- An access to `va` finds a page. -/
def present (s : Machine) (va : Nat) : Bool := s.hasTable va && (s.pte va).perm.present

@[simp] theorem setMem_mem (s : Machine) (m : Mem) : (s.setMem m).mem = m := rfl
@[simp] theorem setMem_env (s : Machine) (m : Mem) : (s.setMem m).env = s.env := rfl
@[simp] theorem setMem_frames (s : Machine) (m : Mem) : (s.setMem m).frames = s.frames := rfl
@[simp] theorem setMem_pageFile (s : Machine) (m : Mem) : (s.setMem m).pageFile = s.pageFile := rfl

end Machine

/-! ## Steps of the kernel -/

def onKernel {α : Type} (x : KM α) : PM α := fun s =>
  match x s.kernel with
  | .ok a k => .ok a { s with kernel := k }
  | .error e k => .error e { s with kernel := k }

def modifyMem (g : Mem → Mem) : PM Unit := modify fun s => s.setMem (g s.mem)

def modifyEnv (g : Env → Env) : PM Unit := modify fun s => { s with env := g s.env }

def modifyPageFile (g : PageFile → PageFile) : PM Unit := modify fun s => { s with pageFile := g s.pageFile }

def allocateFrame : PM Nat := onKernel (onMem Mem.allocateFrame)

def mapUserFrame (f va : Nat) (perm : Perm) : PM Unit := fun s =>
  onKernel (mapFrame s.env.envPageDirectory f va perm) s

def unmapUserFrame (va : Nat) : PM Unit := fun s => modifyMem (·.unmapFrame s.env.envPageDirectory va) s

/-- All bits are set where there is no page table. -/
def ptGetPagePermissions (va : Nat) : PM Perm := do
  let s ← get
  return if s.hasTable va then (s.pte va).perm else ⟨true, true, true, true, true, true, true, true⟩

def ptSetPagePermissions (va : Nat) (permissionsToSet permissionsToClear : Perm) : PM Unit := fun s =>
  onKernel (onMem fun m => do
    return ((), ← m.ptSetPagePermissions s.env.envPageDirectory va permissionsToSet permissionsToClear)) s

/-- The kernel writes the page at `va` through its mapping; the CPU sets the two bits. -/
def storePage (va : Nat) (bytes : Page → Page) : PM Unit := do
  let s ← get
  if s.present va then
    let e := s.pte va
    set { s.setMem (s.mem.setPte (slot s.env.envPageDirectory va)
        { e with perm := { e.perm with used := true, modified := true } }) with
      frames := Function.update s.frames e.frame (bytes (s.frames e.frame)) }
  else throw .faults

/-- `env_page_ws_list_create_element`. -/
def envPageWsListCreateElement (virtualAddress : Nat) : PM WorkingSetElement := do
  if userTop ≤ virtualAddress then throw (.panic "assertion failed: virtual_address >= 0 && virtual_address < USER_TOP")
  let wse ← onKernel (kmalloc sizeofWorkingSetElement)
  if wse = 0 then throw (.panic "can't create a new WS element")
  return ⟨wse, roundDown virtualAddress pageSize, 0⟩

end Fos.Proc
