/-
Frames and page tables, `kern/mem/memory_manager.c` and `kern/mem/paging_helpers.c`. A frame is its
number, a page directory a number (`0` is `ptr_page_directory`), an entry of a page table is named
by its directory and page number. The kernel half of every directory is that of directory `0`.
Entries are only made from frames of `frames_info`, so `to_frame_info` never panics on one.
-/
import Fos.Base

namespace Fos.Memory

/-! ## Entries -/

/-- The low bits of an entry that the kernel uses; `avail` is the bit `0x800` of `PERM_AVAILABLE`. -/
structure Perm where
  present : Bool := false
  writeable : Bool := false
  user : Bool := false
  used : Bool := false
  modified : Bool := false
  buffered : Bool := false
  uhpage : Bool := false
  avail : Bool := false
  deriving DecidableEq, Repr

namespace Perm

def none : Perm := {}
def permPresent : Perm := { present := true }

/-- `a | b`. -/
def union (a b : Perm) : Perm :=
  ⟨a.present || b.present, a.writeable || b.writeable, a.user || b.user, a.used || b.used, a.modified || b.modified,
    a.buffered || b.buffered, a.uhpage || b.uhpage, a.avail || b.avail⟩

/-- `a & ~b`. -/
def diff (a b : Perm) : Perm :=
  ⟨a.present && !b.present, a.writeable && !b.writeable, a.user && !b.user, a.used && !b.used,
    a.modified && !b.modified, a.buffered && !b.buffered, a.uhpage && !b.uhpage, a.avail && !b.avail⟩

/-- `a & PERM_AVAILABLE`. -/
def available (a : Perm) : Perm := { buffered := a.buffered, uhpage := a.uhpage, avail := a.avail }

@[simp] theorem union_present (a b : Perm) : (a.union b).present = (a.present || b.present) := rfl
@[simp] theorem union_used (a b : Perm) : (a.union b).used = (a.used || b.used) := rfl
@[simp] theorem union_modified (a b : Perm) : (a.union b).modified = (a.modified || b.modified) := rfl
@[simp] theorem union_buffered (a b : Perm) : (a.union b).buffered = (a.buffered || b.buffered) := rfl
@[simp] theorem diff_present (a b : Perm) : (a.diff b).present = (a.present && !b.present) := rfl
@[simp] theorem diff_used (a b : Perm) : (a.diff b).used = (a.used && !b.used) := rfl
@[simp] theorem diff_modified (a b : Perm) : (a.diff b).modified = (a.modified && !b.modified) := rfl
@[simp] theorem diff_buffered (a b : Perm) : (a.diff b).buffered = (a.buffered && !b.buffered) := rfl
@[simp] theorem available_present (a : Perm) : a.available.present = false := rfl
@[simp] theorem available_used (a : Perm) : a.available.used = false := rfl
@[simp] theorem available_modified (a : Perm) : a.available.modified = false := rfl
@[simp] theorem available_buffered (a : Perm) : a.available.buffered = a.buffered := rfl

end Perm

/-- An entry of a page table: `CONSTRUCT_ENTRY(frame << PGSHIFT, perm)`. -/
structure Pte where
  frame : Nat := 0
  perm : Perm := {}
  deriving DecidableEq, Repr

/-- The frame an entry holds for `get_frame_info`: a frame number other than `0`, or present or
buffered. -/
def Pte.held (e : Pte) : Option Nat :=
  if e.frame ≠ 0 ∨ e.perm.present = true ∨ e.perm.buffered = true then some e.frame else none

structure FrameInfo where
  va : Nat := 0
  references : Nat := 0
  size : Nat := 0
  deriving DecidableEq, Repr

/-- The frames and the page tables. `table d i` is the frame of the page table that entry `i` of
directory `d` points to. -/
structure Mem where
  numberOfFrames : Nat
  framesInfo : Nat → FrameInfo
  freeFrameList : List Nat
  dirs : Finset Nat
  table : Nat → Nat → Option Nat
  pte : Nat × Nat → Pte

/-! ## Addresses -/

/-- `PDX`. -/
def pdx (va : Nat) : Nat := va / 4194304

/-- `CHECK_IF_KERNEL_ADDRESS`. -/
def isKernelAddress (va : Nat) : Bool := userTop ≤ va

/-- The directory whose table holds the entry of `va`. -/
def owner (d va : Nat) : Nat := if isKernelAddress va then 0 else d

/-- The entry of `va` in directory `d`. -/
def slot (d va : Nat) : Nat × Nat := (owner d va, va / 4096)

/-! ## Frames -/

namespace Mem

def setFrame (m : Mem) (f : Nat) (i : FrameInfo) : Mem := { m with framesInfo := Function.update m.framesInfo f i }

def setPte (m : Mem) (a : Nat × Nat) (e : Pte) : Mem := { m with pte := Function.update m.pte a e }

@[simp] theorem setFrame_numberOfFrames (m : Mem) (f : Nat) (i : FrameInfo) :
    (m.setFrame f i).numberOfFrames = m.numberOfFrames := rfl
@[simp] theorem setFrame_info (m : Mem) (f : Nat) (i : FrameInfo) (g : Nat) :
    (m.setFrame f i).framesInfo g = if g = f then i else m.framesInfo g := Function.update_apply ..
@[simp] theorem setFrame_free (m : Mem) (f : Nat) (i : FrameInfo) :
    (m.setFrame f i).freeFrameList = m.freeFrameList := rfl
@[simp] theorem setFrame_dirs (m : Mem) (f : Nat) (i : FrameInfo) : (m.setFrame f i).dirs = m.dirs := rfl
@[simp] theorem setFrame_table (m : Mem) (f : Nat) (i : FrameInfo) : (m.setFrame f i).table = m.table := rfl
@[simp] theorem setFrame_pte (m : Mem) (f : Nat) (i : FrameInfo) : (m.setFrame f i).pte = m.pte := rfl

@[simp] theorem setPte_numberOfFrames (m : Mem) (a : Nat × Nat) (e : Pte) :
    (m.setPte a e).numberOfFrames = m.numberOfFrames := rfl
@[simp] theorem setPte_info (m : Mem) (a : Nat × Nat) (e : Pte) : (m.setPte a e).framesInfo = m.framesInfo := rfl
@[simp] theorem setPte_free (m : Mem) (a : Nat × Nat) (e : Pte) : (m.setPte a e).freeFrameList = m.freeFrameList := rfl
@[simp] theorem setPte_dirs (m : Mem) (a : Nat × Nat) (e : Pte) : (m.setPte a e).dirs = m.dirs := rfl
@[simp] theorem setPte_table (m : Mem) (a : Nat × Nat) (e : Pte) : (m.setPte a e).table = m.table := rfl
@[simp] theorem setPte_pte (m : Mem) (a : Nat × Nat) (e : Pte) (b : Nat × Nat) :
    (m.setPte a e).pte b = if b = a then e else m.pte b := Function.update_apply ..

/-- `allocate_frame`: it panics rather than return an error. -/
def allocateFrame (m : Mem) : Res (Nat × Mem) :=
  match m.freeFrameList with
  | [] => .error (.panic "ERROR: Kernel run out of memory... allocate_frame cannot find a free frame.\n")
  | f :: rest => .ok (f, { m with freeFrameList := rest }.setFrame f {})

/-- `free_frame`. -/
def freeFrame (m : Mem) (f : Nat) : Mem := { m.setFrame f {} with freeFrameList := f :: m.freeFrameList }

/-- `decrement_references`, on a `uint16`. -/
def decrementReferences (m : Mem) (f : Nat) : Mem :=
  let i := m.framesInfo f
  let references := (i.references + 65535) % 65536
  let m := m.setFrame f { i with references }
  if references = 0 then m.freeFrame f else m

/-! ## Mapping -/

/-- `get_frame_info`. -/
def getFrameInfo (m : Mem) (d va : Nat) : Option Nat :=
  if (m.table (owner d va) (pdx va)).isSome then (m.pte (slot d va)).held else none

/-- `unmap_frame`. -/
def unmapFrame (m : Mem) (d va : Nat) : Mem :=
  match m.getFrameInfo d va with
  | none => m
  | some f => (m.decrementReferences f).setPte (slot d va) ⟨0, (m.pte (slot d va)).perm.available⟩

/-- The start of `map_frame`: the frame's `va` is set first. -/
def setFrameVa (m : Mem) (f va : Nat) : Mem := m.setFrame f { m.framesInfo f with va }

/-- One more reference and the new entry, the available bits kept. -/
def linkFrame (m : Mem) (d f va : Nat) (perm : Perm) : Mem :=
  let i := m.framesInfo f
  let m := m.setFrame f { i with references := (i.references + 1) % 65536 }
  m.setPte (slot d va) ⟨f, ((m.pte (slot d va)).perm.available.union perm).union .permPresent⟩

/-- The end of `map_frame`, once the page table is there. -/
def enterFrame (m : Mem) (d f va : Nat) (perm : Perm) : Mem :=
  let e := m.pte (slot d va)
  if e.perm.present then
    if e.frame = f then m else (m.unmapFrame d va).linkFrame d f va perm
  else m.linkFrame d f va perm

/-- `pt_set_page_permissions`. -/
def ptSetPagePermissions (m : Mem) (d va : Nat) (permissionsToSet permissionsToClear : Perm) : Res Mem :=
  if (m.table (owner d va) (pdx va)).isSome then
    let e := m.pte (slot d va)
    .ok (m.setPte (slot d va) { e with perm := (e.perm.union permissionsToSet).diff permissionsToClear })
  else
    .error (.panic ("function pt_set_page_permissions() called with invalid virtual address. " ++
      "The corresponding page table doesn't exist\n"))

/-! ## What mapping leaves alone -/

section Same

variable (m : Mem) (d f va : Nat) (perm : Perm)

theorem decrementReferences_same : (m.decrementReferences f).table = m.table ∧ (m.decrementReferences f).pte = m.pte ∧
    (m.decrementReferences f).numberOfFrames = m.numberOfFrames ∧ (m.decrementReferences f).dirs = m.dirs := by
  simp only [decrementReferences]
  split <;> exact ⟨rfl, rfl, rfl, rfl⟩

theorem unmapFrame_same : (m.unmapFrame d va).table = m.table ∧
    (m.unmapFrame d va).numberOfFrames = m.numberOfFrames ∧ (m.unmapFrame d va).dirs = m.dirs := by
  unfold unmapFrame
  split
  · exact ⟨rfl, rfl, rfl⟩
  · rename_i g _
    obtain ⟨h1, -, h2, h3⟩ := decrementReferences_same m g
    rw [setPte_table, setPte_numberOfFrames, setPte_dirs]
    exact ⟨h1, h2, h3⟩

theorem enterFrame_same : (m.enterFrame d f va perm).table = m.table ∧
    (m.enterFrame d f va perm).numberOfFrames = m.numberOfFrames ∧ (m.enterFrame d f va perm).dirs = m.dirs := by
  simp only [enterFrame]
  split
  · split
    · exact ⟨rfl, rfl, rfl⟩
    · exact unmapFrame_same m d va
  · exact ⟨rfl, rfl, rfl⟩

theorem enterFrame_present : ((m.enterFrame d f va perm).pte (slot d va)).perm.present = true := by
  have hlink : ∀ m' : Mem, ((m'.linkFrame d f va perm).pte (slot d va)).perm.present = true := by
    intro m'
    rw [linkFrame, setPte_pte, if_pos rfl]
    exact Bool.or_true _
  simp only [enterFrame]
  split
  · rename_i hp
    split
    · exact hp
    · exact hlink _
  · exact hlink _

end Same

end Mem

end Fos.Memory
