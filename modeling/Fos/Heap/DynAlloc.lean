/-
The block allocator of `lib/dynamic_allocator.c`. A page of the area is named by its index in
`pageBlockInfoArr`, a block by its address; the intrusive lists are lists of these. `get_page` and
`return_page` belong to the kernel or to the user heap (`PageSource`).
-/
import Fos.Base

namespace Fos.Heap

structure PageInfoElement where
  blockSize : Nat
  numOfFreeBlocks : Nat
  deriving DecidableEq, Repr

structure DynAlloc where
  dynAllocStart : Nat
  dynAllocEnd : Nat
  pageBlockInfoArr : Nat → PageInfoElement
  freePagesList : List Nat
  freeBlockLists : Nat → List Nat
  blockedVarDynallocAllocFunc : Nat

/-- The globals before `initialize_dynamic_allocator`. -/
def zeroedAlloc : DynAlloc := ⟨0, 0, fun _ => ⟨0, 0⟩, [], fun _ => [], 0⟩

/-- `get_page` and `return_page`, on the memory `M` of whoever provides the pages. -/
structure PageSource (M : Type) where
  getPage : M → Nat → Res M
  returnPage : M → Nat → Res M

/-- What `alloc_block` does: return `NULL`, return a block, or wait for the flag to be cleared and
then start again. -/
inductive AllocResult where
  | null
  | block (va : Nat)
  | waits
  deriving DecidableEq, Repr

def minBlockSize : Nat := 8
def maxBlockSize : Nat := 2048

/-! ## Pages and sizes -/

/-- `DYN_ALLOC_MAX_SIZE / PAGE_SIZE`, the length of `pageBlockInfoArr`. -/
def maxPages : Nat := dynAllocMaxSize / pageSize

def toPageVa (s : DynAlloc) (idx : Nat) : Res Nat :=
  if maxPages ≤ idx then .error (.panic "to_page_va called with invalid pageInfoPtr")
  else .ok (add32 s.dynAllocStart (mul32 idx pageSize))

def toPageInfo (s : DynAlloc) (va : Nat) : Res Nat :=
  let idxInPageInfoArr := sub32 va s.dynAllocStart / pageSize
  if maxPages ≤ idxInPageInfoArr then .error (.panic "to_page_info called with invalid pa")
  else .ok idxInPageInfoArr

/-- The doubling loop of `alloc_block` and `free_block`: the first size `minBlockSize * 2 ^ k` that
is not below `size`, and `k`. A `uint16` size takes fewer than 16 rounds. -/
def sizeClass (size : Nat) : Nat → Nat → Nat → Nat × Nat
  | 0, m, idx => (m, idx)
  | fuel + 1, m, idx => if m < size then sizeClass size fuel (m * 2) (idx + 1) else (m, idx)

/-- Replace the page information of page `p`. -/
def DynAlloc.setInfo (s : DynAlloc) (p : Nat) (i : PageInfoElement) : DynAlloc :=
  { s with pageBlockInfoArr := Function.update s.pageBlockInfoArr p i }

/-- Replace the list of free blocks of class `k`. -/
def DynAlloc.setList (s : DynAlloc) (k : Nat) (l : List Nat) : DynAlloc :=
  { s with freeBlockLists := Function.update s.freeBlockLists k l }

section Fields

variable (s : DynAlloc) (p k : Nat) (i : PageInfoElement) (l : List Nat)

@[simp] theorem setInfo_start : (s.setInfo p i).dynAllocStart = s.dynAllocStart := rfl
@[simp] theorem setInfo_end : (s.setInfo p i).dynAllocEnd = s.dynAllocEnd := rfl
@[simp] theorem setInfo_pages : (s.setInfo p i).freePagesList = s.freePagesList := rfl
@[simp] theorem setInfo_lists : (s.setInfo p i).freeBlockLists = s.freeBlockLists := rfl
@[simp] theorem setInfo_info (q : Nat) :
    (s.setInfo p i).pageBlockInfoArr q = if q = p then i else s.pageBlockInfoArr q := Function.update_apply ..

@[simp] theorem setList_start : (s.setList k l).dynAllocStart = s.dynAllocStart := rfl
@[simp] theorem setList_end : (s.setList k l).dynAllocEnd = s.dynAllocEnd := rfl
@[simp] theorem setList_pages : (s.setList k l).freePagesList = s.freePagesList := rfl
@[simp] theorem setList_info : (s.setList k l).pageBlockInfoArr = s.pageBlockInfoArr := rfl
@[simp] theorem setList_lists (j : Nat) :
    (s.setList k l).freeBlockLists j = if j = k then l else s.freeBlockLists j := Function.update_apply ..

end Fields

/-! ## The calls -/

/-- `initialize_dynamic_allocator`, from whatever the globals held. -/
def initializeDynamicAllocator (s : DynAlloc) (daStart daEnd : Nat) : Res DynAlloc :=
  if add32 daStart dynAllocMaxSize < daEnd then
    .error (.panic "assertion failed: daEnd <= daStart + DYN_ALLOC_MAX_SIZE")
  else
    let samaNumofpages := sub32 daEnd daStart / pageSize
    .ok { s with
      dynAllocStart := daStart
      dynAllocEnd := daEnd
      pageBlockInfoArr := fun i => if i < samaNumofpages then ⟨0, 0⟩ else s.pageBlockInfoArr i
      freePagesList := List.range samaNumofpages
      freeBlockLists := fun i => if i < 9 then [] else s.freeBlockLists i }

/-- Take the first block off list `i` and count it on its page. The list is not empty where
`alloc_block` does this. -/
def takeFirst (s : DynAlloc) (i : Nat) : Res (AllocResult × DynAlloc) :=
  match s.freeBlockLists i with
  | [] => .error (.panic "NULL block")
  | blk :: rest => do
    let p ← toPageInfo s blk
    let info := s.pageBlockInfoArr p
    return (.block blk, (s.setList i rest).setInfo p
      { info with numOfFreeBlocks := (info.numOfFreeBlocks + 65535) % 65536 })

/-- Case 2 of `alloc_block`: split the free page `p` into blocks of class `idx`. -/
def splitPage (s : DynAlloc) (p numOfBlocks pageVa blockSize idx : Nat) (rest : List Nat) : DynAlloc :=
  let blocks := (List.range numOfBlocks).map fun i => add32 pageVa (mul32 i blockSize)
  ({ s with freePagesList := rest }.setInfo p ⟨blockSize, numOfBlocks⟩).setList idx (s.freeBlockLists idx ++ blocks)

section Calls

variable {M : Type} (src : PageSource M)

def allocBlock (s : DynAlloc) (m : M) (size : Nat) : Res (AllocResult × DynAlloc × M) :=
  if dynAllocMaxBlockSize < size then .error (.panic "assertion failed: size <= DYN_ALLOC_MAX_BLOCK_SIZE")
  else if size = 0 then .ok (.null, s, m)
  else
    -- the loop also stops at `max_block_size`
    let (blockSize, idx) := sizeClass (min size maxBlockSize) 16 minBlockSize 0
    if s.freeBlockLists idx ≠ [] then do
      let (b, s) ← takeFirst s idx
      return (b, s, m)
    else match s.freePagesList with
      | p :: rest => do
        let pageVa ← toPageVa s p
        let m ← src.getPage m pageVa
        let (b, s) ← takeFirst (splitPage s p (pageSize / blockSize) pageVa blockSize idx rest) idx
        return (b, s, m)
      | [] =>
        match (List.range' idx (8 - idx)).find? (fun i => s.freeBlockLists i ≠ []) with
        | some i => do
          let (b, s) ← takeFirst s i
          return (b, s, m)
        | none => .ok (.waits, { s with blockedVarDynallocAllocFunc := 1 }, m)

def freeBlock (s : DynAlloc) (m : M) (va : Nat) : Res (DynAlloc × M) :=
  if va < s.dynAllocStart ∨ s.dynAllocEnd ≤ va then .error (.panic "assertion failed: va in the area")
  else
    let pageidx := sub32 va s.dynAllocStart / pageSize
    let blockSize := (s.pageBlockInfoArr pageidx).blockSize
    if blockSize = 0 then .error (.panic "assertion failed: blockSize != 0")
    else
      let idx := (sizeClass blockSize 16 minBlockSize 0).2
      let free := ((s.pageBlockInfoArr pageidx).numOfFreeBlocks + 1) % 65536
      let pageVa := add32 s.dynAllocStart (mul32 pageidx pageSize)
      if pageSize / blockSize ≤ free then do
        let l := (s.freeBlockLists idx).filter fun b => ¬ (pageVa ≤ b ∧ b < add32 pageVa pageSize)
        let m ← src.returnPage m pageVa
        return ({ (s.setList idx l).setInfo pageidx ⟨0, 0⟩ with freePagesList := pageidx :: s.freePagesList }, m)
      else
        let s := (s.setInfo pageidx ⟨blockSize, free⟩).setList idx (s.freeBlockLists idx ++ [va])
        .ok ({ s with blockedVarDynallocAllocFunc := 0 }, m)

end Calls

end Fos.Heap
