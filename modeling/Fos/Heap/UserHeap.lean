/-
The page allocator of the user heap, `lib/uheap.c`. The two singly linked lists of the source are
lists of their nodes; the cells themselves, which the source takes from its block allocator with
`malloc(sizeof ..)` and gives back with `free`, are the cells of these lists. Results of the system
calls are arguments.
-/
import Fos.Base

namespace Fos.Heap

structure OurAllocationNode where
  bedayetEladd : Nat
  size : Nat
  shareIDSfreeFunc : Nat
  deriving DecidableEq, Repr

structure FreeBlockNode where
  startVa : Nat
  numPages : Nat
  deriving DecidableEq, Repr

structure UHeap where
  uheapPageAllocStart : Nat
  uheapPageAllocBreak : Nat
  allocHead : List OurAllocationNode
  freeHead : List FreeBlockNode
  deriving DecidableEq, Repr

/-- `uheap_init`: the page allocator starts one page after the block allocator's area. -/
def uheapInit : UHeap :=
  let dynAllocEnd := add32 userHeapStart dynAllocMaxSize
  { uheapPageAllocStart := add32 dynAllocEnd pageSize, uheapPageAllocBreak := add32 dynAllocEnd pageSize,
    allocHead := [], freeHead := [] }

/-! ## The list of allocations -/

def findAllocation (l : List OurAllocationNode) (addd : Nat) : Option OurAllocationNode :=
  l.find? (·.bedayetEladd == addd)

/-- `allocationGded`: the new node's share id is whatever its memory held. -/
def allocationGded (s : UHeap) (va size stale : Nat) : UHeap :=
  { s with allocHead := ⟨va, size, stale⟩ :: s.allocHead }

def nemsa7allocation (l : List OurAllocationNode) (va : Nat) : List OurAllocationNode :=
  l.eraseP (·.bedayetEladd == va)

/-! ## The list of free ranges -/

/-- Insert a node before the first one that does not start below it. -/
def insertNode (n : FreeBlockNode) : List FreeBlockNode → List FreeBlockNode
  | [] => [n]
  | d :: l => if d.startVa < n.startVa then d :: insertNode n l else n :: d :: l

def freeBlockk (l : List FreeBlockNode) (start numPages : Nat) : List FreeBlockNode :=
  if numPages = 0 then l
  else if l.any (·.startVa == start) then l
  else insertNode ⟨start, numPages⟩ l

/-- `EXACTTT`: the first range of exactly `page` pages, taken off the list; `0` if there is none. -/
def exacttt (page : Nat) : List FreeBlockNode → Nat × List FreeBlockNode
  | [] => (0, [])
  | d :: l =>
    if d.numPages = page then (roundDown d.startVa pageSize, l)
    else ((exacttt page l).1, d :: (exacttt page l).2)

/-- The scan of `WORSTTT`: the position of the first largest range seen (`afdalwa7da`) and its size. -/
def worstScan (lo page : Nat) : List FreeBlockNode → Nat → Option Nat → Nat → Option Nat
  | [], _, best, _ => best
  | d :: l, i, best, maxPages =>
    if lo ≤ d.startVa ∧ d.startVa < userHeapMax ∧ page ≤ d.numPages ∧ maxPages < d.numPages then
      worstScan lo page l (i + 1) (some i) d.numPages
    else worstScan lo page l (i + 1) best maxPages

/-- `WORSTTT`: the first `page` pages of the first largest range; `0` if none is large enough. -/
def worsttt (lo page : Nat) (l : List FreeBlockNode) : Nat × List FreeBlockNode :=
  match worstScan lo page l 0 none 0 with
  | none => (0, l)
  | some i =>
    match l[i]? with
    | none => (0, l)
    | some d =>
      let remaining := d.numPages - page
      if 0 < remaining then (d.startVa, l.set i ⟨add32 d.startVa (mul32 page pageSize), remaining⟩)
      else (d.startVa, l.eraseIdx i)

/-- One step of the insertion sort of `MERGEE`. -/
def insertSorted (d : FreeBlockNode) : List FreeBlockNode → List FreeBlockNode
  | [] => [d]
  | m :: l => if d.startVa < m.startVa then d :: m :: l else m :: insertNode d l

/-- The second loop of `MERGEE`: the current range swallows its successor while they touch. -/
def coalesce (d : FreeBlockNode) : List FreeBlockNode → List FreeBlockNode
  | [] => [d]
  | n :: l =>
    if add32 d.startVa (mul32 d.numPages pageSize) = n.startVa then
      coalesce ⟨d.startVa, add32 d.numPages n.numPages⟩ l
    else d :: coalesce n l

def mergee (l : List FreeBlockNode) : List FreeBlockNode :=
  match l with
  | [] => l
  | [_] => l
  | l =>
    match l.foldl (fun m d => insertSorted d m) [] with
    | [] => []
    | d :: rest => coalesce d rest

/-! ## The break -/

/-- The loop of `ta7dethEL_breakTofree`: the highest allocation end that is inside the heap. -/
def a5erelEnd (e : Nat) : List OurAllocationNode → Nat
  | [] => e
  | a :: l =>
    let newEnd := add32 a.bedayetEladd a.size
    a5erelEnd (if e < newEnd ∧ newEnd ≤ userHeapMax then newEnd else e) l

def ta7dethElBreakTofree (s : UHeap) : UHeap :=
  let e := a5erelEnd s.uheapPageAllocStart s.allocHead
  let e := if userHeapMax < e then userHeapMax else e
  let e := if e < s.uheapPageAllocStart then s.uheapPageAllocStart else e
  { s with uheapPageAllocBreak := roundUp e pageSize }

/-! ## The calls -/

/-- The custom fit of `malloc`, `smalloc` and `sget` on the free list. -/
def customFit (s : UHeap) (pages : Nat) : Nat × UHeap :=
  let exact := exacttt pages s.freeHead
  if exact.1 = 0 then
    let worst := worsttt s.uheapPageAllocStart pages exact.2
    (worst.1, { s with freeHead := worst.2 })
  else (exact.1, { s with freeHead := exact.2 })

/-- The end of `malloc`, once `address` is chosen. -/
def mallocAt (s : UHeap) (address elSizeNeed stale : Nat) : Nat × UHeap :=
  if address < s.uheapPageAllocStart ∨ userHeapMax ≤ address then (0, s)
  else
    let s := allocationGded s address elSizeNeed stale
    let x := add32 address elSizeNeed
    (address, if s.uheapPageAllocBreak < x then { s with uheapPageAllocBreak := x } else s)

/-- `malloc`. A small request is the block allocator's, whose answer is `blk`. -/
def malloc (s : UHeap) (size blk stale : Nat) : Nat × UHeap :=
  if size = 0 then (0, s)
  else if size ≤ dynAllocMaxBlockSize then (blk, s)
  else
    let pages := roundUp size pageSize / pageSize
    if pages = 0 ∨ sub32 userHeapMax s.uheapPageAllocStart / pageSize < pages then (0, s)
    else
      let elSizeNeed := mul32 pages pageSize
      let fit := customFit s pages
      if fit.1 = 0 then
        let elBreakNow := fit.2.uheapPageAllocBreak
        let elBreakElgded := add32 elBreakNow elSizeNeed
        if userHeapMax < elBreakElgded then (0, fit.2)
        else mallocAt { fit.2 with uheapPageAllocBreak := elBreakElgded } elBreakNow elSizeNeed stale
      else mallocAt fit.2 fit.1 elSizeNeed stale

/-- `free`. Below the page allocator's start the block allocator frees the address. -/
def free (s : UHeap) (virtualAddress : Nat) : Res UHeap :=
  if virtualAddress = 0 then .ok s
  else if userHeapStart ≤ virtualAddress ∧ virtualAddress < s.uheapPageAllocStart then .ok s
  else if s.uheapPageAllocStart ≤ virtualAddress ∧ virtualAddress < userHeapMax then
    let bdayagdeda := roundDown virtualAddress pageSize
    match findAllocation s.allocHead bdayagdeda with
    | none => .error (.panic "free: allocation not found at VA: %08x")
    | some alloc =>
      let pages := alloc.size / pageSize
      let s := ta7dethElBreakTofree { s with allocHead := nemsa7allocation s.allocHead bdayagdeda }
      .ok { s with freeHead := mergee (freeBlockk s.freeHead bdayagdeda pages) }
  else .error (.panic "free: invalid address %08x")

/-- The end of `smalloc` and `sget`, once the address `va` is chosen: `ret` is the kernel's answer. -/
def shareAt (s : UHeap) (va numOfPages : Nat) (ret : Int) (stale : Nat) : Nat × UHeap :=
  let sizeWeNeeded := mul32 numOfPages pageSize
  let va := roundUp va pageSize
  if ret < 0 then
    if s.uheapPageAllocStart ≤ va ∧ va < s.uheapPageAllocBreak then
      let thePreviousBreak := sub32 s.uheapPageAllocBreak sizeWeNeeded
      if va = thePreviousBreak then (0, { s with uheapPageAllocBreak := thePreviousBreak })
      else (0, { s with freeHead := mergee (freeBlockk s.freeHead va numOfPages) })
    else (0, s)
  else (va, allocationGded s va sizeWeNeeded stale)

/-- The realignment of the page allocator's start in `smalloc` and `sget`. -/
def alignStart (s : UHeap) : UHeap :=
  if s.uheapPageAllocStart % pageSize ≠ 0 then
    { s with uheapPageAllocStart := roundUp s.uheapPageAllocStart pageSize,
             uheapPageAllocBreak := roundUp s.uheapPageAllocStart pageSize }
  else s

/-- The placement of a shared object, the same in `smalloc` and `sget`. -/
def placeShared (s : UHeap) (numOfPages : Nat) (ret : Int) (stale : Nat) : Nat × UHeap :=
  let sizeWeNeeded := mul32 numOfPages pageSize
  if userHeapMax < add32 s.uheapPageAllocBreak sizeWeNeeded then (0, s)
  else
    let fit := customFit (alignStart s) numOfPages
    if fit.1 = 0 then
      let va := fit.2.uheapPageAllocBreak
      let newBreak := add32 va sizeWeNeeded
      if userHeapMax < newBreak then (0, fit.2)
      else shareAt { fit.2 with uheapPageAllocBreak := newBreak } va numOfPages ret stale
    else shareAt fit.2 fit.1 numOfPages ret stale

/-- `smalloc`: `ret` is the answer of `sys_create_shared_object`. -/
def smalloc (s : UHeap) (size : Nat) (ret : Int) (stale : Nat) : Nat × UHeap :=
  if size = 0 then (0, s)
  else placeShared s (roundUp size pageSize / pageSize) ret stale

/-- `ROUNDUP(size, PAGE_SIZE) / PAGE_SIZE` for an `int` size, stored in a `uint32`. -/
def numOfPagesNeededSgetFun (size : Int) : Nat :=
  ofInt32 ((toInt32 (roundUp (ofInt32 size) pageSize)).tdiv pageSize)

/-- `sget`: `size` and `ret` are the answers of `sys_size_of_shared_object` and
`sys_get_shared_object`. -/
def sget (s : UHeap) (size ret : Int) (stale : Nat) : Nat × UHeap :=
  if size ≤ 0 then (0, s)
  else placeShared s (numOfPagesNeededSgetFun size) ret stale

/-- `sfree`: `ret` is the answer of `sys_delete_shared_object`. -/
def sfree (s : UHeap) (virtualAddress : Nat) (ret : Int) : UHeap :=
  match findAllocation s.allocHead virtualAddress with
  | none => s
  | some cur =>
    let numOfPages := add32 cur.size (pageSize - 1) / pageSize
    if ret < 0 then s
    else { s with allocHead := nemsa7allocation s.allocHead virtualAddress,
                  freeHead := mergee (insertNode ⟨virtualAddress, numOfPages⟩ s.freeHead) }

end Fos.Heap
