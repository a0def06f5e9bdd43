/-
The block allocator of `lib/dynamic_allocator.c` down to the bytes of its blocks: the free blocks of a
class are linked through their own first eight bytes, `le_next` and then `le_prev`, and what
`realloc_block` moves is copied by `memcpy`. The links of the free pages are in `pageBlockInfoArr`,
outside of the pages handed out, and stay a list here.
-/
import Fos.Heap.DynAllocRun
import Fos.Lib.ByteMemory

namespace Fos.Heap

open Fos.Lib DynAlloc

/-! ## Pages and their bytes -/

/-- `get_page` and `return_page` for the pages of `area`, together with the bytes of the pages handed out; `Backed m P`
says that these are the pages of `P`, by number. A page handed out comes with whatever bytes are in it. -/
structure PagedMemory (M : Type) extends PageSource M, ByteMemory M where
  area : Set Nat
  Backed : M → Set Nat → Prop
  store_backed : ∀ m P a v, Backed m P → a / 4096 ∈ P → Backed (store m a v) P ∧
    ∀ c, c / 4096 ∈ P → load (store m a v) c = if c = a then v else load m c
  getPage_backed : ∀ m m' P va, Backed m P → va % 4096 = 0 → va / 4096 ∈ area → va / 4096 ∉ P → getPage m va = .ok m' →
    Backed m' (insert (va / 4096) P) ∧ ∀ c, c / 4096 ∈ P → load m' c = load m c
  returnPage_backed : ∀ m m' P va, Backed m P → va % 4096 = 0 → va / 4096 ∈ P → returnPage m va = .ok m' →
    Backed m' (P \ {va / 4096}) ∧ ∀ c, c / 4096 ∈ P \ {va / 4096} → load m' c = load m c

/-- A memory where every page is there, and comes filled with `fill`. -/
def flatMemory (fill : Nat → UInt8) : PagedMemory (Nat → UInt8) where
  getPage m va := .ok fun a => if a / 4096 = va / 4096 then fill a else m a
  returnPage m _ := .ok m
  load m a := m a
  store m a v := Function.update m a v
  area := Set.univ
  Backed _ _ := True
  store_backed m _ a v _ _ := ⟨trivial, fun c _ => Function.update_apply ..⟩
  getPage_backed m m' P va _ _ _ hva h := by
    cases h
    exact ⟨trivial, fun c hc => if_neg fun he : c / 4096 = va / 4096 => hva (he ▸ hc)⟩
  returnPage_backed m m' P va _ _ _ h := by
    cases h
    exact ⟨trivial, fun c _ => rfl⟩

/-! ## The allocator -/

/-- The globals of the allocator, the lists of free blocks by their heads. -/
structure LinkedAlloc where
  dynAllocStart : Nat
  dynAllocEnd : Nat
  pageBlockInfoArr : Nat → PageInfoElement
  freePagesList : List Nat
  freeBlockLists : Nat → ListHead Nat
  blockedVarDynallocAllocFunc : Nat

/-- The globals before `initialize_dynamic_allocator`. -/
def zeroedLinks : LinkedAlloc := ⟨0, 0, fun _ => ⟨0, 0⟩, [], fun _ => ⟨0, 0⟩, 0⟩

namespace LinkedAlloc

/-- The globals with the lists that the heads stand for. -/
def withLists (d : LinkedAlloc) (l : Nat → List Nat) : DynAlloc :=
  ⟨d.dynAllocStart, d.dynAllocEnd, d.pageBlockInfoArr, d.freePagesList, l, d.blockedVarDynallocAllocFunc⟩

/-- `to_page_va` and `to_page_info` read none of the lists. -/
def toPageVa (d : LinkedAlloc) (idx : Nat) : Res Nat := Heap.toPageVa (d.withLists fun _ => []) idx
def toPageInfo (d : LinkedAlloc) (va : Nat) : Res Nat := Heap.toPageInfo (d.withLists fun _ => []) va

/-- Replace the page information of page `p`. -/
def setInfo (d : LinkedAlloc) (p : Nat) (i : PageInfoElement) : LinkedAlloc :=
  { d with pageBlockInfoArr := Function.update d.pageBlockInfoArr p i }

/-- Replace the head of the list of class `k`. -/
def setList (d : LinkedAlloc) (k : Nat) (h : ListHead Nat) : LinkedAlloc :=
  { d with freeBlockLists := Function.update d.freeBlockLists k h }

/-- `initialize_dynamic_allocator`, from whatever the globals held. -/
def initializeDynamicAllocator (d : LinkedAlloc) (daStart daEnd : Nat) : Res LinkedAlloc :=
  if add32 daStart dynAllocMaxSize < daEnd then
    .error (.panic "assertion failed: daEnd <= daStart + DYN_ALLOC_MAX_SIZE")
  else
    let samaNumofpages := sub32 daEnd daStart / pageSize
    .ok { d with
      dynAllocStart := daStart
      dynAllocEnd := daEnd
      pageBlockInfoArr := fun i => if i < samaNumofpages then ⟨0, 0⟩ else d.pageBlockInfoArr i
      freePagesList := List.range samaNumofpages
      freeBlockLists := fun i => if i < 9 then ⟨0, 0⟩ else d.freeBlockLists i }

/-- `get_block_size`. -/
def getBlockSize (d : LinkedAlloc) (va : Nat) : Nat :=
  (d.pageBlockInfoArr (sub32 va d.dynAllocStart / pageSize)).blockSize

variable {M : Type} (B : PagedMemory M)

/-- Take the first block off list `i` and count it on its page. -/
def takeFirst (d : LinkedAlloc) (m : M) (i : Nat) : Res (AllocResult × LinkedAlloc × M) :=
  let blk := (d.freeBlockLists i).first
  if blk = 0 then .error (.panic "LIST_REMOVE: element is NULL!")
  else do
    let (m, h) := B.links.remove 0 m (d.freeBlockLists i) blk
    let d := d.setList i h
    let p ← d.toPageInfo blk
    let info := d.pageBlockInfoArr p
    return (.block blk, d.setInfo p { info with numOfFreeBlocks := (info.numOfFreeBlocks + 65535) % 65536 }, m)

/-- The loop of `alloc_block` that puts `n` blocks of a page on a list, from the `i`th on. -/
def insertBlocks (pageVa blockSize : Nat) (m : M) (h : ListHead Nat) (i : Nat) : Nat → M × ListHead Nat
  | 0 => (m, h)
  | n + 1 =>
    let (m, h) := B.links.insertTail 0 m h (add32 pageVa (mul32 i blockSize))
    insertBlocks pageVa blockSize m h (i + 1) n

/-- Case 2 of `alloc_block`: split the free page `p` into blocks of class `idx`. -/
def splitPage (d : LinkedAlloc) (m : M) (p numOfBlocks pageVa blockSize idx : Nat) (rest : List Nat) :
    LinkedAlloc × M :=
  let d := { d with freePagesList := rest }.setInfo p ⟨blockSize, numOfBlocks⟩
  let (m, h) := insertBlocks B pageVa blockSize m (d.freeBlockLists idx) 0 numOfBlocks
  (d.setList idx h, m)

def allocBlock (d : LinkedAlloc) (m : M) (size : Nat) : Res (AllocResult × LinkedAlloc × M) :=
  if dynAllocMaxBlockSize < size then .error (.panic "assertion failed: size <= DYN_ALLOC_MAX_BLOCK_SIZE")
  else if size = 0 then .ok (.null, d, m)
  else
    -- the loop also stops at `max_block_size`
    let (blockSize, idx) := sizeClass (min size maxBlockSize) 16 minBlockSize 0
    if (d.freeBlockLists idx).first ≠ 0 then d.takeFirst B m idx
    else match d.freePagesList with
      | p :: rest => do
        let pageVa ← d.toPageVa p
        let m ← B.getPage m pageVa
        let (d, m) := d.splitPage B m p (pageSize / blockSize) pageVa blockSize idx rest
        d.takeFirst B m idx
      | [] =>
        match (List.range' idx (8 - idx)).find? (fun i => (d.freeBlockLists i).first ≠ 0) with
        | some i => d.takeFirst B m i
        | none => .ok (.waits, { d with blockedVarDynallocAllocFunc := 1 }, m)

/-- The loop of `free_block` that takes the blocks between `pageVa` and `pageEnd` off a list, from `blk` on. -/
def removeBlocks (pageVa pageEnd : Nat) : Nat → M → ListHead Nat → Nat → Res (M × ListHead Nat)
  | 0, _, _, _ => .error .spins
  | fuel + 1, m, h, blk =>
    if blk = 0 then .ok (m, h)
    else
      let nextBlk := B.links.next m blk
      let (m, h) := if pageVa ≤ blk ∧ blk < pageEnd then B.links.remove 0 m h blk else (m, h)
      removeBlocks pageVa pageEnd fuel m h nextBlk

/-- Rounds that are more than there can be blocks in an area of `DYN_ALLOC_MAX_SIZE` bytes. -/
def listRounds : Nat := dynAllocMaxSize / minBlockSize + 1

def freeBlock (d : LinkedAlloc) (m : M) (va : Nat) : Res (LinkedAlloc × M) :=
  if va < d.dynAllocStart ∨ d.dynAllocEnd ≤ va then .error (.panic "assertion failed: va in the area")
  else
    let pageidx := sub32 va d.dynAllocStart / pageSize
    let blockSize := (d.pageBlockInfoArr pageidx).blockSize
    if blockSize = 0 then .error (.panic "assertion failed: blockSize != 0")
    else
      let idx := (sizeClass blockSize 16 minBlockSize 0).2
      let free := ((d.pageBlockInfoArr pageidx).numOfFreeBlocks + 1) % 65536
      let pageVa := add32 d.dynAllocStart (mul32 pageidx pageSize)
      if pageSize / blockSize ≤ free then do
        let h := d.freeBlockLists idx
        let (m, h) ← removeBlocks B pageVa (add32 pageVa pageSize) listRounds m h h.first
        let m ← B.returnPage m pageVa
        return ({ (d.setList idx h).setInfo pageidx ⟨0, 0⟩ with freePagesList := pageidx :: d.freePagesList }, m)
      else
        let (m, h) := B.links.insertTail 0 m (d.freeBlockLists idx) va
        let d := (d.setInfo pageidx ⟨blockSize, free⟩).setList idx h
        .ok ({ d with blockedVarDynallocAllocFunc := 0 }, m)

/-- `realloc_block`. Where `alloc_block` waits, so does it, and it starts again when the flag is cleared: the block is
still there. `alloc_block` never returns `NULL` here, or the loop would call it for ever. -/
def reallocBlock (d : LinkedAlloc) (m : M) (va newSize : Nat) : Res (AllocResult × LinkedAlloc × M) :=
  if va = 0 then d.allocBlock B m newSize
  else if newSize = 0 then do
    let (d, m) ← d.freeBlock B m va
    return (.null, d, m)
  else
    let sizeOfCurrent := d.getBlockSize va
    if newSize ≤ sizeOfCurrent then .ok (.block va, d, m)
    else do
      match ← d.allocBlock B m newSize with
      | (.null, _, _) => .error .spins
      | (.waits, d, m) => return (.waits, d, m)
      | (.block latestBlock, d, m) => do
        let m := B.memcpy m latestBlock va sizeOfCurrent
        let (d, m) ← d.freeBlock B m va
        return (.block latestBlock, d, m)

end LinkedAlloc

end Fos.Heap
