/-
Calls of the kernel heap that do not get what they ask for, and the lock they hold then: `kmalloc` without
enough free frames, and `kfree` of any address.
-/
import Fos.Heap.KernelProgress
import Fos.Heap.WaitingLoop

namespace Fos.Heap

open Fos.Lib Fos.Memory

/-! ## Frames that run out -/

section Short

variable {h : KHeap} {b size : Nat}

/-- With fewer free frames than pages, `kmalloc` returns `NULL` and leaves everything as it was exactly when it
refuses the request for the break. Otherwise `allocate_frame` stops the kernel inside the call. -/
theorem kmalloc_short_iff (hI : h.Inv b) (hs : 2048 < size) (hfew : h.kernel.mem.freeFrameList.length < pagesOf size) :
    (kmalloc size h.kernel = .ok 0 h.kernel ↔ h.kernel.Refuses (pagesOf size)) ∧
      (¬ h.kernel.Refuses (pagesOf size) → ∃ e t, kmalloc size h.kernel = .error e t ∧ t.lock = true) := by
  have hb0 : h.kernel.kheapPageAllocBreak ≠ 0 := by
    have := hI.low
    rw [hI.brk]
    omega
  have hstops : ¬ h.kernel.Refuses (pagesOf size) → ∃ e t, kmalloc size h.kernel = .error e t ∧ t.lock = true := by
    intro hr
    obtain ⟨p, b', -, -, -, hfree, hcase⟩ := kmalloc_takes hI hs rfl (Nat.zero_lt_of_lt hfew) (pagesOf_lt size) hr
    rcases hcase with ⟨m', hM, -⟩ | ⟨-, e, m', hrun⟩
    · -- a mapped page took a frame each
      have := hM.frames hfree
      omega
    · exact ⟨e, _, hrun, rfl⟩
  refine ⟨⟨fun hnull => ?_, fun hr => ?_⟩, hstops⟩
  · by_contra hr
    obtain ⟨e, t, hrun, -⟩ := hstops hr
    rw [hnull] at hrun
    cases hrun
  · rw [kmalloc_pages hI.lock hs hb0, if_pos hr]

end Short

theorem machine_free : machine.freeFrameList.length = 161 := by
  rw [machine, List.length_append, List.length_reverse, List.length_range']
  rfl

/-- A request that is refused whatever the frames. -/
theorem kmalloc_short_iff_machine : ∃ s, kheapInit (unusedKernel machine) = .ok s ∧
    s.mem.freeFrameList.length < pagesOf 0x8000000 ∧
    (kmalloc 0x8000000 s = .ok 0 s ↔ s.Refuses (pagesOf 0x8000000)) ∧
    (¬ s.Refuses (pagesOf 0x8000000) → ∃ e t, kmalloc 0x8000000 s = .error e t ∧ t.lock = true) := by
  obtain ⟨s, hs⟩ : ∃ s, kheapInit (unusedKernel machine) = .ok s := ⟨_, rfl⟩
  have hpages : pagesOf 0x8000000 = 32768 := by decide
  have hfew : s.mem.freeFrameList.length < pagesOf 0x8000000 := by
    rw [(kheapInit_same hs).1, hpages]
    exact machine_free.trans_lt (by decide)
  exact ⟨s, hs, hfew, kmalloc_short_iff (h := ⟨s, []⟩) (kheapInit_inv machine_booted hs) (by decide) hfew⟩

/-- One page more than there are free frames. -/
theorem kmalloc_short_stops : ∃ s, kheapInit (unusedKernel machine) = .ok s ∧
    s.mem.freeFrameList.length < pagesOf 663552 ∧ kmalloc 663552 s ≠ .ok 0 s := by
  obtain ⟨s, hs⟩ : ∃ s, kheapInit (unusedKernel machine) = .ok s := ⟨_, rfl⟩
  have hI : KHeap.Inv ⟨s, []⟩ 1015809 := kheapInit_inv machine_booted hs
  have hpages : pagesOf 663552 = 162 := by decide
  have hfew : s.mem.freeFrameList.length < pagesOf 663552 := by
    rw [(kheapInit_same hs).1, hpages]
    exact machine_free.trans_lt (by decide)
  have hroom : ¬ s.Refuses (pagesOf 663552) := by
    have hb : s.kheapPageAllocBreak = 1015809 * 4096 := hI.brk
    rw [Kernel.Refuses, hb]
    decide
  refine ⟨s, hs, hfew, fun hnull => ?_⟩
  obtain ⟨p, b', -, -, -, hfree, hcase⟩ := kmalloc_takes hI (by decide) rfl (by decide) (pagesOf_lt _) hroom
  rcases hcase with ⟨m', hM, -⟩ | ⟨-, e, m', hrun⟩
  · have hlen : m'.freeFrameList.length + pagesOf 663552 = s.mem.freeFrameList.length := hM.frames hfree
    omega
  · rw [hrun] at hnull
    cases hnull

/-! ## The lock after `kfree` -/

/-- The range of the block allocator. -/
def Kernel.InBlocks (s : Kernel) (va : Nat) : Prop := s.dyn.dynAllocStart ≤ va ∧ va < s.dyn.dynAllocEnd

/-- The range of the page allocator. -/
def Kernel.InPages (s : Kernel) (va : Nat) : Prop := s.kheapPageAllocStart ≤ va ∧ va < kernelHeapMax

section Kfree

variable {s : Kernel} {va : Nat}

theorem freePages_returns : ∀ (n va i : Nat) (s : Kernel), ∃ t, freePages va i n s = .ok () t ∧ t.lock = s.lock
  | 0, _, _, s => ⟨s, rfl, rfl⟩
  | n + 1, va, i, s => by
    unfold freePages
    rw [bind_of_ok (show onMem (fun m => return ((), ← returnPage m va)) s = .ok () _ from rfl),
      bind_of_ok (show writeSize i 0 _ = .ok () _ from rfl)]
    obtain ⟨t, ht, hl⟩ := freePages_returns n (add32 va pageSize) (i + 1) _
    exact ⟨t, ht, hl⟩

/-- Outside both ranges: outside the heap `kfree` panics, and between the two ranges it returns with the lock held. -/
theorem kfree_outside (hl : s.lock = false) (hb : ¬ s.InBlocks va) (hp : ¬ s.InPages va) :
    kfree va s =
      if va < kernelHeapStart ∨ kernelHeapMax ≤ va then .error (.panic "Invalid Address") s else .ok () s.locked := by
  have hb' : ¬ (s.locked.dyn.dynAllocStart ≤ va ∧ va < s.locked.dyn.dynAllocEnd) := hb
  have hp' : ¬ (s.locked.kheapPageAllocStart ≤ va ∧ va < kernelHeapMax) := hp
  unfold kfree
  rw [bind_of_ok (acquireLock_eq hl), bind_of_ok (get_eq s.locked), if_neg hb', if_neg hp']
  split
  · rw [bind_of_ok (releaseLock_eq rfl), unlock_locked hl]
    rfl
  · rfl

end Kfree

/-- Processes that call `kmalloc` and `kfree`; `inLoop p` once process `p` is in the waiting loop of `alloc_block`, and
`stopped` once a call stopped the kernel. -/
structure HeapProcs where
  kernel : Kernel
  inLoop : Nat → Bool
  stopped : Bool

inductive HeapProcCall where
  | kmalloc (p size : Nat)
  | kfree (p va : Nat)

def HeapProcCall.process : HeapProcCall → Nat
  | .kmalloc p _ => p
  | .kfree p _ => p

/-- The processes after a call of process `p`. -/
def HeapProcs.after {α : Type} (w : HeapProcs) (p : Nat) : EStateM.Result Halt Kernel α → HeapProcs
  | .ok _ s => { w with kernel := s }
  | .error .spins s => { w with kernel := s, inLoop := Function.update w.inLoop p true }
  | .error _ s => { w with kernel := s, stopped := true }

def HeapProcs.call (w : HeapProcs) : HeapProcCall → HeapProcs
  | .kmalloc p size => w.after p (kmalloc size w.kernel)
  | .kfree p va => w.after p (kfree va w.kernel)

/-- A process that is not in the loop makes a call. -/
def HeapProcStep (w : HeapProcs) (c : HeapProcCall) (w' : HeapProcs) : Prop :=
  w.stopped = false ∧ w.inLoop c.process = false ∧ w.call c = w'

/-- No process is in the loop while the lock is held. -/
def HeapProcs.LoopUnlocked (w : HeapProcs) : Prop := ∀ p, w.inLoop p = true → w.kernel.lock = false

/-- A `kmalloc` of a block finds one, or a page for it. -/
def HeapProcs.FindsBlock (w : HeapProcs) : HeapProcCall → Prop
  | .kmalloc _ size => w.kernel.lock = false → 0 < size → size ≤ 2048 → w.kernel.dyn.Finds size
  | .kfree _ _ => True

section Spins

variable {α β : Type} {s : Kernel} {size va : Nat}

theorem onMem_neverSpins {g : Mem → Res (α × Mem)} (hg : ∀ m, g m ≠ .error .spins) : Never Halt.spins (onMem g) := by
  intro s t h
  unfold Heap.onMem at h
  cases hr : g s.mem with
  | ok r =>
    rw [hr] at h
    cases h
  | error e =>
    rw [hr] at h
    cases h
    exact hg _ hr

theorem acquireLock_neverSpins : Never Halt.spins acquireLock := by
  intro s t h
  cases hl : s.lock with
  | true =>
    rw [acquireLock_held hl] at h
    cases h
  | false =>
    rw [acquireLock_eq hl] at h
    cases h

theorem releaseLock_neverSpins : Never Halt.spins releaseLock := by
  intro s t h
  cases hl : s.lock with
  | true =>
    rw [releaseLock_eq hl] at h
    cases h
  | false =>
    unfold releaseLock at h
    rw [get_bind, hl] at h
    cases h

theorem mapPages_neverSpins : ∀ (n va : Nat), Never Halt.spins (mapPages va n)
  | 0, _ => .returns fun s => ⟨_, s, rfl⟩
  | n + 1, va => by
    unfold mapPages
    refine .bind (onMem_neverSpins fun m h => ?_) fun f => .bind (onMem_neverSpins fun m h => ?_) fun _ =>
      mapPages_neverSpins n _
    · unfold Mem.allocateFrame at h
      split at h <;> cases h
    · simp only [mapKernelFrame] at h
      split at h <;> cases h

theorem recordSize_neverSpins (va n : Nat) : Never Halt.spins (recordSize va n) :=
    .returns fun s => ⟨_, _, recordSize_eq va n s⟩

/-- A request for pages never waits. -/
theorem kmalloc_pages_neverSpins (hs : 2048 < size) : Never Halt.spins (kmalloc size) := by
  have h0 : size ≠ 0 := by omega
  have h1 : ¬ size ≤ dynAllocMaxBlockSize := not_le.2 hs
  have hnull : Never Halt.spins (do releaseLock; return 0 : KM Nat) := .bind releaseLock_neverSpins fun _ => .pure 0
  have hdone : ∀ va n : Nat, Never Halt.spins (do recordSize va n; releaseLock; return va : KM Nat) := fun va n =>
    .bind (recordSize_neverSpins va n) fun _ => .bind releaseLock_neverSpins fun _ => .pure va
  have htail : Never Halt.spins (do
      let va := fitAddress (← get) (pagesOf size)
      if va ≠ 0 then
        mapPages va (pagesOf size)
        recordSize va (pagesOf size)
        releaseLock
        return va
      let brk := (← get).kheapPageAllocBreak
      let grown := add32 brk (mul32 (pagesOf size) pageSize)
      if grown < brk ∨ kernelHeapMax ≤ grown then
        releaseLock
        return 0
      mapPages brk (pagesOf size)
      modify ({ · with kheapPageAllocBreak := grown })
      recordSize brk (pagesOf size)
      releaseLock
      return brk : KM Nat) := by
    refine .bind .get fun s => .ite (.bind (mapPages_neverSpins _ _) fun _ => hdone _ _)
      (.bind .get fun t => .ite hnull ?_)
    exact .bind (mapPages_neverSpins _ _) fun _ => .bind (.modify _) fun _ => hdone _ _
  unfold kmalloc
  refine .bind acquireLock_neverSpins fun _ => ?_
  simp only [if_neg h0, if_neg h1]
  refine .bind .get fun s => .ite hnull (.ite ?_ htail)
  exact .bind (.modify _) fun _ => htail

theorem kernelPages_neverSpin (m : Mem) (pageVa : Nat) : getPage m pageVa ≠ .error .spins := by
  intro h
  simp only [getPage] at h
  split at h
  · cases h
  · rcases bind_error h with ha | ⟨⟨f, m₁⟩, -, hm⟩
    · unfold Mem.allocateFrame at ha
      split at ha <;> cases ha
    · simp only [mapKernelFrame] at hm
      split at hm <;> cases hm

theorem takeFirst_neverSpins (d : DynAlloc) (i : Nat) : takeFirst d i ≠ .error .spins := by
  intro h
  unfold takeFirst at h
  split at h
  · cases h
  · rcases bind_error h with hp | ⟨p, -, hp⟩
    · unfold toPageInfo at hp
      dsimp only at hp
      split at hp <;> cases hp
    · cases hp

/-- The block allocator either ends or panics: where it has to wait it says so. -/
theorem allocBlock_neverSpins (d : DynAlloc) (m : Mem) (size : Nat) :
    allocBlock kernelPages d m size ≠ .error .spins := by
  have htake : ∀ (d : DynAlloc) (i : Nat) (m : Mem), (takeFirst d i >>= fun r => pure (r.1, r.2, m)) ≠
      .error .spins := by
    intro d i m h
    rcases bind_error h with ht | ⟨r, -, hr⟩
    · exact takeFirst_neverSpins d i ht
    · cases hr
  intro h
  unfold allocBlock at h
  split at h
  · cases h
  split at h
  · cases h
  dsimp only at h
  split at h
  · exact htake _ _ _ h
  split at h
  · rcases bind_error h with hp | ⟨pageVa, -, h⟩
    · unfold toPageVa at hp
      split at hp <;> cases hp
    rcases bind_error h with hg | ⟨m', -, h⟩
    · exact kernelPages_neverSpin _ _ hg
    · exact htake _ _ _ h
  split at h
  · exact htake _ _ _ h
  · cases h

theorem freeBlock_neverSpins (d : DynAlloc) (m : Mem) (va : Nat) : freeBlock kernelPages d m va ≠ .error .spins := by
  intro h
  unfold freeBlock at h
  split at h
  · cases h
  dsimp only at h
  split at h
  · cases h
  split at h
  · cases h
  · cases h

/-- Where no block and no page is left, `kmalloc` of a block waits, with the lock. -/
theorem kmalloc_waits (hl : s.lock = false) (h0 : 0 < size) (hs : size ≤ 2048) (hno : ¬ s.dyn.Finds size) :
    ∃ t, kmalloc size s = .error .spins t ∧ t.lock = true := by
  rw [kmalloc_block hl h0 hs]
  have hwait : kallocBlock size s.locked =
      .error .spins { s.locked with dyn := { s.dyn with blockedVarDynallocAllocFunc := 1 } } := by
    unfold kallocBlock
    simp only [locked_dyn, locked_mem, allocBlock_waits h0 hs hno]
  exact ⟨_, bind_of_error hwait, rfl⟩

/-- When `kmalloc` waits. -/
theorem kmalloc_spins {t : Kernel} (h : kmalloc size s = .error .spins t) :
    s.lock = false ∧ 0 < size ∧ size ≤ 2048 ∧ ¬ s.dyn.Finds size := by
  cases hl : s.lock with
  | true =>
    have hstop := acquireLock_held hl
    unfold kmalloc at h
    rw [bind_of_error hstop] at h
    cases h
  | false =>
    rcases Nat.eq_zero_or_pos size with rfl | h0
    · rw [kmalloc_empty hl] at h
      cases h
    rcases Nat.lt_or_ge 2048 size with hs | hs
    · exact absurd h (kmalloc_pages_neverSpins hs s t)
    refine ⟨rfl, h0, hs, fun hf => ?_⟩
    rw [kmalloc_block hl h0 hs] at h
    cases hr : allocBlock kernelPages s.dyn s.mem size with
    | error e =>
      have hrun : kallocBlock size s.locked = .error e s.locked := by
        unfold kallocBlock
        simp only [locked_dyn, locked_mem, hr]
      rw [bind_of_error hrun] at h
      cases h
      exact allocBlock_neverSpins _ _ _ hr
    | ok r =>
      obtain ⟨r, d, m⟩ := r
      obtain ⟨va, rfl, -⟩ := allocBlock_finds h0 hf hr
      have hrun : kallocBlock size s.locked = .ok va { s.locked with dyn := d, mem := m } := by
        unfold kallocBlock
        simp only [locked_dyn, locked_mem, hr]
      rw [bind_of_ok hrun, bind_of_ok (releaseLock_eq rfl)] at h
      cases h

theorem kfree_neverSpins (va : Nat) : Never Halt.spins (kfree va) := by
  have hpanic : ∀ msg, Never Halt.spins (do releaseLock; throw (.panic msg) : KM Unit) := fun msg =>
    .bind releaseLock_neverSpins fun _ => .throw fun h => nomatch h
  have hfree : ∀ n va i, Never Halt.spins (freePages va i n) := fun n va i => .returns fun s =>
    ⟨(), (freePages_returns n va i s).imp fun t ht => ht.1⟩
  have hread : ∀ i, Never Halt.spins (readSize i) := fun i => .returns fun s => ⟨_, _, rfl⟩
  unfold kfree
  refine .bind acquireLock_neverSpins fun _ => .bind .get fun s => .ite ?_ (.ite ?_ (.ite (hpanic _) (.pure ())))
  · cases hr : freeBlock kernelPages s.dyn s.mem va with
    | ok r =>
      exact .bind (.returns fun t => ⟨_, _, rfl⟩) fun _ => releaseLock_neverSpins
    | error e =>
      refine .bind (fun u t h => ?_) fun _ => releaseLock_neverSpins
      cases h
      exact freeBlock_neverSpins _ _ _ hr
  · have hrest : Never Halt.spins (do
        let size ← readSize (roundDown va pageSize / 4096)
        if size = 0 then
          releaseLock
          throw (.panic "size not found for this address")
        freePages (roundDown va pageSize) (roundDown va pageSize / 4096) (add32 size (pageSize - 1) / pageSize)
        modify fun s =>
          let fuel := (s.kheapPageAllocBreak - s.kheapPageAllocStart) / pageSize + 1
          { s with kheapPageAllocBreak := lowerBreak s.mem s.kheapPageAllocStart fuel s.kheapPageAllocBreak }
        releaseLock : KM Unit) := by
      refine .bind (hread _) fun size => .ite (hpanic _) (.bind (hfree _ _ _) fun _ => .bind (.modify _) fun _ => ?_)
      exact releaseLock_neverSpins
    exact .ite (hpanic _) hrest

theorem after_outside {w : HeapProcs} (hw : ∀ p, w.inLoop p = false) (p : Nat) {r : EStateM.Result Halt Kernel α}
    (hr : ∀ t, r ≠ .error .spins t) : ∀ q, (w.after p r).inLoop q = false := by
  intro q
  cases r with
  | ok a t => exact hw q
  | error e t =>
    cases e with
    | spins => exact absurd rfl (hr t)
    | _ => exact hw q

/-- A call keeps every process out of the loop, unless it is a `kmalloc` of a block that finds none. -/
theorem call_outside {w : HeapProcs} (hw : ∀ p, w.inLoop p = false) (c : HeapProcCall) :
    (w.FindsBlock c → ∀ p, (w.call c).inLoop p = false) ∧ (¬ w.FindsBlock c → ¬ (w.call c).LoopUnlocked) := by
  cases c with
  | kmalloc p size =>
    constructor
    · intro hf
      apply after_outside hw p
      intro t hr
      obtain ⟨hl, h0, hs, hno⟩ := kmalloc_spins hr
      exact hno (hf hl h0 hs)
    · intro hf hlock
      have hf : ¬ (w.kernel.lock = false → 0 < size → size ≤ 2048 → w.kernel.dyn.Finds size) := hf
      simp only [Classical.not_imp] at hf
      obtain ⟨hl, h0, hs, hno⟩ := hf
      obtain ⟨t, hrun, ht⟩ := kmalloc_waits hl h0 hs hno
      have hcall : w.call (.kmalloc p size) = { w with kernel := t, inLoop := Function.update w.inLoop p true } := by
        simp only [HeapProcs.call, hrun, HeapProcs.after]
      rw [hcall] at hlock
      have hfree : t.lock = false := hlock p (Function.update_self p true w.inLoop)
      rw [hfree] at ht
      cases ht
  | kfree p va => exact ⟨fun _ => after_outside hw p (kfree_neverSpins va _), fun hf => absurd trivial hf⟩

end Spins

/-- No process is ever in the loop with the lock exactly when every `kmalloc` of a block finds one. -/
theorem loop_unlocked_iff (s : Kernel) (cs : List HeapProcCall) :
    Always HeapProcStep HeapProcs.LoopUnlocked ⟨s, fun _ => false, false⟩ cs ↔
      Each HeapProcStep HeapProcs.FindsBlock ⟨s, fun _ => false, false⟩ cs := by
  refine always_iff_each (I := fun w => ∀ p, w.inLoop p = false) (fun w hw p hp => ?_) ?_ ?_ fun p => rfl
  · rw [hw p] at hp
    cases hp
  · rintro w c w' hw hf ⟨-, -, rfl⟩
    exact (call_outside hw c).1 hf
  · rintro w c w' hw ⟨-, -, rfl⟩ hlock
    by_contra hf
    exact (call_outside hw c).2 hf hlock

/-! ## An area that fills up -/

section Filling

variable {s t : Kernel}

/-- The free blocks of 2048 bytes, those of the free pages included. -/
def Kernel.room (s : Kernel) : Nat := 2 * s.dyn.freePagesList.length + (s.dyn.freeBlockLists 8).length

/-- A kernel heap with a frame for each free page of the block range. -/
structure Kernel.Filling (s : Kernel) : Prop where
  lock : s.lock = false
  start : s.dyn.dynAllocStart = kernelHeapStart
  tables : HeapTables s.mem
  pages : ∀ p ∈ s.dyn.freePagesList, p < 8192
  blocks : ∀ b ∈ s.dyn.freeBlockLists 8, kernelHeapStart ≤ b ∧ b < kernelHeapStart + dynAllocMaxSize
  frames : s.dyn.freePagesList.length ≤ s.mem.freeFrameList.length

theorem takeFirst_first {d : DynAlloc} {k b : Nat} {rest : List Nat} (hd : d.dynAllocStart = kernelHeapStart)
    (hl : d.freeBlockLists k = b :: rest) (hb : kernelHeapStart ≤ b ∧ b < kernelHeapStart + dynAllocMaxSize) :
    ∃ d', takeFirst d k = .ok (.block b, d') ∧ d'.dynAllocStart = kernelHeapStart ∧
      d'.freePagesList = d.freePagesList ∧ d'.freeBlockLists k = rest := by
  have hp : ¬ maxPages ≤ sub32 b d.dynAllocStart / pageSize := by
    have h1 : kernelHeapStart = 4127195136 := rfl
    have h2 : dynAllocMaxSize = 33554432 := rfl
    have h3 : maxPages = 8192 := rfl
    rw [hd, sub32_of_le hb.1 (by omega), pageSize]
    omega
  have hinfo : toPageInfo d b = .ok (sub32 b d.dynAllocStart / pageSize) := by
    rw [toPageInfo]
    exact if_neg hp
  obtain ⟨d', hd'⟩ : ∃ d', takeFirst d k = .ok (.block b, d') := by
    simp only [takeFirst, hl, hinfo]
    exact ⟨_, rfl⟩
  obtain ⟨va, rest', hl', -, hpages, -, hlists⟩ := takeFirst_ok hd'
  obtain rfl : rest' = rest := by
    rw [hl] at hl'
    exact (List.cons.inj hl').2.symm
  refine ⟨d', hd', ?_, hpages, (hlists k).trans (if_pos rfl)⟩
  simp only [takeFirst, hl, hinfo] at hd'
  cases hd'
  exact hd

/-- A request for the largest block takes one while there is room. -/
theorem Kernel.Filling.kmalloc (h : s.Filling) (hroom : 0 < s.room) :
    ∃ va t, Heap.kmalloc 2048 s = .ok va t ∧ t.Filling ∧ t.room + 1 = s.room := by
  have hcls : sizeClass (min 2048 maxBlockSize) 16 minBlockSize 0 = (2048, 8) := by decide
  have hmax : ¬ dynAllocMaxBlockSize < 2048 := by decide
  have hblocks := h.blocks
  have hpages := h.pages
  have hframes := h.frames
  by_cases hlist : s.dyn.freeBlockLists 8 ≠ []
  · -- a block that is there
    obtain ⟨b, rest, hl⟩ := List.exists_cons_of_ne_nil hlist
    rw [hl] at hblocks
    obtain ⟨d, htake, hstart, hfree, hrest⟩ := takeFirst_first h.start hl (hblocks b List.mem_cons_self)
    have hrun : allocBlock kernelPages s.dyn s.mem 2048 = .ok (.block b, d, s.mem) := by
      simp only [allocBlock, if_neg hmax, if_neg (show ¬ 2048 = 0 by decide), hcls, if_pos hlist, htake]
      rfl
    refine ⟨b, _, kmalloc_of_block h.lock (by decide) le_rfl hrun,
      ⟨rfl, hstart, h.tables, hfree ▸ hpages, ?_, hfree ▸ hframes⟩, ?_⟩
    · rw [show d.freeBlockLists 8 = rest from hrest]
      exact fun c hc => hblocks c (List.mem_cons_of_mem b hc)
    · simp only [Kernel.room, hfree, hrest, hl, List.length_cons]
      omega
  · -- the first of the two blocks of a free page
    have hnil : s.dyn.freeBlockLists 8 = [] := not_not.1 hlist
    have hne : s.dyn.freePagesList ≠ [] := by
      intro hc
      simp only [Kernel.room, hnil, hc, List.length_nil] at hroom
      omega
    obtain ⟨p, rest, hp⟩ := List.exists_cons_of_ne_nil hne
    rw [hp] at hpages hframes
    have hp8 : p < 8192 := hpages p List.mem_cons_self
    obtain ⟨hva, hpage⟩ := dyn_page hp8
    have htoVa : toPageVa s.dyn p = .ok ((1007616 + p) * 4096) := by
      rw [toPageVa, if_neg (show ¬ maxPages ≤ p from not_le.2 hp8), h.start, hva]
    obtain ⟨m, hget, htab, hlen⟩ := getPage_returns h.tables hpage
      (Nat.zero_lt_of_lt (Nat.lt_of_lt_of_le (Nat.lt_succ_self rest.length) hframes))
    have hsplit : (splitPage s.dyn p (pageSize / 2048) ((1007616 + p) * 4096) 2048 8 rest).freeBlockLists 8 =
        [(1007616 + p) * 4096, (1007616 + p) * 4096 + 2048] := by
      have hrange : List.range (pageSize / 2048) = [0, 1] := by decide
      have h0 : add32 ((1007616 + p) * 4096) (mul32 0 2048) = (1007616 + p) * 4096 := by
        simp only [add32, mul32]
        omega
      have h1 : add32 ((1007616 + p) * 4096) (mul32 1 2048) = (1007616 + p) * 4096 + 2048 := by
        simp only [add32, mul32]
        omega
      simp only [splitPage, setList_lists, if_true, hnil, hrange, List.map_cons, List.map_nil, List.nil_append, h0, h1]
    have hin : ∀ c ∈ [(1007616 + p) * 4096, (1007616 + p) * 4096 + 2048],
        kernelHeapStart ≤ c ∧ c < kernelHeapStart + dynAllocMaxSize := by
      have h1 : kernelHeapStart = 4127195136 := rfl
      have h2 : dynAllocMaxSize = 33554432 := rfl
      intro c hc
      simp only [List.mem_cons, List.not_mem_nil, or_false] at hc
      omega
    obtain ⟨d, htake, hstart, hfree, hrest⟩ := takeFirst_first
      (show (splitPage s.dyn p (pageSize / 2048) ((1007616 + p) * 4096) 2048 8 rest).dynAllocStart = kernelHeapStart
        from h.start) hsplit (hin _ List.mem_cons_self)
    have hrun : allocBlock kernelPages s.dyn s.mem 2048 = .ok (.block ((1007616 + p) * 4096), d, m) := by
      simp only [allocBlock, if_neg hmax, if_neg (show ¬ 2048 = 0 by decide), hcls, if_neg hlist, hp, htoVa, ok_bind,
        show kernelPages.getPage s.mem ((1007616 + p) * 4096) = .ok m from hget, htake]
      rfl
    have hfree : d.freePagesList = rest := hfree
    refine ⟨_, _, kmalloc_of_block h.lock (by decide) le_rfl hrun, ⟨rfl, hstart, htab, ?_, ?_, ?_⟩, ?_⟩
    · rw [show d.freePagesList = rest from hfree]
      exact fun q hq => hpages q (List.mem_cons_of_mem p hq)
    · rw [show d.freeBlockLists 8 = _ from hrest]
      exact fun c hc => hin c (List.mem_cons_of_mem _ hc)
    · rw [show d.freePagesList = rest from hfree]
      rw [List.length_cons] at hframes
      exact Nat.le_of_succ_le_succ (hframes.trans hlen)
    · simp only [Kernel.room, hfree, hrest, hnil, hp, List.length_cons, List.length_nil]
      omega

/-- As many requests as there is room for, and one more. -/
theorem Kernel.Filling.fills : ∀ {n : Nat} {s : Kernel}, s.Filling → s.room = n →
    ¬ Always HeapProcStep HeapProcs.LoopUnlocked ⟨s, fun _ => false, false⟩ (List.replicate (n + 1) (.kmalloc 1 2048))
  | 0, s, h, hroom, hall => by
    have hno : ¬ s.dyn.Finds 2048 := by
      have hnil : s.dyn.freePagesList = [] ∧ s.dyn.freeBlockLists 8 = [] := by
        unfold Kernel.room at hroom
        exact ⟨List.eq_nil_of_length_eq_zero (by omega), List.eq_nil_of_length_eq_zero (by omega)⟩
      rintro (hp | ⟨j, h1, h2, hj⟩)
      · exact hp hnil.1
      · have hcls : classOf 2048 = 8 := by decide
        obtain rfl : j = 8 := by omega
        exact hj hnil.2
    obtain ⟨t, hrun, ht⟩ := kmalloc_waits h.lock (by decide) le_rfl hno
    have hcall : (HeapProcs.mk s (fun _ => false) false).call (.kmalloc 1 2048) =
        ⟨t, Function.update (fun _ => false) 1 true, false⟩ := by
      simp only [HeapProcs.call, hrun, HeapProcs.after]
    have hend : HeapProcs.LoopUnlocked ⟨t, Function.update (fun _ => false) 1 true, false⟩ :=
      (hall.2 _ ⟨rfl, rfl, hcall⟩).head
    have hfree : t.lock = false := hend 1 (Function.update_self 1 true fun _ => false)
    rw [hfree] at ht
    cases ht
  | n + 1, s, h, hroom, hall => by
    obtain ⟨va, t, hrun, hfill, hleft⟩ := h.kmalloc (by omega)
    have hcall : (HeapProcs.mk s (fun _ => false) false).call (.kmalloc 1 2048) = ⟨t, fun _ => false, false⟩ := by
      simp only [HeapProcs.call, hrun, HeapProcs.after]
    exact hfill.fills (by omega) (hall.2 _ ⟨rfl, rfl, hcall⟩)

theorem kheapInit_filling {s₀ : Kernel} (htab : HeapTables s₀.mem) (hinit : kheapInit s₀ = .ok s)
    (hframes : 8192 ≤ s₀.mem.freeFrameList.length) : s.Filling ∧ s.room = 16384 := by
  obtain ⟨hmem, -⟩ := kheapInit_same hinit
  obtain ⟨dyn, hdyn, hk⟩ := bind_ok hinit
  have hdynEq : s.dyn = dyn := by cases hk; rfl
  have hlock : s.lock = false := by cases hk; rfl
  obtain ⟨hstart, hpages, hlists⟩ := initialize_empty hdyn
  have hn : sub32 (kernelHeapStart + dynAllocMaxSize) kernelHeapStart / pageSize = 8192 := by decide
  rw [← hdynEq] at hstart hpages hlists
  rw [hn] at hpages
  refine ⟨⟨hlock, hstart, hmem ▸ htab, fun p hp => ?_, fun b hb => ?_, ?_⟩, ?_⟩
  · rw [hpages] at hp
    exact List.mem_range.1 hp
  · rw [hlists 8 (by decide)] at hb
    exact absurd hb List.not_mem_nil
  · rw [hpages, List.length_range, hmem]
    exact hframes
  · rw [Kernel.room, hpages, hlists 8 (by decide), List.length_range]
    rfl

end Filling

/-- A machine with more free frames than the block range has pages. -/
def roomyMachine : Mem := { machine with numberOfFrames := 10000, freeFrameList := List.range' 1024 8976 }

/-- The block range fills up and the next `kmalloc` waits with the lock that a `kfree` would need. -/
theorem loop_locked : ∃ s, kheapInit (unusedKernel roomyMachine) = .ok s ∧
    ¬ Always HeapProcStep HeapProcs.LoopUnlocked ⟨s, fun _ => false, false⟩
      (List.replicate 16385 (.kmalloc 1 2048)) := by
  obtain ⟨s, hs⟩ : ∃ s, kheapInit (unusedKernel roomyMachine) = .ok s := ⟨_, rfl⟩
  obtain ⟨hfill, hroom⟩ := kheapInit_filling machine_booted.tables hs <| by
    have hlen : roomyMachine.freeFrameList.length = 8976 := List.length_range'
    exact hlen ▸ by decide
  exact ⟨s, hs, hfill.fills hroom⟩

end Fos.Heap
