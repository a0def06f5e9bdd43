/-
A `create_shared_object` that returns an error: what it has undone by then, and when that is everything.
-/
import Fos.Heap.HeapUse
import Fos.Proc.KernelStacks
import Fos.Shared.Calls

namespace Fos.Heap

open Fos.Memory Fos.Lib DynAlloc

/-! ## A block that is taken and given back -/

/-- A page of the block allocator is free exactly if no block in use lies on it. -/
theorem DynAlloc.Ok.free_iff {n : Nat} {s : DynAlloc} {live : List LiveBlock} (h : s.Ok n live) {p : Nat} (hp : p < n) :
    p ∈ s.freePagesList ↔ ∀ c ∈ live, s.page c.va ≠ p := by
  constructor
  · rintro hfree c hc rfl
    obtain ⟨k, hB, -⟩ := h.inv.liveBlock c hc
    exact h.inv.not_free hB hfree
  · intro hno
    by_contra hfree
    obtain ⟨k, hk, hsize⟩ := h.inv.sized p hp hfree
    have hused := h.used p hp k hk hsize
    have hcount := h.inv.count p hp k hk hsize
    have hzero : live.countP (s.page ·.va = p) = 0 := List.countP_eq_zero.2 fun c hc => by simpa using hno c hc
    omega

/-- Getting a page where none is held and returning it. -/
theorem KPages.get_return {m m₁ m₂ : Mem} {v : Nat} (h : KPages m) (hv : HeapPage v) (hnot : ¬ HoldsPage m v)
    (hg : getPage m (v * 4096) = .ok m₁) (hr : returnPage m₁ (v * 4096) = .ok m₂) :
      m₂.freeFrameList = m.freeFrameList := by
  have hrd : roundDown (v * 4096) pageSize = v * 4096 := roundDown_of_dvd (by simp only [pageSize]; omega)
  have hnone : m.getFrameInfo 0 (v * 4096) = none := by
    rw [h.getFrameInfo hv]
    exact not_not.1 hnot
  simp only [getPage, hrd, hnone] at hg
  simp only [returnPage, hrd] at hr
  obtain ⟨⟨f, m'⟩, ha, hm⟩ := bind_ok hg
  obtain ⟨hK, hl, hpte, hfree, -⟩ := h.allocate ha
  have hheld : (m'.pte (0, v)).held = none := by
    rw [hpte]
    exact not_not.1 hnot
  obtain ⟨m'', hm'', hK', hself, -, hfree', -⟩ := hK.map hv (fun hh => absurd hheld hh) hl { writeable := true } rfl
  obtain rfl : m'' = m₁ := Except.ok.inj (hm''.symm.trans hm)
  obtain rfl := Except.ok.inj hr
  rw [(hK'.unmap hv).2.2.2.1, hself.1, hfree', hheld, hfree]
  rfl

section Restored

variable {h : HeapUse} {G : Set Nat} {b : Nat}

/-- `kmalloc` of a block and `kfree` of it leave the free frames and the user's page tables as they were. -/
theorem HeapUse.Inv.kmalloc_kfree (hI : h.Inv G b) {size va : Nat} {t u : Kernel} (h0 : 0 < size) (hs : size ≤ 2048)
    (hr : kmalloc size h.kernel = .ok va t) (hf : Heap.kfree va t = .ok () u) :
    u.mem.freeFrameList = h.kernel.mem.freeFrameList ∧ Within h.kernel.mem u.mem := by
  have hK := hI.heap.pages
  have hend : h.kernel.dyn.dynAllocEnd = 1015808 * 4096 := hI.heap.dynEnd
  obtain ⟨dyn₁, m₁, ha, rfl⟩ := kmalloc_block_ok hI.heap.lock h0 hs hr
  obtain ⟨⟨hst₁, hen₁⟩, -⟩ := allocBlock_pages ha
  obtain ⟨hI₁, -⟩ := hI.allocBlock hs ha
  obtain ⟨dyn₂, m₂, hfree, hI₂, -⟩ := hI₁.freeBlock (c := ⟨va, size⟩) (.refl _)
  obtain ⟨⟨hst₂, -⟩, -⟩ := freeBlock_pages hfree
  obtain ⟨k, hB, -, hlo, hhi⟩ := hI₁.block List.mem_cons_self
  have hpos := class_pos k
  have hu : u = { ({ h.kernel with dyn := dyn₁, mem := m₁ } : Kernel) with dyn := dyn₂, mem := m₂ } := by
    have hin : dyn₁.dynAllocStart ≤ va ∧ va < dyn₁.dynAllocEnd := by
      rw [hst₁, hen₁, hI.dynStart, hend]
      exact ⟨hlo, by simp only at hhi; omega⟩
    exact (EStateM.Result.ok.inj ((kfree_of_block hI₁.heap.lock hin hfree).symm.trans hf)).2.symm
  subst hu
  -- the free pages of the block allocator are the same before and after
  have hsame : ∀ p < 8192, p ∈ dyn₂.freePagesList ↔ p ∈ h.kernel.dyn.freePagesList := by
    intro p hp
    have hpage : ∀ a, dyn₂.page a = h.kernel.dyn.page a := by
      intro a
      unfold DynAlloc.page
      rw [show dyn₂.dynAllocStart = h.kernel.dyn.dynAllocStart from hst₂.trans hst₁]
    rw [hI₂.blocks.free_iff hp, hI.blocks.free_iff hp]
    simp only [hpage]
  have hq : dyn₁.page va < 8192 := hB.page
  have hidx := (Block.index hI₁.blocks.inv hB).1
  rcases allocBlock_split ha with ⟨rfl, hpages⟩ | ⟨p, rest, pageVa, hp, hrest, hva, hget⟩
  · rcases freeBlock_split hfree with ⟨rfl, -⟩ | ⟨hgave, -⟩
    · exact ⟨rfl, .refl _⟩
    · -- the page would be free twice
      have hnd := hI₂.blocks.inv.freeNodup
      simp only at hgave hnd hidx
      rw [hgave, List.nodup_cons, hidx, hpages] at hnd
      exact absurd ((hsame _ hq).1 (by rw [hgave, hidx]; exact List.mem_cons_self)) hnd.1
  · obtain ⟨hp8, -⟩ := hI.blocks.inv.freePages p (by rw [hp]; exact List.mem_cons_self)
    obtain ⟨hpv, hpage⟩ := hI.pageVa hp8
    obtain rfl : pageVa = (1007616 + p) * 4096 := by
      rw [toPageVa, if_neg (by have : maxPages = 8192 := rfl; omega), hpv] at hva
      exact (Except.ok.inj hva).symm
    have hget : getPage h.kernel.mem ((1007616 + p) * 4096) = .ok m₁ := hget
    have hnot : ¬ HoldsPage h.kernel.mem (1007616 + p) := fun hh =>
      (hI.split p hp8).1 hh (by rw [hp]; exact List.mem_cons_self)
    have hnd := hI.blocks.inv.freeNodup
    rw [hp, List.nodup_cons] at hnd
    have hback := (hsame p hp8).2 (by rw [hp]; exact List.mem_cons_self)
    rcases freeBlock_split hfree with ⟨-, hpages⟩ | ⟨hgave, hret⟩
    · simp only at hpages
      rw [hpages, hrest] at hback
      exact absurd hback hnd.1
    · -- the page that was got is returned
      simp only at hgave hret hidx
      rw [hgave, hrest, List.mem_cons] at hback
      have hstart : dyn₁.dynAllocStart = h.kernel.dyn.dynAllocStart := hst₁
      rw [← hback.resolve_right hnd.1, hstart, hpv] at hret
      have hret : returnPage m₁ ((1007616 + p) * 4096) = .ok m₂ := hret
      have hE₁ := hK.evolves_get hpage hget
      have hE := hE₁.trans (hE₁.pages.evolves_return hpage hret)
      exact ⟨hK.get_return hpage hnot hget hret, hE.table, hE.outside⟩

end Restored

/-- When `kmalloc` of pages refuses. -/
theorem HeapUse.Inv.kmalloc_null {h : HeapUse} {G : Set Nat} {b size va : Nat} {t : Kernel} (hI : h.Inv G b)
    (hs : 2048 < size)
    (hsize : size ≤ 4294963200) (hr : kmalloc size h.kernel = .ok va t) : va = 0 ↔ h.kernel.Refuses (pagesOf size) := by
  have hlow := hI.heap.low
  have hbrk : h.kernel.kheapPageAllocBreak ≠ 0 := by
    rw [hI.heap.brk]
    omega
  constructor
  · rintro rfl
    by_contra hno
    have hpos : 0 < pagesOf size := by
      rw [pagesOf, pageSize, roundUp_div size hsize]
      omega
    rcases hI.kmallocPages hs hsize hr with ⟨-, rfl⟩ | ⟨p, n, b', hp, -, hlo, -⟩
    · rw [kmalloc_pages hI.heap.lock hs hbrk, if_neg hno] at hr
      split at hr
      · rename_i hf
        obtain ⟨_, u, -, hr⟩ := ok_of_bind hr
        obtain ⟨_, u, -, hr⟩ := ok_of_bind hr
        obtain ⟨_, u, -, hr⟩ := ok_of_bind hr
        exact hf (EStateM.Result.ok.inj hr).1
      · obtain ⟨_, u, -, hr⟩ := ok_of_bind hr
        obtain ⟨_, u, -, hr⟩ := ok_of_bind hr
        obtain ⟨_, u, -, hr⟩ := ok_of_bind hr
        obtain ⟨_, u, -, hr⟩ := ok_of_bind hr
        exact hbrk (EStateM.Result.ok.inj hr).1
    · omega
  · intro hyes
    rw [kmalloc_pages hI.heap.lock hs hbrk, if_pos hyes] at hr
    cases hr
    rfl

end Fos.Heap

namespace Fos.Shared

open Fos.Lib Fos.Memory Fos.Heap Fos.Proc

/-! ## What an error leaves -/

/-- The list of shared objects, the user's page tables of directory `d` and the free frames are as they were. -/
structure Unchanged (d : Nat) (s t : Shares) : Prop where
  list : t.sharesList = s.sharesList
  tables : ∀ i < 1024, t.kernel.mem.table d i = s.kernel.mem.table d i
  entries : ∀ va < userTop, t.kernel.mem.pte (slot d va) = s.kernel.mem.pte (slot d va)
  free : t.kernel.mem.freeFrameList = s.kernel.mem.freeFrameList

theorem Unchanged.refl (d : Nat) (s : Shares) : Unchanged d s s := ⟨rfl, fun _ _ => rfl, fun _ _ => rfl, rfl⟩

/-- The table of the frames of an object of `size` bytes, in bytes. -/
def storageBytes (size : Nat) : Nat := mul32 (numberOfFrames size) 4

/-- `alloc_share` gets no memory for the table of the frames: the table is empty, or has its own pages and they do not
fit the kernel heap. -/
def NoStorage (k : Kernel) (size : Nat) : Prop :=
  storageBytes size = 0 ∨ dynAllocMaxBlockSize < storageBytes size ∧ k.Refuses (pagesOf (storageBytes size))

theorem storageBytes_lt (size : Nat) : storageBytes size < 4194305 := by
  simp only [storageBytes, numberOfFrames, mul32, add32, pageSize]
  omega

section Alloc

variable {s t : Shares} {d b : Nat} {o r : Int} {name : List UInt8} {size w va : Nat} {blocks : List LiveBlock}
  {live : List Extent} {G : Set Nat}

/-- `alloc_share` fails exactly without memory for the table of the frames, and then has given the object back. -/
theorem allocShare_none (hI : HeapUse.Inv ⟨s.kernel, blocks, live⟩ G b) {a : Option Share}
    (ha : allocShare o name size w s = .ok a t) :
    (a = none ↔ NoStorage s.kernel size) ∧
      (a = none → t.kernel.mem.freeFrameList = s.kernel.mem.freeFrameList ∧ Within s.kernel.mem t.kernel.mem) := by
  have hlt := storageBytes_lt size
  unfold allocShare at ha
  obtain ⟨addr, u, h1, ha⟩ := ok_of_bind ha
  obtain ⟨k, hk, rfl⟩ := onKernel_ok h1
  obtain ⟨hne, hI₁, -⟩ := hI.kmallocBlock (by decide) (by decide) hk
  obtain ⟨dyn, m, -, rfl⟩ := kmalloc_block_ok hI.heap.lock (by decide) (by decide) hk
  rw [if_neg hne] at ha
  obtain ⟨storage, u, h2, ha⟩ := ok_of_bind ha
  obtain ⟨k', hk', rfl⟩ := onKernel_ok h2
  have hk' : kmalloc (storageBytes size) { s.kernel with dyn, mem := m } = .ok storage k' := hk'
  -- when the table is `NULL`
  have hnull : (storage = 0 ↔ NoStorage s.kernel size) ∧ (storage = 0 → k' = { s.kernel with dyn, mem := m }) := by
    unfold NoStorage
    by_cases hz : storageBytes size = 0
    · rw [hz, kmalloc_empty hI₁.heap.lock] at hk'
      cases hk'
      exact ⟨iff_of_true rfl (.inl hz), fun _ => rfl⟩
    · by_cases hs : storageBytes size ≤ 2048
      · obtain ⟨hne', -⟩ := hI₁.kmallocBlock (Nat.pos_of_ne_zero hz) hs hk'
        have hno : ¬ dynAllocMaxBlockSize < storageBytes size := by simp only [dynAllocMaxBlockSize]; omega
        exact ⟨iff_of_false hne' fun h => h.elim hz fun h => hno h.1, fun h => absurd h hne'⟩
      · have hyes : dynAllocMaxBlockSize < storageBytes size := by simp only [dynAllocMaxBlockSize]; omega
        have hiff := hI₁.kmalloc_null (by omega) (by omega) hk'
        refine ⟨hiff.trans ⟨fun h => .inr ⟨hyes, h⟩, fun h => h.elim (absurd · hz) And.right⟩, fun h => ?_⟩
        rcases hI₁.kmallocPages (by omega) (by omega) hk' with ⟨-, rfl⟩ | ⟨p, n, b', hp, -, hlo, -⟩
        · rfl
        · omega
  by_cases hz : storage = 0
  · rw [if_pos hz] at ha
    obtain ⟨_, u, h3, ha⟩ := ok_of_bind ha
    obtain ⟨k'', hk'', rfl⟩ := onKernel_ok h3
    cases ha
    obtain rfl := hnull.2 hz
    exact ⟨iff_of_true rfl (hnull.1.1 hz), fun _ => hI.kmalloc_kfree (by decide) (by decide) hk hk''⟩
  · rw [if_neg hz] at ha
    cases ha
    exact ⟨iff_of_false (Option.some_ne_none _) fun h => hz (hnull.1.2 h), fun h => absurd h (Option.some_ne_none _)⟩

/-- A `create_shared_object` that returns an error leaves everything as it was exactly if the name exists, the address
is aligned or there is no memory for the table of the frames. -/
theorem create_error (hI : HeapUse.Inv ⟨s.kernel, blocks, live⟩ G b)
    (h : createSharedObject d o name size w va s = .ok r t)
    (hr : r < 0) : Unchanged d s t ↔ (s.lookup o name).isSome ∨ va % pageSize = 0 ∨ NoStorage s.kernel size := by
  obtain ⟨hfree, hcreated⟩ := create_ok h
  cases hcreated with
  | found hl => exact iff_of_true (.refl d s) (.inl hl)
  | @noMemory k hl ha =>
    obtain ⟨hiff, hback⟩ := allocShare_none (s := s.locked) hI ha
    obtain ⟨hlist, hwithin⟩ := hback rfl
    refine iff_of_true ⟨rfl, fun i _ => ?_, fun v hv => ?_, hlist⟩ (.inr (.inr (hiff.1 rfl)))
    · exact congrFun (congrFun hwithin.table d) i
    · apply hwithin.pte _
      intro hh
      have hpage := hh.2.1
      simp only [slot, userTop] at hpage hv
      omega
  | @misaligned k shr hl ha hva =>
    obtain ⟨hiff, -⟩ := allocShare_none (s := s.locked) hI ha
    refine iff_of_false (fun hu => ?_) ?_
    · have hlen := congrArg List.length hu.list
      rw [insert_list, List.length_cons] at hlen
      exact absurd hlen (Nat.succ_ne_self _)
    · rintro (hsome | halign | hno)
      · rw [hl] at hsome
        cases hsome
      · exact hva halign
      · exact Option.some_ne_none _ (hiff.2 hno)
  | @mapped k shr u hl ha hva hp =>
    obtain ⟨-, hshr⟩ := allocShare_ok ha
    obtain ⟨_, _, -, -, -, -, hnew⟩ := hshr _ rfl
    have hid : shr.ID = (shr.addr % 2147483648 : Nat) := congrArg Share.ID hnew
    omega

end Alloc

/-- A create on the machine after boot at an address that is no page boundary. -/
def createMisaligned (s : Shares) : Bool :=
  match createSharedObject 1 7 [97, 0] 1 1 0x80000001 s with
  | .ok r t => r < 0 && t.sharesList.length = 1
  | .error _ _ => false

/-- The same beside the kernel stack of a process. -/
def createBesideStack (k : Kernel) : Bool :=
  match createUserKernStack 1 k with
  | .ok _ k' => createMisaligned (sharingInit k')
  | .error _ _ => false

/-- On the machine after boot, with one process: the lowest page of its kernel stack is not present. -/
theorem create_error_machine : ∃ k base k' t r, kheapInit (unusedKernel machine) = .ok k ∧
    createUserKernStack 1 k = .ok base k' ∧ ¬ AllPresent k'.mem ∧
    createSharedObject 1 7 [97, 0] 1 1 0x80000001 (sharingInit k') = .ok r t ∧ r < 0 ∧
    (Unchanged 1 (sharingInit k') t ↔
      ((sharingInit k').lookup 7 [97, 0]).isSome ∨ 0x80000001 % pageSize = 0 ∨ NoStorage k' 1) := by
  obtain ⟨k, hk, hrun⟩ : ∃ k, kheapInit (unusedKernel machine) = .ok k ∧ createBesideStack k = true :=
    ⟨_, rfl, by decide +kernel⟩
  have hM := (kheapInit_mapOk machine_booted hk fun _ => rfl).ok
  have hz : Loose k.mem 0 1 := by
    rw [(kheapInit_same hk).1]
    exact machine_booted.loose_zero (by decide)
  unfold createBesideStack at hrun
  split at hrun
  · rename_i base k' hs
    unfold createMisaligned at hrun
    split at hrun
    · rename_i r t hc
      simp only [Bool.and_eq_true, decide_eq_true_eq] at hrun
      obtain ⟨b, hI⟩ := createUserKernStack_use (kheapInit_use machine_booted hk) hM hz hs
      exact ⟨k, base, k', t, r, hk, hs, (createUserKernStack_stacked hM hz hs).not_present, hc, hrun.1,
        create_error (s := sharingInit k') hI hc hrun.1⟩
    · cases hrun
  · cases hrun

/-- The object stays in the list of shared objects. -/
theorem create_error_linked : ∃ k t r, kheapInit (unusedKernel machine) = .ok k ∧
    createSharedObject 1 7 [97, 0] 1 1 0x80000001 (sharingInit k) = .ok r t ∧ r < 0 ∧
      ¬ Unchanged 1 (sharingInit k) t := by
  obtain ⟨k, hk, hrun⟩ : ∃ k, kheapInit (unusedKernel machine) = .ok k ∧ createMisaligned (sharingInit k) = true :=
    ⟨_, rfl, by decide +kernel⟩
  unfold createMisaligned at hrun
  split at hrun
  · rename_i r t hc
    simp only [Bool.and_eq_true, decide_eq_true_eq] at hrun
    refine ⟨k, t, r, hk, hc, hrun.1, fun hu => ?_⟩
    have hlen := congrArg List.length hu.list
    rw [hrun.2] at hlen
    cases hlen
  · cases hrun

end Fos.Shared
