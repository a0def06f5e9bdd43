/-
`free_user_mem` where a page of its range has no page table. The steps before the one that writes to the table return
whether the table is there or not, so the first page without a table is where the call uses a `NULL` pointer.
-/
import Fos.Fault.Aging
import Fos.Fault.ChunkOperations
import Fos.Heap.HeapUse
import Fos.Proc.SegmentImages

namespace Fos.Fault

open Fos.Memory Fos.Heap Fos.Proc Fos.Disk Fos.Lib

/-! ## `kfree` of a block -/

/-- It needs the block to be in use, and changes no page table. -/
theorem kfree_block {k : Kernel} {n va size : Nat} {live : List LiveBlock} (hl : k.lock = false)
    (hok : k.dyn.Ok n (⟨va, size⟩ :: live)) :
    ∃ dyn m, kfree va k = .ok () { k with dyn, mem := m } ∧ dyn.Ok n live ∧ m.table = k.mem.table := by
  obtain ⟨c, hB, -, -⟩ : ∃ c, k.dyn.Block n c va ∧ size ≤ 8 * 2 ^ c ∧ va ∉ k.dyn.freeBlockLists c :=
    hok.inv.liveBlock ⟨va, size⟩ List.mem_cons_self
  have hin : k.dyn.dynAllocStart ≤ va ∧ va < k.dyn.dynAllocEnd := by
    have h1 := hB.lo
    have h2 := DynAlloc.Block.below hok.inv hB
    have h3 := class_pos c
    exact ⟨h1, by omega⟩
  -- `free_block` fails only where the page cannot be given back, and `return_page` never fails
  rcases freeBlock_spec kernelPages hok k.mem with ⟨e, pageVa, hret, -⟩ | ⟨dyn, m, hrun, hok'⟩
  · cases hret
  refine ⟨dyn, m, kfree_of_block hl hin hrun, hok', ?_⟩
  rcases (freeBlock_pages hrun).2 with rfl | ⟨-, -, hret⟩
  · rfl
  · obtain rfl := Except.ok.inj hret
    exact (Mem.unmapFrame_same k.mem 0 _).1

/-! ## The lists -/

/-- The elements of the lists that `env_page_ws_invalidate` walks. -/
def listed (lruLists : Bool) (e : Env) : List WorkingSetElement :=
  if lruLists then e.activeList ++ e.secondList else e.pageWsList

/-- The elements are blocks in use, each one its own, and the kernel heap is not locked. The pages of the second list
have page tables. -/
structure ElementsLive (lruLists : Bool) (s : Machine) : Prop where
  lock : s.kernel.lock = false
  blocks : ∃ n others, s.kernel.dyn.Ok n ((listed lruLists s.env).map elementBlock ++ others)
  tables : lruLists = true → ∀ w ∈ s.env.secondList, s.hasTable w.virtualAddress = true

/-- The process has the same directory and the same page tables. -/
structure TablesKept (s t : Machine) : Prop where
  dir : t.env.envPageDirectory = s.env.envPageDirectory
  table : t.mem.table = s.mem.table

section Lists

variable {lruLists : Bool} {va : Nat} {s t u : Machine}

theorem TablesKept.refl (s : Machine) : TablesKept s s := ⟨rfl, rfl⟩

theorem TablesKept.trans (h : TablesKept s t) (h' : TablesKept t u) : TablesKept s u :=
  ⟨h'.dir.trans h.dir, h'.table.trans h.table⟩

theorem TablesKept.hasTable (h : TablesKept s t) (va : Nat) : t.hasTable va = s.hasTable va := by
  unfold Machine.hasTable
  rw [h.dir, h.table]

/-- A step on page tables and on the page file. -/
theorem ElementsLive.keeps (h : ElementsLive lruLists s) (hs : TablesKept s t) (hd : t.kernel.dyn = s.kernel.dyn)
    (hl : t.kernel.lock = s.kernel.lock) (hlists : listed lruLists t.env = listed lruLists s.env)
    (hsecond : t.env.secondList = s.env.secondList) : ElementsLive lruLists t := by
  refine ⟨hl.trans h.lock, ?_, fun hlru w hw => ?_⟩
  · rw [hd, hlists]
    exact h.blocks
  · rw [hs.hasTable]
    exact h.tables hlru w (hsecond ▸ hw)

theorem listRemove_perm {l : List WorkingSetElement} {w : WorkingSetElement} (hw : w ∈ l) :
    (l.map elementBlock).Perm (elementBlock w :: (listRemove l w.addr).map elementBlock) := by
  obtain ⟨w', l₁, l₂, -, haddr, rfl, hrem⟩ := List.exists_of_eraseP (p := fun v => decide (v.addr = w.addr)) hw
    (decide_eq_true rfl)
  have hblock : elementBlock w' = elementBlock w := congrArg (fun a => (⟨a, sizeofWorkingSetElement⟩ : LiveBlock))
    (of_decide_eq_true haddr)
  rw [listRemove, hrem, ← hblock, ← List.map_cons]
  exact List.perm_middle.map _

/-- An element leaves the lists and its block is freed. -/
theorem ElementsLive.free {w : WorkingSetElement} {g : Env → Env} (h : ElementsLive lruLists s)
    (hperm : ((listed lruLists s.env).map elementBlock).Perm
      (elementBlock w :: (listed lruLists (g s.env)).map elementBlock))
    (hdir : (g s.env).envPageDirectory = s.env.envPageDirectory)
    (hsecond : ∀ v ∈ (g s.env).secondList, v ∈ s.env.secondList) :
    ∃ t, (do
        unmapUserFrame w.virtualAddress
        modifyEnv g
        onKernel (kfree w.addr) : PM Unit) s = .ok () t ∧ ElementsLive lruLists t ∧ TablesKept s t ∧
          t.env = g s.env := by
  obtain ⟨n, others, hok⟩ := h.blocks
  have hok' : s.kernel.dyn.Ok n (elementBlock w :: ((listed lruLists (g s.env)).map elementBlock ++ others)) :=
    hok.perm (hperm.append_right others)
  let m := s.mem.unmapFrame s.env.envPageDirectory w.virtualAddress
  have hm : m.table = s.mem.table := (Mem.unmapFrame_same s.mem _ _).1
  let k : Kernel := { s.kernel with mem := m }
  obtain ⟨dyn, m', hrun, hfreed, htable⟩ := kfree_block (k := k) h.lock hok'
  let t : Machine := { s with kernel := { k with dyn, mem := m' }, env := g s.env }
  have hrun' : onKernel (kfree w.addr) { s with kernel := k, env := g s.env } = .ok () t := by
    unfold onKernel
    rw [show kfree w.addr k = _ from hrun]
  have hst : TablesKept s t := ⟨hdir, htable.trans hm⟩
  refine ⟨t, hrun', ⟨h.lock, ⟨n, others, hfreed⟩, fun hlru v hv => ?_⟩, hst, rfl⟩
  rw [hst.hasTable]
  exact h.tables hlru v (hsecond v hv)

/-- The process and the page file when the page is removed from it. -/
def unfiled (va : Nat) (s : Machine) : Machine :=
  if s.env.diskEnvPgdir = 0 ∨ (s.env.diskTables (pdx va)).isNone then s
  else
    let dfn := s.env.diskPages (va / 4096)
    { s with
      env := { s.env with diskPages := Function.update s.env.diskPages (va / 4096) 0 }
      pageFile := if dfn = 0 then s.pageFile
        else { s.pageFile with diskFreeFrameList := dfn :: s.pageFile.diskFreeFrameList } }

theorem pfRemoveEnvPage_eq (va : Nat) (s : Machine) : pfRemoveEnvPage va s = .ok () (unfiled va s) := by
  unfold pfRemoveEnvPage unfiled
  rw [get_bind]
  by_cases hd : s.env.diskEnvPgdir = 0
  · rw [if_pos hd, if_pos (.inl hd)]
    rfl
  · rw [if_neg hd, bind_of_ok (getDiskPageTable_find va s)]
    cases ht : s.env.diskTables (pdx va) with
    | none => simp [hd]; rfl
    | some f =>
      have hno : ¬ (s.env.diskEnvPgdir = 0 ∨ (some f).isNone = true) := by simp [hd]
      rw [if_neg hno]
      show freeDiskFrame (s.env.diskPages (va / 4096)) _ = _
      by_cases hz : s.env.diskPages (va / 4096) = 0
      · simp only [freeDiskFrame, hz, if_true]
        rfl
      · simp only [freeDiskFrame, if_neg hz]
        rfl

theorem unfiled_kernel (va : Nat) (s : Machine) : (unfiled va s).kernel = s.kernel := by
  unfold unfiled
  split <;> rfl

theorem unfiled_lists (va : Nat) (s : Machine) : (unfiled va s).env.envPageDirectory = s.env.envPageDirectory ∧
    (unfiled va s).env.pageWsList = s.env.pageWsList ∧ (unfiled va s).env.activeList = s.env.activeList ∧
    (unfiled va s).env.secondList = s.env.secondList := by
  unfold unfiled
  split <;> exact ⟨rfl, rfl, rfl, rfl⟩

theorem ElementsLive.unfiled (h : ElementsLive lruLists s) (va : Nat) :
    ElementsLive lruLists (Fault.unfiled va s) ∧ TablesKept s (Fault.unfiled va s) := by
  have hk := unfiled_kernel va s
  obtain ⟨hdir, hws, hactive, hsecond⟩ := unfiled_lists va s
  have hst : TablesKept s (Fault.unfiled va s) := ⟨hdir, by unfold Machine.mem; rw [hk]⟩
  refine ⟨h.keeps hst (by rw [hk]) (by rw [hk]) ?_ hsecond, hst⟩
  unfold listed
  rw [hws, hactive, hsecond]

/-- The page of the first element of the second list has a page table. -/
theorem ElementsLive.refill (h : ElementsLive true s) :
    ∃ t, refillActive s.env.secondList.head? s = .ok () t ∧ ElementsLive true t ∧ TablesKept s t := by
  cases hl : s.env.secondList with
  | nil => exact ⟨s, rfl, h, .refl s⟩
  | cons tmp rest =>
    have htab : s.hasTable tmp.virtualAddress = true := h.tables rfl tmp (hl ▸ List.mem_cons_self)
    have hrem : listRemove s.env.secondList tmp.addr = rest := by
      rw [hl]
      exact List.eraseP_cons_of_pos (decide_eq_true rfl)
    let t : Machine := { s with env := { s.env with secondList := rest, activeList := s.env.activeList ++ [tmp] } }
    let t' := t.setMem (t.mem.setPte (slot t.env.envPageDirectory tmp.virtualAddress)
      { t.pte tmp.virtualAddress with perm := ((t.pte tmp.virtualAddress).perm.union .permPresent).diff .none })
    have hrun : refillActive (some tmp) s = .ok () t' := by
      show ptSetPagePermissions tmp.virtualAddress .permPresent .none { s with env := { s.env with
        secondList := listRemove s.env.secondList tmp.addr, activeList := s.env.activeList ++ [tmp] } } = _
      rw [hrem]
      exact ptSetPagePermissions_there (s := t) htab .permPresent .none
    have hst : TablesKept s t' := ⟨rfl, rfl⟩
    obtain ⟨n, others, hok⟩ := h.blocks
    refine ⟨t', hrun, ⟨h.lock, ⟨n, others, ?_⟩, fun _ w hw => ?_⟩, hst⟩
    -- `tmp` changes from one list to the other
    · have hlists : listed true t'.env = listed true s.env := by
        show (s.env.activeList ++ [tmp]) ++ rest = s.env.activeList ++ s.env.secondList
        rw [hl, List.append_assoc]
        rfl
      rw [hlists]
      exact hok
    · rw [hst.hasTable]
      exact h.tables rfl w (hl ▸ List.mem_cons_of_mem tmp hw)

theorem ElementsLive.invalidate (h : ElementsLive lruLists s) (va : Nat) :
    ∃ t, envPageWsInvalidate lruLists va s = .ok () t ∧ ElementsLive lruLists t ∧ TablesKept s t := by
  unfold envPageWsInvalidate
  rw [get_bind]
  cases lruLists with
  | true =>
    simp only [if_true]
    -- two lists: the active one is searched first
    cases hactive : elementOf s.env.activeList va with
    | some wse =>
      have hw : wse ∈ s.env.activeList := List.mem_of_find?_eq_some hactive
      have hperm : ((s.env.activeList ++ s.env.secondList).map elementBlock).Perm
          (elementBlock wse :: (listRemove s.env.activeList wse.addr ++ s.env.secondList).map elementBlock) := by
        rw [List.map_append, List.map_append]
        exact (listRemove_perm hw).append_right _
      obtain ⟨t, hrun, ht, hst, henv⟩ :=
          h.free (g := fun e => { e with activeList := listRemove e.activeList wse.addr })
        hperm rfl fun _ hv => hv
      obtain ⟨u, hrefill, hu, hst'⟩ := ht.refill
      rw [henv] at hrefill
      exact ⟨u, (bind_of_ok hrun).trans hrefill, hu, hst.trans hst'⟩
    | none =>
      cases hsecond : elementOf s.env.secondList va with
      | none => exact ⟨s, rfl, h, .refl s⟩
      | some wse =>
        have hw : wse ∈ s.env.secondList := List.mem_of_find?_eq_some hsecond
        have hperm : ((s.env.activeList ++ s.env.secondList).map elementBlock).Perm
            (elementBlock wse :: (s.env.activeList ++ listRemove s.env.secondList wse.addr).map elementBlock) := by
          rw [List.map_append, List.map_append]
          exact ((listRemove_perm hw).append_left _).trans List.perm_middle
        obtain ⟨t, hrun, ht, hst, -⟩ := h.free (g := fun e => { e with secondList := listRemove e.secondList wse.addr })
          hperm rfl fun v hv => List.mem_of_mem_eraseP hv
        exact ⟨t, hrun, ht, hst⟩
  | false =>
    -- one list
    simp only [Bool.false_eq_true, if_false]
    cases hws : elementOf s.env.pageWsList va with
    | none => exact ⟨s, rfl, h, .refl s⟩
    | some wse =>
      have hw : wse ∈ s.env.pageWsList := List.mem_of_find?_eq_some hws
      obtain ⟨t, hrun, ht, hst, -⟩ := h.free (g := fun e => { e with
        pageLastWsElement :=
          if e.pageLastWsElement = some wse.addr then listNext e.pageWsList wse.addr else e.pageLastWsElement
        pageWsList := listRemove e.pageWsList wse.addr }) (listRemove_perm hw) rfl fun _ hv => hv
      exact ⟨t, hrun, ht, hst⟩

end Lists

/-! ## The loop -/

section Loop

variable {lruLists : Bool} {va : Nat} {s : Machine}

/-- A page with a table is done with. -/
theorem freeUserPage_returns (h : ElementsLive lruLists s) (ht : s.hasTable va = true) :
    ∃ t, freeUserPage lruLists va s = .ok () t ∧ ElementsLive lruLists t ∧ TablesKept s t := by
  obtain ⟨t, hrun, hE, hst⟩ := h.invalidate va
  obtain ⟨hE', hst'⟩ := hE.unfiled va
  let u := unfiled va t
  let a := slot u.env.envPageDirectory va
  let u' := u.setMem (u.mem.setPte a { u.mem.pte a with perm := { (u.mem.pte a).perm with uhpage := false } })
  have hu : TablesKept u u' := ⟨rfl, rfl⟩
  refine ⟨u', ?_, hE'.keeps hu rfl rfl rfl rfl, hst.trans (hst'.trans hu)⟩
  unfold freeUserPage
  rw [get_bind, bind_of_ok hrun, bind_of_ok (pfRemoveEnvPage_eq va t), ht]
  rfl

/-- At a page without a table the pointer is `NULL`. -/
theorem freeUserPage_faults (h : ElementsLive lruLists s) (ht : s.hasTable va = false) :
    ∃ t, freeUserPage lruLists va s = .error .faults t := by
  obtain ⟨t, hrun, -⟩ := h.invalidate va
  refine ⟨unfiled va t, ?_⟩
  unfold freeUserPage
  rw [get_bind, bind_of_ok hrun, bind_of_ok (pfRemoveEnvPage_eq va t), ht]
  rfl

theorem freeUserPages_returns (va : Nat) {n : Nat} (h : ElementsLive lruLists s)
    (ht : ∀ i < n, s.hasTable (va + i * 4096) = true) : ∃ t, freeUserPages lruLists va n s = .ok () t := by
  induction n generalizing va s with
  | zero => exact ⟨s, rfl⟩
  | succ n ih =>
    have hfirst := ht 0 n.succ_pos
    rw [Nat.zero_mul, Nat.add_zero] at hfirst
    obtain ⟨u, hu, hE, hst⟩ := freeUserPage_returns h hfirst
    obtain ⟨t, hrun⟩ := ih (va + 4096) hE fun i hi => by
      rw [hst.hasTable, show va + 4096 + i * 4096 = va + (i + 1) * 4096 by omega]
      exact ht (i + 1) (by omega)
    exact ⟨t, (bind_of_ok hu).trans hrun⟩

theorem freeUserPages_faults (va : Nat) {n i : Nat} (h : ElementsLive lruLists s) (hi : i < n)
    (ht : s.hasTable (va + i * 4096) = false) : ∃ t, freeUserPages lruLists va n s = .error .faults t := by
  induction n generalizing va s i with
  | zero => omega
  | succ n ih =>
    -- the first page without a table is this one or comes later
    cases hfirst : s.hasTable va with
    | false =>
      obtain ⟨t, hrun⟩ := freeUserPage_faults h hfirst
      exact ⟨t, bind_of_error hrun⟩
    | true =>
      obtain ⟨u, hu, hE, hst⟩ := freeUserPage_returns h hfirst
      cases i with
      | zero =>
        rw [Nat.zero_mul, Nat.add_zero, hfirst] at ht
        cases ht
      | succ i =>
        obtain ⟨t, hrun⟩ := ih (va + 4096) (i := i) hE (by omega) (by
          rw [hst.hasTable, show va + 4096 + i * 4096 = va + (i + 1) * 4096 by omega]
          exact ht)
        exact ⟨t, (bind_of_ok hu).trans hrun⟩

end Loop

/-! ## The call -/

theorem lt_chunkPages (va size : Nat) {i : Nat} : i < chunkPages va size ↔
    (va / 4096 + i) * 4096 < roundUp (add32 va size) 4096 := by
  have hrd : roundDown va 4096 = va / 4096 * 4096 := by unfold roundDown; omega
  have hru : roundUp (add32 va size) 4096 % 4096 = 0 := by unfold roundUp roundDown; omega
  simp only [chunkPages, pageSize, hrd]
  omega

/-- `sys_free_user_mem` never uses a page table that is not there exactly if every page from the one of the address
to the end of the range has one, unless buffering stops the call before. -/
theorem free_user_mem_tables {va size : Nat} {s : FaultState} (hleg : legalRange va size = true)
    (hE : ElementsLive s.lruLists s.machine) :
    (∀ t, sysFreeUserMem va size s ≠ .error .faults t) ↔ s.faults.enableBuffering = true ∨
      ∀ v, va / pageSize ≤ v → v * pageSize < roundUp (add32 va size) pageSize →
        s.machine.hasTable (v * pageSize) = true := by
  -- buffering is off, or the call panics before the loop
  have hrun : s.faults.enableBuffering = false → sysFreeUserMem va size s =
      onMachine (freeUserMem s.lruLists va size) s :=
    fun hb => by
      unfold sysFreeUserMem
      rw [hleg]
      show ((get : FM FaultState) >>= _) s = _
      rw [get_bind, hb]
      rfl
  have hpanic : s.faults.enableBuffering = true → ∀ t, sysFreeUserMem va size s ≠ .error .faults t := by
    intro hb t
    unfold sysFreeUserMem
    rw [hleg]
    show ((get : FM FaultState) >>= _) s ≠ _
    rw [get_bind, hb]
    rintro ⟨⟩
  have hstart : roundDown va pageSize = va / 4096 * 4096 := by unfold roundDown; simp only [pageSize]; omega
  have hpage : ∀ i, va / 4096 * 4096 + i * 4096 = (va / 4096 + i) * 4096 := fun i => by omega
  simp only [pageSize]
  constructor
  · -- a page without a table is used
    intro hnever
    rw [or_iff_not_imp_left]
    intro hb v hv hlt
    rw [Bool.not_eq_true] at hb
    by_contra ht
    obtain ⟨i, rfl⟩ := Nat.exists_eq_add_of_le hv
    obtain ⟨t, hfault⟩ := freeUserPages_faults (va / 4096 * 4096) hE ((lt_chunkPages va size).2 hlt)
      (by rw [hpage]; exact Bool.eq_false_iff.2 ht)
    apply hnever { s with machine := t }
    rw [hrun hb, onMachine, freeUserMem, hstart, hfault]
  · rintro (hb | htables) t
    · exact hpanic hb t
    · cases hb : s.faults.enableBuffering with
      | true => exact hpanic hb t
      | false =>
        obtain ⟨u, hok⟩ := freeUserPages_returns (va / 4096 * 4096) (n := chunkPages va size) hE fun i hi => by
          rw [hpage]
          exact htables _ (by omega) ((lt_chunkPages va size).1 hi)
        rw [hrun hb, onMachine, freeUserMem, hstart, hok]
        rintro ⟨⟩

/-! ## A process that never touched its heap -/

/-- A process with an empty working set and no page tables. -/
def untouchedProcess : FaultState where
  machine := ⟨heapKernel, { envPageDirectory := 1, pageWsMaxSize := 10 }, fun _ => zeroPage, newPageFile⟩
  faults := { pageRepAlgoType := .clock, kstack := 0xF0000000, cpuStack := 0xF0010000 }

/-- It frees the first page of the heap. -/
theorem free_user_mem_faults : legalRange userHeapStart pageSize = true ∧
    ∃ t, sysFreeUserMem userHeapStart pageSize untouchedProcess = .error .faults t :=
  ⟨by decide, _, rfl⟩

/-! ## A process that uses its heap -/

/-- A working set of pages that are there is one of elements in use. -/
theorem Resident.elementsLive {s : Machine} (h : Resident s) (hl : s.kernel.lock = false) : ElementsLive false s :=
  ⟨hl, h.blocks, fun hlru => absurd hlru Bool.false_ne_true⟩

/-- New page tables and new marks: no page came or went, and no block of the kernel heap did. -/
def Marks (s t : Machine) : Prop := Ready s → Unmoved s t ∧ SameDyn s t

theorem Marks.refl (s : Machine) : Marks s s := fun hs => ⟨Quiet.refl s hs, rfl⟩

theorem Marks.trans {s t u : Machine} (h : Marks s t) (h' : Marks t u) : Marks s u := by
  intro hs
  obtain ⟨hst, hd⟩ := h hs
  obtain ⟨htu, hd'⟩ := h' hst.ready
  exact ⟨hst.trans htu, SameDyn.trans hd hd'⟩

theorem marks_tableFaultHandler {s t : Machine} {va : Nat} (hs : Ready s) (hva : va < userTop)
    (hno : s.hasTable va = false) (h : tableFaultHandler va s = .ok () t) :
    Unmoved s t ∧ SameDyn s t ∧ t.hasTable va = true := by
  obtain ⟨-, hown, -, -⟩ := user_address hva s.env.envPageDirectory
  rw [Machine.hasTable, hown, Option.isSome_eq_false_iff, Option.isNone_iff_eq_none] at hno
  refine ⟨quiet_tableFaultHandler hs hno h, dyn_tableFaultHandler s () t h, ?_⟩
  obtain ⟨hpdx, k, hk, rfl⟩ := tableFaultHandler_ok h
  obtain ⟨-, htable, -⟩ := hs.kernel.createPageTable hs.dir (hpdx ▸ hno) hk
  rw [Machine.hasTable, hown, hpdx]
  exact htable

/-- The mark of an entry does not make its page present. -/
theorem unmoved_setPte {s : Machine} {va : Nat} (hs : Ready s) (hva : va < userTop) (htable : s.hasTable va = true)
    {q : Pte}
    (hq : q.perm.present = (s.pte va).perm.present) :
    Unmoved s (s.setMem (s.mem.setPte (slot s.env.envPageDirectory va) q)) := by
  refine (sets_setPte hs hva q htable).same ?_
  rw [← present_eq hva, Machine.present, htable, Bool.true_and, hq]

theorem marks_allocateUserPage {va : Nat} (hva : va < userTop) : Does Marks (allocateUserPage va) := by
  have hpresent : ∀ e : Pte, (if e.perm.present then { e with perm := { e.perm with uhpage := true } }
      else ⟨0, { user := true, writeable := true, uhpage := true }⟩ : Pte).perm.present = e.perm.present := fun e => by
    split
    · rfl
    · next hno => exact (Bool.eq_false_iff.2 hno).symm
  unfold allocateUserPage
  intro s a t h hs
  split_ifs at h with hmax
  · cases h
    exact Marks.refl s hs
  rw [get_bind] at h
  dsimp only at h
  split_ifs at h with htable
  · obtain ⟨_, u, hu, h⟩ := ok_of_bind h
    obtain ⟨hsu, hd, hthere⟩ := marks_tableFaultHandler hs hva (by simpa using htable) hu
    cases h
    exact ⟨hsu.trans (unmoved_setPte hsu.ready hva hthere (hpresent _)), hd⟩
  · cases h
    exact ⟨unmoved_setPte hs hva (by simpa using htable) (hpresent _), rfl⟩

theorem marks_allocateUserPages (va : Nat) {n : Nat} (hva : va + n * pageSize ≤ userTop) :
    Does Marks (allocateUserPages va n) := by
  induction n generalizing va with
  | zero => exact .pure Marks.refl _
  | succ n ih =>
    refine .bind Marks.trans (marks_allocateUserPage ?_) fun _ => ih (va + pageSize) ?_
    all_goals
      simp only [pageSize] at hva ⊢
      omega

/-- A call that returns leaves the working set as it was. -/
theorem sysAllocateUserMem_others {va size : Nat} {s t : FaultState} (hs : Ready s.machine)
    (h : sysAllocateUserMem va size s = .ok () t) : Others s t ∧ SameDyn s.machine t.machine := by
  unfold sysAllocateUserMem at h
  split at h
  · obtain ⟨_, _, h, -⟩ := ok_of_bind h
    cases h
  · next hleg =>
    have hleg : legalRange va size = true := by simpa using hleg
    obtain ⟨hm, halgo⟩ := onMachine_ok h
    unfold allocateUserMem at hm
    split at hm
    · have hsame := (EStateM.Result.ok.inj hm).2
      exact ⟨⟨hsame ▸ hs, hsame ▸ .refl _, fun v _ => by rw [← hsame], congrArg (·.pageRepAlgoType) halgo⟩, hsame ▸ rfl⟩
    · have hend : roundDown va pageSize + chunkPages va size * pageSize ≤ userTop := by
        have hlt : add32 va size < userHeapMax ∧ va < userHeapMax := by
          simp only [legalRange, Bool.not_eq_true', Bool.or_eq_false_iff] at hleg
          obtain ⟨⟨⟨⟨-, hva⟩, -⟩, hend⟩, -⟩ := hleg
          exact ⟨not_le.1 (of_decide_eq_false hend), not_le.1 (of_decide_eq_false hva)⟩
        simp only [chunkPages, roundUp, roundDown, pageSize, userTop, userHeapMax] at hlt ⊢
        omega
      obtain ⟨hu, hd⟩ := marks_allocateUserPages _ hend _ _ _ hm hs
      exact ⟨⟨hu.ready, hu.env, fun v hv => hu.shown _ v hv, congrArg (·.pageRepAlgoType) halgo⟩, hd⟩

/-- A process that has allocated two pages of its heap. -/
@[irreducible] def heapProcess : FaultState :=
  match sysAllocateUserMem userHeapStart (2 * pageSize) agedProcess with
  | .ok _ t => t
  | .error _ _ => agedProcess

/-- The call returns. -/
def heapFits : Bool :=
  match sysAllocateUserMem userHeapStart (2 * pageSize) agedProcess with
  | .ok _ _ => true
  | .error _ _ => false

theorem heapProcess_run : sysAllocateUserMem userHeapStart (2 * pageSize) agedProcess = .ok () heapProcess := by
  have hfits : heapFits = true := by decide +kernel
  unfold heapFits at hfits
  unfold heapProcess
  split at hfits
  · rename_i t ht
    rw [ht]
  · cases hfits

/-- It writes to both pages, so that they come into its working set. -/
def heapRun : List AgingEvent := [.fault userHeapStart ⟨true, true⟩, .fault (userHeapStart + pageSize) ⟨true, true⟩]

/-- The page table of the two pages is there, and none for the pages after its 1024. -/
def HeapEnd (b : Aged) : Prop :=
  b.state.machine.env.pageWsList.map (·.virtualAddress) = [userHeapStart, userHeapStart + pageSize] ∧
    b.state.machine.kernel.lock = false ∧ b.state.faults.enableBuffering = false ∧
    b.state.machine.hasTable userHeapStart = true ∧ b.state.machine.hasTable (userHeapStart + pageSize) = true ∧
    b.state.machine.hasTable (userHeapStart + 1024 * pageSize) = false

instance (b : Aged) : Decidable (HeapEnd b) := inferInstanceAs (Decidable (_ ∧ _ ∧ _ ∧ _ ∧ _ ∧ _))

theorem heapRun_ends : (heapRun.foldlM nextAged ⟨heapProcess, fun _ => []⟩).any (fun b => decide (HeapEnd b)) =
    true := by
  decide +kernel

theorem heapProcess_resident : Resident heapProcess.machine ∧ heapProcess.faults.pageRepAlgoType = .lruTimeApprox ∧
    heapProcess.machine.env.pageWsList = [] := by
  obtain ⟨ho, hd⟩ := sysAllocateUserMem_others agedProcess_resident.ready heapProcess_run
  have hpages : wsPages heapProcess.machine.env = wsPages agedProcess.machine.env := by
    rw [wsPages, ho.env.ws, wsPages]
  obtain ⟨n, others, hok⟩ := agedProcess_resident.blocks
  refine ⟨agedProcess_resident.of ho.ready ho.env.dir hpages ho.shown ⟨n, others, ?_⟩, ho.algo, ho.env.ws⟩
  rw [ho.env.ws, show heapProcess.machine.kernel.dyn = _ from hd]
  exact hok

theorem free_user_mem_tables_heap : ∃ s : FaultState,
    s.machine.env.pageWsList.map (·.virtualAddress) = [userHeapStart, userHeapStart + pageSize] ∧
      (∀ t, sysFreeUserMem userHeapStart (2 * pageSize) s ≠ .error .faults t) ∧
      ¬ ∀ t, sysFreeUserMem userHeapStart (1025 * pageSize) s ≠ .error .faults t := by
  obtain ⟨b, hb, hend⟩ := (Option.any_eq_true _ _).1 heapRun_ends
  obtain ⟨hlist, hlock, hbuffering, hfirst, hsecond, hnone⟩ := of_decide_eq_true hend
  obtain ⟨hR, halgo, hnil⟩ := heapProcess_resident
  have hstart : Aged.Inv ⟨heapProcess, fun _ => []⟩ := by
    refine ⟨hR, halgo, fun w hw => ?_⟩
    have hw : w ∈ heapProcess.machine.env.pageWsList := hw
    rw [hnil] at hw
    cases hw
  have halways : Always Ages Aged.Inv ⟨heapProcess, fun _ => []⟩ heapRun :=
    always_of_step (fun a e c hI h => Aged.Inv.step hI h) hstart
  have hI : b.Inv := halways.of_foldlM nextAged_ages hb
  have hE : ElementsLive b.state.lruLists b.state.machine := by
    rw [show b.state.lruLists = false by rw [FaultState.lruLists, hI.algo]; rfl]
    exact hI.resident.elementsLive hlock
  refine ⟨b.state, hlist, (free_user_mem_tables (by decide) hE).2 (.inr fun v hv hlt => ?_), fun hnever => ?_⟩
  · -- both pages are in the page table
    have hpages : v * pageSize = userHeapStart ∨ v * pageSize = userHeapStart + pageSize := by
      have hend : roundUp (add32 userHeapStart (2 * pageSize)) pageSize = userHeapStart + 2 * pageSize := by decide
      rw [hend] at hlt
      simp only [userHeapStart, pageSize] at hv hlt ⊢
      omega
    rcases hpages with h | h
    · rw [h]
      exact hfirst
    · rw [h]
      exact hsecond
  · rcases (free_user_mem_tables (by decide) hE).1 hnever with hb | hall
    · rw [hbuffering] at hb
      cases hb
    · have hin := hall (userHeapStart / pageSize + 1024) (by decide) (by decide)
      rw [show (userHeapStart / pageSize + 1024) * pageSize = userHeapStart + 1024 * pageSize by decide, hnone] at hin
      cases hin

end Fos.Fault
