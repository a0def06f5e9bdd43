/-
The block allocator over runs of `alloc_block` and `free_block` from `initialize_dynamic_allocator`,
for every provider of pages. A call that waits leaves the lists alone; when the flag is cleared it
starts again, which is a further call.
-/
import Fos.Heap.DynAllocInv
import Fos.Lib.Trace

namespace Fos.Heap

open Fos.Lib Fos.Lib.Extent DynAlloc

variable {M : Type} {src : PageSource M}

/-! ## The calls -/

/-- The invariant between calls: no page with a size class is wholly free. -/
structure DynAlloc.Ok (n : Nat) (s : DynAlloc) (live : List LiveBlock) : Prop where
  inv : Inv n s live
  used : ∀ p < n, s.Used p

theorem DynAlloc.Ok.perm {n : Nat} {s : DynAlloc} {live live' : List LiveBlock} (h : s.Ok n live)
    (hp : live.Perm live') :
    s.Ok n live' := ⟨h.inv.perm hp, h.used⟩

/-- The blocks in use after `alloc_block` of `size` bytes. -/
def AllocResult.grant (r : AllocResult) (size : Nat) (live : List LiveBlock) : List LiveBlock :=
  match r with
  | .block va => ⟨va, size⟩ :: live
  | _ => live

variable (src) in
/-- `alloc_block` keeps the invariant, with the block it returns in use and large enough; it fails
only where `get_page` fails. -/
theorem allocBlock_spec {n : Nat} {s : DynAlloc} {live : List LiveBlock} (h : Ok n s live) (m : M) {size : Nat}
    (hs : size ≤ 2048) :
    (∃ e pageVa, src.getPage m pageVa = .error e ∧ allocBlock src s m size = .error e) ∨
    ∃ r s' m', allocBlock src s m size = .ok (r, s', m') ∧ Ok n s' (r.grant size live) := by
  have hmax : ¬ dynAllocMaxBlockSize < size := by simp only [dynAllocMaxBlockSize]; omega
  by_cases h0 : size = 0
  · exact .inr ⟨.null, s, m, by simp only [allocBlock, if_neg hmax, if_pos h0], h⟩
  · obtain ⟨k, hk, hcls, hle⟩ := sizeClass_spec hs
    have hmin : min size maxBlockSize = size := min_eq_left hs
    simp only [allocBlock, if_neg hmax, if_neg h0, hmin, hcls]
    by_cases hlist : s.freeBlockLists k ≠ []
    · -- case 1: a free block of the class
      obtain ⟨b, rest, hl⟩ := List.exists_cons_of_ne_nil hlist
      obtain ⟨s', htake, hI, hU⟩ := h.inv.take hk hl hle
      refine .inr ⟨.block b, s', m, ?_, hI, hU fun p hp _ => h.used p hp⟩
      rw [if_pos hlist, htake]; rfl
    · rw [if_neg hlist]
      cases hfp : s.freePagesList with
      | cons p rest =>
        -- case 2: split a free page
        have hpn := (h.inv.freePages p (by rw [hfp]; exact List.mem_cons_self)).1
        have hfits := h.inv.fits
        have hlt := h.inv.endLt
        have hn := h.inv.pages
        have hva : toPageVa s p = .ok (s.dynAllocStart + p * 4096) := by
          have hmp : ¬ maxPages ≤ p := by
            have : maxPages = 8192 := rfl
            omega
          rw [toPageVa, if_neg hmp, pageSize, mul32_of_lt (by omega), add32_of_lt (by omega)]
        cases hget : src.getPage m (s.dynAllocStart + p * 4096) with
        | error e => exact .inl ⟨e, _, hget, by simp only [hva, ok_bind, hget, error_bind]⟩
        | ok m' =>
          refine .inr ?_
          have hnil : s.freeBlockLists k = [] := by simpa using hlist
          have hsplit := h.inv.split hfp hk
          rw [← splitPage_eq h.inv hpn] at hsplit
          have hl' : (splitPage s p (4096 / (8 * 2 ^ k)) (s.dynAllocStart + p * 4096)
              (8 * 2 ^ k) k rest).freeBlockLists k
              = s.pageBlocks p k := by
            rw [splitPage_eq h.inv hpn]; simp [hnil]
          obtain ⟨b, bs, hb⟩ := List.exists_cons_of_ne_nil (pageBlocks_ne_nil (s := s) hk p)
          obtain ⟨s', htake, hI, hU⟩ := hsplit.take hk (hl'.trans hb) hle
          have hpage : s.page b = p := (mem_pageBlocks hk (by rw [hb]; exact List.mem_cons_self)).2.1
          refine ⟨.block b, s', m', ?_, hI, hU fun q hq hqp => ?_⟩
          · simp only [hva, ok_bind, hget, pageSize, htake]; rfl
          · have hne : q ≠ p := fun he => hqp (he.trans hpage.symm)
            have hinfo : (splitPage s p (4096 / (8 * 2 ^ k)) (s.dynAllocStart + p * 4096) (8 * 2 ^ k) k
                rest).pageBlockInfoArr q = s.pageBlockInfoArr q := by
              rw [splitPage_eq h.inv hpn]; simp [hne]
            intro j hj hsz
            rw [hinfo] at hsz ⊢
            exact h.used q hq j hj hsz
      | nil =>
        simp only
        cases hfind : (List.range' k (8 - k)).find? (fun i => s.freeBlockLists i ≠ []) with
        | some i =>
          -- case 3: a free block of a larger class
          have hi := List.mem_range'_1.1 (List.mem_of_find?_eq_some hfind)
          have hne : s.freeBlockLists i ≠ [] := by simpa using List.find?_some hfind
          obtain ⟨b, rest, hl⟩ := List.exists_cons_of_ne_nil hne
          have hki : 8 * 2 ^ k ≤ 8 * 2 ^ i := Nat.mul_le_mul_left 8 (Nat.pow_le_pow_right (by decide) hi.1)
          obtain ⟨s', htake, hI, hU⟩ := h.inv.take (by omega) hl (le_trans hle hki)
          exact .inr ⟨.block b, s', m, by simp only [htake, ok_bind]; rfl, hI, hU fun p hp _ => h.used p hp⟩
        | none =>
          exact .inr ⟨.waits, { s with blockedVarDynallocAllocFunc := 1 }, m, by simp only [hfp],
            h.inv.setFlag 1, h.used⟩

variable (src) in
/-- `free_block` of a block in use keeps the invariant; it fails only where `return_page` fails. -/
theorem freeBlock_spec {n va size : Nat} {s : DynAlloc} {live : List LiveBlock} (h : Ok n s (⟨va, size⟩ :: live))
    (m : M) :
    (∃ e pageVa, src.returnPage m pageVa = .error e ∧ freeBlock src s m va = .error e) ∨
    ∃ s' m', freeBlock src s m va = .ok (s', m') ∧ Ok n s' live := by
  obtain ⟨k, hB, -, -⟩ : ∃ k, s.Block n k va ∧ size ≤ 8 * 2 ^ k ∧ va ∉ s.freeBlockLists k :=
    h.inv.liveBlock ⟨va, size⟩ List.mem_cons_self
  have hk := hB.cls
  obtain ⟨hidx, hpva⟩ := Block.index h.inv hB
  have hin : ¬ (va < s.dynAllocStart ∨ s.dynAllocEnd ≤ va) := by
    have h1 := hB.lo
    have h2 := Block.below h.inv hB
    have h3 := class_pos k
    omega
  have hne : ¬ 8 * 2 ^ k = 0 := (class_pos k).ne'
  have hinc : ((s.pageBlockInfoArr (s.page va)).numOfFreeBlocks + 1) % 65536 =
      (s.pageBlockInfoArr (s.page va)).numOfFreeBlocks + 1 :=
    Nat.mod_eq_of_lt (by have := h.inv.num_le hB.page hk hB.size; omega)
  simp only [freeBlock, if_neg hin, hidx, hB.size, if_neg hne, sizeClass_class hk, hinc, hpva]
  by_cases hfull : pageSize / (8 * 2 ^ k) ≤ (s.pageBlockInfoArr (s.page va)).numOfFreeBlocks + 1
  · simp only [if_pos hfull]
    cases hret : src.returnPage m (s.dynAllocStart + s.page va * 4096) with
    | error e => exact .inl ⟨e, _, hret, by simp only [error_bind]⟩
    | ok m' =>
      refine .inr ⟨_, m', by simp only [ok_bind]; rfl, ?_⟩
      -- the addresses compared are those of the page
      have hend : add32 (s.dynAllocStart + s.page va * 4096) pageSize = s.dynAllocStart + (s.page va + 1) * 4096 := by
        have h1 := h.inv.fits
        have h2 := h.inv.endLt
        have h3 := hB.page
        rw [pageSize, add32_of_lt (by omega)]; omega
      have hfilter : (s.freeBlockLists k).filter (fun c => ¬ (s.dynAllocStart + s.page va * 4096 ≤ c ∧
          c < add32 (s.dynAllocStart + s.page va * 4096) pageSize)) =
          (s.freeBlockLists k).filter fun c => ¬ s.page c = s.page va := by
        rw [hend]
        apply List.filter_congr
        intro c hc
        have hlo := (h.inv.listBlock k hk c hc).lo
        have hiff : (s.dynAllocStart + s.page va * 4096 ≤ c ∧ c < s.dynAllocStart + (s.page va + 1) * 4096) ↔
            s.page c = s.page va := by
          simp only [DynAlloc.page]; omega
        simp only [hiff]
      rw [hfilter]
      refine ⟨h.inv.givePage hB hfull, fun p hp j hj hsz => ?_⟩
      by_cases hpv : p = s.page va
      · subst hpv
        simp only [setInfo_info, if_true] at hsz
        exact absurd hsz (class_pos j).ne
      · simp only [setInfo_info, if_neg hpv, setList_info] at hsz ⊢
        exact h.used p hp j hj hsz
  · simp only [if_neg hfull]
    refine .inr ⟨_, m, rfl, (h.inv.giveBlock hB (by simpa using hfull)).setFlag 0, fun p hp j hj hsz => ?_⟩
    by_cases hpv : p = s.page va
    · subst hpv
      simp only [setList_info, setInfo_info, if_true] at hsz ⊢
      rw [← hsz]
      simpa using hfull
    · simp only [setList_info, setInfo_info, if_neg hpv] at hsz ⊢
      exact h.used p hp j hj hsz

theorem initialize_empty {d d' : DynAlloc} {daStart daEnd : Nat}
    (h : initializeDynamicAllocator d daStart daEnd = .ok d') :
    d'.dynAllocStart = daStart ∧ d'.freePagesList = List.range (sub32 daEnd daStart / pageSize) ∧
      ∀ k < 9, d'.freeBlockLists k = [] := by
  unfold initializeDynamicAllocator at h
  split at h
  · cases h
  · cases h
    exact ⟨rfl, rfl, fun k hk => if_pos hk⟩

/-- The area as `initialize_dynamic_allocator` leaves it. -/
theorem initialize_ok {s s' : DynAlloc} {daStart daEnd : Nat} (hpage : daStart % 4096 = 0) (hpos : 0 < daStart)
    (hle : daStart ≤ daEnd) (hend : daEnd < 4294967296)
    (h : initializeDynamicAllocator s daStart daEnd = .ok s') : Ok ((daEnd - daStart) / 4096) s' [] := by
  simp only [initializeDynamicAllocator] at h
  split at h
  · cases h
  · rename_i hassert
    cases h
    have hsub : sub32 daEnd daStart / pageSize = (daEnd - daStart) / 4096 := by rw [sub32_of_le hle hend]; rfl
    have hn : (daEnd - daStart) / 4096 ≤ 8192 := by
      simp only [add32, dynAllocMaxSize, not_lt] at hassert
      omega
    have hinfo : ∀ p < (daEnd - daStart) / 4096, ∀ i : PageInfoElement,
        (if p < (daEnd - daStart) / 4096 then (⟨0, 0⟩ : PageInfoElement) else i) = ⟨0, 0⟩ := fun p hp i => if_pos hp
    simp only [hsub]
    constructor
    · constructor
      · exact hpage
      · exact hpos
      · exact hn
      · simp only; omega
      · rfl
      · exact hend
      · exact List.nodup_range
      · exact fun p hp => ⟨List.mem_range.1 hp, hinfo p (List.mem_range.1 hp) _⟩
      · exact fun p hp hpf => absurd (List.mem_range.2 hp) hpf
      · intro k hk
        simp only [if_pos (show k < 9 by omega)]
        exact List.nodup_nil
      · intro k hk b hb
        simp only [if_pos (show k < 9 by omega)] at hb
        exact absurd hb List.not_mem_nil
      · exact List.nodup_nil
      · exact fun b hb => absurd hb List.not_mem_nil
      · intro p hp k hk hsz
        simp only [hinfo p hp] at hsz
        exact absurd hsz (class_pos k).ne
      · intro p hp k hk hsz
        simp only [hinfo p hp] at hsz
        exact absurd hsz (class_pos k).ne
    · intro p hp k hk hsz
      simp only [hinfo p hp] at hsz
      exact absurd hsz (class_pos k).ne

/-! ## Runs -/

/-- An allocator with its pages and the blocks in use. -/
structure BlockRun (M : Type) where
  alloc : DynAlloc
  mem : M
  live : List LiveBlock

inductive BlockCall where
  | allocBlock (size : Nat)
  | freeBlock (va : Nat)

/-- One call: sizes up to the largest block, frees of blocks in use. -/
inductive BlockStep (src : PageSource M) : BlockRun M → BlockCall → BlockRun M → Prop where
  | alloc {d : BlockRun M} {size : Nat} {r : AllocResult} {s : DynAlloc} {m : M} (hs : size ≤ 2048)
      (h : allocBlock src d.alloc d.mem size = .ok (r, s, m)) :
      BlockStep src d (.allocBlock size) ⟨s, m, r.grant size d.live⟩
  | free {d : BlockRun M} {b : LiveBlock} {live : List LiveBlock} {s : DynAlloc} {m : M} (hb : d.live.Perm (b :: live))
      (h : freeBlock src d.alloc d.mem b.va = .ok (s, m)) :
      BlockStep src d (.freeBlock b.va) ⟨s, m, live⟩

theorem BlockStep.ok {n : Nat} (d : BlockRun M) (c : BlockCall) (d' : BlockRun M) (h : Ok n d.alloc d.live)
    (hstep : BlockStep src d c d') : Ok n d'.alloc d'.live := by
  cases hstep with
  | alloc hs hrun =>
    rcases allocBlock_spec src h d.mem hs with ⟨e, va, -, he⟩ | ⟨r, s, m, hr, hok⟩
    · rw [he] at hrun; cases hrun
    · rw [hr] at hrun; cases hrun
      exact hok
  | @free b live s m hb hrun =>
    have hperm : Ok n d.alloc (b :: live) := ⟨h.inv.perm hb, h.used⟩
    rcases freeBlock_spec src hperm d.mem with ⟨e, va, -, he⟩ | ⟨s, m, hr, hok⟩
    · rw [he] at hrun; cases hrun
    · rw [hr] at hrun; cases hrun
      exact hok

/-- The bytes of the block at `b`. -/
def DynAlloc.extent (s : DynAlloc) (b : Nat) : Extent := ⟨b, (s.pageBlockInfoArr (s.page b)).blockSize⟩

/-- The blocks of page `p` on list `k`. -/
def DynAlloc.listed (s : DynAlloc) (k p : Nat) : List Nat :=
  (s.freeBlockLists k).filter fun b => s.dynAllocStart + p * pageSize ≤ b ∧ b < s.dynAllocStart + (p + 1) * pageSize

/-- Page `p` is free: on the list of free pages exactly once, with no size and no free blocks. -/
def DynAlloc.PageFree (s : DynAlloc) (p : Nat) : Prop :=
  s.freePagesList.count p = 1 ∧ s.pageBlockInfoArr p = ⟨0, 0⟩

/-- Page `p` is split into blocks of class `k`: its free blocks are on list `k` without duplicates, as
many as counted and fewer than the page holds, each aligned to its size. -/
structure DynAlloc.PageSplit (s : DynAlloc) (p k : Nat) : Prop where
  notFree : p ∉ s.freePagesList
  size : (s.pageBlockInfoArr p).blockSize = 8 * 2 ^ k
  few : (s.pageBlockInfoArr p).numOfFreeBlocks < pageSize / (8 * 2 ^ k)
  nodup : (s.listed k p).Nodup
  counted : (s.listed k p).length = (s.pageBlockInfoArr p).numOfFreeBlocks
  aligned : ∀ b ∈ s.listed k p, b % (8 * 2 ^ k) = 0

/-- Every page of the area is free or split, and blocks in use are pairwise disjoint, disjoint from
every free block, and at least as large as requested. -/
structure DynAlloc.Wf (s : DynAlloc) (live : List LiveBlock) : Prop where
  pages : ∀ p < (s.dynAllocEnd - s.dynAllocStart) / pageSize, s.PageFree p ∨ ∃ k ≤ 8, s.PageSplit p k
  disjoint : live.Pairwise fun a b => (s.extent a.va).Disjoint (s.extent b.va)
  free : ∀ a ∈ live, ∀ k ≤ 8, ∀ b ∈ s.freeBlockLists k, (s.extent a.va).Disjoint ⟨b, 8 * 2 ^ k⟩
  large : ∀ a ∈ live, a.size ≤ (s.extent a.va).len

section Wf

variable {n : Nat} {s : DynAlloc} {live : List LiveBlock}

/-- Two different blocks do not overlap. -/
theorem Block.disjoint {j k b c : Nat} (hb : s.Block n j b) (hc : s.Block n k c) (hne : b ≠ c) :
    Extent.Disjoint ⟨b, 8 * 2 ^ j⟩ ⟨c, 8 * 2 ^ k⟩ := by
  apply Apart.disjoint
  have hb1 := hb.lo
  have hc1 := hc.lo
  have hb2 := Block.lt hb
  have hc2 := Block.lt hc
  simp only [Apart, fin]
  rcases Nat.lt_trichotomy (s.page b) (s.page c) with h | h | h
  · left
    simp only [DynAlloc.page] at *; omega
  · -- on one page the blocks have one size, and their offsets are multiples of it
    obtain rfl : j = k := class_inj (hb.size.symm.trans (h ▸ hc.size))
    rcases Nat.lt_or_gt_of_ne hne with hlt | hlt
    · have := dvd_add_le hb.aligned hc.aligned (by omega)
      left; omega
    · have := dvd_add_le hc.aligned hb.aligned (by omega)
      right; omega
  · right
    simp only [DynAlloc.page] at *; omega

theorem DynAlloc.Ok.wf (h : Ok n s live) : s.Wf live := by
  have hI := h.inv
  constructor
  · intro p hp
    have hp : p < n := by rw [hI.area]; exact hp
    by_cases hpf : p ∈ s.freePagesList
    · exact .inl ⟨List.count_eq_one_of_mem hI.freeNodup hpf, (hI.freePages p hpf).2⟩
    · obtain ⟨k, hk, hsz⟩ := hI.sized p hp hpf
      have hlisted : ∀ b ∈ s.freeBlockLists k, (s.dynAllocStart + p * 4096 ≤ b ∧
          b < s.dynAllocStart + (p + 1) * 4096) ↔ s.page b = p := by
        intro b hb
        have hlo := (hI.listBlock k hk b hb).lo
        simp only [DynAlloc.page]; omega
      refine .inr ⟨k, hk, hpf, hsz, h.used p hp k hk hsz, (hI.listNodup k hk).filter _, ?_, fun b hb => ?_⟩
      · rw [DynAlloc.listed, ← List.countP_eq_length_filter, ← hI.freeCount p hp k hk hsz]
        apply List.countP_congr
        intro b hb
        rw [decide_eq_true_iff, decide_eq_true_iff]
        exact hlisted b hb
      · have hb := (List.mem_filter.1 hb).1
        have hB := hI.listBlock k hk b hb
        have hst : 8 * 2 ^ k ∣ s.dynAllocStart :=
          (class_dvd hk).trans (Nat.dvd_of_mod_eq_zero hI.startPage)
        apply Nat.mod_eq_zero_of_dvd
        have := Nat.dvd_add hB.aligned hst
        rwa [Nat.sub_add_cancel hB.lo] at this
  · have hnd := hI.liveNodup
    rw [List.Nodup, List.pairwise_map] at hnd
    refine hnd.imp_of_mem fun {a b} ha hb hne => ?_
    obtain ⟨j, hj, -⟩ := hI.liveBlock a ha
    obtain ⟨k, hk, -⟩ := hI.liveBlock b hb
    simp only [DynAlloc.extent, hj.size, hk.size]
    exact Block.disjoint hj hk hne
  · intro a ha k hk b hb
    obtain ⟨j, hj, -, hnot⟩ := hI.liveBlock a ha
    have hB := hI.listBlock k hk b hb
    simp only [DynAlloc.extent, hj.size]
    apply Block.disjoint hj hB
    rintro rfl
    exact hnot (hj.class_eq hB ▸ hb)
  · intro a ha
    obtain ⟨k, hk, hsz, -⟩ := hI.liveBlock a ha
    simp only [DynAlloc.extent, hk.size]
    exact hsz

end Wf

/-- From `initialize_dynamic_allocator` on, whatever blocks are allocated and freed and whoever
provides the pages, the pages, their counters and lists and the blocks in use agree. -/
theorem block_allocator_wf (src : PageSource M) (s₀ s : DynAlloc) (m : M) (daStart daEnd : Nat)
    (hpage : daStart % pageSize = 0) (hpos : 0 < daStart) (hle : daStart ≤ daEnd) (hend : daEnd < 4294967296)
    (hinit : initializeDynamicAllocator s₀ daStart daEnd = .ok s) (cs : List BlockCall) :
    Always (BlockStep src) (fun d => d.alloc.Wf d.live) ⟨s, m, []⟩ cs :=
  Always.mono (fun _ h => h.wf) (always_of_step BlockStep.ok (initialize_ok hpage hpos hle hend hinit))

/-- The kernel heap's block allocator, over pages that are always there. -/
theorem block_allocator_wf_kernel : ∃ s, initializeDynamicAllocator zeroedAlloc kernelHeapStart
      (kernelHeapStart + dynAllocMaxSize) = .ok s ∧
    Always (BlockStep (M := Unit) ⟨fun m _ => .ok m, fun m _ => .ok m⟩) (fun d => d.alloc.Wf d.live) ⟨s, (), []⟩
      [.allocBlock 100, .allocBlock 2048, .freeBlock kernelHeapStart] := by
  refine ⟨_, rfl, ?_⟩
  exact block_allocator_wf _ zeroedAlloc _ () kernelHeapStart (kernelHeapStart + dynAllocMaxSize) (by decide)
    (by decide) (by decide) (by decide) rfl _

end Fos.Heap
