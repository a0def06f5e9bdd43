/-
The bounds of the user heap on both sides of the system calls: the ranges for which `malloc` and `free` call
`sys_allocate_user_mem` and `sys_free_user_mem`, in every state the heap can reach, against the check of the kernel.
-/
import Fos.Fault.ChunkOperations
import Fos.Heap.FreeRanges
import Fos.Heap.UserHeapRun

namespace Fos.Heap

open Fos.Lib Fos.Fault

/-! ## What holds of the heap whatever the calls did -/

/-- Everything is on page boundaries, and the break is at most the end of the heap. The break may be anywhere below:
a request for a shared object that passes the check by wrapping moves it there. -/
structure UHeap.Paged (s : UHeap) : Prop where
  start : s.uheapPageAllocStart = 2181042176
  breakHi : s.uheapPageAllocBreak ≤ userHeapMax
  breakPage : s.uheapPageAllocBreak % 4096 = 0
  free : ∀ d ∈ s.freeHead, d.startVa % 4096 = 0
  alloc : ∀ a ∈ s.allocHead, a.bedayetEladd % 4096 = 0

theorem uheapInit_paged : uheapInit.Paged := by
  refine ⟨rfl, ?_, ?_, ?_, ?_⟩ <;> simp [uheapInit, add32]

theorem roundUp_page (a : Nat) : roundUp a pageSize % 4096 = 0 := by
  simp only [roundUp, roundDown, pageSize]
  omega

section Starts

/-! Merging starts no range where none started before. -/

variable {P : Nat → Prop}

theorem coalesce_starts : ∀ {l : List FreeBlockNode} {d : FreeBlockNode}, (∀ e ∈ d :: l, P e.startVa) →
    ∀ e ∈ coalesce d l, P e.startVa
  | [], _, h => h
  | n :: l, d, h => by
    have hd := h d List.mem_cons_self
    simp only [coalesce]
    split
    · apply coalesce_starts
      intro e he
      rcases List.mem_cons.1 he with rfl | he
      · exact hd
      · exact h e (List.mem_cons_of_mem _ (List.mem_cons_of_mem _ he))
    · intro e he
      rcases List.mem_cons.1 he with rfl | he
      · exact hd
      · exact coalesce_starts (fun c hc => h c (List.mem_cons_of_mem _ hc)) e he

theorem mergee_starts {l : List FreeBlockNode} (h : ∀ e ∈ l, P e.startVa) : ∀ e ∈ mergee l, P e.startVa := by
  unfold mergee
  split
  · exact h
  · exact h
  · have hp := foldl_insertSorted_perm l []
    rw [List.append_nil] at hp
    split
    · simp
    · rename_i d rest hc
      rw [hc] at hp
      exact coalesce_starts fun e he => h e (hp.mem_iff.1 he)

theorem insertNode_starts {l : List FreeBlockNode} {n : FreeBlockNode} (hn : P n.startVa) (h : ∀ e ∈ l, P e.startVa) :
    ∀ e ∈ insertNode n l, P e.startVa := by
  intro e he
  rcases List.mem_cons.1 ((insertNode_perm n l).mem_iff.1 he) with rfl | he
  · exact hn
  · exact h e he

theorem freeBlockk_starts {l : List FreeBlockNode} {start numPages : Nat} (hs : P start) (h : ∀ e ∈ l, P e.startVa) :
    ∀ e ∈ freeBlockk l start numPages, P e.startVa := by
  unfold freeBlockk
  split
  · exact h
  · split
    · exact h
    · exact insertNode_starts hs h

end Starts

namespace UHeap.Paged

variable {s : UHeap} {n : Nat}

/-- The fit keeps it, and starts at a page boundary. -/
theorem fit (h : s.Paged) (n : Nat) : (customFit s n).2.Paged ∧
    ((s.rangeFor n = none ∧ (customFit s n).1 = 0) ∨
      ∃ d, s.rangeFor n = some d ∧ (customFit s n).1 = d.startVa ∧ d.startVa ≠ 0 ∧ d.startVa % 4096 = 0) := by
  have hfree : (∀ e ∈ (customFit s n).2.freeHead, e.startVa % 4096 = 0) → (customFit s n).2.Paged := fun hf =>
    ⟨(customFit_start s n).trans h.start, by rw [customFit_break]; exact h.breakHi,
      by rw [customFit_break]; exact h.breakPage, hf, by rw [customFit_alloc]; exact h.alloc⟩
  obtain ⟨lost, -, ⟨h1, h2, h3⟩ | ⟨d, left, h1, h2, h3, h4, h5, h6⟩⟩ :=
    customFit_split n h.free (by rw [h.start]; decide)
  · exact ⟨hfree fun e he => h.free e (h3.mem_iff.2 (List.mem_append_right _ he)), .inl ⟨h1, h2⟩⟩
  · have hd := h.free d (h5.mem_iff.2 List.mem_cons_self)
    refine ⟨hfree fun e he => ?_, .inr ⟨d, h1, h4, h2, hd⟩⟩
    rcases List.mem_append.1 (h6.mem_iff.1 he) with he | he
    · -- what is left of the range
      unfold FreeBlockNode.rest at he
      split at he
      · rw [List.mem_singleton] at he
        subst he
        simp only [add32, mul32, pageSize]
        omega
      · exact absurd he List.not_mem_nil
    · exact h.free e (h5.mem_iff.2 (List.mem_cons_of_mem _ (List.mem_append_right _ he)))

/-- A new allocation at a page boundary. -/
theorem listed (h : s.Paged) {va : Nat} (hva : va % 4096 = 0) (size stale : Nat) :
    (allocationGded s va size stale).Paged := by
  refine ⟨h.start, h.breakHi, h.breakPage, h.free, fun a ha => ?_⟩
  rcases List.mem_cons.1 ha with rfl | ha
  · exact hva
  · exact h.alloc a ha

/-- Another break. -/
theorem moved (h : s.Paged) {b : Nat} (hb : b ≤ userHeapMax) (hp : b % 4096 = 0) :
    UHeap.Paged { s with uheapPageAllocBreak := b } :=
  ⟨h.start, hb, hp, h.free, h.alloc⟩

theorem freed (h : s.Paged) {l : List FreeBlockNode} (hl : ∀ d ∈ l, d.startVa % 4096 = 0) :
    UHeap.Paged { s with freeHead := mergee l } :=
  ⟨h.start, h.breakHi, h.breakPage, mergee_starts (P := fun v => v % 4096 = 0) hl, h.alloc⟩

theorem dropped (h : s.Paged) (va : Nat) : UHeap.Paged { s with allocHead := nemsa7allocation s.allocHead va } :=
  ⟨h.start, h.breakHi, h.breakPage, h.free, fun a ha => h.alloc a (List.mem_of_mem_eraseP ha)⟩

end UHeap.Paged

theorem a5erelEnd_le : ∀ {l : List OurAllocationNode} {e : Nat}, e ≤ userHeapMax → a5erelEnd e l ≤ userHeapMax
  | [], _, h => h
  | a :: l, e, h => by
    simp only [a5erelEnd]
    apply a5erelEnd_le
    split
    · rename_i hc
      exact hc.2
    · exact h

/-- Rounding up does not pass the end of the heap. -/
theorem roundUp_max {e : Nat} (h : e ≤ userHeapMax) : roundUp e pageSize ≤ userHeapMax := by
  simp only [userHeapMax, roundUp, roundDown, pageSize] at *
  omega

theorem UHeap.Paged.lowered {s : UHeap} (h : s.Paged) : (ta7dethElBreakTofree s).Paged := by
  have hend : a5erelEnd s.uheapPageAllocStart s.allocHead ≤ userHeapMax := a5erelEnd_le (by rw [h.start]; decide)
  refine h.moved (roundUp_max ?_) (roundUp_page _)
  rw [if_neg (not_lt.2 hend)]
  split
  · rw [h.start]; decide
  · exact hend

/-! ## The ranges of the system calls -/

/-- The range for which `malloc` calls `sys_allocate_user_mem`: a large request that gets an address asked for it. -/
def mallocRange (s : UHeap) (size : Nat) : Option (Nat × Nat) :=
  let address := (malloc s size 0 0).1
  if size ≤ dynAllocMaxBlockSize ∨ address = 0 then none
  else some (address, mul32 (roundUp size pageSize / pageSize) pageSize)

/-- The range for which `free` calls `sys_free_user_mem`. -/
def freeRange (s : UHeap) (virtualAddress : Nat) : Option (Nat × Nat) :=
  if s.uheapPageAllocStart ≤ virtualAddress ∧ virtualAddress < userHeapMax then
    let bdayagdeda := roundDown virtualAddress pageSize
    (findAllocation s.allocHead bdayagdeda).map fun alloc => (bdayagdeda, alloc.size)
  else none

def UCall.range (s : UHeap) : UCall → Option (Nat × Nat)
  | .malloc size _ _ => mallocRange s size
  | .free va => freeRange s va
  | .smalloc .. => none
  | .sget .. => none
  | .sfree .. => none

/-- The kernel accepts the range of the call. -/
def UCall.Accepted (p : UProc) (c : UCall) : Prop := ∀ r, c.range p.heap = some r → legalRange r.1 r.2 = true

instance (p : UProc) (c : UCall) : Decidable (c.Accepted p) :=
  decidable_of_iff ((c.range p.heap).all (fun r => legalRange r.1 r.2) = true) (Option.all_eq_true _ _)

/-- A call that returns: a range that the kernel rejects ends the process. The kernel's answers to the requests for
shared objects are arbitrary. -/
def UReturns (p : UProc) (c : UCall) (p' : UProc) : Prop := c.Accepted p ∧ c.run p = .ok p'

/-- Where the kernel's check passes. For `malloc`: the pages it needs, taken from the start of the free range for the
request or else at the break, end before `USER_HEAP_MAX`; for `free`: the allocation ends before it. -/
def UCall.EndsBelow (p : UProc) : UCall → Prop
  | .malloc size _ _ =>
    let n := roundUp size pageSize / pageSize
    dynAllocMaxBlockSize < size → 0 < n → n * pageSize ≤ userHeapMax - p.heap.uheapPageAllocStart →
      (∀ d, p.heap.rangeFor n = some d → d.startVa < userHeapMax → d.startVa + n * pageSize < userHeapMax) ∧
      (p.heap.rangeFor n = none → p.heap.uheapPageAllocBreak + n * pageSize ≠ userHeapMax)
  | .free va => p.heap.uheapPageAllocStart ≤ va → va < userHeapMax →
      ∀ a, findAllocation p.heap.allocHead (roundDown va pageSize) = some a →
        userHeapStart ≤ add32 (roundDown va pageSize) a.size ∧ add32 (roundDown va pageSize) a.size < userHeapMax
  | .smalloc .. => True
  | .sget .. => True
  | .sfree .. => True

theorem legalRange_iff {va size : Nat} (h1 : 2181042176 ≤ va) (h2 : va < userHeapMax) :
    legalRange va size = true ↔ userHeapStart ≤ add32 va size ∧ add32 va size < userHeapMax := by
  have hz : ¬ va = 0 := by omega
  have hlo : ¬ va < userHeapStart := by simp only [userHeapStart]; omega
  have hhi : ¬ userHeapMax ≤ va := by omega
  unfold legalRange
  rw [decide_eq_false hz, decide_eq_false hlo, decide_eq_false hhi, Bool.not_eq_true', Bool.or_eq_false_iff,
    Bool.or_eq_false_iff, decide_eq_false_iff_not, decide_eq_false_iff_not, not_lt, not_le]
  exact ⟨fun h => ⟨h.2, h.1.2⟩, fun h => ⟨⟨rfl, h.2⟩, h.1⟩⟩

section Calls

variable {s : UHeap}

/-- `malloc` refuses a large request, or ends with the address of a fit or with the break. -/
theorem malloc_spec (h : s.Paged) {size : Nat} (blk stale : Nat) (hb : dynAllocMaxBlockSize < size) :
    let n := roundUp size pageSize / pageSize
    (∃ t, (t = s ∨ t = (customFit s n).2) ∧ malloc s size blk stale = (0, t) ∧
      (0 < n → n ≤ 122879 → s.rangeFor n = none ∧ userHeapMax < s.uheapPageAllocBreak + n * 4096)) ∨
    (0 < n ∧ n ≤ 122879 ∧ ∃ b a, s.uheapPageAllocBreak ≤ b ∧ b ≤ userHeapMax ∧ b % 4096 = 0 ∧ a % 4096 = 0 ∧
      malloc s size blk stale = mallocAt { (customFit s n).2 with uheapPageAllocBreak := b } a (n * 4096) stale ∧
      ((∃ d, s.rangeFor n = some d ∧ a = d.startVa) ∨
        (s.rangeFor n = none ∧ a = s.uheapPageAllocBreak ∧ s.uheapPageAllocBreak + n * 4096 ≤ userHeapMax))) := by
  intro n
  have hhi := h.breakHi
  have hbp := h.breakPage
  simp only [userHeapMax] at hhi
  have h0 : ¬ size = 0 := by simp only [dynAllocMaxBlockSize] at hb; omega
  have h1 : ¬ size ≤ dynAllocMaxBlockSize := by omega
  have hn : roundUp size pageSize / pageSize = n := rfl
  have hcap : sub32 userHeapMax s.uheapPageAllocStart / pageSize = 122879 := by rw [h.start]; rfl
  by_cases hc : n = 0 ∨ 122879 < n
  · refine .inl ⟨s, .inl rfl, ?_, fun hpos hle => by omega⟩
    simp only [malloc, h0, h1, if_false, hn, hcap, if_pos hc]
  · have hneed : mul32 n pageSize = n * 4096 := mul32_of_lt (by simp only [pageSize]; omega)
    have hgrow : add32 s.uheapPageAllocBreak (n * 4096) = s.uheapPageAllocBreak + n * 4096 := add32_of_lt (by omega)
    obtain ⟨-, ⟨hr, hz⟩ | ⟨d, hr, hz, hne, hd⟩⟩ := h.fit n
    · -- nothing fits: the break
      by_cases hmax : userHeapMax < s.uheapPageAllocBreak + n * 4096
      · refine .inl ⟨_, .inr rfl, ?_, fun _ _ => ⟨hr, hmax⟩⟩
        simp only [malloc, h0, h1, if_false, hn, hcap, if_neg hc, if_pos hz, customFit_break, hneed, hgrow, if_pos hmax]
      · refine .inr ⟨by omega, by omega, s.uheapPageAllocBreak + n * 4096, _, by omega, not_lt.1 hmax, by omega, hbp,
          ?_, .inr ⟨hr, rfl, not_lt.1 hmax⟩⟩
        simp only [malloc, h0, h1, if_false, hn, hcap, if_neg hc, if_pos hz, customFit_break, hneed, hgrow, if_neg hmax]
    · refine .inr ⟨by omega, by omega, _, _, le_rfl, h.breakHi, hbp, hd, ?_, .inl ⟨d, hr, rfl⟩⟩
      have hnz : ¬ (customFit s n).1 = 0 := by rw [hz]; exact hne
      simp only [malloc, h0, h1, if_false, hn, hcap, if_neg hc, if_neg hnz, hneed]
      rw [hz, ← customFit_break s n]

/-- The end of `malloc` hands out an address of the page allocator's part of the heap. -/
theorem mallocAt_spec (h : s.Paged) {a : Nat} (n stale : Nat) (ha : a % 4096 = 0) :
    (¬ (2181042176 ≤ a ∧ a < userHeapMax) ∧ mallocAt s a (n * 4096) stale = (0, s)) ∨
    (2181042176 ≤ a ∧ a < userHeapMax ∧ (mallocAt s a (n * 4096) stale).1 = a ∧
      (add32 a (n * 4096) ≤ userHeapMax → (mallocAt s a (n * 4096) stale).2.Paged)) := by
  unfold mallocAt
  rw [h.start]
  by_cases hin : a < 2181042176 ∨ userHeapMax ≤ a
  · rw [if_pos hin]
    exact .inl ⟨by omega, rfl⟩
  · rw [if_neg hin]
    refine .inr ⟨by omega, by omega, rfl, fun hle => ?_⟩
    have hl := h.listed ha (n * 4096) stale
    simp only
    split
    · apply hl.moved hle
      simp only [add32]
      omega
    · exact hl

/-- The range of `malloc` passes the check exactly if its pages end below the end of the heap. -/
theorem malloc_accepted {p : UProc} (h : p.heap.Paged) (size blk stale : Nat) :
    (UCall.malloc size blk stale).Accepted p ↔ (UCall.malloc size blk stale).EndsBelow p := by
  have hst : userHeapMax - p.heap.uheapPageAllocStart = 122879 * 4096 := by rw [h.start]; rfl
  simp only [UCall.Accepted, UCall.range, mallocRange, UCall.EndsBelow, hst]
  by_cases hb : dynAllocMaxBlockSize < size
  · have hsmall : ¬ size ≤ dynAllocMaxBlockSize := by omega
    simp only [hsmall, false_or, hb, forall_true_left]
    obtain ⟨t, -, hm, hno⟩ | ⟨hpos, hle, b, a, -, hbhi, hbp, ha, hm, hcase⟩ := malloc_spec h 0 0 hb
    · simp only [hm, if_true, reduceCtorEq, false_imp_iff, implies_true, true_iff]
      intro hpos hle
      obtain ⟨hr, hmax⟩ := hno hpos (by simp only [pageSize] at hle ⊢; omega)
      rw [hr]
      exact ⟨fun d hd => (Option.some_ne_none d hd.symm).elim, fun _ => by simp only [pageSize] at hmax ⊢; omega⟩
    · generalize hn : roundUp size pageSize / pageSize = n at *
      have hneed : mul32 n pageSize = n * 4096 := mul32_of_lt (by simp only [pageSize]; omega)
      -- the address the request got, in the terms of the condition
      have hcond : (0 < n → n * pageSize ≤ 122879 * 4096 →
          (∀ d, p.heap.rangeFor n = some d → d.startVa < userHeapMax → d.startVa + n * pageSize < userHeapMax) ∧
          (p.heap.rangeFor n = none → p.heap.uheapPageAllocBreak + n * pageSize ≠ userHeapMax)) ↔
          (a < userHeapMax → a + n * 4096 < userHeapMax) := by
        simp only [pageSize, hpos, show n * 4096 ≤ 122879 * 4096 by omega, forall_true_left]
        rcases hcase with ⟨d, hr, rfl⟩ | ⟨hr, rfl, hmax⟩
        · simp [hr]
        · simp only [hr, reduceCtorEq, false_imp_iff, implies_true, true_and, forall_true_left, ne_eq]
          omega
      rw [hcond, hm, hneed]
      rcases mallocAt_spec ((h.fit n).1.moved hbhi hbp) n 0 ha with ⟨hout, hz⟩ | ⟨h1, h2, h3, -⟩
      · simp only [hz, if_true, reduceCtorEq, false_imp_iff, implies_true, true_iff]
        simp only [userHeapMax] at hout ⊢
        omega
      · have hne : ¬ a = 0 := by omega
        have hend : add32 a (n * 4096) = a + n * 4096 := add32_of_lt (by simp only [userHeapMax] at h2; omega)
        simp only [h3, if_neg hne, Option.some.injEq, forall_eq', legalRange_iff h1 h2, hend, h2, forall_true_left]
        simp only [userHeapStart, userHeapMax]
        omega
  · rw [if_pos (.inl (not_lt.1 hb))]
    exact ⟨fun _ h => absurd h hb, fun _ r hr => (Option.some_ne_none r hr.symm).elim⟩

theorem free_accepted {p : UProc} (h : p.heap.Paged) (va : Nat) :
    (UCall.free va).Accepted p ↔ (UCall.free va).EndsBelow p := by
  simp only [UCall.Accepted, UCall.range, freeRange, UCall.EndsBelow]
  rw [h.start]
  by_cases hin : 2181042176 ≤ va ∧ va < userHeapMax
  · have h1 : 2181042176 ≤ roundDown va pageSize := by simp only [roundDown, pageSize]; omega
    have h2 : roundDown va pageSize < userHeapMax := by
      have := hin.2
      simp only [roundDown, pageSize, userHeapMax] at *
      omega
    rw [if_pos hin]
    simp only [hin.1, hin.2, forall_true_left]
    cases hf : findAllocation p.heap.allocHead (roundDown va pageSize) with
    | none => simp
    | some a => simp only [Option.map_some, Option.some.injEq, forall_eq', legalRange_iff h1 h2]
  · rw [if_neg hin]
    simp only [reduceCtorEq, false_imp_iff, implies_true, true_iff]
    exact fun h1 h2 => absurd ⟨h1, h2⟩ hin

theorem ta7dethElBreakTofree_freeHead (s : UHeap) : (ta7dethElBreakTofree s).freeHead = s.freeHead := by
  simp only [ta7dethElBreakTofree]

/-- A `free` that returns did nothing, or the allocation it found is free. -/
theorem free_ok {va : Nat} {t : UHeap} (hrun : free s va = .ok t) :
    t = s ∨ ∃ a, findAllocation s.allocHead (roundDown va pageSize) = some a ∧
      t = { ta7dethElBreakTofree { s with allocHead := nemsa7allocation s.allocHead (roundDown va pageSize) } with
        freeHead := mergee (freeBlockk s.freeHead (roundDown va pageSize) (a.size / pageSize)) } := by
  unfold free at hrun
  split at hrun
  · cases hrun; exact .inl rfl
  split at hrun
  · cases hrun; exact .inl rfl
  split at hrun
  · cases hf : findAllocation s.allocHead (roundDown va pageSize) with
    | none => simp only [hf] at hrun; cases hrun
    | some a =>
      simp only [hf, ta7dethElBreakTofree_freeHead] at hrun
      exact .inr ⟨a, rfl, (Except.ok.inj hrun).symm⟩
  · cases hrun

theorem free_paged (h : s.Paged) {va : Nat} {t : UHeap} (hrun : free s va = .ok t) : t.Paged := by
  obtain rfl | ⟨a, -, rfl⟩ := free_ok hrun
  · exact h
  · have hd := (h.dropped (roundDown va pageSize)).lowered
    have hpage : roundDown va pageSize % 4096 = 0 := by
      simp only [roundDown, pageSize]
      omega
    exact hd.freed (freeBlockk_starts (P := fun v => v % 4096 = 0) hpage h.free)

theorem shareAt_paged (h : s.Paged) (va n : Nat) (ret : Int) (stale : Nat) : (shareAt s va n ret stale).2.Paged := by
  have hva := roundUp_page va
  unfold shareAt
  simp only
  split
  · split
    · split
      · rename_i hin hprev
        have hhi := h.breakHi
        exact h.moved (by omega) (by rw [← hprev]; exact hva)
      · exact h.freed (freeBlockk_starts (P := fun v => v % 4096 = 0) hva h.free)
    · exact h
  · exact h.listed hva _ _

theorem placeShared_paged (h : s.Paged) (n : Nat) (ret : Int) (stale : Nat) : (placeShared s n ret stale).2.Paged := by
  have hst : alignStart s = s := by simp only [alignStart, h.start, pageSize]; rfl
  obtain ⟨hfit, -⟩ := h.fit n
  unfold placeShared
  simp only [hst]
  split
  · exact h
  split
  · split
    · exact hfit
    · rename_i hmax
      have hbp := hfit.breakPage
      refine shareAt_paged (hfit.moved (not_lt.1 hmax) ?_) _ _ _ _
      simp only [add32, mul32, pageSize]
      omega
  · exact shareAt_paged hfit _ _ _ _

theorem sfree_paged (h : s.Paged) (va : Nat) (ret : Int) : (sfree s va ret).Paged := by
  unfold sfree
  cases hf : findAllocation s.allocHead va with
  | none => exact h
  | some a =>
    simp only
    split
    · exact h
    · have hva : va % 4096 = 0 := by
        have hav : a.bedayetEladd = va := by simpa using List.find?_some hf
        rw [← hav]
        exact h.alloc a (List.mem_of_find?_eq_some hf)
      exact (h.dropped va).freed (insertNode_starts (P := fun v => v % 4096 = 0) hva h.free)

theorem malloc_paged {p : UProc} (h : p.heap.Paged) {size blk stale : Nat}
    (hacc : (UCall.malloc size blk stale).Accepted p) : (malloc p.heap size blk stale).2.Paged := by
  have hcond := (malloc_accepted h size blk stale).1 hacc
  by_cases hb : dynAllocMaxBlockSize < size
  · obtain ⟨t, ht, hm, -⟩ | ⟨hpos, hle, b, a, -, hbhi, hbp, ha, hm, hcase⟩ := malloc_spec h blk stale hb
    · rw [hm]
      rcases ht with rfl | rfl
      · exact h
      · exact (h.fit _).1
    · rw [hm]
      have ht := (h.fit (roundUp size pageSize / pageSize)).1.moved hbhi hbp
      rcases mallocAt_spec ht (roundUp size pageSize / pageSize) stale ha with ⟨-, hz⟩ | ⟨h1, h2, -, h4⟩
      · rw [hz]; exact ht
      · apply h4
        -- the kernel has accepted the range
        have hroom : roundUp size pageSize / pageSize * pageSize ≤ userHeapMax - p.heap.uheapPageAllocStart := by
          rw [h.start]
          exact Nat.mul_le_mul_right pageSize hle
        obtain ⟨hd, -⟩ := hcond hb hpos hroom
        have hend : a + roundUp size pageSize / pageSize * 4096 ≤ userHeapMax := by
          rcases hcase with ⟨d, hr, rfl⟩ | ⟨-, rfl, hmax⟩
          · exact (hd d hr h2).le
          · exact hmax
        rw [add32_of_lt (by simp only [userHeapMax] at hend; omega)]
        exact hend
  · have hz : (malloc p.heap size blk stale).2 = p.heap := by
      simp only [malloc, if_pos (not_lt.1 hb)]; split <;> rfl
    rw [hz]; exact h

/-- A call that returns keeps everything on page boundaries. -/
theorem UReturns.paged (p : UProc) (c : UCall) (p' : UProc) (h : p.heap.Paged) (hstep : UReturns p c p') :
    p'.heap.Paged := by
  obtain ⟨hacc, hrun⟩ := hstep
  cases c with
  | malloc size blk stale =>
    obtain rfl := Except.ok.inj hrun.symm
    exact malloc_paged h hacc
  | free va =>
    obtain ⟨t, ht, hp'⟩ := bind_ok hrun
    obtain rfl := Except.ok.inj hp'.symm
    exact free_paged h ht
  | smalloc size ret stale =>
    obtain rfl := Except.ok.inj hrun.symm
    show (smalloc p.heap size ret stale).2.Paged
    unfold smalloc
    split
    · exact h
    · exact placeShared_paged h _ _ _
  | sget size ret stale =>
    obtain rfl := Except.ok.inj hrun.symm
    show (sget p.heap size ret stale).2.Paged
    unfold sget
    split
    · exact h
    · exact placeShared_paged h _ _ _
  | sfree va ret =>
    obtain rfl := Except.ok.inj hrun.symm
    exact sfree_paged h va ret

end Calls

/-- In every state the user heap can reach, the kernel accepts the range of a `malloc` or `free` exactly if the range
ends below `USER_HEAP_MAX`. -/
theorem user_heap_bounds (cs : List UCall) :
    Always UReturns (fun p => ∀ c : UCall, c.Accepted p ↔ c.EndsBelow p) uprocInit cs := by
  have hpaged : Always UReturns (fun p => p.heap.Paged) uprocInit cs := always_of_step UReturns.paged uheapInit_paged
  apply hpaged.mono
  intro p h c
  cases c with
  | malloc size blk stale => exact malloc_accepted h size blk stale
  | free va => exact free_accepted h va
  | smalloc => exact ⟨fun _ => trivial, fun _ r hr => (Option.some_ne_none r hr.symm).elim⟩
  | sget => exact ⟨fun _ => trivial, fun _ r hr => (Option.some_ne_none r hr.symm).elim⟩
  | sfree => exact ⟨fun _ => trivial, fun _ r hr => (Option.some_ne_none r hr.symm).elim⟩

/-- The first request of a process is for all of the heap: it is given the range up to `USER_HEAP_MAX`. -/
theorem user_heap_full :
    ¬ Always UReturns (fun p => ∀ c : UCall, c.Accepted p) uprocInit [] := by
  intro h
  exact absurd (h (.malloc 503312384 0 0)) (by decide)

end Fos.Heap
