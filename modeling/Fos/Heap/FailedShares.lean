/-
Requests for shared objects that the kernel refuses: when `smalloc` and `sget` put the break, the free pages and the
allocations back, in every run of the heap's calls.
-/
import Fos.Heap.UserHeapBounds

namespace Fos.Heap

open Fos.Lib Fos.Fault

/-! ## What holds of the heap while no request wraps -/

/-- Free ranges and allocations are whole pages of the page allocator's part of the heap, and so is what lies below the
break. Free ranges may overlap. -/
structure UHeap.Whole (s : UHeap) : Prop where
  start : s.uheapPageAllocStart = 2181042176
  breakLo : 2181042176 ≤ s.uheapPageAllocBreak
  breakHi : s.uheapPageAllocBreak ≤ userHeapMax
  breakPage : s.uheapPageAllocBreak % 4096 = 0
  free : ∀ d ∈ s.freeHead, d.Inside
  alloc : ∀ a ∈ s.allocHead, FreeBlockNode.Inside ⟨a.bedayetEladd, a.size / 4096⟩ ∧ a.size % 4096 = 0

theorem uheapInit_whole : uheapInit.Whole := by
  refine ⟨rfl, ?_, ?_, ?_, ?_, ?_⟩ <;> simp [uheapInit, add32]

namespace UHeap.Whole

variable {s : UHeap} {n : Nat}

theorem paged (h : s.Whole) : s.Paged :=
  ⟨h.start, h.breakHi, h.breakPage, fun d hd => (h.free d hd).start, fun a ha => (h.alloc a ha).1.start⟩

/-- The fit: the free list is what was there, or the range for the request and what it leaves. -/
theorem split (h : s.Whole) (n : Nat) :
    (s.rangeFor n = none ∧ (customFit s n).1 = 0 ∧ s.freeHead.Perm (customFit s n).2.freeHead) ∨
    ∃ d, s.rangeFor n = some d ∧ d.Inside ∧ n ≤ d.numPages ∧ (customFit s n).1 = d.startVa ∧ d ∈ s.freeHead ∧
      (customFit s n).2.freeHead.Perm (d.rest n ++ s.freeHead.erase d) := by
  obtain ⟨lost, hlost, ⟨h1, h2, h3⟩ | ⟨d, left, h1, -, h3, h4, h5, h6⟩⟩ :=
    customFit_split n h.paged.free (by rw [h.start]; decide)
  · -- no range starts at address `0`
    have hnil : lost = [] := List.eq_nil_iff_forall_not_mem.2 fun d hd => by
      have hlo := (h.free d (h3.mem_iff.2 (List.mem_append_left _ hd))).lo
      have := hlost d hd
      omega
    subst hnil
    exact .inl ⟨h1, h2, h3⟩
  · have hnil : lost = [] := List.eq_nil_iff_forall_not_mem.2 fun e he => by
      have hlo := (h.free e (h5.mem_iff.2 (List.mem_cons_of_mem _ (List.mem_append_left _ he)))).lo
      have := hlost e he
      omega
    subst hnil
    have hd : d ∈ s.freeHead := h5.mem_iff.2 List.mem_cons_self
    have hleft : left.Perm (s.freeHead.erase d) := List.Perm.cons_inv (h5.symm.trans (List.perm_cons_erase hd))
    exact .inr ⟨d, h1, h.free d hd, h3, h4, hd, h6.trans (hleft.append_left _)⟩

theorem fit (h : s.Whole) (n : Nat) : (customFit s n).2.Whole := by
  have hfree : (∀ e ∈ (customFit s n).2.freeHead, e.Inside) → (customFit s n).2.Whole := fun hf =>
    ⟨(customFit_start s n).trans h.start, by rw [customFit_break]; exact h.breakLo,
      by rw [customFit_break]; exact h.breakHi, by rw [customFit_break]; exact h.breakPage, hf, by rw [customFit_alloc]; exact h.alloc⟩
  rcases h.split n with ⟨-, -, hp⟩ | ⟨d, -, hd, hn, -, hmem, hp⟩
  · exact hfree fun e he => h.free e (hp.mem_iff.2 he)
  · apply hfree
    intro e he
    rcases List.mem_append.1 (hp.mem_iff.1 he) with he | he
    · exact ((hd.split hn).2 e he).1
    · exact h.free e (List.mem_of_mem_erase he)

theorem moved (h : s.Whole) {b : Nat} (hlo : 2181042176 ≤ b) (hb : b ≤ userHeapMax) (hp : b % 4096 = 0) :
    UHeap.Whole { s with uheapPageAllocBreak := b } :=
  ⟨h.start, hlo, hb, hp, h.free, h.alloc⟩

theorem listed (h : s.Whole) {va n : Nat} (hva : FreeBlockNode.Inside ⟨va, n⟩) (stale : Nat) :
    (allocationGded s va (n * 4096) stale).Whole := by
  refine ⟨h.start, h.breakLo, h.breakHi, h.breakPage, h.free, fun a ha => ?_⟩
  rcases List.mem_cons.1 ha with rfl | ha
  · simp only [Nat.mul_div_cancel n (show 0 < 4096 by decide), Nat.mul_mod_left, and_true]
    exact hva
  · exact h.alloc a ha

theorem freed (h : s.Whole) {l : List FreeBlockNode} (hl : ∀ d ∈ l, d.Inside) :
    UHeap.Whole { s with freeHead := mergee l } :=
  ⟨h.start, h.breakLo, h.breakHi, h.breakPage, (mergee_space hl).2, h.alloc⟩

theorem dropped (h : s.Whole) (va : Nat) : UHeap.Whole { s with allocHead := nemsa7allocation s.allocHead va } :=
  ⟨h.start, h.breakLo, h.breakHi, h.breakPage, h.free, fun a ha => h.alloc a (List.mem_of_mem_eraseP ha)⟩

end UHeap.Whole

/-! ## A request that the kernel refuses -/

/-- A call returned `NULL` and left the break, the free pages and the allocations as they were. -/
structure UHeap.Kept (s : UHeap) (r : Nat × UHeap) : Prop where
  null : r.1 = 0
  brk : r.2.uheapPageAllocBreak = s.uheapPageAllocBreak
  free : freeSpace r.2.freeHead = freeSpace s.freeHead
  alloc : r.2.allocHead = s.allocHead

/-- The first `n` pages of `d` are free without `d`. -/
def UHeap.Covered (s : UHeap) (d : FreeBlockNode) (n : Nat) : Prop :=
  ∀ x, d.startVa ≤ x → x < d.startVa + n * pageSize → x ∈ freeSpace (s.freeHead.erase d)

/-- Where `smalloc` and `sget` can put back what they took for `n` pages. Without a free range for them: the break does
not wrap. With one: it does not end at the break, and either it starts below the break and no other free range starts
there, or its pages are free without it. -/
def UHeap.GivesBack (s : UHeap) (n : Nat) : Prop :=
  add32 s.uheapPageAllocBreak (mul32 n pageSize) ≤ userHeapMax →
    (s.rangeFor n = none → s.uheapPageAllocBreak + mul32 n pageSize < 4294967296) ∧
    ∀ d, s.rangeFor n = some d → 0 < n →
      d.startVa + n * pageSize ≠ s.uheapPageAllocBreak ∧
      ((d.startVa < s.uheapPageAllocBreak ∧ ∀ e ∈ s.freeHead.erase d, e.startVa ≠ d.startVa) ∨ s.Covered d n)

section Refused

variable {s : UHeap} {n : Nat} {ret : Int}

theorem placeShared_tooLarge (hmax : userHeapMax < add32 s.uheapPageAllocBreak (mul32 n pageSize)) (ret : Int)
    (stale : Nat) :
    placeShared s n ret stale = (0, s) := by
  simp only [placeShared, if_pos hmax]

theorem UHeap.Whole.alignStart (h : s.Whole) : alignStart s = s := by
  simp only [Heap.alignStart, h.start, pageSize]
  rfl

/-- Without a fit the break is moved and back, unless it wrapped. -/
theorem kept_break (h : s.Whole) (hr : ret < 0) (stale : Nat)
    (hmax : ¬ userHeapMax < add32 s.uheapPageAllocBreak (mul32 n pageSize))
    (hnone : s.rangeFor n = none) :
    s.Kept (placeShared s n ret stale) ↔ s.uheapPageAllocBreak + mul32 n pageSize < 4294967296 := by
  have hlo := h.breakLo
  have hhi := h.breakHi
  rcases h.split n with ⟨-, hz, hp⟩ | ⟨d, hd, -⟩
  · have hva : roundUp s.uheapPageAllocBreak pageSize = s.uheapPageAllocBreak :=
      roundUp_of_dvd h.breakPage (by simp only [userHeapMax] at hhi; omega)
    have hneed : mul32 n pageSize < 4294967296 := Nat.mod_lt _ (by decide)
    simp only [placeShared, if_neg hmax, h.alignStart, if_pos hz, customFit_break, shareAt, if_pos hr, hva,
      customFit_start, h.start]
    generalize mul32 n pageSize = need at *
    by_cases hw : s.uheapPageAllocBreak + need < 4294967296
    · have hsum : add32 s.uheapPageAllocBreak need = s.uheapPageAllocBreak + need := add32_of_lt hw
      have hprev : sub32 (s.uheapPageAllocBreak + need) need = s.uheapPageAllocBreak := by unfold sub32; omega
      refine iff_of_true ?_ hw
      rw [hsum, hprev, if_pos rfl]
      split
      · exact ⟨rfl, rfl, freeSpace_perm hp.symm, customFit_alloc s n⟩
      · rename_i hno
        refine ⟨rfl, ?_, freeSpace_perm hp.symm, customFit_alloc s n⟩
        simp only
        omega
    · -- the break has wrapped below the address
      have hsum : add32 s.uheapPageAllocBreak need < s.uheapPageAllocBreak := by unfold add32; omega
      refine iff_of_false (fun hk => ?_) hw
      rw [if_neg (by omega)] at hk
      have := hk.brk
      simp only at this
      omega
  · rw [hnone] at hd
    cases hd

/-- The heap after the fit was taken and refused. -/
theorem placeShared_fit (h : s.Whole) (hr : ret < 0) (stale : Nat) {d : FreeBlockNode}
    (hmax : ¬ userHeapMax < add32 s.uheapPageAllocBreak (mul32 n pageSize)) (hd : s.rangeFor n = some d) :
    d.Inside ∧ n ≤ d.numPages ∧ d ∈ s.freeHead ∧ ∃ l, l.Perm (d.rest n ++ s.freeHead.erase d) ∧
      placeShared s n ret stale = (0, if d.startVa < s.uheapPageAllocBreak then
        if d.startVa + n * 4096 = s.uheapPageAllocBreak
          then { s with uheapPageAllocBreak := d.startVa, freeHead := l }
          else { s with freeHead := mergee (freeBlockk l d.startVa n) } else { s with freeHead := l }) := by
  have hlo := h.breakLo
  have hhi := h.breakHi
  rcases h.split n with ⟨hno, -⟩ | ⟨d', hd', hin, hn, hz, hmem, hp⟩
  · rw [hno] at hd
    cases hd
  · rw [hd] at hd'
    cases hd'
    have h1 := hin.lo
    have h2 := hin.hi
    simp only [userHeapMax] at h2 hhi
    have hva : roundUp d.startVa pageSize = d.startVa := roundUp_of_dvd hin.start (by omega)
    have hneed : mul32 n pageSize = n * 4096 := mul32_of_lt (by simp only [pageSize]; omega)
    have hprev : (d.startVa = sub32 s.uheapPageAllocBreak (n * 4096)) ↔
        d.startVa + n * 4096 = s.uheapPageAllocBreak := by
      unfold sub32
      omega
    have hnz : ¬ d.startVa = 0 := by omega
    have hcf : customFit s n = (d.startVa, { s with freeHead := (customFit s n).2.freeHead }) :=
      Prod.ext hz (by simp only [customFit]; split <;> rfl)
    generalize (customFit s n).2.freeHead = l at hp hcf
    refine ⟨hin, hn, hmem, l, hp, ?_⟩
    rw [hneed] at hmax
    simp only [placeShared, hneed, if_neg hmax, h.alignStart, hcf, if_neg hnz, shareAt, if_pos hr, hva, hprev]
    have hst : s.uheapPageAllocStart ≤ d.startVa := by rw [h.start]; exact h1
    simp only [hst, true_and]
    split
    · split
      · rename_i hend
        rw [← hprev.2 hend]
      · rfl
    · rfl

/-- With a fit, what the call puts back is what it took exactly under the condition. -/
theorem kept_fit (h : s.Whole) (hr : ret < 0) (stale : Nat) {d : FreeBlockNode}
    (hmax : ¬ userHeapMax < add32 s.uheapPageAllocBreak (mul32 n pageSize)) (hd : s.rangeFor n = some d) :
    s.Kept (placeShared s n ret stale) ↔ (0 < n → d.startVa + n * pageSize ≠ s.uheapPageAllocBreak ∧
      ((d.startVa < s.uheapPageAllocBreak ∧ ∀ e ∈ s.freeHead.erase d, e.startVa ≠ d.startVa) ∨ s.Covered d n)) := by
  obtain ⟨hin, hn, hmem, l, hl, hrun⟩ := placeShared_fit h hr stale hmax hd
  obtain ⟨hsplit, hrest⟩ := hin.split hn
  -- the free pages are those of the range for the request and what is left
  have hfull : ∀ x, x ∈ freeSpace s.freeHead ↔ x ∈ freeSpace (⟨d.startVa, n⟩ :: l) := by
    intro x
    have h1 : x ∈ freeSpace (⟨d.startVa, n⟩ :: d.rest n) ↔ x ∈ freeSpace [d] := by rw [hsplit]
    rw [freeSpace_perm (List.perm_cons_erase hmem), freeSpace_perm (hl.cons _), ← List.cons_append,
      mem_freeSpace_append, h1, ← mem_freeSpace_append, List.singleton_append]
  have hlost : freeSpace l = freeSpace s.freeHead ↔ (0 < n → s.Covered d n) := by
    constructor
    · intro heq hpos x hlo hhi
      have hx : x ∈ freeSpace l := by
        rw [heq, hfull, mem_freeSpace_cons]
        exact .inl ⟨hlo, hhi⟩
      rw [freeSpace_perm hl, mem_freeSpace_append] at hx
      apply hx.resolve_left
      intro hx
      obtain ⟨e, he, hle, -⟩ := hx
      have hst := (hrest e he).2
      simp only [FreeBlockNode.extent, pageSize] at hle hhi
      omega
    · intro hcov
      ext x
      rw [hfull, mem_freeSpace_cons]
      refine ⟨.inr, fun hx => hx.elim (fun hx => ?_) id⟩
      rw [freeSpace_perm hl, mem_freeSpace_append]
      have hpos : 0 < n := by
        have := hx.1
        have := hx.2
        simp only at *
        omega
      exact .inr (hcov hpos x hx.1 hx.2)
  have hinside : ∀ e ∈ l, e.Inside := by
    intro e he
    rcases List.mem_append.1 (hl.mem_iff.1 he) with he | he
    · exact (hrest e he).1
    · exact h.free e (List.mem_of_mem_erase he)
  rw [hrun]
  by_cases hbelow : d.startVa < s.uheapPageAllocBreak
  · rw [if_pos hbelow]
    by_cases hend : d.startVa + n * 4096 = s.uheapPageAllocBreak
    · -- the break is lowered to the start of the range
      rw [if_pos hend]
      refine iff_of_false (fun hk => ?_) fun hc => (hc (by omega)).1 hend
      have := hk.brk
      simp only at this
      omega
    · rw [if_neg hend]
      by_cases hother : ∃ e ∈ s.freeHead.erase d, e.startVa = d.startVa
      · -- `freeBlockk` finds another range there
        obtain ⟨e, he, hes⟩ := hother
        have hany : l.any (·.startVa == d.startVa) = true :=
          List.any_eq_true.2 ⟨e, hl.mem_iff.2 (List.mem_append_right _ he), by simpa using hes⟩
        have hf : freeBlockk l d.startVa n = l := by
          unfold freeBlockk
          rw [hany, if_pos rfl, ite_self]
        rw [hf]
        refine (show _ ↔ freeSpace l = freeSpace s.freeHead from ⟨fun hk => ?_, fun hk => ?_⟩).trans (hlost.trans ?_)
        · exact (mergee_space hinside).1.symm.trans hk.free
        · exact ⟨rfl, rfl, (mergee_space hinside).1.trans hk, rfl⟩
        · exact ⟨fun hc hpos => ⟨hend, .inr (hc hpos)⟩,
            fun hc hpos => (hc hpos).2.resolve_left fun hno => hno.2 e he hes⟩
      · -- the range is given back
        refine iff_of_true ?_ fun _ => ⟨hend, .inl ⟨hbelow, fun e he hes => hother ⟨e, he, hes⟩⟩⟩
        by_cases hz : n = 0
        · have hf : freeBlockk l d.startVa n = l := by rw [freeBlockk, if_pos hz]
          rw [hf]
          exact ⟨rfl, rfl, (mergee_space hinside).1.trans (hlost.2 fun hpos => by omega), rfl⟩
        · have hno : l.any (·.startVa == d.startVa) = false := by
            rw [List.any_eq_false]
            intro e he hes
            rw [beq_iff_eq] at hes
            rcases List.mem_append.1 (hl.mem_iff.1 he) with he | he
            · have := (hrest e he).2
              omega
            · exact hother ⟨e, he, hes⟩
          have hf : (freeBlockk l d.startVa n).Perm (⟨d.startVa, n⟩ :: l) := by
            rw [freeBlockk, if_neg hz, hno]
            exact insertNode_perm _ _
          have hpages : FreeBlockNode.Inside ⟨d.startVa, n⟩ := hin.first hn
          have hmerge := (mergee_space fun e he => (List.mem_cons.1 (hf.mem_iff.1 he)).elim (· ▸ hpages) (hinside e)).1
          refine ⟨rfl, rfl, ?_, rfl⟩
          rw [hmerge, freeSpace_perm hf]
          ext x
          rw [hfull]
  · rw [if_neg hbelow]
    refine (show _ ↔ freeSpace l = freeSpace s.freeHead from ⟨fun hk => hk.free, fun hk => ⟨rfl, rfl, hk, rfl⟩⟩).trans
      (hlost.trans ⟨fun hc hpos => ⟨?_, .inr (hc hpos)⟩, fun hc hpos => (hc hpos).2.resolve_left fun hno =>
        hbelow hno.1⟩)
    simp only [pageSize]
    omega

/-- A refused request leaves everything as it was exactly under the condition. -/
theorem kept_iff (h : s.Whole) (hr : ret < 0) (stale : Nat) : s.Kept (placeShared s n ret stale) ↔ s.GivesBack n := by
  unfold UHeap.GivesBack
  by_cases hmax : userHeapMax < add32 s.uheapPageAllocBreak (mul32 n pageSize)
  · rw [placeShared_tooLarge hmax]
    exact iff_of_true ⟨rfl, rfl, rfl, rfl⟩ fun hle => by omega
  · simp only [not_lt.1 hmax, forall_true_left]
    cases hd : s.rangeFor n with
    | none =>
      rw [kept_break h hr stale hmax hd]
      simp
    | some d =>
      rw [kept_fit h hr stale hmax hd]
      simp

end Refused

/-! ## What keeps the heap whole -/

theorem freeBlockk_mem {l : List FreeBlockNode} {start numPages : Nat} {e : FreeBlockNode}
    (he : e ∈ freeBlockk l start numPages) : e = ⟨start, numPages⟩ ∨ e ∈ l := by
  unfold freeBlockk at he
  split at he
  · exact .inr he
  · split at he
    · exact .inr he
    · exact List.mem_cons.1 ((insertNode_perm _ _).mem_iff.1 he)

theorem a5erelEnd_ge : ∀ {l : List OurAllocationNode} {e : Nat}, e ≤ a5erelEnd e l
  | [], _ => le_rfl
  | a :: l, e => by
    simp only [a5erelEnd]
    refine le_trans ?_ a5erelEnd_ge
    split <;> omega

section Whole

variable {s : UHeap} {n : Nat}

theorem UHeap.Whole.lowered (h : s.Whole) : (ta7dethElBreakTofree s).Whole := by
  have hp := h.paged.lowered
  have hlo : 2181042176 ≤ (ta7dethElBreakTofree s).uheapPageAllocBreak := by
    have hge : s.uheapPageAllocStart ≤ a5erelEnd s.uheapPageAllocStart s.allocHead := a5erelEnd_ge
    have hle : a5erelEnd s.uheapPageAllocStart s.allocHead ≤ userHeapMax := a5erelEnd_le (by rw [h.start]; decide)
    have hst := h.start
    simp only [ta7dethElBreakTofree]
    rw [if_neg (not_lt.2 hle), if_neg (not_lt.2 hge)]
    simp only [userHeapMax] at hle
    simp only [roundUp, roundDown, pageSize]
    omega
  have hs : ta7dethElBreakTofree s = { s with uheapPageAllocBreak := (ta7dethElBreakTofree s).uheapPageAllocBreak } :=
    rfl
  rw [hs]
  exact h.moved hlo hp.breakHi hp.breakPage

theorem mallocAt_whole (h : s.Whole) {a : Nat} (ha : FreeBlockNode.Inside ⟨a, n⟩) (stale : Nat) :
    (mallocAt s a (n * 4096) stale).2.Whole := by
  have hl := h.listed ha stale
  have hlo := ha.lo
  have hst := ha.start
  have hhi := ha.hi
  simp only [userHeapMax] at hlo hst hhi
  have hend : add32 a (n * 4096) = a + n * 4096 := add32_of_lt (by omega)
  unfold mallocAt
  split
  · exact h
  · simp only [hend]
    split
    · exact hl.moved (by omega) hhi (by omega)
    · exact hl

theorem malloc_whole (h : s.Whole) (size blk stale : Nat) : (malloc s size blk stale).2.Whole := by
  by_cases hb : dynAllocMaxBlockSize < size
  · obtain ⟨t, ht, hm, -⟩ | ⟨-, -, b, a, hble, hbhi, hbp, -, hm, hcase⟩ := malloc_spec h.paged blk stale hb
    · rw [hm]
      rcases ht with rfl | rfl
      · exact h
      · exact h.fit _
    · rw [hm]
      refine mallocAt_whole ((h.fit _).moved (h.breakLo.trans hble) hbhi hbp) ?_ stale
      rcases hcase with ⟨d, hd, rfl⟩ | ⟨-, rfl, hmax⟩
      · obtain ⟨hno, -⟩ | ⟨d', hd', hin, hn, -⟩ := h.split (roundUp size pageSize / pageSize)
        · rw [hno] at hd
          cases hd
        · rw [hd] at hd'
          cases hd'
          exact hin.first hn
      · exact ⟨h.breakLo, h.breakPage, hmax⟩
  · have hz : (malloc s size blk stale).2 = s := by
      simp only [malloc, if_pos (not_lt.1 hb)]; split <;> rfl
    rw [hz]; exact h

/-- The allocation that starts at an address covers whole pages. -/
theorem UHeap.Whole.found (h : s.Whole) {va : Nat} {a : OurAllocationNode}
    (hf : findAllocation s.allocHead va = some a) :
    FreeBlockNode.Inside ⟨va, a.size / 4096⟩ ∧ a.size % 4096 = 0 ∧ a.size < 4294967296 := by
  have hav : a.bedayetEladd = va := by simpa using List.find?_some hf
  obtain ⟨hin, hs⟩ := h.alloc a (List.mem_of_find?_eq_some hf)
  have hhi := hin.hi
  simp only [userHeapMax] at hhi
  exact ⟨hav ▸ hin, hs, by omega⟩

theorem free_whole (h : s.Whole) {va : Nat} {t : UHeap} (hrun : free s va = .ok t) : t.Whole := by
  obtain rfl | ⟨a, hf, rfl⟩ := free_ok hrun
  · exact h
  · have hd := (h.dropped (roundDown va pageSize)).lowered
    apply hd.freed
    intro e he
    rcases freeBlockk_mem he with rfl | he
    · exact (h.found hf).1
    · exact h.free e he

theorem sfree_whole (h : s.Whole) (va : Nat) (ret : Int) : (sfree s va ret).Whole := by
  unfold sfree
  cases hf : findAllocation s.allocHead va with
  | none => exact h
  | some a =>
    simp only
    split
    · exact h
    · obtain ⟨hin, hs, hlt⟩ := h.found hf
      have hhi := hin.hi
      have hlo := hin.lo
      simp only [userHeapMax] at hhi hlo
      have hn : add32 a.size (pageSize - 1) / pageSize = a.size / 4096 := by
        rw [pageSize, add32_of_lt (by omega)]
        omega
      rw [hn]
      refine (h.dropped va).freed fun e he => ?_
      rcases List.mem_cons.1 ((insertNode_perm _ _).mem_iff.1 he) with rfl | he
      · exact hin
      · exact h.free e he

theorem shareAt_whole (h : s.Whole) {va : Nat} (hva : FreeBlockNode.Inside ⟨va, n⟩) (ret : Int) (stale : Nat) :
    (shareAt s va n ret stale).2.Whole := by
  have hlo := hva.lo
  have hhi := hva.hi
  have hst := hva.start
  simp only [userHeapMax] at hlo hhi hst
  have hup : roundUp va pageSize = va := roundUp_of_dvd hst (by omega)
  have hneed : mul32 n pageSize = n * 4096 := mul32_of_lt (by simp only [pageSize]; omega)
  simp only [shareAt, hup, hneed]
  split
  · split
    · split
      · rename_i hprev
        rw [← hprev]
        exact h.moved hlo (by simp only [userHeapMax]; omega) hst
      · apply h.freed
        intro e he
        rcases freeBlockk_mem he with rfl | he
        · exact hva
        · exact h.free e he
    · exact h
  · exact h.listed hva stale

/-- A request for pages whose number of bytes is below `2 ^ 31` unless it wraps. -/
theorem placeShared_whole (h : s.Whole) (hn : n < 1048576 ∨ 2147483648 ≤ mul32 n pageSize) {ret : Int}
    (hw : add32 s.uheapPageAllocBreak (mul32 n pageSize) ≤ userHeapMax → s.rangeFor n = none →
      s.uheapPageAllocBreak + mul32 n pageSize < 4294967296) (stale : Nat) : (placeShared s n ret stale).2.Whole := by
  have hlo := h.breakLo
  have hbp := h.breakPage
  by_cases hmax : userHeapMax < add32 s.uheapPageAllocBreak (mul32 n pageSize)
  · rw [placeShared_tooLarge hmax]
    exact h
  · rw [not_lt] at hmax
    rcases h.split n with ⟨hno, hz, -⟩ | ⟨d, -, hin, hle, hz, -⟩
    · have hlt := hw hmax hno
      have hneed : mul32 n pageSize = n * 4096 := mul32_of_lt (by simp only [pageSize]; omega)
      rw [hneed] at hlt hmax
      have hgrow : add32 s.uheapPageAllocBreak (n * 4096) = s.uheapPageAllocBreak + n * 4096 := add32_of_lt hlt
      rw [hgrow] at hmax
      simp only [placeShared, h.alignStart, hneed, if_pos hz, customFit_break, hgrow, if_neg (not_lt.2 hmax)]
      exact shareAt_whole ((h.fit n).moved (by omega) hmax (by omega)) ⟨hlo, hbp, hmax⟩ ret stale
    · have hnz : ¬ d.startVa = 0 := by have := hin.lo; omega
      simp only [placeShared, h.alignStart, if_neg (not_lt.2 hmax), hz, if_neg hnz]
      exact shareAt_whole (h.fit n) (hin.first hle) ret stale

theorem smalloc_bytes (size : Nat) : roundUp size pageSize / pageSize < 1048576 := by
  simp only [roundUp, roundDown, pageSize]
  omega

theorem sget_bytes (size : Int) : numOfPagesNeededSgetFun size < 1048576 ∨
    2147483648 ≤ mul32 (numOfPagesNeededSgetFun size) pageSize := by
  obtain ⟨q, hq, hr⟩ : ∃ q < 1048576, roundUp (ofInt32 size) pageSize = q * 4096 :=
    ⟨roundUp (ofInt32 size) pageSize / 4096, smalloc_bytes _, by simp only [roundUp, roundDown, pageSize]; omega⟩
  unfold numOfPagesNeededSgetFun
  rw [hr]
  by_cases hneg : q * 4096 < 2147483648
  · -- the rounded size is not negative as an `int`
    have hdiv : toInt32 (q * 4096) = ((q * 4096 : Nat) : Int) := if_pos hneg
    rw [hdiv, ← Int.ofNat_tdiv, pageSize, Nat.mul_div_cancel q (show 0 < 4096 by decide)]
    left
    unfold ofInt32
    omega
  · obtain ⟨k, hk⟩ : ∃ k, k + q = 1048576 := ⟨1048576 - q, by omega⟩
    have hdiv : toInt32 (q * 4096) = -((k * 4096 : Nat) : Int) := by
      rw [toInt32, if_neg hneg]
      omega
    have hq : (-((k * 4096 : Nat) : Int)).tdiv (pageSize : Nat) = -(k : Int) := by
      rw [Int.neg_tdiv, ← Int.ofNat_tdiv, pageSize, Nat.mul_div_cancel k (show 0 < 4096 by decide)]
    rw [hdiv, hq]
    right
    unfold ofInt32 mul32 pageSize
    omega

end Whole

/-! ## Runs -/

/-- The pages `smalloc` and `sget` look for. -/
def UCall.sharedPages : UCall → Option Nat
  | .smalloc size _ _ => if size = 0 then none else some (roundUp size pageSize / pageSize)
  | .sget size _ _ => if size ≤ 0 then none else some (numOfPagesNeededSgetFun size)
  | .malloc .. => none
  | .free _ => none
  | .sfree .. => none

/-- What the kernel answers to the request for a shared object. -/
def UCall.answer : UCall → Int
  | .smalloc _ ret _ => ret
  | .sget _ ret _ => ret
  | .malloc .. => 0
  | .free _ => 0
  | .sfree .. => 0

/-- The kernel creates no object, and shares none, whose pages run past the end of the address space: they would be
mapped over the kernel itself. -/
def UCall.Served (p : UProc) (c : UCall) : Prop :=
  ∀ n, c.sharedPages = some n → 0 ≤ c.answer → p.heap.uheapPageAllocBreak + mul32 n pageSize < 4294967296

instance (p : UProc) (c : UCall) : Decidable (c.Served p) :=
  decidable_of_iff (c.sharedPages.all (fun n => 0 ≤ c.answer →
    p.heap.uheapPageAllocBreak + mul32 n pageSize < 4294967296) = true)
    (by simp only [Option.all_eq_true, decide_eq_true_eq, UCall.Served])

/-- A call that returns, with the answers the kernel gives. -/
def UServes (p : UProc) (c : UCall) (p' : UProc) : Prop := c.Served p ∧ UReturns p c p'

/-- A refused `smalloc` or `sget` keeps the heap. -/
def UCall.Kept (p : UProc) : UCall → Prop
  | .smalloc size ret stale => ret < 0 → p.heap.Kept (Heap.smalloc p.heap size ret stale)
  | .sget size ret stale => ret < 0 → p.heap.Kept (Heap.sget p.heap size ret stale)
  | .malloc .. => True
  | .free _ => True
  | .sfree .. => True

/-- A refused request can put back what was taken for it. -/
def UCall.GivesBack (p : UProc) (c : UCall) : Prop := ∀ n, c.sharedPages = some n → c.answer < 0 → p.heap.GivesBack n

theorem UCall.kept_iff {p : UProc} (h : p.heap.Whole) (c : UCall) : c.Kept p ↔ c.GivesBack p := by
  have hsame : p.heap.Kept (0, p.heap) := ⟨rfl, rfl, rfl, rfl⟩
  cases c with
  | smalloc size ret stale =>
    simp only [UCall.Kept, UCall.GivesBack, UCall.sharedPages, UCall.answer, Heap.smalloc]
    by_cases hz : size = 0
    · simp only [if_pos hz, hsame, implies_true, reduceCtorEq, false_imp_iff]
    · simp only [if_neg hz, Option.some.injEq, forall_eq']
      exact forall_congr' fun hr => Heap.kept_iff h hr stale
  | sget size ret stale =>
    simp only [UCall.Kept, UCall.GivesBack, UCall.sharedPages, UCall.answer, Heap.sget]
    by_cases hz : size ≤ 0
    · simp only [if_pos hz, hsame, implies_true, reduceCtorEq, false_imp_iff]
    · simp only [if_neg hz, Option.some.injEq, forall_eq']
      exact forall_congr' fun hr => Heap.kept_iff h hr stale
  | malloc => simp [UCall.Kept, UCall.GivesBack, UCall.sharedPages]
  | free => simp [UCall.Kept, UCall.GivesBack, UCall.sharedPages]
  | sfree => simp [UCall.Kept, UCall.GivesBack, UCall.sharedPages]

/-- A call of a run keeps the heap whole if a refused request can put back what was taken for it. -/
theorem UServes.whole (p : UProc) (c : UCall) (p' : UProc) (h : p.heap.Whole) (hback : c.GivesBack p)
    (hstep : UServes p c p') : p'.heap.Whole := by
  obtain ⟨hserved, -, hrun⟩ := hstep
  -- no request wraps without a fit
  have hw : ∀ n, c.sharedPages = some n → add32 p.heap.uheapPageAllocBreak (mul32 n pageSize) ≤ userHeapMax →
      p.heap.rangeFor n = none → p.heap.uheapPageAllocBreak + mul32 n pageSize < 4294967296 := by
    intro n hn hle hno
    rcases le_or_gt 0 c.answer with hr | hr
    · exact hserved n hn hr
    · exact (hback n hn hr hle).1 hno
  cases c with
  | malloc size blk stale =>
    obtain rfl := Except.ok.inj hrun.symm
    exact malloc_whole h size blk stale
  | free va =>
    obtain ⟨t, ht, hp'⟩ := bind_ok hrun
    obtain rfl := Except.ok.inj hp'.symm
    exact free_whole h ht
  | smalloc size ret stale =>
    obtain rfl := Except.ok.inj hrun.symm
    show (Heap.smalloc p.heap size ret stale).2.Whole
    unfold Heap.smalloc
    split
    · exact h
    · rename_i hz
      exact placeShared_whole h (.inl (smalloc_bytes size)) (hw _ (if_neg hz)) stale
  | sget size ret stale =>
    obtain rfl := Except.ok.inj hrun.symm
    show (Heap.sget p.heap size ret stale).2.Whole
    unfold Heap.sget
    split
    · exact h
    · rename_i hz
      exact placeShared_whole h (sget_bytes size) (hw _ (if_neg hz)) stale
  | sfree va ret =>
    obtain rfl := Except.ok.inj hrun.symm
    exact sfree_whole h va ret

/-- In a run of the user heap every refused request for a shared object leaves the break, the free pages and the
allocations as they were exactly if each could put back what was taken for it. -/
theorem failed_shares (cs : List UCall) : Each UServes (fun p c => c.Kept p) uprocInit cs ↔
    Each UServes (fun p c => c.GivesBack p) uprocInit cs := by
  rw [← always_each_iff (P := fun _ => True) (fun _ _ => trivial)
    (fun p c p' h hback hstep => ⟨(UCall.kept_iff h c).2 hback, UServes.whole p c p' h hback hstep⟩)
    (fun p c _ h _ hkept _ => (UCall.kept_iff h c).1 hkept) uheapInit_whole]
  exact ⟨fun h => ⟨always_of_step (fun _ _ _ _ _ => trivial) trivial, h⟩, fun h => h.2⟩

/-- Two pages are allocated and freed, which leaves them at the break; then a shared object of two pages is asked for
whose name exists: the pages are free no more. -/
theorem failed_shares_lost : ¬ Each UServes (fun p c => c.Kept p) uprocInit
    [.malloc 8192 0 0, .free 2181042176, .smalloc 8192 (-15) 0] := by
  intro h
  have h1 := h ⟨⟨2181042176, 2181050368, [⟨2181042176, 8192, 0⟩], []⟩, [⟨2181042176, 8192⟩]⟩
    ⟨by decide, by decide, by decide⟩
  have h2 := h1.2 ⟨⟨2181042176, 2181042176, [], [⟨2181042176, 2⟩]⟩, []⟩ ⟨by decide, by decide, by decide⟩
  have h3 := h2.2 ⟨⟨2181042176, 2181042176, [], []⟩, []⟩ ⟨by decide, by decide, by decide⟩
  have hfree := (h3.1 (by decide)).free
  have hmem : 2181042176 ∈ freeSpace [⟨2181042176, 2⟩] := mem_freeSpace.2 (by decide)
  rw [← hfree] at hmem
  exact List.not_mem_nil hmem.choose_spec.1

end Fos.Heap
