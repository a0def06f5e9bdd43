/-
`krealloc` that makes an allocation of pages smaller: its loop unmaps the pages that hold no frame, so
none of the allocation is given back, and only the recorded size changes.
-/
import Fos.Heap.Krealloc

namespace Fos.Heap

open Fos.Memory Fos.Lib Fos.Lib.Extent DynAlloc

/-! ## `krealloc` on pages in use -/

section Pages

variable {h : HeapUse} {b : Nat} {e : Extent} {newSize : Nat}

/-- A page in use is past the blocks, and `krealloc` of its range goes to the pages. -/
theorem krealloc_pages (hI : h.Inv ∅ b) (he : e ∈ h.live) (hpos : 0 < newSize) (ram : Nat → Nat → UInt8) :
    krealloc e.start newSize ⟨h.kernel, ram⟩ = kreallocPages e.start (roundUp newSize pageSize) ⟨h.kernel, ram⟩ := by
  obtain ⟨p, n, rfl, hn, hlo, hhi, -⟩ := hI.first he
  have hhigh := hI.heap.high
  have hend : h.kernel.dyn.dynAllocEnd = 1015808 * 4096 := hI.heap.dynEnd
  have hst : h.kernel.kheapPageAllocStart = 1015809 * 4096 := hI.heap.start
  have hblock : ¬ (h.kernel.dyn.dynAllocStart ≤ p * 4096 ∧ p * 4096 < h.kernel.dyn.dynAllocEnd) := by
    rw [hend]; omega
  have hpage : h.kernel.kheapPageAllocStart ≤ p * 4096 ∧ p * 4096 < kernelHeapMax := by
    rw [hst, kernelHeapMax]; omega
  unfold krealloc
  rw [get_bind]
  simp only [if_neg (show ¬ p * 4096 = 0 by omega), if_neg hpos.ne', if_neg hblock]
  rw [kreallocAbove, if_pos hpage, roundDown_of_dvd (show p * 4096 % pageSize = 0 by simp only [pageSize]; omega)]

/-- The frame of the first page, which records the size. -/
theorem HeapUse.Inv.firstFrame (hI : h.Inv ∅ b) (he : e ∈ h.live) : ∃ f, h.kernel.mem.getFrameInfo 0 e.start = some f ∧
    (h.kernel.mem.pte (0, e.start / 4096)).held = some f ∧ (h.kernel.mem.framesInfo f).size = e.len := by
  have hhigh := hI.heap.high
  obtain ⟨p, n, rfl, hn, hlo, hhi, hheld⟩ := hI.first he
  obtain ⟨f, hf⟩ := Option.ne_none_iff_exists'.1 (hheld p le_rfl (by omega))
  have hdiv : p * 4096 / 4096 = p := by omega
  refine ⟨f, (hI.heap.pages.getFrameInfo ⟨by omega, by omega⟩).trans hf, by simp only [hdiv]; exact hf, ?_⟩
  exact hI.sizes _ he f (by simp only [hdiv]; exact hf)

/-- The three cases of `krealloc` on pages. -/
theorem kreallocPages_eq (hI : h.Inv ∅ b) (he : e ∈ h.live) (ram : Nat → Nat → UInt8) :
    ∃ f, (h.kernel.mem.pte (0, e.start / 4096)).held = some f ∧ kreallocPages e.start newSize ⟨h.kernel, ram⟩ =
      if newSize = e.len then .ok e.start ⟨h.kernel, ram⟩
      else if newSize < e.len then shrinkPages e.start e.len newSize f ⟨h.kernel, ram⟩
      else expandPages h.kernel e.start e.len newSize f ⟨h.kernel, ram⟩ := by
  obtain ⟨f, hf, hheld, hsize⟩ := hI.firstFrame he
  refine ⟨f, hheld, ?_⟩
  unfold kreallocPages
  rw [get_bind]
  simp only [hf, hsize]
  split
  · rfl
  · split
    · rfl
    · rfl

/-- The loop over pages that all hold frames. -/
theorem unmapTail_held {m : Mem} {stop : Nat} (hstop : stop ≤ kernelHeapMax) :
    ∀ (fuel i : Nat), (∀ va, i ≤ va → va < stop → m.getFrameInfo 0 va ≠ none) → unmapTail m stop fuel i = m
  | 0, _, _ => rfl
  | fuel + 1, i, hheld => by
    unfold unmapTail
    by_cases hi : i < stop
    · rw [if_pos hi]
      split
      · rename_i hnone
        exact absurd hnone (hheld i le_rfl hi)
      · simp only [kernelHeapMax] at hstop
        rw [pageSize, add32_of_lt (by omega)]
        exact unmapTail_held hstop fuel _ fun va h1 h2 => hheld va (by omega) h2
    · rw [if_neg hi]

/-- A smaller size of at least a page: the pages stay, and the first frame records the new size. -/
theorem shrinkPages_eq (hI : h.Inv ∅ b) (he : e ∈ h.live) (hlo : 2048 < newSize) (hlt : newSize < e.len) (f : Nat)
    (ram : Nat → Nat → UInt8) : shrinkPages e.start e.len newSize f ⟨h.kernel, ram⟩ = .ok e.start
        ⟨{ h.kernel with mem := h.kernel.mem.setFrame f { h.kernel.mem.framesInfo f with size := newSize } }, ram⟩ := by
  have hhigh := hI.heap.high
  obtain ⟨p, n, rfl, hn, hlow, hhi, hheld⟩ := hI.first he
  simp only at hlt
  have hend : add32 (p * 4096) (n * 4096) = (p + n) * 4096 := by
    rw [add32_of_lt (by omega)]; omega
  have hfrom : add32 (p * 4096) newSize = p * 4096 + newSize := add32_of_lt (by omega)
  have hsame : ∀ fuel, unmapTail h.kernel.mem (add32 (p * 4096) (n * 4096)) fuel (add32 (p * 4096) newSize) =
      h.kernel.mem := by
    intro fuel
    rw [hend, hfrom]
    apply unmapTail_held (by simp only [kernelHeapMax]; omega) fuel _
    intro va h1 h2
    rw [hI.heap.pages.getFrameInfo_of ⟨by omega, by omega⟩]
    exact hheld _ (by omega) (by omega)
  unfold shrinkPages
  rw [if_neg (by simp only [dynAllocMaxBlockSize]; omega)]
  have hloop : ∀ g : Kernel → Kernel, g h.kernel = h.kernel →
      onHeap (modify g) ⟨h.kernel, ram⟩ = .ok () ⟨h.kernel, ram⟩ :=
    fun g hg => congrArg (fun k => EStateM.Result.ok () (HeapBytes.mk k ram)) hg
  rw [bind_of_ok (hloop _ (congrArg (fun m => { h.kernel with mem := m }) (hsame _)))]
  rfl

end Pages

/-! ## What shrinking should do -/

/-- `kfree` of `d` unmaps its pages and no other, and frees their frames and no other. -/
def FreesExactly (h : HeapUse) (d : Extent) : Prop := ∃ t, kfree d.start h.kernel = .ok () t ∧
  (∀ v, HeapPage v → (HoldsPage t.mem v ↔ HoldsPage h.kernel.mem v ∧ ¬ d.Has (v * 4096))) ∧
  ∀ f, f ∈ t.mem.freeFrameList ↔
    f ∈ h.kernel.mem.freeFrameList ∨ ∃ v, d.Has (v * 4096) ∧ (h.kernel.mem.pte (0, v)).held = some f

/-- Of the pages of `e` the first `n` stay mapped and the frames of the rest are free; and whatever is allocated and
freed before, a `kfree` of `p` frees exactly the `n` pages. -/
structure HeapUse.Shrunk (h : HeapUse) (e : Extent) (n p : Nat) (t : Kernel) : Prop where
  kept : ∀ v, e.Has (v * 4096) → (HoldsPage t.mem v ↔ v < e.start / 4096 + n)
  freed : ∀ v f, e.Has (v * 4096) → e.start / 4096 + n ≤ v → (h.kernel.mem.pte (0, v)).held = some f →
    f ∈ t.mem.freeFrameList
  later : ∀ cs, Always HeapUseStep (fun h' => ⟨p, n * 4096⟩ ∈ h'.live → FreesExactly h' ⟨p, n * 4096⟩)
    ⟨t, h.blocks, ⟨p, n * 4096⟩ :: h.live.erase e⟩ cs

/-- The result of a `krealloc` of `e` that leaves `n` pages. -/
def HeapUse.ShrinksTo (h : HeapUse) (e : Extent) (n : Nat) : EStateM.Result Halt HeapBytes Nat → Prop
  | .ok p t => h.Shrunk e n p t.kernel
  | .error _ _ => False

section Shrink

variable {h : HeapUse} {b : Nat} {e : Extent} {newSize : Nat}

theorem HeapUse.Inv.perm (hI : h.Inv ∅ b) {live : List Extent} (hp : h.live.Perm live) :
    HeapUse.Inv ⟨h.kernel, h.blocks, live⟩ ∅ b := by
  have hH := hI.heap
  refine ⟨{ hH with
    packed := hH.packed.perm hp
    mapped := fun v h1 h2 => (hH.mapped v h1 h2).trans ?_
    sizes := fun d hd => hH.sizes d (hp.mem_iff.2 hd) }, hI.blocks, hI.present, hI.last, hI.split,
    fun d hd => hI.sizes d (hp.mem_iff.2 hd)⟩
  exact exists_congr fun d => and_congr hp.mem_iff Iff.rfl

theorem HeapUse.Inv.frees (hI : h.Inv ∅ b) (he : e ∈ h.live) : FreesExactly h e := by
  obtain ⟨t, b', hrun, hI', hB, hnone, hfree⟩ := hI.kfree (List.perm_cons_erase he)
  refine ⟨t, hrun, fun v hv => ?_, hfree⟩
  by_cases hin : e.Has (v * 4096)
  · exact ⟨fun hh => absurd hh (hnone v hin), fun hh => absurd hin hh.2⟩
  · rw [HoldsPage, hB.pte v hv hin]
    exact ⟨fun hh => ⟨hh, hin⟩, fun hh => hh.1⟩

/-- Pages are given back only where there are none to give back. -/
theorem HeapUse.Inv.shrinks_iff (hI : h.Inv ∅ b) (he : e ∈ h.live) (hlo : 4096 ≤ newSize) (hlt : newSize < e.len)
    (ram : Nat → Nat → UInt8) :
    h.ShrinksTo e (pagesOf newSize) (krealloc e.start newSize ⟨h.kernel, ram⟩) ↔ roundUp newSize pageSize = e.len := by
  have hhigh := hI.heap.high
  obtain ⟨f, -, heq⟩ := @kreallocPages_eq _ _ _ (roundUp newSize pageSize) hI he ram
  obtain ⟨p, n, rfl, hn, hlow, hhi, hheld⟩ := hI.first he
  simp only at hlt
  have hdiv : p * 4096 / 4096 = p := by omega
  have hup : roundUp newSize pageSize = pagesOf newSize * 4096 ∧ pagesOf newSize ≤ n ∧ 1 ≤ pagesOf newSize := by
    rw [pagesOf, pageSize, roundUp_div newSize (by omega)]
    unfold roundUp roundDown
    omega
  rw [krealloc_pages hI he (by omega), heq]
  by_cases hsame : roundUp newSize pageSize = n * 4096
  · -- as many pages as before
    obtain rfl : pagesOf newSize = n := by omega
    rw [if_pos (show _ = (Extent.mk (p * 4096) (pagesOf newSize * 4096)).len from hsame), hsame]
    refine ⟨fun _ => rfl, fun _ => ⟨fun v hv => ?_, fun v f hv hge => ?_, fun cs => ?_⟩⟩
    · obtain ⟨h1, h2⟩ := has_pages.1 hv
      simp only [hdiv]
      exact ⟨fun _ => h2, fun _ => hheld v h1 h2⟩
    · obtain ⟨h1, h2⟩ := has_pages.1 hv
      simp only [hdiv] at hge
      omega
    · exact ((hI.perm (List.perm_cons_erase he)).always cs).mono fun h' hI' hmem => hI'.elim fun _ hI' => hI'.frees hmem
  · rw [if_neg (show ¬ _ = (Extent.mk (p * 4096) (n * 4096)).len from hsame),
      if_pos (show roundUp newSize pageSize < n * 4096 by omega),
      shrinkPages_eq hI he (by omega) (show roundUp newSize pageSize < n * 4096 by omega)]
    refine ⟨fun hs => ?_, fun hs => absurd hs hsame⟩
    -- the first page too many is still there
    have hv : p ≤ p + pagesOf newSize ∧ p + pagesOf newSize < p + n := by omega
    have hk := (hs.kept (p + pagesOf newSize) (has_pages.2 hv)).1 (hheld _ hv.1 hv.2)
    simp only [hdiv] at hk
    omega

end Shrink

/-- Whatever was allocated and freed before: `krealloc` of pages to a smaller size of at least a page leaves exactly the
pages of the new size, and these to a later `kfree`, if and only if the new size takes as many pages as the old one. -/
theorem krealloc_shrinks_iff (s₀ s : Kernel) (hboot : Booted s₀.mem) (hinit : kheapInit s₀ = .ok s)
    (cs : List HeapCall) :
    Always HeapUseStep (fun h => ∀ e ∈ h.live, ∀ newSize ram, pageSize ≤ newSize → newSize < e.len →
      (h.ShrinksTo e (pagesOf newSize) (krealloc e.start newSize ⟨h.kernel, ram⟩) ↔ roundUp newSize pageSize = e.len))
      ⟨s, [], []⟩ cs :=
  ((kheapInit_use hboot hinit).always cs).mono fun _ hI _ he _ ram hlo hlt => hI.elim fun _ hI =>
    hI.shrinks_iff he hlo hlt ram

theorem krealloc_shrinks_iff_machine : ∃ s, kheapInit (unusedKernel machine) = .ok s ∧
    Always HeapUseStep (fun h => ∀ e ∈ h.live, ∀ newSize ram, pageSize ≤ newSize → newSize < e.len →
      (h.ShrinksTo e (pagesOf newSize) (krealloc e.start newSize ⟨h.kernel, ram⟩) ↔ roundUp newSize pageSize = e.len))
      ⟨s, [], []⟩ [.kmalloc 8192, .kmalloc 100] :=
  ⟨_, rfl, krealloc_shrinks_iff (unusedKernel machine) _ machine_booted rfl _⟩

/-- Two pages made one: both stay mapped. -/
theorem krealloc_keeps_pages : ∃ s t va, kheapInit (unusedKernel machine) = .ok s ∧ kmalloc 8192 s = .ok va t ∧
    HeapUseStep ⟨s, [], []⟩ (.kmalloc 8192) ⟨t, [], [⟨va, 8192⟩]⟩ ∧
    ∀ ram, ¬ HeapUse.ShrinksTo ⟨t, [], [⟨va, 8192⟩]⟩ ⟨va, 8192⟩ (pagesOf 4096) (krealloc va 4096 ⟨t, ram⟩) := by
  obtain ⟨s, hinit⟩ : ∃ s, kheapInit (unusedKernel machine) = .ok s := ⟨_, rfl⟩
  have hI := @kheapInit_use (unusedKernel machine) s machine_booted hinit
  obtain ⟨va, t, hr, hva⟩ : ∃ va t, kmalloc 8192 s = .ok va t ∧ decide (va ≠ 0) = true := by
    cases hinit
    exact ok_of_run (by decide +kernel)
  have hstep : HeapUseStep ⟨s, [], []⟩ (.kmalloc 8192) ⟨t, [], [⟨va, 8192⟩]⟩ := by
    refine ⟨show 8192 < 4294967296 by decide, ?_⟩
    simp only [HeapUse.call, hr, HeapUse.grant, if_neg (of_decide_eq_true hva)]
    rfl
  obtain ⟨b, hI'⟩ := hI.step hstep
  refine ⟨s, t, va, hinit, hr, hstep, fun ram hs => ?_⟩
  have hup := (hI'.shrinks_iff (e := ⟨va, 8192⟩) List.mem_cons_self le_rfl (show 4096 < 8192 by decide) ram).1 hs
  exact absurd hup (show ¬ roundUp 4096 pageSize = 8192 by decide)

end Fos.Heap
