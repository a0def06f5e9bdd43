/-
`sys_get_optimal_num_faults`, `kern/trap/syscall.c`, at the end of a run under the optimal policy: the least number
of faults for the recorded stream, which leaves out accesses of the process. A schedule for all of them may need
more.
-/
import Fos.Fault.ReferenceStream

namespace Fos.Fault

open Fos.Memory Fos.Heap Fos.Proc Fos.Lib

/-! ## The call -/

/-- The elements of the two lists in memory: those of `page_WS_list` at their addresses, those of the reference
stream at the addresses `refs`. -/
structure Laid (m : VaOf) (refs : List Nat) (e : Env) : Prop where
  ws : ∀ w ∈ e.pageWsList, m w.addr = w.virtualAddress
  stream : refs.map m = e.referenceStreamList

/-- The loop that compares `page_WS_list` with `prepagedVAs`. -/
def samePrepaged : List Nat → List Nat → Bool
  | [], _ => true
  | _ :: _, [] => false
  | va :: vas, prepaged :: rest => roundDown va pageSize = roundDown prepaged pageSize && samePrepaged vas rest

def sysGetOptimalNumFaults (kmalloc : Nat → Nat) (m : VaOf) (refs prepagedVAs : List Nat) (e : Env) : Res Nat :=
  if samePrepaged (e.pageWsList.map (·.virtualAddress)) prepagedVAs then
    .ok (getOptimalNumFaults kmalloc m (e.pageWsList.map (·.addr)) e.pageWsMaxSize refs).1
  else
    .error (.panic ("sys_get_optimal_num_faults(): page working set is changed during the OPTIMAL " ++
      "replacement while it's not expected to"))

theorem samePrepaged_self : ∀ vas : List Nat, samePrepaged vas vas = true
  | [] => rfl
  | va :: vas => by
    rw [samePrepaged, samePrepaged_self vas, Bool.and_true, decide_eq_true_eq]

/-! ## A working set that is over the maximum -/

/-- With at least the maximum of pages no page is placed, so that the maximum may as well be their number. -/
theorem refLoop_full {kmalloc : Nat → Nat} {k : Nat} : ∀ {refs : List Nat} {s : OptState}, k ≤ s.eltempWset.length →
    refLoop kmalloc k refs s = refLoop kmalloc s.eltempWset.length refs s
  | [], _, _ => rfl
  | r :: ahead, s, h => by
    simp only [refLoop]
    rw [if_neg (show ¬ s.eltempWset.length < k by omega), if_neg (lt_irrefl s.eltempWset.length)]
    split
    · exact refLoop_full h
    · split
      · exact refLoop_full (s := { s with elfaults := s.elfaults + 1 }) h
      · rename_i e _
        exact refLoop_full (s := { s with mem := Function.update s.mem e (s.mem r), elfaults := s.elfaults + 1 }) h

theorem copyWset_length (kmalloc : Nat → Nat) : ∀ (l : List Nat) (s : OptState),
    (copyWset kmalloc l s).eltempWset.length = s.eltempWset.length + l.length
  | [], _ => rfl
  | e :: l, s => by
    rw [copyWset, copyWset_length]
    simp only [List.length_append, List.length_cons, List.length_nil]
    omega

/-- The count is least for every maximum, also one below the size of the initial working set. -/
theorem getOptimalNumFaults_fewest (early : Prop) {kmalloc : Nat → Nat} {m : VaOf} {ws : List Nat} (refs : List Nat)
    (k : Nat)
    (hne : ws ≠ []) (hdistinct : (ws.map (pageOf m)).Nodup) (hinj : Function.Injective kmalloc)
    (hnew : ∀ i, kmalloc i ∉ ws ++ refs) :
    Fewest early k (ws.map (pageOf m)).toFinset (refs.map (pageOf m)) (getOptimalNumFaults kmalloc m ws k refs).1 := by
  have hpos : 1 ≤ ws.length := List.length_pos_of_ne_nil hne
  have hcard : (ws.map (pageOf m)).toFinset.card = ws.length := by
    rw [List.toFinset_card_of_nodup hdistinct, List.length_map]
  by_cases hk : ws.length ≤ k
  · exact (getOptimalNumFaults_spec early (hpos.trans hk) hk hdistinct hinj hnew).1
  · have hsame : getOptimalNumFaults kmalloc m ws k refs = getOptimalNumFaults kmalloc m ws ws.length refs := by
      have hlen := copyWset_length kmalloc ws ⟨[], 0, m, 0⟩
      rw [List.length_nil, Nat.zero_add] at hlen
      unfold getOptimalNumFaults
      rw [refLoop_full (by rw [hlen]; omega), hlen]
    rw [hsame]
    have h := (getOptimalNumFaults_spec early hpos le_rfl hdistinct hinj hnew).1
    refine ⟨(serves_full (by omega)).2 (by rw [hcard]; exact h.1), fun n hn => h.2 ?_⟩
    have := (serves_full (by omega)).1 hn
    rwa [hcard] at this

/-! ## The recorded stream -/

/-- The addresses of the pages of a list of addresses. -/
def pageVas (vas : List Nat) : List Nat := vas.map (roundDown · pageSize)

theorem pageVas_eq (vas : List Nat) : pageVas vas = (pages vas).map (· * 4096) := by
  rw [pages, List.map_map]
  exact List.map_congr_left fun va _ => by
    show roundDown va pageSize = va / 4096 * 4096
    unfold roundDown pageSize
    omega

section Recorded

variable {s t : FaultState} {vas : List Nat}

/-- The recorded stream is made of accesses, in their order. -/
theorem Accesses.recorded (h : Accesses s vas t) (hs : Start s) :
    (pages t.machine.env.referenceStreamList).Sublist (pages vas) := by
  obtain ⟨qs, hqs, hsub⟩ := PhaseLog.run_sublist s.machine.env.pageWsMaxSize (counted s vas) ⟨[], []⟩
  rw [(h.follows_start hs.follows hs.stream).log, hqs, List.nil_append]
  exact hsub.trans (List.dropWhile_sublist _)

end Recorded

/-- For a process of distinct loaded pages, the call returns the least number of faults of any demand-paging schedule
with `page_WS_max_size` frames for the recorded stream. The stream is made of accesses of the process, in their
order, and no schedule for all of them has fewer faults. -/
theorem optimal_faults_of_stream (early : Prop) {s t : FaultState} {vas : List Nat} (hs : Start s)
    (hr : Accesses s vas t)
    (hne : s.machine.env.pageWsList ≠ []) (hdistinct : (wsPages s.machine.env).Nodup) (kmalloc : Nat → Nat) (m : VaOf)
    (refs : List Nat) (hlaid : Laid m refs t.machine.env) (hinj : Function.Injective kmalloc)
    (hnew : ∀ i, kmalloc i ∉ t.machine.env.pageWsList.map (·.addr) ++ refs) :
    ∃ n, sysGetOptimalNumFaults kmalloc m refs (s.machine.env.pageWsList.map (·.virtualAddress)) t.machine.env = .ok n ∧
      Fewest early s.machine.env.pageWsMaxSize (pageVas (s.machine.env.pageWsList.map (·.virtualAddress))).toFinset
        (pageVas t.machine.env.referenceStreamList) n ∧
      (pageVas t.machine.env.referenceStreamList).Sublist (pageVas vas) ∧
      ∀ N, Serves early s.machine.env.pageWsMaxSize (pageVas (s.machine.env.pageWsList.map (·.virtualAddress))).toFinset
        (pageVas vas) N → n ≤ N := by
  have hF := hr.follows_start hs.follows hs.stream
  have hsub : (pageVas t.machine.env.referenceStreamList).Sublist (pageVas vas) := by
    rw [pageVas_eq, pageVas_eq]
    exact (hr.recorded hs).map _
  have hws : t.machine.env.pageWsList = s.machine.env.pageWsList := hF.ws
  have hinit : (t.machine.env.pageWsList.map (·.addr)).map (pageOf m) =
      pageVas (s.machine.env.pageWsList.map (·.virtualAddress)) := by
    rw [hws, pageVas, List.map_map, List.map_map]
    exact List.map_congr_left fun w hw => congrArg (roundDown · pageSize) (hlaid.ws w (hws ▸ hw))
  have hstream : refs.map (pageOf m) = pageVas t.machine.env.referenceStreamList := by
    rw [← hlaid.stream, pageVas, List.map_map]
    rfl
  have hnd : ((t.machine.env.pageWsList.map (·.addr)).map (pageOf m)).Nodup := by
    rw [hinit, pageVas_eq]
    exact hdistinct.map fun a b hab => Nat.eq_of_mul_eq_mul_right (by decide) hab
  have hmin := getOptimalNumFaults_fewest early refs t.machine.env.pageWsMaxSize
    (by rw [hws]; simpa using hne) hnd hinj hnew
  rw [hinit, hstream, hF.size] at hmin
  refine ⟨_, ?_, hmin, hsub, fun N hN => ?_⟩
  · rw [sysGetOptimalNumFaults, hws, samePrepaged_self, if_pos rfl, ← hws, hF.size]
  · obtain ⟨n, hn, hserves⟩ := hN.sublist hsub
    exact (hmin.2 hserves).trans hn

/-! ## A run -/

/-- Four pages, two of them once more, and the first two again. -/
def returning : List Nat := [2, 3, 4, 5, 4, 5, 2, 3].map stackPage

/-- What is recorded of it. -/
def returningStream : List Nat := [2, 3, 4, 5, 2, 3].map stackPage

/-- The elements of the reference stream are at `100` and after, and those of the working set in their blocks. -/
def returningVa : VaOf := fun e =>
  if e = kernelHeapStart then stackPage 0 else if e = kernelHeapStart + 32 then stackPage 1
    else returningStream.getD (e - 100) 0

def nextBlock (i : Nat) : Nat := kernelHeapStart + 4096 + 32 * i

theorem nextBlock_injective : Function.Injective nextBlock := by
  intro i j h
  unfold nextBlock at h
  omega

/-- Blocks of the kernel heap that neither list has. -/
theorem nextBlock_new (i : Nat) :
    nextBlock i ∉ [kernelHeapStart, kernelHeapStart + 32] ++ [100, 101, 102, 103, 104, 105] := by
  unfold nextBlock kernelHeapStart
  simp only [List.cons_append, List.nil_append, List.mem_cons, List.not_mem_nil, or_false]
  omega

theorem returning_run : ∃ t, Accesses (stackProcess 2) returning t ∧
    t.machine.env.referenceStreamList = returningStream ∧
    t.machine.env.pageWsList = (stackProcess 2).machine.env.pageWsList ∧ t.machine.env.pageWsMaxSize = 2 := by
  obtain ⟨t, hr, ht⟩ := accesses_run (stackProcess 2) returning
    (fun t => t.machine.env.referenceStreamList == returningStream &&
      (t.machine.env.pageWsList == (stackProcess 2).machine.env.pageWsList && t.machine.env.pageWsMaxSize == 2))
    (by decide) (by decide +kernel)
  simp only [Bool.and_eq_true, beq_iff_eq] at ht
  exact ⟨t, hr, ht⟩

theorem returning_laid {t : FaultState} (hstream : t.machine.env.referenceStreamList = returningStream)
    (hws : t.machine.env.pageWsList = (stackProcess 2).machine.env.pageWsList) :
    Laid returningVa [100, 101, 102, 103, 104, 105] t.machine.env := by
  refine ⟨?_, by rw [hstream]; decide⟩
  rw [hws]
  decide

theorem optimal_faults_of_stream_returning : ∃ t n, Accesses (stackProcess 2) returning t ∧
    sysGetOptimalNumFaults nextBlock returningVa [100, 101, 102, 103, 104, 105]
      [stackPage 0, stackPage 1] t.machine.env = .ok n ∧
    ∀ N, Serves False 2 (pageVas [stackPage 0, stackPage 1]).toFinset (pageVas returning) N → n ≤ N := by
  obtain ⟨t, hr, hstream, hws, -⟩ := returning_run
  obtain ⟨n, hn, -, -, hle⟩ := optimal_faults_of_stream False (stackProcess_start 2) hr (by decide)
    (by decide) nextBlock returningVa [100, 101, 102, 103, 104, 105] (returning_laid hstream hws) nextBlock_injective
    (by rw [hws]; exact nextBlock_new)
  exact ⟨t, n, hr, hn, hle⟩

/-- A page that two segments share is in the working set twice. -/
def samePageTwice : List WorkingSetElement :=
  [⟨kernelHeapStart, stackPage 0, 0⟩, ⟨kernelHeapStart + 64, stackPage 0, 0⟩, ⟨kernelHeapStart + 32, stackPage 1, 0⟩]

def sharedVa : VaOf := fun e =>
  if e = kernelHeapStart ∨ e = kernelHeapStart + 64 then stackPage 0 else if e = kernelHeapStart + 32 then stackPage 1
  else ([2, 0, 1].map stackPage).getD (e - 100) 0

/-- The call returns five where all the accesses need six faults: the stream does not show that the two pages
between were used once more. Where a page is loaded twice it returns two, and one fault is enough. -/
theorem optimal_faults_fewer : (∃ t, Accesses (stackProcess 2) returning t ∧
      Laid returningVa [100, 101, 102, 103, 104, 105] t.machine.env ∧
      sysGetOptimalNumFaults nextBlock returningVa [100, 101, 102, 103, 104, 105]
        [stackPage 0, stackPage 1] t.machine.env = .ok 5 ∧
      ∀ early, Fewest early 2 (pageVas [stackPage 0, stackPage 1]).toFinset (pageVas returning) 6) ∧
    ∃ t, Accesses (loadedProcess samePageTwice 3) ([2, 0, 1].map stackPage) t ∧
      Laid sharedVa [100, 101, 102] t.machine.env ∧
      sysGetOptimalNumFaults nextBlock sharedVa [100, 101, 102]
        [stackPage 0, stackPage 0, stackPage 1] t.machine.env = .ok 2 ∧
      ∀ early, Serves early 3 (pageVas [stackPage 0, stackPage 0, stackPage 1]).toFinset
        (pageVas ([2, 0, 1].map stackPage)) 1 := by
  constructor
  · obtain ⟨t, hr, hstream, hws, hsize⟩ := returning_run
    refine ⟨t, hr, returning_laid hstream hws, ?_, fun early => ?_⟩
    · rw [sysGetOptimalNumFaults, hws, hsize]
      decide
    · have h := getOptimalNumFaults_fewest early (m := fun e => ([stackPage 0, stackPage 1] ++ returning).getD e 0)
        [2, 3, 4, 5, 6, 7, 8, 9] 2 (show [0, 1] ≠ [] by decide) (by decide) nextBlock_injective (fun i hi => by
          unfold nextBlock kernelHeapStart at hi
          simp only [List.cons_append, List.nil_append, List.mem_cons, List.not_mem_nil, or_false] at hi
          omega)
      exact h
  · obtain ⟨t, hr, ht⟩ := accesses_run (loadedProcess samePageTwice 3) ([2, 0, 1].map stackPage)
      (fun t => t.machine.env.referenceStreamList == [2, 0, 1].map stackPage &&
        (t.machine.env.pageWsList == samePageTwice && t.machine.env.pageWsMaxSize == 3)) (by decide) (by decide +kernel)
    simp only [Bool.and_eq_true, beq_iff_eq] at ht
    obtain ⟨hstream, hws, hsize⟩ := ht
    refine ⟨t, hr, ⟨by rw [hws]; decide, by rw [hstream]; decide⟩, ?_, fun early => ?_⟩
    · rw [sysGetOptimalNumFaults, hws, hsize]
      decide
    · exact .place (by decide) (by decide) (.hit (by decide) (.hit (by decide) .done))

end Fos.Fault
