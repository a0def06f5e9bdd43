/-
The memory that boot leaves: `initialize_paging` lists exactly the frames that the kernel's structures leave, and the
page tables are as the kernel heap and the directories of processes need them.
-/
import Fos.Boot.KernelVM
import Fos.Fault.KernelTables

namespace Fos.Boot

open Fos.Lib Fos.Memory Fos.Heap Fos.Proc Fos.Disk Fos.Fault

/-! ## `initialize_paging` -/

section Paging

variable {s t : BootState} {D q : Nat} {made : Nat → Prop} {S L : Nat → Pte}

/-- What `initialize_paging` changes. -/
def BootState.paged (t : BootState) (E : Nat → Nat → Pte) (F : Nat → FrameInfo) (l : List Nat) : BootState :=
  { t with entries := E, framesInfo := F, freeFrameList := l }

@[simp] theorem BootState.paged_ptrFreeMem (t : BootState) (E : Nat → Nat → Pte) (F : Nat → FrameInfo)
(l : List Nat) :
    (t.paged E F l).ptrFreeMem = t.ptrFreeMem := rfl
@[simp] theorem BootState.paged_numberOfFrames (t : BootState) (E : Nat → Nat → Pte) (F : Nat → FrameInfo)
(l : List Nat) :
    (t.paged E F l).numberOfFrames = t.numberOfFrames := rfl

/-- The frames from `a` on, `n` of them, are listed. -/
def listed (a n : Nat) (F : Nat → FrameInfo) (f : Nat) : FrameInfo := if a ≤ f ∧ f < a + n then {} else F f

/-- They are in use. -/
def referenced (a n : Nat) (F : Nat → FrameInfo) (f : Nat) : FrameInfo :=
  if a ≤ f ∧ f < a + n then { F f with references := 1 } else F f

variable {E : Nat → Nat → Pte} {F : Nat → FrameInfo} {l : List Nat}

theorem setReferences_paged (i : Nat) : setReferences i (t.paged E F l) = .ok () (t.paged E (referenced i 1 F) l) :=
    by
  show EStateM.Result.ok () (t.paged E (Function.update F i { F i with references := 1 }) l) = _
  congr 2
  funext f
  rw [Function.update_apply, referenced]
  by_cases hfi : f = i
  · subst hfi
    rw [if_pos rfl, if_pos (by omega)]
  · rw [if_neg hfi, if_neg (by omega)]

theorem forM_insertFree (n a : Nat) : (List.range' a n).forM insertFree (t.paged E F l) =
    .ok () (t.paged E (listed a n F) ((List.range' a n).reverse ++ l)) := by
  induction n generalizing a F l with
  | zero =>
    have hsame : listed a 0 F = F := funext fun f => if_neg (by omega)
    rw [hsame]
    rfl
  | succ n ih =>
    show (List.range' (a + 1) n).forM insertFree (t.paged E (Function.update F a {}) (a :: l)) = _
    rw [ih, List.range'_succ, List.reverse_cons, List.append_assoc]
    congr 2
    funext f
    simp only [listed, Function.update_apply]
    split_ifs <;> first | rfl | omega

theorem forM_setReferences (n a : Nat) :
    (List.range' a n).forM setReferences (t.paged E F l) = .ok () (t.paged E (referenced a n F) l) := by
  induction n generalizing a F with
  | zero =>
    have hsame : referenced a 0 F = F := funext fun f => if_neg (by omega)
    rw [hsame]
    rfl
  | succ n ih =>
    show (setReferences a >>= fun _ => (List.range' (a + 1) n).forM setReferences) (t.paged E F l) = _
    rw [bind_of_ok (setReferences_paged a), ih]
    congr 2
    funext f
    simp only [referenced]
    split_ifs <;> first | rfl | omega

/-- The frames that are left: those of base memory after the zero page and the temporary one, and those after `q`. -/
def LeftFree (q f : Nat) : Prop := 3 ≤ f ∧ f < 160 ∨ q ≤ f

instance (q f : Nat) : Decidable (LeftFree q f) := inferInstanceAs (Decidable (_ ∨ _))

theorem clear_above {a size g j : Nat} (hg : a + size ≤ 4096 * g) :
    (t.clear (kernelBase + a) size).entries g j = t.entries g j :=
  if_neg (by omega)

theorem initializePaging_ok (h : Stage s D q made S L t) (hfit : Fits s q) (hinfo : t.framesInfo = fun _ => {}) :
    ∃ u, initializePaging t = .ok () u ∧ Stage s D q made S L { u with framesInfo := t.framesInfo } ∧
      u.freeFrameList = (List.range' q (s.numberOfFrames - q)).reverse ++ (List.range' 3 157).reverse ∧
      ∀ f < s.numberOfFrames, u.framesInfo f = { references := if LeftFree q f then 0 else 1 } := by
  have hq : 256 < q := by
    have := h.dirFrame
    omega
  have hround : roundUp (t.ptrFreeMem - kernelBase) pageSize = q * 4096 := by
    have h1 := h.top
    have h2 := hfit.2
    simp only [BootState.top, pagesFor, kernelBase, kernelHeapStart, pageSize] at h1 h2 ⊢
    unfold roundUp roundDown
    omega
  have hlow : kernelBase ≤ t.ptrFreeMem := (Nat.le_add_right ..).trans h.low
  have hio : physIoMem / pageSize = 160 := by decide
  have hext : physExtendedMem / pageSize = 256 := by decide
  let E := ((t.clear (kernelBase + pageSize) 1024).clear (kernelBase + 2 * pageSize) 1024).entries
  let F := listed q (s.numberOfFrames - q) (referenced 256 (q - 256) (referenced 160 96 (listed 3 157
    (referenced 2 1 (referenced 1 1 (referenced 0 1 t.framesInfo))))))
  have hrun : initializePaging t =
      .ok () (t.paged E F ((List.range' q (s.numberOfFrames - q)).reverse ++
      ((List.range' 3 157).reverse ++ []))) := by
    have hstart : (modify ({ · with freeFrameList := [] }) : BM Unit) t = .ok ()
      (t.paged t.entries t.framesInfo []) := rfl
    have hclear : ∀ {E F l} kva size, (modify (·.clear kva size) : BM Unit) (t.paged E F l) =
        .ok () (t.paged ((t.paged E F l).clear kva size).entries F l) := fun _ _ => rfl
    unfold initializePaging
    rw [bind_of_ok hstart, bind_of_ok (setReferences_paged 0), bind_of_ok (setReferences_paged 1),
      bind_of_ok (setReferences_paged 2), bind_of_ok (hclear _ _), bind_of_ok (hclear _ _), hio, hext,
      bind_of_ok (forM_insertFree _ 3), bind_of_ok (forM_setReferences _ 160), get_bind, BootState.paged_ptrFreeMem,
      bind_of_ok (staticKernelPhysicalAddress_eq hlow), hround,
      show q * 4096 / pageSize = q from Nat.mul_div_cancel _ (by decide),
      bind_of_ok (forM_setReferences _ 256), get_bind, BootState.paged_numberOfFrames, h.frames, forM_insertFree]
    rfl
  refine ⟨_, hrun, h.of_entries ⟨rfl, rfl, rfl, rfl, rfl⟩ h.low h.top le_rfl fun g j hg _ _ =>
    ?_, by simp [BootState.paged],
    fun f hf => ?_⟩
  · show ((t.clear (kernelBase + pageSize) 1024).clear (kernelBase + 2 * pageSize) 1024).entries g j = _
    have habove : 4096 * 256 ≤ 4096 * g := Nat.mul_le_mul_left _ hg
    rw [clear_above ((show 2 * pageSize + 1024 ≤ 4096 * 256 by decide).trans habove),
      clear_above ((show pageSize + 1024 ≤ 4096 * 256 by decide).trans habove)]
  · show F f = _
    simp only [F, listed, referenced, hinfo]
    by_cases hleft : LeftFree q f
    · rw [if_pos hleft]
      unfold LeftFree at hleft
      split_ifs <;> first | rfl | omega
    · rw [if_neg hleft]
      unfold LeftFree at hleft
      split_ifs <;> first | rfl | omega

end Paging

/-! ## What boot leaves -/

/-- The memory after boot. The kernel heap can start and directories can be made from it (`booted`, `shares`); the pages
of the kernel have the entries of `kernelLook` and no others, in the tables of `bootEntry`; a frame is listed as free if
and only if it has no reference, and then it is of base memory or after all that boot allocated, so that no page table
is in it. -/
structure LeavesMemory (s : BootState) (m : Mem) : Prop where
  booted : Booted m
  shares : SharesKernel m
  entries : ∀ v < 1048576, Ordinary (v / 1024) → m.pte (0, v) = s.kernelLook v
  tables : ∀ i < 1024, Ordinary i → ((m.table 0 i).isSome = true ↔ bootEntry i = true)
  free : ∀ f < s.numberOfFrames, f ∈ m.freeFrameList ↔ LeftFree s.bootTop f
  references : ∀ f < s.numberOfFrames, (m.framesInfo f).references = if f ∈ m.freeFrameList then 0 else 1
  tableFrames : ∀ i f, Ordinary i → m.table 0 i = some f → f ∉ m.freeFrameList

section Leaves

variable {s t u : BootState} {S : Nat → Pte}

/-- From the frames' information and the tables. -/
theorem leavesMemory_of (h : Bootable s)
    (hs : Stage { s with framesInfo := fun _ => {} } s.firstFrame s.bootTop
    (fun i => bootEntry i = true) S s.kernelLook
      { u with framesInfo := t.framesInfo })
    (hfree : u.freeFrameList = (List.range' s.bootTop (s.numberOfFrames - s.bootTop)).reverse ++
    (List.range' 3 157).reverse)
    (hinfo : ∀ f < s.numberOfFrames, u.framesInfo f = { references := if LeftFree s.bootTop f then 0 else 1 }) :
    LeavesMemory s u.mem := by
  have hq : s.bootTop ≤ 24576 := by
    have := h.fits.2
    simp only [kernelBase, kernelHeapStart] at this
    omega
  have hram : s.bootTop ≤ s.numberOfFrames := h.fits.1
  have hlow : 256 < s.bootTop := by
    have := hs.dirFrame
    omega
  have hframes : u.numberOfFrames = s.numberOfFrames := hs.frames
  have hmem : ∀ f, f ∈ u.freeFrameList ↔ f < s.numberOfFrames ∧ LeftFree s.bootTop f := by
    intro f
    rw [hfree, List.mem_append, List.mem_reverse, List.mem_reverse, List.mem_range'_1, List.mem_range'_1, LeftFree]
    omega
  have htable : ∀ i, Ordinary i → bootEntry i = true → u.mem.table 0 i = some (u.entry i).frame := fun i hi hk =>
    if_pos ⟨rfl, hi.1, (hs.table i hi hk).1⟩
  have hnone : ∀ i, Ordinary i → bootEntry i = false → u.mem.table 0 i = none := by
    intro i hi hk
    have hentry : u.entry i = {} := hs.none hi (by rw [hk]; exact Bool.false_ne_true)
    apply if_neg
    intro hc
    rw [hentry] at hc
    cases hc.2.2
  have hentries : ∀ v < 1048576, Ordinary (v / 1024) → u.mem.pte (0, v) = s.kernelLook v := fun v hv hord =>
    (if_pos ⟨rfl, hv⟩).trans (hs.look v hord)
  have hheap : ∀ v, 1007616 ≤ v → v < 1048576 → u.mem.pte (0, v) = {} := by
    intro v h1 h2
    rw [hentries v h2 ⟨by omega, by omega, by omega⟩]
    simp only [BootState.kernelLook, mappedTo, Function.update_apply]
    have := h.envs.2
    rw [if_neg (by omega), if_neg (by omega), if_neg (by omega), if_neg (by omega)]
  have hreferences : ∀ f < s.numberOfFrames, (u.framesInfo f).references = if f ∈ u.freeFrameList then 0 else 1 :=
    fun f hf => by
    rw [hinfo f hf]
    exact if_congr (by rw [hmem]; exact ⟨fun hl => ⟨hf, hl⟩, fun hl => hl.2⟩) rfl rfl
  refine ⟨⟨?_, ?_, fun f hf => ?_, fun f hf => ?_, fun v hv => ?_, fun v hv => ?_, fun i hi => ?_, ?_,
    fun f hf => ?_, ?_⟩, ?_,
    hentries, fun i hi hord => ?_, fun f hf => ?_, hreferences, fun i f hord hf => ?_⟩
  · exact hframes.trans_lt h.frames
  · show u.freeFrameList.Nodup
    rw [hfree, List.nodup_append, List.nodup_reverse, List.nodup_reverse]
    refine ⟨List.nodup_range', List.nodup_range', fun a ha b hb => ?_⟩
    rw [List.mem_reverse, List.mem_range'_1] at ha hb
    omega
  · exact ((hmem f).1 hf).1.trans_eq hframes.symm
  · exact congrArg FrameInfo.va (hinfo f (hf.trans_eq hframes))
  · have hord : Ordinary (v / 1024) := ⟨by have := hv.2; omega, by have := hv.1; omega, by have := hv.1; omega⟩
    rw [htable _ hord (bootEntry_of_le (by have := hv.1; omega))]
    rfl
  · exact hheap v hv.1 (by have := hv.2; omega)
  · exact hnone i ⟨by omega, by omega, by omega⟩ (Bool.eq_false_iff.2 fun hk => by rw [bootEntry_iff] at hk; omega)
  · exact hheap _ (by decide) (by decide)
  · exact (hreferences f ((hmem f).1 hf).1).trans (if_pos hf)
  · rw [show u.mem.freeFrameList = u.freeFrameList from rfl, hmem, LeftFree]
    omega
  · intro d hd i _
    rw [Finset.mem_singleton.1 hd]
  · cases hk : bootEntry i with
    | true =>
      rw [htable i hord hk]
      simp
    | false =>
      rw [hnone i hord hk]
      simp
  · exact (hmem f).trans ⟨fun hl => hl.2, fun hl => ⟨hf, hl⟩⟩
  · have hk : bootEntry i = true := by
      cases hk : bootEntry i with
      | true => rfl
      | false =>
        rw [hnone i hord hk] at hf
        cases hf
    rw [htable i hord hk] at hf
    obtain ⟨-, h1, h2, -⟩ := hs.table i hord hk
    obtain rfl := Option.some.inj hf
    rw [show u.mem.freeFrameList = u.freeFrameList from rfl, hmem, LeftFree]
    have h1' : 256 ≤ (u.entry i).frame := h1
    have h2' : (u.entry i).frame < s.bootTop := h2
    omega

end Leaves

/-- However the kernel is loaded and whatever the RAM holds before, if its structures fit, boot ends, its own check
passes, and it leaves the memory so. -/
theorem boot_leaves_memory {s : BootState} (h : Bootable s) : ∃ t, boot s = .ok () t ∧ LeavesMemory s t.mem := by
  obtain ⟨t, S, hvm, hs⟩ := initializeKernelVM_ok h
  obtain ⟨u, hpaging, hs', hfree, hinfo⟩ := initializePaging_ok hs (by exact h.fits) hs.info
  refine ⟨u, ?_, leavesMemory_of h hs' hfree hinfo⟩
  unfold boot
  rw [bind_of_ok hvm, hpaging]

/-- 32 MB of RAM, with the kernel in its second megabyte and words in all frames that look like entries. -/
def ram32 : BootState where
  endOfKernel := 0xF0200000
  ptrStackBottom := 0xF0110000
  sizeofEnv := 500
  numberOfFrames := 8192
  entries := fun _ _ => ⟨5, .permPresent⟩
  framesInfo := fun _ => ⟨7, 7, 7⟩

theorem ram32_bootable : Bootable ram32 := by
  refine ⟨rfl, by decide, by decide, by decide, by decide, by decide, ?_⟩
  have htop : ram32.bootTop = 1801 := by decide
  rw [htop]
  exact ⟨by decide, by decide⟩

theorem boot_leaves_memory_ram32 : ∃ t, boot ram32 = .ok () t ∧ LeavesMemory ram32 t.mem :=
    boot_leaves_memory ram32_bootable

end Fos.Boot
