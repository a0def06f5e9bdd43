/-
`initialize_kernel_VM` as a whole: if the kernel's structures fit below its heap and in the RAM, it passes its own check
and ends with the page tables it says.
-/
import Fos.Boot.Tables

namespace Fos.Boot

open Fos.Lib Fos.Memory Fos.Proc Fos.Disk

/-! ## The first allocation and the directory's own entries -/

section Parts

variable {s t u : BootState} {D q n i v f : Nat} {made : Nat → Prop} {S L : Nat → Pte} {perm : Perm} {e : Pte}

/-- The page directory, in the first frame after the kernel. -/
def BootState.withDirectory (s : BootState) (D : Nat) : BootState :=
  { { s with ptrFreeMem := s.endOfKernel }.allocated pageSize D with ptrPageDirectory := kernelBase + 4096 * D }

@[simp] theorem BootState.allocated_envsSize (s : BootState) (size q : Nat) :
(s.allocated size q).envsSize = s.envsSize := rfl

theorem BootState.withDirectory_stack (s : BootState) (D : Nat) :
    (s.withDirectory D).ptrStackBottom = s.ptrStackBottom := rfl

theorem bootAllocateSpace_first (hfree : s.ptrFreeMem = 0) (hend : kernelBase + physExtendedMem ≤ s.endOfKernel)
    (hD : pagesFor (s.endOfKernel - kernelBase) = D) (hfit : Fits s (D + 1)) :
    bootAllocateSpace pageSize pageSize s =
      .ok (kernelBase + 4096 * D) ({ s with ptrFreeMem := s.endOfKernel }.allocated pageSize D) := by
  have hpos : s.endOfKernel ≠ 0 := by
    simp only [kernelBase, physExtendedMem] at hend
    omega
  have hsame : bootAllocateSpace pageSize pageSize s = bootAllocateSpace pageSize pageSize { s with ptrFreeMem :=
    s.endOfKernel } := by
    unfold bootAllocateSpace
    rw [modify_bind, if_pos hfree]
    symm
    rw [modify_bind, if_neg hpos]
  rw [hsame]
  exact bootAllocateSpace_eq hend hD hfit.2

theorem Stage.start (hend : kernelBase + physExtendedMem ≤ s.endOfKernel)
    (hD : pagesFor (s.endOfKernel - kernelBase) = D) :
    Stage s D (D + 1) (fun _ => False) (fun _ => {}) (fun _ => {}) (s.withDirectory D) := by
  have hdir : (s.withDirectory D).dirFrame = D := BootState.frame_of D
  have hempty : ∀ i < 1024, (s.withDirectory D).entry i = {} := by
    intro i hi
    rw [BootState.entry, hdir]
    exact BootState.clear_within _ D pageSize le_rfl (by simp only [pageSize]; omega)
  refine ⟨rfl, rfl, rfl, rfl, ?_, top_allocated { s with ptrFreeMem := s.endOfKernel } pageSize D, rfl,
    ⟨?_, by omega⟩,
    fun i hi => ?_, fun i _ hm => hm.elim, fun i j _ _ hm => hm.elim, fun i hi => hempty i (by omega), fun v hv => ?_⟩
  · simp only [BootState.withDirectory, BootState.allocated, physExtendedMem, pagesFor] at hend hD ⊢
    omega
  · simp only [physExtendedMem, pagesFor] at hend hD
    omega
  · rw [hempty i hi.1]
    simp
  · rw [BootState.look, hempty _ hv.1]
    rfl

/-- An entry of the directory for the directory itself. -/
theorem Stage.list (h : Stage s D q made S L t) (hi : i = 957 ∨ i = 959) (e : Pte) :
    Stage s D q made (Function.update S i e) L (t.setWord (kernelBase + 4096 * D) i e) := by
  have hentry : ∀ j, (t.setWord (kernelBase + 4096 * D) i e).entry j = if j = i then e else t.entry j := by
    intro j
    rw [BootState.entry, BootState.setWord_dirFrame, h.dirFrame_eq, BootState.setWord_entries, h.entry_eq]
    simp only [true_and]
  have hother : ∀ j, Ordinary j → (t.setWord (kernelBase + 4096 * D) i e).entry j = t.entry j := by
    intro j hj
    rw [hentry, if_neg fun hc => by have := hj.2; omega]
  refine ⟨h.frames, h.info, h.stackBottom, h.sizeofEnv, h.low, h.top, h.dir, h.dirFrame, fun j hj => ?_,
    fun j hj hm => ?_,
    fun j k hj hk hmj hmk heq => ?_, fun j hj => ?_, fun v hv => ?_⟩
  · rw [hother j hj]
    exact h.known j hj
  · rw [hother j hj]
    exact h.table j hj hm
  · rw [hother j hj, hother k hk] at heq
    exact h.inj j k hj hk hmj hmk heq
  · rw [hentry, Function.update_apply, h.listing j hj]
  · rw [← h.look v hv, BootState.look, BootState.look, hother _ hv]
    split
    · rename_i hp
      have hm : made (v / 1024) := (h.known _ hv).2 fun hc => by rw [hc] at hp; cases hp
      rw [BootState.setWord_entries, if_neg fun hc => (h.table _ hv hm).2.2.2 hc.1]
    · rfl

/-- Other permissions for a table that is there. -/
theorem Stage.permit (h : Stage s D q made S L t) (perm : Perm) (hi : Ordinary i) (hm : made i)
    (hp : perm.present = true) :
    Stage s D q made S L (t.setWord (kernelBase + 4096 * D) i { t.entry i with perm := perm }) := by
  have hentry : ∀ j, (t.setWord (kernelBase + 4096 * D) i { t.entry i with perm := perm }).entry j =
      if j = i then { t.entry i with perm := perm } else t.entry j := fun j => by
    rw [BootState.entry, BootState.setWord_dirFrame, h.dirFrame_eq, BootState.setWord_entries, h.entry_eq j]
    simp only [true_and]
  have hframe : ∀ j, ((t.setWord (kernelBase + 4096 * D) i { t.entry i with perm := perm }).entry j).frame =
    (t.entry j).frame :=
    fun j => by
      rw [hentry]
      split
      · rename_i hji
        rw [hji]
      · rfl
  have hpresent := (h.table i hi hm).1
  refine ⟨h.frames, h.info, h.stackBottom, h.sizeofEnv, h.low, h.top, h.dir, h.dirFrame, fun j hj => ?_,
    fun j hj hmj => ?_,
    fun j k hj hk hmj hmk heq => ?_, fun j hj => ?_, fun v hv => ?_⟩
  · rw [hentry]
    split
    · rename_i hji
      refine ⟨fun _ hc => ?_, fun _ => hji ▸ hm⟩
      rw [show perm = ({} : Perm) from congrArg Pte.perm hc] at hp
      cases hp
    · exact h.known j hj
  · rw [hframe]
    refine ⟨?_, (h.table j hj hmj).2⟩
    rw [hentry]
    split
    · exact hp
    · exact (h.table j hj hmj).1
  · rw [hframe, hframe] at heq
    exact h.inj j k hj hk hmj hmk heq
  · rw [hentry, if_neg fun hc => by have := hi.2; omega]
    exact h.listing j hj
  · rw [← h.look v hv, BootState.look, BootState.look, hframe]
    have hsame : ((t.setWord (kernelBase + 4096 * D) i { t.entry i with perm := perm }).entry
      (v / 1024)).perm.present =
        (t.entry (v / 1024)).perm.present := by
      rw [hentry]
      split
      · rename_i hji
        rw [hji, hpresent]
        exact hp
      · rfl
    rw [hsame]
    split
    · rename_i hpv
      have hmv : made (v / 1024) := (h.known _ hv).2 fun hc => by rw [hc] at hpv; cases hpv
      rw [BootState.setWord_entries, if_neg fun hc => (h.table _ hv hmv).2.2.2 hc.1]
    · rfl

theorem Stage.congr {made' : Nat → Prop} (h : Stage s D q made S L t) (hm : ∀ i, Ordinary i → (made i ↔ made' i)) :
    Stage s D q made' S L t :=
  ⟨h.frames, h.info, h.stackBottom, h.sizeofEnv, h.low, h.top, h.dir, h.dirFrame,
    fun i hi => (hm i hi).symm.trans (h.known i hi), fun i hi hmi => h.table i hi ((hm i hi).2 hmi),
    fun i j hi hj hmi hmj => h.inj i j hi hj ((hm i hi).2 hmi) ((hm j hj).2 hmj), h.listing, h.look⟩

/-- `frames_info` is cleared. -/
theorem Stage.clearInfo (h : Stage s D q made S L t) :
    Stage { s with framesInfo := fun _ => {} } D q made S L { t with framesInfo := fun _ => {} } :=
  ⟨h.frames, rfl, h.stackBottom, h.sizeofEnv, h.low, h.top, h.dir, h.dirFrame, h.known, h.table, h.inj, h.listing,
  h.look⟩

/-- `pt_set_page_permissions`, where the table is there. -/
theorem ptSetPagePermissions_eq (h : Stage s D q made S L t) (hfit : Fits s q) (hi : Ordinary (v / 1024))
    (hm : made (v / 1024)) (pset pclear : Perm) :
    ∃ u, Boot.ptSetPagePermissions (kernelBase + 4096 * D) (v * 4096) pset pclear t = .ok () u ∧
      Stage s D q made S (Function.update L v { L v with perm := ((L v).perm.union pset).diff pclear }) u := by
  obtain ⟨hp, -, hlt, -⟩ := h.table _ hi hm
  have hbound : (t.entry (v / 1024)).frame < 65536 := by
    have := hfit.2
    simp only [kernelBase, kernelHeapStart] at this
    omega
  have hword : t.word (kernelBase + 4096 * (t.entry (v / 1024)).frame) (v % 1024) = L v := by
    rw [BootState.word_frame, ← h.look v hi, BootState.look, if_pos hp]
  refine ⟨_, ?_, h.setEntry hi hm _⟩
  unfold Boot.ptSetPagePermissions
  rw [get_bind, pdx_page, h.word, if_pos hp,
    bind_of_ok (staticKernelVirtualAddress_eq (by rw [h.frames]; have := hfit.1; omega) hbound)]
  rw [ptx_page, ← hword]
  rfl

/-- The tables from `KERNEL_BASE` on. -/
theorem kernelTables_ok (h : Stage s D q made S L t) (hfit : Fits s (q + 64)) (hno : ∀ i, 960 ≤ i → ¬ made i) :
    ∃ u, ((List.range 64).forM fun k => do
        let _ ← bootGetPageTable (kernelBase + 4096 * D) (kernelBase + k * ptSize) true) t = .ok () u ∧
      Stage s D (q + 64) (fun i => made i ∨ 960 ≤ i ∧ i < 1024) S L u := by
  have hstart : Stage s D (q + 0) (fun i => made i ∨ 960 ≤ i ∧ i < 960 + 0) S L t := by
    have hsame : (fun i => made i ∨ 960 ≤ i ∧ i < 960 + 0) = made := funext fun i => propext (or_iff_left (by omega))
    rwa [hsame]
  refine forM_range_ok (P := fun k u => Stage s D (q + k) (fun i => made i ∨ 960 ≤ i ∧ i < 960 + k) S L u)
    (fun k hk u hu => ?_) hstart
  have hpdx : pdx (kernelBase + k * ptSize) = 960 + k := by
    simp only [pdx, kernelBase, ptSize]
    omega
  have hord : Ordinary (960 + k) := ⟨by omega, by omega, by omega⟩
  have hnew : ¬ (made (960 + k) ∨ 960 ≤ 960 + k ∧ 960 + k < 960 + k) := by
    rintro (hm | hm)
    · exact hno _ (by omega) hm
    · omega
  have hroom := hfit.mono (show q + k + 1 ≤ q + 64 by omega)
  have hmake := bootGetPageTable_new (v := kernelBase + k * ptSize) hu hroom (by rwa [hpdx]) (by rwa [hpdx])
  have hstage := hu.withTable hroom hord hnew
  rw [hpdx] at hmake
  refine ⟨_, by rw [bind_of_ok hmake]; rfl, ?_⟩
  have hsame : (fun i => (made i ∨ 960 ≤ i ∧ i < 960 + k) ∨ i = 960 + k) = fun i => made i ∨ 960 ≤ i ∧
    i < 960 + (k + 1) := by
    funext i
    apply propext
    rw [or_assoc]
    exact or_congr_right (by omega)
  rwa [← hsame, show q + (k + 1) = q + k + 1 by omega]

theorem setupListing_ok (h : Stage s D q made S L t) : ∃ u S', setupListingToAllPageTablesEntries t = .ok () u ∧
    Stage s D q made S' L u ∧ ∀ i, i = 957 ∨ i = 959 → S' i ≠ {} := by
  have h₁ := h.list (i := pdx vpt) (.inr (by decide)) ⟨D, { present := true, writeable := true }⟩
  have h₂ := h₁.list (i := pdx uvpt) (.inl (by decide)) ⟨D, { present := true, user := true }⟩
  refine ⟨_, _, ?_, h₂, ?_⟩
  · unfold setupListingToAllPageTablesEntries
    rw [get_bind, h.dir, bind_of_ok (staticKernelPhysicalAddress_eq (Nat.le_add_right ..)), BootState.frame_of,
      modify_bind]
    rfl
  · have hvpt : pdx vpt = 959 := by decide
    have huvpt : pdx uvpt = 957 := by decide
    rintro i (rfl | rfl)
    · rw [huvpt, Function.update_self]
      simp
    · rw [huvpt, hvpt, Function.update_of_ne (by decide), Function.update_self]
      simp

/-! ## The check and the switch to paging -/

theorem checkVa2pa_eq (h : Stage s D q made S L t) (hfit : Fits s q) (hi : Ordinary (v / 1024)) (hm : made (v / 1024))
    (hp : (L v).perm.present = true) :
    checkVa2pa (kernelBase + 4096 * D) (v * 4096) t = .ok ((L v).frame * 4096) t := by
  obtain ⟨hpe, -, hlt, -⟩ := h.table _ hi hm
  have hbound : (t.entry (v / 1024)).frame < 65536 := by
    have := hfit.2
    simp only [kernelBase, kernelHeapStart] at this
    omega
  have hword : t.word (kernelBase + 4096 * (t.entry (v / 1024)).frame) (v % 1024) = L v := by
    rw [BootState.word_frame, ← h.look v hi, BootState.look, if_pos hpe]
  unfold checkVa2pa
  rw [get_bind, pdx_page, h.word, hpe]
  show (staticKernelVirtualAddress _ >>= _) t = _
  rw [bind_of_ok (staticKernelVirtualAddress_eq (by rw [h.frames]; have := hfit.1; omega) hbound), get_bind,
    ptx_page, hword, hp]
  rfl

/-- A loop of checks that pass. -/
theorem forM_checks {g : Nat → BM Unit} (hg : ∀ k < n, g k t = .ok () t) : (List.range n).forM g t = .ok () t := by
  obtain ⟨u, hu, rfl⟩ := forM_range_ok (P := fun _ u => u = t) (g := g) (n := n)
    (fun k hk u hu => ⟨t, hu ▸ hg k hk, rfl⟩) rfl
  exact hu

theorem assertion_eq {c : Bool} (hc : c = true) (msg : String) : assertion c msg t = .ok () t := by
  rw [hc]
  rfl

theorem bootEntry_iff : bootEntry i = true ↔ (((i = 959 ∨ i = 957) ∨ i = 958) ∨ i = 955) ∨ 960 ≤ i := by
  simp only [bootEntry, Bool.or_eq_true, decide_eq_true_eq]
  rfl

theorem bootEntry_of_le (hi : 960 ≤ i) : bootEntry i = true := bootEntry_iff.2 (.inr hi)

/-- `check_boot_pgdir` passes. -/
theorem checkBootPgdir_eq (h : Stage s D q made S L t) (hfit : Fits s q) (hmade : ∀ i, Ordinary i →
    (made i ↔ bootEntry i = true))
    (hlist : ∀ i, i = 957 ∨ i = 959 → S i ≠ {}) (hbase : ∀ k < q, (L (983040 + k)).perm.present = true ∧
    (L (983040 + k)).frame = k)
    (hbottom : s.ptrStackBottom = kernelBase + 4096 * f)
    (hstack : ∀ k, 0 < k → k < 8 → (L (982008 + k)).perm.present = true ∧ (L (982008 + k)).frame = f + k) :
    checkBootPgdir t = .ok () t := by
  have hq : q ≤ 24576 := by
    have := hfit.2
    simp only [kernelBase, kernelHeapStart] at this
    omega
  unfold checkBootPgdir
  rw [get_bind]
  refine (bind_of_ok (forM_checks fun k hk => ?_)).trans ?_
  · -- the frames of the kernel
    have hkq : k < q := h.top ▸ hk
    obtain ⟨hp, hf⟩ := hbase k hkq
    have hi : Ordinary ((983040 + k) / 1024) := ⟨by omega, by omega, by omega⟩
    have hm : made ((983040 + k) / 1024) := (hmade _ hi).2 (bootEntry_of_le (by omega))
    have hva : kernelBase + k * pageSize = (983040 + k) * 4096 := by
      simp only [kernelBase, pageSize]
      omega
    rw [h.dir, hva, bind_of_ok (checkVa2pa_eq h hfit hi hm hp), hf]
    exact assertion_eq (decide_eq_true rfl) _
  rw [h.stackBottom, hbottom, bind_of_ok (staticKernelPhysicalAddress_eq (Nat.le_add_right ..)),
    Nat.add_sub_cancel_left]
  refine (bind_of_ok (forM_checks fun k hk => ?_)).trans (forM_checks fun i hi => ?_)
  · -- the stack
    split
    · rfl
    · rename_i hk0
      have hk8 : k < 8 := hk
      obtain ⟨hp, hf⟩ := hstack k (by omega) hk8
      have hi : Ordinary ((982008 + k) / 1024) := ⟨by omega, by omega, by omega⟩
      have hm : made ((982008 + k) / 1024) := by
        rw [show (982008 + k) / 1024 = 958 by omega]
        exact (hmade 958 (by decide)).2 (by decide)
      have hva : kernStackTop - kernelStackSize + k * pageSize = (982008 + k) * 4096 := by
        simp only [kernStackTop, vpt, ptSize, kernelStackSize, kernelBase, pageSize]
        omega
      rw [h.dir, hva, bind_of_ok (checkVa2pa_eq h hfit hi hm hp), hf]
      refine assertion_eq (decide_eq_true ?_) _
      simp only [pageSize]
      omega
  · -- the directory
    rw [get_bind, h.dir, h.word]
    by_cases hio : i = 957 ∨ i = 959
    · have hk : bootEntry i = true := by rcases hio with rfl | rfl <;> decide
      rw [if_pos hk, h.listing i hio]
      exact assertion_eq (decide_eq_true (hlist i hio)) _
    · have hord : Ordinary i := ⟨hi, by omega, by omega⟩
      split
      · rename_i hk
        exact assertion_eq (decide_eq_true ((h.known i hord).1 ((hmade i hord).2 hk))) _
      · rename_i hk
        exact assertion_eq (decide_eq_true (h.none hord fun hm => hk ((hmade i hord).1 hm))) _

/-- The state with other words in the directory. -/
def BootState.withWords (t : BootState) (D : Nat) (g : Nat → Pte) : BootState :=
  { t with entries := Function.update t.entries D g }

theorem BootState.withWords_set (t : BootState) (D i : Nat) (g : Nat → Pte) (e : Pte) :
    (t.withWords D g).setWord (kernelBase + 4096 * D) i e = t.withWords D (Function.update g i e) := by
  simp only [setWord, frame_of, withWords, Function.update_self, Function.update_idem]

theorem BootState.withWords_word (t : BootState) (D i : Nat) (g : Nat → Pte) :
    (t.withWords D g).word (kernelBase + 4096 * D) i = g i := by
  rw [word_frame, withWords]
  exact congrFun (Function.update_self ..) i

/-- `turn_on_paging` leaves the directory as it was. -/
theorem turnOnPaging_eq (h : Stage s D q made S L t) (hfit : Fits s q) (hlow : ∀ i < 24,
    ¬ made i) : turnOnPaging t = .ok () t := by
  have hnone : ∀ i < 24, t.entries D i = {} := by
    intro i hi
    rw [← h.entry_eq]
    exact h.none ⟨by omega, by omega, by omega⟩ (hlow i hi)
  have hn : pdx t.ptrFreeMem - pdx kernelBase ≤ 24 := by
    have h1 := hfit.2
    have h2 := h.top
    simp only [BootState.top, pagesFor, kernelBase, kernelHeapStart, pdx] at h1 h2 ⊢
    omega
  have hself : t = t.withWords D (t.entries D) := by
    simp only [BootState.withWords, Function.update_eq_self]
  have hpdx : pdx kernelBase = 960 := by decide
  have hloops : ∀ n ≤ 24, ((List.range n).forM (fun j => modify fun u : BootState =>
        u.setWord (kernelBase + 4096 * D) j (u.word (kernelBase + 4096 * D) (pdx kernelBase + j))) >>= fun _ =>
      (List.range n).forM fun j => modify fun u : BootState => u.setWord (kernelBase + 4096 * D) j {} : BM Unit) t =
      .ok () t := by
    intro n hn
    -- the copies
    obtain ⟨u, hu, rfl⟩ := forM_range_ok (n := n)
      (P := fun k u => u = t.withWords D fun i => if i < k then t.entries D (960 + i) else t.entries D i)
      (g := fun j => modify fun u : BootState =>
        u.setWord (kernelBase + 4096 * D) j (u.word (kernelBase + 4096 * D) (pdx kernelBase + j)))
      (fun k hk u hu => by
        refine ⟨_, rfl, ?_⟩
        have hword : u.word (kernelBase + 4096 * D) (pdx kernelBase + k) = t.entries D (960 + k) := by
          rw [hu, hpdx, BootState.withWords_word, if_neg (by omega)]
        show u.setWord _ k (u.word _ _) = _
        rw [hword, hu, BootState.withWords_set]
        congr 1
        funext i
        rw [Function.update_apply]
        by_cases hik : i = k
        · rw [if_pos hik, if_pos (by omega), hik]
        · rw [if_neg hik]
          exact if_congr (by omega) rfl rfl)
      (by simpa using hself)
    rw [bind_of_ok hu]
    -- and their end
    obtain ⟨u, hu, rfl⟩ := forM_range_ok (n := n) (s :=
      t.withWords D fun i => if i < n then t.entries D (960 + i) else t.entries D i)
      (P := fun k u => u = t.withWords D fun i => if k ≤ i ∧ i < n then t.entries D (960 + i) else t.entries D i)
      (g := fun j => modify fun u : BootState => u.setWord (kernelBase + 4096 * D) j {})
      (fun k hk u hu => by
        refine ⟨_, rfl, ?_⟩
        show u.setWord _ k {} = _
        rw [hu, BootState.withWords_set]
        congr 1
        funext i
        rw [Function.update_apply]
        by_cases hik : i = k
        · rw [if_pos hik, if_neg (by omega), hik, hnone k (by omega)]
        · rw [if_neg hik]
          exact if_congr (by omega) rfl rfl)
      (by simp)
    rw [hu]
    apply congrArg _
    conv_rhs => rw [hself]
    congr 1
    funext i
    exact if_neg (by omega)
  unfold turnOnPaging
  rw [get_bind, h.dir]
  exact hloops _ hn

end Parts

/-! ## `initialize_kernel_VM` -/

namespace BootState

variable (s : BootState)

/-- The frame of the page directory. -/
def firstFrame : Nat := pagesFor (s.endOfKernel - kernelBase)

/-- The first frame of `envs`: the directory, the table of the stacks and those from `KERNEL_BASE` on are before it,
then `frames_info` and `disk_frames_info`. -/
def envsFrame : Nat :=
  s.firstFrame + 66 + pagesFor (s.numberOfFrames * sizeofFrameInfo) + pagesFor (pagesPerFile * sizeofFrameInfo)

/-- The first frame that is left: after `envs` there is one more table. -/
def bootTop : Nat := s.envsFrame + pagesFor s.envsSize + 1

def stackFrame : Nat := (s.ptrStackBottom - kernelBase) / 4096

/-- The entries of the kernel's pages: the stack of the scheduler above its guard page, `envs` for users to read, and
the frames that are in use from `KERNEL_BASE` on. -/
def kernelLook : Nat → Pte :=
  mappedTo 983040 0 s.bootTop { writeable := true } <|
    mappedTo 977920 s.envsFrame (pagesFor s.envsSize) { user := true } <|
      Function.update (mappedTo 982008 s.stackFrame 8 { writeable := true } fun _ => {}) 982008
        ⟨s.stackFrame, { writeable := true }⟩

end BootState

/-- What the linker, the CMOS and the compiler must give: the kernel is loaded from 1 MB on with its stack in it, an
`Env` is not larger than the room for all, and what boot allocates is below the kernel heap and in the RAM. -/
structure Bootable (s : BootState) : Prop where
  fresh : s.ptrFreeMem = 0
  kernel : kernelBase + physExtendedMem ≤ s.endOfKernel
  stack : s.ptrStackBottom = kernelBase + 4096 * s.stackFrame
  stackBelow : s.ptrStackBottom + kernelStackSize ≤ s.endOfKernel
  env : 0 < s.sizeofEnv ∧ s.sizeofEnv ≤ ptSize / 4
  frames : s.numberOfFrames < 1048576
  fits : Fits s s.bootTop

section KernelVM

variable {s : BootState}

theorem Bootable.envs (h : Bootable s) : 0 < pagesFor s.envsSize ∧ pagesFor s.envsSize ≤ 256 := by
  obtain ⟨hpos, hle⟩ := h.env
  have hdiv : 0 < ptSize / 4 / s.sizeofEnv := Nat.div_pos hle hpos
  have hmul : ptSize / 4 / s.sizeofEnv * s.sizeofEnv ≤ ptSize / 4 := Nat.div_mul_le_self ..
  have hge : 1 * 1 ≤ ptSize / 4 / s.sizeofEnv * s.sizeofEnv := Nat.mul_le_mul hdiv hpos
  simp only [pagesFor, BootState.envsSize, ptSize] at hmul hge ⊢
  omega

theorem initializeKernelVM_ok (h : Bootable s) : ∃ t S, initializeKernelVM s = .ok () t ∧
    Stage { s with framesInfo := fun _ => {} } s.firstFrame s.bootTop
    (fun i => bootEntry i = true) S s.kernelLook t := by
  have hfit := h.fits
  have hq : s.bootTop ≤ 24576 := by
    have := hfit.2
    simp only [kernelBase, kernelHeapStart] at this
    omega
  obtain ⟨henv, henv'⟩ := h.envs
  have hD : pagesFor (s.endOfKernel - kernelBase) = s.firstFrame := rfl
  have hsum : s.bootTop = s.envsFrame + pagesFor s.envsSize + 1 := rfl
  have hsum' : s.envsFrame = s.firstFrame + 66 + pagesFor (s.numberOfFrames * sizeofFrameInfo) +
    pagesFor (pagesPerFile * sizeofFrameInfo) := rfl
  have hstack : s.stackFrame + 8 < 1048576 := by
    have h1 := h.stackBelow
    have h2 := h.stack
    simp only [BootState.firstFrame, pagesFor, kernelBase, kernelStackSize, pageSize] at *
    omega
  -- the directory
  have hstart := Stage.start h.kernel hD
  have hfirst := bootAllocateSpace_first h.fresh h.kernel hD (hfit.mono (by omega))
  -- the stack and its guard page
  have h958 : Ordinary (982008 / 1024) := by decide
  have hfit₁ := hfit.mono (show s.firstFrame + 1 + 1 ≤ s.bootTop by omega)
  obtain ⟨t₁, hmap, h₁⟩ := Stage.mapPages { writeable := true } hfit₁ (n := 8) (v := 982008)
    (f := s.stackFrame) (hstart.withTable hfit₁ h958 not_false)
    (fun w h1 h2 => by
      have hw : w / 1024 = 982008 / 1024 := by omega
      rw [hw]
      exact ⟨h958, .inr rfl⟩) (by omega) hstack
  rw [← Stage.mapPages_new hstart hfit₁ h958 not_false] at hmap
  obtain ⟨t₂, hguard, h₂⟩ := ptSetPagePermissions_eq h₁ hfit₁ h958 (.inr rfl) .none .permPresent
  -- the tables
  obtain ⟨t₃, htables, h₃⟩ := kernelTables_ok h₂ (hfit.mono (by omega)) (fun i hi hm => by
    rcases hm with hm | hm
    · exact hm
    · omega)
  -- `frames_info` and `disk_frames_info`
  have hsize : mul32 t₃.numberOfFrames sizeofFrameInfo = s.numberOfFrames * sizeofFrameInfo := by
    rw [h₃.frames, mul32_of_lt]
    have := h.frames
    simp only [sizeofFrameInfo]
    omega
  obtain ⟨hinfo, h₄⟩ := h₃.allocate (s.numberOfFrames * sizeofFrameInfo) (hfit.mono (by omega))
  obtain ⟨hdisk, h₅⟩ := h₄.clearInfo.allocate (pagesPerFile * sizeofFrameInfo) (hfit.mono (by omega))
  obtain ⟨t₆, S, hlist, h₆, hself⟩ := setupListing_ok h₅
  -- `envs`
  have henvs : t₆.envsSize = s.envsSize := by
    rw [BootState.envsSize, h₆.sizeofEnv, BootState.envsSize]
  have hframe : s.firstFrame + 1 + 1 + 64 + pagesFor (s.numberOfFrames * sizeofFrameInfo) +
      pagesFor (pagesPerFile * sizeofFrameInfo) = s.envsFrame := by omega
  rw [hframe] at h₆
  obtain ⟨hspace, h₇⟩ := h₆.allocate s.envsSize (hfit.mono (by omega))
  obtain ⟨n, hn⟩ : ∃ n, pagesFor s.envsSize = n + 1 := ⟨pagesFor s.envsSize - 1, by omega⟩
  have h955 : Ordinary (977920 / 1024) := by decide
  have hno : ¬ (((False ∨ 977920 / 1024 = 982008 / 1024) ∨ 960 ≤ 977920 / 1024 ∧ 977920 / 1024 < 1024)) := by decide
  have hfit' : Fits { s with framesInfo := fun _ => {} } s.bootTop := hfit
  obtain ⟨t₈, hmap', h₈⟩ := Stage.mapPages { user := true } hfit' (n := n + 1) (v := 977920)
    (f := s.envsFrame) (h₇.withTable hfit' h955 hno)
    (fun w h1 h2 => by
      have hw : w / 1024 = 977920 / 1024 := by omega
      rw [hw]
      exact ⟨h955, .inr rfl⟩) (by omega) (by omega)
  rw [← Stage.mapPages_new h₇ hfit' h955 hno, ← hn] at hmap'
  rw [← hn] at h₈
  have h₉ := h₈.permit (i := pdx uenvs) ((t₈.entry (pdx uenvs)).perm.union { user := true, present := true })
    (by decide) (.inr rfl) (Bool.or_true _)
  -- all that is in use
  generalize hu₉ : t₈.setWord _ _ _ = t₉ at h₉
  obtain ⟨t, hmap'', h₁₀⟩ := Stage.mapPages { writeable := true } hfit' (n := s.bootTop) (v := 983040)
    (f := 0) h₉
    (fun w h1 h2 => ⟨⟨by omega, by omega, by omega⟩, .inl (.inr ⟨by omega, by omega⟩)⟩) (by omega) (by omega)
  rw [Nat.zero_mul] at hmap''
  have hmade : ∀ i, Ordinary i → ((((False ∨ i = 982008 / 1024) ∨ 960 ≤ i ∧ i < 1024) ∨ i = 977920 / 1024) ↔
      bootEntry i = true) := by
    rintro i ⟨hlt, hne, hne'⟩
    rw [bootEntry_iff, false_or]
    omega
  have hend := h₁₀.congr hmade
  -- the code
  have hbottom : s.ptrStackBottom - kernelBase = s.stackFrame * 4096 := by
    have := h.stack
    omega
  have hva : kernStackTop - kernelStackSize = 982008 * 4096 := by decide
  rw [← hva] at hguard
  have hdir : (modify ({ · with ptrPageDirectory := kernelBase + 4096 * s.firstFrame }) : BM Unit)
      ({ s with ptrFreeMem := s.endOfKernel }.allocated pageSize s.firstFrame) = .ok ()
      (s.withDirectory s.firstFrame) := rfl
  have hstackBottom := staticKernelPhysicalAddress_eq (t := s.withDirectory s.firstFrame)
    (show kernelBase ≤ s.ptrStackBottom by
    have := h.stack
    omega)
  have hmap₁ : bootMapRange (kernelBase + 4096 * s.firstFrame) (kernStackTop - kernelStackSize) kernelStackSize
      (s.ptrStackBottom - kernelBase) { writeable := true } (s.withDirectory s.firstFrame) = .ok () t₁ := by
    have hn8 : (kernelStackSize + 4095) / 4096 = 8 := by decide
    rw [hbottom, bootMapRange, hn8, hva]
    exact hmap
  have hmap₂ : bootMapRange (kernelBase + 4096 * s.firstFrame) uenvs s.envsSize
    (kernelBase + 4096 * s.envsFrame - kernelBase)
      { user := true } (t₆.allocated s.envsSize s.envsFrame) = .ok () t₈ := by
    have hva : uenvs = 977920 * 4096 := by decide
    rw [Nat.add_sub_cancel_left, Nat.mul_comm 4096 s.envsFrame, bootMapRange, hva]
    exact hmap'
  have hpermit : (modify (fun u : BootState =>
      let e := u.word (kernelBase + 4096 * s.firstFrame) (pdx uenvs)
      u.setWord (kernelBase + 4096 * s.firstFrame) (pdx uenvs)
        { e with perm := e.perm.union { user := true, present := true } }) : BM Unit) t₈ = .ok () t₉ := by
    rw [← hu₉, ← h₈.word]
    rfl
  have hmap₃ : bootMapRange (kernelBase + 4096 * s.firstFrame) kernelBase (t₉.ptrFreeMem - kernelBase) 0
      { writeable := true } t₉ = .ok () t := by
    have htop : (t₉.ptrFreeMem - kernelBase + 4095) / 4096 = s.bootTop := h₉.top
    have hva : kernelBase = 983040 * 4096 := by decide
    rw [bootMapRange, htop, hva]
    rw [hva] at hmap''
    exact hmap''
  have hcheck : checkBootPgdir t = .ok () t := by
    refine checkBootPgdir_eq hend hfit' (fun i _ => Iff.rfl) hself (fun k hk => ?_) (f :=
      s.stackFrame) h.stack fun k hk hk8 => ?_
    · simp only [mappedTo]
      rw [if_pos (by omega)]
      exact ⟨rfl, by simp⟩
    · simp only [mappedTo]
      rw [if_neg (by omega), if_neg (by omega), Function.update_of_ne (by omega), mappedTo, if_pos (by omega)]
      exact ⟨rfl, by simp⟩
  have hpaging : turnOnPaging t = .ok () t := turnOnPaging_eq hend hfit' fun i hi hc => by
    rw [bootEntry_iff] at hc
    omega
  refine ⟨t, S, ?_, ?_⟩
  · unfold initializeKernelVM
    rw [bind_of_ok hfirst, bind_of_ok hdir, get_bind, BootState.withDirectory_stack, bind_of_ok hstackBottom,
      bind_of_ok hmap₁, bind_of_ok hguard,
      bind_of_ok htables, get_bind, hsize, bind_of_ok hinfo, modify_bind, bind_of_ok hdisk, bind_of_ok hlist,
      get_bind, henvs, bind_of_ok hspace,
      bind_of_ok (staticKernelPhysicalAddress_eq (Nat.le_add_right ..)), get_bind]
    rw [BootState.allocated_envsSize, henvs, bind_of_ok hmap₂, bind_of_ok hpermit, get_bind, bind_of_ok hmap₃,
      bind_of_ok hcheck]
    exact hpaging
  · have hguardEntry : ({ mappedTo 982008 s.stackFrame 8 { writeable := true } (fun _ => {}) 982008 with
        perm := ((mappedTo 982008 s.stackFrame 8 { writeable := true } (fun _ => {}) 982008).perm.union .none).diff
          .permPresent } : Pte) = ⟨s.stackFrame, { writeable := true }⟩ := by
      rw [mappedTo_first]
      rfl
    rw [hguardEntry] at hend
    exact hend

end KernelVM

end Fos.Boot
