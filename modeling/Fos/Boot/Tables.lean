/-
The allocations and the page tables of boot, one lemma for each function: space is handed out page by page and never
twice, so a new table is empty and a word written in one table is in no other.
-/
import Fos.Boot.KernelSpace

namespace Fos.Boot

open Fos.Lib Fos.Memory Fos.Proc Fos.Disk

/-! ## Words -/

/-- The pages that hold `n` bytes from the start of a page on. -/
def pagesFor (n : Nat) : Nat := (n + 4095) / 4096

namespace BootState

section Words

variable (s : BootState) (f i size : Nat) (e : Pte)

theorem frame_of (f : Nat) : (kernelBase + 4096 * f - kernelBase) / 4096 = f := by
  rw [Nat.add_sub_cancel_left, Nat.mul_div_cancel_left _ (by decide)]

theorem word_frame : s.word (kernelBase + 4096 * f) i = s.entries f i := by
  rw [word, frame_of]

theorem setWord_entries (g j : Nat) :
    (s.setWord (kernelBase + 4096 * f) i e).entries g j = if g = f ∧ j = i then e else s.entries g j := by
  simp only [setWord, frame_of, Function.update_apply]
  by_cases hg : g = f
  · subst hg
    simp only [if_true, true_and, Function.update_apply]
  · simp only [hg, if_false, false_and]

@[simp] theorem setWord_dirFrame (a : Nat) : (s.setWord a i e).dirFrame = s.dirFrame := rfl

/-- What is before the space and what is in it. -/
theorem clear_below {g j : Nat} (hg : g < f) (hj : j < 1024) :
    (s.clear (kernelBase + 4096 * f) size).entries g j = s.entries g j :=
  if_neg (by simp only [kernelBase]; omega)

theorem clear_within {g j : Nat} (hg : f ≤ g) (hj : 4096 * g + 4 * j < 4096 * f + size) :
    (s.clear (kernelBase + 4096 * f) size).entries g j = {} :=
  if_pos (by simp only [kernelBase]; omega)

/-- Once `size` bytes from frame `q` on are handed out. -/
def allocated (q : Nat) : BootState :=
  { s with ptrFreeMem := kernelBase + 4096 * q + size, entries := (s.clear (kernelBase + 4096 * q) size).entries }

end Words

/-- The frames up to the first one that is free. -/
def top (s : BootState) : Nat := pagesFor (s.ptrFreeMem - kernelBase)

end BootState

/-! ## The state while the tables are made -/

/-- A table of its own: not one of the two entries for the directory itself. -/
def Ordinary (i : Nat) : Prop := i < 1024 ∧ i ≠ 957 ∧ i ≠ 959

instance (i : Nat) : Decidable (Ordinary i) := inferInstanceAs (Decidable (_ ∧ _))

/-- After boot from `s` has come to hand out the frames below `q`, and the tables `made`, with the directory in frame
`D`, listed in itself by the entries `S`. The CPU finds the entries `L`. -/
structure Stage (s : BootState) (D q : Nat) (made : Nat → Prop) (S L : Nat → Pte) (t : BootState) : Prop where
  frames : t.numberOfFrames = s.numberOfFrames
  info : t.framesInfo = s.framesInfo
  stackBottom : t.ptrStackBottom = s.ptrStackBottom
  sizeofEnv : t.sizeofEnv = s.sizeofEnv
  low : kernelBase + physExtendedMem ≤ t.ptrFreeMem
  top : t.top = q
  dir : t.ptrPageDirectory = kernelBase + 4096 * D
  dirFrame : 256 ≤ D ∧ D < q
  known : ∀ i, Ordinary i → (made i ↔ t.entry i ≠ {})
  table : ∀ i, Ordinary i → made i →
    (t.entry i).perm.present = true ∧ 256 ≤ (t.entry i).frame ∧ (t.entry i).frame < q ∧ (t.entry i).frame ≠ D
  inj : ∀ i j, Ordinary i → Ordinary j → made i → made j → (t.entry i).frame = (t.entry j).frame → i = j
  listing : ∀ i, i = 957 ∨ i = 959 → t.entry i = S i
  look : ∀ v, Ordinary (v / 1024) → t.look v = L v

section Stage

variable {s t u : BootState} {D q q' n size i v f : Nat} {made : Nat → Prop} {S L L' : Nat →
    Pte} {perm : Perm} {e : Pte}

/-- The frames below `q` can be handed out. -/
def Fits (s : BootState) (q : Nat) : Prop := q ≤ s.numberOfFrames ∧ kernelBase + 4096 * q ≤ kernelHeapStart

theorem Fits.mono {p : Nat} (h : Fits s q) (hp : p ≤ q) : Fits s p := by
  obtain ⟨h1, h2⟩ := h
  exact ⟨hp.trans h1, by omega⟩

theorem Stage.dirFrame_eq (h : Stage s D q made S L t) : t.dirFrame = D := by
  rw [BootState.dirFrame, h.dir, BootState.frame_of]

theorem Stage.entry_eq (h : Stage s D q made S L t) (i : Nat) : t.entry i = t.entries D i := by
  rw [BootState.entry, h.dirFrame_eq]

theorem Stage.word (h : Stage s D q made S L t) (i : Nat) : t.word (kernelBase + 4096 * D) i = t.entry i := by
  rw [BootState.word_frame, h.entry_eq]

/-- The fields that no function here changes. -/
structure SameFields (t u : BootState) : Prop where
  frames : u.numberOfFrames = t.numberOfFrames
  info : u.framesInfo = t.framesInfo
  stackBottom : u.ptrStackBottom = t.ptrStackBottom
  sizeofEnv : u.sizeofEnv = t.sizeofEnv
  dir : u.ptrPageDirectory = t.ptrPageDirectory

/-- A change that leaves the directory as it is. -/
theorem Stage.of_dir (h : Stage s D q made S L t) (hf : SameFields t u)
    (hlow : kernelBase + physExtendedMem ≤ u.ptrFreeMem)
    (htop : u.top = q') (hq : q ≤ q') (he : ∀ i < 1024, u.entries D i = t.entries D i)
    (hl : ∀ v, Ordinary (v / 1024) → u.look v = L' v) : Stage s D q' made S L' u := by
  have hdir : u.dirFrame = D := by rw [BootState.dirFrame, hf.dir, h.dir, BootState.frame_of]
  have hentry : ∀ i < 1024, u.entry i = t.entry i := by
    intro i hi
    rw [BootState.entry, hdir, h.entry_eq, he i hi]
  refine ⟨hf.frames.trans h.frames, hf.info.trans h.info, hf.stackBottom.trans h.stackBottom,
    hf.sizeofEnv.trans h.sizeofEnv,
    hlow, htop, hf.dir.trans h.dir, ⟨h.dirFrame.1, h.dirFrame.2.trans_le hq⟩, fun i hi => ?_, fun i hi hm => ?_,
    fun i j hi hj hmi hmj heq => ?_, fun i hi => ?_, hl⟩
  · rw [hentry i hi.1]
    exact h.known i hi
  · obtain ⟨h1, h2, h3, h4⟩ := h.table i hi hm
    rw [hentry i hi.1]
    exact ⟨h1, h2, h3.trans_le hq, h4⟩
  · rw [hentry i hi.1, hentry j hj.1] at heq
    exact h.inj i j hi hj hmi hmj heq
  · rw [hentry i (by omega), h.listing i hi]

theorem Stage.none (h : Stage s D q made S L t) (hi : Ordinary i) (hm : ¬ made i) : t.entry i = {} :=
  by_contra fun hc => hm ((h.known i hi).2 hc)

/-- A change of frames that are not handed out. -/
theorem Stage.of_entries (h : Stage s D q made S L t) (hf : SameFields t u)
    (hlow : kernelBase + physExtendedMem ≤ u.ptrFreeMem)
    (htop : u.top = q') (hq : q ≤ q') (he : ∀ g j, 256 ≤ g → g < q → j < 1024 → u.entries g j = t.entries g j) :
    Stage s D q' made S L u := by
  have hdir : u.dirFrame = D := by rw [BootState.dirFrame, hf.dir, h.dir, BootState.frame_of]
  have hD : ∀ i < 1024, u.entries D i = t.entries D i := fun i hi => he D i h.dirFrame.1 h.dirFrame.2 hi
  apply h.of_dir hf hlow htop hq hD
  intro v hv
  rw [← h.look v hv, BootState.look, BootState.look, BootState.entry, hdir, hD _ hv.1, ← h.entry_eq]
  by_cases hm : made (v / 1024)
  · obtain ⟨-, h2, h3, -⟩ := h.table _ hv hm
    rw [he _ _ h2 h3 (Nat.mod_lt _ (by decide))]
  · rw [h.none hv hm]
    rfl

/-! ## Allocations -/

theorem bootAllocateSpace_eq (hlow : kernelBase + physExtendedMem ≤ t.ptrFreeMem) (htop : t.top = q)
    (hfit : kernelBase + 4096 * (q + pagesFor size) ≤ kernelHeapStart) :
    bootAllocateSpace size pageSize t = .ok (kernelBase + 4096 * q) (t.allocated size q) := by
  have hround : roundUp t.ptrFreeMem 4096 = kernelBase + 4096 * q := by
    simp only [BootState.top, pagesFor, kernelBase, physExtendedMem, kernelHeapStart] at htop hlow hfit ⊢
    unfold roundUp roundDown
    omega
  have hadd : add32 (kernelBase + 4096 * q) size = kernelBase + 4096 * q + size := by
    apply add32_of_lt
    simp only [pagesFor, kernelBase, kernelHeapStart] at hfit ⊢
    omega
  have hpos : t.ptrFreeMem ≠ 0 := by
    simp only [kernelBase, physExtendedMem] at hlow
    omega
  unfold bootAllocateSpace
  rw [modify_bind, if_neg hpos, modify_bind, get_bind, modify_bind, modify_bind]
  simp only [pageSize, hround, hadd]
  rfl

theorem top_allocated (t : BootState) (size q : Nat) : (t.allocated size q).top = q + pagesFor size := by
  simp only [BootState.top, BootState.allocated, pagesFor]
  omega

theorem Stage.allocate (h : Stage s D q made S L t) (size : Nat) (hfit : Fits s (q + pagesFor size)) :
    bootAllocateSpace size pageSize t = .ok (kernelBase + 4096 * q) (t.allocated size q) ∧
      Stage s D (q + pagesFor size) made S L (t.allocated size q) := by
  have hq : 256 ≤ q := h.dirFrame.1.trans h.dirFrame.2.le
  refine ⟨bootAllocateSpace_eq h.low h.top hfit.2,
    h.of_entries ⟨rfl, rfl, rfl, rfl, rfl⟩ ?_ (top_allocated t size q) (by omega) ?_⟩
  · simp only [BootState.allocated, physExtendedMem]
    omega
  · exact fun g j _ hg hj => t.clear_below q size hg hj

/-! ## Tables -/

theorem staticKernelPhysicalAddress_eq {kva : Nat} (h : kernelBase ≤ kva) :
    staticKernelPhysicalAddress kva t = .ok (kva - kernelBase) t := by
  unfold staticKernelPhysicalAddress
  rw [if_neg (not_lt.2 h)]
  rfl

theorem staticKernelVirtualAddress_eq (hf : f < t.numberOfFrames) (hlt : f < 65536) :
    staticKernelVirtualAddress (f * 4096) t = .ok (kernelBase + 4096 * f) t := by
  have hadd : add32 (f * 4096) kernelBase = kernelBase + 4096 * f := by
    rw [add32_of_lt (by simp only [kernelBase]; omega)]
    omega
  unfold staticKernelVirtualAddress
  rw [get_bind, if_neg (by rw [Nat.mul_div_cancel _ (by decide)]; omega), hadd]
  rfl

/-- Once table `i` is in a frame of its own. -/
def BootState.withTable (t : BootState) (D q i : Nat) : BootState :=
  (t.allocated pageSize q).setWord (kernelBase + 4096 * D) i ⟨q, { present := true, writeable := true }⟩

theorem bootGetPageTable_old (h : Stage s D q made S L t) (hfit : Fits s q) (hi : Ordinary (pdx v))
    (hm : made (pdx v)) :
    bootGetPageTable (kernelBase + 4096 * D) v true t = .ok (kernelBase + 4096 * (t.entry (pdx v)).frame) t := by
  obtain ⟨-, hlow, hlt, -⟩ := h.table _ hi hm
  have hbound : (t.entry (pdx v)).frame < 65536 := by
    have := hfit.2
    simp only [kernelBase, kernelHeapStart] at this
    omega
  unfold bootGetPageTable
  rw [get_bind, h.word, bind_of_ok (staticKernelVirtualAddress_eq (by rw [h.frames]; have := hfit.1; omega) hbound),
    if_neg (by omega)]
  rfl

theorem bootGetPageTable_new (h : Stage s D q made S L t) (hfit : Fits s (q + 1)) (hi : Ordinary (pdx v))
    (hm : ¬ made (pdx v)) :
    bootGetPageTable (kernelBase + 4096 * D) v true t = .ok (kernelBase + 4096 * q) (t.withTable D q (pdx v)) := by
  have hnone := h.none hi hm
  have hframe : 0 < t.numberOfFrames := by
    rw [h.frames]
    have := hfit.1
    omega
  unfold bootGetPageTable
  rw [get_bind, h.word, hnone, bind_of_ok (staticKernelVirtualAddress_eq hframe (by decide)),
    if_pos (show ({} : Pte).frame * 4096 = 0 from rfl), if_pos rfl,
    bind_of_ok (h.allocate pageSize hfit).1,
    bind_of_ok (staticKernelPhysicalAddress_eq (Nat.le_add_right ..)), modify_bind, BootState.frame_of]
  rfl

theorem Stage.withTable (h : Stage s D q made S L t) (hfit : Fits s (q + 1)) (hi : Ordinary i) (hm : ¬ made i) :
    Stage s D (q + 1) (fun j => made j ∨ j = i) S L (t.withTable D q i) := by
  have ha := (h.allocate pageSize hfit).2
  have hdir : (t.withTable D q i).dirFrame = D := by
    rw [BootState.dirFrame, show (t.withTable D q i).ptrPageDirectory = t.ptrPageDirectory from rfl, h.dir,
      BootState.frame_of]
  have hentries : ∀ g j, (t.withTable D q i).entries g j = if g = D ∧
    j = i then ⟨q, { present := true, writeable := true }⟩
      else (t.allocated pageSize q).entries g j := fun g j => BootState.setWord_entries ..
  have hentry : ∀ j, (t.withTable D q i).entry j = if j = i then ⟨q, { present := true, writeable := true }⟩
      else (t.allocated pageSize q).entry j := fun j => by
    rw [BootState.entry, hdir, hentries, ha.entry_eq]
    simp only [true_and]
  have hold : ∀ j, Ordinary j → j ≠ i → (made j ∨ j = i) → made j := fun j _ hne hm => hm.resolve_right hne
  refine ⟨ha.frames, ha.info, ha.stackBottom, ha.sizeofEnv, ha.low, ha.top, ha.dir, ha.dirFrame, fun j hj => ?_,
    fun j hj hmj => ?_,
    fun j k hj hk hmj hmk heq => ?_, fun j hj => ?_, fun v hv => ?_⟩
  · rw [hentry]
    split
    · rename_i hji
      exact ⟨fun _ => by simp, fun _ => .inr hji⟩
    · rename_i hji
      rw [← ha.known j hj]
      exact ⟨fun hm => hm.resolve_right hji, .inl⟩
  · rw [hentry]
    split
    · exact ⟨rfl, h.dirFrame.1.trans h.dirFrame.2.le, Nat.lt_succ_self q, h.dirFrame.2.ne'⟩
    · rename_i hji
      exact ha.table j hj (hmj.resolve_right hji)
  · have hlt : ∀ j, Ordinary j → made j → ((t.allocated pageSize q).entry j).frame < q := by
      intro j hj hm
      rw [ha.entry_eq, show (t.allocated pageSize q).entries D j =
        t.entries D j from t.clear_below q pageSize h.dirFrame.2 hj.1,
        ← h.entry_eq]
      exact (h.table j hj hm).2.2.1
    rw [hentry, hentry] at heq
    split at heq <;> split at heq <;> rename_i hji hki
    · exact hji.trans hki.symm
    · exact absurd heq.symm (hlt k hk (hmk.resolve_right hki)).ne
    · exact absurd heq (hlt j hj (hmj.resolve_right hji)).ne
    · exact ha.inj j k hj hk (hmj.resolve_right hji) (hmk.resolve_right hki) heq
  · rw [hentry, if_neg fun hc => by have := hi.2; omega]
    exact ha.listing j hj
  · have hpage : v % 1024 < 1024 := Nat.mod_lt _ (by decide)
    rw [BootState.look, hentry]
    split
    · -- the new table is empty
      rename_i hvi
      rw [if_pos rfl, hentries, if_neg fun hc => absurd hc.1 h.dirFrame.2.ne']
      have hnone : L v = {} := by
        rw [← h.look v hv, BootState.look, hvi, h.none hi hm]
        rfl
      rw [hnone]
      exact t.clear_within q pageSize le_rfl (by simp only [pageSize]; omega)
    · rename_i hvi
      rw [← ha.look v hv, BootState.look]
      split
      · rename_i hp
        have hmv : made (v / 1024) := (ha.known _ hv).2 fun hc => by rw [hc] at hp; cases hp
        rw [hentries, if_neg fun hc => (ha.table _ hv hmv).2.2.2 hc.1]
      · rfl

/-- An entry of a table that is there. -/
theorem Stage.setEntry (h : Stage s D q made S L t) (hv : Ordinary (v / 1024)) (hm : made (v / 1024)) (e : Pte) :
    Stage s D q made S (Function.update L v e)
      (t.setWord (kernelBase + 4096 * (t.entry (v / 1024)).frame) (v % 1024) e) := by
  obtain ⟨hp, -, -, hne⟩ := h.table _ hv hm
  have hentries := t.setWord_entries (t.entry (v / 1024)).frame (v % 1024) e
  have hD : ∀ i, (t.setWord (kernelBase + 4096 * (t.entry (v / 1024)).frame) (v % 1024) e).entries D i =
    t.entries D i :=
    fun i => by rw [hentries, if_neg fun hc => hne hc.1.symm]
  refine h.of_dir ⟨rfl, rfl, rfl, rfl, rfl⟩ h.low h.top le_rfl (fun i _ => hD i) fun w hw => ?_
  rw [BootState.look, BootState.entry, BootState.setWord_dirFrame, h.dirFrame_eq, hD, ← h.entry_eq,
    hentries, Function.update_apply, ← h.look w hw, BootState.look]
  by_cases hwv : w = v
  · subst hwv
    rw [if_pos hp, if_pos ⟨rfl, rfl⟩, if_pos rfl]
  · rw [if_neg hwv]
    split
    · rename_i hpw
      have hmw : made (w / 1024) := (h.known _ hw).2 fun hc => by rw [hc] at hpw; cases hpw
      refine if_neg fun hc => hwv ?_
      have htable := h.inj _ _ hw hv hmw hm hc.1
      omega
    · rfl

/-- The entries once `n` pages from `v` on are mapped to the frames from `f` on. -/
def mappedTo (v f n : Nat) (perm : Perm) (L : Nat → Pte) (w : Nat) : Pte :=
  if v ≤ w ∧ w < v + n then ⟨f + (w - v), perm.union .permPresent⟩ else L w

theorem mappedTo_first (v f n : Nat) (perm : Perm) (L : Nat → Pte) :
    mappedTo v f (n + 1) perm L v = ⟨f, perm.union .permPresent⟩ := by
  rw [mappedTo, if_pos (by omega), Nat.sub_self, Nat.add_zero]

theorem pdx_page (v : Nat) : pdx (v * 4096) = v / 1024 := by
  unfold pdx
  omega

theorem ptx_page (v : Nat) : ptx (v * 4096) = v % 1024 := by
  rw [ptx, Nat.mul_div_cancel _ (by decide)]

theorem add32_page (h : v + 1 < 1048576) : add32 (v * 4096) pageSize = (v + 1) * 4096 := by
  unfold add32 pageSize
  omega

/-- The rounds of `boot_map_range`, where the tables are there. -/
theorem Stage.mapPages (perm : Perm) (hfit : Fits s q) :
    ∀ {n v f : Nat} {t : BootState} {L : Nat → Pte}, Stage s D q made S L t →
    (∀ w, v ≤ w → w < v + n → Ordinary (w / 1024) ∧ made (w / 1024)) → v + n < 1048576 → f + n < 1048576 →
    ∃ u, Boot.mapPages (kernelBase + 4096 * D) perm n (v * 4096) (f * 4096) t = .ok () u ∧
      Stage s D q made S (mappedTo v f n perm L) u
  | 0, v, f, t, L, h, _, _, _ => by
    refine ⟨t, rfl, ?_⟩
    have hL : mappedTo v f 0 perm L = L := funext fun w => if_neg (by omega)
    rwa [hL]
  | n + 1, v, f, t, L, h, htables, hv, hf => by
    obtain ⟨hi, hm⟩ := htables v le_rfl (by omega)
    obtain ⟨u, hu, hstage⟩ := Stage.mapPages perm hfit (n := n) (v := v + 1) (f := f + 1)
      (h.setEntry hi hm ⟨f, perm.union .permPresent⟩)
      (fun w h1 h2 => htables w (by omega) (by omega)) (by omega) (by omega)
    refine ⟨u, ?_, ?_⟩
    · rw [← hu]
      show (bootGetPageTable (kernelBase + 4096 * D) (v * 4096) true >>= _) t = _
      rw [bind_of_ok (bootGetPageTable_old h hfit (by rwa [pdx_page]) (by rwa [pdx_page])), modify_bind, pdx_page,
        ptx_page,
        Nat.mul_div_cancel _ (by decide), add32_page (by omega), add32_page (by omega)]
    · have hL : mappedTo (v + 1) (f + 1) n perm (Function.update L v ⟨f, perm.union .permPresent⟩) = mappedTo v f
        (n + 1) perm L := by
        funext w
        simp only [mappedTo, Function.update_apply]
        by_cases hwv : w = v
        · subst hwv
          rw [if_neg (by omega), if_pos rfl, if_pos (by omega), Nat.sub_self, Nat.add_zero]
        · by_cases hin : v + 1 ≤ w ∧ w < v + 1 + n
          · rw [if_pos hin, if_pos (by omega), show f + 1 + (w - (v + 1)) = f + (w - v) by omega]
          · rw [if_neg hin, if_neg hwv, if_neg (by omega)]
      rwa [hL] at hstage

/-- Where they are not, the first round makes the table. -/
theorem Stage.mapPages_new (h : Stage s D q made S L t) (hfit : Fits s (q + 1)) (hi : Ordinary (v / 1024))
    (hm : ¬ made (v / 1024)) (n f : Nat) :
    Boot.mapPages (kernelBase + 4096 * D) perm (n + 1) (v * 4096) (f * 4096) t =
      Boot.mapPages (kernelBase + 4096 * D) perm (n + 1) (v * 4096) (f * 4096) (t.withTable D q (v / 1024)) := by
  have hnew := h.withTable hfit hi hm
  have hold := bootGetPageTable_old (v := v * 4096) hnew (by exact hfit) (by rwa [pdx_page]) (.inr (pdx_page v))
  have hframe : ((t.withTable D q (v / 1024)).entry (pdx (v * 4096))).frame = q := by
    rw [hnew.entry_eq, pdx_page, BootState.withTable, BootState.setWord_entries, if_pos ⟨rfl, rfl⟩]
  have hmake := bootGetPageTable_new (v := v * 4096) h hfit (by rwa [pdx_page]) (by rwa [pdx_page])
  rw [hframe] at hold
  rw [pdx_page] at hmake
  show (bootGetPageTable (kernelBase + 4096 * D) (v * 4096) true >>= _) t =
    (bootGetPageTable _ (v * 4096) true >>= _) _
  rw [bind_of_ok hmake, bind_of_ok hold]

end Stage

end Fos.Boot
