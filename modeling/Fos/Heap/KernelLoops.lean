/-
The loops of the kernel heap, each with what it does to the pages: mapping and unmapping a range,
recording its size, lowering the break, and the scan for holes.
-/
import Fos.Lib.StateCode
import Fos.Heap.KernelPages

namespace Fos.Heap

open Fos.Memory Fos.Lib

theorem add_page {v : Nat} (h : v < 1048575) : add32 (v * 4096) pageSize = (v + 1) * 4096 := by
  rw [pageSize, add32_of_lt (by omega)]; omega

/-! ## Mapping a range -/

/-- The pages `[v, v + n)` of `m'` hold frames, and outside them nothing changed. -/
structure Mapped (m : Mem) (v n : Nat) (m' : Mem) : Prop where
  pages : KPages m'
  held : ∀ w, v ≤ w → w < v + n → HoldsPage m' w ∧ (m'.pte (0, w)).perm.present = true
  same : ∀ a : Nat × Nat, ¬ (a.1 = 0 ∧ v ≤ a.2 ∧ a.2 < v + n) → m'.pte a = m.pte a
  loose : ∀ g r, Loose m g r → Loose m' g r
  table : m'.table = m.table
  frames : (∀ w, v ≤ w → w < v + n → ¬ HoldsPage m w) → m'.freeFrameList.length + n = m.freeFrameList.length

theorem allocateFrame_table {m m' : Mem} {f : Nat} (h : m.allocateFrame = .ok (f, m')) : m'.table = m.table := by
  unfold Mem.allocateFrame at h
  split at h <;> cases h
  rfl

theorem mapKernelFrame_table {m m' : Mem} {f va : Nat} {perm : Perm} (h : mapKernelFrame m f va perm = .ok m') :
    m'.table = m.table := by
  simp only [mapKernelFrame] at h
  split at h <;> cases h
  exact (Mem.enterFrame_same _ _ _ _ _).1

/-- Mapping one page, once there is a frame for it. -/
theorem map_new {m : Mem} (h : KPages m) {v : Nat} (hv : HeapPage v)
    (hpres : HoldsPage m v → (m.pte (0, v)).perm.present = true) {f : Nat} {m₁ : Mem}
    (ha : m.allocateFrame = .ok (f, m₁)) (perm : Perm) (hp : perm.buffered = false) :
    ∃ m', mapKernelFrame m₁ f (v * 4096) perm = .ok m' ∧ Mapped m v 1 m' ∧
      m.freeFrameList.length ≤ m'.freeFrameList.length + 1 := by
  obtain ⟨hK, hl, hpte, hfree, hloose⟩ := h.allocate ha
  obtain ⟨m', hm', hK', hheld, hsame, hfree', hloose'⟩ := hK.map hv (by rwa [HoldsPage, hpte]) hl perm hp
  refine ⟨m', hm', ⟨hK', fun w h1 h2 => ?_, fun a ha' => ?_, fun g r hg => ?_,
    (mapKernelFrame_table hm').trans (allocateFrame_table ha), fun hno => ?_⟩, ?_⟩
  · obtain rfl : w = v := by omega
    rw [HoldsPage, hheld.1]
    exact ⟨by simp, hheld.2⟩
  · rw [hsame a (fun he => ha' (by subst he; exact ⟨rfl, le_refl v, Nat.lt_succ_self v⟩)), hpte]
  · refine hloose' g r ?_ (hloose g r hg)
    rintro rfl
    exact hg.notFree (by rw [hfree]; exact List.mem_cons_self)
  · have hnone : (m₁.pte (0, v)).held = none := by
      rw [hpte]; exact not_not.1 (hno v (le_refl v) (Nat.lt_succ_self v))
    rw [hfree', hfree, hnone]; rfl
  · rw [hfree', hfree, List.length_append, List.length_cons]; omega

theorem Mapped.cons {m m₁ m' : Mem} {v n : Nat} (h1 : Mapped m v 1 m₁) (h2 : Mapped m₁ (v + 1) n m') :
    Mapped m v (n + 1) m' := by
  refine ⟨h2.pages, fun w hw1 hw2 => ?_, fun a ha => ?_, fun g r hg => h2.loose g r (h1.loose g r hg),
    h2.table.trans h1.table, fun hno => ?_⟩
  · rcases Nat.eq_or_lt_of_le hw1 with rfl | hlt
    · have := h1.held v (le_refl v) (by omega)
      rwa [HoldsPage, ← h2.same (0, v) (by simp)] at this
    · exact h2.held w hlt (by omega)
  · rw [h2.same a, h1.same a]
    · rintro ⟨b1, b2, b3⟩
      exact ha ⟨b1, b2, by omega⟩
    · rintro ⟨b1, b2, b3⟩
      exact ha ⟨b1, by omega, by omega⟩
  · have e1 := h1.frames fun w hw1 hw2 => hno w hw1 (by omega)
    have e2 := h2.frames fun w hw1 hw2 hh => hno w (by omega) (by omega) (by
      rwa [HoldsPage, h1.same (0, w) (by simp only; omega)] at hh)
    omega

/-- The loop maps the whole range, or runs out of frames on the way. -/
theorem mapPages_spec : ∀ (n v : Nat) (s : Kernel), KPages s.mem → (∀ i < n, HeapPage (v + i)) →
    (∀ w, v ≤ w → w < v + n → HoldsPage s.mem w → (s.mem.pte (0, w)).perm.present = true) →
    (∃ m', mapPages (v * 4096) n s = .ok () { s with mem := m' } ∧ Mapped s.mem v n m') ∨
    (s.mem.freeFrameList.length < n ∧ ∃ e m', mapPages (v * 4096) n s = .error e { s with mem := m' })
  | 0, v, s, h, _, _ => .inl ⟨s.mem, rfl, h, fun w h1 h2 => by omega,
    fun _ _ => rfl, fun _ _ hg => hg, rfl, fun _ => rfl⟩
  | n + 1, v, s, h, hv, hpres => by
    have hv0 : HeapPage v := hv 0 (Nat.succ_pos n)
    unfold mapPages
    cases ha : s.mem.allocateFrame with
    | error e =>
      refine .inr ⟨?_, e, s.mem, bind_of_error (by simp only [onMem, ha])⟩
      unfold Mem.allocateFrame at ha
      split at ha
      · rename_i hnil; rw [hnil]; exact Nat.succ_pos n
      · cases ha
    | ok r =>
      obtain ⟨f, m₁⟩ := r
      obtain ⟨m₂, hm₂, hM, hlen⟩ := map_new h hv0 (hpres v (le_refl v) (by omega)) ha
        { writeable := true, present := true } rfl
      have h1 : onMem Mem.allocateFrame s = .ok f { s with mem := m₁ } := by simp only [onMem, ha]
      have h2 : onMem (fun m => return ((), ← mapKernelFrame m f (v * 4096) { writeable := true, present := true }))
          { s with mem := m₁ } = .ok () { s with mem := m₂ } := by
        simp only [onMem, hm₂]; rfl
      rw [bind_of_ok h1, bind_of_ok h2, add_page hv0.2]
      rcases mapPages_spec n (v + 1) { s with mem := m₂ } hM.pages (fun i hi => by
          have := hv (i + 1) (by omega); rwa [show v + (i + 1) = v + 1 + i by omega] at this)
          (fun w hw1 hw2 => by
            rw [HoldsPage, hM.same (0, w) (by simp only; omega)]
            exact hpres w (by omega) (by omega)) with ⟨m', hm', hM'⟩ | ⟨hlt, e, m', hm'⟩
      · exact .inl ⟨m', hm', hM.cons hM'⟩
      · refine .inr ⟨?_, e, m', hm'⟩
        simp only at hlt; omega

/-! ## Recording a size -/

/-- The entries `[i, i + n)` of the table set to `v`. -/
def SizeTable.fill (t : SizeTable) (i n v : Nat) : SizeTable :=
  ⟨fun j => if i ≤ j ∧ j < i + n then v else t.val j, (List.range' i n).reverse ++ t.used⟩

theorem SizeTable.fill_zero (t : SizeTable) (i v : Nat) : t.fill i 0 v = t := by
  unfold SizeTable.fill
  congr 1
  funext j
  rw [if_neg (by omega)]

theorem SizeTable.fill_cons (t : SizeTable) (i n v : Nat) :
    (SizeTable.mk (Function.update t.val i v) (i :: t.used)).fill (i + 1) n v = t.fill i (n + 1) v := by
  unfold SizeTable.fill
  congr 1
  · funext j
    by_cases hj : j = i
    · subst hj; simp
    · simp only [Function.update_of_ne hj]
      have : (i + 1 ≤ j ∧ j < i + 1 + n) ↔ (i ≤ j ∧ j < i + (n + 1)) := by omega
      simp only [this]
  · rw [List.range'_succ, List.reverse_cons, List.append_assoc]; rfl

theorem writeSizes_eq (v : Nat) : ∀ (n i : Nat) (s : Kernel),
    writeSizes i v n s = .ok () { s with allocatedSize := s.allocatedSize.fill i n v }
  | 0, i, s => by rw [SizeTable.fill_zero]; rfl
  | n + 1, i, s => by
    unfold writeSizes
    rw [bind_of_ok (show writeSize i v s = .ok () _ from rfl), writeSizes_eq v n, SizeTable.fill_cons]

/-- Writing the size of a frame. -/
def Mem.withSize (m : Mem) (va size : Nat) : Mem :=
  match m.getFrameInfo 0 va with
  | some f => m.setFrame f { m.framesInfo f with size }
  | none => m

theorem setFrameSize_eq (va size : Nat) (s : Kernel) :
    setFrameSize va size s = .ok () { s with mem := Mem.withSize s.mem va size } := by
  unfold setFrameSize Mem.withSize
  cases s.mem.getFrameInfo 0 va <;> rfl

section WithSize

variable {m : Mem} {va size : Nat}

theorem withSize_same (m : Mem) (va size : Nat) : (Mem.withSize m va size).pte = m.pte ∧
    (Mem.withSize m va size).table = m.table ∧
    (Mem.withSize m va size).freeFrameList = m.freeFrameList ∧
    (Mem.withSize m va size).numberOfFrames = m.numberOfFrames ∧
    ∀ f, ((Mem.withSize m va size).framesInfo f).references = (m.framesInfo f).references ∧
      ((Mem.withSize m va size).framesInfo f).va = (m.framesInfo f).va := by
  unfold Mem.withSize
  split
  · refine ⟨rfl, rfl, rfl, rfl, fun f => ?_⟩
    rw [Mem.setFrame_info]
    split
    · rename_i he; subst he; exact ⟨rfl, rfl⟩
    · exact ⟨rfl, rfl⟩
  · exact ⟨rfl, rfl, rfl, rfl, fun f => ⟨rfl, rfl⟩⟩

theorem withSize_dirs (m : Mem) (va size : Nat) : (Mem.withSize m va size).dirs = m.dirs := by
  unfold Mem.withSize
  split <;> rfl

theorem KPages.withSize (h : KPages m) : KPages (Mem.withSize m va size) := by
  obtain ⟨hp, ht, hf, hn, hi⟩ := withSize_same m va size
  constructor
  · rw [hn]; exact h.few
  · rw [hf]; exact h.freeNodup
  · rw [hf, hn]; exact h.freeLt
  · unfold HeapTables; rw [ht]; exact h.tables
  · rw [hp]; exact h.notBuffered
  · intro v hv f hvf
    rw [(hi f).1]; rw [hp] at hvf
    exact h.references v hv f hvf
  · intro v hv f hvf
    rw [(hi f).2]; rw [hp] at hvf
    exact h.va v hv f hvf
  · rw [hp, hf, hn]; exact h.notFree
  · intro f hlt h1 h2
    rw [(hi f).2] at h1 h2 ⊢
    rw [hn] at hlt
    rw [hp]
    exact h.stale f hlt h1 h2

theorem Loose.withSize {g r : Nat} (h : Loose m g r) : Loose (Mem.withSize m va size) g r := by
  obtain ⟨hp, -, hf, hn, hi⟩ := withSize_same m va size
  refine ⟨by rw [hn]; exact h.lt, by rw [hf]; exact h.notFree, by rw [(hi g).1]; exact h.references, ?_⟩
  rw [hp]; exact h.unmapped

end WithSize

theorem recordSize_eq (va n : Nat) (s : Kernel) :
    recordSize va n s = .ok () { s with
      allocatedSize := s.allocatedSize.fill (va / 4096) n (mul32 n pageSize)
      mem := Mem.withSize s.mem va (mul32 n pageSize) } := by
  unfold recordSize
  rw [bind_of_ok (writeSizes_eq _ n _ s), setFrameSize_eq]

/-! ## Unmapping a range -/

/-- The pages `[v, v + n)` of `m'` hold nothing, and outside them nothing changed. -/
structure Unmapped (m : Mem) (v n : Nat) (m' : Mem) : Prop where
  pages : KPages m'
  held : ∀ w, v ≤ w → w < v + n → ¬ HoldsPage m' w
  same : ∀ a : Nat × Nat, ¬ (a.1 = 0 ∧ v ≤ a.2 ∧ a.2 < v + n) → m'.pte a = m.pte a

theorem freePages_spec : ∀ (n v : Nat) (s : Kernel), KPages s.mem → (∀ i < n, HeapPage (v + i)) →
    ∃ m', freePages (v * 4096) v n s =
      .ok () { s with mem := m', allocatedSize := s.allocatedSize.fill v n 0 } ∧ Unmapped s.mem v n m'
  | 0, v, s, h, _ => by
    refine ⟨s.mem, ?_, h, fun w h1 h2 => by omega, fun _ _ => rfl⟩
    exact writeSizes_eq 0 0 v s
  | n + 1, v, s, h, hv => by
    have hv0 : HeapPage v := hv 0 (Nat.succ_pos n)
    obtain ⟨hK, hsame, hnone, -⟩ := h.unmap hv0
    have h1 : onMem (fun m => return ((), ← returnPage m (v * 4096))) s =
        .ok () { s with mem := s.mem.unmapFrame 0 (v * 4096) } := by
      simp only [onMem, returnPage, pageSize, roundDown_of_dvd (show v * 4096 % 4096 = 0 by omega)]; rfl
    obtain ⟨m', hm', hU⟩ := freePages_spec n (v + 1) { s with
        mem := s.mem.unmapFrame 0 (v * 4096)
        allocatedSize := ⟨Function.update s.allocatedSize.val v 0, v :: s.allocatedSize.used⟩ } hK (fun i hi => by
      have := hv (i + 1) (by omega); rwa [show v + (i + 1) = v + 1 + i by omega] at this)
    refine ⟨m', ?_, hU.pages, fun w hw1 hw2 => ?_, fun a ha => ?_⟩
    · unfold freePages
      rw [bind_of_ok h1, bind_of_ok (show writeSize v 0 _ = .ok () _ from rfl), add_page hv0.2, hm',
        SizeTable.fill_cons]
    · rcases Nat.eq_or_lt_of_le hw1 with rfl | hlt
      · rw [HoldsPage, hU.same (0, v) (by simp), hnone]; simp
      · exact hU.held w hlt (by omega)
    · rw [hU.same a]
      · apply hsame a
        rintro rfl
        exact ha ⟨rfl, le_refl v, by simp⟩
      · rintro ⟨b1, b2, b3⟩
        exact ha ⟨b1, by omega, by omega⟩

/-! ## Lowering the break -/

/-- The break comes down to the end of the last page that holds a frame. -/
theorem lowerBreak_spec {m : Mem} (h : KPages m) {lo : Nat} (hlo : 1007616 ≤ lo) :
    ∀ (fuel b : Nat), lo ≤ b → b ≤ 1048575 → b - lo ≤ fuel →
      ∃ b', lowerBreak m (lo * 4096) fuel (b * 4096) = b' * 4096 ∧ lo ≤ b' ∧ b' ≤ b ∧
        (b' = lo ∨ HoldsPage m (b' - 1)) ∧ ∀ w, b' ≤ w → w < b → ¬ HoldsPage m w
  | 0, b, h1, h2, h3 => ⟨b, rfl, h1, le_refl b, .inl (by omega), fun w hw1 hw2 => by omega⟩
  | fuel + 1, b, h1, h2, h3 => by
    unfold lowerBreak
    by_cases hb : lo = b
    · subst hb
      exact ⟨lo, if_neg (by omega), le_refl lo, le_refl lo, .inl rfl, fun w hw1 hw2 => by omega⟩
    · have hv : HeapPage (b - 1) := ⟨by omega, by omega⟩
      have hsub : sub32 (b * 4096) pageSize = (b - 1) * 4096 := by
        simp only [pageSize]; rw [sub32_of_le (by omega) (by omega)]; omega
      rw [if_pos (by omega), hsub, h.getFrameInfo hv]
      cases hf : (m.pte (0, b - 1)).held with
      | some f =>
        have hr : 0 < (m.framesInfo f).references := by rw [h.references _ hv f hf]; exact Nat.one_pos
        refine ⟨b, if_pos hr, h1, le_refl b, .inr ?_, fun w hw1 hw2 => by omega⟩
        rw [HoldsPage, hf]; simp
      | none =>
        obtain ⟨b', hb', h4, h5, h6, h7⟩ := lowerBreak_spec h hlo fuel (b - 1) (by omega) (by omega) (by omega)
        refine ⟨b', hb', h4, by omega, h6, fun w hw1 hw2 => ?_⟩
        rcases Nat.lt_or_ge w (b - 1) with hlt | hge
        · exact h7 w hw1 hlt
        · obtain rfl : w = b - 1 := by omega
          rw [HoldsPage, hf]; simp

/-! ## The scan for holes -/

/-- `n` pages from page `p` on, from `lo` to `hi`, hold nothing. -/
structure Hole (m : Mem) (lo hi p n : Nat) : Prop where
  lo : lo ≤ p
  hi : p + n ≤ hi
  free : ∀ w, p ≤ w → w < p + n → ¬ HoldsPage m w

theorem Hole.mono {m : Mem} {lo hi hi' p n k : Nat} (h : Hole m lo hi p n) (hk : k ≤ n) (hhi : hi ≤ hi') :
    Hole m lo hi' p k :=
  ⟨h.lo, by have := h.hi; omega, fun w h1 h2 => h.free w h1 (by omega)⟩

/-- What the scan knows at page `b`. A hole is never empty, whatever the request. -/
structure Scan.Ok (m : Mem) (lo n b : Nat) (c : Scan) : Prop where
  custom : c.custom ≠ 0 → ∃ p, c.custom = p * 4096 ∧ Hole m lo b p (max n 1)
  worst : c.worst ≠ 0 → ∃ p, c.worst = p * 4096 ∧ Hole m lo b p (max n 1)
  hole : c.pages ≠ 0 → ∃ p, c.start = p * 4096 ∧ p + c.pages = b ∧ Hole m lo b p c.pages

theorem Scan.Ok.close {m : Mem} {lo n b : Nat} {c : Scan} (h : c.Ok m lo n b) :
    (c.close n).Ok m lo n b ∧ (c.close n).pages = c.pages := by
  unfold Scan.close
  by_cases hp : 0 < c.pages
  · obtain ⟨p, hst, hpb, hhole⟩ := h.hole hp.ne'
    rw [if_pos hp]
    -- first the exact fit, then the worst fit
    have key : ∀ c' : Scan, c'.Ok m lo n b → c'.start = c.start → c'.pages = c.pages →
        (if n ≤ c'.pages ∧ c'.worstPages < c'.pages then { c' with worstPages := c'.pages, worst := c'.start }
          else c').Ok m lo n b ∧
        (if n ≤ c'.pages ∧ c'.worstPages < c'.pages then { c' with worstPages := c'.pages, worst := c'.start }
          else c').pages = c.pages := by
      intro c' h' hs' hp'
      by_cases hw : n ≤ c'.pages ∧ c'.worstPages < c'.pages
      · rw [if_pos hw]
        exact ⟨⟨h'.custom, fun _ => ⟨p, hs'.trans hst, hhole.mono (max_le (hp' ▸ hw.1) hp) (le_refl b)⟩, h'.hole⟩, hp'⟩
      · rw [if_neg hw]; exact ⟨h', hp'⟩
    by_cases hc : c.pages = n ∧ c.custom = 0
    · simp only [if_pos hc]
      exact key { c with custom := c.start } ⟨fun _ => ⟨p, hst, hhole.mono (max_le hc.1.ge hp) (le_refl b)⟩, h.worst,
        h.hole⟩ rfl rfl
    · simp only [if_neg hc]
      exact key c h rfl rfl
  · rw [if_neg hp]; exact ⟨h, rfl⟩

theorem scanHoles_ok {m : Mem} (h : HeapTables m) (n : Nat) {lo hi : Nat} (hlo : 1007616 ≤ lo) (hhi : hi ≤ 1048575) :
    ∀ (fuel b : Nat) (c : Scan), lo ≤ b → b ≤ hi → hi - b < fuel → c.Ok m lo n b →
      (scanHoles m n (hi * 4096) fuel (b * 4096) c).Ok m lo n hi
  | 0, b, c, _, _, h3, _ => by omega
  | fuel + 1, b, c, h1, h2, h3, hc => by
    unfold scanHoles
    by_cases hb : b = hi
    · subst hb; rw [if_neg (by omega)]; exact hc
    · have hv : HeapPage b := ⟨by omega, by omega⟩
      rw [if_pos (by omega), h.getFrameInfo hv, add_page hv.2]
      have step : ∀ p, Hole m lo b p (max n 1) → Hole m lo (b + 1) p (max n 1) := fun p hp => hp.mono le_rfl (by omega)
      cases hf : (m.pte (0, b)).held with
      | none =>
        refine scanHoles_ok h n hlo hhi fuel (b + 1) _ (by omega) (by omega) (by omega)
          ⟨fun hne => ?_, fun hne => ?_, ?_⟩
        · obtain ⟨p, hp, hH⟩ := hc.custom hne
          exact ⟨p, hp, step p hH⟩
        · obtain ⟨p, hp, hH⟩ := hc.worst hne
          exact ⟨p, hp, step p hH⟩
        · intro _
          have hfree : ¬ HoldsPage m b := by rw [HoldsPage, hf]; simp
          by_cases hp0 : c.pages = 0
          · refine ⟨b, if_pos hp0, by simp only [hp0], h1, by simp only [hp0]; omega, fun w hw1 hw2 => ?_⟩
            simp only [hp0] at hw2
            obtain rfl : w = b := by omega
            exact hfree
          · obtain ⟨p, hst, hpb, hH⟩ := hc.hole hp0
            refine ⟨p, by simp only [if_neg hp0, hst],
              by simp only; omega, hH.lo, by simp only; omega, fun w hw1 hw2 => ?_⟩
            simp only at hw2
            rcases Nat.lt_or_ge w b with hlt | hge
            · exact hH.free w hw1 (by omega)
            · obtain rfl : w = b := by omega
              exact hfree
      | some f =>
        obtain ⟨hok, -⟩ := hc.close
        refine scanHoles_ok h n hlo hhi fuel (b + 1) _ (by omega) (by omega) (by omega)
          ⟨fun hne => ?_, fun hne => ?_, ?_⟩
        · obtain ⟨p, hp, hH⟩ := hok.custom hne
          exact ⟨p, hp, step p hH⟩
        · obtain ⟨p, hp, hH⟩ := hok.worst hne
          exact ⟨p, hp, step p hH⟩
        · simp

/-- An address other than `0` that the scan chooses starts a hole of `n` pages below the break, and of at least one. -/
theorem fitAddress_free {s : Kernel} (h : HeapTables s.mem) {lo hi n : Nat} (hlo : 1007616 ≤ lo) (hle : lo ≤ hi)
    (hhi : hi ≤ 1048575) (hst : s.kheapPageAllocStart = lo * 4096) (hbr : s.kheapPageAllocBreak = hi * 4096)
    (hne : fitAddress s n ≠ 0) : ∃ p, fitAddress s n = p * 4096 ∧ Hole s.mem lo hi p (max n 1) := by
  have hok := (scanHoles_ok h n hlo hhi ((hi * 4096 - lo * 4096) / pageSize + 1) lo {} (le_refl lo) hle
    (by simp only [pageSize]; omega) ⟨by simp, by simp, by simp⟩).close.1
  simp only [fitAddress, hst, hbr] at hne ⊢
  split at hne
  · rename_i hc
    rw [if_pos hc]
    exact hok.custom hc
  · rename_i hc
    rw [if_neg hc]
    exact hok.worst hne

theorem fitAddress_hole {s : Kernel} (h : HeapTables s.mem) {lo hi n : Nat} (hlo : 1007616 ≤ lo) (hle : lo ≤ hi)
    (hhi : hi ≤ 1048575) (hst : s.kheapPageAllocStart = lo * 4096) (hbr : s.kheapPageAllocBreak = hi * 4096)
    (hne : fitAddress s n ≠ 0) : ∃ p, fitAddress s n = p * 4096 ∧ Hole s.mem lo hi p n := by
  obtain ⟨p, hp, hH⟩ := fitAddress_free h hlo hle hhi hst hbr hne
  exact ⟨p, hp, hH.mono (le_max_left n 1) le_rfl⟩

end Fos.Heap
