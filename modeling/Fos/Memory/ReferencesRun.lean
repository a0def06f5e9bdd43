/-
Runs of `allocate_frame`, `map_frame`, `unmap_frame`, `pt_set_page_permissions` and `free_frame`. A
`map_frame` that finds no page table creates one, and maps a page of the kernel heap for it first.
-/
import Fos.Memory.References

namespace Fos.Memory

open Fos.Lib Fos.Heap

/-! ## Creating a page table -/

/-- The kernel heap is ready for `kmalloc`. -/
structure HeapOk (s : Kernel) : Prop where
  tables : HeapTables s.mem
  start : s.kheapPageAllocStart = 1015809 * 4096
  brk : ∃ b, s.kheapPageAllocBreak = b * 4096 ∧ 1015809 ≤ b ∧ b < 1048575

/-- `kmalloc` of a page took frame `f` and mapped it at page `p` of the kernel heap: a page that holds
nothing, or the one at the break. -/
structure TakesPage (s : Kernel) (p f : Nat) (m₁ m₂ : Mem) : Prop where
  page : HeapPage p
  place : fitAddress s 1 ≠ 0 ∧ ¬ HoldsPage s.mem p ∨ fitAddress s 1 = 0 ∧ s.kheapPageAllocBreak = p * 4096
  frame : s.mem.allocateFrame = .ok (f, m₁)
  map : mapKernelFrame m₁ f (p * 4096) { writeable := true, present := true } = .ok m₂

section Create

variable {s t : Kernel}

theorem onMem_ok {α : Type} {g : Mem → Res (α × Mem)} {a : α} (h : onMem g s = .ok a t) :
    ∃ m, g s.mem = .ok (a, m) ∧ t = { s with mem := m } := by
  unfold onMem at h
  split at h
  · rename_i hg
    cases h
    exact ⟨_, hg, rfl⟩
  · cases h

theorem mapPages_one {va : Nat} (h : mapPages va 1 s = .ok () t) :
    ∃ f m₁ m₂, s.mem.allocateFrame = .ok (f, m₁) ∧
      mapKernelFrame m₁ f va { writeable := true, present := true } = .ok m₂ ∧ t = { s with mem := m₂ } := by
  unfold mapPages at h
  obtain ⟨f, r, h1, h⟩ := ok_of_bind h
  obtain ⟨m₁, ha, rfl⟩ := onMem_ok h1
  obtain ⟨_, r, h2, h⟩ := ok_of_bind h
  obtain ⟨m₂, hm, rfl⟩ := onMem_ok h2
  obtain ⟨m₃, hm₃, hm⟩ := bind_ok hm
  cases hm
  cases h
  exact ⟨f, m₁, _, ha, hm₃, rfl⟩

theorem page_count : pagesOf pageSize = 1 := by decide

/-- What `kmalloc` of a page leaves, when it does not return `NULL`. -/
theorem kmalloc_page (h : HeapOk s) {ptr : Nat} (hk : kmalloc pageSize s = .ok ptr t) (hne : ptr ≠ 0) :
    ∃ p f m₁ m₂ b, ptr = p * 4096 ∧ TakesPage s p f m₁ m₂ ∧ t.mem = Mem.withSize m₂ (p * 4096) (1 * 4096) ∧
      t.kheapPageAllocStart = s.kheapPageAllocStart ∧
      t.kheapPageAllocBreak = b * 4096 ∧ 1015809 ≤ b ∧ b < 1048575 := by
  obtain ⟨b, hb, hlow, hhigh⟩ := h.brk
  have hb0 : s.kheapPageAllocBreak ≠ 0 := by omega
  have hl := lock_free hk
  rw [kmalloc_pages hl (by decide) hb0, page_count] at hk
  split at hk
  · cases hk
    exact absurd rfl hne
  rename_i hnr
  obtain ⟨-, hgrown, hend⟩ := not_refused hb hhigh (by decide) hnr
  split at hk
  · rename_i hf
    obtain ⟨p, hp, hH⟩ := fitAddress_hole h.tables (by decide) hlow (by omega) h.start hb hf
    have hlo := hH.lo
    have hhi := hH.hi
    rw [hp] at hk
    obtain ⟨_, r, hm, hk⟩ := ok_of_bind hk
    obtain ⟨f, m₁, m₂, ha, hmap, rfl⟩ := mapPages_one hm
    rw [record_done rfl (by decide)] at hk
    cases hk
    refine ⟨p, f, m₁, m₂, b, rfl, ⟨⟨by omega, by omega⟩, .inl ⟨hf, ?_⟩, ha, hmap⟩, rfl, rfl, hb, hlow, hhigh⟩
    exact hH.free p (le_refl p) (Nat.lt_succ_self p)
  · rename_i hf
    rw [hgrown, hb] at hk
    obtain ⟨_, r, hm, hk⟩ := ok_of_bind hk
    obtain ⟨f, m₁, m₂, ha, hmap, rfl⟩ := mapPages_one hm
    rw [bind_of_ok (modify_eq _ _), record_done rfl (by decide)] at hk
    cases hk
    refine ⟨b, f, m₁, m₂, b + 1, rfl, ⟨⟨by omega, hhigh⟩, .inr ⟨not_not.1 hf, hb⟩, ha, hmap⟩, rfl, rfl, rfl, ?_, hend⟩
    omega

/-- `create_page_table` takes a page of the kernel heap and links it. -/
theorem createPageTable_ok (h : HeapOk s) {d va : Nat} (hr : createPageTable d va s = .ok () t) :
    ∃ p f m₁ m₂ b u, TakesPage s p f m₁ m₂ ∧ u.mem = Mem.withSize m₂ (p * 4096) (1 * 4096) ∧
      t = Kernel.linkTable u d va (p * 4096) ∧ u.kheapPageAllocStart = s.kheapPageAllocStart ∧
      u.kheapPageAllocBreak = b * 4096 ∧ 1015809 ≤ b ∧ b < 1048575 := by
  unfold createPageTable at hr
  obtain ⟨ptr, u, hk, hr⟩ := ok_of_bind hr
  by_cases hne : ptr = 0
  · rw [if_pos hne] at hr
    obtain ⟨_, r, hr, -⟩ := ok_of_bind hr
    cases hr
  · obtain ⟨p, f, m₁, m₂, b, rfl, hT, hmem, hst, hb⟩ := kmalloc_page h hk hne
    rw [if_neg hne] at hr
    cases hr
    exact ⟨p, f, m₁, m₂, b, u, hT, hmem, rfl, hst, hb⟩

end Create

/-! ## Counts around a new page table -/

section Tables

variable {pool : Finset Nat} {held : List Nat} {m m₁ m₂ : Mem} {s t u : Kernel} {p f g d v : Nat} {perm : Perm}

theorem heap_slot (hp : HeapPage p) : (0, p) ∈ slots m := mem_slots.2 (.inr ⟨rfl, hp⟩)

theorem allocateFrame_ok (h : m.allocateFrame = .ok (f, m₁)) :
    m.freeFrameList = f :: m₁.freeFrameList ∧ m₁.pte = m.pte ∧ m₁.table = m.table ∧ m₁.dirs = m.dirs ∧
      ∀ g, m₁.framesInfo g = if g = f then {} else m.framesInfo g := by
  unfold Mem.allocateFrame at h
  split at h
  · cases h
  · rename_i hfree
    cases h
    exact ⟨hfree, rfl, rfl, rfl, fun g => Mem.setFrame_info ..⟩

theorem TakesPage.eq (h : TakesPage s p f m₁ m₂) :
    m₂ = (m₁.setFrameVa f (p * 4096)).enterFrame 0 f (p * 4096) { writeable := true, present := true } := by
  have hm := h.map
  simp only [mapKernelFrame] at hm
  split at hm
  · exact (Except.ok.inj hm).symm
  · cases hm

/-- A new table has no entries, and no other entry changes. -/
theorem linkTable_entry (hno : s.mem.table d (v / 1024) = none) (ptr : Nat) :
    ∀ a ∈ slots s.mem, entry (s.linkTable d (v * 4096) ptr).mem a = entry s.mem a ∧
      (entry s.mem a ≠ none → (s.linkTable d (v * 4096) ptr).mem.pte a = s.mem.pte a) := by
  rintro ⟨e, w⟩ ha
  have ha' : (e, w) ∈ slots (s.linkTable d (v * 4096) ptr).mem := ha
  rw [entry_eq ha, entry_eq ha']
  simp only [Kernel.linkTable, pdx_page, Function.update_apply]
  by_cases he : e = d
  · subst he
    by_cases hw : w / 1024 = v / 1024
    · rw [hw, hno]
      simp [Pte.held]
    · simp only [hw, and_false, if_false, if_true, Function.update_of_ne hw, implies_true, and_true]
  · simp only [he, false_and, if_false, implies_true, and_true]

theorem linkTable_table (i ptr : Nat) :
    (s.mem.table g i).isSome → ((s.linkTable d v ptr).mem.table g i).isSome := by
  intro h
  simp only [Kernel.linkTable, Function.update_apply]
  by_cases hg : g = d
  · subst hg
    rw [if_pos rfl, Function.update_apply]
    split
    · rfl
    · exact h
  · rwa [if_neg hg]

/-- `create_page_table` for directory `d` and page `v`, through page `p` of the kernel heap and frame `f`. -/
structure Creates (s : Kernel) (d v p f : Nat) (m₁ m₂ : Mem) (t : Kernel) : Prop where
  takes : TakesPage s p f m₁ m₂
  dirs : t.mem.dirs = s.mem.dirs
  entries : ∀ a ∈ slots s.mem, entry t.mem a = entry m₂ a ∧ (entry m₂ a ≠ none → t.mem.pte a = m₂.pte a)
  references : ∀ g, (t.mem.framesInfo g).references = (m₂.framesInfo g).references
  free : t.mem.freeFrameList = m₂.freeFrameList
  table : (t.mem.table d (v / 1024)).isSome
  empty : t.mem.pte (d, v) = {}
  heap : HeapOk t

theorem TakesPage.same (h : TakesPage s p f m₁ m₂) : m₂.dirs = s.mem.dirs ∧ m₂.table = s.mem.table := by
  obtain ⟨-, -, ht, hd, -⟩ := allocateFrame_ok h.frame
  obtain ⟨h1, -, h2⟩ := Mem.enterFrame_same (m₁.setFrameVa f (p * 4096)) 0 f (p * 4096)
    { writeable := true, present := true }
  rw [← h.eq] at h1 h2
  exact ⟨h2.trans hd, h1.trans ht⟩

theorem createPageTable_creates (h : HeapOk s)
    (hno : s.mem.table d (v / 1024) = none) (hr : createPageTable d (v * 4096) s = .ok () t) :
    ∃ p f m₁ m₂, Creates s d v p f m₁ m₂ t := by
  obtain ⟨p, f, m₁, m₂, b, u, hT, hu, rfl, hst, hb, hlow, hhigh⟩ := createPageTable_ok h hr
  obtain ⟨hdirs, htab⟩ := hT.same
  obtain ⟨hp, ht, hf, -, hi⟩ := withSize_same m₂ (p * 4096) (1 * 4096)
  have hd' := withSize_dirs m₂ (p * 4096) (1 * 4096)
  rw [← hu] at hp ht hf hi hd'
  have hdu : u.mem.dirs = s.mem.dirs := hd'.trans hdirs
  have htu : u.mem.table = s.mem.table := ht.trans htab
  have hlink := linkTable_entry (by rwa [htu]) (p * 4096)
  have hsame : ∀ a ∈ slots s.mem, entry u.mem a = entry m₂ a := fun a ha =>
    entry_congr (by rwa [slots_congr hdirs]) hd' ht (by rw [hp])
  refine ⟨p, f, m₁, m₂, hT, hdu, fun a ha => ?_, fun g => (hi g).1, hf, ?_, ?_,
    ⟨fun w hw => ?_, hst.trans h.start, b, hb, hlow, hhigh⟩⟩
  · obtain ⟨h1, h2⟩ := hlink a (by rwa [slots_congr hdu])
    rw [← hsame a ha, ← hp]
    exact ⟨h1, h2⟩
  · simp only [Kernel.linkTable, pdx_page, Function.update_self, Option.isSome_some]
  · simp [Kernel.linkTable, pdx_page]
  · exact linkTable_table _ _ (htu ▸ h.tables w hw)

/-- The page of the kernel heap that the new table takes, ready for its frame. -/
theorem Guards.takes (h : Guards pool held s.mem) (hI : HeapOk s) (hT : TakesPage s p f m₁ m₂) :
    Guards pool (f :: held) (m₁.setFrameVa f (p * 4096)) ∧
      ((m₁.setFrameVa f (p * 4096)).table 0 (p / 1024)).isSome ∧ f ∈ pool ∧ f ∈ s.mem.freeFrameList ∧
      f ∉ m₁.freeFrameList ∧ ((m₁.setFrameVa f (p * 4096)).framesInfo f).references = 0 ∧
      (∀ a, entry (m₁.setFrameVa f (p * 4096)) a = entry s.mem a) ∧ (m₁.setFrameVa f (p * 4096)).pte = s.mem.pte ∧
      ∀ g, g ≠ f → (m₁.setFrameVa f (p * 4096)).framesInfo g = s.mem.framesInfo g := by
  obtain ⟨hfree, hp, ht, -, hi⟩ := allocateFrame_ok hT.frame
  have hnd := h.guarded.freeNodup
  have hmem : f ∈ s.mem.freeFrameList := by rw [hfree]; exact List.mem_cons_self
  have hent : ∀ a, entry (m₁.setFrameVa f (p * 4096)) a = entry s.mem a := by
    intro a
    show (if (m₁.table _ _).isSome then (m₁.pte _).held else none) =
      if (s.mem.table _ _).isSome then (s.mem.pte _).held else none
    rw [ht, hp]
  refine ⟨(h.allocate hT.frame).setFrameVa f (p * 4096), ?_, h.guarded.freeIn f hmem, hmem, ?_, ?_, hent, hp,
    fun g hg => ?_⟩
  · show (m₁.table 0 (p / 1024)).isSome = true
    rw [ht]; exact hI.tables p hT.page
  · change (s.mem.freeFrameList).Nodup at hnd
    rw [hfree] at hnd
    exact (List.nodup_cons.1 hnd).1
  · rw [Mem.setFrameVa, Mem.setFrame_info, if_pos rfl, hi, if_pos rfl]
  · rw [Mem.setFrameVa, Mem.setFrame_info, if_neg hg, hi, if_neg hg]

theorem Counted.takes (h : Counted pool held s.mem) (hI : HeapOk s) (hT : TakesPage s p f m₁ m₂) :
    Counted pool (f :: held) (m₁.setFrameVa f (p * 4096)) ∧
      ((m₁.setFrameVa f (p * 4096)).table 0 (p / 1024)).isSome ∧ f ∈ pool ∧ f ∉ m₁.freeFrameList ∧
      ((m₁.setFrameVa f (p * 4096)).framesInfo f).references = 0 ∧
      (Releases (m₁.setFrameVa f (p * 4096)) (0, p) ↔ Releases s.mem (0, p)) := by
  obtain ⟨-, ht, hf, -, hnf, hzero, hent, hpte, -⟩ := h.guards.takes hI hT
  refine ⟨(h.allocate hT.frame).setFrameVa f (p * 4096), ht, hf, hnf, hzero, ?_⟩
  rw [Releases, hent, hpte, Releases]

/-- Counts that guard the frames guard them after a new table; a frame that its page maps loses a reference. -/
theorem Guards.creates (h : Guards pool held s.mem) (hI : HeapOk s) {m₁ m₂ : Mem}
    (hC : Creates s d v p f m₁ m₂ t) : Guards pool held t.mem ∧ ∀ g, g ∉ s.mem.freeFrameList →
      (MapsTo s.mem (0, p) g ∧ (t.mem.framesInfo g).references = (s.mem.framesInfo g).references - 1 ∧
        (g ∈ t.mem.freeFrameList ↔ (s.mem.framesInfo g).references = 1)) ∨
      (¬ MapsTo s.mem (0, p) g ∧ (t.mem.framesInfo g).references = (s.mem.framesInfo g).references ∧
        g ∉ t.mem.freeFrameList) := by
  obtain ⟨h₁, ht, hf, hmem, hnf, hzero, hent, hpte, hother⟩ := h.takes hI hC.takes
  have ha : (0, p) ∈ slots (m₁.setFrameVa f (p * 4096)) := heap_slot hC.takes.page
  have h₂ := h₁.enter { writeable := true, present := true } ha ht hf hnf (.inr (by rw [hzero]; decide)) rfl
  rw [List.erase_cons_head, ← hC.takes.eq] at h₂
  have hslots := slots_congr hC.takes.same.1
  refine ⟨h₂.congr (hC.dirs.trans hC.takes.same.1.symm) (fun a ha =>
    hC.entries a (by rwa [← hslots])) hC.references hC.free, fun g hg => ?_⟩
  have hgf : g ≠ f := fun he => hg (he ▸ hmem)
  have hg₁ : g ∉ (m₁.setFrameVa f (p * 4096)).freeFrameList := fun hc => hg <| by
    rw [(allocateFrame_ok hC.takes.frame).1]
    exact List.mem_cons_of_mem f hc
  have hmaps : MapsTo (m₁.setFrameVa f (p * 4096)) (0, p) g ↔ MapsTo s.mem (0, p) g := by
    rw [MapsTo, hent, hpte, MapsTo]
  have hcases := h₁.enter_other { writeable := true, present := true } ha ht hgf
  rw [← hC.takes.eq, hother g hgf, hmaps] at hcases
  rw [hC.references, hC.free]
  rcases hcases with ⟨hm, hr, hfree⟩ | ⟨hm, hr, hfree⟩
  · exact .inl ⟨hm, hr, hfree.trans (or_iff_right hg₁)⟩
  · exact .inr ⟨hm, hr, fun hc => hg₁ (hfree.1 hc)⟩

/-- The counts after a new table, if the page of the kernel heap that it takes releases what it holds. -/
theorem Counted.creates (h : Counted pool held s.mem) (hI : HeapOk s) {m₁ m₂ : Mem}
    (hC : Creates s d v p f m₁ m₂ t) (hrel : Releases s.mem (0, p)) : Counted pool held t.mem ∧
      ∀ g, g ∉ s.mem.freeFrameList →
        (t.mem.framesInfo g).references =
          (if entry s.mem (0, p) = some g then (s.mem.framesInfo g).references - 1
            else (s.mem.framesInfo g).references) ∧
        (g ∈ t.mem.freeFrameList ↔ entry s.mem (0, p) = some g ∧ (s.mem.framesInfo g).references = 1) := by
  obtain ⟨h₁, ht, hf, hnf, hzero, hreleq⟩ := h.takes hI hC.takes
  have ha : (0, p) ∈ slots (m₁.setFrameVa f (p * 4096)) := heap_slot hC.takes.page
  have h₂ := h₁.enter { writeable := true, present := true } ha ht hf hnf (hreleq.2 hrel)
    (.inr (by rw [hzero]; decide)) rfl
  rw [List.erase_cons_head, ← hC.takes.eq] at h₂
  have hslots := slots_congr hC.takes.same.1
  refine ⟨h₂.congr (hC.dirs.trans hC.takes.same.1.symm) (fun a ha =>
    hC.entries a (by rwa [← hslots])) hC.references hC.free, fun g hg => ?_⟩
  rcases (h.guards.creates hI hC).2 g hg with ⟨hm, hr, hfree⟩ | ⟨hm, hr, hfree⟩
  · rw [hr, hfree, if_pos hm.2]
    exact ⟨rfl, (and_iff_right hm.2).symm⟩
  · have hne : entry s.mem (0, p) ≠ some g := fun hc =>
      hm ⟨hrel.resolve_right fun hn => absurd (hn.symm.trans hc) (by simp), hc⟩
    rw [hr, if_neg hne]
    exact ⟨rfl, fun hc => absurd hc hfree, fun hc => absurd hc.1 hne⟩

/-- Counts that are right after a new table: the page that it takes released what it held. -/
theorem Counted.creates_exact (h : Counted pool held s.mem) (hI : HeapOk s) {m₁ m₂ : Mem}
    (hC : Creates s d v p f m₁ m₂ t) (hright : Right pool t.mem) : Releases s.mem (0, p) := by
  obtain ⟨h₁, ht, hf, -, -, hreleq⟩ := h.takes hI hC.takes
  have hslots := slots_congr hC.takes.same.1
  have hr₂ : Right pool m₂ := hright.congr (hC.takes.same.1.trans hC.dirs.symm)
    (fun a ha => ((hC.entries a (by rwa [← slots_congr hC.dirs])).1).symm) (fun g => (hC.references g).symm)
  rw [hC.takes.eq] at hr₂
  exact hreleq.1 (h₁.enter_exact (heap_slot hC.takes.page) ht hf hr₂).1

/-- The counts after a new table stay within their 16 bits. -/
theorem Counted.creates_small (h : Counted pool held s.mem) (hI : HeapOk s) {m₁ m₂ : Mem}
    (hC : Creates s d v p f m₁ m₂ t) : ∀ g ∈ pool, (t.mem.framesInfo g).references < 65536 :=
  (h.guards.creates hI hC).1.small

end Tables

/-! ## `map_frame` -/

section MapFrame

variable {s t : Kernel} {d f v n : Nat} {perm : Perm}

theorem scanHoles_setFrameVa (m : Mem) (va brk : Nat) : ∀ (fuel w : Nat) (c : Scan),
    scanHoles (m.setFrameVa f va) n brk fuel w c = scanHoles m n brk fuel w c
  | 0, _, _ => rfl
  | fuel + 1, w, c => by
    unfold scanHoles
    rw [show (m.setFrameVa f va).getFrameInfo 0 w = m.getFrameInfo 0 w from rfl]
    simp only [scanHoles_setFrameVa m va brk fuel]

theorem fitAddress_setFrameVa (va : Nat) : fitAddress { s with mem := s.mem.setFrameVa f va } n = fitAddress s n := by
  unfold fitAddress
  simp only [scanHoles_setFrameVa]

/-- `map_frame` where the page table is there. -/
theorem mapFrame_there {va : Nat} (ht : (s.mem.table (owner d va) (pdx va)).isSome) :
    mapFrame d f va perm s = .ok () { s with mem := (s.mem.setFrameVa f va).enterFrame d f va perm } := by
  have hn : ((s.mem.setFrameVa f va).table (owner d va) (pdx va)).isNone = false := by
    rw [← Option.not_isSome]
    exact congrArg (!·) ht
  unfold mapFrame
  rw [bind_of_ok (modify_eq _ s), bind_of_ok (get_eq _), hn]
  rfl

/-- `map_frame` enters the frame in the table that is there, or in a new one. -/
theorem mapFrame_ok {va : Nat} (h : mapFrame d f va perm s = .ok () t) :
    ((s.mem.table (owner d va) (pdx va)).isSome ∧
      t = { s with mem := (s.mem.setFrameVa f va).enterFrame d f va perm }) ∨
    (s.mem.table (owner d va) (pdx va) = none ∧
      ∃ u, createPageTable d va { s with mem := s.mem.setFrameVa f va } = .ok () u ∧
        t = { u with mem := u.mem.enterFrame d f va perm }) := by
  cases hn : s.mem.table (owner d va) (pdx va) with
  | some i =>
    rw [mapFrame_there (by rw [hn]; rfl)] at h
    cases h
    exact .inl ⟨rfl, rfl⟩
  | none =>
    have hn' : ((s.mem.setFrameVa f va).table (owner d va) (pdx va)).isNone = true := Option.isNone_iff_eq_none.2 hn
    unfold mapFrame at h
    rw [bind_of_ok (modify_eq _ s), bind_of_ok (get_eq _), hn', if_pos rfl] at h
    obtain ⟨_, u, hc, h⟩ := ok_of_bind h
    cases h
    exact .inr ⟨rfl, u, hc, rfl⟩

end MapFrame

/-! ## Mapping with a new page table -/

/-- There is room for one more reference to the frame, or entry `a` has it already. -/
def Room (m : Mem) (a : Nat × Nat) (f : Nat) : Prop := entry m a = some f ∨ (m.framesInfo f).references + 1 < 65536

/-- A new page table may take page `p` of the kernel heap while frame `f` is mapped: the page releases
what it holds, and that is not the last reference to `f`. -/
def Spares (m : Mem) (p f : Nat) : Prop :=
  Releases m (0, p) ∧ Room m (0, p) f ∧ (entry m (0, p) = some f → 1 < (m.framesInfo f).references)

section New

variable {pool : Finset Nat} {held : List Nat} {s t : Kernel} {d f v p g : Nat} {perm : Perm} {m₁ m₂ : Mem}

theorem HeapOk.mem (hH : HeapOk s) {m : Mem} (ht : m.table = s.mem.table) : HeapOk { s with mem := m } :=
  ⟨fun v hv => by rw [ht]; exact hH.tables v hv, hH.start, hH.brk⟩

/-- The page that a new table takes is a hole, or the one at the break. -/
theorem spares_iff (hH : HeapOk s) (hT : TakesPage s p g m₁ m₂) :
    (if fitAddress s 1 = 0 then Spares s.mem (s.kheapPageAllocBreak / 4096) f
      else (s.mem.framesInfo f).references + 1 < 65536) ↔ Spares s.mem p f := by
  rcases hT.place with ⟨hfit, hhole⟩ | ⟨hfit, hbrk⟩
  · have hnone : entry s.mem (0, p) = none := by
      rw [entry_eq (heap_slot hT.page), if_pos (hH.tables p hT.page)]
      exact not_not.1 hhole
    rw [if_neg hfit]
    unfold Spares Room
    rw [hnone]
    exact ⟨fun hr => ⟨.inr hnone, .inr hr, by simp⟩, fun hr => hr.2.1.resolve_left (by simp)⟩
  · rw [if_pos hfit, hbrk, Nat.mul_div_cancel _ (show 0 < 4096 by decide)]

theorem Creates.slot (hcr : Creates s d v p g m₁ m₂ t) (ha : (d, v) ∈ slots s.mem) :
    (d, v) ∈ slots t.mem ∧ entry t.mem (d, v) = none := by
  have ha' : (d, v) ∈ slots t.mem := by rwa [slots_congr hcr.dirs]
  refine ⟨ha', ?_⟩
  rw [entry_eq ha', if_pos hcr.table, hcr.empty]
  rfl

/-- The counts after `map_frame` with a new page table, if the table's page spares the frame. -/
theorem Counted.mapNew (h : Counted pool held s.mem) (hH : HeapOk s) (hcr : Creates s d v p g m₁ m₂ t)
    (ha : (d, v) ∈ slots s.mem) (hpool : f ∈ pool) (hnf : f ∉ s.mem.freeFrameList) (hp : perm.buffered = false)
    (hsp : Spares s.mem p f) : Counted pool (held.erase f) (t.mem.enterFrame d f (v * 4096) perm) := by
  obtain ⟨hrel, hroom, hlast⟩ := hsp
  obtain ⟨hC, hother⟩ := h.creates hH hcr hrel
  obtain ⟨href, hfree⟩ := hother f hnf
  obtain ⟨ha', hnone⟩ := hcr.slot ha
  refine hC.enter (a := (d, v)) perm ha' hcr.table hpool (fun hc => ?_) (.inr hnone) (.inr ?_) hp
  · obtain ⟨h1, h2⟩ := hfree.1 hc
    exact (hlast h1).ne' h2
  · rw [href]
    rcases hroom with he | hlt
    · have := h.small f hpool
      have := hlast he
      rw [if_pos he]
      omega
    · split
      · omega
      · exact hlt

/-- Counts and a free list that are right after it: the table's page spared the frame. -/
theorem Counted.mapNew_exact (h : Counted pool held s.mem) (hH : HeapOk s) (hcr : Creates s d v p g m₁ m₂ t)
    (ha : (d, v) ∈ slots s.mem) (hpool : f ∈ pool) (hnf : f ∉ s.mem.freeFrameList)
    (hright : Right pool (t.mem.enterFrame d f (v * 4096) perm))
    (hfree : f ∈ (t.mem.enterFrame d f (v * 4096) perm).freeFrameList →
      holders (slots t.mem) (entry (t.mem.enterFrame d f (v * 4096) perm)) f = 0) : Spares s.mem p f := by
  obtain ⟨ha', hnone⟩ := hcr.slot ha
  have hlink : t.mem.enterFrame d f (v * 4096) perm = t.mem.linkFrame d f (v * 4096) perm := by
    rw [Mem.enterFrame, slot_slot ha', hcr.empty]
    rfl
  rw [hlink] at hright hfree
  have hsmall := h.creates_small hH hcr f hpool
  have hrel := h.creates_exact hH hcr (hright.before_link (a := (d, v)) ha' hcr.table hnone hpool hsmall)
  obtain ⟨href, hfr⟩ := (h.creates hH hcr hrel).2 f hnf
  have hroom := hright.link_small (a := (d, v)) ha' hcr.table hpool hsmall
  rw [href] at hroom
  refine ⟨hrel, ?_, fun he => ?_⟩
  · by_cases he : entry s.mem (0, p) = some f
    · exact .inl he
    · rw [if_neg he] at hroom
      exact .inr hroom
  · by_contra hone
    have hpos := h.pos (heap_slot hcr.takes.page) he
    have hzero := hfree (hfr.2 ⟨he, Nat.le_antisymm (not_lt.1 hone) hpos⟩)
    have hheld := (link_eq f perm ha' hcr.table).2 (d, v) ha'
    rw [Function.update_self] at hheld
    exact (holders_pos ha' hheld).ne' hzero

theorem room_setFrameVa {m : Mem} {a : Nat × Nat} {w : Nat} : Room (m.setFrameVa f w) a f ↔ Room m a f := by
  unfold Room
  rw [setFrameVa_references]
  exact Iff.rfl

theorem spares_setFrameVa {m : Mem} {w : Nat} : Spares (m.setFrameVa f w) p f ↔ Spares m p f := by
  unfold Spares
  rw [room_setFrameVa, setFrameVa_references]
  exact Iff.rfl

end New

/-! ## Runs -/

/-- The kernel, and the frames that callers hold: allocated and not mapped yet. -/
structure MemRun where
  kernel : Kernel
  held : List Nat

inductive MemCall where
  | allocateFrame
  | freeFrame (f : Nat)
  | mapFrame (d f v : Nat) (perm : Perm)
  | unmapFrame (d v : Nat)
  | ptSetPagePermissions (d v : Nat) (permissionsToSet permissionsToClear : Perm)

namespace MemRun

/-- `free_frame` of a frame that its caller holds; a frame to map is held by the caller or mapped
already; `PERM_PRESENT` is only set where a frame is, and the kernel never sets `PERM_BUFFERED`. -/
def Legal (h : MemRun) : MemCall → Prop
  | .allocateFrame => True
  | .freeFrame f => f ∈ h.held
  | .mapFrame d f v perm => (d, v) ∈ slots h.kernel.mem ∧ perm.buffered = false ∧
      (f ∈ h.held ∨ 0 < holders (slots h.kernel.mem) (entry h.kernel.mem) f)
  | .unmapFrame d v => (d, v) ∈ slots h.kernel.mem
  | .ptSetPagePermissions d v permissionsToSet _ => (d, v) ∈ slots h.kernel.mem ∧
      permissionsToSet.buffered = false ∧
      (permissionsToSet.present = true → h.kernel.mem.getFrameInfo d (v * 4096) ≠ none)

def call (h : MemRun) : MemCall → Option MemRun
  | .allocateFrame =>
    match h.kernel.mem.allocateFrame with
    | .ok (f, mem) => some ⟨{ h.kernel with mem }, f :: h.held⟩
    | .error _ => none
  | .freeFrame f => some ⟨{ h.kernel with mem := h.kernel.mem.freeFrame f }, h.held.erase f⟩
  | .mapFrame d f v perm =>
    match mapFrame d f (v * 4096) perm h.kernel with
    | .ok _ kernel => some ⟨kernel, h.held.erase f⟩
    | .error _ _ => none
  | .unmapFrame d v => some { h with kernel := { h.kernel with mem := h.kernel.mem.unmapFrame d (v * 4096) } }
  | .ptSetPagePermissions d v permissionsToSet permissionsToClear =>
    match h.kernel.mem.ptSetPagePermissions d (v * 4096) permissionsToSet permissionsToClear with
    | .ok mem => some { h with kernel := { h.kernel with mem } }
    | .error _ => none

def Step (h : MemRun) (c : MemCall) (h' : MemRun) : Prop := h.Legal c ∧ h.call c = some h'

/-- Each frame's `references` is the number of entries that hold it, and it is on the free list exactly
when that is `0` and no caller holds it. -/
def Agrees (pool : Finset Nat) (h : MemRun) : Prop :=
  ∀ f ∈ pool, (h.kernel.mem.framesInfo f).references = holders (slots h.kernel.mem) (entry h.kernel.mem) f ∧
    (f ∈ h.kernel.mem.freeFrameList ↔ holders (slots h.kernel.mem) (entry h.kernel.mem) f = 0 ∧ f ∉ h.held)

/-- The entry that `map_frame` overwrites is present or holds no frame, and the count does not wrap. A
missing page table is first made in a hole of the kernel heap or at its break, and there the same. -/
def Releasing (h : MemRun) : MemCall → Prop
  | .mapFrame d f v _ =>
    if (h.kernel.mem.table d (v / 1024)).isSome then Releases h.kernel.mem (d, v) ∧ Room h.kernel.mem (d, v) f
    else if fitAddress h.kernel 1 = 0 then Spares h.kernel.mem (h.kernel.kheapPageAllocBreak / 4096) f
    else (h.kernel.mem.framesInfo f).references + 1 < 65536
  | _ => True

structure Inv (pool : Finset Nat) (h : MemRun) : Prop where
  counted : Counted pool h.held h.kernel.mem
  heap : HeapOk h.kernel

section Steps

variable {pool : Finset Nat} {h h' : MemRun} {d f v p g : Nat} {perm : Perm} {t : Kernel} {m₁ m₂ : Mem}

theorem Inv.agrees (hI : h.Inv pool) : h.Agrees pool :=
  fun f hf => ⟨hI.counted.balanced.references f hf, hI.counted.balanced.free f hf⟩

/-- A frame that may be mapped is in the pool and not free. -/
theorem mappable {held : List Nat} {m : Mem} (h : Guards pool held m)
    (hf : f ∈ held ∨ 0 < holders (slots m) (entry m) f) : f ∈ pool ∧ f ∉ m.freeFrameList := by
  rcases hf with hf | hf
  · exact ⟨h.guarded.heldIn f hf, fun hc => (h.guarded.free f hc).2 hf⟩
  · obtain ⟨a, ha⟩ := Finset.card_pos.1 hf
    obtain ⟨has, hae⟩ := Finset.mem_filter.1 ha
    exact ⟨h.guarded.inside a has f hae, fun hc => hf.ne' (h.guarded.free f hc).1⟩

/-- What a legal `map_frame` that returns did. -/
theorem mapFrame_cases (hH : HeapOk h.kernel) (hl : h.Legal (.mapFrame d f v perm))
    (hr : h.call (.mapFrame d f v perm) = some h') :
    ((h.kernel.mem.table d (v / 1024)).isSome ∧ h' = ⟨{ h.kernel with
      mem := (h.kernel.mem.setFrameVa f (v * 4096)).enterFrame d f (v * 4096) perm }, h.held.erase f⟩) ∨
    (h.kernel.mem.table d (v / 1024) = none ∧ ∃ p g m₁ m₂ u,
      Creates { h.kernel with mem := h.kernel.mem.setFrameVa f (v * 4096) } d v p g m₁ m₂ u ∧
      h' = ⟨{ u with mem := u.mem.enterFrame d f (v * 4096) perm }, h.held.erase f⟩) := by
  have ha := hl.1
  simp only [call] at hr
  split at hr
  · rename_i t hm
    obtain rfl := Option.some.inj hr
    have hown := owner_slot ha
    rcases mapFrame_ok hm with ⟨ht, rfl⟩ | ⟨hno, u, hc, rfl⟩
    · rw [hown, pdx_page] at ht
      exact .inl ⟨ht, rfl⟩
    · rw [hown, pdx_page] at hno
      obtain ⟨p, g, m₁, m₂, hcr⟩ := createPageTable_creates
        (hH.mem (m := h.kernel.mem.setFrameVa f (v * 4096)) rfl) hno hc
      exact .inr ⟨hno, p, g, m₁, m₂, u, hcr, rfl⟩
  · cases hr

theorem releasing_there (ht : (h.kernel.mem.table d (v / 1024)).isSome) :
    h.Releasing (.mapFrame d f v perm) ↔ Releases h.kernel.mem (d, v) ∧ Room h.kernel.mem (d, v) f := by
  rw [Releasing, if_pos ht]

theorem Inv.releasing_new (hI : h.Inv pool) (hno : h.kernel.mem.table d (v / 1024) = none)
    (hT : TakesPage { h.kernel with mem := h.kernel.mem.setFrameVa f (v * 4096) } p g m₁ m₂) :
    h.Releasing (.mapFrame d f v perm) ↔ Spares h.kernel.mem p f := by
  have hH := hI.heap.mem (m := h.kernel.mem.setFrameVa f (v * 4096)) rfl
  rw [← spares_setFrameVa, ← spares_iff hH hT, fitAddress_setFrameVa, setFrameVa_references, spares_setFrameVa,
    Releasing, if_neg (show ¬ (h.kernel.mem.table d (v / 1024)).isSome by rw [hno]; simp)]

/-- A step that releases what it overwrites keeps the counts right. -/
theorem Inv.step (h : MemRun) (c : MemCall) (h' : MemRun) (hI : h.Inv pool) (hc : h.Releasing c) (hstep : Step h c h') :
    h'.Inv pool := by
  obtain ⟨hl, hrun⟩ := hstep
  cases c with
  | allocateFrame =>
    simp only [call] at hrun
    split at hrun
    · rename_i f m' ha
      cases hrun
      exact ⟨hI.counted.allocate ha, hI.heap.mem (allocateFrame_table ha)⟩
    · cases hrun
  | freeFrame f =>
    obtain rfl := Option.some.inj hrun
    exact ⟨hI.counted.freeFrame hl, hI.heap.mem rfl⟩
  | mapFrame d f v perm =>
    obtain ⟨hpool, hnf⟩ := mappable hI.counted.guards hl.2.2
    have hC := hI.counted.setFrameVa f (v * 4096)
    rcases mapFrame_cases hI.heap hl hrun with ⟨ht, rfl⟩ | ⟨hno, p, g, m₁, m₂, u, hcr, rfl⟩
    · rw [releasing_there ht] at hc
      have henter := hC.enter (a := (d, v)) perm hl.1 ht hpool hnf hc.1 (room_setFrameVa.2 hc.2) hl.2.1
      exact ⟨henter, hI.heap.mem (Mem.enterFrame_same _ _ _ _ _).1⟩
    · have hH := hI.heap.mem (m := h.kernel.mem.setFrameVa f (v * 4096)) rfl
      have hsp := (hI.releasing_new hno hcr.takes).1 hc
      refine ⟨hC.mapNew hH hcr hl.1 hpool hnf hl.2.1 (spares_setFrameVa.2 hsp), hcr.heap.mem ?_⟩
      exact (Mem.enterFrame_same _ _ _ _ _).1
  | unmapFrame d v =>
    obtain rfl := Option.some.inj hrun
    exact ⟨(hI.counted.unmap hl).1, hI.heap.mem (Mem.unmapFrame_same _ _ _).1⟩
  | ptSetPagePermissions d v permissionsToSet permissionsToClear =>
    simp only [call] at hrun
    split at hrun
    · rename_i m' hm
      cases hrun
      refine ⟨hI.counted.setPermissions hl.1 hl.2.1 hl.2.2 hm, hI.heap.mem ?_⟩
      unfold Mem.ptSetPagePermissions at hm
      split at hm <;> cases hm
      rfl
    · cases hrun

/-- A step after which counts and free list are right released what it overwrote. -/
theorem Inv.exact (h : MemRun) (c : MemCall) (h' : MemRun) (hI : h.Inv pool) (hstep : Step h c h')
    (hag : h'.Agrees pool) : h.Releasing c := by
  obtain ⟨hl, hrun⟩ := hstep
  cases c with
  | mapFrame d f v perm =>
    obtain ⟨hpool, hnf⟩ := mappable hI.counted.guards hl.2.2
    have hC := hI.counted.setFrameVa f (v * 4096)
    rcases mapFrame_cases hI.heap hl hrun with ⟨ht, rfl⟩ | ⟨hno, p, g, m₁, m₂, u, hcr, rfl⟩
    · obtain ⟨hrel, hroom⟩ := hC.enter_exact (a := (d, v)) hl.1 ht hpool fun f hf => (hag f hf).1
      exact (releasing_there ht).2 ⟨hrel, room_setFrameVa.1 hroom⟩
    · have hH := hI.heap.mem (m := h.kernel.mem.setFrameVa f (v * 4096)) rfl
      refine (hI.releasing_new hno hcr.takes).2 (spares_setFrameVa (w := v * 4096) |>.1 ?_)
      apply hC.mapNew_exact hH hcr hl.1 hpool hnf (fun f hf => (hag f hf).1)
      intro hf
      have hzero : holders _ _ f = 0 := ((hag f hpool).2.1 hf).1
      rwa [slots_congr (Mem.enterFrame_same _ _ _ _ _).2.2] at hzero
  | allocateFrame | freeFrame _ | unmapFrame _ _ | ptSetPagePermissions _ _ _ _ => trivial

theorem Inv.next (hI : h.Inv pool) (c : MemCall) (hl : h.Legal c) (hc : h.Releasing c) (hr : h.call c = some h') :
    Step h c h' ∧ h'.Inv pool := ⟨⟨hl, hr⟩, Inv.step h c h' hI hc ⟨hl, hr⟩⟩

theorem Inv.exact_run (hI : h.Inv pool) (c : MemCall) {cs : List MemCall} (hl : h.Legal c) (hr : h.call c = some h')
    (hrun : Always Step (Agrees pool) h (c :: cs)) : h.Releasing c :=
  Inv.exact h c h' hI ⟨hl, hr⟩ (hrun.2 _ ⟨hl, hr⟩).head

end Steps

/-- Before the first call no entry holds a free frame and nobody holds one. -/
theorem inv_init {s₀ s : Kernel} (hboot : Booted s₀.mem) (hinit : kheapInit s₀ = .ok s)
    (huser : ∀ d ∈ s₀.mem.dirs, ∀ i < 955, s₀.mem.table d i = none) :
    Inv s₀.mem.freeFrameList.toFinset ⟨s, []⟩ := by
  obtain ⟨hmem, -⟩ := kheapInit_same hinit
  have hI := kheapInit_inv hboot hinit
  have hnone : ∀ a ∈ slots s.mem, entry s.mem a = none := by
    rintro ⟨d, v⟩ ha
    rw [entry_eq ha, hmem]
    rcases mem_slots.1 ha with ⟨hd, hv⟩ | ⟨rfl, hv⟩
    · rw [huser d (hmem ▸ hd) (v / 1024) (by simp only at hv; omega)]
      rfl
    · rw [hboot.empty v hv]
      simp [Pte.held]
  have hzero : ∀ f, holders (slots s.mem) (entry s.mem) f = 0 := fun f =>
    Finset.card_eq_zero.2 (Finset.filter_eq_empty_iff.2 fun a ha => by rw [hnone a ha]; simp)
  refine ⟨⟨⟨fun f hf => ?_, fun f hf => ?_, fun a ha f hf => ?_, ?_, fun f hf => ?_, .nil, by simp, by simp⟩,
    fun f hf => ?_, fun a ha hne => absurd (hnone a ha) hne, ?_⟩, hI.pages.tables, hI.start, _, hI.brk, hI.low, hI.high⟩
  · rw [List.mem_toFinset] at hf
    exact ((hmem ▸ hboot.unreferenced f hf :)).trans (hzero f).symm
  · rw [List.mem_toFinset] at hf
    exact ⟨fun _ => ⟨hzero f, List.not_mem_nil⟩, fun _ => by rw [ledger, hmem]; exact hf⟩
  · cases (hnone a ha).symm.trans hf
  · rw [ledger, hmem]; exact hboot.freeNodup
  · rw [ledger, hmem] at hf
    exact List.mem_toFinset.2 hf
  · rw [List.mem_toFinset] at hf
    show (s.mem.framesInfo f).references < _
    rw [hmem, hboot.unreferenced f hf]
    decide
  · rw [List.mem_toFinset]
    exact hboot.zero

/-- From boot on, counts and free list are right in every state of a run exactly when each `map_frame`
releases what it overwrites. -/
theorem reference_counts (s₀ s : Kernel) (hboot : Booted s₀.mem) (hinit : kheapInit s₀ = .ok s)
    (huser : ∀ d ∈ s₀.mem.dirs, ∀ i < 955, s₀.mem.table d i = none) (cs : List MemCall) :
    Always Step (Agrees s₀.mem.freeFrameList.toFinset) ⟨s, []⟩ cs ↔ Each Step Releasing ⟨s, []⟩ cs :=
  always_iff_each (fun _ hI => hI.agrees) Inv.step Inv.exact (inv_init hboot hinit huser)

theorem reference_counts_machine : ∃ s, kheapInit (unusedKernel machine) = .ok s ∧
    (Always Step (Agrees machine.freeFrameList.toFinset) ⟨s, []⟩
      [.allocateFrame, .mapFrame 0 1027 5 {}, .unmapFrame 0 5] ↔
      Each Step Releasing ⟨s, []⟩ [.allocateFrame, .mapFrame 0 1027 5 {}, .unmapFrame 0 5]) := by
  refine ⟨_, rfl, reference_counts (unusedKernel machine) _ machine_booted rfl (fun d hd => ?_) _⟩
  obtain rfl : d = 0 := Finset.mem_singleton.1 hd
  exact machine_booted.lower

/-- A page made not present keeps its frame, and mapping another frame over it loses the frame. -/
theorem reference_leak : ∃ s, kheapInit (unusedKernel machine) = .ok s ∧
    ¬ Always Step (Agrees machine.freeFrameList.toFinset) ⟨s, []⟩
      [.allocateFrame, .mapFrame 0 1027 1015900 {}, .ptSetPagePermissions 0 1015900 {} .permPresent, .allocateFrame,
        .mapFrame 0 1026 1015900 {}] := by
  obtain ⟨s, hs⟩ : ∃ s, kheapInit (unusedKernel machine) = .ok s := ⟨_, rfl⟩
  refine ⟨s, hs, fun h => ?_⟩
  have hmem := (kheapInit_same hs).1
  have hI := inv_init machine_booted hs (fun d hd => by
    obtain rfl : d = 0 := Finset.mem_singleton.1 hd
    exact machine_booted.lower)
  have hv : HeapPage 1015900 := by decide
  obtain ⟨mem, dyn, start, brk, sizes, lock⟩ := s
  obtain rfl : mem = machine := hmem
  obtain ⟨hs₁, hI₁⟩ := hI.next .allocateFrame trivial trivial rfl
  obtain ⟨hs₂, hI₂⟩ := hI₁.next (.mapFrame 0 1027 1015900 {}) ⟨heap_slot hv, rfl, .inl List.mem_cons_self⟩
    ((releasing_there rfl).2 ⟨.inr rfl, .inr (show 0 + 1 < 65536 by decide)⟩) rfl
  obtain ⟨hs₃, hI₃⟩ := hI₂.next (.ptSetPagePermissions 0 1015900 {} .permPresent)
    ⟨heap_slot hv, rfl, fun hc => by cases hc⟩ trivial rfl
  obtain ⟨hs₄, hI₄⟩ := hI₃.next .allocateFrame trivial trivial rfl
  have hrel := hI₄.exact_run (.mapFrame 0 1026 1015900 {}) ⟨heap_slot hv, rfl, .inl List.mem_cons_self⟩ rfl
    ((((h.2 _ hs₁).2 _ hs₂).2 _ hs₃).2 _ hs₄)
  rcases ((releasing_there rfl).1 hrel).1 with hp | hn
  · cases hp
  · cases hn

end MemRun

end Fos.Memory
