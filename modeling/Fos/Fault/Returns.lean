/-
When the handler comes to its end: a page can be written back while the page file has a disk frame for it or gives it
one, and a page can be placed while there is a free frame and its page table is there.
-/
import Fos.Fault.Pages
import Fos.Memory.ReferencesRun

namespace Fos.Fault

open Fos.Memory Fos.Heap Fos.Proc Fos.Disk Fos.Lib

/-! ## Conditions -/

/-- The page file has a disk frame for the page, or a table for it and a free one. -/
structure Storable (s : Machine) (va : Nat) : Prop where
  directory : s.env.diskEnvPgdir ≠ 0
  table : (s.env.diskTables (pdx va)).isSome = true
  frame : diskEntry s.env (va / 4096) ≠ 0 ∨
    (inUserHeap va || inStack va) = true ∧ s.pageFile.diskFreeFrameList ≠ []

/-- The page table of `va` is there, there is a free frame, and the page is in the page file, of the stack or of the
user heap. -/
structure Placeable (s : Machine) (va : Nat) : Prop where
  table : s.hasTable va = true
  frame : s.mem.freeFrameList ≠ []
  known : diskEntry s.env (va / 4096) ≠ 0 ∨ (inStack va || inUserHeap va) = true

/-- What keeps pages placeable. -/
structure Leaves (s t : Machine) : Prop where
  dir : t.env.envPageDirectory = s.env.envPageDirectory
  tables : t.mem.table = s.mem.table
  frames : s.mem.freeFrameList ≠ [] → t.mem.freeFrameList ≠ []
  entries : ∀ v, diskEntry s.env v ≠ 0 → diskEntry t.env v ≠ 0

section Leaves

variable {s t u : Machine} {va : Nat}

theorem Storable.congr (h : Storable s va) (hdir : t.env.diskEnvPgdir = s.env.diskEnvPgdir)
    (htables : t.env.diskTables = s.env.diskTables) (hpages : t.env.diskPages = s.env.diskPages)
    (hfile : t.pageFile = s.pageFile) : Storable t va := by
  have hentry : diskEntry t.env (va / 4096) = diskEntry s.env (va / 4096) := by
    unfold diskEntry
    rw [hdir, htables, hpages]
  refine ⟨?_, ?_, ?_⟩
  · rw [hdir]
    exact h.directory
  · rw [htables]
    exact h.table
  · rw [hentry, hfile]
    exact h.frame

theorem Leaves.refl (s : Machine) : Leaves s s := ⟨rfl, rfl, id, fun _ => id⟩

theorem Leaves.trans (h : Leaves s t) (h' : Leaves t u) : Leaves s u :=
  ⟨h'.dir.trans h.dir, h'.tables.trans h.tables, h'.frames ∘ h.frames, fun v => h'.entries v ∘ h.entries v⟩

theorem Leaves.hasTable (h : Leaves s t) (va : Nat) : t.hasTable va = s.hasTable va := by
  unfold Machine.hasTable
  rw [h.dir, h.tables]

theorem Placeable.leaves (h : Placeable s va) (hk : Leaves s t) : Placeable t va :=
  ⟨(hk.hasTable va).trans h.table, hk.frames h.frame, h.known.imp_left (hk.entries _)⟩

/-- A change of an entry of the memory. -/
theorem leaves_setPte (s : Machine) (a : Nat × Nat) (q : Pte) : Leaves s (s.setMem (s.mem.setPte a q)) :=
  ⟨rfl, rfl, id, fun _ => id⟩

theorem unmapFrame_free (m : Mem) (d va : Nat) (h : m.freeFrameList ≠ []) : (m.unmapFrame d va).freeFrameList ≠ [] := by
  unfold Mem.unmapFrame
  split
  · exact h
  · unfold Mem.decrementReferences
    dsimp only
    split
    · exact List.cons_ne_nil _ _
    · exact h

theorem leaves_unmapFrame (s : Machine) (d va : Nat) : Leaves s (s.setMem (s.mem.unmapFrame d va)) :=
  ⟨rfl, (Mem.unmapFrame_same s.mem d va).1, unmapFrame_free s.mem d va, fun _ => id⟩

theorem unmapUserFrame_returns (va : Nat) (s : Machine) : ∃ t, unmapUserFrame va s = .ok () t ∧ Leaves s t :=
  ⟨_, rfl, leaves_unmapFrame s s.env.envPageDirectory va⟩

end Leaves

/-! ## The page file -/

section PageFile

variable {s t : Machine} {va : Nat}

/-- The entry of a page with a directory and a table. -/
theorem Storable.entry (h : Storable s va) : diskEntry s.env (va / 4096) = s.env.diskPages (va / 4096) := by
  have hpdx : va / 4096 / 1024 = pdx va := by
    unfold pdx
    omega
  unfold diskEntry
  rw [if_neg h.directory, hpdx, if_pos h.table]

theorem getDiskPageDirectory_there (hd : s.env.diskEnvPgdir ≠ 0) : getDiskPageDirectory s = .ok () s := by
  unfold getDiskPageDirectory
  rw [get_bind, if_neg hd]
  rfl

theorem getDiskPageTable_there (ht : (s.env.diskTables (pdx va)).isSome = true) (create : Bool) :
    getDiskPageTable va create s = .ok true s := by
  unfold getDiskPageTable
  rw [get_bind, if_pos ht]
  rfl

/-- A page of the stack or the user heap that the page file does not have gets a disk frame. -/
theorem pfAddEmptyEnvPage_returns (h : Storable s va) (hva : va < kernelBase) (h0 : diskEntry s.env (va / 4096) = 0)
    (hfree : s.pageFile.diskFreeFrameList ≠ []) : ∃ t, pfAddEmptyEnvPage va false s = .ok true t ∧
      t.kernel = s.kernel ∧ Leaves s t := by
  obtain ⟨f, rest, hf⟩ := List.exists_cons_of_ne_nil hfree
  have hpage : ¬ s.env.diskPages (va / 4096) ≠ 0 := by
    rw [← h.entry, h0]
    exact not_not.2 rfl
  have halloc : allocateDiskFrame s =
      .ok (some f) { s with pageFile := { s.pageFile with diskFreeFrameList := rest } } := by
    unfold allocateDiskFrame
    rw [get_bind, hf]
    rfl
  unfold pfAddEmptyEnvPage diskFrameFor
  rw [if_neg Bool.false_ne_true, if_neg (not_le.2 hva), bind_assoc, bind_of_ok (getDiskPageDirectory_there h.directory),
    bind_assoc, bind_of_ok (getDiskPageTable_there h.table true), bind_assoc, get_bind]
  dsimp only
  rw [if_neg hpage, bind_assoc, bind_of_ok halloc]
  refine ⟨_, rfl, rfl, rfl, rfl, id, fun v hv => ?_⟩
  show diskEntry { s.env with diskPages := Function.update s.env.diskPages (va / 4096) f } v ≠ 0
  have hne : v ≠ va / 4096 := by
    rintro rfl
    exact hv h0
  unfold diskEntry at hv ⊢
  dsimp only
  rwa [Function.update_of_ne hne]

/-- A page can be written back while the page file has a place for it. -/
theorem pfUpdateEnvPage_returns (h : Storable s va) (hva : va < kernelBase) (ht : s.hasTable va = true) :
    ∃ t, pfUpdateEnvPage va s = .ok () t ∧ Leaves s t := by
  have hback : ∀ {u : Machine}, Leaves s u → ∃ t, writeBack va u = .ok () t ∧ Leaves s t := by
    intro u hu
    have htu : ¬ (!u.hasTable va) = true := by
      rw [hu.hasTable, ht]
      decide
    unfold writeBack
    rw [get_bind, if_neg htu]
    exact ⟨_, rfl, hu.trans ⟨rfl, rfl, id, fun _ => id⟩⟩
  have hhas := hasDiskPage_eq va h.directory
  unfold pfUpdateEnvPage
  rw [if_neg (not_le.2 hva)]
  dsimp only
  rw [bind_of_ok (getDiskPageDirectory_there h.directory), bind_of_ok hhas]
  by_cases h0 : diskEntry s.env (va / 4096) = 0
  · obtain ⟨hkind, hfree⟩ := h.frame.resolve_left (not_not.2 h0)
    obtain ⟨u, hadd, -, hu⟩ := pfAddEmptyEnvPage_returns h hva h0 hfree
    obtain ⟨t, hwrite, hl⟩ := hback hu
    refine ⟨t, ?_, hl⟩
    simp only [h0, ne_eq, not_true_eq_false, decide_false, Bool.not_false, if_true, hkind]
    rw [bind_of_ok hadd]
    exact hwrite
  · obtain ⟨t, hwrite, hl⟩ := hback (Leaves.refl s)
    refine ⟨t, ?_, hl⟩
    simp only [h0, ne_eq, not_false_eq_true, decide_true, Bool.not_true, Bool.false_eq_true, if_false]
    exact hwrite

end PageFile

/-! ## Placing a page -/

section Place

variable {s t : Machine} {va : Nat}

theorem storePage_returns (hp : s.present va = true) (g : Page → Page) :
    ∃ t, storePage va g s = .ok () t ∧ t.hasTable va = true := by
  unfold storePage
  rw [get_bind, if_pos hp]
  exact ⟨_, rfl, (Bool.and_eq_true_iff.1 hp).1⟩

theorem allocateFrame_returns (hf : s.mem.freeFrameList ≠ []) : ∃ f t, Proc.allocateFrame s = .ok f t ∧ t.env = s.env ∧
    t.mem.table = s.mem.table := by
  obtain ⟨f, rest, hlist⟩ := List.exists_cons_of_ne_nil hf
  have hlist : s.kernel.mem.freeFrameList = f :: rest := hlist
  unfold Proc.allocateFrame onKernel onMem Mem.allocateFrame
  simp only [hlist]
  exact ⟨f, _, rfl, rfl, rfl⟩

theorem mapUserFrame_returns (ht : s.hasTable va = true) (f : Nat) (perm : Perm) :
    ∃ t, mapUserFrame f va perm s = .ok () t ∧ t.present va = true ∧ t.env = s.env := by
  have hthere : mapFrame s.env.envPageDirectory f va perm s.kernel = _ := mapFrame_there ht
  refine ⟨_, onKernel_of_ok hthere, ?_, rfl⟩
  refine Bool.and_eq_true_iff.2 ⟨?_, Mem.enterFrame_present _ _ f va perm⟩
  obtain ⟨htable, -⟩ := Mem.enterFrame_same (s.mem.setFrameVa f va) s.env.envPageDirectory f va perm
  show (((s.mem.setFrameVa f va).enterFrame _ f va perm).table _ _).isSome = true
  rw [htable]
  exact ht

theorem pfReadEnvPage_returns (hal : va % 4096 = 0) (hp : s.present va = true) :
    (∃ t, pfReadEnvPage va s = .ok true t) ∨ diskEntry s.env (va / 4096) = 0 ∧ pfReadEnvPage va s = .ok false s := by
  have hrd : roundDown va pageSize = va := roundDown_of_dvd (by simp only [pageSize]; omega)
  unfold pfReadEnvPage
  rw [get_bind, hrd]
  by_cases hd : s.env.diskEnvPgdir = 0
  · rw [if_pos hd]
    exact .inr ⟨by unfold diskEntry; rw [if_pos hd], rfl⟩
  rw [if_neg hd, bind_of_ok (hasDiskPage_eq va hd)]
  by_cases h0 : diskEntry s.env (va / 4096) = 0
  · refine .inr ⟨h0, ?_⟩
    simp only [h0, ne_eq, not_true_eq_false, decide_false, Bool.not_false, if_true]
    rfl
  · obtain ⟨u, hstore, ht⟩ := storePage_returns hp fun _ => s.pageFile.disk (s.env.diskPages (va / 4096))
    have hset := ptSetPagePermissions_there ht .none { modified := true }
    simp only [h0, ne_eq, not_false_eq_true, decide_true, Bool.not_true, Bool.false_eq_true, if_false]
    rw [get_bind, bind_of_ok hstore, bind_of_ok hset]
    exact .inl ⟨_, rfl⟩

/-- A placeable page is placed. -/
theorem placePage_returns (h : Placeable s va) (hal : va % 4096 = 0) (perm : Perm) :
    ∃ t, placePage va perm s = .ok .returns t := by
  obtain ⟨f, u, halloc, henv, htable⟩ := allocateFrame_returns h.frame
  have ht : u.hasTable va = true := by
    unfold Machine.hasTable
    rw [henv, htable]
    exact h.table
  obtain ⟨w, hmap, hpresent, henv'⟩ := mapUserFrame_returns ht f perm
  unfold placePage
  rw [bind_of_ok halloc, bind_of_ok hmap]
  rcases pfReadEnvPage_returns hal hpresent with ⟨t, hread⟩ | ⟨h0, hread⟩
  · rw [bind_of_ok hread, if_pos rfl]
    exact ⟨t, rfl⟩
  · have hkind : (inStack va || inUserHeap va) = true := by
      refine h.known.resolve_left (not_not.2 ?_)
      rwa [← henv, ← henv']
    obtain ⟨t, hstore, -⟩ := storePage_returns hpresent fun _ => zeroPage
    rw [bind_of_ok hread, if_neg Bool.false_ne_true, hkind, if_neg (by decide), bind_of_ok hstore]
    exact ⟨t, rfl⟩

end Place

end Fos.Fault
