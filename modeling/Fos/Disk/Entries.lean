/-
What the calls on the page file do to the entries of its tables and to the free list of disk frames.
-/
import Fos.Disk.Tables

namespace Fos.Disk

open Fos.Memory Fos.Heap Fos.Proc Fos.Lib

/-! ## Entries -/

/-- The disk frame of page `v`, `0` if it has none. -/
def diskEntry (e : Env) (v : Nat) : Nat :=
  if e.diskEnvPgdir = 0 then 0 else if (e.diskTables (v / 1024)).isSome then e.diskPages v else 0

/-- The tables of process `e`, now in state `s`, are in order beside those of the other processes. -/
def Tabled (env : Nat → Env) (e : Nat) (s : Machine) : Prop :=
  ∃ page, TablePages s.kernel (Function.update env e s.env) page

/-- What no change of the tables touches. -/
structure Stays (s t : Machine) : Prop where
  frames : t.frames = s.frames
  disk : t.pageFile.disk = s.pageFile.disk
  dir : t.env.envPageDirectory = s.env.envPageDirectory
  user : Within s.mem t.mem

section Entries

variable {env : Nat → Env} {e va v i : Nat} {s t : Machine}

theorem Stays.refl (s : Machine) : Stays s s := ⟨rfl, rfl, rfl, .refl _⟩

theorem Stays.trans {u : Machine} (h : Stays s t) (h' : Stays t u) : Stays s u :=
  ⟨h'.frames.trans h.frames, h'.disk.trans h.disk, h'.dir.trans h.dir, h.user.trans h'.user⟩

theorem Tabled.update {E : Env} {k : Kernel}
    (h : ∃ page, TablePages k (Function.update (Function.update env e s.env) e E) page)
    (hk : t.kernel = k) (hE : t.env = E) : Tabled env e t := by
  obtain ⟨page, h⟩ := h
  rw [Function.update_idem] at h
  exact ⟨page, by rw [hk, hE]; exact h⟩

/-- A change of entries alone. -/
theorem Tabled.entries (h : Tabled env e s) (hk : t.kernel = s.kernel) (hd : t.env.diskEnvPgdir = s.env.diskEnvPgdir)
    (ht : t.env.diskTables = s.env.diskTables) : Tabled env e t := by
  obtain ⟨page, h⟩ := h
  refine ⟨page, hk ▸ h.congr fun e' => ?_⟩
  by_cases he : e' = e
  · subst he
    rw [Function.update_self, Function.update_self]
    exact ⟨hd, ht⟩
  · rw [Function.update_of_ne he, Function.update_of_ne he]
    exact ⟨rfl, rfl⟩

theorem Tabled.ready (h : Tabled env e s) : HeapReady s.kernel := by
  obtain ⟨page, h⟩ := h
  exact h.heap.ready

theorem Tabled.no_table (h : Tabled env e s) (hd : s.env.diskEnvPgdir = 0) (i : Nat) : s.env.diskTables i = none := by
  obtain ⟨page, h⟩ := h
  have := (h.no_table (e := e) (by rw [Function.update_self]; exact hd) i).2
  rwa [Function.update_self] at this

theorem onKernel_ok {α : Type} {x : KM α} {a : α} (h : onKernel x s = .ok a t) :
    ∃ k, x s.kernel = .ok a k ∧ t = { s with kernel := k } := by
  unfold onKernel at h
  split at h
  · rename_i b k hk
    cases h
    exact ⟨k, hk, rfl⟩
  · cases h

theorem onKernel_of_ok {α : Type} {x : KM α} {a : α} {k : Kernel} (h : x s.kernel = .ok a k) :
    onKernel x s = .ok a { s with kernel := k } := by
  unfold onKernel
  rw [h]

/-! ## Directories and tables -/

theorem getDiskPageDirectory_ok (hT : Tabled env e s) (h : getDiskPageDirectory s = .ok () t) :
    Tabled env e t ∧ Stays s t ∧ t.pageFile = s.pageFile ∧ t.env.diskEnvPgdir ≠ 0 ∧
      ∀ v, diskEntry t.env v = diskEntry s.env v := by
  unfold getDiskPageDirectory at h
  rw [get_bind] at h
  split at h
  · rename_i h0
    obtain ⟨ptr, u, h1, h⟩ := ok_of_bind h
    obtain ⟨k, hk, rfl⟩ := onKernel_ok h1
    split at h
    · obtain ⟨_, _, h2, -⟩ := ok_of_bind h
      cases h2
    · rename_i hne
      cases h
      obtain ⟨-, hw⟩ := hT.ready.kmalloc hk
      obtain ⟨page, hT⟩ := hT
      refine ⟨Tabled.update (hT.newDirectory (e := e) ?_ hk hne rfl rfl) rfl rfl, ⟨rfl, rfl, rfl, hw⟩, rfl, hne,
        fun v => ?_⟩
      · rw [Function.update_self]
        exact h0
      · simp [diskEntry, h0]
  · rename_i hne
    cases h
    exact ⟨hT, .refl s, rfl, hne, fun v => rfl⟩

/-- Making the table of a page. -/
theorem getDiskPageTable_ok {b : Bool} (hT : Tabled env e s) (hd : s.env.diskEnvPgdir ≠ 0) (hv : va < userTop)
    (h : getDiskPageTable va true s = .ok b t) :
    Tabled env e t ∧ Stays s t ∧ t.pageFile = s.pageFile ∧ t.env.diskEnvPgdir ≠ 0 ∧
      (t.env.diskTables (va / 4096 / 1024)).isSome ∧ ∀ v, diskEntry t.env v = diskEntry s.env v := by
  have hpdx : va / 4096 / 1024 = pdx va := by unfold pdx; omega
  unfold getDiskPageTable at h
  rw [get_bind] at h
  split at h
  · rename_i hs
    cases h
    exact ⟨hT, .refl s, rfl, hd, by rwa [hpdx], fun v => rfl⟩
  · rename_i hno
    have hno : s.env.diskTables (pdx va) = none := by simpa using hno
    simp only [if_true] at h
    obtain ⟨ptr, u, h1, h⟩ := ok_of_bind h
    obtain ⟨k, hk, rfl⟩ := onKernel_ok h1
    split at h
    · obtain ⟨_, _, h2, -⟩ := ok_of_bind h
      cases h2
    · rename_i hne
      cases h
      obtain ⟨-, hw⟩ := hT.ready.kmalloc hk
      obtain ⟨page, hT⟩ := hT
      refine ⟨Tabled.update (hT.newTable (e := e) (i := pdx va) ?_ ?_ ?_ hk hne ?_ ?_) rfl rfl, ⟨rfl, rfl, rfl, hw⟩,
        rfl, hd, ?_, fun v => ?_⟩
      · rwa [Function.update_self]
      · simp only [pdx, userTop] at *
        omega
      · rwa [Function.update_self]
      · rw [Function.update_self]
      · rw [Function.update_self]
      · show (Function.update s.env.diskTables (pdx va) _ (va / 4096 / 1024)).isSome
        rw [hpdx, Function.update_self]
        rfl
      · simp only [diskEntry, Function.update_apply]
        by_cases hv : v / 1024 = pdx va
        · simp [hv, hno]
        · simp [hv]

theorem getDiskPageTable_find (va : Nat) (s : Machine) :
    getDiskPageTable va false s = .ok (s.env.diskTables (pdx va)).isSome s := by
  unfold getDiskPageTable
  rw [get_bind]
  split
  · rename_i h
    rw [h]
    rfl
  · rename_i h
    rw [show (s.env.diskTables (pdx va)).isSome = false by simpa using h]
    rfl

theorem hasDiskPage_eq (va : Nat) (hd : s.env.diskEnvPgdir ≠ 0) :
    hasDiskPage va s = .ok (decide (diskEntry s.env (va / 4096) ≠ 0)) s := by
  have hpdx : va / 4096 / 1024 = pdx va := by unfold pdx; omega
  unfold hasDiskPage
  rw [bind_of_ok (getDiskPageTable_find va s), get_bind]
  cases ht : (s.env.diskTables (pdx va)).isSome <;> simp [diskEntry, hd, hpdx, ht] <;> rfl

/-! ## Frames of pages -/

/-- What the search for the disk frame of page `v` finds, and what it changes in the entries and on the free
list. -/
inductive Framed (s t : Machine) (v : Nat) : Option Nat → Prop
  | full (h0 : diskEntry s.env v = 0) (hsame : ∀ w, diskEntry t.env w = diskEntry s.env w)
      (hfree : t.pageFile.diskFreeFrameList = s.pageFile.diskFreeFrameList) : Framed s t v none
  | found (hne : diskEntry s.env v ≠ 0) (hsame : ∀ w, diskEntry t.env w = diskEntry s.env w)
      (hfree : t.pageFile.diskFreeFrameList = s.pageFile.diskFreeFrameList) : Framed s t v (some (diskEntry s.env v))
  | taken {f : Nat} (h0 : diskEntry s.env v = 0)
      (hfree : s.pageFile.diskFreeFrameList = f :: t.pageFile.diskFreeFrameList)
      (hsame : ∀ w, diskEntry t.env w = if w = v then f else diskEntry s.env w) : Framed s t v (some f)

/-- No other entry changes, and none that was there. -/
theorem Framed.entries {r : Option Nat} {w : Nat} (h : Framed s t v r) (hw : w ≠ v ∨ diskEntry s.env w ≠ 0) :
    diskEntry t.env w = diskEntry s.env w := by
  cases h with
  | full _ hsame _ => exact hsame w
  | found _ hsame _ => exact hsame w
  | taken h0 _ hsame =>
    rw [hsame]
    apply if_neg
    rintro rfl
    exact hw.elim (fun hne => hne rfl) fun hne => hne h0

theorem allocateDiskFrame_eq (s : Machine) :
    allocateDiskFrame s = match s.pageFile.diskFreeFrameList with
      | [] => .ok none s
      | f :: rest => .ok (some f) { s with pageFile := { s.pageFile with diskFreeFrameList := rest } } := by
  unfold allocateDiskFrame
  rw [get_bind]
  cases s.pageFile.diskFreeFrameList <;> rfl

theorem diskFrameFor_ok {r : Option Nat} (hT : Tabled env e s) (hv : va < userTop) (h : diskFrameFor va s = .ok r t) :
    Tabled env e t ∧ Stays s t ∧ t.env.diskEnvPgdir ≠ 0 ∧ Framed s t (va / 4096) r := by
  unfold diskFrameFor at h
  have hk : ¬ kernelBase ≤ va := by simp only [kernelBase, userTop] at *; omega
  rw [if_neg hk] at h
  obtain ⟨_, u, h1, h⟩ := ok_of_bind h
  obtain ⟨hTu, hsu, hpu, hdu, heu⟩ := getDiskPageDirectory_ok hT h1
  obtain ⟨b, w, h2, h⟩ := ok_of_bind h
  obtain ⟨hTw, hsw, hpw, hdw, htw, hew⟩ := getDiskPageTable_ok hTu hdu hv h2
  have hsame : ∀ v, diskEntry w.env v = diskEntry s.env v := fun v => (hew v).trans (heu v)
  have hfree : w.pageFile = s.pageFile := hpw.trans hpu
  have hentry : w.env.diskPages (va / 4096) = diskEntry s.env (va / 4096) := by
    rw [← hsame, diskEntry, if_neg hdw, if_pos htw]
  have hs := hsu.trans hsw
  rw [get_bind] at h
  simp only [hentry] at h
  split at h
  · rename_i hne
    cases h
    exact ⟨hTw, hs, hdw, .found hne hsame (by rw [hfree])⟩
  · rename_i h0
    have h0 : diskEntry s.env (va / 4096) = 0 := not_not.1 h0
    obtain ⟨a, x, h3, h⟩ := ok_of_bind h
    rw [allocateDiskFrame_eq] at h3
    cases hl : w.pageFile.diskFreeFrameList with
    | nil =>
      rw [hl] at h3
      cases h3
      cases h
      exact ⟨hTw, hs, hdw, .full h0 hsame (by rw [hfree])⟩
    | cons f rest =>
      rw [hl] at h3
      cases h3
      cases h
      refine ⟨hTw.entries rfl rfl rfl, ⟨hs.frames, hs.disk, hs.dir, hs.user⟩, hdw,
        .taken h0 (by rw [← hfree, hl]) fun v => ?_⟩
      rw [← hsame v]
      simp only [diskEntry, if_neg hdw, Function.update_apply]
      by_cases hv : v = va / 4096
      · simp [hv, htw]
      · simp [hv]

end Entries

end Fos.Disk
