/-
The entries of user pages, and what `map_frame` does to them: it changes the one it maps, whether or
not it must first make a page table.
-/
import Fos.Memory.ReferencesRun
import Fos.Heap.KernelChanges

namespace Fos.Memory

open Fos.Lib Fos.Heap

/-! ## User pages -/

/-- The number of user pages, those below `USER_TOP`. -/
def userPages : Nat := 977920

/-- The entry of page `v` in directory `d`; a page table that is not there has no entries. -/
def userEntry (m : Mem) (d v : Nat) : Pte := if (m.table d (v / 1024)).isSome then m.pte (d, v) else {}

/-- The entry `map_frame` makes of an entry that is not present. -/
def Pte.linked (e : Pte) (f : Nat) (perm : Perm) : Pte := ⟨f, (e.perm.available.union perm).union .permPresent⟩

section UserPages

variable {m m' : Mem} {d f v : Nat} {perm : Perm}

theorem user_slot (hv : v < userPages) : owner d (v * 4096) = d ∧ slot d (v * 4096) = (d, v) := by
  have hk : isKernelAddress (v * 4096) = false := decide_eq_false (by simp only [userTop, userPages] at *; omega)
  have hd : owner d (v * 4096) = d := by rw [owner, hk]; rfl
  exact ⟨hd, by rw [slot, hd, Nat.mul_div_cancel _ (show 0 < 4096 by decide)]⟩

/-- An address of a user page. -/
theorem user_address {va : Nat} (hva : va < userTop) (d : Nat) :
    va / 4096 < userPages ∧ owner d va = d ∧ slot d va = (d, va / 4096) ∧ pdx va = va / 4096 / 1024 := by
  have hk : isKernelAddress va = false := decide_eq_false (by simp only [userTop] at *; omega)
  have hd : owner d va = d := by rw [owner, hk]; rfl
  refine ⟨by simp only [userTop, userPages] at *; omega, hd, by rw [slot, hd], by unfold pdx; omega⟩

theorem user_not_heap (hv : v < userPages) : ¬ (d = 0 ∧ HeapPage v) := by
  intro h
  have := h.2.1
  simp only [userPages] at hv
  omega

theorem userEntry_within (h : Within m m') (hv : v < userPages) : userEntry m' d v = userEntry m d v := by
  unfold userEntry
  rw [h.table, h.pte (d, v) (user_not_heap hv)]

/-- The end of `map_frame` on a user page that is not present. -/
theorem enterFrame_user (perm : Perm) (hv : v < userPages) (ht : (m.table d (v / 1024)).isSome)
    (hp : (userEntry m d v).perm.present = false) :
    userEntry (m.enterFrame d f (v * 4096) perm) d v = (userEntry m d v).linked f perm ∧
      ∀ e w, (e, w) ≠ (d, v) → userEntry (m.enterFrame d f (v * 4096) perm) e w = userEntry m e w := by
  obtain ⟨-, hslot⟩ := user_slot (d := d) hv
  have htab := (Mem.enterFrame_same m d f (v * 4096) perm).1
  unfold userEntry at *
  rw [if_pos ht] at hp
  constructor
  · rw [htab, if_pos ht, if_pos ht]
    simp only [Mem.enterFrame, hslot, hp, Bool.false_eq_true, if_false, Mem.linkFrame, Mem.setPte_pte, Mem.setFrame_pte,
      if_true, Pte.linked]
  · intro e w hne
    rw [htab, enterFrame_pte m d f _ perm (by rwa [hslot])]

end UserPages

/-! ## The kernel heap, ready for page tables -/

/-- What boot leaves of the kernel heap and no call changes: its page tables, its areas, and a break
between them. -/
structure HeapReady (s : Kernel) : Prop where
  heap : HeapOk s
  dynStart : s.dyn.dynAllocStart = kernelHeapStart

section HeapReady

variable {s t : Kernel} {d f v : Nat} {perm : Perm}

theorem HeapReady.mem (h : HeapReady s) {m : Mem} (ht : m.table = s.mem.table) : HeapReady { s with mem := m } :=
  ⟨h.heap.mem ht, h.dynStart⟩

theorem inv_ready {h : KHeap} {b : Nat} (hI : h.Inv b) : HeapReady h.kernel :=
  ⟨⟨hI.pages.tables, hI.start, b, hI.brk, hI.low, hI.high⟩, hI.dynStart⟩

theorem kheapInit_ready {s₀ : Kernel} (hboot : Booted s₀.mem) (hinit : kheapInit s₀ = .ok s) : HeapReady s :=
  inv_ready (kheapInit_inv hboot hinit)

/-- `kmalloc` leaves user pages alone. -/
theorem HeapReady.kmalloc (h : HeapReady s) {size va : Nat} (hr : Heap.kmalloc size s = .ok va t) :
    HeapReady t ∧ Within s.mem t.mem := by
  obtain ⟨b, hb, hlow, hhigh⟩ := h.heap.brk
  cases kmalloc_outcome h.heap.tables h.heap.start hb hlow hhigh hr with
  | null => exact ⟨h, .refl _⟩
  | @block r dyn m' va hs ha hr =>
    obtain ⟨⟨hst, -⟩, hm⟩ := allocBlock_pages ha
    have hw : Within s.mem m' := by
      rcases hm with rfl | ⟨p, hp, hget⟩
      · exact .refl _
      · obtain ⟨hva, hpage⟩ := dyn_page (show p < 8192 from hp)
        rw [h.dynStart, hva] at hget
        exact getPage_within hpage hget
    exact ⟨⟨⟨(h.heap.mem hw.table).tables, h.heap.start, h.heap.brk⟩, hst.trans h.dynStart⟩, hw⟩
  | @pages p b' m' hs hp hlo hb' hn hm =>
    have hw : Within s.mem (Mem.withSize m' (p * 4096) (pagesOf size * 4096)) :=
      (mapPages_within hp hm).trans (withSize_within _ _ _)
    exact ⟨⟨⟨(h.heap.mem hw.table).tables, h.heap.start, b', rfl, hb'⟩, h.dynStart⟩, hw⟩

/-- A new page table leaves user pages alone: where it goes there was none. -/
theorem HeapReady.createPageTable (h : HeapReady s) (hno : s.mem.table d (v / 1024) = none)
    (hr : Heap.createPageTable d (v * 4096) s = .ok () t) :
    HeapReady t ∧ (t.mem.table d (v / 1024)).isSome ∧ ∀ e w, w < userPages →
      userEntry t.mem e w = userEntry s.mem e w := by
  unfold Heap.createPageTable at hr
  obtain ⟨ptr, u, hk, hr⟩ := ok_of_bind hr
  obtain ⟨hu, hw⟩ := h.kmalloc hk
  split at hr
  · obtain ⟨_, _, hr, -⟩ := ok_of_bind hr
    cases hr
  cases hr
  refine ⟨⟨⟨fun w hw => ?_, hu.heap.start, hu.heap.brk⟩, hu.dynStart⟩, ?_, fun e w hwu => ?_⟩
  · exact linkTable_table _ _ (hu.heap.tables w hw)
  · simp only [Kernel.linkTable, pdx_page, Function.update_self, Option.isSome_some]
  rw [← userEntry_within hw hwu]
  unfold userEntry
  simp only [Kernel.linkTable, pdx_page, Function.update_apply]
  by_cases he : e = d
  · subst he
    by_cases hwv : w / 1024 = v / 1024
    · rw [hwv, hw.table, hno]
      simp
    · simp [hwv]
  · simp [he]

/-- `map_frame` on a user page that is not present changes the entry of that page, and of no other user page. -/
theorem mapFrame_user (hv : v < userPages) (h : HeapReady s) (hp : (userEntry s.mem d v).perm.present = false)
    (hr : mapFrame d f (v * 4096) perm s = .ok () t) :
    HeapReady t ∧ userEntry t.mem d v = (userEntry s.mem d v).linked f perm ∧
      ∀ e w, w < userPages → (e, w) ≠ (d, v) → userEntry t.mem e w = userEntry s.mem e w := by
  obtain ⟨hown, -⟩ := user_slot (d := d) hv
  rcases mapFrame_ok hr with ⟨ht, rfl⟩ | ⟨hno, u, hc, rfl⟩
  · rw [hown, pdx_page] at ht
    obtain ⟨hself, hother⟩ := enterFrame_user (m := s.mem.setFrameVa f (v * 4096)) (f := f) perm hv ht hp
    exact ⟨h.mem (Mem.enterFrame_same _ _ _ _ _).1, hself, fun e w _ hne => hother e w hne⟩
  · rw [hown, pdx_page] at hno
    obtain ⟨hu, htab, hsame⟩ := (h.mem (m := s.mem.setFrameVa f (v * 4096)) rfl).createPageTable hno hc
    have hsv : userEntry u.mem d v = userEntry s.mem d v := hsame d v hv
    obtain ⟨hself, hother⟩ := enterFrame_user (m := u.mem) (f := f) perm hv htab (by rw [hsv]; exact hp)
    refine ⟨hu.mem (Mem.enterFrame_same _ _ _ _ _).1, ?_, fun e w hw hne => ?_⟩
    · rw [hsv] at hself
      exact hself
    · exact (hother e w hne).trans (hsame e w hw)

theorem allocateFrame_user {m m' : Mem} (h : m.allocateFrame = .ok (f, m')) :
    m'.table = m.table ∧ ∀ e w, userEntry m' e w = userEntry m e w := by
  obtain ⟨-, hp, ht, -⟩ := allocateFrame_ok h
  refine ⟨ht, fun e w => ?_⟩
  unfold userEntry
  rw [hp, ht]

end HeapReady

end Fos.Memory
