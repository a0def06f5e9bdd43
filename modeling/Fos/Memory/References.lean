/-
Frames and their reference counts: `references` counts the page-table entries that hold the frame, and
the free list has the frames that no entry and no caller holds. The entries are those of user pages and
of the kernel heap; the ones boot makes for the kernel image are not counted by the source.
-/
import Fos.Heap.KernelHeapRun
import Fos.Lib.RefCount

namespace Fos.Memory

open Fos.Lib Fos.Heap

/-! ## The entries as a ledger -/

/-- The entries of user pages in each directory, and of the kernel heap. -/
def slots (m : Mem) : Finset (Nat × Nat) :=
  m.dirs ×ˢ Finset.range 977920 ∪ {0} ×ˢ Finset.Ico 1007616 1048575

/-- The frame `get_frame_info` finds at an entry. -/
def entry (m : Mem) (a : Nat × Nat) : Option Nat := m.getFrameInfo a.1 (a.2 * 4096)

def ledger (m : Mem) : Ledger (Nat × Nat) Nat := ⟨entry m, fun f => (m.framesInfo f).references, m.freeFrameList⟩

section Slots

variable {m : Mem} {a : Nat × Nat}

theorem mem_slots : a ∈ slots m ↔ a.1 ∈ m.dirs ∧ a.2 < 977920 ∨ a.1 = 0 ∧ HeapPage a.2 := by
  simp only [slots, Finset.mem_union, Finset.mem_product, Finset.mem_range, Finset.mem_singleton, Finset.mem_Ico,
    HeapPage]

theorem slots_congr {m' : Mem} (h : m'.dirs = m.dirs) : slots m' = slots m := by
  unfold slots; rw [h]

theorem owner_slot (ha : a ∈ slots m) : owner a.1 (a.2 * 4096) = a.1 := by
  rcases mem_slots.1 ha with ⟨-, h⟩ | ⟨h, -⟩
  · have : isKernelAddress (a.2 * 4096) = false := decide_eq_false (by simp only [userTop]; omega)
    rw [owner, this]; rfl
  · rw [h, owner, ite_self]

theorem slot_slot (ha : a ∈ slots m) : slot a.1 (a.2 * 4096) = a := by
  rw [slot, owner_slot ha, Nat.mul_div_cancel _ (show 0 < 4096 by decide)]

theorem entry_eq (ha : a ∈ slots m) :
    entry m a = if (m.table a.1 (a.2 / 1024)).isSome then (m.pte a).held else none := by
  rw [entry, Mem.getFrameInfo, owner_slot ha, slot_slot ha, pdx_page]

/-- Entries that agree on their page table and content hold the same frame. -/
theorem entry_congr {m' : Mem} (ha : a ∈ slots m) (hd : m'.dirs = m.dirs) (ht : m'.table = m.table)
    (hp : m'.pte a = m.pte a) : entry m' a = entry m a := by
  rw [entry_eq ha, entry_eq (by rwa [slots_congr hd]), ht, hp]

end Slots

/-! ## The invariant -/

/-- No count is smaller than the number of entries that hold the frame, no entry holds a free frame, and the
counts fit their 16 bits. -/
structure Guards (pool : Finset Nat) (held : List Nat) (m : Mem) : Prop where
  guarded : Guarded (slots m) pool held (ledger m)
  small : ∀ f ∈ pool, (m.framesInfo f).references < 65536
  notBuffered : ∀ a ∈ slots m, entry m a ≠ none → (m.pte a).perm.buffered = false
  zero : 0 ∉ pool

/-- The counts are right, and fit their 16 bits. -/
structure Counted (pool : Finset Nat) (held : List Nat) (m : Mem) : Prop where
  balanced : Balanced (slots m) pool held (ledger m)
  small : ∀ f ∈ pool, (m.framesInfo f).references < 65536
  notBuffered : ∀ a ∈ slots m, entry m a ≠ none → (m.pte a).perm.buffered = false
  zero : 0 ∉ pool

section Guards

variable {pool : Finset Nat} {held : List Nat} {m : Mem} {a : Nat × Nat} {f : Nat} {perm : Perm}

theorem Guards.congr {m' : Mem} (h : Guards pool held m) (hd : m'.dirs = m.dirs)
    (he : ∀ a ∈ slots m, entry m' a = entry m a ∧ (entry m a ≠ none → m'.pte a = m.pte a))
    (hr : ∀ f, (m'.framesInfo f).references = (m.framesInfo f).references)
    (hf : m'.freeFrameList = m.freeFrameList) : Guards pool held m' := by
  have hs := slots_congr hd
  refine ⟨?_, fun f hf => ?_, fun a ha hne => ?_, h.zero⟩
  · rw [hs]
    exact h.guarded.congr (fun a ha => (he a ha).1) (fun f _ => hr f) hf
  · rw [hr]; exact h.small f hf
  · rw [hs] at ha
    rw [(he a ha).1] at hne
    rw [(he a ha).2 hne]
    exact h.notBuffered a ha hne

theorem setFrameVa_references (m : Mem) (f va g : Nat) :
    ((m.setFrameVa f va).framesInfo g).references = (m.framesInfo g).references := by
  rw [Mem.setFrameVa, Mem.setFrame_info]
  split
  · rename_i he; rw [he]
  · rfl

theorem Guards.setFrameVa (h : Guards pool held m) (f va : Nat) : Guards pool held (m.setFrameVa f va) :=
  h.congr rfl (fun _ _ => ⟨rfl, fun _ => rfl⟩) (setFrameVa_references m f va) rfl

/-- `allocate_frame` gives the frame to its caller. -/
theorem Guards.allocate (h : Guards pool held m) {m' : Mem} (ha : m.allocateFrame = .ok (f, m')) :
    Guards pool (f :: held) m' := by
  unfold Mem.allocateFrame at ha
  split at ha
  · cases ha
  · rename_i rest hfree
    cases ha
    refine ⟨?_, fun g hg => ?_, h.notBuffered, h.zero⟩
    · refine (h.guarded.take hfree).congr (fun a _ => rfl) (fun g _ => ?_) rfl
      simp only [ledger, Mem.setFrame_info, Function.update_apply]
      split <;> rfl
    · rw [Mem.setFrame_info]
      split
      · exact Nat.zero_lt_succ _
      · exact h.small g hg

/-- `free_frame` of a frame that its caller holds. -/
theorem Guards.freeFrame (h : Guards pool held m) (hf : f ∈ held) : Guards pool (held.erase f) (m.freeFrame f) := by
  refine ⟨?_, fun g hg => ?_, h.notBuffered, h.zero⟩
  · refine (h.guarded.give hf).congr (fun a _ => rfl) (fun g _ => ?_) rfl
    simp only [ledger, Mem.freeFrame, Mem.setFrame_info, Function.update_apply]
    split <;> rfl
  · rw [Mem.freeFrame, Mem.setFrame_info]
    split
    · exact Nat.zero_lt_succ _
    · exact h.small g hg

/-- A frame that an entry holds is referenced. -/
theorem Guards.pos (h : Guards pool held m) (ha : a ∈ slots m) (hf : entry m a = some f) :
    0 < (m.framesInfo f).references := (h.guarded.of_slot ha hf).1

theorem frame_zero (ha : a ∈ slots m) (ht : (m.table a.1 (a.2 / 1024)).isSome) (hnone : entry m a = none) :
    (m.pte a).frame = 0 ∧ (m.pte a).perm.present = false ∧ (m.pte a).perm.buffered = false := by
  rw [entry_eq ha, if_pos ht, Pte.held] at hnone
  split at hnone
  · cases hnone
  · rename_i hno
    simpa only [not_or, Bool.not_eq_true, not_not] using hno

theorem Guards.not_buffered (h : Guards pool held m) (ha : a ∈ slots m) (ht : (m.table a.1 (a.2 / 1024)).isSome) :
    (m.pte a).perm.buffered = false := by
  by_cases hne : entry m a = none
  · exact (frame_zero ha ht hne).2.2
  · exact h.notBuffered a ha hne

/-- `pt_set_page_permissions` that sets `PERM_PRESENT` only where a frame is leaves every entry its frame. -/
theorem Guards.setPermissions_same (h : Guards pool held m) (ha : a ∈ slots m) {set clear : Perm} {m' : Mem}
    (hb : set.buffered = false) (hp : set.present = true → entry m a ≠ none)
    (hr : m.ptSetPagePermissions a.1 (a.2 * 4096) set clear = .ok m') :
    m'.dirs = m.dirs ∧ m'.table = m.table ∧ m'.framesInfo = m.framesInfo ∧ m'.freeFrameList = m.freeFrameList ∧
      (∀ b ∈ slots m, entry m' b = entry m b) ∧
      ∀ b ∈ slots m, entry m b ≠ none → (m'.pte b).perm.buffered = false := by
  unfold Mem.ptSetPagePermissions at hr
  split at hr
  · rename_i ht
    rw [owner_slot ha, pdx_page] at ht
    have hnb := h.not_buffered ha ht
    obtain rfl := Except.ok.inj hr
    rw [slot_slot ha]
    -- the entry still holds its frame, which is not frame 0, or still none
    have hself : ({ m.pte a with perm := ((m.pte a).perm.union set).diff clear } : Pte).held = (m.pte a).held := by
      cases hf : entry m a with
      | none =>
        obtain ⟨hz, hpr, -⟩ := frame_zero ha ht hf
        have hset : set.present = false := by
          by_contra hc
          exact hp (by simpa using hc) hf
        simp [Pte.held, hz, hpr, hnb, hb, hset]
      | some f =>
        have hheld := hf
        rw [entry_eq ha, if_pos ht] at hheld
        have hne : (m.pte a).frame ≠ 0 := by
          intro hc
          rw [held_frame hheld] at hc
          exact h.zero (hc ▸ h.guarded.inside a ha f hf)
        simp [Pte.held, hne]
    refine ⟨rfl, rfl, rfl, rfl, fun b hbs => ?_, fun b hbs hne => ?_⟩
    · have hbs' : b ∈ slots (m.setPte a { m.pte a with perm := ((m.pte a).perm.union set).diff clear }) := hbs
      rw [entry_eq hbs, entry_eq hbs', Mem.setPte_table, Mem.setPte_pte]
      by_cases hba : b = a
      · rw [if_pos hba, hself, hba]
      · rw [if_neg hba]
    · rw [Mem.setPte_pte]
      split
      · simp [hnb, hb]
      · exact h.notBuffered b hbs hne
  · cases hr

theorem Guards.setPermissions (h : Guards pool held m) (ha : a ∈ slots m) {set clear : Perm} {m' : Mem}
    (hb : set.buffered = false) (hp : set.present = true → entry m a ≠ none)
    (hr : m.ptSetPagePermissions a.1 (a.2 * 4096) set clear = .ok m') : Guards pool held m' := by
  obtain ⟨hd, -, hi, hf, hent, hnb⟩ := h.setPermissions_same ha hb hp hr
  have hs := slots_congr hd
  refine ⟨?_, fun f hf => ?_, fun b hbs hne => ?_, h.zero⟩
  · rw [hs]
    exact h.guarded.congr hent (fun f _ => by rw [ledger, hi]; rfl) hf
  · rw [hi]; exact h.small f hf
  · rw [hs] at hbs
    exact hnb b hbs (by rwa [← hent b hbs])

/-! ## Unmapping -/

theorem unmap_some (ha : a ∈ slots m) (hf : entry m a = some f) :
    m.unmapFrame a.1 (a.2 * 4096) = (m.decrementReferences f).setPte a ⟨0, (m.pte a).perm.available⟩ := by
  simp only [Mem.unmapFrame, show m.getFrameInfo a.1 (a.2 * 4096) = some f from hf, slot_slot ha]

/-- One reference less, and the frame freed with the last. -/
theorem decrement_eq (hpos : 0 < (m.framesInfo f).references) (hlt : (m.framesInfo f).references < 65536) (g : Nat) :
    ((m.decrementReferences f).framesInfo g).references =
        (if g = f then (m.framesInfo f).references - 1 else (m.framesInfo g).references) ∧
      (m.decrementReferences f).freeFrameList =
        if (m.framesInfo f).references - 1 = 0 then f :: m.freeFrameList else m.freeFrameList := by
  have hdec : ((m.framesInfo f).references + 65535) % 65536 = (m.framesInfo f).references - 1 := by omega
  simp only [Mem.decrementReferences, hdec]
  by_cases hz : (m.framesInfo f).references - 1 = 0
  · simp only [if_pos hz, Mem.freeFrame, Mem.setFrame_info, Mem.setFrame_free]
    refine ⟨?_, trivial⟩
    split
    · exact hz.symm
    · rfl
  · simp only [if_neg hz, Mem.setFrame_info, Mem.setFrame_free]
    refine ⟨?_, trivial⟩
    split <;> rfl

/-- What `unmap_frame` does to an entry that holds a frame. -/
structure Unmaps (m : Mem) (a : Nat × Nat) (f : Nat) (m' : Mem) : Prop where
  slots : slots m' = slots m
  entries : ∀ b ∈ Memory.slots m, entry m' b = Function.update (entry m) a none b
  references : ∀ g, (m'.framesInfo g).references =
    if g = f then (m.framesInfo f).references - 1 else (m.framesInfo g).references
  free : m'.freeFrameList = if (m.framesInfo f).references - 1 = 0 then f :: m.freeFrameList else m.freeFrameList
  pte : ∀ b, b ≠ a → m'.pte b = m.pte b

/-- With one reference less the entry is cleared, and no page table is touched. -/
theorem unmaps_cleared {m₁ : Mem} (hnb : (m.pte a).perm.buffered = false)
    (ht : m₁.table = m.table) (hp : m₁.pte = m.pte) (hd : m₁.dirs = m.dirs)
    (hdec : ∀ g, (m₁.framesInfo g).references =
        (if g = f then (m.framesInfo f).references - 1 else (m.framesInfo g).references) ∧
      m₁.freeFrameList = if (m.framesInfo f).references - 1 = 0 then f :: m.freeFrameList else m.freeFrameList) :
    Unmaps m a f (m₁.setPte a ⟨0, (m.pte a).perm.available⟩) := by
  have hcl : (Pte.mk 0 (m.pte a).perm.available).held = none := held_cleared hnb
  have hslots : slots (m₁.setPte a ⟨0, (m.pte a).perm.available⟩) = slots m := slots_congr hd
  refine ⟨hslots, fun b hb => ?_, fun g => (hdec g).1, (hdec f).2, fun b hb => ?_⟩
  · rw [entry_eq (by rwa [hslots]), Function.update_apply, Mem.setPte_table, ht, Mem.setPte_pte, hp]
    by_cases hba : b = a
    · rw [if_pos hba, if_pos hba, hcl, ite_self]
    · rw [if_neg hba, if_neg hba, entry_eq hb]
  · rw [Mem.setPte_pte, if_neg hb, hp]

theorem unmaps_of (ha : a ∈ slots m) (hf : entry m a = some f) (hpos : 0 < (m.framesInfo f).references)
    (hlt : (m.framesInfo f).references < 65536) (hnb : (m.pte a).perm.buffered = false) :
    Unmaps m a f (m.unmapFrame a.1 (a.2 * 4096)) := by
  obtain ⟨ht, hp, -, hd⟩ := Mem.decrementReferences_same m f
  rw [unmap_some ha hf]
  exact unmaps_cleared hnb ht hp hd (decrement_eq hpos hlt)

theorem Guards.unmaps (h : Guards pool held m) (ha : a ∈ slots m) (hf : entry m a = some f) :
    Unmaps m a f (m.unmapFrame a.1 (a.2 * 4096)) :=
  unmaps_of ha hf (h.pos ha hf) (h.small f (h.guarded.inside a ha f hf)) (h.notBuffered a ha (by rw [hf]; simp))

/-- `unmap_frame` empties the entry and takes nothing from other frames. -/
theorem Guards.unmap (h : Guards pool held m) (ha : a ∈ slots m) :
    Guards pool held (m.unmapFrame a.1 (a.2 * 4096)) ∧ entry (m.unmapFrame a.1 (a.2 * 4096)) a = none ∧
      ∀ g, entry m a ≠ some g → ((m.unmapFrame a.1 (a.2 * 4096)).framesInfo g).references =
        (m.framesInfo g).references ∧
        (g ∈ (m.unmapFrame a.1 (a.2 * 4096)).freeFrameList → g ∈ m.freeFrameList) := by
  cases hf : entry m a with
  | none =>
    rw [unmap_none hf]
    exact ⟨h, hf, fun g _ => ⟨rfl, id⟩⟩
  | some f =>
    have hpool := h.guarded.inside a ha f hf
    have hU := h.unmaps ha hf
    generalize m.unmapFrame a.1 (a.2 * 4096) = m' at *
    refine ⟨⟨?_, fun g hg => ?_, fun b hb hne => ?_, h.zero⟩, ?_, fun g hg => ⟨?_, fun hfree => ?_⟩⟩
    · rw [hU.slots]
      refine (h.guarded.drop ha hf).congr hU.entries (fun g _ => ?_) hU.free
      simp only [ledger, Function.update_apply]
      exact hU.references g
    · rw [hU.references]
      split
      · exact (Nat.sub_le _ _).trans_lt (h.small f hpool)
      · exact h.small g hg
    · rw [hU.slots] at hb
      rw [hU.entries b hb, Function.update_apply] at hne
      split at hne
      · exact absurd rfl hne
      · rename_i hba
        rw [hU.pte b hba]
        exact h.notBuffered b hb hne
    · rw [hU.entries a ha, Function.update_self]
    · rw [hU.references, if_neg fun he => hg (by rw [he])]
    · rw [hU.free] at hfree
      split at hfree
      · exact (List.mem_cons.1 hfree).resolve_left fun he => hg (by rw [he])
      · exact hfree

/-! ## Mapping -/

/-- The counts and entries after the end of `map_frame`. -/
theorem link_eq (f : Nat) (perm : Perm) (ha : a ∈ slots m) (ht : (m.table a.1 (a.2 / 1024)).isSome) :
    (∀ g, ((m.linkFrame a.1 f (a.2 * 4096) perm).framesInfo g).references =
      if g = f then ((m.framesInfo f).references + 1) % 65536 else (m.framesInfo g).references) ∧
    ∀ b ∈ slots m, entry (m.linkFrame a.1 f (a.2 * 4096) perm) b = Function.update (entry m) a (some f) b := by
  constructor
  · intro g
    simp only [Mem.linkFrame, Mem.setPte_info, Mem.setFrame_info]
    split <;> rfl
  · intro b hb
    rw [entry_eq (show b ∈ slots (m.linkFrame a.1 f (a.2 * 4096) perm) from hb), Function.update_apply]
    simp only [Mem.linkFrame, slot_slot ha, Mem.setPte_table, Mem.setFrame_table, Mem.setPte_pte, Mem.setFrame_pte]
    by_cases hba : b = a
    · rw [if_pos hba, if_pos hba, hba, if_pos ht, held_of_present (by simp [Perm.permPresent])]
    · rw [if_neg hba, if_neg hba, entry_eq hb]

/-- Linking a frame, over whatever the entry holds. -/
theorem Guards.link (h : Guards pool held m) (ha : a ∈ slots m) (ht : (m.table a.1 (a.2 / 1024)).isSome)
    (hf : f ∈ pool) (hnf : f ∉ m.freeFrameList) (hsmall : (m.framesInfo f).references + 1 < 65536)
    (hp : perm.buffered = false) : Guards pool (held.erase f) (m.linkFrame a.1 f (a.2 * 4096) perm) := by
  obtain ⟨href, hent⟩ := link_eq f perm ha ht
  refine ⟨?_, fun g hg => ?_, fun b hb hne => ?_, h.zero⟩
  · refine (h.guarded.put ha hf hnf).congr hent (fun g _ => ?_) rfl
    simp only [ledger, Function.update_apply, href, Nat.mod_eq_of_lt hsmall]
  · rw [href]
    split
    · exact Nat.mod_lt _ (by decide)
    · exact h.small g hg
  · simp only [Mem.linkFrame, slot_slot ha, Mem.setPte_pte, Mem.setFrame_pte]
    split
    · simp [h.not_buffered ha ht, hp, Perm.permPresent]
    · rename_i hba
      rw [hent b hb, Function.update_of_ne hba] at hne
      exact h.notBuffered b hb hne

theorem entry_present (ha : a ∈ slots m) (ht : (m.table a.1 (a.2 / 1024)).isSome) (hp : (m.pte a).perm.present = true) :
    entry m a = some (m.pte a).frame := by
  rw [entry_eq ha, if_pos ht, held_of_present hp]

/-- The end of `map_frame` in three cases: the entry maps the frame already, it is linked over what
another frame was unmapped from, or it is linked over what is there. -/
theorem enter_cases (ha : a ∈ slots m) (ht : (m.table a.1 (a.2 / 1024)).isSome) (f : Nat) (perm : Perm) :
    ((m.pte a).perm.present = true ∧ entry m a = some f ∧ m.enterFrame a.1 f (a.2 * 4096) perm = m) ∨
    ((m.pte a).perm.present = true ∧ entry m a ≠ some f ∧
      m.enterFrame a.1 f (a.2 * 4096) perm = (m.unmapFrame a.1 (a.2 * 4096)).linkFrame a.1 f (a.2 * 4096) perm) ∨
    ((m.pte a).perm.present ≠ true ∧ m.enterFrame a.1 f (a.2 * 4096) perm = m.linkFrame a.1 f (a.2 * 4096) perm) := by
  simp only [Mem.enterFrame, slot_slot ha]
  by_cases hp : (m.pte a).perm.present = true
  · rw [entry_present ha ht hp]
    by_cases hf : (m.pte a).frame = f
    · exact .inl ⟨hp, by rw [hf], by rw [if_pos hp, if_pos hf]⟩
    · exact .inr (.inl ⟨hp, fun he => hf (Option.some.inj he), by rw [if_pos hp, if_neg hf]⟩)
  · exact .inr (.inr ⟨hp, if_neg hp⟩)

/-- The entry maps the frame already. -/
def MapsTo (m : Mem) (a : Nat × Nat) (f : Nat) : Prop := (m.pte a).perm.present = true ∧ entry m a = some f

/-- Mapping a frame whose count has room for one more. -/
theorem Guards.enter (perm : Perm) (h : Guards pool held m) (ha : a ∈ slots m) (ht : (m.table a.1 (a.2 / 1024)).isSome)
    (hf : f ∈ pool) (hnf : f ∉ m.freeFrameList) (hsmall : MapsTo m a f ∨ (m.framesInfo f).references + 1 < 65536)
    (hp : perm.buffered = false) : Guards pool (held.erase f) (m.enterFrame a.1 f (a.2 * 4096) perm) := by
  rcases enter_cases ha ht f perm with ⟨-, hself, he⟩ | ⟨-, hother, he⟩ | ⟨hnp, he⟩
  · rw [he, List.erase_of_not_mem (h.guarded.of_slot ha hself).2.2]
    exact h
  · obtain ⟨hG, -, hsame⟩ := h.unmap ha
    obtain ⟨hr, hfree⟩ := hsame f hother
    obtain ⟨htab, -, hd⟩ := Mem.unmapFrame_same m a.1 (a.2 * 4096)
    rw [he]
    refine hG.link (by rwa [slots_congr hd]) (by rwa [htab]) hf (fun hc => hnf (hfree hc)) ?_ hp
    rw [hr]
    exact hsmall.resolve_left fun hm => hother hm.2
  · rw [he]
    exact h.link ha ht hf hnf (hsmall.resolve_left fun hm => hnp hm.1) hp

/-- What mapping a frame does to the others: the one that the entry maps loses a reference. -/
theorem Guards.enter_other (perm : Perm) (h : Guards pool held m) (ha : a ∈ slots m)
    (ht : (m.table a.1 (a.2 / 1024)).isSome)
    {g : Nat} (hg : g ≠ f) :
    (MapsTo m a g ∧ ((m.enterFrame a.1 f (a.2 * 4096) perm).framesInfo g).references = (m.framesInfo g).references - 1 ∧
        (g ∈ (m.enterFrame a.1 f (a.2 * 4096) perm).freeFrameList ↔
          g ∈ m.freeFrameList ∨ (m.framesInfo g).references = 1)) ∨
      (¬ MapsTo m a g ∧ ((m.enterFrame a.1 f (a.2 * 4096) perm).framesInfo g).references = (m.framesInfo g).references ∧
        (g ∈ (m.enterFrame a.1 f (a.2 * 4096) perm).freeFrameList ↔ g ∈ m.freeFrameList)) := by
  rcases enter_cases ha ht f perm with ⟨-, hself, he⟩ | ⟨hp, -, he⟩ | ⟨hnp, he⟩
  · refine .inr ⟨fun hc => hg (Option.some.inj (hc.2.symm.trans hself)), ?_⟩
    rw [he]
    exact ⟨rfl, Iff.rfl⟩
  · have hold := entry_present ha ht hp
    have hU := h.unmaps ha hold
    have hpos := h.pos ha hold
    obtain ⟨href, -⟩ := link_eq (m := m.unmapFrame a.1 (a.2 * 4096)) f perm (by rwa [hU.slots])
      (by rwa [(Mem.unmapFrame_same m _ _).1])
    have hfree : ((m.unmapFrame a.1 (a.2 * 4096)).linkFrame a.1 f (a.2 * 4096) perm).freeFrameList = _ := hU.free
    rw [he, href, if_neg hg, hU.references, hfree]
    by_cases hgo : g = (m.pte a).frame
    · subst hgo
      refine .inl ⟨⟨hp, hold⟩, if_pos rfl, ?_⟩
      split
      · exact ⟨fun _ => .inr (by omega), fun _ => List.mem_cons_self⟩
      · exact ⟨.inl, fun hf => hf.resolve_right fun hc => by omega⟩
    · refine .inr ⟨fun hc => hgo (Option.some.inj (hold.symm.trans hc.2)).symm, if_neg hgo, ?_⟩
      split
      · rw [List.mem_cons]
        exact ⟨fun hf => hf.resolve_left hgo, .inr⟩
      · exact Iff.rfl
  · obtain ⟨href, -⟩ := link_eq f perm ha ht
    refine .inr ⟨fun hc => hnp hc.1, ?_⟩
    rw [he, href, if_neg hg]
    exact ⟨rfl, Iff.rfl⟩

/-- The counts stay within their 16 bits, right or wrong. -/
theorem Guards.enter_small (perm : Perm) (h : Guards pool held m) (ha : a ∈ slots m)
    (ht : (m.table a.1 (a.2 / 1024)).isSome) :
    ∀ g ∈ pool, ((m.enterFrame a.1 f (a.2 * 4096) perm).framesInfo g).references < 65536 := by
  have link : ∀ m', a ∈ slots m' → (m'.table a.1 (a.2 / 1024)).isSome →
      (∀ g ∈ pool, (m'.framesInfo g).references < 65536) →
      ∀ g ∈ pool, ((m'.linkFrame a.1 f (a.2 * 4096) perm).framesInfo g).references < 65536 := by
    intro m' ha' ht' hs g hg
    rw [(link_eq f perm ha' ht').1]
    split
    · exact Nat.mod_lt _ (by decide)
    · exact hs g hg
  rcases enter_cases ha ht f perm with ⟨-, -, he⟩ | ⟨-, -, he⟩ | ⟨-, he⟩
  · rw [he]; exact h.small
  · obtain ⟨htab, -, hd⟩ := Mem.unmapFrame_same m a.1 (a.2 * 4096)
    rw [he]
    exact link _ (by rwa [slots_congr hd]) (by rwa [htab]) (h.unmap ha).1.small
  · rw [he]; exact link m ha ht h.small

/-- After a map that leaves no count too small, the count has not wrapped. -/
theorem Guards.enter_fits (h : Guards pool held m) (ha : a ∈ slots m) (ht : (m.table a.1 (a.2 / 1024)).isSome)
    (hf : f ∈ pool) (hle : holders (slots m) (entry (m.enterFrame a.1 f (a.2 * 4096) perm)) f ≤
      ((m.enterFrame a.1 f (a.2 * 4096) perm).framesInfo f).references) :
    MapsTo m a f ∨ (m.framesInfo f).references + 1 < 65536 := by
  have hsmall := h.small f hf
  have link : ∀ m', slots m' = slots m → (m'.table a.1 (a.2 / 1024)).isSome →
      (m'.framesInfo f).references = (m.framesInfo f).references →
      holders (slots m) (entry (m'.linkFrame a.1 f (a.2 * 4096) perm)) f ≤
        ((m'.linkFrame a.1 f (a.2 * 4096) perm).framesInfo f).references → (m.framesInfo f).references + 1 < 65536 := by
    intro m' hs ht' hr hle'
    have ha' : a ∈ slots m' := by rwa [hs]
    obtain ⟨href, hent⟩ := link_eq f perm ha' ht'
    have hpos := holders_pos ha ((hent a ha').trans (Function.update_self ..))
    rw [href, if_pos rfl, hr] at hle'
    omega
  rcases enter_cases ha ht f perm with ⟨hp, hself, -⟩ | ⟨-, hother, he⟩ | ⟨-, he⟩
  · exact .inl ⟨hp, hself⟩
  · obtain ⟨htab, -, hd⟩ := Mem.unmapFrame_same m a.1 (a.2 * 4096)
    rw [he] at hle
    exact .inr (link _ (slots_congr hd) (by rwa [htab]) ((h.unmap ha).2.2 f hother).1 hle)
  · rw [he] at hle
    exact .inr (link m rfl ht rfl hle)

end Guards

/-! ## Counts that are right -/

section Counted

variable {pool : Finset Nat} {held : List Nat} {m : Mem} {a : Nat × Nat} {f : Nat} {perm : Perm}

theorem Counted.guards (h : Counted pool held m) : Guards pool held m :=
  ⟨h.balanced.guarded, h.small, h.notBuffered, h.zero⟩

theorem Guards.counted (h : Guards pool held m) (hB : Balanced (slots m) pool held (ledger m)) : Counted pool held m :=
  ⟨hB, h.small, h.notBuffered, h.zero⟩

theorem Counted.congr {m' : Mem} (h : Counted pool held m) (hd : m'.dirs = m.dirs)
    (he : ∀ a ∈ slots m, entry m' a = entry m a ∧ (entry m a ≠ none → m'.pte a = m.pte a))
    (hr : ∀ f, (m'.framesInfo f).references = (m.framesInfo f).references)
    (hf : m'.freeFrameList = m.freeFrameList) : Counted pool held m' := by
  refine (h.guards.congr hd he hr hf).counted ?_
  rw [slots_congr hd]
  exact h.balanced.congr (fun a ha => (he a ha).1) (fun f _ => hr f) hf

theorem Counted.setFrameVa (h : Counted pool held m) (f va : Nat) : Counted pool held (m.setFrameVa f va) :=
  h.congr rfl (fun _ _ => ⟨rfl, fun _ => rfl⟩) (setFrameVa_references m f va) rfl

/-- `allocate_frame` gives the frame to its caller. -/
theorem Counted.allocate (h : Counted pool held m) {m' : Mem} (ha : m.allocateFrame = .ok (f, m')) :
    Counted pool (f :: held) m' := by
  refine (h.guards.allocate ha).counted ?_
  unfold Mem.allocateFrame at ha
  split at ha
  · cases ha
  · rename_i rest hfree
    cases ha
    refine (h.balanced.take hfree).congr (fun a _ => rfl) (fun g _ => ?_) rfl
    simp only [ledger, Mem.setFrame_info, Function.update_apply]
    split <;> rfl

/-- `free_frame` of a frame that its caller holds. -/
theorem Counted.freeFrame (h : Counted pool held m) (hf : f ∈ held) : Counted pool (held.erase f) (m.freeFrame f) := by
  refine (h.guards.freeFrame hf).counted ((h.balanced.give hf).congr (fun a _ => rfl) (fun g _ => ?_) rfl)
  simp only [ledger, Mem.freeFrame, Mem.setFrame_info, Function.update_apply]
  split <;> rfl

/-- A frame that an entry holds is referenced. -/
theorem Counted.pos (h : Counted pool held m) (ha : a ∈ slots m) (hf : entry m a = some f) :
    0 < (m.framesInfo f).references := h.guards.pos ha hf

/-- `pt_set_page_permissions` that sets `PERM_PRESENT` only where a frame is. -/
theorem Counted.setPermissions (h : Counted pool held m) (ha : a ∈ slots m) {set clear : Perm} {m' : Mem}
    (hb : set.buffered = false) (hp : set.present = true → entry m a ≠ none)
    (hr : m.ptSetPagePermissions a.1 (a.2 * 4096) set clear = .ok m') : Counted pool held m' := by
  obtain ⟨hd, -, hi, hf, hent, -⟩ := h.guards.setPermissions_same ha hb hp hr
  refine (h.guards.setPermissions ha hb hp hr).counted ?_
  rw [slots_congr hd]
  exact h.balanced.congr hent (fun f _ => by rw [ledger, hi]; rfl) hf

theorem Counted.unmaps (h : Counted pool held m) (ha : a ∈ slots m) (hf : entry m a = some f) :
    Unmaps m a f (m.unmapFrame a.1 (a.2 * 4096)) := h.guards.unmaps ha hf

/-- `unmap_frame` empties the entry and takes nothing from other frames. -/
theorem Counted.unmap (h : Counted pool held m) (ha : a ∈ slots m) :
    Counted pool held (m.unmapFrame a.1 (a.2 * 4096)) ∧ entry (m.unmapFrame a.1 (a.2 * 4096)) a = none ∧
      ∀ g, entry m a ≠ some g → ((m.unmapFrame a.1 (a.2 * 4096)).framesInfo g).references =
        (m.framesInfo g).references ∧
        (g ∈ (m.unmapFrame a.1 (a.2 * 4096)).freeFrameList → g ∈ m.freeFrameList) := by
  obtain ⟨hG, hrest⟩ := h.guards.unmap ha
  refine ⟨hG.counted ?_, hrest⟩
  cases hf : entry m a with
  | none =>
    rw [unmap_none hf]
    exact h.balanced
  | some f =>
    have hU := h.unmaps ha hf
    rw [hU.slots]
    refine (h.balanced.drop ha hf).congr hU.entries (fun g _ => ?_) hU.free
    simp only [ledger, Function.update_apply]
    exact hU.references g

theorem Counted.link (h : Counted pool held m) (ha : a ∈ slots m) (ht : (m.table a.1 (a.2 / 1024)).isSome)
    (hnone : entry m a = none) (hf : f ∈ pool) (hnf : f ∉ m.freeFrameList)
    (hsmall : (m.framesInfo f).references + 1 < 65536)
    (hp : perm.buffered = false) : Counted pool (held.erase f) (m.linkFrame a.1 f (a.2 * 4096) perm) := by
  obtain ⟨href, hent⟩ := link_eq f perm ha ht
  refine (h.guards.link ha ht hf hnf hsmall hp).counted ((h.balanced.put ha hnone hf hnf).congr hent
    (fun g _ => ?_) rfl)
  simp only [ledger, Function.update_apply, href, Nat.mod_eq_of_lt hsmall]

/-- `map_frame` may overwrite the entry: it is present, or holds no frame. -/
def Releases (m : Mem) (a : Nat × Nat) : Prop := (m.pte a).perm.present = true ∨ entry m a = none

/-- Mapping a frame where the entry releases what it holds. -/
theorem Counted.enter (perm : Perm) (h : Counted pool held m) (ha : a ∈ slots m)
    (ht : (m.table a.1 (a.2 / 1024)).isSome)
    (hf : f ∈ pool) (hnf : f ∉ m.freeFrameList) (hrel : Releases m a)
    (hsmall : entry m a = some f ∨ (m.framesInfo f).references + 1 < 65536) (hp : perm.buffered = false) :
    Counted pool (held.erase f) (m.enterFrame a.1 f (a.2 * 4096) perm) := by
  rcases enter_cases ha ht f perm with ⟨-, hself, he⟩ | ⟨-, hother, he⟩ | ⟨hnp, he⟩
  · have hnh : f ∉ held := by
      intro hh
      have := holders_pos ha (show (ledger m).entries a = some f from hself)
      rw [h.balanced.idle f hh] at this
      exact absurd this (lt_irrefl 0)
    rw [he, List.erase_of_not_mem hnh]
    exact h
  · obtain ⟨hC, hnone, hsame⟩ := h.unmap ha
    obtain ⟨hr, hfree⟩ := hsame f hother
    obtain ⟨htab, -, hd⟩ := Mem.unmapFrame_same m a.1 (a.2 * 4096)
    rw [he]
    refine hC.link (by rwa [slots_congr hd]) (by rwa [htab]) hnone hf (fun hc => hnf (hfree hc)) ?_ hp
    rw [hr]
    exact hsmall.resolve_left hother
  · have hnone := hrel.resolve_left hnp
    rw [he]
    exact h.link ha ht hnone hf hnf (hsmall.resolve_left (by rw [hnone]; simp)) hp

/-- What mapping a frame does to the others: the one that the entry held loses a reference. -/
theorem Counted.enter_other (perm : Perm) (h : Counted pool held m) (ha : a ∈ slots m)
    (ht : (m.table a.1 (a.2 / 1024)).isSome)
    (hrel : Releases m a) {g : Nat} (hg : g ≠ f) :
    ((m.enterFrame a.1 f (a.2 * 4096) perm).framesInfo g).references =
        (if entry m a = some g then (m.framesInfo g).references - 1 else (m.framesInfo g).references) ∧
      (g ∈ (m.enterFrame a.1 f (a.2 * 4096) perm).freeFrameList ↔
        g ∈ m.freeFrameList ∨ entry m a = some g ∧ (m.framesInfo g).references = 1) := by
  rcases h.guards.enter_other perm ha ht hg with ⟨hm, hr, hf⟩ | ⟨hm, hr, hf⟩
  · rw [hr, hf, if_pos hm.2]
    exact ⟨rfl, or_congr_right (and_iff_right hm.2).symm⟩
  · have hne : entry m a ≠ some g := fun hc =>
      hm ⟨hrel.resolve_right fun hn => absurd (hn.symm.trans hc) (by simp), hc⟩
    rw [hr, hf, if_neg hne]
    exact ⟨rfl, .inl, fun h => h.resolve_right fun hc => hne hc.1⟩

/-- The counts stay within their 16 bits, right or wrong. -/
theorem Counted.enter_small (perm : Perm) (h : Counted pool held m) (ha : a ∈ slots m)
    (ht : (m.table a.1 (a.2 / 1024)).isSome) :
    ∀ g ∈ pool, ((m.enterFrame a.1 f (a.2 * 4096) perm).framesInfo g).references < 65536 :=
      h.guards.enter_small perm ha ht

/-- Each count of the pool is the number of entries that hold the frame. -/
def Right (pool : Finset Nat) (m : Mem) : Prop :=
  ∀ f ∈ pool, (m.framesInfo f).references = holders (slots m) (entry m) f

theorem Right.congr {m' : Mem} (h : Right pool m) (hd : m'.dirs = m.dirs) (he : ∀ a ∈ slots m, entry m' a = entry m a)
    (hr : ∀ f, (m'.framesInfo f).references = (m.framesInfo f).references) : Right pool m' := by
  intro f hf
  rw [hr, slots_congr hd, holders_congr he, h f hf]

/-- A count that is right after a link has not wrapped. -/
theorem Right.link_small (h : Right pool (m.linkFrame a.1 f (a.2 * 4096) perm)) (ha : a ∈ slots m)
    (ht : (m.table a.1 (a.2 / 1024)).isSome) (hf : f ∈ pool) (hlt : (m.framesInfo f).references < 65536) :
    (m.framesInfo f).references + 1 < 65536 := by
  obtain ⟨href, hent⟩ := link_eq f perm ha ht
  have hpos := holders_pos ha ((hent a ha).trans (Function.update_self ..))
  have hright : _ = holders (slots m) _ f := h f hf
  rw [← hright, href, if_pos rfl] at hpos
  omega

/-- Counts that are right after a link over an empty entry were right before it. -/
theorem Right.before_link (h : Right pool (m.linkFrame a.1 f (a.2 * 4096) perm)) (ha : a ∈ slots m)
    (ht : (m.table a.1 (a.2 / 1024)).isSome) (hnone : entry m a = none) (hf : f ∈ pool)
    (hlt : (m.framesInfo f).references < 65536) : Right pool m := by
  obtain ⟨href, hent⟩ := link_eq f perm ha ht
  have hsmall := h.link_small ha ht hf hlt
  intro g hg
  have hcount := holders_update (h := entry m) ha (some f) g
  have hright : _ = holders (slots m) _ g := h g hg
  rw [holders_congr hent, href, Nat.mod_eq_of_lt hsmall] at hright
  rw [if_neg (by rw [hnone]; simp)] at hcount
  by_cases hgf : g = f
  · subst hgf
    simp only [if_true] at hright hcount
    omega
  · rw [if_neg hgf] at hright
    rw [if_neg fun he => hgf (Option.some.inj he).symm] at hcount
    omega

/-- Where the counts are right after mapping a frame, the entry released what it held. -/
theorem Counted.enter_exact (h : Counted pool held m) (ha : a ∈ slots m) (ht : (m.table a.1 (a.2 / 1024)).isSome)
    (hf : f ∈ pool) (hright : Right pool (m.enterFrame a.1 f (a.2 * 4096) perm)) :
    Releases m a ∧ (entry m a = some f ∨ (m.framesInfo f).references + 1 < 65536) := by
  rcases enter_cases ha ht f perm with ⟨hp, hself, -⟩ | ⟨hp, hother, he⟩ | ⟨hnp, he⟩
  · exact ⟨.inl hp, .inl hself⟩
  · obtain ⟨-, -, hsame⟩ := h.unmap ha
    obtain ⟨hr, -⟩ := hsame f hother
    obtain ⟨htab, -, hd⟩ := Mem.unmapFrame_same m a.1 (a.2 * 4096)
    have hs := slots_congr hd
    rw [he] at hright
    refine ⟨.inl hp, .inr ?_⟩
    rw [← hr]
    exact hright.link_small (by rwa [hs]) (by rwa [htab]) hf (by rw [hr]; exact h.small f hf)
  · rw [he] at hright
    refine ⟨.inr ?_, .inr (hright.link_small ha ht hf (h.small f hf))⟩
    obtain ⟨href, hent⟩ := link_eq f perm ha ht
    by_contra hne
    obtain ⟨g, hg⟩ := Option.ne_none_iff_exists'.1 hne
    have hpool := h.balanced.inside a ha g hg
    -- the entry's old frame keeps a reference that no entry has
    have hcount := holders_update (h := entry m) ha (some f) g
    have hbal : (m.framesInfo g).references = holders (slots m) (entry m) g := h.balanced.references g hpool
    have hg' : _ = holders (slots m) _ g := hright g hpool
    rw [holders_congr hent, href] at hg'
    by_cases hgf : g = f
    · subst hgf
      simp only [hg, if_true] at hcount hg'
      have := h.small g hpool
      omega
    · simp only [hg, if_true, if_neg hgf, Option.some.injEq, if_neg (Ne.symm hgf)] at hcount hg'
      omega

end Counted

end Fos.Memory
