/-
The pages of the kernel heap, one at a time: each frame one of them holds is referenced once, records
the page as its `va`, and is not free. Taking a frame, mapping a frame that is mapped nowhere and
unmapping a page keep this; the loops of `kmalloc`, `kfree` and the block allocator are made of these.
-/
import Fos.Heap.KernelHeap

namespace Fos.Heap

open Fos.Memory

/-! ## Page numbers -/

/-- The pages of `[KERNEL_HEAP_START, KERNEL_HEAP_MAX)`. -/
def HeapPage (v : Nat) : Prop := 1007616 ≤ v ∧ v < 1048575

instance (v : Nat) : Decidable (HeapPage v) := inferInstanceAs (Decidable (_ ∧ _))

theorem slot_page (v : Nat) : slot 0 (v * 4096) = (0, v) := by
  simp only [slot, owner, ite_self, Nat.mul_div_cancel _ (show 0 < 4096 by decide)]

theorem slot_zero (va : Nat) : slot 0 va = (0, va / 4096) := by
  simp only [slot, owner, ite_self]

theorem pdx_page (v : Nat) : pdx (v * 4096) = v / 1024 := by
  unfold pdx; omega

/-- Page `v` holds a frame. -/
def HoldsPage (m : Mem) (v : Nat) : Prop := (m.pte (0, v)).held ≠ none

/-- The kernel heap has page tables. -/
def HeapTables (m : Mem) : Prop := ∀ v, HeapPage v → (m.table 0 (v / 1024)).isSome

theorem HeapTables.getFrameInfo {m : Mem} (h : HeapTables m) {v : Nat} (hv : HeapPage v) :
    m.getFrameInfo 0 (v * 4096) = (m.pte (0, v)).held := by
  have ht : (m.table (owner 0 (v * 4096)) (pdx (v * 4096))).isSome = true := by
    rw [owner, ite_self, pdx_page]; exact h v hv
  rw [Mem.getFrameInfo, if_pos ht, slot_page]

theorem held_of_present {e : Pte} (h : e.perm.present = true) : e.held = some e.frame := by
  unfold Pte.held; rw [if_pos (.inr (.inl h))]

theorem held_frame {e : Pte} {f : Nat} (h : e.held = some f) : e.frame = f := by
  unfold Pte.held at h
  split at h
  · exact Option.some.inj h
  · cases h

theorem held_cleared {p : Perm} (h : p.buffered = false) : (Pte.mk 0 p.available).held = none := by
  simp [Pte.held, h]

/-! ## The invariant -/

structure KPages (m : Mem) : Prop where
  few : m.numberOfFrames < 1048576
  freeNodup : m.freeFrameList.Nodup
  freeLt : ∀ f ∈ m.freeFrameList, f < m.numberOfFrames
  tables : HeapTables m
  notBuffered : ∀ v, HeapPage v → (m.pte (0, v)).perm.buffered = false
  references : ∀ v, HeapPage v → ∀ f, (m.pte (0, v)).held = some f → (m.framesInfo f).references = 1
  va : ∀ v, HeapPage v → ∀ f, (m.pte (0, v)).held = some f → (m.framesInfo f).va = v * 4096
  notFree : ∀ v, HeapPage v → ∀ f, (m.pte (0, v)).held = some f → f ∉ m.freeFrameList ∧ f < m.numberOfFrames
  stale : ∀ f < m.numberOfFrames, kernelHeapStart ≤ (m.framesInfo f).va → (m.framesInfo f).va < kernelHeapMax →
    (m.framesInfo f).va % 4096 = 0 ∧ (m.pte (0, (m.framesInfo f).va / 4096)).held = some f

/-- No page of the heap holds a frame without being present; the guard pages of kernel stacks do. -/
def AllPresent (m : Mem) : Prop := ∀ v, HeapPage v → HoldsPage m v → (m.pte (0, v)).perm.present = true

/-- So are the pages beside the guard pages `G`. -/
def PresentBut (G : Set Nat) (m : Mem) : Prop := ∀ v ∉ G, HeapPage v → HoldsPage m v →
    (m.pte (0, v)).perm.present = true

theorem presentBut_empty {m : Mem} : PresentBut ∅ m ↔ AllPresent m :=
  ⟨fun h v => h v (Set.notMem_empty v), fun h v _ => h v⟩

/-- Frame `f` is off the free list, mapped nowhere in the kernel heap and referenced `r` times. -/
structure Loose (m : Mem) (f r : Nat) : Prop where
  lt : f < m.numberOfFrames
  notFree : f ∉ m.freeFrameList
  references : (m.framesInfo f).references = r
  unmapped : ∀ v, HeapPage v → (m.pte (0, v)).held ≠ some f

/-- The frames and the page tables that boot leaves: the free frames have no reference and no address, the
kernel heap has page tables and holds no frame, and no table is there for user addresses or holds
anything in the last page of the address space. -/
structure Booted (m : Mem) : Prop where
  few : m.numberOfFrames < 1048576
  freeNodup : m.freeFrameList.Nodup
  freeLt : ∀ f ∈ m.freeFrameList, f < m.numberOfFrames
  fresh : ∀ f < m.numberOfFrames, (m.framesInfo f).va = 0
  tables : HeapTables m
  empty : ∀ v, HeapPage v → m.pte (0, v) = {}
  lower : ∀ i < 955, m.table 0 i = none
  last : m.pte (0, 1048575) = {}
  unreferenced : ∀ f ∈ m.freeFrameList, (m.framesInfo f).references = 0
  zero : 0 ∉ m.freeFrameList

/-- A small machine after boot: the kernel ends at frame 1024, its page tables being the last frames
before, and four frames follow. -/
def machine : Mem where
  numberOfFrames := 1028
  framesInfo f := { references := if f < 3 ∨ 160 ≤ f ∧ f < 1024 then 1 else 0 }
  freeFrameList := [1027, 1026, 1025, 1024] ++ (List.range' 3 157).reverse
  dirs := {0}
  table d i := if d = 0 ∧ 960 ≤ i ∧ i < 1024 then some i else none
  pte a := if a.1 = 0 ∧ 983040 ≤ a.2 ∧ a.2 < 984064 then ⟨a.2 - 983040, { present := true, writeable := true }⟩ else {}

theorem machine_table {i : Nat} : machine.table 0 i = if 960 ≤ i ∧ i < 1024 then some i else none := by
  simp [machine]

theorem machine_pte {v : Nat} (h : 984064 ≤ v) : machine.pte (0, v) = {} := if_neg (by simp only; omega)

theorem machine_booted : Booted machine := by
  constructor
  · decide
  · rw [machine, List.nodup_append, List.nodup_reverse]
    refine ⟨by decide, List.nodup_range', fun a ha b hb => ?_⟩
    simp only [List.mem_reverse, List.mem_range'_1] at hb
    simp only [List.mem_cons, List.not_mem_nil, or_false] at ha
    omega
  · intro f hf
    simp only [machine, List.mem_append, List.mem_reverse, List.mem_range'_1, List.mem_cons, List.not_mem_nil,
      or_false] at hf ⊢
    omega
  · exact fun f hf => rfl
  · rintro v ⟨h1, h2⟩
    rw [machine_table, if_pos (by omega)]; rfl
  · exact fun v hv => machine_pte (by have := hv.1; omega)
  · exact fun i hi => by rw [machine_table, if_neg (by omega)]
  · exact machine_pte (by decide)
  · intro f hf
    simp only [machine, List.mem_append, List.mem_reverse, List.mem_range'_1, List.mem_cons, List.not_mem_nil,
      or_false] at hf ⊢
    rw [if_neg (by omega)]
  · simp [machine]

theorem Booted.pages {m : Mem} (h : Booted m) : KPages m := by
  have hnone : ∀ v, HeapPage v → (m.pte (0, v)).held = none := fun v hv => by rw [h.empty v hv]; rfl
  constructor
  · exact h.few
  · exact h.freeNodup
  · exact h.freeLt
  · exact h.tables
  · exact fun v hv => by rw [h.empty v hv]
  · exact fun v hv f hf => by rw [hnone v hv] at hf; cases hf
  · exact fun v hv f hf => by rw [hnone v hv] at hf; cases hf
  · exact fun v hv f hf => by rw [hnone v hv] at hf; cases hf
  · intro f hf h1
    rw [h.fresh f hf] at h1
    exact absurd h1 (by decide)

section Pages

variable {m : Mem} {v f : Nat}

/-- No two pages hold one frame. -/
theorem KPages.inj (h : KPages m) {w : Nat} (hv : HeapPage v) (hw : HeapPage w) (hf : (m.pte (0, v)).held = some f)
    (hf' : (m.pte (0, w)).held = some f) : v = w := by
  have h1 := h.va v hv f hf
  have h2 := h.va w hw f hf'
  omega

theorem KPages.getFrameInfo (h : KPages m) (hv : HeapPage v) : m.getFrameInfo 0 (v * 4096) = (m.pte (0, v)).held :=
  h.tables.getFrameInfo hv

/-! ## Taking a frame -/

theorem KPages.allocate (h : KPages m) {m' : Mem} (ha : m.allocateFrame = .ok (f, m')) :
    KPages m' ∧ Loose m' f 0 ∧ m'.pte = m.pte ∧ m.freeFrameList = f :: m'.freeFrameList ∧
      (∀ g r, Loose m g r → Loose m' g r) := by
  unfold Mem.allocateFrame at ha
  split at ha
  · cases ha
  · rename_i g rest hfree
    cases ha
    have hmem : f ∈ m.freeFrameList := by rw [hfree]; exact List.mem_cons_self
    have hnd := h.freeNodup
    rw [hfree, List.nodup_cons] at hnd
    have hheld : ∀ w, HeapPage w → (m.pte (0, w)).held ≠ some f := fun w hw hf => (h.notFree w hw f hf).1 hmem
    have hne : ∀ w, HeapPage w → ∀ g, (m.pte (0, w)).held = some g → g ≠ f := fun w hw g hg he => hheld w hw (he ▸ hg)
    have hsub : ∀ g, g ∉ m.freeFrameList → g ∉ rest := fun g hg hr =>
      hg (by rw [hfree]; exact List.mem_cons_of_mem _ hr)
    refine ⟨?_, ⟨h.freeLt f hmem, hnd.1, by simp, hheld⟩, rfl, hfree, fun g r hg => ?_⟩
    · constructor
      · exact h.few
      · exact hnd.2
      · exact fun g hg => h.freeLt g (by rw [hfree]; exact List.mem_cons_of_mem _ hg)
      · exact h.tables
      · exact h.notBuffered
      · intro w hw g hg
        rw [Mem.setFrame_info, if_neg (hne w hw g hg)]
        exact h.references w hw g hg
      · intro w hw g hg
        rw [Mem.setFrame_info, if_neg (hne w hw g hg)]
        exact h.va w hw g hg
      · exact fun w hw g hg => ⟨hsub g (h.notFree w hw g hg).1, (h.notFree w hw g hg).2⟩
      · intro g hg h1 h2
        rw [Mem.setFrame_info] at h1 h2 ⊢
        by_cases hgf : g = f
        · rw [if_pos hgf] at h1
          exact absurd h1 (by decide)
        · rw [if_neg hgf] at h1 h2 ⊢
          exact h.stale g hg h1 h2
    · have hgf : g ≠ f := fun he => hg.notFree (he ▸ hmem)
      exact ⟨hg.lt, hsub g hg.notFree, by rw [Mem.setFrame_info, if_neg hgf]; exact hg.references, hg.unmapped⟩

/-! ## Unmapping a page -/

/-- A frame referenced once is freed. -/
theorem decrement_last (hr : (m.framesInfo f).references = 1) : m.decrementReferences f = m.freeFrame f := by
  simp [Mem.decrementReferences, hr, Mem.freeFrame, Mem.setFrame, Function.update_idem]

theorem unmap_none {d va : Nat} (h : m.getFrameInfo d va = none) : m.unmapFrame d va = m := by
  simp only [Mem.unmapFrame, h]

theorem KPages.unmap_eq (h : KPages m) (hv : HeapPage v) (hf : (m.pte (0, v)).held = some f) :
    m.unmapFrame 0 (v * 4096) = (m.freeFrame f).setPte (0, v) ⟨0, (m.pte (0, v)).perm.available⟩ := by
  have hg := h.getFrameInfo hv
  rw [hf] at hg
  simp only [Mem.unmapFrame, hg, decrement_last (h.references v hv f hf), slot_page]

/-- Unmapping a page frees its frame and changes no other page. -/
theorem KPages.unmap (h : KPages m) (hv : HeapPage v) :
    KPages (m.unmapFrame 0 (v * 4096)) ∧
      (∀ a, a ≠ (0, v) → (m.unmapFrame 0 (v * 4096)).pte a = m.pte a) ∧
      ((m.unmapFrame 0 (v * 4096)).pte (0, v)).held = none ∧
      (m.unmapFrame 0 (v * 4096)).freeFrameList = ((m.pte (0, v)).held.toList ++ m.freeFrameList) ∧
      (∀ g r, Loose m g r → Loose (m.unmapFrame 0 (v * 4096)) g r) := by
  cases hf : (m.pte (0, v)).held with
  | none =>
    have hg := h.getFrameInfo hv
    rw [hf] at hg
    rw [unmap_none hg]
    exact ⟨h, fun _ _ => rfl, hf, by simp, fun _ _ hg => hg⟩
  | some f =>
    have hcl : (Pte.mk 0 (m.pte (0, v)).perm.available).held = none := held_cleared (h.notBuffered v hv)
    obtain ⟨hnf, hlt⟩ := h.notFree v hv f hf
    -- the pages that still hold a frame are the others, and hold others
    have hother : ∀ w, HeapPage w → ∀ g, (((m.freeFrame f).setPte (0, v) ⟨0, (m.pte (0, v)).perm.available⟩).pte
        (0, w)).held = some g → w ≠ v ∧ (m.pte (0, w)).held = some g ∧ g ≠ f := by
      intro w hw g hg
      rw [Mem.setPte_pte] at hg
      by_cases hwv : w = v
      · subst hwv
        rw [if_pos rfl, hcl] at hg
        cases hg
      · rw [if_neg (by simpa using hwv)] at hg
        exact ⟨hwv, hg, fun he => hwv (h.inj hw hv (he ▸ hg) hf)⟩
    rw [h.unmap_eq hv hf]
    refine ⟨?_, fun a ha => by rw [Mem.setPte_pte, if_neg ha]; rfl, by rw [Mem.setPte_pte, if_pos rfl]; exact hcl,
      rfl, fun g r hg => ?_⟩
    · constructor
      · exact h.few
      · exact List.nodup_cons.2 ⟨hnf, h.freeNodup⟩
      · intro g hg
        rcases List.mem_cons.1 hg with rfl | hg
        · exact hlt
        · exact h.freeLt g hg
      · exact h.tables
      · intro w hw
        rw [Mem.setPte_pte]
        split
        · exact h.notBuffered v hv
        · exact h.notBuffered w hw
      · intro w hw g hg
        obtain ⟨-, hg, hgf⟩ := hother w hw g hg
        rw [Mem.setPte_info, Mem.freeFrame, Mem.setFrame_info, if_neg hgf]
        exact h.references w hw g hg
      · intro w hw g hg
        obtain ⟨-, hg, hgf⟩ := hother w hw g hg
        rw [Mem.setPte_info, Mem.freeFrame, Mem.setFrame_info, if_neg hgf]
        exact h.va w hw g hg
      · intro w hw g hg
        obtain ⟨-, hg, hgf⟩ := hother w hw g hg
        refine ⟨fun hmem => ?_, (h.notFree w hw g hg).2⟩
        exact (h.notFree w hw g hg).1 ((List.mem_cons.1 hmem).resolve_left hgf)
      · intro g hg h1 h2
        rw [Mem.setPte_info, Mem.freeFrame, Mem.setFrame_info] at h1 h2 ⊢
        by_cases hgf : g = f
        · rw [if_pos hgf] at h1
          exact absurd h1 (by decide)
        · rw [if_neg hgf] at h1 h2 ⊢
          obtain ⟨h3, h4⟩ := h.stale g hg h1 h2
          refine ⟨h3, ?_⟩
          rw [Mem.setPte_pte, if_neg]
          · exact h4
          · intro he
            rw [(Prod.mk.inj he).2, hf] at h4
            exact hgf (Option.some.inj h4).symm
    · have hgf : g ≠ f := fun he => hg.unmapped v hv (he ▸ hf)
      refine ⟨hg.lt, fun hmem => hg.notFree ((List.mem_cons.1 hmem).resolve_left hgf), ?_, fun w hw hwg => ?_⟩
      · rw [Mem.setPte_info, Mem.freeFrame, Mem.setFrame_info, if_neg hgf]
        exact hg.references
      · exact hg.unmapped w hw (hother w hw g hwg).2.1

/-! ## Mapping a frame -/

/-- Mapping a loose frame on a page that holds none. -/
theorem KPages.link (h : KPages m) (hv : HeapPage v) (hl : Loose m f 0) (hfree : (m.pte (0, v)).held = none)
    {perm : Perm} (hp : perm.buffered = false) :
    KPages ((m.setFrameVa f (v * 4096)).linkFrame 0 f (v * 4096) perm) := by
  let m' := (m.setFrameVa f (v * 4096)).linkFrame 0 f (v * 4096) perm
  have hpte : ∀ w, w ≠ v → m'.pte (0, w) = m.pte (0, w) := by
    intro w hw
    simp [m', Mem.linkFrame, Mem.setFrameVa, slot_page, hw]
  have hself : m'.pte (0, v) = ⟨f, ((m.pte (0, v)).perm.available.union perm).union .permPresent⟩ := by
    simp [m', Mem.linkFrame, Mem.setFrameVa, slot_page]
  have hheld : (m'.pte (0, v)).held = some f := by
    rw [hself]; exact held_of_present (by simp [Perm.permPresent])
  have hinfo : ∀ g, g ≠ f → m'.framesInfo g = m.framesInfo g := by
    intro g hg
    simp [m', Mem.linkFrame, Mem.setFrameVa, hg]
  have hinfof : m'.framesInfo f = ⟨v * 4096, 1, (m.framesInfo f).size⟩ := by
    simp [m', Mem.linkFrame, Mem.setFrameVa, hl.references]
  have hother : ∀ w, HeapPage w → ∀ g, (m'.pte (0, w)).held = some g → (w = v ∧ g = f) ∨
      (w ≠ v ∧ (m.pte (0, w)).held = some g ∧ g ≠ f) := by
    intro w hw g hg
    by_cases hwv : w = v
    · subst hwv
      rw [hheld] at hg
      exact .inl ⟨rfl, (Option.some.inj hg).symm⟩
    · rw [hpte w hwv] at hg
      exact .inr ⟨hwv, hg, fun he => hl.unmapped w hw (he ▸ hg)⟩
  constructor
  · exact h.few
  · exact h.freeNodup
  · exact h.freeLt
  · exact h.tables
  · intro w hw
    show (m'.pte (0, w)).perm.buffered = false
    by_cases hwv : w = v
    · subst hwv
      rw [hself]; simp [Perm.permPresent, hp, h.notBuffered w hw]
    · rw [hpte w hwv]; exact h.notBuffered w hw
  · intro w hw g hg
    show (m'.framesInfo g).references = 1
    rcases hother w hw g hg with ⟨-, rfl⟩ | ⟨-, hg, hgf⟩
    · rw [hinfof]
    · rw [hinfo g hgf]; exact h.references w hw g hg
  · intro w hw g hg
    show (m'.framesInfo g).va = w * 4096
    rcases hother w hw g hg with ⟨rfl, rfl⟩ | ⟨-, hg, hgf⟩
    · rw [hinfof]
    · rw [hinfo g hgf]; exact h.va w hw g hg
  · intro w hw g hg
    rcases hother w hw g hg with ⟨-, rfl⟩ | ⟨-, hg, -⟩
    · exact ⟨hl.notFree, hl.lt⟩
    · exact h.notFree w hw g hg
  · intro g hg h1 h2
    show (m'.framesInfo g).va % 4096 = 0 ∧ (m'.pte (0, (m'.framesInfo g).va / 4096)).held = some g
    change _ ≤ (m'.framesInfo g).va at h1
    change (m'.framesInfo g).va < _ at h2
    by_cases hgf : g = f
    · subst hgf
      simp only [hinfof, Nat.mul_div_cancel _ (show 0 < 4096 by decide), Nat.mul_mod_left, true_and]
      exact hheld
    · rw [hinfo g hgf] at h1 h2 ⊢
      obtain ⟨h3, h4⟩ := h.stale g hg h1 h2
      refine ⟨h3, ?_⟩
      rw [hpte _ fun he => ?_]
      · exact h4
      · rw [he, hfree] at h4; cases h4

theorem unmap_setFrameVa {d va va' : Nat} (hne : m.getFrameInfo d va ≠ some f) :
    (m.setFrameVa f va').unmapFrame d va = (m.unmapFrame d va).setFrameVa f va' := by
  have hg : (m.setFrameVa f va').getFrameInfo d va = m.getFrameInfo d va := rfl
  cases hgi : m.getFrameInfo d va with
  | none => rw [unmap_none hgi, unmap_none (hg.trans hgi)]
  | some g =>
    have hgf : g ≠ f := fun he => hne (he ▸ hgi)
    have hinfo : (m.setFrameVa f va').framesInfo g = m.framesInfo g := by simp [Mem.setFrameVa, hgf]
    simp only [Mem.unmapFrame, hg, hgi, Mem.decrementReferences, hinfo]
    split
    · simp only [Mem.freeFrame, Mem.setFrame, Mem.setPte, Mem.setFrameVa, Function.update_of_ne (Ne.symm hgf),
        Function.update_comm hgf]
    · simp only [Mem.setFrame, Mem.setPte, Mem.setFrameVa, Function.update_of_ne (Ne.symm hgf),
        Function.update_comm hgf]

/-- Mapping another frame on a page of the heap: what the page held is unmapped first. -/
theorem KPages.map_eq (h : KPages m) (hv : HeapPage v) (hpres : HoldsPage m v → (m.pte (0, v)).perm.present = true)
    (hf : (m.pte (0, v)).held ≠ some f) (perm : Perm) :
    mapKernelFrame m f (v * 4096) perm =
      .ok (((m.unmapFrame 0 (v * 4096)).setFrameVa f (v * 4096)).linkFrame 0 f (v * 4096) perm) := by
  have hg := h.getFrameInfo hv
  have hne : m.getFrameInfo 0 (v * 4096) ≠ some f := by rw [hg]; exact hf
  have ht : ((m.setFrameVa f (v * 4096)).table 0 (pdx (v * 4096))).isSome := by
    rw [pdx_page]; exact h.tables v hv
  simp only [mapKernelFrame, if_pos ht, Mem.enterFrame]
  have hpte : (m.setFrameVa f (v * 4096)).pte (slot 0 (v * 4096)) = m.pte (0, v) := by rw [slot_page]; rfl
  rw [hpte]
  by_cases hp : (m.pte (0, v)).perm.present = true
  · have hheld := held_of_present hp
    rw [if_pos hp, if_neg fun he => hne (by rw [hg, hheld, he]), unmap_setFrameVa hne]
  · have hnone : m.getFrameInfo 0 (v * 4096) = none := by
      rw [hg]
      by_contra hn
      exact hp (hpres hn)
    rw [if_neg hp, unmap_none hnone]

/-- Mapping a loose frame on a page of the heap keeps the invariant; the page holds the frame and
no other page changes. -/
theorem KPages.map (h : KPages m) (hv : HeapPage v) (hpres : HoldsPage m v → (m.pte (0, v)).perm.present = true)
    (hl : Loose m f 0) (perm : Perm) (hp : perm.buffered = false) :
    ∃ m', mapKernelFrame m f (v * 4096) perm = .ok m' ∧ KPages m' ∧
      ((m'.pte (0, v)).held = some f ∧ (m'.pte (0, v)).perm.present = true) ∧
      (∀ a, a ≠ (0, v) → m'.pte a = m.pte a) ∧
      m'.freeFrameList = (m.pte (0, v)).held.toList ++ m.freeFrameList ∧
      (∀ g r, g ≠ f → Loose m g r → Loose m' g r) := by
  obtain ⟨hK, hother, hnone, hfree, hloose⟩ := h.unmap hv
  refine ⟨_, h.map_eq hv hpres (hl.unmapped v hv) perm, hK.link hv (hloose f 0 hl) hnone hp, ?_, fun a ha => ?_, ?_,
    fun g r hgf hg => ?_⟩
  · have : (((m.unmapFrame 0 (v * 4096)).setFrameVa f (v * 4096)).linkFrame 0 f (v * 4096) perm).pte (0, v) =
        ⟨f, (((m.unmapFrame 0 (v * 4096)).pte (0, v)).perm.available.union perm).union .permPresent⟩ := by
      simp [Mem.linkFrame, Mem.setFrameVa, slot_page]
    rw [this]
    exact ⟨held_of_present (by simp [Perm.permPresent]), by simp [Perm.permPresent]⟩
  · rw [← hother a ha]
    simp [Mem.linkFrame, Mem.setFrameVa, slot_page, ha]
  · rw [← hfree]; rfl
  · have hg' := hloose g r hg
    refine ⟨hg'.lt, hg'.notFree, ?_, fun w hw => ?_⟩
    · simp only [Mem.linkFrame, Mem.setFrameVa, Mem.setPte_info, Mem.setFrame_info, if_neg hgf]
      exact hg'.references
    · by_cases hwv : w = v
      · subst hwv
        simp only [Mem.linkFrame, Mem.setFrameVa, slot_page, Mem.setPte_pte, if_pos]
        rw [held_of_present (by simp [Perm.permPresent])]
        exact fun he => hgf (Option.some.inj he).symm
      · have : (0, w) ≠ ((0, v) : Nat × Nat) := by simpa using hwv
        simp only [Mem.linkFrame, Mem.setFrameVa, slot_page, Mem.setPte_pte, if_neg this]
        exact hg'.unmapped w hw

end Pages

end Fos.Heap
