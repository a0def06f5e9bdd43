/-
Frames of user pages beside the kernel heap: the heap takes none of the frames that are off the free list and on none
of its pages, and mapping or unmapping such a frame on a user page is no concern of the heap.
-/
import Fos.Heap.InverseMap
import Fos.Memory.KernelReady

namespace Fos.Memory

open Fos.Lib Fos.Heap

section LooseFrames

variable {s t : Kernel} {m m' : Mem} {d f v r : Nat} {perm : Perm}

theorem mapOk_ready (h : MapOk s) : KernelReady s :=
  ⟨⟨⟨h.pages.tables, h.start, h.brk⟩, h.dynStart⟩, h.dynEnd, h.lower, h.last, h.sizes⟩

/-! ## One change -/

/-- Only the entries of one frame's descriptor and of other directories changed. -/
structure Beside (f : Nat) (m m' : Mem) : Prop where
  frames : m'.numberOfFrames = m.numberOfFrames
  free : m'.freeFrameList = m.freeFrameList
  info : ∀ g, g ≠ f → m'.framesInfo g = m.framesInfo g
  va : (m'.framesInfo f).va = (m.framesInfo f).va ∨ (m'.framesInfo f).va < kernelHeapStart
  table : m'.table 0 = m.table 0
  pte : ∀ v, m'.pte (0, v) = m.pte (0, v)

theorem Beside.loose (h : Beside f m m') {g : Nat} (hg : g ≠ f) (hl : Loose m g r) : Loose m' g r := by
  refine ⟨h.frames ▸ hl.lt, h.free ▸ hl.notFree, ?_, fun v hv => ?_⟩
  · rw [h.info g hg]
    exact hl.references
  · rw [h.pte]
    exact hl.unmapped v hv

theorem Beside.self (h : Beside f m m') (hl : Loose m f r) : Loose m' f (m'.framesInfo f).references := by
  refine ⟨h.frames ▸ hl.lt, h.free ▸ hl.notFree, rfl, fun v hv => ?_⟩
  rw [h.pte]
  exact hl.unmapped v hv

/-- The kernel heap is as it was. -/
theorem Beside.mapOk (h : Beside f s.mem m') (hs : MapOk s) (hl : ∀ w, HeapPage w → (s.mem.pte (0, w)).held ≠ some f) :
    MapOk { s with mem := m' } := by
  have hK := hs.pages
  -- a page of the heap holds another frame
  have hinfo : ∀ w, HeapPage w → ∀ g, (m'.pte (0, w)).held = some g →
      (s.mem.pte (0, w)).held = some g ∧ m'.framesInfo g = s.mem.framesInfo g := by
    intro w hw g hg
    rw [h.pte] at hg
    exact ⟨hg, h.info g fun hc => hl w hw (hc ▸ hg)⟩
  refine ⟨⟨h.frames ▸ hK.few, h.free ▸ hK.freeNodup, ?_, fun v hv => h.table ▸ hK.tables v hv, fun v hv => ?_, ?_, ?_,
    ?_, ?_⟩, fun w hw hh hp => ?_, fun i hi => h.table ▸ hs.lower i hi, (h.pte _).trans hs.last, hs.dynStart, hs.dynEnd,
      hs.start, hs.brk,
    hs.sizes⟩
  · show ∀ g ∈ m'.freeFrameList, g < m'.numberOfFrames
    rw [h.free, h.frames]
    exact hK.freeLt
  · show (m'.pte (0, v)).perm.buffered = false
    rw [h.pte]
    exact hK.notBuffered v hv
  · intro w hw g hg
    obtain ⟨hold, he⟩ := hinfo w hw g hg
    exact (congrArg FrameInfo.references he).trans (hK.references w hw g hold)
  · intro w hw g hg
    obtain ⟨hold, he⟩ := hinfo w hw g hg
    exact (congrArg FrameInfo.va he).trans (hK.va w hw g hold)
  · intro w hw g hg
    obtain ⟨hold, -⟩ := hinfo w hw g hg
    show g ∉ m'.freeFrameList ∧ g < m'.numberOfFrames
    rw [h.free, h.frames]
    exact hK.notFree w hw g hold
  · intro g hg h1 h2
    have hva : (m'.framesInfo g).va = (s.mem.framesInfo g).va := by
      by_cases hgf : g = f
      · subst hgf
        exact h.va.resolve_right (not_lt.2 h1)
      · rw [h.info g hgf]
    show (m'.framesInfo g).va % 4096 = 0 ∧ (m'.pte (0, (m'.framesInfo g).va / 4096)).held = some g
    rw [hva, h.pte]
    exact hK.stale g (h.frames ▸ hg) (hva ▸ h1) (hva ▸ h2)
  · have hh : (m'.pte (0, w)).held ≠ none := hh
    have hp : (m'.pte (0, w)).perm.present = false := hp
    rw [h.pte] at hh hp
    exact hs.guards w hw hh hp

theorem beside_setFrame {i : FrameInfo} (hva : i.va = (m.framesInfo f).va ∨ i.va < kernelHeapStart) :
    Beside f m (m.setFrame f i) := by
  refine ⟨rfl, rfl, fun g hg => ?_, ?_, rfl, fun _ => rfl⟩
  · rw [Mem.setFrame_info, if_neg hg]
  · rw [Mem.setFrame_info, if_pos rfl]
    exact hva

theorem beside_references (n : Nat) : Beside f m (m.setFrame f { m.framesInfo f with references := n }) :=
  beside_setFrame (.inl rfl)

theorem beside_setPte (hd : d ≠ 0) (e : Pte) : Beside f m (m.setPte (d, v) e) := by
  refine ⟨rfl, rfl, fun _ _ => rfl, .inl rfl, rfl, fun w => ?_⟩
  rw [Mem.setPte_pte, if_neg fun hc => hd (congrArg Prod.fst hc).symm]

theorem beside_linkTable (hd : d ≠ 0) (va ptr : Nat) : Beside f s.mem (s.linkTable d va ptr).mem := by
  refine ⟨rfl, rfl, fun _ _ => rfl, .inl rfl, ?_, fun w => if_neg fun hc => hd hc.1.symm⟩
  exact Function.update_of_ne (Ne.symm hd) _ _

theorem Beside.trans {m₁ : Mem} (h : Beside f m m₁) (h' : Beside f m₁ m') : Beside f m m' := by
  refine ⟨h'.frames.trans h.frames, h'.free.trans h.free, fun g hg => (h'.info g hg).trans (h.info g hg), ?_,
    h'.table.trans h.table, fun v => (h'.pte v).trans (h.pte v)⟩
  rcases h'.va with h' | h'
  · rw [h']
    exact h.va
  · exact .inr h'

/-! ## Frames that come, are mapped and unmapped -/

/-- The kernel heap is in order, and the frames but `f` that were loose are. -/
structure Spared (f : Nat) (s t : Kernel) : Prop where
  ok : MapOk t
  loose : ∀ g r, g ≠ f → Loose s.mem g r → Loose t.mem g r

theorem Beside.spared (h : Beside f s.mem m') (hs : MapOk s) (hl : Loose s.mem f r) :
    Spared f s { s with mem := m' } ∧ Loose m' f (m'.framesInfo f).references :=
  ⟨⟨h.mapOk hs hl.unmapped, fun _ _ hg hg' => h.loose hg hg'⟩, h.self hl⟩

/-- A change that is beside every frame. -/
theorem mapOk_beside (hs : MapOk s) (hB : ∀ f, Beside f s.mem m') :
    MapOk { s with mem := m' } ∧ ∀ g r, Loose s.mem g r → Loose m' g r := by
  -- no page of the heap holds a frame that is none
  refine ⟨(hB s.mem.numberOfFrames).mapOk hs fun w hw hc => ?_, fun g r hl => ?_⟩
  · exact lt_irrefl _ (hs.pages.notFree w hw _ hc).2
  · exact (hB (g + 1)).loose (by omega) hl

/-- An entry of a process. -/
theorem mapOk_setPte (hs : MapOk s) (hd : d ≠ 0) (e : Pte) :
    MapOk { s with mem := s.mem.setPte (d, v) e } ∧ ∀ g r, Loose s.mem g r → Loose (s.mem.setPte (d, v) e) g r :=
  mapOk_beside hs fun _ => beside_setPte hd e

/-- A frame that was loose goes back to the free list. -/
theorem mapOk_freeFrame (hs : MapOk s) (hl : Loose s.mem f r) : Spared f s { s with mem := s.mem.freeFrame f } := by
  have hK := hs.pages
  have hinfo : ∀ g, g ≠ f → (s.mem.freeFrame f).framesInfo g = s.mem.framesInfo g := by
    intro g hg
    rw [Mem.freeFrame, Mem.setFrame_info, if_neg hg]
  have hself : (s.mem.freeFrame f).framesInfo f = {} := by
    rw [Mem.freeFrame, Mem.setFrame_info, if_pos rfl]
  have hne : ∀ w, HeapPage w → ∀ g, (s.mem.pte (0, w)).held = some g → g ≠ f := fun w hw g hg hc =>
    hl.unmapped w hw (hc ▸ hg)
  refine ⟨⟨⟨hK.few, List.nodup_cons.2 ⟨hl.notFree, hK.freeNodup⟩, fun g hg => ?_, hK.tables, hK.notBuffered,
    fun w hw g hg => ?_,
    fun w hw g hg => ?_, fun w hw g hg => ?_, fun g hg h1 h2 => ?_⟩, hs.guards, hs.lower, hs.last, hs.dynStart,
      hs.dynEnd, hs.start,
    hs.brk, hs.sizes⟩, fun g r' hg hg' => ⟨hg'.lt, fun hc => ?_, ?_, hg'.unmapped⟩⟩
  · rcases List.mem_cons.1 hg with rfl | hg
    · exact hl.lt
    · exact hK.freeLt g hg
  · exact (congrArg FrameInfo.references (hinfo g (hne w hw g hg))).trans (hK.references w hw g hg)
  · exact (congrArg FrameInfo.va (hinfo g (hne w hw g hg))).trans (hK.va w hw g hg)
  · obtain ⟨h1, h2⟩ := hK.notFree w hw g hg
    exact ⟨List.not_mem_cons_of_ne_of_not_mem (hne w hw g hg) h1, h2⟩
  · by_cases hgf : g = f
    · subst hgf
      have hzero : ((s.mem.freeFrame g).framesInfo g).va = 0 := by rw [hself]
      exact absurd (hzero ▸ h1) (by decide)
    · have hg' : (s.mem.freeFrame f).framesInfo g = s.mem.framesInfo g := hinfo g hgf
      simp only [hg'] at h1 h2 ⊢
      exact hK.stale g hg h1 h2
  · rcases List.mem_cons.1 hc with hc | hc
    · exact hg hc
    · exact hg'.notFree hc
  · exact (congrArg FrameInfo.references (hinfo g hg)).trans hg'.references

theorem Spared.trans {u : Kernel} (h : Spared f s t) (h' : Spared f t u) : Spared f s u :=
  ⟨h'.ok, fun g r hg hl => h'.loose g r hg (h.loose g r hg hl)⟩

theorem keeps_trans {u : Kernel} (h : Keeps s t) (h' : Keeps t u) : Keeps s u := ⟨h'.ok, h.evolves.trans h'.evolves⟩

/-- The heap's calls change no user page. -/
theorem keeps_user (h : Keeps s t) (hv : v < userPages) : userEntry t.mem d v = userEntry s.mem d v := by
  rw [userEntry, userEntry, h.evolves.table, h.evolves.outside (d, v) fun hc => ?_]
  have := hc.2.1
  simp only [userPages] at hv
  omega

theorem keeps_spared (h : Keeps s t) (f : Nat) : Spared f s t := ⟨h.ok, fun g r _ hl => h.evolves.loose g r hl⟩

/-- A new frame. -/
theorem mapOk_allocate (h : MapOk s) (ha : s.mem.allocateFrame = .ok (f, m')) :
    Keeps s { s with mem := m' } ∧ Loose m' f 0 ∧ ∀ r, ¬ Loose s.mem f r := by
  obtain ⟨hK, hl, hpte, hfree, hloose⟩ := h.pages.allocate ha
  have he : Evolves s.mem m' :=
    ⟨hK, fun _ _ _ => .inr (by rw [hpte]), hloose, allocateFrame_table ha, fun a _ => by rw [hpte]⟩
  refine ⟨⟨h.mem he, he⟩, hl, fun r hr => hr.notFree ?_⟩
  rw [hfree]
  exact List.mem_cons_self

theorem beside_link (hd : d ≠ 0) (hv : v < userPages) (hp : (m.pte (d, v)).perm.present = false) :
    Beside f m (m.enterFrame d f (v * 4096) perm) ∧
      ((m.enterFrame d f (v * 4096) perm).framesInfo f).references = ((m.framesInfo f).references + 1) % 65536 := by
  obtain ⟨-, hslot⟩ := user_slot (d := d) hv
  have hlink : m.enterFrame d f (v * 4096) perm = m.linkFrame d f (v * 4096) perm := by
    rw [Mem.enterFrame, hslot, hp]
    rfl
  rw [hlink, Mem.linkFrame, hslot]
  refine ⟨(beside_references _).trans (beside_setPte hd _), ?_⟩
  rw [Mem.setPte_info, Mem.setFrame_info, if_pos rfl]

/-- `map_frame` of a loose frame on a user page that is not present: one reference more. -/
theorem mapFrame_loose (hs : MapOk s) (hd : d ≠ 0) (hv : v < userPages)
    (hp : (userEntry s.mem d v).perm.present = false)
    (hl : Loose s.mem f r) (hr : r + 1 < 65536) (h : mapFrame d f (v * 4096) perm s = .ok () t) :
    Spared f s t ∧ Loose t.mem f (r + 1) := by
  obtain ⟨hown, -⟩ := user_slot (d := d) hv
  have hva : v * 4096 < kernelHeapStart := by
    simp only [userPages] at hv
    simp only [kernelHeapStart]
    omega
  have hset : Beside f s.mem (s.mem.setFrameVa f (v * 4096)) := beside_setFrame (.inr hva)
  obtain ⟨hsp, hl'⟩ := hset.spared hs hl
  have hrefs : ((s.mem.setFrameVa f (v * 4096)).framesInfo f).references = r :=
    (setFrameVa_references s.mem f (v * 4096) f).trans hl.references
  rw [hrefs] at hl'
  -- the end, once the page table is there
  have hend : ∀ {u : Kernel}, Spared f s u → Loose u.mem f r → (u.mem.table d (v / 1024)).isSome →
      userEntry u.mem d v = userEntry s.mem d v →
      Spared f s { u with mem := u.mem.enterFrame d f (v * 4096) perm } ∧
        Loose (u.mem.enterFrame d f (v * 4096) perm) f (r + 1) := by
    intro u hu hlu htab hsame
    have hpu : (u.mem.pte (d, v)).perm.present = false := by
      rw [← hsame, userEntry, if_pos htab] at hp
      exact hp
    obtain ⟨hB, hone⟩ : Beside f u.mem (u.mem.enterFrame d f (v * 4096) perm) ∧ _ := beside_link hd hv hpu
    obtain ⟨hsp, hlt⟩ := hB.spared hu.ok hlu
    rw [hone, hlu.references, Nat.mod_eq_of_lt hr] at hlt
    exact ⟨hu.trans hsp, hlt⟩
  rcases mapFrame_ok h with ⟨ht, rfl⟩ | ⟨hno, u, hc, rfl⟩
  · rw [hown, pdx_page] at ht
    exact hend hsp hl' ht rfl
  · rw [hown, pdx_page] at hno
    obtain ⟨-, htab, hsame⟩ := (mapOk_ready hsp.ok).heap.createPageTable hno hc
    unfold createPageTable at hc
    obtain ⟨ptr, k, hk, hc⟩ := ok_of_bind hc
    have hkeep := hsp.ok.kmalloc hk
    split at hc
    · obtain ⟨_, _, hc, -⟩ := ok_of_bind hc
      cases hc
    cases hc
    have hlk := hkeep.evolves.loose _ _ hl'
    obtain ⟨hlink, hlt⟩ := (beside_linkTable (s := k) (f := f) hd (v * 4096) ptr).spared hkeep.ok hlk
    have hrk : ((k.linkTable d (v * 4096) ptr).mem.framesInfo f).references = r := hlk.references
    rw [hrk] at hlt
    exact hend (hsp.trans ((keeps_spared hkeep f).trans hlink)) hlt htab (hsame d v hv)

/-- `unmap_frame` of a user page that holds a frame. -/
theorem unmapFrame_held (hv : v < userPages) (hm : (userEntry m d v).held = some f) :
    m.unmapFrame d (v * 4096) = (m.decrementReferences f).setPte (d, v) ⟨0, (m.pte (d, v)).perm.available⟩ := by
  obtain ⟨hown, hslot⟩ := user_slot (d := d) hv
  have htab : (m.table d (v / 1024)).isSome := by
    by_contra hno
    rw [userEntry, if_neg hno] at hm
    cases hm
  have hget : m.getFrameInfo d (v * 4096) = some f := by
    rw [userEntry, if_pos htab] at hm
    rw [Mem.getFrameInfo, hown, pdx_page, hslot, if_pos htab, hm]
  simp only [Mem.unmapFrame, hget, hslot]

/-- `unmap_frame` of a user page whose frame has other references. -/
theorem unmapFrame_loose (hs : MapOk s) (hd : d ≠ 0) (hv : v < userPages) (hm : (userEntry s.mem d v).held = some f)
    (hl : Loose s.mem f r) (h2 : 2 ≤ r) (hr : r < 65536) :
    Spared f s { s with mem := s.mem.unmapFrame d (v * 4096) } ∧ Loose (s.mem.unmapFrame d (v * 4096)) f (r - 1) := by
  have hdec : s.mem.decrementReferences f = s.mem.setFrame f { s.mem.framesInfo f with references := r - 1 } := by
    have hone : ((s.mem.framesInfo f).references + 65535) % 65536 = r - 1 := by
      rw [hl.references]
      omega
    simp only [Mem.decrementReferences, hone]
    rw [if_neg (by omega)]
  rw [unmapFrame_held hv hm, hdec]
  have hB : Beside f s.mem ((s.mem.setFrame f { s.mem.framesInfo f with references := r - 1 }).setPte (d, v)
      ⟨0, (s.mem.pte (d, v)).perm.available⟩) := (beside_references _).trans (beside_setPte hd _)
  obtain ⟨hsp, hlt⟩ := hB.spared hs hl
  rw [Mem.setPte_info, Mem.setFrame_info, if_pos rfl] at hlt
  exact ⟨hsp, hlt⟩

/-- `unmap_frame` of the only page of a frame. -/
theorem unmapFrame_last (hs : MapOk s) (hd : d ≠ 0) (hv : v < userPages) (hm : (userEntry s.mem d v).held = some f)
    (hl : Loose s.mem f 1) :
    Spared f s { s with mem := s.mem.unmapFrame d (v * 4096) } ∧
      (s.mem.unmapFrame d (v * 4096)).freeFrameList = f :: s.mem.freeFrameList := by
  rw [unmapFrame_held hv hm, decrement_last hl.references]
  have hfree := mapOk_freeFrame hs hl
  obtain ⟨hok, hloose⟩ := mapOk_setPte (v := v) hfree.ok hd ⟨0, (s.mem.pte (d, v)).perm.available⟩
  exact ⟨⟨hok, fun g r hg hl => hloose g r (hfree.loose g r hg hl)⟩, rfl⟩

/-- The entry of a user page after `unmap_frame`. -/
theorem unmapFrame_self (hv : v < userPages) (hm : (userEntry m d v).held = some f) :
    userEntry (m.unmapFrame d (v * 4096)) d v = ⟨0, (m.pte (d, v)).perm.available⟩ := by
  have htab : (m.table d (v / 1024)).isSome := by
    by_contra hno
    rw [userEntry, if_neg hno] at hm
    cases hm
  rw [userEntry, (Mem.unmapFrame_same m d _).1, if_pos htab, unmapFrame_held hv hm, Mem.setPte_pte, if_pos rfl]

theorem unmapFrame_user (hv : v < userPages) {e w : Nat} (hne : (e, w) ≠ (d, v)) :
    userEntry (m.unmapFrame d (v * 4096)) e w = userEntry m e w := by
  obtain ⟨-, hslot⟩ := user_slot (d := d) hv
  unfold userEntry
  rw [(Mem.unmapFrame_same m d _).1, unmapFrame_pte _ _ _ (by rwa [hslot])]

end LooseFrames

end Fos.Memory
