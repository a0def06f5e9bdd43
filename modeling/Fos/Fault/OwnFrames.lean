/-
The frames behind the pages of a process: pages that hold frames of their own keep them whatever the fault handler
does to other pages, a page that goes gives its frame back, and a page that comes gets a new one.
-/
import Fos.Fault.Pages
import Fos.Memory.LooseFrames

namespace Fos.Fault

open Fos.Memory Fos.Heap Fos.Proc Fos.Disk Fos.Lib

/-! ## Frames of their own -/

/-- The entry of page `v` of the process. -/
def entryOf (s : Machine) (v : Nat) : Pte := userEntry s.mem s.env.envPageDirectory v

/-- The kernel heap is in order, no page is buffered, and the frames that the pages of `P` hold are referenced once,
each by its page. -/
structure OwnFrames (P : Nat → Prop) (s : Machine) : Prop where
  heap : MapOk s.kernel
  plain : ∀ v < userPages, (entryOf s v).perm.buffered = false
  user : ∀ v, P v → v < userPages
  loose : ∀ v, P v → ∀ f, (entryOf s v).held = some f → Loose s.mem f 1
  inj : ∀ v w, P v → P w → ∀ f, (entryOf s v).held = some f → (entryOf s w).held = some f → v = w

/-- Two entries that hold the same frame. -/
structure SameHold (e e' : Pte) : Prop where
  frame : e'.frame = e.frame
  present : e'.perm.present = e.perm.present
  buffered : e'.perm.buffered = e.perm.buffered

/-- The heap is in order, what was loose is, and the user pages hold the frames they held. -/
structure FramesKept (s t : Machine) : Prop where
  heap : MapOk t.kernel
  dir : t.env.envPageDirectory = s.env.envPageDirectory
  loose : ∀ g r, Loose s.mem g r → Loose t.mem g r
  entries : ∀ v < userPages, SameHold (entryOf s v) (entryOf t v)

def KeepsFrames (s t : Machine) : Prop := s.env.envPageDirectory ≠ 0 → MapOk s.kernel → FramesKept s t

section OwnFrames

variable {P Q : Nat → Prop} {s t u : Machine} {va : Nat}

theorem SameHold.refl (e : Pte) : SameHold e e := ⟨rfl, rfl, rfl⟩

theorem SameHold.trans {e e' e'' : Pte} (h : SameHold e e') (h' : SameHold e' e'') : SameHold e e'' :=
  ⟨h'.frame.trans h.frame, h'.present.trans h.present, h'.buffered.trans h.buffered⟩

theorem SameHold.held {e e' : Pte} (h : SameHold e e') : e'.held = e.held := by
  rw [Pte.held, h.frame, h.present, h.buffered, Pte.held]

theorem FramesKept.refl (h : MapOk s.kernel) : FramesKept s s := ⟨h, rfl, fun _ _ hl => hl, fun _ _ => .refl _⟩

theorem FramesKept.trans (h : FramesKept s t) (h' : FramesKept t u) : FramesKept s u :=
  ⟨h'.heap, h'.dir.trans h.dir, fun g r hl => h'.loose g r (h.loose g r hl),
    fun v hv => (h.entries v hv).trans (h'.entries v hv)⟩

theorem KeepsFrames.refl (s : Machine) : KeepsFrames s s := fun _ h => .refl h

theorem KeepsFrames.trans (h : KeepsFrames s t) (h' : KeepsFrames t u) : KeepsFrames s u := fun hd hs =>
  (h hd hs).trans (h' ((h hd hs).dir.symm ▸ hd) (h hd hs).heap)

theorem OwnFrames.mono (h : OwnFrames P s) (hQ : ∀ v, Q v → P v) : OwnFrames Q s :=
  ⟨h.heap, h.plain, fun v hv => h.user v (hQ v hv), fun v hv => h.loose v (hQ v hv),
    fun v w hv hw => h.inj v w (hQ v hv) (hQ w hw)⟩

theorem OwnFrames.kept (h : OwnFrames P s) (hk : FramesKept s t) : OwnFrames P t := by
  have hheld : ∀ v, P v → (entryOf t v).held = (entryOf s v).held := fun v hv => (hk.entries v (h.user v hv)).held
  refine ⟨hk.heap, fun v hv => ?_, h.user, fun v hv f hf => ?_, fun v w hv hw f hf hf' => ?_⟩
  · exact (hk.entries v hv).buffered.trans (h.plain v hv)
  · rw [hheld v hv] at hf
    exact hk.loose f 1 (h.loose v hv f hf)
  · rw [hheld v hv] at hf
    rw [hheld w hw] at hf'
    exact h.inj v w hv hw f hf hf'

/-! ## Code that keeps the frames -/

theorem frames_bind {α β : Type} {x : PM α} {f : α → PM β} (hx : Does KeepsFrames x)
    (hf : ∀ a, Does KeepsFrames (f a)) :
    Does KeepsFrames (x >>= f) :=
  hx.bind KeepsFrames.trans hf

theorem frames_pure {α : Type} (a : α) : Does KeepsFrames (pure a : PM α) := .pure KeepsFrames.refl a

/-- A call of the kernel heap. -/
theorem frames_onKernel {α : Type} {x : KM α} (hx : ∀ {k a k'}, MapOk k → x k = .ok a k' → Keeps k k') :
    Does KeepsFrames (onKernel x) := by
  intro s a t h _ hs
  obtain ⟨k, hk, rfl⟩ := onKernel_ok h
  have hkeep := hx hs hk
  refine ⟨hkeep.ok, rfl, hkeep.evolves.loose, fun v hv => ?_⟩
  rw [show entryOf { s with kernel := k } v = entryOf s v from keeps_user hkeep hv]
  exact .refl _

/-- Another entry for a user page that holds the same frame. -/
theorem frames_setPte (hd : s.env.envPageDirectory ≠ 0) (hs : MapOk s.kernel) (hva : va < userTop) (q : Pte)
    (hq : SameHold (s.pte va) q) (frames : Nat → Page) (pageFile : PageFile) :
    FramesKept s { s.setMem (s.mem.setPte (slot s.env.envPageDirectory va) q) with frames, pageFile } := by
  obtain ⟨-, -, hslot, -⟩ := user_address hva s.env.envPageDirectory
  rw [hslot]
  obtain ⟨hok, hloose⟩ := mapOk_setPte (v := va / 4096) hs hd q
  refine ⟨hok, rfl, hloose, fun v _ => ?_⟩
  show SameHold (userEntry s.mem _ v) (userEntry (s.mem.setPte (s.env.envPageDirectory, va / 4096) q) _ v)
  unfold userEntry
  rw [Mem.setPte_table, Mem.setPte_pte]
  by_cases ht : (s.mem.table s.env.envPageDirectory (v / 1024)).isSome = true
  · rw [if_pos ht]
    show SameHold _ (if (s.mem.table s.env.envPageDirectory (v / 1024)).isSome = true then _ else _)
    rw [if_pos ht]
    split
    · rename_i he
      obtain rfl := (Prod.mk.inj he).2
      rw [Machine.pte, hslot] at hq
      exact hq
    · exact .refl _
  · rw [if_neg ht]
    show SameHold _ (if (s.mem.table s.env.envPageDirectory (v / 1024)).isSome = true then _ else _)
    rw [if_neg ht]
    exact .refl _

theorem frames_permissions (hva : va < userTop) {x y : Perm} (hx : x.present = false ∧ x.buffered = false)
    (hy : y.present = false ∧ y.buffered = false) : Does KeepsFrames (ptSetPagePermissions va x y) := by
  intro s _ t h hd hs
  by_cases ht : s.hasTable va = true
  · rw [ptSetPagePermissions_there ht] at h
    obtain rfl := (EStateM.Result.ok.inj h).2
    have hq : SameHold (s.pte va) { s.pte va with perm := ((s.pte va).perm.union x).diff y } := by
      refine ⟨rfl, ?_, ?_⟩
      · simp [hx.1, hy.1]
      · simp [hx.2, hy.2]
    exact frames_setPte hd hs hva _ hq s.frames s.pageFile
  · obtain ⟨k, hk, -⟩ := onKernel_ok h
    obtain ⟨m, hm, -⟩ := onMem_ok hk
    obtain ⟨m', hm', -⟩ := bind_ok hm
    unfold Mem.ptSetPagePermissions at hm'
    split at hm'
    · rename_i hsome
      exact absurd hsome ht
    · cases hm'

theorem frames_storePage (hva : va < userTop) (g : Page → Page) : Does KeepsFrames (storePage va g) := by
  intro s _ t h hd hs
  unfold storePage at h
  rw [get_bind] at h
  split at h
  · cases h
    exact frames_setPte hd hs hva { s.pte va with perm := { (s.pte va).perm with used := true, modified := true } }
      ⟨rfl, rfl, rfl⟩ _ s.pageFile
  · cases h

theorem frames_writeBack (hva : va < userTop) : Does KeepsFrames (writeBack va) := by
  intro s _ t h hd hs
  unfold writeBack at h
  rw [get_bind] at h
  split at h
  · obtain ⟨_, _, h, -⟩ := ok_of_bind h
    cases h
  · cases h
    exact frames_setPte hd hs hva { s.pte va with perm := { (s.pte va).perm with modified := false } } ⟨rfl, rfl, rfl⟩
      s.frames _

theorem frames_modifyEnv {g : Env → Env} (hg : ∀ e, (g e).envPageDirectory = e.envPageDirectory) :
    Does KeepsFrames (modifyEnv g) := by
  refine .modify fun s _ hs => ⟨hs, hg s.env, fun _ _ hl => hl, fun v _ => ?_⟩
  show SameHold (entryOf s v) (userEntry s.mem (g s.env).envPageDirectory v)
  rw [hg s.env]
  exact .refl _

/-- The code of the page file, for user pages. -/
theorem framesRule : PageRule (· < userTop) (Does KeepsFrames) where
  pure := frames_pure
  throw e _ := .throw e
  bind := frames_bind
  get := .get KeepsFrames.refl
  kmalloc := frames_onKernel fun hk h => hk.kmalloc h
  pageFile g := .modify fun _ _ hs => ⟨hs, rfl, fun _ _ hl => hl, fun _ _ => .refl _⟩
  disk g hg := frames_modifyEnv fun e => by
    obtain ⟨dir, tables, pages, hge⟩ := hg e
    rw [hge]
  unmodified _ hva := frames_permissions hva ⟨rfl, rfl⟩ ⟨rfl, rfl⟩
  writeBack _ hva := frames_writeBack hva
  store _ g hva := frames_storePage hva g

/-! ## A page goes, a page comes -/

/-- `get_frame_info` of an address of a process. -/
theorem getFrameInfo_user (m : Mem) (d : Nat) (hva : va < userTop) :
    m.getFrameInfo d va = (userEntry m d (va / 4096)).held := by
  obtain ⟨-, hown, hslot, hpdx⟩ := user_address hva d
  rw [Mem.getFrameInfo, hown, hslot, hpdx, userEntry]
  split <;> rfl

theorem unmapFrame_page (m : Mem) (d : Nat) (hva : va < userTop) :
    m.unmapFrame d va = m.unmapFrame d (va / 4096 * 4096) := by
  obtain ⟨hv, -, hslot, -⟩ := user_address hva d
  have hva' : va / 4096 * 4096 < userTop := by omega
  have hdiv : va / 4096 * 4096 / 4096 = va / 4096 := by omega
  unfold Mem.unmapFrame
  rw [getFrameInfo_user m d hva, getFrameInfo_user m d hva', hdiv, hslot, (user_slot hv).2]

/-- One page changes: the others keep their frames, and if it holds one, no other page has that. -/
theorem OwnFrames.change {v : Nat} (h : OwnFrames P s) (hv : v < userPages) (hok : MapOk t.kernel)
    (hother : ∀ w < userPages, w ≠ v → entryOf t w = entryOf s w) (hplain : (entryOf t v).perm.buffered = false)
    (hloose : ∀ w, P w → w ≠ v → ∀ g, (entryOf s w).held = some g → Loose t.mem g 1)
    (hself : ∀ g, (entryOf t v).held = some g → Loose t.mem g 1 ∧ ∀ w, P w → w ≠ v → (entryOf s w).held ≠ some g) :
    OwnFrames (fun w => P w ∨ w = v) t := by
  have hin : ∀ w, P w ∨ w = v → w ≠ v → P w := fun w hw hne => hw.resolve_right hne
  have hsame : ∀ w, P w ∨ w = v → w ≠ v → entryOf t w = entryOf s w := fun w hw hne =>
    hother w (h.user w (hin w hw hne)) hne
  refine ⟨hok, fun w hw => ?_, fun w hw => ?_, fun w hw g hg => ?_, fun w w' hw hw' g hg hg' => ?_⟩
  · by_cases hwv : w = v
    · rw [hwv, hplain]
    · rw [hother w hw hwv, h.plain w hw]
  · exact hw.elim (h.user w) fun he => he ▸ hv
  · by_cases hwv : w = v
    · exact (hself g (hwv ▸ hg)).1
    · rw [hsame w hw hwv] at hg
      exact hloose w (hin w hw hwv) hwv g hg
  · by_cases hwv : w = v <;> by_cases hwv' : w' = v
    · rw [hwv, hwv']
    · rw [hsame w' hw' hwv'] at hg'
      exact absurd hg' ((hself g (hwv ▸ hg)).2 w' (hin w' hw' hwv') hwv')
    · rw [hsame w hw hwv] at hg
      exact absurd hg ((hself g (hwv' ▸ hg')).2 w (hin w hw hwv) hwv)
    · rw [hsame w hw hwv] at hg
      rw [hsame w' hw' hwv'] at hg'
      exact h.inj w w' (hin w hw hwv) (hin w' hw' hwv') g hg hg'

/-- The page's frame is free again, and the other pages keep theirs. -/
theorem OwnFrames.unmap (h : OwnFrames P s) (hd : s.env.envPageDirectory ≠ 0) (hva : va < userTop) (hp : P (va / 4096))
    (hr : unmapUserFrame va s = .ok () t) : OwnFrames P t := by
  cases hr
  have hv := (user_address hva 0).1
  show OwnFrames P (s.setMem (s.mem.unmapFrame s.env.envPageDirectory va))
  cases hm : (entryOf s (va / 4096)).held with
  | none =>
    have hnone : s.mem.getFrameInfo s.env.envPageDirectory va = none := (getFrameInfo_user _ _ hva).trans hm
    rw [unmap_none hnone]
    exact h
  | some f =>
    obtain ⟨hsp, -⟩ := unmapFrame_last h.heap hd hv hm (h.loose _ hp f hm)
    have hself : userEntry (s.mem.unmapFrame s.env.envPageDirectory (va / 4096 * 4096)) s.env.envPageDirectory
        (va / 4096) =
        ⟨0, (s.mem.pte (s.env.envPageDirectory, va / 4096)).perm.available⟩ := unmapFrame_self hv hm
    have hplain : (s.mem.pte (s.env.envPageDirectory, va / 4096)).perm.buffered = false := by
      have hbuf := h.plain _ hv
      rw [entryOf, userEntry] at hbuf hm
      split at hbuf
      · exact hbuf
      · rename_i hno
        rw [if_neg hno] at hm
        cases hm
    rw [unmapFrame_page _ _ hva]
    refine (h.change hv hsp.ok (fun w _ hne => ?_) ?_ (fun w hw hne g hg => ?_) fun g hg => ?_).mono fun w => .inl
    · exact unmapFrame_user hv fun hc => hne (Prod.mk.inj hc).2
    · exact (congrArg (·.perm.buffered) hself).trans hplain
    · exact hsp.loose g 1 (fun hc => hne (h.inj w _ hw hp f (hc ▸ hg) hm)) (h.loose w hw g hg)
    · have hnone : (userEntry (s.mem.unmapFrame s.env.envPageDirectory (va / 4096 * 4096)) s.env.envPageDirectory
          (va / 4096)).held = none := by rw [hself, held_cleared hplain]
      cases hnone.symm.trans hg

/-- The page gets a new frame. -/
theorem OwnFrames.place {perm : Perm} {o : Outcome} (h : OwnFrames P s) (hs : Ready s) (hva : va < userTop)
    (hal : va % 4096 = 0) (habsent : shown s.mem s.env.envPageDirectory (va / 4096) = false)
    (hperm : perm.buffered = false) (hr : placePage va perm s = .ok o t) :
    OwnFrames (fun v => P v ∨ v = va / 4096) t := by
  have hd := hs.dir
  have hv := (user_address hva 0).1
  have hpage : va = va / 4096 * 4096 := by omega
  unfold placePage at hr
  obtain ⟨f, s₁, h1, hr⟩ := ok_of_bind hr
  obtain ⟨k, hk, rfl⟩ := onKernel_ok h1
  obtain ⟨m, ha, rfl⟩ := onMem_ok hk
  obtain ⟨hkeep, hl, hnew⟩ := mapOk_allocate h.heap ha
  have hk₁ : FramesKept s { s with kernel := { s.kernel with mem := m } } :=
    ⟨hkeep.ok, rfl, hkeep.evolves.loose, fun w hw => by
      rw [show entryOf { s with kernel := { s.kernel with mem := m } } w = entryOf s w from keeps_user hkeep hw]
      exact .refl _⟩
  have h₁ := h.kept hk₁
  have hfree : ∀ w, P w → (entryOf { s with kernel := { s.kernel with mem := m } } w).held ≠ some f := by
    intro w hw hc
    rw [(hk₁.entries w (h.user w hw)).held] at hc
    exact hnew 1 (h.loose w hw f hc)
  have hnone : (userEntry m s.env.envPageDirectory (va / 4096)).perm.present = false :=
    (hk₁.entries _ hv).present.trans habsent
  obtain ⟨_, s₂, h2, hr⟩ := ok_of_bind hr
  obtain ⟨k, hmap, rfl⟩ := onKernel_ok h2
  dsimp only at hmap
  rw [hpage] at hmap
  -- the new frame has one reference, that of the page
  obtain ⟨hsp, hlk⟩ := mapFrame_loose hkeep.ok hd hv hnone hl (by decide) hmap
  obtain ⟨-, hself, hother⟩ := mapFrame_user hv (mapOk_ready hkeep.ok).heap hnone hmap
  have hheld : (userEntry k.mem s.env.envPageDirectory (va / 4096)).held = some f := by
    rw [hself, held_of_present (by simp [Pte.linked, Perm.permPresent])]
    rfl
  have h₂ : OwnFrames (fun v => P v ∨ v = va / 4096) { s with kernel := k } := by
    refine h₁.change hv hsp.ok (fun w hw hne => ?_) ?_ (fun w hw _ g hg => ?_) fun g hg => ?_
    · exact hother _ w hw fun hc => hne (Prod.mk.inj hc).2
    · have hbuf : (userEntry m s.env.envPageDirectory (va / 4096)).perm.buffered = false := h₁.plain _ hv
      refine (congrArg (·.perm.buffered) hself).trans ?_
      simp [Pte.linked, hbuf, hperm, Perm.permPresent]
    · exact hsp.loose g 1 (fun hc => hfree w hw (hc ▸ hg)) (h₁.loose w hw g hg)
    · obtain rfl : f = g := Option.some.inj (hheld.symm.trans hg)
      exact ⟨hlk, fun w hw _ => hfree w hw⟩
  refine h₂.kept ((?_ : Does KeepsFrames _) _ _ _ hr hd h₂.heap)
  have hrd : roundDown va pageSize < userTop := roundDown_lt hva
  refine frames_bind (framesRule.pfReadEnvPage hrd) fun b => .ite (frames_pure _) (.ite (frames_pure _) ?_)
  exact frames_bind (frames_storePage hva _) fun _ => frames_pure _

/-! ## Placement and page tables -/

theorem frames_envPageWsListCreateElement : Does KeepsFrames (envPageWsListCreateElement va) := by
  unfold envPageWsListCreateElement
  refine .guard (R := KeepsFrames) KeepsFrames.trans (frames_bind
    (frames_onKernel fun hk h => hk.kmalloc h) fun wse => ?_)
  exact .guard (R := KeepsFrames) KeepsFrames.trans (frames_pure _)

/-- The page gets a new frame, and an element. -/
theorem OwnFrames.placed {o : Outcome} (h : OwnFrames P s) (hs : Ready s) (hva : va < userTop) (hal : va % 4096 = 0)
    (habsent : shown s.mem s.env.envPageDirectory (va / 4096) = false) (hr : placement va s = .ok o t) :
    OwnFrames (fun v => P v ∨ v = va / 4096) t := by
  unfold placement at hr
  obtain ⟨o', u, h1, hr⟩ := ok_of_bind hr
  have hu := h.place hs hva hal habsent rfl h1
  refine hu.kept ((?_ : Does KeepsFrames _) _ _ _ hr (placePage_sets hs hva hal h1).ready.dir hu.heap)
  cases o' with
  | exits => exact frames_pure _
  | returns =>
    refine frames_bind frames_envPageWsListCreateElement fun w =>
      frames_bind (frames_modifyEnv fun _ => rfl) fun _ => ?_
    refine frames_bind (frames_modifyEnv fun e => ?_) fun _ => frames_pure _
    split <;> rfl

/-- A new page table has no pages. -/
theorem frames_tableFaultHandler (hd : s.env.envPageDirectory ≠ 0) (hs : MapOk s.kernel)
    (hno : s.mem.table s.env.envPageDirectory (pdx va) = none) (h : tableFaultHandler va s = .ok () t) :
      FramesKept s t := by
  obtain ⟨hpdx, k, hk, rfl⟩ := tableFaultHandler_ok h
  obtain ⟨-, -, hsame⟩ := (mapOk_ready hs).heap.createPageTable (hpdx ▸ hno) hk
  have hentries : ∀ v < userPages, SameHold (entryOf s v) (entryOf { s with kernel := k } v) := by
    intro v hv
    rw [show entryOf { s with kernel := k } v = entryOf s v from hsame _ v hv]
    exact .refl _
  unfold createPageTable at hk
  obtain ⟨ptr, k', hk', hk⟩ := ok_of_bind hk
  have hkeep := hs.kmalloc hk'
  split at hk
  · obtain ⟨_, _, hk, -⟩ := ok_of_bind hk
    cases hk
  cases hk
  obtain ⟨hok, hloose⟩ := mapOk_beside hkeep.ok fun f => beside_linkTable (s := k') (f := f) hd (va / 4096 * 4096) ptr
  exact ⟨hok, rfl, fun g r hl => hloose g r (hkeep.evolves.loose g r hl), hentries⟩

end OwnFrames

end Fos.Fault
