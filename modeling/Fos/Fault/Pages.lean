/-
What the pieces of the fault handler do to the user pages that are there for the CPU and to the lists of the
process. The calls of the kernel heap and of the page file change neither; mapping, unmapping and setting
permissions change one page.
-/
import Fos.Fault.Handler
import Fos.Memory.KernelReady
import Fos.Disk.Entries
import Fos.Disk.PageCode

namespace Fos.Fault

open Fos.Memory Fos.Heap Fos.Proc Fos.Disk Fos.Lib

/-! ## The state of a process -/

/-- What the handler finds of a process. -/
structure Ready (s : Machine) : Prop where
  kernel : KernelReady s.kernel
  dir : s.env.envPageDirectory ≠ 0
  ws : ∀ w ∈ s.env.pageWsList, w.virtualAddress < userTop
  active : ∀ w ∈ s.env.activeWorkingSet, w.virtualAddress < userTop

/-- Two states of a process with the same directory and the same lists. -/
structure Alike (e e' : Env) : Prop where
  dir : e'.envPageDirectory = e.envPageDirectory
  size : e'.pageWsMaxSize = e.pageWsMaxSize
  ws : e'.pageWsList = e.pageWsList
  last : e'.pageLastWsElement = e.pageLastWsElement
  active : e'.activeWorkingSet = e.activeWorkingSet
  stream : e'.referenceStreamList = e.referenceStreamList

/-- The pages there for the CPU, after page `p` of the process was made to be there or not. -/
structure Sets (p : Nat) (b : Bool) (s t : Machine) : Prop where
  ready : Ready t
  env : Alike s.env t.env
  shown : ∀ e v, v < userPages → shown t.mem e v = if e = s.env.envPageDirectory ∧ v = p then b else shown s.mem e v

/-- Nothing of it changed. -/
structure Unmoved (s t : Machine) : Prop where
  ready : Ready t
  env : Alike s.env t.env
  shown : ∀ e v, v < userPages → shown t.mem e v = shown s.mem e v

def Quiet (s t : Machine) : Prop := Ready s → Unmoved s t

section Pages

variable {s t u : Machine} {va p : Nat} {b : Bool}

/-- The kernel's directory has nothing at the page file's temporary address. -/
theorem Ready.unmap_pgfltemp (h : Ready s) : s.mem.unmapFrame 0 pgfltemp = s.mem := by
  have hnone : s.mem.table 0 (pdx pgfltemp) = none := h.kernel.lower _ (by decide)
  apply unmap_none
  rw [Mem.getFrameInfo, if_neg]
  rw [owner, ite_self, hnone]
  decide

theorem Alike.refl (e : Env) : Alike e e := ⟨rfl, rfl, rfl, rfl, rfl, rfl⟩

theorem Alike.trans {e e' e'' : Env} (h : Alike e e') (h' : Alike e' e'') : Alike e e'' :=
  ⟨h'.dir.trans h.dir, h'.size.trans h.size, h'.ws.trans h.ws, h'.last.trans h.last, h'.active.trans h.active,
    h'.stream.trans h.stream⟩

theorem Ready.alike (h : Ready s) (hk : KernelReady t.kernel) (he : Alike s.env t.env) : Ready t := by
  constructor
  · exact hk
  · exact he.dir ▸ h.dir
  · exact he.ws ▸ h.ws
  · exact he.active ▸ h.active

theorem Unmoved.refl (h : Ready s) : Unmoved s s := ⟨h, .refl _, fun _ _ _ => rfl⟩

theorem Unmoved.trans (h : Unmoved s t) (h' : Unmoved t u) : Unmoved s u :=
  ⟨h'.ready, h.env.trans h'.env, fun e v hv => (h'.shown e v hv).trans (h.shown e v hv)⟩

theorem Unmoved.sets (h : Unmoved s t) (h' : Sets p b t u) : Sets p b s u := by
  refine ⟨h'.ready, h.env.trans h'.env, fun e v hv => ?_⟩
  rw [h'.shown e v hv, h.env.dir, h.shown e v hv]

theorem Sets.unmoved (h : Sets p b s t) (h' : Unmoved t u) : Sets p b s u :=
  ⟨h'.ready, h.env.trans h'.env, fun e v hv => (h'.shown e v hv).trans (h.shown e v hv)⟩

theorem Sets.same (h : Sets p b s t) (hb : Fos.Memory.shown s.mem s.env.envPageDirectory p = b) : Unmoved s t := by
  refine ⟨h.ready, h.env, fun e v hv => ?_⟩
  rw [h.shown e v hv]
  split
  · rename_i hp
    rw [hp.1, hp.2, hb]
  · rfl

theorem Quiet.refl (s : Machine) : Quiet s s := Unmoved.refl

theorem Quiet.trans (h : Quiet s t) (h' : Quiet t u) : Quiet s u := fun hs => (h hs).trans (h' (h hs).ready)

/-! ## Code that changes nothing of it -/

theorem quiet_bind {α β : Type} {x : PM α} {f : α → PM β} (hx : Does Quiet x) (hf : ∀ a, Does Quiet (f a)) :
    Does Quiet (x >>= f) :=
  hx.bind Quiet.trans hf

theorem quiet_pure {α : Type} (a : α) : Does Quiet (pure a : PM α) := .pure Quiet.refl a

theorem quiet_get : Does Quiet (get : PM Machine) := .get Quiet.refl

theorem quiet_modifyEnv {g : Env → Env} (hg : ∀ e, Alike e (g e)) : Does Quiet (modifyEnv g) :=
  .modify fun s hs => ⟨hs.alike hs.kernel (hg s.env), hg s.env, fun _ _ _ => rfl⟩

theorem quiet_modifyPageFile (g : PageFile → PageFile) : Does Quiet (modifyPageFile g) :=
  .modify fun _ hs => ⟨hs.alike hs.kernel (.refl _), .refl _, fun _ _ _ => rfl⟩

/-- A check that stops the kernel. -/
theorem quiet_guard {α : Type} {c : Prop} [Decidable c] {e : Halt} {f : Unit → PM α} (hf : Does Quiet (f ())) :
    Does Quiet (if c then throw e >>= f else f ()) :=
  .guard (R := Quiet) Quiet.trans hf

/-- A call of the kernel that touches no user page. -/
theorem quiet_onKernel {α : Type} {x : KM α}
    (hx : ∀ {k a k'}, KernelReady k → x k = .ok a k' → KernelReady k' ∧
      ∀ e v, v < userPages → shown k'.mem e v = shown k.mem e v) :
    Does Quiet (onKernel x) := by
  intro s a t h hs
  obtain ⟨k, hk, rfl⟩ := onKernel_ok h
  obtain ⟨hr, hsh⟩ := hx hs.kernel hk
  exact ⟨hs.alike hr (.refl _), .refl _, hsh⟩

theorem quiet_kmalloc (size : Nat) : Does Quiet (onKernel (kmalloc size)) := by
  refine quiet_onKernel fun hk h => ?_
  obtain ⟨hr, hw⟩ := hk.kmalloc h
  exact ⟨hr, fun e v hv => shown_within hw hv⟩

theorem quiet_kfree (va : Nat) : Does Quiet (onKernel (kfree va)) := by
  refine quiet_onKernel fun hk h => ?_
  obtain ⟨hr, hw⟩ := hk.kfree h
  exact ⟨hr, fun e v hv => shown_within hw hv⟩

theorem quiet_allocateFrame : Does Quiet Proc.allocateFrame := by
  refine quiet_onKernel fun hk h => ?_
  obtain ⟨m, hm, rfl⟩ := onMem_ok h
  have hw := allocateFrame_within hm
  exact ⟨hk.within hw, fun e v hv => shown_within hw hv⟩

/-! ## One page -/

/-- A new entry for a user page whose table is there. -/
theorem sets_setPte (hs : Ready s) (hva : va < userTop) (q : Pte) (ht : s.hasTable va = true) :
    Sets (va / 4096) q.perm.present s (s.setMem (s.mem.setPte (slot s.env.envPageDirectory va) q)) := by
  obtain ⟨hv, hown, hslot, hpdx⟩ := user_address hva s.env.envPageDirectory
  rw [Machine.hasTable, hown, hpdx] at ht
  have hk : KernelReady { s.kernel with mem := s.mem.setPte (slot s.env.envPageDirectory va) q } := by
    have := hs.kernel.setPte hs.dir hv q
    rwa [(user_slot hv).2, ← hslot] at this
  refine ⟨hs.alike hk (.refl _), .refl _, fun e v _ => ?_⟩
  rw [Machine.setMem_mem, hslot]
  unfold shown userEntry
  by_cases hc : e = s.env.envPageDirectory ∧ v = va / 4096
  · obtain ⟨rfl, rfl⟩ := hc
    simp [ht]
  · rw [if_neg hc, Mem.setPte_table, Mem.setPte_pte, if_neg fun h => hc (Prod.mk.inj h)]

/-- The page is there after it was set `present`, not there after it was cleared, and as it was otherwise. -/
theorem ptSetPagePermissions_there (ht : s.hasTable va = true) (x y : Perm) :
    ptSetPagePermissions va x y s = .ok () (s.setMem (s.mem.setPte (slot s.env.envPageDirectory va)
      { s.pte va with perm := ((s.pte va).perm.union x).diff y })) := by
  have hm : s.mem.ptSetPagePermissions s.env.envPageDirectory va x y =
      .ok (s.mem.setPte (slot s.env.envPageDirectory va)
      { s.pte va with perm := ((s.pte va).perm.union x).diff y }) := if_pos ht
  unfold ptSetPagePermissions onKernel onMem
  simp only [show s.kernel.mem = s.mem from rfl, hm]
  rfl

theorem sets_permissions (hs : Ready s) (hva : va < userTop) {x y : Perm}
    (h : Proc.ptSetPagePermissions va x y s = .ok () t) :
    Sets (va / 4096) ((shown s.mem s.env.envPageDirectory (va / 4096) || x.present) && !y.present) s t := by
  obtain ⟨k, hk, rfl⟩ := onKernel_ok h
  obtain ⟨m, hm, rfl⟩ := onMem_ok hk
  obtain ⟨m', hm', hm⟩ := bind_ok hm
  cases hm
  unfold Mem.ptSetPagePermissions at hm'
  split at hm'
  · rename_i ht
    obtain rfl := Except.ok.inj hm'
    have hpte : (shown s.mem s.env.envPageDirectory (va / 4096)) = (s.pte va).perm.present := by
      obtain ⟨-, hown, hslot, hpdx⟩ := user_address hva s.env.envPageDirectory
      have ht' : (s.mem.table s.env.envPageDirectory (va / 4096 / 1024)).isSome := by
        rw [hown, hpdx] at ht
        exact ht
      rw [shown, userEntry, if_pos ht', Machine.pte, hslot]
    rw [hpte]
    exact sets_setPte hs hva { s.pte va with perm := ((s.pte va).perm.union x).diff y } ht
  · cases hm'

theorem quiet_permissions (hva : va < userTop) {x y : Perm} (hx : x.present = false) (hy : y.present = false) :
    Does Quiet (Proc.ptSetPagePermissions va x y) := by
  intro s _ t h hs
  refine (sets_permissions hs hva h).same ?_
  rw [hx, hy, Bool.or_false, Bool.not_false, Bool.and_true]

theorem present_eq (hva : va < userTop) : s.present va = shown s.mem s.env.envPageDirectory (va / 4096) := by
  obtain ⟨-, hown, hslot, hpdx⟩ := user_address hva s.env.envPageDirectory
  rw [Machine.present, Machine.hasTable, Machine.pte, hown, hslot, hpdx, shown, userEntry]
  split
  · rename_i ht
    rw [ht, Bool.true_and]
  · rename_i ht
    rw [Bool.not_eq_true] at ht
    rw [ht, Bool.false_and]

theorem quiet_storePage (hva : va < userTop) (g : Page → Page) : Does Quiet (storePage va g) := by
  intro s _ t h hs
  unfold storePage at h
  rw [get_bind] at h
  split at h
  · rename_i hp
    cases h
    have ht : s.hasTable va = true := (Bool.and_eq_true_iff.1 hp).1
    have hset := (sets_setPte hs hva
      { s.pte va with perm := { (s.pte va).perm with used := true, modified := true } } ht).same
      ((present_eq hva).symm.trans (hp.trans (Bool.and_eq_true_iff.1 hp).2.symm))
    exact ⟨⟨hset.ready.kernel, hs.dir, hs.ws, hs.active⟩, .refl _, hset.shown⟩
  · cases h

theorem sets_unmap (hs : Ready s) (hva : va < userTop) (h : unmapUserFrame va s = .ok () t) :
    Sets (va / 4096) false s t := by
  obtain ⟨hv, hown, hslot, hpdx⟩ := user_address hva s.env.envPageDirectory
  cases h
  have hk : KernelReady { s.kernel with mem := s.mem.unmapFrame s.env.envPageDirectory va } := by
    refine hs.kernel.mem (Mem.unmapFrame_same _ _ _).1 (unmapFrame_pte _ _ _ ?_)
    rw [hslot]
    exact fun hc => hs.dir (congrArg Prod.fst hc).symm
  refine ⟨hs.alike hk (.refl _), .refl _, fun e v _ => ?_⟩
  show shown (s.mem.unmapFrame s.env.envPageDirectory va) e v = _
  unfold shown userEntry
  rw [(Mem.unmapFrame_same s.mem s.env.envPageDirectory va).1]
  by_cases hc : e = s.env.envPageDirectory ∧ v = va / 4096
  · rw [if_pos hc, hc.1, hc.2, ← hslot]
    by_cases ht : (s.mem.table s.env.envPageDirectory (va / 4096 / 1024)).isSome = true
    · rw [if_pos ht]
      -- an entry without a frame is not present
      unfold Mem.unmapFrame
      split
      · rename_i hnone
        rw [Mem.getFrameInfo, hown, hpdx, if_pos ht] at hnone
        by_contra hp
        rw [Bool.not_eq_false] at hp
        rw [held_of_present hp] at hnone
        cases hnone
      · rw [Mem.setPte_pte, if_pos rfl]
        rfl
    · rw [if_neg ht]
  · rw [if_neg hc, unmapFrame_pte _ _ _ fun h => hc (Prod.mk.inj (h.trans hslot))]

theorem sets_map {f : Nat} {perm : Perm} (hs : Ready s) (hva : va < userTop) (hal : va % 4096 = 0)
    (h : mapUserFrame f va perm s = .ok () t) : Sets (va / 4096) true s t := by
  obtain ⟨hv, hown, hslot, hpdx⟩ := user_address hva s.env.envPageDirectory
  obtain ⟨k, hk, rfl⟩ := onKernel_ok h
  have hk' := hk
  rw [show va = va / 4096 * 4096 by omega] at hk
  obtain ⟨hr, hother⟩ := hs.kernel.mapFrame hs.dir hv hk
  refine ⟨hs.alike hr (.refl _), .refl _, fun e v hvu => ?_⟩
  by_cases hc : e = s.env.envPageDirectory ∧ v = va / 4096
  · obtain ⟨rfl, rfl⟩ := hc
    rw [if_pos ⟨rfl, rfl⟩]
    have htab : (k.mem.table s.env.envPageDirectory (va / 4096 / 1024)).isSome ∧
        (k.mem.pte (slot s.env.envPageDirectory va)).perm.present = true := by
      rcases mapFrame_ok hk' with ⟨ht, rfl⟩ | ⟨hno, u, hcr, rfl⟩
      · rw [hown, hpdx] at ht
        exact ⟨by rw [(Mem.enterFrame_same _ _ _ _ _).1]; exact ht, Mem.enterFrame_present _ _ _ _ _⟩
      · refine ⟨?_, Mem.enterFrame_present _ _ _ _ _⟩
        rw [(Mem.enterFrame_same _ _ _ _ _).1]
        rw [hown, hpdx] at hno
        rw [show va = va / 4096 * 4096 by omega] at hcr
        exact ((hs.kernel.mem (m := s.mem.setFrameVa f (va / 4096 * 4096)) rfl rfl).createPageTable hs.dir hno hcr).2.1
    show (userEntry k.mem _ _).perm.present = true
    rw [userEntry, if_pos htab.1, ← hslot]
    exact htab.2
  · rw [if_neg hc]
    show (userEntry k.mem e v).perm.present = _
    rw [hother e v hvu fun h => hc (Prod.mk.inj h)]
    rfl

end Pages

/-! ## The page file -/

section PageFile

variable {va : Nat}

theorem quiet_writeBack (hva : va < userTop) : Does Quiet (writeBack va) := by
  intro s _ t h hs
  unfold writeBack at h
  rw [get_bind] at h
  split at h
  · obtain ⟨_, _, h, -⟩ := ok_of_bind h
    cases h
  · rename_i ht
    have ht : s.hasTable va = true := by simpa using ht
    cases h
    have hset := (sets_setPte hs hva { s.pte va with perm := { (s.pte va).perm with modified := false } } ht).same
      (by rw [← present_eq hva, Machine.present, ht, Bool.true_and])
    exact ⟨⟨hset.ready.kernel, hs.dir, hs.ws, hs.active⟩, .refl _, hset.shown⟩

/-- The code of the page file changes nothing of it, for user pages. -/
theorem quietRule : PageRule (· < userTop) (Does Quiet) where
  pure := quiet_pure
  throw e _ := .throw e
  bind := quiet_bind
  get := quiet_get
  kmalloc := quiet_kmalloc pageSize
  pageFile := quiet_modifyPageFile
  disk g hg := quiet_modifyEnv fun e => by
    obtain ⟨dir, tables, pages, hge⟩ := hg e
    rw [hge]
    exact ⟨rfl, rfl, rfl, rfl, rfl, rfl⟩
  unmodified _ hva := quiet_permissions hva rfl rfl
  writeBack _ hva := quiet_writeBack hva
  store _ g hva := quiet_storePage hva g

theorem quiet_pfUpdateEnvPage (hva : va < userTop) : Does Quiet (pfUpdateEnvPage va) := quietRule.pfUpdateEnvPage hva

theorem roundDown_lt (hva : va < userTop) : roundDown va pageSize < userTop := by
  unfold roundDown
  omega

theorem roundDown_aligned (va : Nat) : roundDown va pageSize % 4096 = 0 := by
  unfold roundDown pageSize
  omega

theorem roundDown_div (va : Nat) : roundDown va pageSize / 4096 = va / 4096 := by
  unfold roundDown pageSize
  omega

theorem quiet_pfReadEnvPage (hva : va < userTop) : Does Quiet (pfReadEnvPage va) :=
  quietRule.pfReadEnvPage (roundDown_lt hva)

theorem quiet_envPageWsListCreateElement : Does Quiet (envPageWsListCreateElement va) := by
  unfold envPageWsListCreateElement
  exact quiet_guard (quiet_bind (quiet_kmalloc _) fun wse => quiet_guard (quiet_pure _))

theorem quiet_ptGetPagePermissions : Does Quiet (ptGetPagePermissions va) :=
  quiet_bind quiet_get fun _ => quiet_pure _

end PageFile

/-! ## A new page -/

section NewPage

variable {s t : Machine} {va : Nat} {perm : Perm} {o : Outcome}

/-- Whether it returns or the process exits, the page is there, and no other page came or went. -/
theorem placePage_sets (hs : Ready s) (hva : va < userTop) (hal : va % 4096 = 0) (h : placePage va perm s = .ok o t) :
    Sets (va / 4096) true s t := by
  unfold placePage at h
  obtain ⟨f, s₁, h1, h⟩ := ok_of_bind h
  have hu := quiet_allocateFrame _ _ _ h1 hs
  obtain ⟨_, s₂, h2, h⟩ := ok_of_bind h
  have hm := hu.sets (sets_map hu.ready hva hal h2)
  apply hm.unmoved
  refine (?_ : Does Quiet _) _ _ _ h hm.ready
  refine quiet_bind (quiet_pfReadEnvPage hva) fun r => .ite (quiet_pure _) (.ite (quiet_pure _) ?_)
  exact quiet_bind (quiet_storePage hva _) fun _ => quiet_pure _

end NewPage

/-! ## The handler -/

/-- What the handler did: a new page table, nothing because the pointer is invalid, or `page_fault_handler`. -/
inductive Handled (va : Nat) (tf : Trapframe) (s t : FaultState) : Outcome → Prop
  | table (hno : s.machine.mem.table s.machine.env.envPageDirectory (pdx va) = none)
      (h : tableFaultHandler va s.machine = .ok () t.machine) : Handled va tf s t .returns
  | invalid (ht : (s.machine.mem.table s.machine.env.envPageDirectory (pdx va)).isSome = true) (hu : tf.userTrap = true)
      (hm : t.machine = s.machine) : Handled va tf s t .exits
  | page {o : Outcome} (ht : (s.machine.mem.table s.machine.env.envPageDirectory (pdx va)).isSome = true)
      (hvalid : tf.userTrap = true → ∃ perms, ptGetPagePermissions va s.machine = .ok perms s.machine ∧
        invalidPointer va tf.write perms = false)
      (h : pageFaultHandler s.faults.pageRepAlgoType va s.machine = .ok o t.machine) : Handled va tf s t o

section Handled

variable {s t : FaultState} {va : Nat} {tf : Trapframe} {o : Outcome}

theorem onMachine_ok {α : Type} {x : PM α} {a : α} (h : onMachine x s = .ok a t) :
    x s.machine = .ok a t.machine ∧ t.faults = s.faults := by
  unfold onMachine at h
  split at h
  · rename_i hx
    cases h
    exact ⟨hx, rfl⟩
  · cases h

theorem countRepeatedFault_ok (h : countRepeatedFault va s = .ok () t) :
    t.machine = s.machine ∧ t.faults.pageRepAlgoType = s.faults.pageRepAlgoType := by
  unfold countRepeatedFault at h
  rw [get_bind] at h
  split at h
  · split at h
    · obtain ⟨_, _, h, -⟩ := ok_of_bind h
      cases h
    · cases h
      exact ⟨rfl, rfl⟩
  · cases h
    exact ⟨rfl, rfl⟩

theorem checkStacks_ok (h : checkStacks va tf s = .ok () t) : s = t := by
  have hpure : Does Eq (pure () : FM Unit) := .pure (fun _ => rfl) ()
  have hsame : Does Eq (checkStacks va tf) := by
    unfold checkStacks
    refine .bind Eq.trans (.get fun _ => rfl) fun _ => .ite (.ite (.throw _) hpure) ?_
    exact .guard (R := Eq) Eq.trans (.guard (R := Eq) Eq.trans (.ite (.throw _) hpure))
  exact hsame _ _ _ h

theorem ptGetPagePermissions_eq (va : Nat) (m : Machine) :
    ptGetPagePermissions va m =
      .ok (if m.hasTable va then (m.pte va).perm else ⟨true, true, true, true, true, true, true, true⟩) m := rfl

theorem faultHandler_ok (h : faultHandler va tf s = .ok o t) :
    Handled va tf s t o ∧ t.faults.pageRepAlgoType = s.faults.pageRepAlgoType := by
  unfold faultHandler at h
  obtain ⟨_, s₁, h1, hrest⟩ := ok_of_bind h
  obtain ⟨hm, ha⟩ := countRepeatedFault_ok h1
  obtain ⟨_, s₂, h2, h⟩ := ok_of_bind hrest
  rw [← checkStacks_ok h2, get_bind, hm] at h
  clear hrest
  split at h
  · rename_i hno
    obtain ⟨_, u, h3, h⟩ := ok_of_bind h
    obtain ⟨h3, hf⟩ := onMachine_ok h3
    cases h
    rw [hm] at h3
    exact ⟨.table (Option.isNone_iff_eq_none.1 hno) h3, hf ▸ ha⟩
  · rename_i hsome
    obtain ⟨perms, u, h3, h⟩ := ok_of_bind h
    obtain ⟨h3, hf⟩ := onMachine_ok h3
    rw [hm] at h3
    have hu : u.machine = s.machine := by
      rw [ptGetPagePermissions_eq] at h3
      exact (EStateM.Result.ok.inj h3).2.symm
    split at h
    · rename_i hbad
      cases h
      exact ⟨.invalid (Option.isSome_iff_ne_none.2 (by simpa using hsome)) (Bool.and_eq_true_iff.1 hbad).1 hu, hf ▸ ha⟩
    · rename_i hgood
      split at h
      · obtain ⟨_, _, h, -⟩ := ok_of_bind h
        cases h
      obtain ⟨_, _, hget, h⟩ := ok_of_bind (x := get) h
      cases hget
      split at h
      · obtain ⟨_, _, h, -⟩ := ok_of_bind h
        cases h
      obtain ⟨_, _, hget, h⟩ := ok_of_bind (x := get) h
      cases hget
      obtain ⟨h4, hf'⟩ := onMachine_ok h
      rw [hu, hf, ha] at h4
      refine ⟨
        .page (Option.isSome_iff_ne_none.2 (by simpa using hsome)) (fun htrap => ⟨perms, hu ▸ h3, ?_⟩) h4, by
          rw [hf', hf, ha]⟩
      rw [htrap, Bool.true_and, Bool.not_eq_true] at hgood
      exact hgood

/-- The new page table is that of the page of the address. -/
theorem tableFaultHandler_ok {m m' : Machine} (h : tableFaultHandler va m = .ok () m') :
    pdx va = va / 4096 / 1024 ∧
      ∃ k, createPageTable m.env.envPageDirectory (va / 4096 * 4096) m.kernel = .ok () k ∧
        m' = { m with kernel := k } := by
  obtain ⟨k, hk, rfl⟩ := onKernel_ok h
  have halign : createPageTable m.env.envPageDirectory va =
      createPageTable m.env.envPageDirectory (va / 4096 * 4096) := by
    unfold createPageTable Kernel.linkTable
    rw [show pdx (va / 4096 * 4096) = pdx va by unfold pdx; omega]
  refine ⟨?_, k, halign ▸ hk, rfl⟩
  unfold pdx
  omega

theorem quiet_tableFaultHandler {m m' : Machine} (hs : Ready m)
    (hno : m.mem.table m.env.envPageDirectory (pdx va) = none) (h : tableFaultHandler va m = .ok () m') :
      Unmoved m m' := by
  obtain ⟨hpdx, k, hk, rfl⟩ := tableFaultHandler_ok h
  obtain ⟨hr, -, hsame⟩ := hs.kernel.createPageTable hs.dir (hpdx ▸ hno) hk
  exact ⟨hs.alike hr (.refl _), .refl _, fun e v hv => congrArg (·.perm.present) (hsame e v hv)⟩

end Handled

end Fos.Fault
