/-
Demand paging as the process sees it. Under the clock, aging and the modified clock its pages come and go, but each
byte it reads is the one it wrote there last: the machine, seen through the cells of the pages, is a flat memory.
-/
import Fos.Disk.PageFileRun
import Fos.Fault.Contents
import Fos.Fault.WorkingSet

namespace Fos.Fault

open Fos.Memory Fos.Heap Fos.Proc Fos.Disk Fos.Lib

/-! ## A flat memory -/

/-- The byte that an access to `va` finds. -/
def byteAt (s : Machine) (va : Nat) : UInt8 := s.frames (s.pte va).frame (va % 4096)

/-- Memory once byte `b` is written at `va`. -/
def withByte (s : Machine) (va : Nat) (b : UInt8) : Nat → Page :=
  Function.update s.frames (s.pte va).frame (Function.update (s.frames (s.pte va).frame) (va % 4096) b)

/-- The page file is in order and has what `m` says, a page of `L` that is there unmodified has its contents in the page
file too, and what the process sees of the pages of `L` is the flat memory. -/
def Reflects (env : Nat → Env) (e : Nat) (L : Nat → Prop) (m : DiskMap) (flat : Nat → UInt8) (s : Machine) : Prop :=
  Represents env e m s ∧ ∀ v, L v → m (e, v) ≠ some none ∧ (cellOf m e s v).Coherent zeroPage ∧
    ∀ j < 4096, (cellOf m e s v).seen zeroPage j = flat (v * 4096 + j)

/-- What the process sees of the pages of `L` is the flat memory. -/
def Mirrors (env : Nat → Env) (e : Nat) (L : Nat → Prop) (flat : Nat → UInt8) (s : Machine) : Prop :=
  ∃ m, Reflects env e L m flat s

section Mirrors

variable {env : Nat → Env} {e va : Nat} {L : Nat → Prop} {m m' : DiskMap} {flat : Nat →
    UInt8} {s t : Machine} {b : UInt8}
variable {victim : WorkingSetElement} {algo : PageRepAlgo}

theorem Carries.reflects (h : Carries env e L m s m' t) (hm : Reflects env e L m flat s) :
    Reflects env e L m' flat t := by
  refine ⟨h.represents, fun v hv => ?_⟩
  obtain ⟨hknown, hcoherent, hseen⟩ := hm.2 v hv
  obtain ⟨hcoherent', hsame⟩ := h.cells v hv hcoherent
  exact ⟨h.known v hknown, hcoherent', fun j hj => (congrFun hsame j).trans (hseen j hj)⟩

/-- A page that is there has the bytes of the flat memory. -/
theorem Reflects.byteAt (h : Reflects env e L m flat s) (hva : va < userTop) (hin : L (va / 4096))
    (hp : s.present va = true) :
    Fault.byteAt s va = flat va := by
  obtain ⟨hpte, hpres⟩ := pte_of_present hva hp
  have hbyte := (h.2 _ hin).2.2 (va % 4096) (Nat.mod_lt _ (by decide))
  rw [WriteBack.seen_held (held_of_shown hpres), Nat.div_add_mod'] at hbyte
  rw [Fault.byteAt, hpte]
  exact hbyte

/-! ## Accesses -/

theorem represents_accessed (h : Represents env e m s) (hva : va < userTop) (write : Bool) (frames : Nat → Page) :
    Represents env e m (accessed s va write frames) :=
  (h.setUserPte hva _).withFrames frames

/-- The entries after an access. -/
theorem accessed_entry (hva : va < userTop) (hp : s.present va = true) (write : Bool) (frames : Nat → Page)
    (v : Nat) :
    entryOf (accessed s va write frames) v = if v = va / 4096 then
      { entryOf s v with perm := { (entryOf s v).perm with used := true, modified :=
      (entryOf s v).perm.modified || write } }
      else entryOf s v := by
  obtain ⟨-, hown, hslot, hpdx⟩ := user_address hva s.env.envPageDirectory
  have ht := (Bool.and_eq_true_iff.1 hp).1
  have hpte := pte_entry hva ht
  rw [Machine.hasTable, hown, hpdx] at ht
  have hq : accessed s va write frames = { s.setMem (s.mem.setPte (s.env.envPageDirectory, va / 4096)
      { entryOf s (va / 4096) with perm := { (entryOf s (va / 4096)).perm with
        used := true, modified := (entryOf s (va / 4096)).perm.modified || write } }) with frames := frames } := by
    rw [accessed, hslot, hpte]
  rw [hq]
  show userEntry (s.mem.setPte (s.env.envPageDirectory, va / 4096) _) s.env.envPageDirectory v = _
  by_cases hv : v = va / 4096
  · subst hv
    rw [if_pos rfl, userEntry, Mem.setPte_table, if_pos ht, Mem.setPte_pte, if_pos rfl]
  · rw [if_neg hv, userEntry, Mem.setPte_table, Mem.setPte_pte, if_neg fun hc => hv (Prod.mk.inj hc).2]
    rfl

/-- A read is not seen. -/
theorem Reflects.read (h : Reflects env e L m flat s) (hva : va < userTop) (hp : s.present va = true) :
    Reflects env e L m flat (accessed s va false s.frames) := by
  refine Carries.reflects (carries_same (represents_accessed h.1 hva _ _) fun v _ => ?_) h
  unfold cellOf
  rw [accessed_entry hva hp]
  split
  · rw [Bool.or_false]
    rfl
  · rfl

theorem flat_update (hlt : va % 4096 < 4096) (v j : Nat) (hj : j < 4096) :
    Function.update flat va b (v * 4096 + j) = if v = va / 4096 ∧ j = va % 4096 then b else flat (v * 4096 + j) := by
  rw [Function.update_apply]
  refine if_congr ?_ rfl rfl
  omega

/-- A write is one of the flat memory, since the frame of the page is that of no other page. -/
theorem Reflects.write {P : Nat → Prop} (h : Reflects env e L m flat s) (ho : OwnFrames P s)
    (hLP : ∀ v, L v → (entryOf s v).perm.present = true → P v) (hva : va < userTop) (hin : L (va / 4096))
    (hp : s.present va = true) : Reflects env e L m (Function.update flat va b)
    (accessed s va true (withByte s va b)) := by
  obtain ⟨hR, hm⟩ := h
  obtain ⟨hpte, hpres⟩ := pte_of_present hva hp
  refine ⟨represents_accessed hR hva _ _, fun v hv => ⟨(hm v hv).1, ?_⟩⟩
  obtain ⟨-, hcoherent, hseen⟩ := hm v hv
  by_cases hvp : v = va / 4096
  · subst hvp
    have hentry := accessed_entry hva hp true (withByte s va b) (va / 4096)
    rw [if_pos rfl] at hentry
    have hheld : (cellOf m e (accessed s va true (withByte s va b)) (va / 4096)).held =
        some (Function.update (s.frames (entryOf s (va / 4096)).frame) (va % 4096) b) := by
      rw [held_of_shown (by rw [hentry]; exact hpres), hentry]
      show some (withByte s va b (entryOf s (va / 4096)).frame) = _
      rw [withByte, hpte, Function.update_self]
    refine ⟨WriteBack.coherent_write ?_, fun j hj => ?_⟩
    · show (entryOf (accessed s va true (withByte s va b)) (va / 4096)).perm.modified = true
      rw [hentry]
      exact Bool.or_true _
    · have hold := hseen j hj
      rw [WriteBack.seen_held (held_of_shown hpres)] at hold
      rw [WriteBack.seen_held hheld, flat_update (Nat.mod_lt _ (by decide)) _ _ hj, Function.update_apply, hold]
      simp only [true_and]
  · have hcell : cellOf m e (accessed s va true (withByte s va b)) v = cellOf m e s v := by
      refine cellOf_congr ?_ (fun hpv => ?_) rfl
      · rw [accessed_entry hva hp, if_neg hvp]
      · -- two pages in one frame
        refine Function.update_of_ne (fun hc => hvp ?_) ..
        rw [hpte] at hc
        exact ho.inj v _ (hLP v hv hpv) (hLP _ hin hpres) _ (held_of_present hpv) (hc ▸ held_of_present hpres)
    rw [hcell]
    refine ⟨hcoherent, fun j hj => ?_⟩
    rw [flat_update (Nat.mod_lt _ (by decide)) _ _ hj, if_neg fun hc => hvp hc.1]
    exact hseen j hj

/-! ## Faults -/

/-- The pages of `L`: none is at `PGFLTEMP`, and one that is there is of the working set. -/
structure Owned (L : Nat → Prop) (s : Machine) : Prop where
  user : ∀ v, L v → v < userPages ∧ v ≠ pgfltemp / 4096
  listed : ∀ v, L v → shown s.mem s.env.envPageDirectory v = true → v ∈ wsPages s.env

/-- Where the new page comes, nothing was seen of the victim's going. -/
structure Vacates (env : Nat → Env) (e : Nat) (L : Nat → Prop) (va : Nat) (m : DiskMap) (s : Machine) (m' : DiskMap)
    (t : Machine) : Prop where
  carries : Carries env e L m s m' t
  ready : Ready t
  own : OwnFrames (· ∈ wsPages s.env) t
  listed : ∀ v, L v → (entryOf t v).perm.present = true → v ∈ wsPages s.env
  absent : (entryOf t (va / 4096)).perm.present = false

theorem vacates {a u u₁ : Machine} {r : Bool} (h : Reflects env e L m flat s) (hw : WorkingSetOk s) (hL : Owned L s)
    (hvictim : victim ∈ s.env.pageWsList) (hva : va < userTop) (hin : L (va / 4096))
    (habsent : shown s.mem s.env.envPageDirectory (va / 4096) = false) (hsearch : Searches s a)
    (hback : BacksUp victim a u) (hgoes : unmapUserFrame victim.virtualAddress u = .ok () u₁) :
    ∃ m', Vacates env e L va m s m' (withPage u₁ victim.addr va r) := by
  have hs := hw.resident.ready
  have hv := hs.ws victim hvictim
  have huser : ∀ v, L v → v < userPages := fun v hv => (hL.user v hv).1
  have hpv : victim.virtualAddress / 4096 ∈ wsPages s.env := mem_wsPages hvictim
  obtain ⟨hR, hm⟩ := h
  -- up to where the victim is found
  have hfound := calm_searches hs hsearch
  have hC₁ : Carries env e L m s m a := carries_searches hR hs hsearch
  have hoa := hfound.frames _ (.inr rfl) hw.frames
  have hpa : a.present victim.virtualAddress = true := by
    rw [present_eq hv, hfound.dir, hfound.shown _ (user_address hv 0).1 fun hc => hw.resident.temp (hc ▸ hpv)]
    exact hw.resident.shown _ hpv
  -- it is backed up and goes
  obtain ⟨m', hC₂, hsaved⟩ := carries_backsUp hL.user hC₁.represents hfound.ready hoa (.inr rfl) hv hpa
    (fun v hv => (hC₁.cells v hv (hm v hv).2.1).1) hback
  have hcalm := calm_backsUp hfound.ready hv hback
  have hpre := hfound.trans hcalm
  have hou := hcalm.frames _ (.inr rfl) hoa
  have hC₃ := carries_unmap huser hC₂.represents hpre.ready hou hv (.inl hpv) hsaved hgoes
  have hou₁ := hou.unmap hpre.ready.dir hv (.inl hpv) hgoes
  have hC₄ : Carries env e L m' u₁ m' (withPage u₁ victim.addr va r) := carries_env hC₃.represents rfl ⟨rfl, rfl, rfl⟩
  refine ⟨m', ((hC₁.trans hC₂).trans hC₃).trans hC₄, ?_, ?_, fun v hv' hp => ?_, ?_⟩
  · exact (sets_unmap hpre.ready hv hgoes).ready.setElement hva victim.addr r
  · have hkept := hou₁.kept (t := withPage u₁ victim.addr va r) ⟨hou₁.heap, rfl, fun _ _ hl => hl, fun _ _ => .refl _⟩
    exact hkept.mono fun v hv => .inl hv
  · have hgone := shown_gone hpre hv hgoes (huser v hv') (hL.user v hv').2
    rw [show shown u₁.mem u₁.env.envPageDirectory v = true from hp] at hgone
    split at hgone
    · cases hgone
    · exact hL.listed v hv' hgone.symm
  · have hgone := shown_gone hpre hv hgoes (huser _ hin) (hL.user _ hin).2
    rw [habsent, ite_self] at hgone
    exact hgone

/-- A replacement is not seen. -/
theorem Exchange.carries (hx : Exchange va victim s .returns t) (h : Reflects env e L m flat s) (hw : WorkingSetOk s)
    (hL : Owned L s)
    (hvictim : victim ∈ s.env.pageWsList) (hva : va < userTop) (hal : va % 4096 = 0) (hin : L (va / 4096))
    (habsent : shown s.mem s.env.envPageDirectory (va / 4096) = false) : ∃ m', Carries env e L m s m' t := by
  cases hx with
  | @of a u u₁ u₂ E perm r hsearch hback hgoes hperm hmark hcomes hturn hhand =>
  obtain ⟨m', hV⟩ := vacates h hw hL hvictim hva hin habsent hsearch hback hgoes
  have hknown := hV.carries.known _ (h.2 _ hin).1
  have hC := carries_placePage (fun v hv => (hL.user v hv).1) hV.carries.represents hV.ready hV.own hV.listed hva hal
    hV.absent hknown hperm hcomes
  exact ⟨m', (hV.carries.trans hC).trans (carries_env hC.represents hturn.dir hturn.sameDisk)⟩

/-- A page fault is not seen, under the three policies. -/
theorem Reflects.page (h : Reflects env e L m flat s) (hw : WorkingSetOk s) (hL : Owned L s)
    (halgo : algo.hasVictim = true)
    (hva : va < userTop) (hin : L (va / 4096)) (hp : s.present va = false)
    (hr : pageFaultHandler algo va s = .ok .returns t) : ∃ m', Carries env e L m s m' t := by
  have hrd := roundDown_lt hva
  have hdiv := roundDown_div va
  have habsent : shown s.mem s.env.envPageDirectory (roundDown va pageSize / 4096) = false := by
    rw [hdiv, ← present_eq hva, hp]
  by_cases hroom : s.env.pageWsList.length < s.env.pageWsMaxSize
  · have hplace := placement_of_room halgo hroom hr
    refine ⟨m, carries_placement (fun v hv => (hL.user v hv).1) h.1 hw.resident.ready hw.frames
      (fun v hv hpv => .inl (hL.listed v hv hpv)) hrd (roundDown_aligned va) habsent ?_ hplace⟩
    exact hdiv ▸ (h.2 _ hin).1
  · obtain ⟨victim, hvictim, hx⟩ := hw.exchange halgo (not_lt.1 hroom) hr
    exact hx.carries h hw hL hvictim hrd (roundDown_aligned va) (hdiv ▸ hin) habsent

/-- Nor is the clock's update of the time stamps. -/
theorem carries_updated (h : Represents env e m s) (hw : WorkingSetOk s) (hu : updateWSTimeStamps s = .ok () t) :
    Carries env e L m s m t := by
  obtain rfl := updateWSTimeStamps_ok hw.resident hu
  have hcleared := carries_foldl_clearUsed (L := L) h (l := s.env.pageWsList.filter (usedBit s)) fun w hw' =>
    hw.resident.ready.ws w (List.mem_filter.1 hw').1
  have hstamped := carries_env (L := L) (E := (Fault.updated s).env) hcleared.represents rfl ⟨rfl, rfl, rfl⟩
  exact hcleared.trans hstamped

theorem Owned.lists (h : Owned L s) (hl : Lists s t) : Owned L t := by
  refine ⟨h.user, fun v hv hs => ?_⟩
  rcases hl v (h.user v hv).1 hs with hin | ⟨hs, hno⟩
  · exact hin
  · exact absurd (h.listed v hv hs) hno

end Mirrors

/-! ## Runs -/

/-- The handler's state, and the byte that the process wrote last at each address. -/
structure Paged where
  state : FaultState
  last : Nat → UInt8

inductive PagedEvent where
  | read (va : Nat)
  | write (va : Nat) (b : UInt8)
  | fault (va : Nat) (tf : Trapframe)
  | update

/-- A read or a write of a byte in a page that is there, a fault on one that is not, which the process survives, and the
clock's update of the time stamps. -/
inductive PagedStep (L : Nat → Prop) : Paged → PagedEvent → Paged → Prop
  | read {p : Paged} {va : Nat} (hva : va < userTop) (hin : L (va / 4096)) (hp : p.state.machine.present va = true) :
    PagedStep L p (.read va)
      { p with state := { p.state with machine := accessed p.state.machine va false p.state.machine.frames } }
  | write {p : Paged} {va : Nat} {b : UInt8} (hva : va < userTop) (hin : L (va / 4096))
      (hp : p.state.machine.present va = true) :
    PagedStep L p (.write va b)
      ⟨{ p.state with machine := accessed p.state.machine va true (withByte p.state.machine va b) },
        Function.update p.last va b⟩
  | fault {p : Paged} {t : FaultState} {va : Nat} {tf : Trapframe} (hva : va < userTop) (hin : L (va / 4096))
      (hp : p.state.machine.present va = false) (hf : faultHandler va tf p.state = .ok .returns t) :
    PagedStep L p (.fault va tf) { p with state := t }
  | update {p : Paged} {m : Machine} (hu : updateWSTimeStamps p.state.machine = .ok () m) :
    PagedStep L p .update { p with state := { p.state with machine := m } }

/-- A read finds what was written last. -/
def ReadsLast (p : Paged) (ev : PagedEvent) : Prop := ∀ va, ev = .read va → byteAt p.state.machine va = p.last va

/-- What every step keeps. -/
structure Paged.Inv (env : Nat → Env) (e : Nat) (L : Nat → Prop) (p : Paged) : Prop where
  ok : WorkingSetOk p.state.machine
  algo : p.state.faults.pageRepAlgoType.hasVictim = true
  owned : Owned L p.state.machine
  mirrors : Mirrors env e L p.last p.state.machine

section Runs

variable {env : Nat → Env} {e : Nat} {L : Nat → Prop} {p q : Paged} {ev : PagedEvent}

theorem Paged.Inv.step (h : p.Inv env e L) (hst : PagedStep L p ev q) : ReadsLast p ev ∧ q.Inv env e L := by
  obtain ⟨m, hm⟩ := h.mirrors
  cases hst with
  | @read va hva hin hp =>
    obtain ⟨hok, hl⟩ : WorkingSetOk (accessed p.state.machine va false p.state.machine.frames) ∧
      Lists p.state.machine _ :=
      h.ok.accessed _ hva hp
    refine ⟨?_, hok, h.algo, h.owned.lists hl, m, hm.read hva hp⟩
    rintro va' heq
    obtain rfl := PagedEvent.read.inj heq
    exact hm.byteAt hva hin hp
  | @write va b hva hin hp =>
    obtain ⟨hok, hl⟩ : WorkingSetOk (accessed p.state.machine va true (withByte p.state.machine va b)) ∧
        Lists p.state.machine _ := h.ok.accessed _ hva hp
    refine ⟨(fun va' heq => nomatch heq), hok, h.algo, h.owned.lists hl, m, ?_⟩
    exact hm.write h.ok.frames (fun v hv hs => .inl (h.owned.listed v hv hs)) hva hin hp
  | fault hva hin hp hf =>
    refine ⟨(fun va' heq => nomatch heq), ?_⟩
    obtain ⟨hH, ha⟩ := faultHandler_ok hf
    have halgo := h.algo
    rw [← ha] at halgo
    cases hH with
    | table hno ht =>
      obtain ⟨hok, hl⟩ := h.ok.table hno ht
      have hC := carries_tableFaultHandler (fun v hv => (h.owned.user v hv).1) hm.1 h.ok.resident.ready.dir hno ht
      exact ⟨hok, halgo, h.owned.lists hl, m, hC.reflects hm⟩
    | page _ _ hr =>
      obtain ⟨hok, hl⟩ := h.ok.fault h.algo hva hp (h.owned.user _ hin).2 hr
      obtain ⟨m', hC⟩ := hm.page h.ok h.owned h.algo hva hin hp hr
      exact ⟨hok, halgo, h.owned.lists hl, m', hC.reflects hm⟩
  | update hu =>
    obtain ⟨hok, hl⟩ := h.ok.updated hu
    exact ⟨(fun va' heq => nomatch heq), hok, h.algo, h.owned.lists hl, m, (carries_updated hm.1 h.ok hu).reflects hm⟩

end Runs

/-- Under the clock, aging and the modified clock, every byte that the process reads in a run is the one that it wrote
there last, or the one of its image if it wrote none: which pages come and go, and when, is not seen. -/
theorem demand_paging_invisible {env : Nat → Env} {e : Nat} {L : Nat → Prop} {s : FaultState} {image : Nat → UInt8}
    (hs : WorkingSetOk s.machine) (halgo : s.faults.pageRepAlgoType.hasVictim = true) (hL : Owned L s.machine)
    (himage : Mirrors env e L image s.machine) (es : List PagedEvent) : Each (PagedStep L) ReadsLast ⟨s, image⟩ es :=
  (Each.always_each (P := Paged.Inv env e L) (fun _ h => h) (fun _ _ _ h _ hst => h.step hst) ⟨hs, halgo, hL, himage⟩
    Each.trivially).2

/-- The page file is not read. -/
theorem WorkingSetOk.withPageFile {s : Machine} (h : WorkingSetOk s)
    (pf : PageFile) : WorkingSetOk { s with pageFile := pf } :=
  ⟨⟨⟨h.resident.ready.kernel, h.resident.ready.dir, h.resident.ready.ws, h.resident.ready.active⟩, h.resident.pages,
      h.resident.temp, h.resident.shown, h.resident.blocks⟩,
    h.frames.kept ⟨h.frames.heap, rfl, fun _ _ hl => hl, fun _ _ => .refl _⟩, h.size, h.hand, h.stamps⟩

/-- The process with its kernel stack, and a page file that no process has used. -/
def stackPageFile : PageFileRun :=
  ⟨processKernel, fun _ => agingProcess.machine.env, fun _ => zeroPage, initializeDiskPageFile fun _ => zeroPage,
  fun _ => none, false⟩

theorem stackPageFile_fresh : stackPageFile.Fresh := by
  obtain ⟨base, h⟩ := processKernel_run
  exact ⟨rfl, createUserKernStack_pages (kheapInit_pages stackMemory_booted rfl) stackKernel_mapOk stackKernel_zero h,
    fun _ => ⟨rfl, fun _ => rfl⟩, rfl, rfl⟩

def pagedProcess : FaultState := { stackedProcess with machine := stackPageFile.machine 7 }

theorem pagedProcess_ok : WorkingSetOk pagedProcess.machine :=
  stackedProcess_ok.withPageFile (initializeDiskPageFile fun _ => zeroPage)

/-- It has a guard page. -/
theorem pagedProcess_guard : ¬ AllPresent pagedProcess.machine.mem :=
    processKernel_stacked.elim fun _ h => h.not_present

/-- The pages of the process are those before its kernel stack was made. -/
theorem pagedProcess_entry {v : Nat} (hv : v < userPages) :
    entryOf pagedProcess.machine v = userEntry stackMemory 1 v := by
  obtain ⟨base, h⟩ := processKernel_stacked
  exact h.user 1 hv

/-- The three pages of the stack below the two that are there. -/
def LowStack (v : Nat) : Prop := v = 977915 ∨ v = 977914 ∨ v = 977913

theorem lowStack_gone {v : Nat} (h : LowStack v) : (entryOf pagedProcess.machine v).perm.present = false := by
  rw [pagedProcess_entry (by rcases h with rfl | rfl | rfl <;> decide)]
  rcases h with rfl | rfl | rfl <;> rfl

theorem pagedProcess_reflects :
    Reflects stackPageFile.env 7 LowStack (fun _ => none) (fun _ => 0) pagedProcess.machine := by
  refine ⟨stackPageFile_fresh.inv.represents 7, fun v hv => ⟨Option.some_ne_none _ |>.symm, ?_⟩⟩
  have hnone : (cellOf (fun _ => none) 7 pagedProcess.machine v).held = none :=
    if_neg (Bool.eq_false_iff.1 (lowStack_gone hv))
  refine ⟨fun _ a ha => absurd (hnone.symm.trans ha) (Option.some_ne_none a).symm, fun j _ => ?_⟩
  rw [WriteBack.seen_none hnone, WriteBack.behind]
  rfl

theorem pagedProcess_owned : Owned LowStack pagedProcess.machine := by
  refine ⟨?_, fun v hv hs => absurd ((lowStack_gone hv).symm.trans hs) Bool.false_ne_true⟩
  rintro v (rfl | rfl | rfl) <;> decide

/-- With room for two, the third page takes the frame of another. -/
theorem demand_paging_invisible_stack : ¬ AllPresent pagedProcess.machine.mem ∧
    Each (PagedStep LowStack) ReadsLast ⟨pagedProcess, fun _ => 0⟩
    [.fault (stackPage 2) ⟨true, true⟩, .write (stackPage 2) 7, .fault (stackPage 3) ⟨true, false⟩, .update,
      .fault (stackPage 4) ⟨true, false⟩, .fault (stackPage 2) ⟨true, false⟩, .read (stackPage 2)] :=
  ⟨pagedProcess_guard, demand_paging_invisible pagedProcess_ok rfl pagedProcess_owned ⟨_, pagedProcess_reflects⟩ _⟩

end Fos.Fault
