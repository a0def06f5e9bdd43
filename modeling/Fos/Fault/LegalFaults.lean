/-
A page fault that is legal is not rejected. The mark of a page of the user heap stays with the page while it comes and
goes, and what the page file has it keeps, so that under the clock, aging and the modified clock a process that keeps to
its pages is never taken off the CPU by the fault handler.
-/
import Fos.Fault.DemandPaging

namespace Fos.Fault

open Fos.Memory Fos.Heap Fos.Proc Fos.Disk Fos.Lib

/-! ## Marks -/

/-- The pages that are marked are those that were. -/
structure MarksKept (s t : Machine) : Prop where
  ready : Ready t
  dir : t.env.envPageDirectory = s.env.envPageDirectory
  marks : ∀ v < userPages, (entryOf t v).perm.uhpage = (entryOf s v).perm.uhpage

def KeepsMarks (s t : Machine) : Prop := Ready s → MarksKept s t

section Marks

variable {s t u : Machine} {va : Nat} {w victim : WorkingSetElement} {l : List WorkingSetElement} {perm : Perm}
    {o : Outcome}

theorem KeepsMarks.refl (s : Machine) : KeepsMarks s s := fun h => ⟨h, rfl, fun _ _ => rfl⟩

theorem MarksKept.trans (h : MarksKept s t) (h' : MarksKept t u) : MarksKept s u :=
  ⟨h'.ready, h'.dir.trans h.dir, fun v hv => (h'.marks v hv).trans (h.marks v hv)⟩

theorem KeepsMarks.trans (h : KeepsMarks s t) (h' : KeepsMarks t u) : KeepsMarks s u := fun hs =>
  (h hs).trans (h' (h hs).ready)

theorem marks_bind {α β : Type} {x : PM α} {f : α → PM β} (hx : Does KeepsMarks x) (hf : ∀ a, Does KeepsMarks (f a)) :
    Does KeepsMarks (x >>= f) :=
  hx.bind KeepsMarks.trans hf

theorem marks_pure {α : Type} (a : α) : Does KeepsMarks (pure a : PM α) := .pure KeepsMarks.refl a

/-- Where the entries of the process stay, the marks do. -/
theorem marks_of_entries (hr : Ready t) (hdir : t.env.envPageDirectory = s.env.envPageDirectory)
    (h : ∀ v < userPages, userEntry t.mem s.env.envPageDirectory v = userEntry s.mem s.env.envPageDirectory v) :
    MarksKept s t := by
  refine ⟨hr, hdir, fun v hv => ?_⟩
  rw [entryOf, hdir, h v hv]
  rfl

theorem marks_onKernel {α : Type} {x : KM α}
    (hx : ∀ {k a k'}, KernelReady k → x k = .ok a k' → KernelReady k' ∧ Within k.mem k'.mem) :
    Does KeepsMarks (onKernel x) := by
  intro s a t h hs
  obtain ⟨k, hk, rfl⟩ := onKernel_ok h
  obtain ⟨hr, hw⟩ := hx hs.kernel hk
  exact marks_of_entries ⟨hr, hs.dir, hs.ws, hs.active⟩ rfl fun v hv => userEntry_within hw hv

/-- A new entry with the mark of the old one. -/
theorem marks_setPte (hs : Ready s) (hva : va < userTop) (q : Pte) (hq : q.perm.uhpage = (s.pte va).perm.uhpage)
    (frames : Nat → Page) (pageFile : PageFile) :
    MarksKept s { s.setMem (s.mem.setPte (slot s.env.envPageDirectory va) q) with frames, pageFile } := by
  obtain ⟨hv, -, hslot, -⟩ := user_address hva s.env.envPageDirectory
  have hkept := kept_setPte (P := (· = va / 4096)) hs hva rfl q frames pageFile
  refine ⟨hkept.ready, rfl, fun v hv' => ?_⟩
  by_cases hvp : v = va / 4096
  · subst hvp
    show (userEntry (s.mem.setPte (slot s.env.envPageDirectory va) q) s.env.envPageDirectory _).perm.uhpage =
      (userEntry s.mem s.env.envPageDirectory _).perm.uhpage
    rw [hslot, userEntry, userEntry, Mem.setPte_table, Mem.setPte_pte, if_pos rfl]
    split
    · rw [hq, Machine.pte, hslot]
    · rfl
  · exact congrArg (·.perm.uhpage) (hkept.entries v hv' hvp)

theorem marks_permissions (hva : va < userTop) {x y : Perm} (hx : x.uhpage = false) (hy : y.uhpage = false) :
    Does KeepsMarks (ptSetPagePermissions va x y) := by
  intro s _ t h hs
  obtain ⟨k, hk, rfl⟩ := onKernel_ok h
  obtain ⟨m, hm, rfl⟩ := onMem_ok hk
  obtain ⟨m', hm', hm⟩ := bind_ok hm
  cases hm
  unfold Mem.ptSetPagePermissions at hm'
  split at hm'
  · cases hm'
    refine marks_setPte hs hva _ ?_ s.frames s.pageFile
    show (((s.pte va).perm.uhpage || x.uhpage) && !y.uhpage) = (s.pte va).perm.uhpage
    rw [hx, hy, Bool.or_false, Bool.not_false, Bool.and_true]
  · cases hm'

theorem marks_storePage (hva : va < userTop) (g : Page → Page) : Does KeepsMarks (storePage va g) := by
  intro s _ t h hs
  unfold storePage at h
  rw [get_bind] at h
  split at h
  · cases h
    exact marks_setPte hs hva { s.pte va with perm := { (s.pte va).perm with used := true, modified := true } } rfl _
      s.pageFile
  · cases h

theorem marks_writeBack (hva : va < userTop) : Does KeepsMarks (writeBack va) := by
  intro s _ t h hs
  unfold writeBack at h
  rw [get_bind] at h
  split at h
  · obtain ⟨_, _, h, -⟩ := ok_of_bind h
    cases h
  · cases h
    exact marks_setPte hs hva { s.pte va with perm := { (s.pte va).perm with modified := false } } rfl s.frames _

/-- The code of the page file, for user pages. -/
theorem marksRule : PageRule (· < userTop) (Does KeepsMarks) where
  pure := marks_pure
  throw e _ := .throw e
  bind := marks_bind
  get := .get KeepsMarks.refl
  kmalloc := marks_onKernel fun hk h => hk.kmalloc h
  pageFile g := .modify fun s hs => ⟨⟨hs.kernel, hs.dir, hs.ws, hs.active⟩, rfl, fun _ _ => rfl⟩
  disk g hg := .modify fun s hs => by
    obtain ⟨dir, tables, pages, hge⟩ := hg s.env
    rw [hge]
    exact ⟨⟨hs.kernel, hs.dir, hs.ws, hs.active⟩, rfl, fun _ _ => rfl⟩
  unmodified _ hva := marks_permissions hva rfl rfl
  writeBack _ hva := marks_writeBack hva
  store _ g hva := marks_storePage hva g

/-- The available bits stay in the entry of a page that goes. -/
theorem marks_unmap (hva : va < userTop) : Does KeepsMarks (unmapUserFrame va) := by
  intro s _ t h hs
  have hkept := keeps_unmap (P := (· = va / 4096)) hva rfl _ _ _ h hs
  refine ⟨hkept.ready, hkept.env.dir, fun v hv => ?_⟩
  rw [entryOf, hkept.env.dir]
  by_cases hvp : v = va / 4096
  · subst hvp
    cases h
    show (userEntry (s.mem.unmapFrame s.env.envPageDirectory va) s.env.envPageDirectory _).perm.uhpage = _
    rw [unmapFrame_page _ _ hva]
    cases hm : (entryOf s (va / 4096)).held with
    | none =>
      have hpage : va / 4096 * 4096 / 4096 = va / 4096 := by omega
      have hnone : s.mem.getFrameInfo s.env.envPageDirectory (va / 4096 * 4096) = none := by
        rw [getFrameInfo_user _ _ (by omega), hpage]
        exact hm
      rw [unmap_none hnone]
      rfl
    | some f =>
      have htab : (s.mem.table s.env.envPageDirectory (va / 4096 / 1024)).isSome = true := by
        by_contra hno
        rw [entryOf, userEntry, if_neg hno] at hm
        cases hm
      rw [unmapFrame_self hv hm, entryOf, userEntry, if_pos htab]
      rfl
  · exact congrArg (·.perm.uhpage) (hkept.entries v hv hvp)

/-- They stay when it comes. -/
theorem marks_placePage (hs : Ready s) (hva : va < userTop) (hal : va % 4096 = 0) (hperm : perm.uhpage = false)
    (habsent : (entryOf s (va / 4096)).perm.present = false) (hr : placePage va perm s = .ok o t) : MarksKept s t := by
  have hv := (user_address hva 0).1
  have hpage : va = va / 4096 * 4096 := by omega
  unfold placePage at hr
  obtain ⟨f, s₁, h1, hr⟩ := ok_of_bind hr
  obtain ⟨k, hk, rfl⟩ := onKernel_ok h1
  obtain ⟨m, ha, rfl⟩ := onMem_ok hk
  have hw : Within s.kernel.mem m := allocateFrame_within ha
  have hk₁ := hs.kernel.within hw
  have hentries : ∀ v < userPages, userEntry m s.env.envPageDirectory v = userEntry s.mem s.env.envPageDirectory v :=
    fun v hv => userEntry_within hw hv
  obtain ⟨_, s₂, h2, hr⟩ := ok_of_bind hr
  have hset := sets_map (s := { s with kernel := { s.kernel with mem := m } })
    ⟨hk₁, hs.dir, hs.ws, hs.active⟩ hva hal h2
  obtain ⟨k', hmap, rfl⟩ := onKernel_ok h2
  dsimp only at hmap
  rw [hpage] at hmap
  have hnone : (userEntry m s.env.envPageDirectory (va / 4096)).perm.present = false := (hentries _ hv) ▸ habsent
  obtain ⟨-, hself, hother⟩ := mapFrame_user hv hk₁.heap hnone hmap
  have hmapped : MarksKept s { s with kernel := k' } := by
    refine ⟨hset.ready, rfl, fun v hv' => ?_⟩
    show (userEntry k'.mem s.env.envPageDirectory v).perm.uhpage =
      (userEntry s.mem s.env.envPageDirectory v).perm.uhpage
    by_cases hvp : v = va / 4096
    · subst hvp
      rw [hself, ← hentries _ hv]
      show ((_ || perm.uhpage) || false) = _
      rw [hperm, Bool.or_false, Bool.or_false]
      rfl
    · rw [hother _ v hv' fun hc => hvp (Prod.mk.inj hc).2, hentries v hv']
  refine hmapped.trans ((?_ : Does KeepsMarks _) _ _ _ hr hset.ready)
  refine marks_bind (marksRule.pfReadEnvPage (roundDown_lt hva)) fun b => .ite (marks_pure _) (.ite (marks_pure _) ?_)
  exact marks_bind (marks_storePage hva _) fun _ => marks_pure _

/-! ## Marks in a fault -/

theorem marks_turns {e : Env} (hs : Ready s) (he : Turns s.env e) : MarksKept s { s with env := e } :=
  marks_of_entries (he.ready hs) he.dir fun _ _ => rfl

theorem marks_foldl_clearUsed : ∀ {l : List WorkingSetElement} {s : Machine}, Ready s →
    (∀ w ∈ l, w.virtualAddress < userTop) → MarksKept s (l.foldl clearUsed s)
  | [], s, hs, _ => KeepsMarks.refl s hs
  | w :: l, s, hs, hl => by
    have hfirst : MarksKept s (clearUsed s w) :=
      marks_setPte hs (hl w List.mem_cons_self) _ (by rw [Pte.unused_eq]) s.frames s.pageFile
    exact hfirst.trans (marks_foldl_clearUsed hfirst.ready fun x hx => hl x (List.mem_cons_of_mem w hx))

theorem marks_searches (hs : Ready s) (h : Searches s t) : MarksKept s t := by
  obtain ⟨l, e, hl, hturn, rfl⟩ := h
  have hcleared := marks_foldl_clearUsed hs fun w hw => hs.ws w (hl w hw)
  refine hcleared.trans (marks_turns hcleared.ready ?_)
  rw [foldl_clearUsed_env]
  exact hturn

theorem marks_backsUp (hs : Ready s) (hv : victim.virtualAddress < userTop) (h : BacksUp victim s t) :
    MarksKept s t := by
  rcases h with ⟨rfl, -⟩ | ⟨m, h1, h2⟩
  · exact KeepsMarks.refl t hs
  · have hm := marksRule.pfUpdateEnvPage hv _ _ _ h1 hs
    rcases h2 with rfl | h2
    · exact hm
    · exact hm.trans (marks_unmap (by decide) _ _ _ h2 hm.ready)

theorem marks_createElement {wse : WorkingSetElement} (hs : Ready s)
    (hr : envPageWsListCreateElement va s = .ok wse t) :
    MarksKept s t := by
  unfold envPageWsListCreateElement at hr
  split at hr
  · obtain ⟨_, _, hr, -⟩ := ok_of_bind hr
    cases hr
  obtain ⟨a, u, h1, hr⟩ := ok_of_bind hr
  split at hr
  · obtain ⟨_, _, hr, -⟩ := ok_of_bind hr
    cases hr
  cases hr
  exact marks_onKernel (fun hk h => hk.kmalloc h) _ _ _ h1 hs

theorem marks_placement (hs : Ready s) (hva : va < userTop) (hal : va % 4096 = 0)
    (habsent : (entryOf s (va / 4096)).perm.present = false) (hr : placement va s = .ok .returns t)
    {v : Nat} (hv : v < userPages) : (entryOf t v).perm.uhpage = (entryOf s v).perm.uhpage := by
  unfold placement at hr
  obtain ⟨o, u, h1, hr⟩ := ok_of_bind hr
  cases o with
  | exits => cases hr
  | returns =>
    have hplaced := marks_placePage hs hva hal rfl habsent h1
    obtain ⟨wse, w, h2, hr⟩ := ok_of_bind hr
    have hmade := hplaced.trans (marks_createElement hplaced.ready h2)
    obtain ⟨_, x, h3, hr⟩ := ok_of_bind hr
    cases h3
    obtain ⟨_, y, h4, hr⟩ := ok_of_bind hr
    cases h4
    cases hr
    rw [← hmade.marks v hv]
    show (userEntry w.mem _ v).perm.uhpage = _
    dsimp only
    split <;> rfl

theorem marks_exchange (hs : Ready s) (hvictim : victim ∈ s.env.pageWsList) (hva : va < userTop) (hal : va % 4096 = 0)
    (habsent : ∀ {a u u₁ : Machine} {r : Bool}, Searches s a → BacksUp victim a u →
      unmapUserFrame victim.virtualAddress u = .ok () u₁ →
        (entryOf (withPage u₁ victim.addr va r) (va / 4096)).perm.present = false)
    (hx : Exchange va victim s .returns t) : MarksKept s t := by
  cases hx with
  | @of a u u₁ u₂ E perm r hsearch hback hgoes hperm hmark hcomes hturn hhand =>
  have hv := hs.ws victim hvictim
  have h₁ := marks_searches hs hsearch
  have h₂ := h₁.trans (marks_backsUp h₁.ready hv hback)
  have h₃ := h₂.trans (marks_unmap hv _ _ _ hgoes h₂.ready)
  have h₄ := h₃.trans (marks_of_entries (t := withPage u₁ victim.addr va r)
    (h₃.ready.setElement hva victim.addr r) rfl fun _ _ => rfl)
  have h₅ := h₄.trans (marks_placePage h₄.ready hva hal hmark (habsent hsearch hback hgoes) hcomes)
  exact h₅.trans (marks_turns h₅.ready hturn)

end Marks

/-! ## Legal pages -/

/-- The pages of `L` are legal: none is below the code, one that is neither of the stack nor of the user heap is in the
page file, and one of the user heap is marked. -/
structure Lawful (e : Nat) (L : Nat → Prop) (m : DiskMap) (s : Machine) : Prop where
  text : ∀ v, L v → utext ≤ v * 4096
  known : ∀ v, L v → inStack (v * 4096) = false → inUserHeap (v * 4096) = false → m (e, v) ≠ none
  marked : ∀ v, L v → inUserHeap (v * 4096) = true → (entryOf s v).perm.uhpage = true

section Lawful

variable {env : Nat → Env} {e va : Nat} {L : Nat → Prop} {m m' : DiskMap} {flat : Nat → UInt8} {s t : Machine}
variable {algo : PageRepAlgo} {o : Outcome}

theorem Lawful.kept (h : Lawful e L m s) (hC : Carries env e L m s m' t)
    (hmarks : ∀ v, L v → (entryOf t v).perm.uhpage = (entryOf s v).perm.uhpage) : Lawful e L m' t := by
  refine ⟨h.text, fun v hv hs hh => hC.has v (h.known v hv hs hh), fun v hv hh => ?_⟩
  rw [hmarks v hv]
  exact h.marked v hv hh

theorem inUserHeap_page (va : Nat) : inUserHeap (va / 4096 * 4096) = inUserHeap va := by
  unfold inUserHeap
  rw [Bool.eq_iff_iff, decide_eq_true_iff, decide_eq_true_iff]
  simp only [userHeapStart, userHeapMax]
  omega

/-- The handler takes no legal address for an invalid pointer. -/
theorem Lawful.valid (h : Lawful e L m s) (hva : va < userTop) (hin : L (va / 4096)) (hp : s.present va = false)
    (ht : s.hasTable va = true) (write : Bool) : invalidPointer va write (s.pte va).perm = false := by
  have habsent : (s.pte va).perm.present = false := by
    rw [Machine.present, ht, Bool.true_and] at hp
    exact hp
  have htext := h.text _ hin
  have hmark : inUserHeap va = true → (s.pte va).perm.uhpage = true := by
    intro hh
    rw [pte_entry hva ht]
    exact h.marked _ hin ((inUserHeap_page va).trans hh)
  have hlow : ¬ va < utext := by
    simp only [utext] at *
    omega
  unfold invalidPointer
  rw [habsent, Bool.and_false, Bool.false_and, Bool.or_false, decide_eq_false (not_le.2 hva), decide_eq_false hlow,
    Bool.false_or, Bool.or_false]
  cases hh : inUserHeap va with
  | false => rfl
  | true =>
    rw [hmark hh]
    rfl

/-- What would be rejected is not legal, whatever the page file has come to have meanwhile. -/
theorem Lawful.placed {perm : Perm} {u : Machine} (h : Lawful e L m s) (hR : Represents env e m' u)
    (hhas : ∀ v, m (e, v) ≠ none → m' (e, v) ≠ none) (hd : u.env.envPageDirectory ≠ 0) (hva : va < userTop)
    (hal : va % 4096 = 0) (hin : L (va / 4096)) (habsent : (entryOf u (va / 4096)).perm.present = false) :
    placePage va perm u ≠ .ok .exits t := by
  intro hr
  obtain ⟨hnone, hstack, hheap⟩ := placePage_rejected hR hd hva hal habsent hr
  have hpage : va / 4096 * 4096 = va := by omega
  refine hhas _ (h.known _ hin ?_ ?_) hnone
  · rwa [hpage]
  · rwa [hpage]

/-- A page fault is survived, and its page file and its marks are those of a legal state. -/
theorem Lawful.page (h : Lawful e L m s) (hm : Reflects env e L m flat s) (hw : WorkingSetOk s) (hL : Owned L s)
    (halgo : algo.hasVictim = true) (hva : va < userTop) (hin : L (va / 4096)) (hp : s.present va = false)
    (hr : pageFaultHandler algo va s = .ok o t) : o = .returns ∧ ∃ m', Carries env e L m s m' t ∧ Lawful e L m' t := by
  have hs := hw.resident.ready
  have hrd := roundDown_lt hva
  have hal := roundDown_aligned va
  have hdiv := roundDown_div va
  have hin' : L (roundDown va pageSize / 4096) := hdiv ▸ hin
  have habsent : shown s.mem s.env.envPageDirectory (roundDown va pageSize / 4096) = false := by
    rw [hdiv, ← present_eq hva, hp]
  have huser : ∀ v, L v → v < userPages := fun v hv => (hL.user v hv).1
  suffices ho : o = .returns ∧ (o = .returns → ∀ v, L v → (entryOf t v).perm.uhpage = (entryOf s v).perm.uhpage) by
    obtain ⟨rfl, hmarks⟩ := ho
    obtain ⟨m', hC⟩ := hm.page hw hL halgo hva hin hp hr
    exact ⟨rfl, m', hC, h.kept hC (hmarks rfl)⟩
  by_cases hroom : s.env.pageWsList.length < s.env.pageWsMaxSize
  · have hplace := placement_of_room halgo hroom hr
    cases o with
    | returns => exact ⟨rfl, fun _ v hv => marks_placement hs hrd hal habsent hplace (huser v hv)⟩
    | exits =>
      unfold placement at hplace
      obtain ⟨o', u, h1, hplace⟩ := ok_of_bind hplace
      cases o' with
      | exits => exact absurd h1 (h.placed hm.1 (fun _ h => h) hs.dir hrd hal hin' habsent)
      | returns =>
        obtain ⟨_, _, _, hplace⟩ := ok_of_bind hplace
        obtain ⟨_, _, _, hplace⟩ := ok_of_bind hplace
        obtain ⟨_, _, _, hplace⟩ := ok_of_bind hplace
        cases hplace
  · obtain ⟨victim, hvictim, hx⟩ := hw.exchange halgo (not_lt.1 hroom) hr
    cases o with
    | returns =>
      refine ⟨rfl, fun _ v hv => (marks_exchange hs hvictim hrd hal (fun hsearch hback hgoes => ?_) hx).marks v
        (huser v hv)⟩
      obtain ⟨m', hV⟩ := vacates hm hw hL hvictim hrd hin' habsent hsearch hback hgoes
      exact hV.absent
    | exits =>
      cases hx with
      | rejected hsearch hback hgoes hcomes =>
      obtain ⟨m', hV⟩ := vacates hm hw hL hvictim hrd hin' habsent hsearch hback hgoes
      exact absurd hcomes (h.placed hV.carries.represents hV.carries.has hV.ready.dir hrd hal hin' hV.absent)

/-- `fault_handler` goes on to `page_fault_handler` where the pointer is not invalid. -/
theorem faultHandler_valid {s t : FaultState} {tf : Trapframe} {perms : Perm} (h : faultHandler va tf s = .ok o t)
    (ht : (s.machine.mem.table s.machine.env.envPageDirectory (pdx va)).isSome = true)
    (hperms : ptGetPagePermissions va s.machine = .ok perms s.machine)
    (hvalid : invalidPointer va tf.write perms = false) :
    pageFaultHandler s.faults.pageRepAlgoType va s.machine = .ok o t.machine := by
  unfold faultHandler at h
  obtain ⟨_, s₁, h1, hrest⟩ := ok_of_bind h
  obtain ⟨hm, ha⟩ := countRepeatedFault_ok h1
  obtain ⟨_, s₂, h2, h⟩ := ok_of_bind hrest
  rw [← checkStacks_ok h2, get_bind, hm] at h
  clear hrest
  rw [if_neg (by rw [Option.isNone_iff_eq_none]; exact Option.isSome_iff_ne_none.1 ht)] at h
  obtain ⟨perms', u, h3, h⟩ := ok_of_bind h
  obtain ⟨h3, hf⟩ := onMachine_ok h3
  rw [hm, hperms] at h3
  obtain ⟨rfl, hu⟩ := EStateM.Result.ok.inj h3
  rw [if_neg (by rw [hvalid, Bool.and_false]; exact Bool.false_ne_true)] at h
  split at h
  · obtain ⟨_, _, h, -⟩ := ok_of_bind h
    cases h
  obtain ⟨_, _, hget, h⟩ := ok_of_bind (x := get) h
  cases hget
  split at h
  · obtain ⟨_, _, h, -⟩ := ok_of_bind h
    cases h
  obtain ⟨_, _, hget, h⟩ := ok_of_bind (x := get) h
  cases hget
  obtain ⟨h4, -⟩ := onMachine_ok h
  rwa [← hu, hf, ha] at h4

end Lawful

/-! ## Runs -/

/-- The steps of the process, and a fault that it does not survive. -/
inductive AnyStep (L : Nat → Prop) : Paged → PagedEvent → Paged → Prop
  | of {p q : Paged} {ev : PagedEvent} (h : PagedStep L p ev q) : AnyStep L p ev q
  | rejected {p : Paged} {t : FaultState} {va : Nat} {tf : Trapframe} (hva : va < userTop) (hin : L (va / 4096))
      (hp : p.state.machine.present va = false) (hf : faultHandler va tf p.state = .ok .exits t) :
    AnyStep L p (.fault va tf) { p with state := t }

/-- No fault takes the process off the CPU. -/
def Survives (p : Paged) (ev : PagedEvent) : Prop := ∀ va tf, ev = .fault va tf →
    ∀ t, faultHandler va tf p.state ≠ .ok .exits t

/-- What every step keeps. -/
structure Paged.Legal (env : Nat → Env) (e : Nat) (L : Nat → Prop) (p : Paged) : Prop where
  ok : WorkingSetOk p.state.machine
  algo : p.state.faults.pageRepAlgoType.hasVictim = true
  owned : Owned L p.state.machine
  lawful : ∃ m, Reflects env e L m p.last p.state.machine ∧ Lawful e L m p.state.machine

section Runs

variable {env : Nat → Env} {e va : Nat} {L : Nat → Prop} {p q : Paged} {ev : PagedEvent} {tf : Trapframe}
    {t : FaultState}

theorem Paged.Legal.inv (h : p.Legal env e L) : p.Inv env e L :=
  ⟨h.ok, h.algo, h.owned, h.lawful.imp fun _ h => h.1⟩

/-- A fault at a legal address ends one way only. -/
theorem Paged.Legal.returns {o : Outcome} (h : p.Legal env e L) (hva : va < userTop) (hin : L (va / 4096))
    (hp : p.state.machine.present va = false) (hf : faultHandler va tf p.state = .ok o t) :
    o = .returns ∧ ∃ m, Reflects env e L m p.last t.machine ∧ Lawful e L m t.machine := by
  obtain ⟨m, hm, hlaw⟩ := h.lawful
  have hs := h.ok.resident.ready
  obtain ⟨-, hown, -, hpdx⟩ := user_address hva p.state.machine.env.envPageDirectory
  cases ht : p.state.machine.mem.table p.state.machine.env.envPageDirectory (pdx va) with
  | none =>
    obtain ⟨hH, -⟩ := faultHandler_ok hf
    cases hH with
    | table hno hr =>
      have hC := carries_tableFaultHandler (fun v hv => (h.owned.user v hv).1) hm.1 hs.dir hno hr
      obtain ⟨hpdx, k, hk, hkt⟩ := tableFaultHandler_ok hr
      refine ⟨rfl, m, hC.reflects hm, hlaw.kept hC fun v hv => ?_⟩
      obtain ⟨-, -, hsame⟩ := hs.kernel.createPageTable hs.dir (hpdx ▸ hno) hk
      rw [hkt]
      exact congrArg (·.perm.uhpage) (hsame _ v (h.owned.user v hv).1)
    | invalid hsome => exact absurd ht (Option.isSome_iff_ne_none.1 hsome)
    | page hsome => exact absurd ht (Option.isSome_iff_ne_none.1 hsome)
  | some table =>
    have htab : p.state.machine.hasTable va = true := by
      rw [Machine.hasTable, hown, ht]
      rfl
    have hperms := ptGetPagePermissions_eq va p.state.machine
    rw [if_pos htab] at hperms
    have hr := faultHandler_valid hf (by rw [ht]; rfl) hperms (hlaw.valid hva hin hp htab tf.write)
    obtain ⟨rfl, m', hC, hlaw'⟩ := hlaw.page hm h.ok h.owned h.algo hva hin hp hr
    exact ⟨rfl, m', hC.reflects hm, hlaw'⟩

theorem Paged.Legal.step (h : p.Legal env e L) (hst : PagedStep L p ev q) : q.Legal env e L := by
  have hinv := (h.inv.step hst).2
  refine ⟨hinv.ok, hinv.algo, hinv.owned, ?_⟩
  obtain ⟨m, hm, hlaw⟩ := h.lawful
  -- an access changes no mark
  have haccess : ∀ {va : Nat} {write : Bool} {frames : Nat → Page}, va < userTop → p.state.machine.present va = true →
      Lawful e L m (accessed p.state.machine va write frames) := by
    intro va write frames hva hp
    refine ⟨hlaw.text, hlaw.known, fun v hv hh => ?_⟩
    rw [accessed_entry hva hp]
    split
    · exact hlaw.marked v hv hh
    · exact hlaw.marked v hv hh
  cases hst with
  | read hva hin hp => exact ⟨m, hm.read hva hp, haccess hva hp⟩
  | write hva hin hp =>
    exact ⟨m, hm.write h.ok.frames (fun v hv hs => .inl (h.owned.listed v hv hs)) hva hin hp, haccess hva hp⟩
  | fault hva hin hp hf => exact (h.returns hva hin hp hf).2
  | update hu =>
    have hC := carries_updated (L := L) hm.1 h.ok hu
    refine ⟨m, hC.reflects hm, hlaw.kept hC fun v hv => ?_⟩
    obtain rfl := updateWSTimeStamps_ok h.ok.resident hu
    have hs := h.ok.resident.ready
    have hcleared := marks_foldl_clearUsed (l := p.state.machine.env.pageWsList.filter (usedBit p.state.machine)) hs
      fun w hw => hs.ws w (List.mem_filter.1 hw).1
    exact hcleared.marks v (h.owned.user v hv).1

end Runs

/-- Under the clock, aging and the modified clock, a process that keeps to legal pages is never taken off the CPU by
the fault handler, whatever comes and goes. -/
theorem legal_faults_survive {env : Nat → Env} {e : Nat} {L : Nat → Prop} {m : DiskMap} {s : FaultState}
    {image : Nat → UInt8} (hs : WorkingSetOk s.machine) (halgo : s.faults.pageRepAlgoType.hasVictim = true)
    (hL : Owned L s.machine) (hm : Reflects env e L m image s.machine) (hlaw : Lawful e L m s.machine)
    (es : List PagedEvent) : Each (AnyStep L) Survives ⟨s, image⟩ es := by
  refine (Each.always_each (P := Paged.Legal env e L) (fun _ h => h) (fun p ev q h _ hst => ?_)
    ⟨hs, halgo, hL, m, hm, hlaw⟩ Each.trivially).2
  cases hst with
  | of hst =>
    refine ⟨?_, h.step hst⟩
    rintro va tf rfl t hf
    cases hst with
    | fault hva hin hp _ => exact nomatch (h.returns hva hin hp hf).1
  | rejected hva hin hp hf => exact nomatch (h.returns hva hin hp hf).1

theorem pagedProcess_lawful : Lawful 7 LowStack (fun _ => none) pagedProcess.machine := by
  refine ⟨?_, ?_, ?_⟩
  · rintro v (rfl | rfl | rfl) <;> decide
  · rintro v (rfl | rfl | rfl) hs <;> exact absurd hs (by decide)
  · rintro v (rfl | rfl | rfl) hh <;> exact absurd hh (by decide)

/-- A write fault and two read faults of the process of the stack. -/
theorem legal_faults_survive_stack : ¬ AllPresent pagedProcess.machine.mem ∧
    Each (AnyStep LowStack) Survives ⟨pagedProcess, fun _ => 0⟩
    [.fault (stackPage 2) ⟨true, true⟩, .write (stackPage 2) 7, .fault (stackPage 3) ⟨true, false⟩,
      .fault (stackPage 4) ⟨true, false⟩] :=
  ⟨pagedProcess_guard,
    legal_faults_survive pagedProcess_ok rfl pagedProcess_owned pagedProcess_reflects pagedProcess_lawful _⟩

end Fos.Fault
