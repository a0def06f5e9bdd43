/-
The working set along runs of a process under the clock, aging and the modified clock: what the handler, the
accesses of the CPU, the clock's updates and `env_page_ws_invalidate` keep of the list, of its hand and of the frames
of its pages.
-/
import Fos.Fault.Aging
import Fos.Fault.ChunkOperations
import Fos.Fault.Exchange
import Fos.Fault.HeapPages
import Fos.Fault.OwnFrames
import Fos.Proc.KernelStacks

namespace Fos.Fault

open Fos.Memory Fos.Heap Fos.Proc Fos.Disk Fos.Lib

/-! ## What does not move pages -/

/-- The list may be in another order and the hand elsewhere; no page comes, only the one at `PGFLTEMP` may go, and
pages keep frames of their own. -/
structure Calm (s t : Machine) : Prop where
  ready : Ready t
  dir : t.env.envPageDirectory = s.env.envPageDirectory
  size : t.env.pageWsMaxSize = s.env.pageWsMaxSize
  list : t.env.pageWsList.Perm s.env.pageWsList
  dyn : SameDyn s t
  frames : ∀ P : Nat → Prop, P (pgfltemp / 4096) → OwnFrames P s → OwnFrames P t
  shown : ∀ v < userPages, v ≠ pgfltemp / 4096 →
    shown t.mem s.env.envPageDirectory v = shown s.mem s.env.envPageDirectory v

section Calm

variable {s t u : Machine} {va : Nat} {w x victim : WorkingSetElement} {l : List WorkingSetElement}

theorem Calm.refl (h : Ready s) : Calm s s := ⟨h, rfl, rfl, .refl _, rfl, fun _ _ h => h, fun _ _ _ => rfl⟩

theorem Calm.trans (h : Calm s t) (h' : Calm t u) : Calm s u := by
  refine ⟨h'.ready, h'.dir.trans h.dir, h'.size.trans h.size, h'.list.trans h.list, SameDyn.trans h.dyn h'.dyn,
    fun P hP ho => h'.frames P hP (h.frames P hP ho), fun v hv hne => ?_⟩
  have hrest := h'.shown v hv hne
  rw [h.dir] at hrest
  exact hrest.trans (h.shown v hv hne)

theorem calm_turns {e : Env} (h : Ready s) (he : Turns s.env e) : Calm s { s with env := e } := by
  refine ⟨he.ready h, he.dir, he.size, he.list, rfl, fun P _ ho =>
    ho.kept ⟨ho.heap, he.dir, fun _ _ hl => hl, fun v _ => ?_⟩, fun _ _ _ => rfl⟩
  show SameHold (entryOf s v) (userEntry s.mem e.envPageDirectory v)
  rw [he.dir]
  exact .refl _

theorem calm_of_quiet (hq : Unmoved s t) (hf : KeepsFrames s t) (hd : SameDyn s t) (hs : Ready s) : Calm s t := by
  refine ⟨hq.ready, hq.env.dir, hq.env.size, hq.env.ws ▸ .refl _, hd, fun P _ ho => ho.kept (hf hs.dir ho.heap),
    fun v hv _ => hq.shown _ v hv⟩

theorem calm_pfUpdateEnvPage (hs : Ready s) (hva : va < userTop) (h : pfUpdateEnvPage va s = .ok () t) : Calm s t :=
  calm_of_quiet (quiet_pfUpdateEnvPage hva _ _ _ h hs) (framesRule.pfUpdateEnvPage hva _ _ _ h)
    (dynPageRule.pfUpdateEnvPage trivial _ _ _ h) hs

theorem calm_clearUsed (hs : Ready s) (hw : w.virtualAddress < userTop) : Calm s (clearUsed s w) := by
  have hunused : SameHold (s.pte w.virtualAddress) (Pte.unused (s.pte w.virtualAddress)) := by
    rw [Pte.unused_eq]
    exact ⟨rfl, rfl, rfl⟩
  refine ⟨hs.clearUsed hw, rfl, rfl, .refl _, rfl, fun P _ ho => ?_, fun v _ _ => ?_⟩
  · exact ho.kept (frames_setPte hs.dir ho.heap hw _ hunused s.frames s.pageFile)
  · exact foldl_clearUsed_shown (l := [w]) (fun x hx => List.mem_singleton.1 hx ▸ hw) v

theorem calm_foldl_clearUsed : ∀ {l : List WorkingSetElement} {s : Machine}, Ready s →
    (∀ w ∈ l, w.virtualAddress < userTop) →
    Calm s (l.foldl clearUsed s)
  | [], _, hs, _ => .refl hs
  | w :: _, _, hs, hl =>
    have hfirst := calm_clearUsed hs (hl w List.mem_cons_self)
    hfirst.trans (calm_foldl_clearUsed hfirst.ready fun x hx => hl x (List.mem_cons_of_mem w hx))

theorem calm_unmap_pgfltemp (hs : Ready s) (h : unmapUserFrame pgfltemp s = .ok () t) : Calm s t := by
  have hset := sets_unmap hs (by decide) h
  refine ⟨hset.ready, hset.env.dir, hset.env.size, hset.env.ws ▸ .refl _, ?_, fun P hP ho => ?_, fun v hv hne => ?_⟩
  · cases h
    rfl
  · exact ho.unmap hs.dir (by decide) hP h
  · rw [hset.shown _ v hv, if_neg fun hc => hne hc.2]

theorem calm_searches (hs : Ready s) (h : Searches s t) : Calm s t := by
  obtain ⟨l, e, hl, hturn, rfl⟩ := h
  have hcleared := calm_foldl_clearUsed hs fun w hw => hs.ws w (hl w hw)
  refine hcleared.trans (calm_turns hcleared.ready ?_)
  rw [foldl_clearUsed_env]
  exact hturn

theorem calm_backsUp (hs : Ready s) (hv : victim.virtualAddress < userTop) (h : BacksUp victim s u) : Calm s u := by
  rcases h with ⟨rfl, -⟩ | ⟨m, h1, h2⟩
  · exact .refl hs
  · have hm := calm_pfUpdateEnvPage hs hv h1
    rcases h2 with rfl | h2
    · exact hm
    · exact hm.trans (calm_unmap_pgfltemp hm.ready h2)

end Calm

/-! ## A replacement -/

/-- The victim's element has page `va`, in a frame of its own, and the hand is at an element or at none. -/
structure Replaces (s t : Machine) (victim : WorkingSetElement) (va : Nat) : Prop extends Swapped s t victim va where
  size : t.env.pageWsMaxSize = s.env.pageWsMaxSize
  frames : ∀ P : Nat → Prop, P (pgfltemp / 4096) → P (victim.virtualAddress / 4096) → OwnFrames P s →
    OwnFrames (fun v => P v ∨ v = va / 4096) t
  hand : ∀ a, t.env.pageLastWsElement = some a → a ∈ t.env.pageWsList.map (·.addr)

section Replacement

variable {s t u u₁ u₂ : Machine} {va : Nat} {w x victim : WorkingSetElement} {l : List WorkingSetElement} {o : Outcome}
variable {perm : Perm} {r : Bool}

/-- The pages that are there once the victim's is gone. -/
theorem shown_gone {v : Nat} (hpre : Calm s u) (hv : victim.virtualAddress < userTop)
    (h1 : unmapUserFrame victim.virtualAddress u = .ok () u₁) (hlt : v < userPages) (htemp : v ≠ pgfltemp / 4096) :
    shown u₁.mem u₁.env.envPageDirectory v =
      if v = victim.virtualAddress / 4096 then false else shown s.mem s.env.envPageDirectory v := by
  have hgone := sets_unmap hpre.ready hv h1
  have hset := hgone.shown s.env.envPageDirectory v hlt
  rw [hpre.dir, hpre.shown v hlt htemp] at hset
  rw [hgone.env.dir, hpre.dir, hset]
  simp only [true_and]

/-- What comes before and after the victim's page goes and the new one comes does not move pages. -/
theorem Exchange.replaces (h : Resident s) (hvictim : victim ∈ s.env.pageWsList) (hva : va < userTop)
    (hal : va % 4096 = 0)
    (habsent : shown s.mem s.env.envPageDirectory (va / 4096) = false) (htemp : va / 4096 ≠ pgfltemp / 4096)
    (hx : Exchange va victim s .returns t) : Replaces s t victim va := by
  cases hx with
  | @of a u u₁ u₂ e perm r hsearch hback hgoes hperm hmark hcomes hturn hhand =>
  have hv := h.ready.ws victim hvictim
  have hfound := calm_searches h.ready hsearch
  have hpre := hfound.trans (calm_backsUp hfound.ready hv hback)
  have hgone := sets_unmap hpre.ready hv hgoes
  have hx := exchanges_of hpre.ready hv hva hal hgoes hcomes
  have hpost := calm_turns hx.ready hturn
  obtain ⟨p, q, hpq⟩ := List.append_of_mem (hpre.list.mem_iff.2 hvictim)
  have hd : ((p ++ victim :: q).map (·.addr)).Nodup := by
    rw [← hpq]
    exact (hpre.list.map _).nodup_iff.2 h.addrs
  have hlist : u₂.env.pageWsList = p ++ ⟨victim.addr, va, if r then 0 else victim.timeStamp⟩ :: q := by
    rw [hx.env.ws, ← setElement_split hd r, ← hpq]
    rfl
  refine ⟨⟨hpost.ready, ?_, ⟨p ++ q, if r then 0 else victim.timeStamp, ?_, ?_, ?_⟩, ?_, fun v hlt hne => ?_⟩, ?_,
    fun P hP hPv ho => ?_, hhand⟩
  · exact hpost.dir.trans (hx.env.dir.trans hpre.dir)
  · exact hpre.list.symm.trans (hpq ▸ List.perm_middle)
  · exact hpost.list.trans (hlist ▸ List.perm_middle)
  · cases r
    · exact .inr rfl
    · exact .inl rfl
  · exact SameDyn.trans hpre.dyn (SameDyn.trans hx.dyn hpost.dyn)
  · have h3 := hx.shown v hlt
    have h4 := hpost.shown v hlt hne
    have hdir : u₂.env.envPageDirectory = u.env.envPageDirectory := hx.env.dir
    rw [hdir, hpre.dir] at h4
    rw [hpre.dir, hpre.shown v hlt hne] at h3
    exact h4.trans h3
  · exact hpost.size.trans (hx.env.size.trans hpre.size)
  · have hu₁ := (hpre.frames P hP ho).unmap hpre.ready.dir hv hPv hgoes
    have hw : OwnFrames P (withPage u₁ victim.addr va r) :=
      hu₁.kept ⟨hu₁.heap, rfl, fun _ _ hl => hl, fun _ _ => .refl _⟩
    have hno : shown (withPage u₁ victim.addr va r).mem (withPage u₁ victim.addr va r).env.envPageDirectory
        (va / 4096) = false := by
      show shown u₁.mem u₁.env.envPageDirectory (va / 4096) = false
      rw [shown_gone hpre hv hgoes (user_address hva 0).1 htemp, habsent, ite_self]
    have hu₂ := hw.place (hgone.ready.setElement hva victim.addr r) hva hal hno hperm hcomes
    exact hpost.frames _ (.inl hP) hu₂

/-- The policies that take a victim from the list. -/
def PageRepAlgo.hasVictim : PageRepAlgo → Bool
  | .clock | .lruTimeApprox | .modifiedClock => true
  | _ => false

/-- Without a list there is no victim. -/
theorem empty_fails {algo : PageRepAlgo} (halgo : algo.hasVictim = true) (hnil : s.env.pageWsList = [])
    (hfull : s.env.pageWsMaxSize ≤ s.env.pageWsList.length) (hhand : s.env.pageLastWsElement = none) :
    pageFaultHandler algo va s ≠ .ok o t := by
  intro hr
  unfold pageFaultHandler at hr
  have hno : algo ≠ .optimal := by
    rintro rfl
    cases halgo
  rw [if_neg hno, get_bind] at hr
  rw [if_neg (not_lt.2 hfull)] at hr
  cases algo with
  | clock =>
    dsimp only at hr
    unfold clockReplacement at hr
    rw [get_bind, if_pos hhand] at hr
    obtain ⟨_, u, h1, hr⟩ := ok_of_bind hr
    cases h1
    obtain ⟨_, _, hget, hr⟩ := ok_of_bind (x := get) hr
    cases hget
    obtain ⟨_, u, h2, -⟩ := ok_of_bind hr
    unfold clockVictim at h2
    rw [get_bind] at h2
    simp only [hnil, List.head?_nil, Option.map_none, Option.bind_none] at h2
    cases h2
  | lruTimeApprox =>
    dsimp only at hr
    unfold lruReplacement at hr
    rw [get_bind] at hr
    simp only [hnil, oldest, List.head?_nil, Option.or_none] at hr
    cases hr
  | modifiedClock =>
    dsimp only at hr
    unfold modifiedClockReplacement at hr
    rw [get_bind] at hr
    simp only [hhand, hnil, List.head?_nil] at hr
    cases hr
  | _ => cases halgo

end Replacement

/-! ## The invariant -/

/-- A working set within its size, of pages with frames of their own, and the hand at an element or at none. -/
structure WorkingSetOk (s : Machine) : Prop where
  resident : Resident s
  frames : OwnFrames (fun v => v ∈ wsPages s.env ∨ v = pgfltemp / 4096) s
  size : s.env.pageWsList.length ≤ s.env.pageWsMaxSize
  hand : ∀ a, s.env.pageLastWsElement = some a → a ∈ s.env.pageWsList.map (·.addr)
  stamps : ∀ w ∈ s.env.pageWsList, w.timeStamp < 2 ^ 32

/-- The pages that are there are of the working set, or were there before beside the working set. -/
def Lists (s t : Machine) : Prop :=
  ∀ v < userPages, shown t.mem t.env.envPageDirectory v = true →
    v ∈ wsPages t.env ∨ shown s.mem s.env.envPageDirectory v = true ∧ v ∉ wsPages s.env

section Invariant

variable {s t : Machine} {va : Nat} {w victim : WorkingSetElement} {algo : PageRepAlgo} {o : Outcome}

theorem lists_same (hdir : t.env.envPageDirectory = s.env.envPageDirectory) (hpages : wsPages t.env = wsPages s.env)
    (hshown : ∀ v < userPages, shown t.mem s.env.envPageDirectory v = shown s.mem s.env.envPageDirectory v) :
      Lists s t := by
  intro v hv hs
  rw [hdir, hshown v hv] at hs
  rw [hpages]
  by_cases hin : v ∈ wsPages s.env
  · exact .inl hin
  · exact .inr ⟨hs, hin⟩

/-- Only page `va` came, and every page that left the working set is gone. -/
theorem lists_of_grows (hg : Grows (va / 4096) s t) (hin : va / 4096 ∈ wsPages t.env)
    (hold : ∀ v ∈ wsPages s.env, v ∈ wsPages t.env ∨ shown t.mem s.env.envPageDirectory v = false) : Lists s t := by
  intro v hv hs
  rw [hg.dir] at hs
  rcases hg.shown _ v hv hs with hs' | ⟨-, rfl⟩
  · by_cases hws : v ∈ wsPages s.env
    · refine .inl ((hold v hws).resolve_right fun hno => ?_)
      cases hs.symm.trans hno
    · exact .inr ⟨hs', hws⟩
  · exact .inl hin

theorem WorkingSetOk.fullSet (h : WorkingSetOk s) (hfull : s.env.pageWsMaxSize ≤ s.env.pageWsList.length)
    (hne : s.env.pageWsList ≠ []) : FullSet s := by
  have hd := h.resident.pages
  unfold wsPages pages at hd
  rw [List.map_map] at hd
  exact ⟨hne, hfull, h.resident.addrs, hd, fun w hw => h.resident.table hw, h.hand⟩

/-- The list has the same pages, in the same frames. -/
theorem WorkingSetOk.kept (h : WorkingSetOk s) (ht : Resident t)
    (hown : OwnFrames (fun v => v ∈ wsPages s.env ∨ v = pgfltemp / 4096) t) (hpages : wsPages t.env = wsPages s.env)
    (haddrs : t.env.pageWsList.map (·.addr) = s.env.pageWsList.map (·.addr))
    (hsize : t.env.pageWsMaxSize = s.env.pageWsMaxSize) (hlast : t.env.pageLastWsElement = s.env.pageLastWsElement)
    (hstamps : ∀ w ∈ t.env.pageWsList, w.timeStamp < 2 ^ 32) : WorkingSetOk t := by
  have hlen : t.env.pageWsList.length = s.env.pageWsList.length := by simpa using congrArg List.length haddrs
  refine ⟨ht, ?_, ?_, ?_, hstamps⟩
  · rw [hpages]
    exact hown
  · rw [hlen, hsize]
    exact h.size
  · rw [hlast, haddrs]
    exact h.hand

theorem WorkingSetOk.replaced (h : WorkingSetOk s) (hT : Replaces s t victim va) (hva : va < userTop)
    (hnew : va / 4096 ∉ wsPages s.env) (htemp : va / 4096 ≠ pgfltemp / 4096) :
    WorkingSetOk t ∧ va / 4096 ∈ wsPages t.env ∧
      ∀ v ∈ wsPages s.env, v ∈ wsPages t.env ∨ shown t.mem s.env.envPageDirectory v = false := by
  obtain ⟨ht, hgone⟩ := resident_swapped h.resident hT.toSwapped hva hnew htemp
  obtain ⟨rest, time, hl, hl', htime⟩ := hT.list
  have hpages : (wsPages s.env).Perm (victim.virtualAddress / 4096 :: elementPages rest) := wsPages_perm hl
  have hpages' : (wsPages t.env).Perm (va / 4096 :: elementPages rest) := wsPages_perm hl'
  refine ⟨⟨ht, ?_, ?_, hT.hand, fun w hw => ?_⟩, hpages'.mem_iff.2 List.mem_cons_self, fun v hv => ?_⟩
  · refine (hT.frames _ (.inr rfl) (.inl (hpages.mem_iff.2 List.mem_cons_self)) h.frames).mono fun v hv => ?_
    rcases hv with hv | rfl
    · rcases List.mem_cons.1 (hpages'.mem_iff.1 hv) with rfl | hv
      · exact .inr rfl
      · exact .inl (.inl (hpages.mem_iff.2 (List.mem_cons_of_mem _ hv)))
    · exact .inl (.inr rfl)
  · rw [hT.size, hl'.length_eq, List.length_cons, ← List.length_cons (a := victim), ← hl.length_eq]
    exact h.size
  · rcases List.mem_cons.1 (hl'.mem_iff.1 hw) with rfl | hw
    · rcases htime with rfl | rfl
      · exact show 0 < 2 ^ 32 by decide
      · exact h.stamps victim (hl.mem_iff.2 List.mem_cons_self)
    · exact h.stamps w (hl.mem_iff.2 (List.mem_cons_of_mem _ hw))
  · rcases List.mem_cons.1 (hpages.mem_iff.1 hv) with rfl | hv
    · exact .inr hgone
    · exact .inl (hpages'.mem_iff.2 (List.mem_cons_of_mem _ hv))

theorem WorkingSetOk.placed (h : WorkingSetOk s) (hva : va < userTop) (hal : va % 4096 = 0)
    (habsent : shown s.mem s.env.envPageDirectory (va / 4096) = false) (hnew : va / 4096 ∉ wsPages s.env)
    (htemp : va / 4096 ≠ pgfltemp / 4096) (hroom : s.env.pageWsList.length < s.env.pageWsMaxSize)
    (hr : placement va s = .ok .returns t) :
    WorkingSetOk t ∧ va / 4096 ∈ wsPages t.env ∧ ∀ v ∈ wsPages s.env, v ∈ wsPages t.env := by
  obtain ⟨ht, -, -⟩ := resident_placed h.resident hva hal hnew htemp hr
  have hP := placement_ok h.resident hva hal hr
  obtain ⟨w, hl, hw, -⟩ := hP.list.resolve_left fun hc => nomatch hc.1
  have hpages : wsPages t.env = wsPages s.env ++ [va / 4096] := by
    rw [wsPages, hl, hw, wsPages, pages, pages, List.map_append, List.map_append]
    rfl
  refine ⟨⟨ht, ?_, ?_, fun a ha => ?_, fun x hx => ?_⟩, ?_, fun v hv => ?_⟩
  · refine (h.frames.placed h.resident.ready hva hal habsent hr).mono fun v hv => ?_
    rw [hpages, List.mem_append, List.mem_singleton] at hv
    tauto
  · rw [hP.size, hl, List.length_append]
    exact hroom
  · rcases hP.last with hlast | hlast
    · rw [hl, List.map_append]
      exact List.mem_append_left _ (h.hand a (hlast ▸ ha))
    · exact hand_head hlast a ha
  · rw [hl] at hx
    rcases List.mem_append.1 hx with hx | hx
    · exact h.stamps x hx
    · rw [List.mem_singleton.1 hx, hw]
      exact show 0 < 2 ^ 32 by decide
  · rw [hpages]
    exact List.mem_append_right _ (List.mem_singleton_self _)
  · rw [hpages]
    exact List.mem_append_left _ hv

/-- With room in the list the page is placed. -/
theorem placement_of_room (halgo : algo.hasVictim = true) (hroom : s.env.pageWsList.length < s.env.pageWsMaxSize)
    (hr : pageFaultHandler algo va s = .ok o t) : placement (roundDown va pageSize) s = .ok o t := by
  unfold pageFaultHandler at hr
  have hno : algo ≠ .optimal := by
    rintro rfl
    cases halgo
  rw [if_neg hno, get_bind] at hr
  rwa [if_pos hroom] at hr

/-- Without, there is a victim. -/
theorem WorkingSetOk.exchange (h : WorkingSetOk s) (halgo : algo.hasVictim = true)
    (hfull : s.env.pageWsMaxSize ≤ s.env.pageWsList.length) (hr : pageFaultHandler algo va s = .ok o t) :
    ∃ victim ∈ s.env.pageWsList, Exchange (roundDown va pageSize) victim s o t := by
  have hne : s.env.pageWsList ≠ [] := by
    intro hnil
    refine empty_fails halgo hnil hfull ?_ hr
    cases hlast : s.env.pageLastWsElement with
    | none => rfl
    | some a =>
      have hin := h.hand a hlast
      rw [hnil] at hin
      cases hin
  have hset := h.fullSet hfull hne
  cases algo with
  | clock => exact clock_exchange h.resident.ready hset hr
  | lruTimeApprox => exact lru_exchange h.stamps hfull hr
  | modifiedClock => exact modifiedClock_exchange h.resident.ready hset hr
  | _ => cases halgo

/-- A page fault of the process keeps it, under the three policies. -/
theorem WorkingSetOk.fault (h : WorkingSetOk s) (halgo : algo.hasVictim = true) (hva : va < userTop)
    (hp : s.present va = false) (htemp : va / 4096 ≠ pgfltemp / 4096)
    (hr : pageFaultHandler algo va s = .ok .returns t) :
    WorkingSetOk t ∧ Lists s t := by
  have hgrows := adds_pageFaultHandler algo hva _ _ _ hr h.resident.ready
  have hrd := roundDown_lt hva
  have hdiv := roundDown_div va
  have hnew : roundDown va pageSize / 4096 ∉ wsPages s.env := hdiv ▸ h.resident.absent hva hp
  have habsent : shown s.mem s.env.envPageDirectory (roundDown va pageSize / 4096) = false := by
    rw [hdiv, ← present_eq hva, hp]
  by_cases hroom : s.env.pageWsList.length < s.env.pageWsMaxSize
  · obtain ⟨ht, hin, hold⟩ := h.placed hrd (roundDown_aligned va) habsent hnew (hdiv ▸ htemp) hroom
        (placement_of_room halgo hroom hr)
    exact ⟨ht, lists_of_grows hgrows (hdiv ▸ hin) fun v hv => .inl (hold v hv)⟩
  · obtain ⟨victim, hvictim, hx⟩ := h.exchange halgo (not_lt.1 hroom) hr
    have hT := hx.replaces h.resident hvictim hrd (roundDown_aligned va) habsent (hdiv ▸ htemp)
    obtain ⟨ht, hin, hold⟩ := h.replaced hT hrd hnew (hdiv ▸ htemp)
    exact ⟨ht, lists_of_grows hgrows (hdiv ▸ hin) hold⟩

/-! Elements that go. -/

theorem listRemove_split {l p q : List WorkingSetElement} (hl : l = p ++ w :: q) (hd : (l.map (·.addr)).Nodup) :
    listRemove l w.addr = p ++ q ∧ listNext l w.addr = q.head?.map (·.addr) := by
  subst hl
  constructor
  · unfold listRemove
    rw [List.eraseP_append_right _ fun z hz => by simpa using passes_split hd z hz, List.eraseP_cons_of_pos (by simp)]
  · unfold listNext
    rw [dropWhile_split hd]
    rfl

/-- The state once an element is out of the list. -/
def unlinked (s : Machine) (w : WorkingSetElement) : Machine := { s with env := { s.env with
  pageLastWsElement := if s.env.pageLastWsElement = some w.addr then listNext s.env.pageWsList w.addr
    else s.env.pageLastWsElement
  pageWsList := listRemove s.env.pageWsList w.addr } }

/-- An element is out of the list, its block is free, and its page is gone. -/
structure Removes (s t : Machine) (p q : List WorkingSetElement) (w : WorkingSetElement) : Prop where
  ready : Ready t
  dir : t.env.envPageDirectory = s.env.envPageDirectory
  size : t.env.pageWsMaxSize = s.env.pageWsMaxSize
  list : t.env.pageWsList = p ++ q
  last : t.env.pageLastWsElement =
    if s.env.pageLastWsElement = some w.addr then q.head?.map (·.addr) else s.env.pageLastWsElement
  blocks : ∀ n live, s.kernel.dyn.Ok n (elementBlock w :: live) → t.kernel.dyn.Ok n live
  frames : ∀ P : Nat → Prop, P (w.virtualAddress / 4096) → OwnFrames P s → OwnFrames P t
  shown : ∀ v < userPages, shown t.mem s.env.envPageDirectory v =
    if v = w.virtualAddress / 4096 then false else shown s.mem s.env.envPageDirectory v

theorem removes_of {u : Machine} {p q : List WorkingSetElement} (h : Resident s) (hl : s.env.pageWsList = p ++ w :: q)
    (h1 : unmapUserFrame w.virtualAddress s = .ok () u) (h2 : onKernel (kfree w.addr) (unlinked u w) = .ok () t) :
    Removes s t p q w := by
  have hv := h.ready.ws w (by rw [hl]; simp)
  obtain ⟨hrem, hnext⟩ := listRemove_split hl h.addrs
  have hgone := sets_unmap h.ready hv h1
  have hlist : (unlinked u w).env.pageWsList = p ++ q := by
    rw [← hrem, ← hgone.env.ws]
    rfl
  have hready : Ready (unlinked u w) := by
    refine ⟨hgone.ready.kernel, hgone.ready.dir, fun x hx => h.ready.ws x ?_, hgone.ready.active⟩
    rw [hlist] at hx
    rw [hl]
    exact (List.perm_middle.mem_iff).2 (List.mem_cons_of_mem w hx)
  have hq := quiet_kfree _ _ _ _ h2 hready
  refine ⟨hq.ready, hq.env.dir.trans hgone.env.dir, hq.env.size.trans hgone.env.size, hq.env.ws.trans hlist, ?_,
    fun n live hok => ?_, fun P hP ho => ?_, fun v hv => ?_⟩
  · rw [hq.env.last]
    show (if u.env.pageLastWsElement = some w.addr then listNext u.env.pageWsList w.addr
      else u.env.pageLastWsElement) = _
    rw [hgone.env.ws, hgone.env.last, hnext]
  · obtain ⟨k, hk, rfl⟩ := onKernel_ok h2
    have hdyn : (unlinked u w).kernel.dyn = s.kernel.dyn := by
      cases h1
      rfl
    exact kfree_block_live (c := elementBlock w) (hdyn.symm ▸ hok) hk
  · have hu := ho.unmap h.ready.dir hv hP h1
    have hu' : OwnFrames P (unlinked u w) := hu.kept ⟨hu.heap, rfl, fun _ _ hl => hl, fun _ _ => .refl _⟩
    exact hu'.kept (frames_onKernel (fun hk h => hk.kfree h) _ _ _ h2 hready.dir hu'.heap)
  · have hset := hgone.shown s.env.envPageDirectory v hv
    simp only [true_and] at hset
    exact (hq.shown _ v hv).trans hset

theorem WorkingSetOk.removed {p q : List WorkingSetElement} (h : WorkingSetOk s) (hl : s.env.pageWsList = p ++ w :: q)
    (hR : Removes s t p q w) : WorkingSetOk t ∧ Lists s t := by
  have hperm : s.env.pageWsList.Perm (w :: (p ++ q)) := hl ▸ List.perm_middle
  have hpages : (wsPages s.env).Perm (w.virtualAddress / 4096 :: elementPages (p ++ q)) := wsPages_perm hperm
  have hpages' : wsPages t.env = elementPages (p ++ q) := by
    rw [wsPages, hR.list]
    rfl
  obtain ⟨hout, hnodup⟩ := List.nodup_cons.1 (hpages.nodup_iff.1 h.resident.pages)
  have hold : ∀ v ∈ wsPages t.env, v ∈ wsPages s.env ∧ v ≠ w.virtualAddress / 4096 := by
    intro v hv
    rw [hpages'] at hv
    exact ⟨hpages.mem_iff.2 (List.mem_cons_of_mem _ hv), fun hc => hout (hc ▸ hv)⟩
  have hresident : Resident t := by
    obtain ⟨n, others, hok⟩ := h.resident.blocks
    refine ⟨hR.ready, hpages' ▸ hnodup, fun hc => h.resident.temp (hold _ hc).1, fun v hv => ?_, n, others, ?_⟩
    · obtain ⟨hs, hne⟩ := hold v hv
      rw [hR.dir, hR.shown v (h.resident.lt hs), if_neg hne, h.resident.shown v hs]
    · rw [hR.list]
      exact hR.blocks n _ (hok.perm ((hperm.map elementBlock).append_right others))
  refine ⟨⟨hresident, ?_, ?_, fun a ha => ?_, fun x hx => ?_⟩, fun v hv hs => ?_⟩
  · refine (hR.frames _ (.inl (hpages.mem_iff.2 List.mem_cons_self)) h.frames).mono fun v hv => ?_
    exact hv.imp_left fun hv => (hold v hv).1
  · have hsize := h.size
    rw [hperm.length_eq, List.length_cons] at hsize
    rw [hR.list, hR.size]
    omega
  · -- a hand at the element goes to the next one
    rw [hR.last] at ha
    rw [hR.list]
    split at ha
    · obtain ⟨x, hx, rfl⟩ := Option.map_eq_some_iff.1 ha
      exact List.mem_map_of_mem (List.mem_append_right _ (List.mem_of_mem_head? hx))
    · rename_i hne
      obtain ⟨x, hx, rfl⟩ := List.mem_map.1 (h.hand a ha)
      refine List.mem_map_of_mem ((List.mem_cons.1 (hperm.mem_iff.1 hx)).resolve_left fun hc => ?_)
      exact hne (hc ▸ ha)
  · exact h.stamps x (hperm.mem_iff.2 (List.mem_cons_of_mem w (hR.list ▸ hx)))
  · rw [hR.dir, hR.shown v hv] at hs
    split at hs
    · cases hs
    · rename_i hne
      by_cases hws : v ∈ wsPages s.env
      · exact .inl (hpages' ▸ (List.mem_cons.1 (hpages.mem_iff.1 hws)).resolve_left hne)
      · exact .inr ⟨hs, hws⟩

/-- `env_page_ws_invalidate` takes the element of the page out, or does nothing. -/
theorem WorkingSetOk.invalidate (h : WorkingSetOk s) (hr : envPageWsInvalidate false va s = .ok () t) :
    WorkingSetOk t ∧ Lists s t := by
  unfold envPageWsInvalidate at hr
  rw [get_bind, if_neg Bool.false_ne_true] at hr
  cases hfound : elementOf s.env.pageWsList va with
  | none =>
    simp only [hfound] at hr
    cases hr
    exact ⟨h, lists_same rfl rfl fun _ _ => rfl⟩
  | some w =>
    simp only [hfound] at hr
    obtain ⟨p, q, hl⟩ := List.append_of_mem (List.mem_of_find?_eq_some hfound)
    obtain ⟨_, u, h1, hr⟩ := ok_of_bind hr
    obtain ⟨_, m, h2, hr⟩ := ok_of_bind hr
    cases h2
    exact h.removed hl (removes_of h.resident hl h1 hr)

end Invariant

/-! ## Runs -/

inductive WsEvent where
  | fault (va : Nat) (tf : Trapframe)
  | invalidate (va : Nat)
  | access (va : Nat) (write : Bool)
  | update

/-- A fault that the process survives, a call of `env_page_ws_invalidate`, an access to a page that is there, and the
clock's update of the time stamps. -/
inductive WsStep : FaultState → WsEvent → FaultState → Prop
  | fault {s t : FaultState} {va : Nat} {tf : Trapframe} (hva : va < userTop) (htemp : va / 4096 ≠ pgfltemp / 4096)
      (hp : s.machine.present va = false) (hf : faultHandler va tf s = .ok .returns t) : WsStep s (.fault va tf) t
  | invalidate {s : FaultState} {m : Machine} {va : Nat} (hi : envPageWsInvalidate s.lruLists va s.machine = .ok () m) :
    WsStep s (.invalidate va) { s with machine := m }
  | access {s : FaultState} {va : Nat} {write : Bool} (frames : Nat → Page) (hva : va < userTop)
      (hp : s.machine.present va = true) :
        WsStep s (.access va write) { s with machine := accessed s.machine va write frames }
  | update {s : FaultState} {m : Machine} (hu : updateWSTimeStamps s.machine = .ok () m) :
    WsStep s .update { s with machine := m }

section Runs

variable {s t : Machine} {va : Nat}

theorem WorkingSetOk.table (h : WorkingSetOk s) (hno : s.mem.table s.env.envPageDirectory (pdx va) = none)
    (ht : tableFaultHandler va s = .ok () t) : WorkingSetOk t ∧ Lists s t := by
  have hq := quiet_tableFaultHandler h.resident.ready hno ht
  have hpages : wsPages t.env = wsPages s.env := by rw [wsPages, hq.env.ws, wsPages]
  have hdyn : t.kernel.dyn = s.kernel.dyn := dyn_tableFaultHandler _ _ _ ht
  have hblocks : ∃ n others, t.kernel.dyn.Ok n (t.env.pageWsList.map elementBlock ++ others) := by
    rw [hq.env.ws, hdyn]
    exact h.resident.blocks
  refine ⟨h.kept (h.resident.of hq.ready hq.env.dir hpages (hq.shown _) hblocks) ?_ hpages ?_ hq.env.size
    hq.env.last ?_, lists_same hq.env.dir hpages (hq.shown _)⟩
  · exact h.frames.kept (frames_tableFaultHandler h.resident.ready.dir h.frames.heap hno ht)
  · rw [hq.env.ws]
  · exact hq.env.ws ▸ h.stamps

theorem WorkingSetOk.accessed {write : Bool} (h : WorkingSetOk s) (frames : Nat → Page) (hva : va < userTop)
    (hp : s.present va = true) :
    WorkingSetOk (Fault.accessed s va write frames) ∧ Lists s (Fault.accessed s va write frames) := by
  have hq := unmoved_accessed h.resident.ready hva write frames hp
  refine ⟨h.kept (h.resident.of hq.ready rfl rfl (hq.shown _) h.resident.blocks) ?_ rfl rfl rfl rfl h.stamps,
    lists_same rfl rfl (hq.shown _)⟩
  exact h.frames.kept (frames_setPte h.resident.ready.dir h.frames.heap hva
    { s.pte va with perm := { (s.pte va).perm with used := true, modified := (s.pte va).perm.modified || write } }
    ⟨rfl, rfl, rfl⟩ frames s.pageFile)

theorem stamped_lt {n : Nat} (b : Bool) (h : n < 2 ^ 32) : stamped b n < 2 ^ 32 := by
  have hhalf : n >>> 1 < 2 ^ 32 := by
    rw [Nat.shiftRight_one]
    omega
  unfold stamped
  split
  · exact Nat.or_lt_two_pow hhalf (by decide)
  · exact hhalf

theorem WorkingSetOk.updated (h : WorkingSetOk s) (hu : updateWSTimeStamps s = .ok () t) :
    WorkingSetOk t ∧ Lists s t := by
  obtain ⟨ht, hl⟩ := resident_update h.resident hu
  obtain rfl := updateWSTimeStamps_ok h.resident hu
  have hsub : ∀ w ∈ s.env.pageWsList.filter (usedBit s), w.virtualAddress < userTop := fun w hw =>
    h.resident.ready.ws w (List.mem_filter.1 hw).1
  have hcalm := calm_foldl_clearUsed h.resident.ready hsub
  have hown := hcalm.frames _ (.inr rfl) h.frames
  have hpages : wsPages (Fault.updated s).env = wsPages s.env := by
    rw [wsPages, hl, List.map_map, wsPages]
    rfl
  refine ⟨h.kept ht (hown.kept ⟨hown.heap, rfl, fun _ _ hl => hl, fun _ _ => .refl _⟩) hpages ?_ hcalm.size ?_
    fun w hw => ?_, lists_same hcalm.dir hpages fun v _ => foldl_clearUsed_shown hsub v⟩
  · rw [hl, List.map_map]
    rfl
  · exact (congrArg Env.pageLastWsElement (foldl_clearUsed_env _ s) :)
  · rw [hl] at hw
    obtain ⟨x, hx, rfl⟩ := List.mem_map.1 hw
    exact stamped_lt _ (h.stamps x hx)

/-- What a step keeps. -/
structure WsInv (algo : PageRepAlgo) (K : Nat → Prop) (s : FaultState) : Prop where
  ok : WorkingSetOk s.machine
  algo : s.faults.pageRepAlgoType = algo
  listed : ∀ v < userPages, shown s.machine.mem s.machine.env.envPageDirectory v = true → v ∈ wsPages s.machine.env ∨
    K v

theorem WsInv.of {algo : PageRepAlgo} {K : Nat → Prop} {s t : FaultState} (h : WsInv algo K s)
    (ht : WorkingSetOk t.machine ∧ Lists s.machine t.machine)
    (ha : t.faults.pageRepAlgoType = s.faults.pageRepAlgoType) :
    WsInv algo K t := by
  refine ⟨ht.1, ha.trans h.algo, fun v hv hs => ?_⟩
  rcases ht.2 v hv hs with hin | ⟨hs, hno⟩
  · exact .inl hin
  · exact .inr ((h.listed v hv hs).resolve_left hno)

theorem WsInv.step {algo : PageRepAlgo} {K : Nat → Prop} {s t : FaultState} {e : WsEvent}
    (halgo : algo.hasVictim = true)
    (h : WsInv algo K s) (hst : WsStep s e t) : WsInv algo K t := by
  cases hst with
  | fault hva htemp hp hf =>
    obtain ⟨hH, ha⟩ := faultHandler_ok hf
    cases hH with
    | table hno ht => exact h.of (h.ok.table hno ht) ha
    | page _ _ hr =>
      rw [h.algo] at hr
      exact h.of (h.ok.fault halgo hva hp htemp hr) ha
  | invalidate hi =>
    have hlists : s.lruLists = false := by
      unfold FaultState.lruLists
      rw [h.algo]
      cases algo <;> first | rfl | cases halgo
    rw [hlists] at hi
    exact h.of (h.ok.invalidate hi) rfl
  | access frames hva hp => exact h.of (h.ok.accessed frames hva hp) rfl
  | update hu => exact h.of (h.ok.updated hu) rfl

end Runs

theorem stackKernel_mapOk : MapOk stackKernel :=
  (kheapInit_mapOk stackMemory_booted (s := stackKernel) rfl fun _ => rfl).ok

theorem stackMemory_plain (v : Nat) : (userEntry stackMemory 1 v).perm.buffered = false := by
  have hpte : stackMemory.pte (1, v) =
      if v = 977917 then ⟨800, presentUserWriteable⟩ else if v = 977916 then ⟨801, presentUserWriteable⟩ else {} := by
    simp [stackMemory, machine]
  unfold userEntry
  rw [hpte]
  split_ifs <;> rfl

theorem agingProcess_ok : WorkingSetOk agingProcess.machine := by
  have hnone : (entryOf agingProcess.machine (pgfltemp / 4096)).held = none := by decide
  have hpage : ∀ v, v ∈ wsPages agingProcess.machine.env ∨ v = pgfltemp / 4096 → v = pgfltemp / 4096 := fun v hv =>
    hv.resolve_left List.not_mem_nil
  refine ⟨agingProcess_resident, ⟨stackKernel_mapOk, fun v _ => stackMemory_plain v, fun v hv => hpage v hv ▸ by decide,
    fun v hv f hf => ?_, fun v w hv hw _ _ _ => (hpage v hv).trans (hpage w hw).symm⟩, by
      decide, (fun a ha => nomatch ha),
    fun w hw => absurd hw List.not_mem_nil⟩
  rw [hpage v hv, hnone] at hf
  cases hf

/-- Whatever kernel stacks are made, the working set is in order. -/
theorem WorkingSetOk.stacked {s : Machine} {k : Kernel} {base : Nat} (h : WorkingSetOk s)
    (hk : Stacked s.kernel k base) :
    WorkingSetOk { s with kernel := k } := by
  have hentries : ∀ v < userPages, entryOf { s with kernel := k } v = entryOf s v := fun v hv => hk.user _ hv
  have hkept : FramesKept s { s with kernel := k } :=
    ⟨hk.ok, rfl, hk.loose, fun v hv => by rw [hentries v hv]; exact .refl _⟩
  have hres : Resident { s with kernel := k } :=
    h.resident.of ⟨mapOk_ready hk.ok, h.resident.ready.dir, h.resident.ready.ws, h.resident.ready.active⟩ rfl rfl
      (fun v hv => congrArg (·.perm.present) (hentries v hv)) (by rw [hk.dyn]; exact h.resident.blocks)
  exact h.kept hres (h.frames.kept hkept) rfl rfl rfl rfl h.stamps

/-- The kernel of the small machine, with the kernel stack of the process. -/
@[irreducible] def processKernel : Kernel :=
  match createUserKernStack 1 stackKernel with
  | .ok _ k => k
  | .error _ _ => stackKernel

/-- `create_user_kern_stack` returns there. -/
def stackFits : Bool :=
  match createUserKernStack 1 stackKernel with
  | .ok _ _ => true
  | .error _ _ => false

theorem processKernel_run : ∃ base, createUserKernStack 1 stackKernel = .ok base processKernel := by
  have hfits : stackFits = true := by decide +kernel
  unfold stackFits at hfits
  unfold processKernel
  split at hfits
  · rename_i base k hk
    exact ⟨base, by rw [hk]⟩
  · cases hfits

theorem stackKernel_zero : Loose stackKernel.mem 0 1 := stackMemory_booted.loose_zero (by decide)

theorem processKernel_stacked : ∃ base, Stacked stackKernel processKernel base :=
  processKernel_run.imp fun _ h => createUserKernStack_stacked stackKernel_mapOk stackKernel_zero h

/-- The process with its kernel stack, whose lowest page is a guard page. -/
def stackedProcess : FaultState :=
  { agingProcess with machine := { agingProcess.machine with kernel := processKernel } }

theorem stackedProcess_ok : WorkingSetOk stackedProcess.machine := by
  obtain ⟨base, h⟩ := processKernel_stacked
  exact agingProcess_ok.stacked h

end Fos.Fault
