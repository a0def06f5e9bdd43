/-
LRU aging: `update_WS_time_stamps` of `kern/cpu/sched.c`, which the clock calls at every tick, and the
replacement by time stamps. The stamp of an element is the history of its page's used bit, and the victim is the
first element of the least history.
-/
import Fos.Fault.ClockHand
import Fos.Heap.LiveBlocks
import Fos.Lib.BitHistory

namespace Fos.Fault

open Fos.Memory Fos.Heap Fos.Proc Fos.Disk Fos.Lib

/-! ## The update -/

/-- One round of the loop. An element whose page has no table is left as it is. -/
def updateTimeStamp (w : WorkingSetElement) : PM WorkingSetElement := do
  let s ← get
  if !s.hasTable w.virtualAddress then return w
  let timeStamp := w.timeStamp >>> 1
  let entry := s.pte w.virtualAddress
  if !entry.perm.used then return { w with timeStamp }
  modifyMem (·.setPte (slot s.env.envPageDirectory w.virtualAddress)
    { entry with perm := { entry.perm with used := false } })
  return { w with timeStamp := timeStamp ||| 0x80000000 }

def updateTimeStamps : List WorkingSetElement → PM (List WorkingSetElement)
  | [] => return []
  | w :: l => do
    let w' ← updateTimeStamp w
    let l' ← updateTimeStamps l
    return w' :: l'

/-- `update_WS_time_stamps`. -/
def updateWSTimeStamps : PM Unit := do
  let l ← updateTimeStamps (← get).env.pageWsList
  modifyEnv fun e => { e with pageWsList := l }

/-- The time stamp after an update that found the used bit `used`. -/
def stamped (used : Bool) (timeStamp : Nat) : Nat := if used then timeStamp >>> 1 ||| 0x80000000 else timeStamp >>> 1

theorem stamped_register (b : Bool) (history : List Bool) :
    stamped b (register 32 history) = register 32 (b :: history) := by
  have hlt : register 32 history / 2 < 2 ^ 31 := by
    have := register_lt 32 history
    omega
  rw [register_cons 31, stamped, Nat.shiftRight_one]
  cases b with
  | false => simp
  | true =>
    have hor := Nat.two_pow_add_eq_or_of_lt hlt 1
    rw [if_pos rfl, Nat.or_comm, Bool.toNat_true, Nat.one_mul]
    rw [Nat.mul_one] at hor
    exact hor.symm

/-- The element after an update. -/
def stampElement (s : Machine) (w : WorkingSetElement) : WorkingSetElement :=
  { w with timeStamp := stamped (usedBit s w) w.timeStamp }

section Update

variable {s t : Machine} {w : WorkingSetElement}

theorem Pte.unused_eq (e : Pte) : Pte.unused e = { e with perm := { e.perm with used := false } } := by
  unfold Pte.unused Perm.diff Perm.union Perm.none
  simp

theorem Pte.unused_present (e : Pte) : (Pte.unused e).perm.present = e.perm.present := by
  rw [Pte.unused_eq]

theorem foldl_clearUsed_dyn : ∀ (l : List WorkingSetElement) (s : Machine),
    (l.foldl clearUsed s).kernel.dyn = s.kernel.dyn
  | [], _ => rfl
  | w :: l, s => foldl_clearUsed_dyn l (clearUsed s w)

theorem foldl_clearUsed_shown {l : List WorkingSetElement} (hl : ∀ w ∈ l, w.virtualAddress < userTop) (v : Nat) :
    shown (l.foldl clearUsed s).mem s.env.envPageDirectory v = shown s.mem s.env.envPageDirectory v := by
  rw [shown, foldl_clearUsed_entry hl v, shown]
  split
  · exact Pte.unused_present _
  · rfl

theorem updateTimeStamp_eq (ht : s.hasTable w.virtualAddress = true) :
    updateTimeStamp w s = .ok (stampElement s w) (if usedBit s w then clearUsed s w else s) := by
  unfold updateTimeStamp
  rw [get_bind, if_neg (by rw [ht]; decide)]
  by_cases hu : usedBit s w = true
  · have hused : ¬ (!(s.pte w.virtualAddress).perm.used) = true := by
      rw [show (s.pte w.virtualAddress).perm.used = true from hu]
      decide
    dsimp only
    rw [if_neg hused, if_pos hu, clearUsed, Pte.unused_eq, stampElement, stamped, if_pos hu]
    rfl
  · have hused : (!(s.pte w.virtualAddress).perm.used) = true := by
      rw [Bool.not_eq_true] at hu
      rw [show (s.pte w.virtualAddress).perm.used = false from hu]
      rfl
    dsimp only
    rw [if_pos hused, if_neg hu, stampElement, stamped, if_neg hu]
    rfl

/-- The used bit of another page, after one round. -/
theorem usedBit_round {x : WorkingSetElement} (hw : w.virtualAddress < userTop) (hx : x.virtualAddress < userTop)
    (hne : x.virtualAddress / 4096 ≠ w.virtualAddress / 4096) :
    usedBit (if usedBit s w then clearUsed s w else s) x = usedBit s x := by
  split
  · have hbit := foldl_clearUsed_usedBit (s := s) (l := [w]) (fun y hy => List.mem_singleton.1 hy ▸ hw) hx
    rwa [if_neg (show x.virtualAddress / 4096 ∉ [w].map (·.virtualAddress / 4096) from
      fun hc => hne (List.mem_singleton.1 hc))] at hbit
  · rfl

theorem hasTable_round (va : Nat) : (if usedBit s w then clearUsed s w else s).hasTable va = s.hasTable va := by
  split
  · exact foldl_clearUsed_hasTable [w] s va
  · rfl

/-- The loop: every element gets the bit that its page had at the start, and the bits are cleared. -/
theorem updateTimeStamps_eq : ∀ {l : List WorkingSetElement} {s : Machine},
    (∀ w ∈ l, s.hasTable w.virtualAddress = true) → (∀ w ∈ l, w.virtualAddress < userTop) →
    (l.map (·.virtualAddress / 4096)).Nodup →
    updateTimeStamps l s = .ok (l.map (stampElement s)) ((l.filter (usedBit s)).foldl clearUsed s)
  | [], _, _, _, _ => rfl
  | w :: l, s, ht, hva, hd => by
    obtain ⟨hno, hd⟩ := List.nodup_cons.1 hd
    have hbits : ∀ x ∈ l, usedBit (if usedBit s w then clearUsed s w else s) x = usedBit s x := fun x hx =>
      usedBit_round (hva w List.mem_cons_self) (hva x (List.mem_cons_of_mem w hx)) fun he =>
        hno (List.mem_map.2 ⟨x, hx, he⟩)
    have hrest := updateTimeStamps_eq (l := l) (s := if usedBit s w then clearUsed s w else s)
      (fun x hx => (hasTable_round _).trans (ht x (List.mem_cons_of_mem w hx)))
        (fun x hx => hva x (List.mem_cons_of_mem w hx)) hd
    have hmap : l.map (stampElement (if usedBit s w then clearUsed s w else s)) = l.map (stampElement s) :=
      List.map_congr_left fun x hx => by rw [stampElement, hbits x hx, stampElement]
    have hfilter : l.filter (usedBit (if usedBit s w then clearUsed s w else s)) = l.filter (usedBit s) :=
      List.filter_congr hbits
    rw [hmap, hfilter] at hrest
    unfold updateTimeStamps
    rw [bind_of_ok (updateTimeStamp_eq (ht w List.mem_cons_self)), bind_of_ok hrest, List.filter_cons]
    by_cases hu : usedBit s w = true
    · rw [if_pos hu, if_pos hu]
      rfl
    · rw [if_neg hu, if_neg hu]
      rfl

end Update

/-! ## The victim -/

section Oldest

variable {l p : List WorkingSetElement} {best : Option WorkingSetElement} {n bound : Nat}

/-- What the scan for the victim below `bound` knows of the elements it has passed. -/
def Scanned (bound : Nat) (p : List WorkingSetElement) (best : Option WorkingSetElement) (n : Nat) : Prop :=
  (best = none ∧ n = bound ∧ ∀ y ∈ p, n ≤ y.timeStamp) ∨
    ∃ b, best = some b ∧ n = b.timeStamp ∧ FirstLeast (·.timeStamp) p b

theorem Scanned.le (h : Scanned bound p best n) : ∀ y ∈ p, n ≤ y.timeStamp := by
  rcases h with ⟨-, -, h⟩ | ⟨b, -, rfl, h⟩
  · exact h
  · exact h.le

theorem oldest_scanned : ∀ {l p : List WorkingSetElement} {best : Option WorkingSetElement} {n : Nat},
    Scanned bound p best n → ∃ m, Scanned bound (p ++ l) (oldest l best n) m
  | [], p, best, n, h => ⟨n, by rwa [List.append_nil]⟩
  | w :: l, p, best, n, h => by
    rw [List.append_cons]
    unfold oldest
    split
    · rename_i hlt
      exact oldest_scanned (.inr ⟨w, rfl, rfl, firstLeast_last fun y hy => hlt.trans_le (h.le y hy)⟩)
    · rename_i hge
      apply oldest_scanned
      rcases h with ⟨rfl, hn, h⟩ | ⟨b, rfl, rfl, h⟩
      · refine .inl ⟨rfl, hn, fun y hy => ?_⟩
        rcases List.mem_append.1 hy with hy | hy
        · exact h y hy
        · exact List.mem_singleton.1 hy ▸ not_lt.1 hge
      · exact .inr ⟨b, rfl, rfl, h.keep (not_lt.1 hge)⟩

/-- The victim of the handler is the first element of the least time stamp. -/
theorem oldest_first (hl : ∀ w ∈ l, w.timeStamp < 2 ^ 32) {victim : WorkingSetElement}
    (h : (oldest l none 0xFFFFFFFF).or l.head? = some victim) : FirstLeast (·.timeStamp) l victim := by
  have hstart : Scanned 0xFFFFFFFF [] none 0xFFFFFFFF := .inl ⟨rfl, rfl, by simp⟩
  obtain ⟨m, hm⟩ := oldest_scanned (l := l) hstart
  rw [List.nil_append] at hm
  rcases hm with ⟨hnone, rfl, hall⟩ | ⟨b, hb, -, hfirst⟩
  · -- no stamp is below the bound: all are the largest one
    rw [hnone, Option.none_or] at h
    obtain ⟨rest, rfl⟩ : ∃ rest, l = victim :: rest := by
      cases l with
      | nil => cases h
      | cons x rest => exact ⟨rest, by rw [Option.some.inj h]⟩
    apply firstLeast_head
    intro y hy
    have hv := hl victim List.mem_cons_self
    have hy := hall y (List.mem_cons_of_mem _ hy)
    omega
  · rw [hb, Option.some_or] at h
    exact Option.some.inj h ▸ hfirst

end Oldest

/-! ## The blocks of the elements -/

/-- The block allocator of the kernel heap is as it was. -/
def SameDyn (s t : Machine) : Prop := t.kernel.dyn = s.kernel.dyn

section SameDyn

variable {va : Nat} {perm : Perm}

theorem SameDyn.trans {s t u : Machine} (h : SameDyn s t) (h' : SameDyn t u) : SameDyn s u := Eq.trans h' h

theorem onKernel_dyn {α : Type} {x : KM α} (hx : Does (fun s t => t.dyn = s.dyn) x) : Does SameDyn (onKernel x) := by
  intro s a t h
  obtain ⟨k, hk, rfl⟩ := onKernel_ok h
  exact hx _ _ _ hk

theorem dynPageRule : PageRule (fun _ => True) (Does SameDyn) where
  pure := .pure fun _ => rfl
  throw e _ := .throw e
  bind hx hf := hx.bind SameDyn.trans hf
  get := .get fun _ => rfl
  kmalloc := onKernel_dyn dynRule.kmallocPage
  pageFile _ := .modify fun _ => rfl
  disk _ _ := .modify fun _ => rfl
  unmodified va _ := fun s a t h => onKernel_dyn (onMem_dyn _) s a t h
  writeBack va _ := by
    unfold writeBack
    refine .bind SameDyn.trans (.get fun _ => rfl) fun s => .guard (R := SameDyn) SameDyn.trans ?_
    exact .bind SameDyn.trans (.modify fun _ => rfl) fun _ => .modify fun _ => rfl
  store va g _ := by
    intro s a t h
    unfold storePage at h
    rw [get_bind] at h
    split at h
    · cases h
      rfl
    · cases h

theorem dyn_tableFaultHandler : Does SameDyn (tableFaultHandler va) := fun s a t h =>
  onKernel_dyn (dyn_createPageTable _) s a t h

theorem dyn_placePage : Does SameDyn (placePage va perm) := by
  have hmap : ∀ f, Does SameDyn (mapUserFrame f va perm) := fun f s a t h => onKernel_dyn (dyn_mapFrame _ _ _) s a t h
  have hpure : ∀ o : Outcome, Does SameDyn (pure o : PM Outcome) := .pure fun _ => rfl
  unfold placePage
  refine .bind SameDyn.trans (onKernel_dyn (onMem_dyn _)) fun f => .bind SameDyn.trans (hmap f) fun _ => ?_
  refine .bind SameDyn.trans (dynPageRule.pfReadEnvPage trivial) fun b => .ite (hpure _) (.ite (hpure _) ?_)
  exact .bind SameDyn.trans (dynPageRule.store _ _ trivial) fun _ => hpure _

end SameDyn

/-! ## The replacement -/

/-- The end of `lruReplacement`, from where the victim is unmapped. -/
def lruFinish (va : Nat) (victim : WorkingSetElement) : PM Outcome := do
  unmapUserFrame victim.virtualAddress
  modifyEnv fun e => { e with pageWsList := setElement e.pageWsList victim.addr va true }
  match ← placePage va presentUserWriteable with
  | .exits => return .exits
  | .returns =>
    modifyEnv fun e => { e with
      pageLastWsElement := if e.pageWsList.length = e.pageWsMaxSize then e.pageWsList.head?.map (·.addr) else none }
    return .returns

/-- Nothing of the process changed but the page at `PGFLTEMP`. -/
structure WrittenBack (s t : Machine) : Prop where
  ready : Ready t
  env : Alike s.env t.env
  dyn : SameDyn s t
  shown : ∀ v < userPages, v ≠ pgfltemp / 4096 →
    shown t.mem s.env.envPageDirectory v = shown s.mem s.env.envPageDirectory v

/-- The victim's element has page `va`, which is there now, and the victim's page is gone. -/
structure TakesPlace (s t : Machine) (victim : WorkingSetElement) (va : Nat) : Prop where
  ready : Ready t
  dir : t.env.envPageDirectory = s.env.envPageDirectory
  list : t.env.pageWsList = setElement s.env.pageWsList victim.addr va true
  dyn : SameDyn s t
  shown : ∀ v < userPages, v ≠ pgfltemp / 4096 → shown t.mem s.env.envPageDirectory v =
    if v = va / 4096 then true else if v = victim.virtualAddress / 4096 then false
      else shown s.mem s.env.envPageDirectory v

section Replacement

variable {s t : Machine} {va : Nat} {o : Outcome} {victim : WorkingSetElement}

/-- A victim that is there and modified is written back, and then nothing is mapped at `PGFLTEMP`; another one stays as
it is. -/
def WritesBack (victim : WorkingSetElement) (s u : Machine) : Prop :=
  u = s ∧ (s.present victim.virtualAddress = true → modifiedBit s victim = false) ∨
    ∃ m, pfUpdateEnvPage victim.virtualAddress s = .ok () m ∧ unmapUserFrame pgfltemp m = .ok () u

/-- The handler writes the first element of the least time stamp back and goes on with it. -/
theorem lruReplacement_run (hl : ∀ w ∈ s.env.pageWsList, w.timeStamp < 2 ^ 32) (h : lruReplacement va s = .ok o t) :
    ∃ victim u, FirstLeast (·.timeStamp) s.env.pageWsList victim ∧ WritesBack victim s u ∧
      lruFinish va victim u = .ok o t := by
  unfold lruReplacement at h
  rw [get_bind] at h
  dsimp only at h
  cases hv : (oldest s.env.pageWsList none 0xFFFFFFFF).or s.env.pageWsList.head? with
  | none =>
    rw [hv] at h
    cases h
  | some victim =>
  rw [hv] at h
  have hfirst := oldest_first hl hv
  obtain ⟨perms, u, h1, h⟩ := ok_of_bind h
  obtain rfl : s = u := (EStateM.Result.ok.inj ((ptGetPagePermissions_eq _ s).symm.trans h1)).2
  split at h
  · rw [get_bind] at h
    split at h
    · obtain ⟨_, u₁, h2, h⟩ := ok_of_bind h
      obtain ⟨_, u₂, h3, h⟩ := ok_of_bind h
      exact ⟨victim, u₂, hfirst, .inr ⟨u₁, h2, h3⟩, h⟩
    · rename_i hno
      exact ⟨victim, s, hfirst, .inl ⟨rfl, fun hp => absurd (frame_of_present hp) hno⟩, h⟩
  · rename_i hclean
    exact ⟨victim, s, hfirst, .inl ⟨rfl, fun _ => unmodified_of_permissions h1 hclean⟩, h⟩

/-- The list with page `va` for the element at an address. -/
def withPage (s : Machine) (addr va : Nat) (resetTime : Bool) : Machine :=
  { s with env := { s.env with pageWsList := setElement s.env.pageWsList addr va resetTime } }

/-- It returns whenever the new page can be placed and the first element of the least time stamp can leave. -/
theorem lruReplacement_returns (hs : Ready s) (hl : ∀ w ∈ s.env.pageWsList, w.timeStamp < 2 ^ 32)
    (hne : s.env.pageWsList ≠ []) (htabs : ∀ w ∈ s.env.pageWsList, s.hasTable w.virtualAddress = true)
    (hplace : Placeable s va) (hal : va % 4096 = 0)
    (hleave : ∀ w, FirstLeast (·.timeStamp) s.env.pageWsList w → CanLeave s w) :
    ∃ t, lruReplacement va s = .ok .returns t := by
  have hend : ∀ {u : Machine} (w : WorkingSetElement), Leaves s u → ∃ t, lruFinish va w u = .ok .returns t := by
    intro u w hu
    obtain ⟨v, hgoes, hv⟩ := unmapUserFrame_returns w.virtualAddress u
    have hset : Leaves v (withPage v w.addr va true) := ⟨rfl, rfl, id, fun _ => id⟩
    obtain ⟨t, ht⟩ := placePage_returns (hplace.leaves ((hu.trans hv).trans hset)) hal presentUserWriteable
    unfold lruFinish
    rw [bind_of_ok hgoes, bind_of_ok (show modifyEnv _ v = .ok () (withPage v w.addr va true) from rfl), bind_of_ok ht]
    exact ⟨_, rfl⟩
  obtain ⟨victim, hv⟩ : ∃ victim, (oldest s.env.pageWsList none 0xFFFFFFFF).or s.env.pageWsList.head? =
      some victim := by
    obtain ⟨x, rest, hx⟩ := List.exists_cons_of_ne_nil hne
    rw [hx, List.head?_cons]
    cases oldest (x :: rest) none 0xFFFFFFFF with
    | none => exact ⟨x, rfl⟩
    | some w => exact ⟨w, rfl⟩
  have hfirst := oldest_first hl hv
  have hmem := hfirst.mem
  have ht := htabs victim hmem
  unfold lruReplacement
  rw [get_bind]
  dsimp only
  rw [hv]
  dsimp only
  rw [bind_of_ok (permissions_eq ht)]
  by_cases hm : (s.pte victim.virtualAddress).perm.modified = true
  · rw [if_pos hm, get_bind]
    split
    · obtain ⟨u, hback, hu⟩ := pfUpdateEnvPage_returns (hleave victim hfirst hm)
          (below_kernelBase (hs.ws victim hmem)) ht
      obtain ⟨v, htemp, hv⟩ := unmapUserFrame_returns pgfltemp u
      rw [bind_of_ok hback, bind_of_ok htemp]
      exact hend victim (hu.trans hv)
    · exact hend victim (.refl s)
  · rw [if_neg hm]
    exact hend victim (.refl s)

theorem WritesBack.writtenBack {u : Machine} (hs : Ready s) (hv : victim.virtualAddress < userTop)
    (h : WritesBack victim s u) :
    WrittenBack s u := by
  rcases h with ⟨rfl, -⟩ | ⟨m, h1, h2⟩
  · exact ⟨hs, .refl _, rfl, fun _ _ _ => rfl⟩
  · have hm := quiet_pfUpdateEnvPage hv _ _ _ h1 hs
    have hset := sets_unmap hm.ready (by decide) h2
    have hdyn : SameDyn m u := by
      cases h2
      rfl
    refine ⟨hset.ready, hm.env.trans hset.env, ?_, fun v hv hne => ?_⟩
    · exact SameDyn.trans (dynPageRule.pfUpdateEnvPage trivial _ _ _ h1) hdyn
    · rw [hset.shown _ v hv, if_neg fun hc => hne hc.2, hm.shown _ v hv]

/-- A page goes, its element gets page `va`, and that comes. -/
structure Exchanges (s t : Machine) (victim : WorkingSetElement) (va : Nat) (resetTime : Bool) : Prop where
  ready : Ready t
  env : Alike (withPage s victim.addr va resetTime).env t.env
  dyn : SameDyn s t
  shown : ∀ v < userPages, shown t.mem s.env.envPageDirectory v =
    if v = va / 4096 then true else if v = victim.virtualAddress / 4096 then false
      else shown s.mem s.env.envPageDirectory v

theorem exchanges_of {u : Machine} {perm : Perm} {r : Bool} (hs : Ready s) (hv : victim.virtualAddress < userTop)
    (hva : va < userTop) (hal : va % 4096 = 0) (h1 : unmapUserFrame victim.virtualAddress s = .ok () u)
    (h2 : placePage va perm (withPage u victim.addr va r) = .ok o t) : Exchanges s t victim va r := by
  have hgone := sets_unmap hs hv h1
  have hdyn : SameDyn s u := by
    cases h1
    rfl
  have hnew := placePage_sets (hgone.ready.setElement hva victim.addr r) hva hal h2
  have henv := hgone.env
  have hlist : Alike (withPage s victim.addr va r).env (withPage u victim.addr va r).env :=
    ⟨henv.dir, henv.size, congrArg (fun l => setElement l victim.addr va r) henv.ws, henv.last, henv.active,
      henv.stream⟩
  have hblocks : SameDyn (withPage u victim.addr va r) t := dyn_placePage _ _ _ h2
  refine ⟨hnew.ready, hlist.trans hnew.env, SameDyn.trans hdyn hblocks, fun v hlt => ?_⟩
  have h3 := hnew.shown s.env.envPageDirectory v hlt
  have h4 := hgone.shown s.env.envPageDirectory v hlt
  simp only [true_and] at h4
  rw [h3, ← h4]
  simp only [hgone.env.dir, true_and]
  rfl

theorem lruFinish_ok (hs : Ready s) (hv : victim.virtualAddress < userTop) (hva : va < userTop) (hal : va % 4096 = 0)
    (h : lruFinish va victim s = .ok o t) : TakesPlace s t victim va := by
  unfold lruFinish at h
  obtain ⟨_, s₁, h1, h⟩ := ok_of_bind h
  obtain ⟨_, s₂, h2, h⟩ := ok_of_bind h
  cases h2
  obtain ⟨o', u, h3, h⟩ := ok_of_bind h
  have hx : Exchanges s u victim va true := exchanges_of hs hv hva hal h1 h3
  have hplace : TakesPlace s u victim va := ⟨hx.ready, hx.env.dir, hx.env.ws, hx.dyn, fun v hlt _ => hx.shown v hlt⟩
  cases o' with
  | exits =>
    cases h
    exact hplace
  | returns =>
    cases h
    exact ⟨⟨hplace.ready.kernel, hplace.ready.dir, hplace.ready.ws, hplace.ready.active⟩, hplace.dir, hplace.list,
      hplace.dyn, hplace.shown⟩

end Replacement

/-! ## The working set -/

/-- The block of an element. -/
def elementBlock (w : WorkingSetElement) : LiveBlock := ⟨w.addr, sizeofWorkingSetElement⟩

/-- A working set of distinct pages that are there, none of them the kernel's at `PGFLTEMP`, in blocks of the kernel
heap that are in use. -/
structure Resident (s : Machine) : Prop where
  ready : Ready s
  pages : (wsPages s.env).Nodup
  temp : pgfltemp / 4096 ∉ wsPages s.env
  shown : ∀ v ∈ wsPages s.env, shown s.mem s.env.envPageDirectory v = true
  blocks : ∃ n others, s.kernel.dyn.Ok n (s.env.pageWsList.map elementBlock ++ others)

section Resident

variable {s t : Machine} {va : Nat} {o : Outcome} {w : WorkingSetElement}

theorem mem_wsPages (hw : w ∈ s.env.pageWsList) : w.virtualAddress / 4096 ∈ wsPages s.env := by
  unfold wsPages pages
  rw [List.map_map]
  exact List.mem_map_of_mem hw

theorem Resident.lt (h : Resident s) {v : Nat} (hv : v ∈ wsPages s.env) : v < userPages := by
  obtain ⟨va', hva', rfl⟩ := List.mem_map.1 hv
  obtain ⟨w, hw, rfl⟩ := List.mem_map.1 hva'
  exact (user_address (h.ready.ws w hw) 0).1

theorem Resident.addrs (h : Resident s) : (s.env.pageWsList.map (·.addr)).Nodup := by
  obtain ⟨n, others, hok⟩ := h.blocks
  have hd := hok.inv.liveNodup
  rw [List.map_append, List.map_map] at hd
  exact (List.nodup_append.1 hd).1

theorem Resident.table (h : Resident s) (hw : w ∈ s.env.pageWsList) : s.hasTable w.virtualAddress = true := by
  have hp := h.shown _ (mem_wsPages hw)
  rw [← present_eq (h.ready.ws w hw)] at hp
  exact (Bool.and_eq_true_iff.1 hp).1

/-- A page that is not there is not of the working set. -/
theorem Resident.absent (h : Resident s) (hva : va < userTop) (hp : s.present va = false) :
    va / 4096 ∉ wsPages s.env := by
  intro hin
  have := h.shown _ hin
  rw [← present_eq hva, hp] at this
  cases this

/-- The same pages and blocks, in another state. -/
theorem Resident.of (h : Resident s) (hr : Ready t) (hdir : t.env.envPageDirectory = s.env.envPageDirectory)
    (hpages : wsPages t.env = wsPages s.env)
    (hshown : ∀ v < userPages, Memory.shown t.mem s.env.envPageDirectory v =
      Memory.shown s.mem s.env.envPageDirectory v)
    (hblocks : ∃ n others, t.kernel.dyn.Ok n (t.env.pageWsList.map elementBlock ++ others)) : Resident t := by
  refine ⟨hr, hpages ▸ h.pages, hpages ▸ h.temp, fun v hv => ?_, hblocks⟩
  rw [hpages] at hv
  rw [hdir, hshown v (h.lt hv), h.shown v hv]

/-! Placement. -/

theorem envPageWsListCreateElement_ok {n : Nat} {live : List LiveBlock} (hok : s.kernel.dyn.Ok n live)
    (hal : va % 4096 = 0) (h : envPageWsListCreateElement va s = .ok w t) :
    w = ⟨w.addr, va, 0⟩ ∧ t.kernel.dyn.Ok n (elementBlock w :: live) := by
  unfold envPageWsListCreateElement at h
  split at h
  · obtain ⟨_, _, h, -⟩ := ok_of_bind h
    cases h
  obtain ⟨ptr, u, h1, h⟩ := ok_of_bind (x := onKernel (kmalloc sizeofWorkingSetElement)) h
  obtain ⟨k, hk, rfl⟩ := onKernel_ok h1
  split at h
  · obtain ⟨_, _, h, -⟩ := ok_of_bind h
    cases h
  cases h
  have hrd : roundDown va pageSize = va := roundDown_of_dvd (by simp only [pageSize]; omega)
  rw [hrd]
  exact ⟨rfl, kmalloc_block_live hok (by decide) (by decide) hk⟩

/-- The end of placement: the hand goes to the first element of a list that has become full. -/
def toFirst (e : Env) : Env :=
  if e.pageWsList.length = e.pageWsMaxSize then { e with pageLastWsElement := e.pageWsList.head?.map (·.addr) } else e

/-- The pages of a list of elements. -/
def elementPages (l : List WorkingSetElement) : List Nat := pages (l.map (·.virtualAddress))

/-- What placement did: the page is there, and unless the process exits a new element has it. -/
structure Placed (s t : Machine) (va : Nat) (o : Outcome) : Prop where
  ready : Ready t
  dir : t.env.envPageDirectory = s.env.envPageDirectory
  size : t.env.pageWsMaxSize = s.env.pageWsMaxSize
  last : t.env.pageLastWsElement = s.env.pageLastWsElement ∨
    t.env.pageLastWsElement = t.env.pageWsList.head?.map (·.addr)
  shown : ∀ v < userPages, shown t.mem s.env.envPageDirectory v =
    if v = va / 4096 then true else shown s.mem s.env.envPageDirectory v
  list : (o = .exits ∧ t.env.pageWsList = s.env.pageWsList ∧ SameDyn s t) ∨
    ∃ w, t.env.pageWsList = s.env.pageWsList ++ [w] ∧ w = ⟨w.addr, va, 0⟩ ∧
      ∀ n live, s.kernel.dyn.Ok n live → t.kernel.dyn.Ok n (elementBlock w :: live)

theorem placement_ok (h : Resident s) (hva : va < userTop) (hal : va % 4096 = 0) (hr : placement va s = .ok o t) :
    Placed s t va o := by
  unfold placement at hr
  obtain ⟨o', u, h1, hr⟩ := ok_of_bind hr
  have hset := placePage_sets h.ready hva hal h1
  have hdyn := dyn_placePage _ _ _ h1
  have hshown : ∀ v < userPages, Memory.shown u.mem s.env.envPageDirectory v =
      if v = va / 4096 then true else Memory.shown s.mem s.env.envPageDirectory v := by
    intro v hv
    have := hset.shown s.env.envPageDirectory v hv
    simpa only [true_and] using this
  cases o' with
  | exits =>
    cases hr
    exact ⟨hset.ready, hset.env.dir, hset.env.size, .inl hset.env.last, hshown, .inl ⟨rfl, hset.env.ws, hdyn⟩⟩
  | returns =>
    obtain ⟨w, u', h2, hr⟩ := ok_of_bind hr
    have hq := quiet_envPageWsListCreateElement _ _ _ h2 hset.ready
    have hok : ∀ n live, s.kernel.dyn.Ok n live → w = ⟨w.addr, va, 0⟩ ∧ u'.kernel.dyn.Ok n (elementBlock w :: live) :=
      fun n live hok => envPageWsListCreateElement_ok (s := u) (by rw [hdyn]; exact hok) hal h2
    obtain ⟨n, others, hblocks⟩ := h.blocks
    have hw := (hok n _ hblocks).1
    have he := hset.env.trans hq.env
    obtain ⟨_, r, h3, hr⟩ := ok_of_bind hr
    cases h3
    obtain ⟨_, r, h4, hr⟩ := ok_of_bind hr
    cases h4
    cases hr
    have hready : ∀ x ∈ s.env.pageWsList ++ [w], x.virtualAddress < userTop := by
      intro x hx
      rcases List.mem_append.1 hx with hx | hx
      · exact h.ready.ws x hx
      · rw [List.mem_singleton.1 hx, hw]
        exact hva
    have hkeep : ∀ v < userPages, Memory.shown u'.mem s.env.envPageDirectory v =
        if v = va / 4096 then true else Memory.shown s.mem s.env.envPageDirectory v := fun v hv =>
      (hq.shown _ v hv).trans (hshown v hv)
    have hlists : ∀ e : Env, (toFirst e).envPageDirectory = e.envPageDirectory ∧ (toFirst e).pageWsList = e.pageWsList ∧
        (toFirst e).activeWorkingSet = e.activeWorkingSet ∧ (toFirst e).pageWsMaxSize = e.pageWsMaxSize ∧
        ((toFirst e).pageLastWsElement = e.pageLastWsElement ∨
          (toFirst e).pageLastWsElement = e.pageWsList.head?.map (·.addr)) := by
      intro e
      unfold toFirst
      split
      · exact ⟨rfl, rfl, rfl, rfl, .inr rfl⟩
      · exact ⟨rfl, rfl, rfl, rfl, .inl rfl⟩
    obtain ⟨hd, hl, ha, hsize, hlast⟩ := hlists { u'.env with pageWsList := u'.env.pageWsList ++ [w] }
    refine ⟨⟨hq.ready.kernel, ?_, ?_, ?_⟩, hd.trans he.dir, hsize.trans he.size, ?_, hkeep,
      .inr ⟨w, ?_, hw, fun n live hl => (hok n live hl).2⟩⟩
    · exact hd.symm ▸ hq.ready.dir
    · exact hl.symm ▸ he.ws.symm ▸ hready
    · exact ha.symm ▸ hq.ready.active
    · exact hlast.imp (fun hlast => hlast.trans he.last) fun hlast =>
        hlast.trans (congrArg (fun l => l.head?.map (·.addr)) hl.symm)
    · exact hl.trans (congrArg (· ++ [w]) he.ws)

theorem resident_placed (h : Resident s) (hva : va < userTop) (hal : va % 4096 = 0) (hnew : va / 4096 ∉ wsPages s.env)
    (htemp : va / 4096 ≠ pgfltemp / 4096) (hr : placement va s = .ok o t) :
    Resident t ∧ t.env.envPageDirectory = s.env.envPageDirectory ∧
      (t.env.pageWsList = s.env.pageWsList ∨ ∃ a, t.env.pageWsList = s.env.pageWsList ++ [⟨a, va, 0⟩]) := by
  obtain ⟨hready, hdir, -, -, hshown, hlist⟩ := placement_ok h hva hal hr
  have hlt := (user_address hva 0).1
  have hold : ∀ v ∈ wsPages s.env, shown t.mem t.env.envPageDirectory v = true := by
    intro v hv
    rw [hdir, hshown v (h.lt hv)]
    split
    · rfl
    · exact h.shown _ hv
  obtain ⟨n, others, hok⟩ := h.blocks
  rcases hlist with ⟨-, hl, hdyn⟩ | ⟨w, hl, hw, hblocks⟩
  · have hpages : wsPages t.env = wsPages s.env := by rw [wsPages, hl, wsPages]
    refine ⟨⟨hready, hpages ▸ h.pages, hpages ▸ h.temp, hpages ▸ hold, n, others, ?_⟩, hdir, .inl hl⟩
    rw [hl, hdyn]
    exact hok
  · have hpages : wsPages t.env = wsPages s.env ++ [va / 4096] := by
      rw [wsPages, hl, hw, wsPages, pages, pages, List.map_append, List.map_append]
      rfl
    refine ⟨⟨hready, ?_, ?_, ?_, n, others, ?_⟩, hdir, .inr ⟨w.addr, hw ▸ hl⟩⟩
    · rw [hpages]
      exact h.pages.append (List.nodup_singleton _) fun v hv hv' => hnew (List.mem_singleton.1 hv' ▸ hv)
    · rw [hpages, List.mem_append, not_or]
      exact ⟨h.temp, fun hc => htemp (List.mem_singleton.1 hc).symm⟩
    · rw [hpages]
      intro v hv
      rcases List.mem_append.1 hv with hv | hv
      · exact hold v hv
      · rw [List.mem_singleton.1 hv, hdir, hshown _ hlt, if_pos rfl]
    · refine (hblocks n _ hok).perm ?_
      rw [hl, List.map_append, List.append_assoc]
      exact List.perm_middle.symm

/-- An element of a working set has another page `va`, whatever the order of the list: the new page is there and the
old one is not. -/
structure Swapped (s t : Machine) (victim : WorkingSetElement) (va : Nat) : Prop where
  ready : Ready t
  dir : t.env.envPageDirectory = s.env.envPageDirectory
  list : ∃ rest time, s.env.pageWsList.Perm (victim :: rest) ∧ t.env.pageWsList.Perm (⟨victim.addr, va, time⟩ :: rest) ∧
    (time = 0 ∨ time = victim.timeStamp)
  dyn : SameDyn s t
  shown : ∀ v < userPages, v ≠ pgfltemp / 4096 → shown t.mem s.env.envPageDirectory v =
    if v = va / 4096 then true else if v = victim.virtualAddress / 4096 then false
      else shown s.mem s.env.envPageDirectory v

theorem wsPages_perm {l : List WorkingSetElement} (h : s.env.pageWsList.Perm l) :
    (wsPages s.env).Perm (elementPages l) :=
  (h.map _).map _

theorem resident_swapped {victim : WorkingSetElement} (h : Resident s) (hT : Swapped s t victim va) (hva : va < userTop)
    (hnew : va / 4096 ∉ wsPages s.env) (htemp : va / 4096 ≠ pgfltemp / 4096) :
    Resident t ∧ shown t.mem s.env.envPageDirectory (victim.virtualAddress / 4096) = false := by
  obtain ⟨rest, time, hl, hl', -⟩ := hT.list
  have hsplit : (wsPages s.env).Perm (victim.virtualAddress / 4096 :: elementPages rest) := wsPages_perm hl
  have hsplit' : (wsPages t.env).Perm (va / 4096 :: elementPages rest) := wsPages_perm hl'
  obtain ⟨hout, hrest⟩ := List.nodup_cons.1 (hsplit.nodup_iff.1 h.pages)
  have hother : ∀ v ∈ elementPages rest, v ∈ wsPages s.env := fun v hv => hsplit.mem_iff.2 (List.mem_cons_of_mem _ hv)
  have hne : ∀ v ∈ wsPages s.env, v ≠ pgfltemp / 4096 ∧ v ≠ va / 4096 := fun v hv =>
    ⟨fun hc => h.temp (hc ▸ hv), fun hc => hnew (hc ▸ hv)⟩
  obtain ⟨n, others, hok⟩ := h.blocks
  refine ⟨⟨hT.ready, ?_, fun hc => ?_, fun v hv => ?_, n, others, ?_⟩, ?_⟩
  · refine hsplit'.nodup_iff.2 (List.nodup_cons.2 ⟨fun hc => hnew (hother _ hc), hrest⟩)
  · rcases List.mem_cons.1 (hsplit'.mem_iff.1 hc) with hc | hc
    · exact htemp hc.symm
    · exact h.temp (hother _ hc)
  · rw [hT.dir]
    rcases List.mem_cons.1 (hsplit'.mem_iff.1 hv) with rfl | hv
    · rw [hT.shown _ (user_address hva 0).1 htemp, if_pos rfl]
    · have hs := hother v hv
      have hgone : v ≠ victim.virtualAddress / 4096 := fun hc => hout (hc ▸ hv)
      rw [hT.shown v (h.lt hs) (hne v hs).1, if_neg (hne v hs).2, if_neg hgone, h.shown v hs]
  · -- the element's block is the same
    have hblocks : (s.env.pageWsList.map elementBlock).Perm (t.env.pageWsList.map elementBlock) :=
      (hl.map elementBlock).trans (hl'.map elementBlock).symm
    rw [show t.kernel.dyn = s.kernel.dyn from hT.dyn]
    exact hok.perm (hblocks.append_right others)
  · have hv := hsplit.mem_iff.2 List.mem_cons_self
    rw [hT.shown _ (h.lt hv) (hne _ hv).1, if_neg (hne _ hv).2, if_pos rfl]

/-- The victim's element has the new page, and the victim's page is not there any more. -/
theorem resident_replaced {u : Machine} {victim : WorkingSetElement} {p q : List WorkingSetElement} (h : Resident s)
    (hw : WrittenBack s u) (hT : TakesPlace u t victim va) (hl : s.env.pageWsList = p ++ victim :: q)
    (hva : va < userTop) (hnew : va / 4096 ∉ wsPages s.env) (htemp : va / 4096 ≠ pgfltemp / 4096) :
    Resident t ∧ t.env.pageWsList = p ++ ⟨victim.addr, va, 0⟩ :: q ∧
      shown t.mem s.env.envPageDirectory (victim.virtualAddress / 4096) = false := by
  have hd := h.addrs
  rw [hl] at hd
  have hlist : t.env.pageWsList = p ++ ⟨victim.addr, va, 0⟩ :: q := by
    rw [hT.list, hw.env.ws, hl]
    exact setElement_split hd true
  have hswap : Swapped s t victim va := by
    refine ⟨hT.ready, hT.dir.trans hw.env.dir, ⟨p ++ q, 0, ?_, ?_, .inl rfl⟩, SameDyn.trans hw.dyn hT.dyn,
      fun v hv hne => ?_⟩
    · exact hl ▸ List.perm_middle
    · exact hlist ▸ List.perm_middle
    · have hplace := hT.shown v hv hne
      rw [hw.env.dir, hw.shown v hv hne] at hplace
      exact hplace
  obtain ⟨ht, hgone⟩ := resident_swapped h hswap hva hnew htemp
  exact ⟨ht, hlist, hgone⟩

/-- What a page fault at `va` makes of the working set: it may grow while it has room, and of a full one the first
element of the least time stamp gets the new page. -/
def FaultedWs (s t : Machine) (va : Nat) : Prop :=
  if s.env.pageWsList.length < s.env.pageWsMaxSize then
    t.env.pageWsList = s.env.pageWsList ∨ ∃ a, t.env.pageWsList = s.env.pageWsList ++ [⟨a, roundDown va pageSize, 0⟩]
  else ∃ p victim q, s.env.pageWsList = p ++ victim :: q ∧
    t.env.pageWsList = p ++ ⟨victim.addr, roundDown va pageSize, 0⟩ :: q ∧
    shown t.mem s.env.envPageDirectory (victim.virtualAddress / 4096) = false ∧
    (∀ x ∈ p, victim.timeStamp < x.timeStamp) ∧ ∀ x ∈ q, victim.timeStamp ≤ x.timeStamp

theorem resident_fault (h : Resident s) (hstamps : ∀ w ∈ s.env.pageWsList, w.timeStamp < 2 ^ 32) (hva : va < userTop)
    (hp : s.present va = false) (htemp : va / 4096 ≠ pgfltemp / 4096)
    (hr : pageFaultHandler .lruTimeApprox va s = .ok o t) :
    Resident t ∧ FaultedWs s t va := by
  have hrd := roundDown_lt hva
  have hal := roundDown_aligned va
  have hdiv := roundDown_div va
  have hnew : roundDown va pageSize / 4096 ∉ wsPages s.env := hdiv ▸ h.absent hva hp
  have htemp : roundDown va pageSize / 4096 ≠ pgfltemp / 4096 := hdiv ▸ htemp
  unfold pageFaultHandler at hr
  rw [if_neg (by decide), get_bind] at hr
  dsimp only at hr
  split at hr
  · rename_i hroom
    obtain ⟨ht, -, hl⟩ := resident_placed h hrd hal hnew htemp hr
    rw [FaultedWs, if_pos hroom]
    exact ⟨ht, hl⟩
  · rename_i hfull
    obtain ⟨victim, u, ⟨p, q, hl, hfirst, hlater⟩, hb, hf⟩ := lruReplacement_run hstamps hr
    have hv : victim.virtualAddress < userTop := h.ready.ws victim (by rw [hl]; simp)
    have hw := hb.writtenBack h.ready hv
    obtain ⟨ht, hl', hgone⟩ := resident_replaced h hw (lruFinish_ok hw.ready hv hrd hal hf) hl hrd hnew htemp
    rw [FaultedWs, if_neg hfull]
    exact ⟨ht, p, victim, q, hl, hl', hgone, hfirst, hlater⟩

/-- An element after a fault was there before it, or has the new page. -/
theorem FaultedWs.mem (h : FaultedWs s t va) (hw : w ∈ t.env.pageWsList) :
    w ∈ s.env.pageWsList ∨ w.virtualAddress = roundDown va pageSize ∧ w.timeStamp = 0 := by
  unfold FaultedWs at h
  split at h
  · rcases h with hl | ⟨a, hl⟩
    · exact .inl (hl ▸ hw)
    · rw [hl, List.mem_append] at hw
      apply hw.imp_right
      intro hw
      rw [List.mem_singleton.1 hw]
      exact ⟨rfl, rfl⟩
  · obtain ⟨p, victim, q, hl, hl', -⟩ := h
    rw [hl', List.mem_append, List.mem_cons] at hw
    rw [hl, List.mem_append, List.mem_cons]
    rcases hw with hw | rfl | hw
    · exact .inl (.inl hw)
    · exact .inr ⟨rfl, rfl⟩
    · exact .inl (.inr (.inr hw))

end Resident

/-! ## Runs -/

/-- A state, and for each page the used bits that the updates found since it came, latest first. -/
structure Aged where
  state : FaultState
  history : Nat → List Bool

/-- An update finds the used bit of each page of the working set. -/
def logUpdate (s : Machine) (history : Nat → List Bool) (v : Nat) : List Bool :=
  if v ∈ wsPages s.env then (userEntry s.mem s.env.envPageDirectory v).perm.used :: history v else history v

/-- A page that comes starts anew. -/
def logFault (s : Machine) (history : Nat → List Bool) (v : Nat) : List Bool :=
  if v ∈ wsPages s.env then history v else []

/-- The CPU accesses a page, reads or writes it and sets its bits. -/
def accessed (s : Machine) (va : Nat) (write : Bool) (frames : Nat → Page) : Machine :=
  let e := s.pte va
  { s.setMem (s.mem.setPte (slot s.env.envPageDirectory va)
      { e with perm := { e.perm with used := true, modified := e.perm.modified || write } }) with frames }

inductive AgingEvent where
  | update
  | access (va : Nat) (write : Bool)
  | fault (va : Nat) (tf : Trapframe)
  | others

/-- Updates, accesses to pages that are there, faults on pages that are not, and what else runs. -/
inductive Ages : Aged → AgingEvent → Aged → Prop
  | update {s : FaultState} {history : Nat → List Bool} {m : Machine} (hu : updateWSTimeStamps s.machine = .ok () m) :
    Ages ⟨s, history⟩ .update ⟨{ s with machine := m }, logUpdate s.machine history⟩
  | access {s : FaultState} {history : Nat → List Bool} {va : Nat} {write : Bool}
      (frames : Nat → Page) (hva : va < userTop)
      (hp : s.machine.present va = true) :
    Ages ⟨s, history⟩ (.access va write) ⟨{ s with machine := accessed s.machine va write frames }, history⟩
  | fault {s t : FaultState} {history : Nat → List Bool} {va : Nat} {tf : Trapframe} {o : Outcome} (hva : va < userTop)
      (htemp : va / 4096 ≠ pgfltemp / 4096) (hp : s.machine.present va = false) (hf : faultHandler va tf s = .ok o t) :
    Ages ⟨s, history⟩ (.fault va tf) ⟨t, logFault s.machine history⟩
  | others {s t : FaultState} {history : Nat → List Bool} (ho : Others s t)
      (hb : ∃ n others, t.machine.kernel.dyn.Ok n (t.machine.env.pageWsList.map elementBlock ++ others)) :
    Ages ⟨s, history⟩ .others ⟨t, history⟩

/-- The time stamps are the histories. -/
def Stamped (a : Aged) : Prop :=
  ∀ w ∈ a.state.machine.env.pageWsList, w.timeStamp = register 32 (a.history (w.virtualAddress / 4096))

/-- Of a full working set the first page of the least history goes, and its element has the new page. The handler
returns whenever the new page can be placed and that one, if modified, can be written back. -/
def TakesOldest (a : Aged) : Prop :=
  ∀ va, va < userTop → va / 4096 ≠ pgfltemp / 4096 → a.state.machine.present va = false →
    a.state.machine.env.pageWsMaxSize ≤ a.state.machine.env.pageWsList.length → a.state.machine.env.pageWsList ≠ [] →
    ∃ p victim q, a.state.machine.env.pageWsList = p ++ victim :: q ∧
      (∀ x ∈ p, recent 32 (a.history (victim.virtualAddress / 4096)) <
        recent 32 (a.history (x.virtualAddress / 4096))) ∧
      (∀ x ∈ q, ¬ recent 32 (a.history (x.virtualAddress / 4096)) <
        recent 32 (a.history (victim.virtualAddress / 4096))) ∧
      (Placeable a.state.machine (roundDown va pageSize) → CanLeave a.state.machine victim →
        ∃ t, pageFaultHandler a.state.faults.pageRepAlgoType va a.state.machine = .ok .returns t) ∧
      ∀ o t, pageFaultHandler a.state.faults.pageRepAlgoType va a.state.machine = .ok o t →
        t.env.pageWsList = p ++ ⟨victim.addr, roundDown va pageSize, 0⟩ :: q ∧
        shown t.mem a.state.machine.env.envPageDirectory (victim.virtualAddress / 4096) = false

/-- The invariant of a run. -/
structure Aged.Inv (a : Aged) : Prop where
  resident : Resident a.state.machine
  algo : a.state.faults.pageRepAlgoType = .lruTimeApprox
  stamps : Stamped a

section Runs

variable {s t : Machine} {a b : Aged} {e : AgingEvent}

theorem Aged.Inv.lt (h : a.Inv) : ∀ w ∈ a.state.machine.env.pageWsList, w.timeStamp < 2 ^ 32 := by
  intro w hw
  rw [h.stamps w hw]
  exact register_lt _ _

theorem Aged.Inv.takesOldest (h : a.Inv) : TakesOldest a := by
  intro va hva htemp hp hfull hne
  obtain ⟨victim, p, q, hl, hfirst, hlater⟩ : ∃ w, FirstLeast (·.timeStamp) a.state.machine.env.pageWsList w :=
    exists_firstLeast hne
  have hmem : ∀ x, x ∈ p ∨ x = victim ∨ x ∈ q → x.timeStamp = register 32 (a.history (x.virtualAddress / 4096)) := by
    refine fun x hx => h.stamps x ?_
    rw [hl, List.mem_append, List.mem_cons]
    exact hx
  rw [h.algo]
  refine ⟨p, victim, q, hl, fun x hx => ?_, fun x hx => ?_, fun hplace hleave => ?_, fun o t hr => ?_⟩
  · have : victim.timeStamp < x.timeStamp := hfirst x hx
    rwa [hmem x (.inl hx), hmem victim (.inr (.inl rfl)), register_lt_iff] at this
  · have : victim.timeStamp ≤ x.timeStamp := hlater x hx
    rwa [hmem x (.inr (.inr hx)), hmem victim (.inr (.inl rfl)), register_le_iff] at this
  · have hvictim : ∀ w, FirstLeast (·.timeStamp) a.state.machine.env.pageWsList w → CanLeave a.state.machine w := by
      rintro w ⟨p', q', hl', hfirst', hlater'⟩
      obtain ⟨-, rfl, -⟩ := firstLeast_unique (hl.symm.trans hl') hfirst hlater hfirst' hlater'
      exact hleave
    obtain ⟨t, ht⟩ := lruReplacement_returns h.resident.ready h.lt hne (fun w hw => h.resident.table hw) hplace
      (roundDown_aligned va) hvictim
    refine ⟨t, ?_⟩
    unfold pageFaultHandler
    rw [if_neg (by decide), get_bind]
    dsimp only
    rw [if_neg (not_lt.2 hfull)]
    exact ht
  · obtain ⟨-, hws⟩ := resident_fault h.resident h.lt hva hp htemp hr
    rw [FaultedWs, if_neg (not_lt.2 hfull)] at hws
    obtain ⟨p', victim', q', hl', hlist, hgone, hfirst', hlater'⟩ := hws
    obtain ⟨rfl, rfl, rfl⟩ := firstLeast_unique (hl.symm.trans hl') hfirst hlater hfirst' hlater'
    exact ⟨hlist, hgone⟩

/-- The used bit of an element's page. -/
theorem usedBit_entry (h : Resident s) {w : WorkingSetElement} (hw : w ∈ s.env.pageWsList) :
    (userEntry s.mem s.env.envPageDirectory (w.virtualAddress / 4096)).perm.used = usedBit s w := by
  obtain ⟨-, hown, hslot, hpdx⟩ := user_address (h.ready.ws w hw) s.env.envPageDirectory
  have ht := h.table hw
  rw [Machine.hasTable, hown, hpdx] at ht
  rw [userEntry, if_pos ht, usedBit, Machine.pte, hslot]

/-- The state after an update: every used page lost its bit, and every element has a new stamp. -/
def updated (s : Machine) : Machine :=
  let u := (s.env.pageWsList.filter (usedBit s)).foldl clearUsed s
  { u with env := { u.env with pageWsList := s.env.pageWsList.map (stampElement s) } }

theorem updateWSTimeStamps_ok (h : Resident s) (hu : updateWSTimeStamps s = .ok () t) : t = updated s := by
  have hd := h.pages
  unfold wsPages pages at hd
  rw [List.map_map] at hd
  have heq := updateTimeStamps_eq (fun w hw => h.table hw) h.ready.ws hd
  unfold updateWSTimeStamps at hu
  rw [get_bind, bind_of_ok heq] at hu
  cases hu
  rfl

theorem resident_update (h : Resident s) (hu : updateWSTimeStamps s = .ok () t) :
    Resident t ∧ t.env.pageWsList = s.env.pageWsList.map (stampElement s) := by
  obtain rfl := updateWSTimeStamps_ok h hu
  have henv := foldl_clearUsed_env (s.env.pageWsList.filter (usedBit s)) s
  have hsub : ∀ w ∈ s.env.pageWsList.filter (usedBit s), w.virtualAddress < userTop := fun w hw =>
    h.ready.ws w (List.mem_filter.1 hw).1
  have hcleared := h.ready.foldl_clearUsed hsub
  have hdir := congrArg Env.envPageDirectory henv
  refine ⟨h.of ⟨hcleared.kernel, hcleared.dir, fun w hw => ?_, hcleared.active⟩ hdir ?_ (fun v _ => ?_) ?_, rfl⟩
  · obtain ⟨x, hx, rfl⟩ := List.mem_map.1 hw
    exact h.ready.ws x hx
  · show elementPages (s.env.pageWsList.map (stampElement s)) = elementPages s.env.pageWsList
    unfold elementPages
    rw [List.map_map]
    rfl
  · exact foldl_clearUsed_shown hsub v
  · obtain ⟨n, others, hok⟩ := h.blocks
    have hdyn := foldl_clearUsed_dyn (s.env.pageWsList.filter (usedBit s)) s
    refine ⟨n, others, ?_⟩
    show DynAlloc.Ok n ((s.env.pageWsList.filter (usedBit s)).foldl clearUsed s).kernel.dyn
      ((s.env.pageWsList.map (stampElement s)).map elementBlock ++ others)
    rw [hdyn, List.map_map]
    exact hok

theorem unmoved_accessed {va : Nat} (hs : Ready s) (hva : va < userTop) (write : Bool) (frames : Nat → Page)
    (hp : s.present va = true) : Unmoved s (accessed s va write frames) := by
  have ht : s.hasTable va = true := (Bool.and_eq_true_iff.1 hp).1
  have hset := (sets_setPte hs hva
    { s.pte va with perm :=
      { (s.pte va).perm with used := true, modified := (s.pte va).perm.modified || write } } ht).same
    ((present_eq hva).symm.trans (hp.trans (Bool.and_eq_true_iff.1 hp).2.symm))
  exact ⟨⟨hset.ready.kernel, hs.dir, hs.ws, hs.active⟩, .refl _, hset.shown⟩

/-- What runs keeps the working set, and the histories are those of the log. -/
theorem Aged.Inv.step (hI : a.Inv) (h : Ages a e b) : b.Inv := by
  cases h with
  | @update s history m hu =>
    obtain ⟨hr, hl⟩ := resident_update hI.resident hu
    refine ⟨hr, hI.algo, fun w hw => ?_⟩
    obtain ⟨x, hx, rfl⟩ := List.mem_map.1 (hl ▸ hw)
    have hstamp : x.timeStamp = register 32 (history (x.virtualAddress / 4096)) := hI.stamps x hx
    show stamped (usedBit s.machine x) x.timeStamp = register 32 (logUpdate s.machine history (x.virtualAddress / 4096))
    rw [logUpdate, if_pos (mem_wsPages hx), usedBit_entry hI.resident hx, ← stamped_register, hstamp]
  | @access s history va write frames hva hp =>
    have hq := unmoved_accessed hI.resident.ready hva write frames hp
    exact ⟨hI.resident.of hq.ready rfl rfl (hq.shown _) hI.resident.blocks, hI.algo, hI.stamps⟩
  | @fault s t history va tf o hva htemp hp hf =>
    obtain ⟨hH, halgo⟩ := faultHandler_ok hf
    -- without a page fault the working set is as it was
    have hsame : Resident t.machine → t.machine.env.pageWsList = s.machine.env.pageWsList →
        Aged.Inv ⟨t, logFault s.machine history⟩ := by
      intro hr hl
      refine ⟨hr, halgo.trans hI.algo, fun w hw => ?_⟩
      have hw : w ∈ s.machine.env.pageWsList := hl ▸ hw
      show w.timeStamp = register 32 (logFault s.machine history (w.virtualAddress / 4096))
      rw [logFault, if_pos (mem_wsPages hw)]
      exact hI.stamps w hw
    cases hH with
    | table hno ht =>
      have hq := quiet_tableFaultHandler hI.resident.ready hno ht
      have hpages : wsPages t.machine.env = wsPages s.machine.env := by rw [wsPages, hq.env.ws, wsPages]
      obtain ⟨n, others, hok⟩ := hI.resident.blocks
      refine hsame (hI.resident.of hq.ready hq.env.dir hpages (hq.shown _) ⟨n, others, ?_⟩) hq.env.ws
      have hdyn := dyn_tableFaultHandler _ _ _ ht
      rw [hq.env.ws, hdyn]
      exact hok
    | invalid _ _ hm =>
      rw [hm] at hsame
      exact hsame hI.resident rfl
    | page _ _ hr =>
      rw [hI.algo] at hr
      obtain ⟨ht, hl⟩ := resident_fault hI.resident hI.lt hva hp htemp hr
      refine ⟨ht, halgo.trans hI.algo, fun w hw => ?_⟩
      show w.timeStamp = register 32 (logFault s.machine history (w.virtualAddress / 4096))
      rcases hl.mem hw with hold | ⟨hpage, hzero⟩
      · rw [logFault, if_pos (mem_wsPages hold)]
        exact hI.stamps w hold
      · rw [logFault, hpage, roundDown_div, if_neg (hI.resident.absent hva hp), register_nil, hzero]
  | @others s t history ho hb =>
    have hpages : wsPages t.machine.env = wsPages s.machine.env := by rw [wsPages, ho.env.ws, wsPages]
    refine ⟨hI.resident.of ho.ready ho.env.dir hpages ho.shown hb, ho.algo.trans hI.algo, fun w hw => ?_⟩
    exact hI.stamps w (ho.env.ws ▸ hw)

end Runs

/-- Along every run from a working set of new elements, each time stamp is the 32-bit history of the used bit of its
page since it came, the latest update in the top bit, and the victim of a full working set is the first element whose
history is lexicographically least. -/
theorem time_stamps_are_histories {s : FaultState} (hs : Resident s.machine)
    (halgo : s.faults.pageRepAlgoType = .lruTimeApprox) (hnew : ∀ w ∈ s.machine.env.pageWsList, w.timeStamp = 0)
    (es : List AgingEvent) : Always Ages (fun a => Stamped a ∧ TakesOldest a) ⟨s, fun _ => []⟩ es := by
  apply Always.mono (P := Aged.Inv) (fun a h => ⟨h.stamps, h.takesOldest⟩)
  refine always_of_step (fun a e b hI h => Aged.Inv.step hI h) ⟨hs, halgo, fun w hw => ?_⟩
  rw [hnew w hw, register_nil]

/-- The step of an event, for an access with what the frames hold. -/
def nextAged (a : Aged) : AgingEvent → Option Aged
  | .update =>
    match updateWSTimeStamps a.state.machine with
    | .ok _ m => some ⟨{ a.state with machine := m }, logUpdate a.state.machine a.history⟩
    | .error _ _ => none
  | .access va write =>
    if va < userTop ∧ a.state.machine.present va = true then
      some ⟨{ a.state with machine := accessed a.state.machine va write a.state.machine.frames }, a.history⟩
    else none
  | .fault va tf =>
    if va < userTop ∧ va / 4096 ≠ pgfltemp / 4096 ∧ a.state.machine.present va = false then
      match faultHandler va tf a.state with
      | .ok _ t => some ⟨t, logFault a.state.machine a.history⟩
      | .error _ _ => none
    else none
  | .others => none

theorem nextAged_ages (a : Aged) (e : AgingEvent) (b : Aged) (h : nextAged a e = some b) : Ages a e b := by
  obtain ⟨s, history⟩ := a
  cases e with
  | update =>
    unfold nextAged at h
    dsimp only at h
    split at h
    · next hu =>
      cases h
      exact .update hu
    · cases h
  | access va write =>
    unfold nextAged at h
    dsimp only at h
    split at h
    · next hc =>
      cases h
      exact .access _ hc.1 hc.2
    · cases h
  | fault va tf =>
    unfold nextAged at h
    dsimp only at h
    split at h
    · next hc =>
      split at h
      · next hf =>
        cases h
        exact .fault hc.1 hc.2.1 hc.2.2 hf
      · cases h
    · cases h
  | others => cases h

/-- A process without elements, with room for two. -/
def agingProcess : FaultState :=
  { loadedProcess [] 2 with faults := { (loadedProcess [] 2).faults with pageRepAlgoType := .lruTimeApprox } }

theorem agingProcess_resident : Resident agingProcess.machine := by
  have hdyn : initializeDynamicAllocator zeroedAlloc kernelHeapStart (kernelHeapStart + dynAllocMaxSize) =
      .ok stackKernel.dyn := by
    rfl
  refine ⟨loadedProcess_ready rfl 2, List.nodup_nil, List.not_mem_nil, fun v hv => absurd hv List.not_mem_nil, ?_⟩
  exact ⟨_, [], initialize_ok (by decide) (by decide) (by decide) (by decide) hdyn⟩

/-- The same with a page file that has a table for the stack, and a free disk frame. -/
def agedProcess : FaultState :=
  { agingProcess with
    machine := { agingProcess.machine with
      env := { agingProcess.machine.env with
        diskEnvPgdir := kernelHeapStart + 4096
        diskTables := fun i => if i = 954 then some 902 else none }
      pageFile := ⟨fun _ => zeroPage, [1]⟩ } }

theorem agedProcess_resident : Resident agedProcess.machine := by
  obtain ⟨hr, hnd, htemp, hshown, hblocks⟩ := agingProcess_resident
  exact ⟨⟨hr.kernel, hr.dir, hr.ws, hr.active⟩, hnd, htemp, hshown, hblocks⟩

/-- Two pages come; both are used, and at the second and the third update only one of them. -/
def agingRun : List AgingEvent :=
  [.fault (stackPage 2) ⟨true, false⟩, .update, .fault (stackPage 3) ⟨true, true⟩, .access (stackPage 2) true, .update,
    .access (stackPage 3) false, .update]

/-- The full working set that the run ends with, and what the next replacement needs. -/
def AgingEnd (b : Aged) : Prop :=
  b.state.machine.env.pageWsList.map (·.virtualAddress) = [stackPage 2, stackPage 3] ∧
    b.state.machine.env.pageWsMaxSize = 2 ∧ b.state.machine.present (stackPage 4) = false ∧
    b.state.machine.hasTable (stackPage 4) = true ∧ b.state.machine.mem.freeFrameList ≠ [] ∧
    b.state.machine.env.diskEnvPgdir ≠ 0 ∧ (b.state.machine.env.diskTables 954).isSome = true ∧
    b.state.machine.pageFile.diskFreeFrameList ≠ []

instance (b : Aged) : Decidable (AgingEnd b) := inferInstanceAs (Decidable (_ ∧ _ ∧ _ ∧ _ ∧ _ ∧ _ ∧ _ ∧ _))

theorem agingRun_ends : (agingRun.foldlM nextAged ⟨agedProcess, fun _ => []⟩).any (fun b => decide (AgingEnd b)) =
    true := by
  decide +kernel

/-- The replacement after the run returns: the victim of the least history is written back. -/
theorem time_stamps_are_histories_stack : ∃ b, agingRun.foldlM nextAged ⟨agedProcess, fun _ => []⟩ = some b ∧
    Stamped b ∧
    ∃ t p victim q, pageFaultHandler b.state.faults.pageRepAlgoType (stackPage 4) b.state.machine = .ok .returns t ∧
      b.state.machine.env.pageWsList = p ++ victim :: q ∧
      t.env.pageWsList = p ++ ⟨victim.addr, roundDown (stackPage 4) pageSize, 0⟩ :: q := by
  obtain ⟨b, hb, hend⟩ := (Option.any_eq_true _ _).1 agingRun_ends
  obtain ⟨hlist, hmax, habsent, htable, hfree, hdir, htables, hdisk⟩ := of_decide_eq_true hend
  have halways := time_stamps_are_histories agedProcess_resident rfl (fun _ hw => absurd hw List.not_mem_nil) agingRun
  obtain ⟨hstamped, htakes⟩ := halways.of_foldlM nextAged_ages hb
  have hlength : b.state.machine.env.pageWsList.length = 2 := by
    rw [← List.length_map (f := (·.virtualAddress)), hlist]
    rfl
  have hplace : Placeable b.state.machine (roundDown (stackPage 4) pageSize) := by
    rw [show roundDown (stackPage 4) pageSize = stackPage 4 by decide]
    exact ⟨htable, hfree, .inr (by decide)⟩
  have hne : b.state.machine.env.pageWsList ≠ [] := by
    intro hnil
    rw [hnil] at hlength
    cases hlength
  obtain ⟨p, victim, q, hl, -, -, hreturns, hafter⟩ := htakes (stackPage 4) (by decide) (by decide) habsent
    (by rw [hlength, hmax]) hne
  have hleave : CanLeave b.state.machine victim := by
    intro _
    have hva : victim.virtualAddress ∈ [stackPage 2, stackPage 3] := by
      rw [← hlist, hl]
      simp
    rcases List.mem_cons.1 hva with hva | hva
    · rw [hva]
      exact ⟨hdir, htables, .inr ⟨by decide, hdisk⟩⟩
    · rw [List.mem_singleton.1 hva]
      exact ⟨hdir, htables, .inr ⟨by decide, hdisk⟩⟩
  obtain ⟨t, ht⟩ := hreturns hplace hleave
  exact ⟨b, hb, hstamped, t, p, victim, q, ht, hl, (hafter _ t ht).1⟩

end Fos.Fault
