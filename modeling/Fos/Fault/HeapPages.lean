/-
The fault handler and the marks of the user heap: of all the pages of the process only the faulted one can come to
be there, under every policy, and in user mode the handler turns away a page of the user heap that is not marked.
In kernel mode it does not look at the mark.
-/
import Fos.Fault.ReferenceStream
import Fos.Lib.Trace

namespace Fos.Fault

open Fos.Memory Fos.Heap Fos.Proc Fos.Disk Fos.Lib

/-! ## Pages that come -/

/-- No page of any process came to be there but page `p` of this one. -/
structure Grows (p : Nat) (s t : Machine) : Prop where
  ready : Ready t
  dir : t.env.envPageDirectory = s.env.envPageDirectory
  shown : ∀ e v, v < userPages → shown t.mem e v = true → shown s.mem e v = true ∨ e = s.env.envPageDirectory ∧ v = p

def Adds (p : Nat) (s t : Machine) : Prop := Ready s → Grows p s t

section Adds

variable {s t u : Machine} {p q va : Nat} {b : Bool} {perm : Perm}

theorem Grows.refl (h : Ready s) : Grows p s s := ⟨h, rfl, fun _ _ _ h => .inl h⟩

theorem Grows.trans (h : Grows p s t) (h' : Grows p t u) : Grows p s u := by
  refine ⟨h'.ready, h'.dir.trans h.dir, fun e v hv hs => ?_⟩
  rcases h'.shown e v hv hs with hs | hs
  · exact h.shown e v hv hs
  · rw [h.dir] at hs
    exact .inr hs

theorem Adds.refl (s : Machine) : Adds p s s := Grows.refl

theorem Adds.trans (h : Adds p s t) (h' : Adds p t u) : Adds p s u := fun hs => (h hs).trans (h' (h hs).ready)

theorem Unmoved.grows (h : Unmoved s t) : Grows p s t :=
  ⟨h.ready, h.env.dir, fun e v hv hs => .inl (by rw [← h.shown e v hv]; exact hs)⟩

theorem Sets.grows (h : Sets q b s t) (hb : b = true → q = p) : Grows p s t := by
  refine ⟨h.ready, h.env.dir, fun e v hv hs => ?_⟩
  rw [h.shown e v hv] at hs
  split at hs
  · rename_i hc
    exact .inr ⟨hc.1, hc.2.trans (hb hs)⟩
  · exact .inl hs

/-! ## Pieces of code -/

theorem adds_quiet {α : Type} {x : PM α} (h : Does Quiet x) :
    Does (Adds p) x := fun s a t hx hs => (h s a t hx hs).grows

theorem adds_bind {α β : Type} {x : PM α} {f : α → PM β} (hx : Does (Adds p) x) (hf : ∀ a, Does (Adds p) (f a)) :
    Does (Adds p) (x >>= f) :=
  hx.bind Adds.trans hf

theorem adds_pure {α : Type} (a : α) : Does (Adds p) (pure a : PM α) := .pure Adds.refl a

theorem adds_unmap (hva : va < userTop) : Does (Adds p) (unmapUserFrame va) := fun _ _ _ h hs =>
  (sets_unmap hs hva h).grows fun hb => absurd hb (by decide)

theorem adds_placePage (hva : va < userTop) (hal : va % 4096 = 0) : Does (Adds (va / 4096)) (placePage va perm) :=
  fun _ _ _ h hs => (placePage_sets hs hva hal h).grows fun _ => rfl

/-- The list of elements changes, and all stay in user pages. -/
theorem adds_modifyWs {g : Env → Env} (hdir : ∀ e, (g e).envPageDirectory = e.envPageDirectory)
    (hactive : ∀ e, (g e).activeWorkingSet = e.activeWorkingSet)
    (hws : ∀ e, (∀ w ∈ e.pageWsList, w.virtualAddress < userTop) → ∀ w ∈ (g e).pageWsList, w.virtualAddress < userTop) :
    Does (Adds p) (modifyEnv g) := by
  refine .modify fun s hs => ⟨⟨hs.kernel, ?_, hws s.env hs.ws, ?_⟩, hdir s.env, fun _ _ _ h => .inl h⟩
  · exact (hdir s.env).symm ▸ hs.dir
  · exact (hactive s.env).symm ▸ hs.active

theorem adds_firstIsLast : Does (Adds p) firstIsLast := adds_modifyWs (fun _ => rfl) (fun _ => rfl) fun _ h => h

theorem listFrom_mem {l : List WorkingSetElement} {a : Nat} {w : WorkingSetElement} (h : w ∈ listFrom l a) : w ∈ l := by
  rcases List.mem_append.1 h with h | h
  · exact (List.dropWhile_sublist _).subset h
  · exact (List.takeWhile_sublist _).subset h

theorem elementAt_mem {l : List WorkingSetElement} {a : Nat} {w : WorkingSetElement} (h : elementAt l a = some w) :
    w ∈ l :=
  List.mem_of_find?_eq_some h

theorem adds_rotateToNext (victim : Nat) : Does (Adds p) (rotateToNext victim) := by
  refine adds_modifyWs (fun _ => rfl) (fun _ => rfl) fun e h w hw => ?_
  dsimp only at hw
  split at hw
  · exact h w (listFrom_mem hw)
  · exact h w hw

theorem adds_setElement (hva : va < userTop) (addr : Nat) (r : Bool) :
    Does (Adds p) (modifyEnv fun e => { e with pageWsList := setElement e.pageWsList addr va r }) := by
  refine adds_modifyWs (fun _ => rfl) (fun _ => rfl) fun e h w hw => ?_
  obtain ⟨x, hx, rfl⟩ := List.mem_map.1 hw
  split
  · exact hva
  · exact h x hx

theorem adds_placement (hva : va < userTop) (hal : va % 4096 = 0) : Does (Adds (va / 4096)) (placement va) := by
  unfold placement
  apply adds_bind (adds_placePage hva hal)
  intro o
  cases o with
  | exits => exact adds_pure _
  | returns =>
    intro s a t h hs
    obtain ⟨wse, u, h1, h⟩ := ok_of_bind h
    have hu := quiet_envPageWsListCreateElement _ _ _ h1 hs
    have hwse : wse.virtualAddress < userTop := by
      unfold envPageWsListCreateElement at h1
      split at h1
      · obtain ⟨_, _, h1, -⟩ := ok_of_bind h1
        cases h1
      obtain ⟨ptr, _, -, h1⟩ := ok_of_bind (x := onKernel (kmalloc sizeofWorkingSetElement)) h1
      split at h1
      · obtain ⟨_, _, h1, -⟩ := ok_of_bind h1
        cases h1
      cases h1
      exact roundDown_lt hva
    apply hu.grows.trans
    refine (?_ : Does (Adds (va / 4096)) _) _ _ _ h hu.ready
    refine adds_bind (adds_modifyWs (fun _ => rfl) (fun _ => rfl) fun e he w hw => ?_) fun _ => adds_bind ?_ fun _ =>
      adds_pure _
    · rcases List.mem_append.1 hw with hw | hw
      · exact he w hw
      · rw [List.mem_singleton.1 hw]
        exact hwse
    · refine adds_modifyWs (fun e => ?_) (fun e => ?_) fun e he w hw => ?_
      · split <;> rfl
      · split <;> rfl
      · split at hw
        · exact he w hw
        · exact he w hw

/-! ## Replacement -/

theorem adds_get {α : Type} {f : Machine → PM α} (hf : ∀ s, Ready s → Does (Adds p) (f s)) :
    Does (Adds p) (get >>= f) := fun s _ _ h hs => hf s hs _ _ _ h hs

theorem adds_throw {α : Type} (e : Halt) : Does (Adds p) (throw e : PM α) := .throw e

theorem adds_permissions (hva : va < userTop) {x y : Perm} (hx : x.present = false) :
    Does (Adds p) (ptSetPagePermissions va x y) := by
  intro s _ t h hs
  have hset := sets_permissions hs hva h
  rw [hx, Bool.or_false] at hset
  refine ⟨hset.ready, hset.env.dir, fun e v hv hsh => .inl ?_⟩
  rw [hset.shown e v hv] at hsh
  split at hsh
  · rename_i hc
    rw [hc.1, hc.2]
    exact (Bool.and_eq_true_iff.1 hsh).1
  · exact hsh

theorem adds_clockVictim (fuel : Nat) : Does (Adds p) (clockVictim fuel) := by
  induction fuel with
  | zero => exact adds_throw _
  | succ fuel ih =>
    unfold clockVictim
    apply adds_get
    intro s hs
    dsimp only
    split
    · exact adds_throw _
    · rename_i w hw
      obtain ⟨a, -, hw⟩ := Option.bind_eq_some_iff.1 hw
      have hva := hs.ws w (elementAt_mem hw)
      refine adds_bind (adds_quiet quiet_ptGetPagePermissions) fun perms => .ite ?_ ?_
      · refine adds_bind (adds_permissions hva rfl) fun _ => adds_bind ?_ fun _ => ih
        exact adds_modifyWs (fun _ => rfl) (fun _ => rfl) fun _ h => h
      · have hrest : Does (Adds p) (do
            unmapUserFrame w.virtualAddress
            return w : PM WorkingSetElement) := adds_bind (adds_unmap hva) fun _ => adds_pure _
        refine .ite (adds_get fun s _ => .ite ?_ hrest) hrest
        exact adds_bind (adds_quiet (quiet_pfUpdateEnvPage hva)) fun _ => hrest

theorem adds_clockReplacement (hva : va < userTop) (hal : va % 4096 = 0) :
    Does (Adds (va / 4096)) (clockReplacement va) := by
  unfold clockReplacement
  refine adds_get fun s _ => .ite_rest ?_ fun hrest => adds_bind adds_firstIsLast fun _ => hrest
  refine adds_get fun s _ => adds_bind (adds_clockVictim _) fun victim => ?_
  refine adds_bind (adds_setElement hva _ _) fun _ => adds_bind (adds_placePage hva hal) fun o => ?_
  cases o with
  | exits => exact adds_pure _
  | returns => exact adds_bind (adds_rotateToNext _) fun _ => adds_bind adds_firstIsLast fun _ => adds_pure _

theorem oldest_mem : ∀ {l : List WorkingSetElement} {best : Option WorkingSetElement} {n : Nat} {w : WorkingSetElement},
    oldest l best n = some w → w ∈ l ∨ best = some w
  | [], _, _, _, h => .inr h
  | x :: l, best, n, w, h => by
    unfold oldest at h
    split at h
    · rcases oldest_mem h with h | h
      · exact .inl (List.mem_cons_of_mem _ h)
      · exact .inl (Option.some.inj h ▸ List.mem_cons_self)
    · exact (oldest_mem h).imp_left (List.mem_cons_of_mem _)

theorem adds_lruReplacement (hva : va < userTop) (hal : va % 4096 = 0) :
    Does (Adds (va / 4096)) (lruReplacement va) := by
  unfold lruReplacement
  apply adds_get
  intro s hs
  dsimp only
  split
  · exact adds_throw _
  · rename_i victim hv
    have hvictim : victim.virtualAddress < userTop := by
      apply hs.ws victim
      rcases Option.or_eq_some_iff.1 hv with h | ⟨-, h⟩
      · rcases oldest_mem h with h | h
        · exact h
        · cases h
      · exact List.mem_of_mem_head? h
    refine adds_bind (adds_quiet quiet_ptGetPagePermissions) fun perms => .ite_rest ?_ fun hrest => ?_
    · refine adds_bind (adds_unmap hvictim) fun _ => adds_bind (adds_setElement hva _ _) fun _ => ?_
      apply adds_bind (adds_placePage hva hal)
      intro o
      cases o with
      | exits => exact adds_pure _
      | returns => exact adds_bind (adds_modifyWs (fun _ => rfl) (fun _ => rfl) fun _ h => h) fun _ => adds_pure _
    · refine adds_get fun s _ => .ite ?_ hrest
      apply adds_bind (adds_quiet (quiet_pfUpdateEnvPage hvictim))
      intro _
      exact adds_bind (adds_unmap (by decide)) fun _ => hrest

theorem scanClean_mem : ∀ {l : List WorkingSetElement} {w : WorkingSetElement}, scanClean l s = .ok (some w) t → w ∈ l
  | x :: l, w, h => by
    unfold scanClean at h
    obtain ⟨perms, u, h1, h⟩ := ok_of_bind h
    rw [ptGetPagePermissions_eq] at h1
    obtain rfl := (EStateM.Result.ok.inj h1).2
    split at h
    · cases h
      exact List.mem_cons_self
    · exact List.mem_cons_of_mem _ (scanClean_mem h)

theorem scanUnused_mem : ∀ {l : List WorkingSetElement} {s : Machine} {w : WorkingSetElement},
    scanUnused l s = .ok (some w) t → w ∈ l
  | x :: l, s, w, h => by
    unfold scanUnused at h
    obtain ⟨perms, u, -, h⟩ := ok_of_bind h
    split at h
    · cases h
      exact List.mem_cons_self
    · obtain ⟨_, u', -, h⟩ := ok_of_bind h
      exact List.mem_cons_of_mem _ (scanUnused_mem h)

theorem modifiedClockVictim_mem {l : List WorkingSetElement} {w : WorkingSetElement} : ∀ {fuel : Nat} {s : Machine},
    modifiedClockVictim l fuel s = .ok w t → w ∈ l
  | fuel + 1, s, h => by
    unfold modifiedClockVictim at h
    obtain ⟨o, u, h1, h⟩ := ok_of_bind h
    cases o with
    | some x =>
      cases h
      exact scanClean_mem h1
    | none =>
      obtain ⟨o, u', h2, h⟩ := ok_of_bind h
      cases o with
      | some x =>
        cases h
        exact scanUnused_mem h2
      | none => exact modifiedClockVictim_mem h

theorem adds_scanClean : ∀ l : List WorkingSetElement, Does (Adds p) (scanClean l)
  | [] => adds_pure _
  | x :: l => by
    unfold scanClean
    exact adds_bind (adds_quiet quiet_ptGetPagePermissions) fun perms => .ite (adds_pure _) (adds_scanClean l)

theorem adds_scanUnused : ∀ {l : List WorkingSetElement}, (∀ w ∈ l, w.virtualAddress < userTop) →
    Does (Adds p) (scanUnused l)
  | [], _ => adds_pure _
  | x :: l, hl => by
    unfold scanUnused
    refine adds_bind (adds_quiet quiet_ptGetPagePermissions) fun perms => .ite (adds_pure _) ?_
    apply adds_bind (adds_permissions (hl x List.mem_cons_self) rfl)
    intro _
    exact adds_scanUnused fun w hw => hl w (List.mem_cons_of_mem _ hw)

theorem adds_modifiedClockVictim {l : List WorkingSetElement} (hl : ∀ w ∈ l, w.virtualAddress < userTop) :
    ∀ fuel : Nat, Does (Adds p) (modifiedClockVictim l fuel)
  | 0 => adds_throw _
  | fuel + 1 => by
    unfold modifiedClockVictim
    apply adds_bind (adds_scanClean l)
    intro o
    cases o with
    | some w => exact adds_pure _
    | none =>
      apply adds_bind (adds_scanUnused hl)
      intro o
      cases o with
      | some w => exact adds_pure _
      | none => exact adds_modifiedClockVictim hl fuel

/-- The entry of another directory goes: directory `0` has no user pages. -/
theorem adds_unmapKernel : Does (Adds p) (modifyMem (·.unmapFrame 0 pgfltemp)) := by
  refine .modify fun s hs => ?_
  dsimp only
  rw [hs.unmap_pgfltemp]
  exact Grows.refl hs

theorem adds_modifiedClockReplacement (hva : va < userTop) (hal : va % 4096 = 0) :
    Does (Adds (va / 4096)) (modifiedClockReplacement va) := by
  unfold modifiedClockReplacement
  apply adds_get
  intro s hs
  dsimp only
  split
  · exact adds_throw _
  · rename_i w hw
    have hl : ∀ x ∈ listFrom s.env.pageWsList w.addr, x.virtualAddress < userTop :=
      fun x hx => hs.ws x (listFrom_mem hx)
    intro s' o t h hs'
    obtain ⟨victim, u, h1, h⟩ := ok_of_bind h
    have hvictim : victim.virtualAddress < userTop := hl victim (modifiedClockVictim_mem h1)
    have hG := adds_modifiedClockVictim (p := va / 4096) hl 2 _ _ _ h1 hs'
    apply hG.trans
    refine (?_ : Does (Adds (va / 4096)) _) _ _ _ h hG.ready
    refine adds_bind (adds_rotateToNext _) fun _ => adds_bind (adds_quiet quiet_ptGetPagePermissions) fun perms => ?_
    refine .ite_rest ?_ fun hrest => ?_
    · refine adds_bind (adds_unmap hvictim) fun _ => adds_bind (adds_setElement hva _ _) fun _ => ?_
      apply adds_bind (adds_placePage hva hal)
      intro o
      cases o with
      | exits => exact adds_pure _
      | returns => exact adds_bind adds_firstIsLast fun _ => adds_pure _
    · exact adds_bind (adds_quiet (quiet_pfUpdateEnvPage hvictim)) fun _ => adds_bind adds_unmapKernel fun _ => hrest

/-! ## Optimal -/

theorem adds_show (hva : va < userTop) {x y : Perm} : Does (Adds (va / 4096)) (ptSetPagePermissions va x y) :=
  fun _ _ _ h hs => (sets_permissions hs hva h).grows fun _ => rfl

theorem adds_guard {α : Type} {c : Prop} [Decidable c] {e : Halt} {f : Unit → PM α} (hf : Does (Adds p) (f ())) :
    Does (Adds p) (if c then throw e >>= f else f ()) :=
  .guard (R := Adds p) Adds.trans hf

theorem adds_clearPresent : ∀ {l : List Nat}, (∀ va ∈ l, va < userTop) → Does (Adds p) (clearPresent l)
  | [], _ => adds_pure _
  | va :: l, hl => by
    unfold clearPresent
    apply adds_bind (adds_permissions (hl va List.mem_cons_self) rfl)
    intro _
    exact adds_clearPresent fun w hw => hl w (List.mem_cons_of_mem _ hw)

/-- New elements of `ActiveWorkingSet`, in user pages, and of the reference stream. -/
theorem adds_modifyActive {g : Env → Env} (hdir : ∀ e, (g e).envPageDirectory = e.envPageDirectory)
    (hws : ∀ e, (g e).pageWsList = e.pageWsList)
    (hactive : ∀ e, (∀ w ∈ e.activeWorkingSet, w.virtualAddress < userTop) → ∀ w ∈ (g e).activeWorkingSet,
      w.virtualAddress < userTop) :
    Does (Adds p) (modifyEnv g) := by
  refine .modify fun s hs => ⟨⟨hs.kernel, ?_, ?_, hactive s.env hs.active⟩, hdir s.env, fun _ _ _ h => .inl h⟩
  · exact (hdir s.env).symm ▸ hs.dir
  · exact (hws s.env).symm ▸ hs.ws

theorem adds_emptyActive : ∀ {l : List WorkingSetElement}, (∀ w ∈ l, w.virtualAddress < userTop) →
    Does (Adds p) (emptyActive l)
  | [], _ => adds_pure _
  | w :: l, hl => by
    have hrest : ∀ w ∈ l, w.virtualAddress < userTop := fun w hw => hl w (List.mem_cons_of_mem _ hw)
    unfold emptyActive
    refine adds_bind (adds_permissions (hl w List.mem_cons_self) rfl) fun _ => adds_bind ?_ fun _ => ?_
    · exact adds_modifyActive (fun _ => rfl) (fun _ => rfl) fun _ _ => hrest
    · exact adds_bind (adds_quiet (quiet_kfree _)) fun _ => adds_emptyActive hrest

theorem adds_rediscover : Does (Adds p) rediscover := by
  unfold rediscover
  refine adds_get fun s hs => .ite (adds_clearPresent fun va hva => ?_) (adds_pure _)
  obtain ⟨w, hw, rfl⟩ := List.mem_map.1 hva
  exact hs.ws w hw

theorem adds_makeRoom : Does (Adds p) makeRoom := by
  unfold makeRoom
  exact adds_get fun s hs => .ite (adds_emptyActive hs.active) (adds_pure _)

theorem adds_recordReference (hva : va < userTop) (faultVa : Nat) : Does (Adds p) (recordReference faultVa va) := by
  unfold recordReference
  refine adds_bind (adds_quiet (quiet_kmalloc _)) fun wse => adds_guard (adds_bind ?_ fun _ => ?_)
  · refine adds_modifyActive (fun _ => rfl) (fun _ => rfl) fun e h w hw => ?_
    rcases List.mem_append.1 hw with hw | hw
    · exact h w hw
    · rw [List.mem_singleton.1 hw]
      exact hva
  · refine adds_bind (adds_quiet (quiet_kmalloc _)) fun ref => adds_guard ?_
    exact adds_modifyActive (fun _ => rfl) (fun _ => rfl) fun _ h => h

theorem adds_showPage (hva : va < userTop) (hal : va % 4096 = 0) : Does (Adds (va / 4096)) (showPage va) := by
  unfold showPage
  refine adds_get fun s _ => .ite ?_ (adds_placePage hva hal)
  exact adds_bind (adds_show hva) fun _ => adds_pure _

theorem adds_optimalFault (hva : va < userTop) : Does (Adds (va / 4096)) (optimalFault va) := by
  have hrd := roundDown_lt hva
  have hshow := adds_showPage hrd (roundDown_aligned va)
  rw [roundDown_div] at hshow
  unfold optimalFault
  refine adds_bind adds_rediscover fun _ => adds_get fun s _ => .ite ?_ ?_
  · exact adds_bind (adds_show hva) fun _ => adds_pure _
  · exact adds_bind adds_makeRoom fun _ => adds_bind (adds_recordReference hrd _) fun _ => hshow

/-- Whatever the policy, no page but the faulted one comes. -/
theorem adds_pageFaultHandler (algo : PageRepAlgo) (hva : va < userTop) :
    Does (Adds (va / 4096)) (pageFaultHandler algo va) := by
  have hrd := roundDown_lt hva
  have hal := roundDown_aligned va
  rw [← roundDown_div va]
  unfold pageFaultHandler
  refine .ite ?_ (adds_get fun s _ => .ite (adds_placement hrd hal) ?_)
  · rw [roundDown_div]
    exact adds_optimalFault hva
  · cases algo with
    | clock => exact adds_clockReplacement hrd hal
    | lruTimeApprox => exact adds_lruReplacement hrd hal
    | modifiedClock => exact adds_modifiedClockReplacement hrd hal
    | _ => exact adds_pure _

end Adds

/-! ## Runs -/

/-- A fault of the process, or something else that runs. -/
inductive FaultEvent where
  | fault (va : Nat) (tf : Trapframe)
  | others

/-- In kernel mode the faults followed are those of the kernel on a pointer of the process. Whatever else runs,
calls of the process and other processes among it, leaves the kernel heap and the lists ready. -/
inductive Runs : FaultState → FaultEvent → FaultState → Prop
  | fault {s t : FaultState} {va : Nat} {tf : Trapframe} {o : Outcome} (hva : tf.userTrap = true ∨ va < userTop)
      (h : faultHandler va tf s = .ok o t) : Runs s (.fault va tf) t
  | others {s t : FaultState} (h : Ready t.machine) : Runs s .others t

/-- Page `v` of directory `d` is a page of the user heap that the step made to be there. -/
structure HeapPageComes (s t : Machine) (d v : Nat) : Prop where
  heap : inUserHeap (v * 4096) = true
  absent : shown s.mem d v = false
  present : shown t.mem d v = true

/-- The page is marked `PERM_UHPAGE`. -/
def markedPage (m : Mem) (d v : Nat) : Bool := (userEntry m d v).perm.uhpage

section Runs

variable {s t : FaultState} {va d v : Nat} {tf : Trapframe}

theorem heapPage_lt (h : inUserHeap (v * 4096) = true) : v < userPages := by
  have hmax := (of_decide_eq_true h).2
  simp only [userHeapMax] at hmax
  simp only [userPages]
  omega

theorem HeapPageComes.of_unmoved (hu : Unmoved s.machine t.machine) (h : HeapPageComes s.machine t.machine d v) :
    False := by
  have hsame := hu.shown d v (heapPage_lt h.heap)
  rw [h.absent, h.present] at hsame
  cases hsame

/-- A page that comes is the faulted one. In user mode it was valid. -/
theorem Runs.comes (hs : Ready s.machine) (h : Runs s (.fault va tf) t) :
    Ready t.machine ∧ (HeapPageComes s.machine t.machine d v → d = s.machine.env.envPageDirectory ∧ v = va / 4096 ∧
      (tf.userTrap = true → markedPage s.machine.mem d v = true)) := by
  cases h with
  | fault hva h =>
    obtain ⟨hH, -⟩ := faultHandler_ok h
    cases hH with
    | table hno ht =>
      have hu := quiet_tableFaultHandler hs hno ht
      exact ⟨hu.ready, fun hc => (hc.of_unmoved hu).elim⟩
    | invalid _ _ hm =>
      rw [hm]
      refine ⟨hs, fun hc => ?_⟩
      have := hc.present
      rw [hc.absent] at this
      cases this
    | page ht hvalid hp =>
      have hlt : va < userTop := by
        rcases hva with htrap | hva
        · obtain ⟨perms, -, hbad⟩ := hvalid htrap
          by_contra hge
          rw [invalidPointer, decide_eq_true (Nat.le_of_not_lt hge)] at hbad
          cases hbad
        · exact hva
      obtain ⟨hr, -, hshown⟩ := adds_pageFaultHandler s.faults.pageRepAlgoType hlt _ _ _ hp hs
      refine ⟨hr, fun hc => ?_⟩
      rcases hshown d v (heapPage_lt hc.heap) hc.present with hsh | ⟨rfl, rfl⟩
      · rw [hc.absent] at hsh
        cases hsh
      refine ⟨rfl, rfl, fun htrap => ?_⟩
      obtain ⟨perms, hperms, hbad⟩ := hvalid htrap
      obtain ⟨-, hown, hslot, hpdx⟩ := user_address hlt s.machine.env.envPageDirectory
      have hheap : inUserHeap va = true := by
        obtain ⟨hlow, hhigh⟩ := of_decide_eq_true hc.heap
        refine decide_eq_true ⟨?_, ?_⟩
        · omega
        · simp only [userHeapMax] at hhigh ⊢
          omega
      have hup : perms.uhpage = true := by
        by_contra hn
        rw [Bool.not_eq_true] at hn
        simp [invalidPointer, hheap, hn] at hbad
      have htab : s.machine.hasTable va = true := by
        rw [Machine.hasTable, hown]
        exact ht
      rw [ptGetPagePermissions_eq, htab, if_pos rfl] at hperms
      rw [markedPage, userEntry, if_pos (hpdx ▸ ht), ← hslot]
      exact (EStateM.Result.ok.inj hperms).1 ▸ hup

end Runs

/-! ## Every run -/

/-- In every run of faults, a page of the user heap that the handler makes to be there is the faulted page, and in
user mode it was marked at that moment. -/
theorem heap_page_comes_marked {s : FaultState} (hs : Ready s.machine) (es : List FaultEvent) :
    Each Runs (fun s e => ∀ va tf t, e = .fault va tf → Runs s e t → ∀ d v, HeapPageComes s.machine t.machine d v →
      d = s.machine.env.envPageDirectory ∧ v = va / 4096 ∧ (tf.userTrap = true → markedPage s.machine.mem d v = true))
        s es := by
  refine (Each.always_each (C := fun _ _ => True) (I := fun s => Ready s.machine) (P := fun _ => True)
    (fun _ _ => trivial) ?_ hs Each.trivially).2
  rintro s e t hs - h
  constructor
  · intro va tf u he hu d v hc
    subst he
    exact (Runs.comes hs hu).2 hc
  · cases e with
    | others =>
      cases h with
      | others hr => exact hr
    | fault va tf => exact (Runs.comes (d := 0) (v := 0) hs h).1

/-- The small machine under the clock policy, with room for a page. -/
def clockProcess : FaultState :=
  { stackProcess 3 with faults := { (stackProcess 3).faults with pageRepAlgoType := .clock } }

theorem heap_page_comes_marked_stack : Each Runs (fun s e => ∀ va tf t, e = .fault va tf → Runs s e t → ∀ d v,
    HeapPageComes s.machine t.machine d v → d = s.machine.env.envPageDirectory ∧ v = va / 4096 ∧
      (tf.userTrap = true → markedPage s.machine.mem d v = true)) clockProcess
    [.fault (stackPage 2) ⟨true, false⟩, .fault userHeapStart ⟨false, true⟩] :=
  heap_page_comes_marked (s := clockProcess) (stackProcess_start 3).ready _

/-- The kernel reads an address in the user heap that nothing has marked: the second fault brings the page. -/
theorem heap_page_comes_unmarked :
    ¬ Each Runs (fun s e => ∀ t, Runs s e t → ∀ d v, HeapPageComes s.machine t.machine d v →
      markedPage s.machine.mem d v = true) clockProcess
      [.fault userHeapStart ⟨false, false⟩, .fault userHeapStart ⟨false, false⟩] := by
  intro h
  have hrun : (EStateM.run' (do
      let _ ← faultHandler userHeapStart ⟨false, false⟩
      let s ← get
      let _ ← faultHandler userHeapStart ⟨false, false⟩
      let t ← get
      return !shown s.machine.mem 1 (userHeapStart / 4096) && shown t.machine.mem 1 (userHeapStart / 4096) &&
        !markedPage s.machine.mem 1 (userHeapStart / 4096) : FM Bool) clockProcess).any (· == true) = true := by
    decide +kernel
  obtain ⟨b, t, hrun, hb⟩ := ok_of_run hrun
  obtain ⟨_, s₁, h1, hrun⟩ := ok_of_bind hrun
  rw [get_bind] at hrun
  obtain ⟨_, s₂, h2, hrun⟩ := ok_of_bind hrun
  cases hrun
  rw [beq_iff_eq, Bool.and_eq_true, Bool.and_eq_true, Bool.not_eq_true', Bool.not_eq_true'] at hb
  obtain ⟨⟨habsent, hpresent⟩, hunmarked⟩ := hb
  have hlt : userHeapStart < userTop := by decide
  have hmarked := ((h s₁ (.fault (.inr hlt) h1)).2 t (.fault (.inr hlt) h2)).1 t (.fault (.inr hlt) h2) 1
    (userHeapStart / 4096) ⟨by decide, habsent, hpresent⟩
  rw [hunmarked] at hmarked
  cases hmarked

end Fos.Fault
