/-
`env_free` of `kern/proc/user_environment.c` over one memory, in the order of the source: the pages of the working set,
the elements of its lists and of the reference stream, the page tables, the directory, the kernel stack and the page
file. `__uptr_pws` and `channel` are never set, and `free_environment` at the end clears the slot. The loop that calls
`delete_shared_object` for the entries of the table working set is left out.
-/
import Fos.Disk.Entries
import Fos.Fault.Handler
import Fos.Memory.KernelReady
import Fos.Proc.Directories

namespace Fos.Fault

open Fos.Memory Fos.Heap Fos.Proc Fos.Disk Fos.Lib

/-! ## The code -/

/-- The loop that unmaps the pages of a list. -/
def unmapPages : List WorkingSetElement → PM Unit
  | [] => pure ()
  | w :: l => do
    unmapUserFrame w.virtualAddress
    unmapPages l

/-- The loop that empties a list and frees its elements. -/
def freeElements (setList : List WorkingSetElement → Env → Env) : List WorkingSetElement → PM Unit
  | [] => pure ()
  | w :: l => do
    modifyEnv (setList l)
    onKernel (kfree w.addr)
    freeElements setList l

def freeWSElementsEnvExitFunc : PM Unit := do
  freeElements (fun l e => { e with pageWsList := l }) (← get).env.pageWsList

def freeActiveListEnvExitFunc : PM Unit := do
  freeElements (fun l e => { e with activeList := l }) (← get).env.activeList

def freeSecondListEnvExitFunc : PM Unit := do
  freeElements (fun l e => { e with secondList := l }) (← get).env.secondList

/-- The loop over the reference stream, whose elements are at the addresses `refs`. -/
def freeReferences : List Nat → PM Unit
  | [] => pure ()
  | ref :: refs => do
    modifyEnv fun e => { e with referenceStreamList := e.referenceStreamList.tail }
    onKernel (kfree ref)
    freeReferences refs

/-- Step 2: the pages of the working set go. -/
def freeWorkingSetPages (algo : PageRepAlgo) : PM Unit := do
  unmapPages (← get).env.pageWsList
  if algo = .lruListsApprox then
    unmapPages (← get).env.activeList
    unmapPages (← get).env.secondList

/-- Step 3: the working set itself goes. -/
def freeWorkingSet (algo : PageRepAlgo) (refs : List Nat) : PM Unit := do
  freeWSElementsEnvExitFunc
  if algo = .lruListsApprox then
    freeActiveListEnvExitFunc
    freeSecondListEnvExitFunc
  if algo = .optimal then freeReferences refs

/-- A pointer of the environment, freed if it is set. -/
def freePointer (ptr : Nat) : PM Unit := if ptr = 0 then pure () else onKernel (kfree ptr)

/-- `env_free`. The directory is at address `ptr`, the elements of the reference stream at `refs`; `prepagedVAs` and
`kstack` are fields of the environment. -/
def envFree (algo : PageRepAlgo) (refs : List Nat) (prepagedVAs kstack ptr : Nat) : PM Unit := do
  freeWorkingSetPages algo
  freeWorkingSet algo refs
  freePointer prepagedVAs
  onKernel (freeDirectory (← get).env.envPageDirectory ptr)
  modifyEnv ({ · with envPageDirectory := 0 })
  freePointer kstack
  pfFreeEnv

/-! ## What is left -/

/-- The kernel is ready, no process but that of directory `d` lost or got a user page, and a table that directory `d`
does not have it does not get. -/
structure OthersKept (d : Nat) (s t : Kernel) : Prop where
  ready : KernelReady t
  entries : ∀ e ≠ d, ∀ v < userPages, userEntry t.mem e v = userEntry s.mem e v
  gone : ∀ i, s.mem.table d i = none → t.mem.table d i = none

section OthersKept

variable {d i n : Nat} {s t u : Kernel}

theorem OthersKept.refl (h : KernelReady s) : OthersKept d s s := ⟨h, fun _ _ _ _ => rfl, fun _ h => h⟩

theorem OthersKept.trans (h : OthersKept d s t) (h' : OthersKept d t u) : OthersKept d s u :=
  ⟨h'.ready, fun e he v hv => (h'.entries e he v hv).trans (h.entries e he v hv), fun i hi => h'.gone i (h.gone i hi)⟩

theorem OthersKept.of_within (ht : KernelReady t) (hw : Within s.mem t.mem) : OthersKept d s t := by
  refine ⟨ht, fun e _ v hv => userEntry_within hw hv, fun i hi => ?_⟩
  rw [hw.table, hi]

theorem OthersKept.kfree {va : Nat} (h : KernelReady s) (hr : Heap.kfree va s = .ok () t) : OthersKept d s t :=
  .of_within (h.kfree hr).1 (h.kfree hr).2

/-- An entry of the directory of a process is cleared. -/
theorem OthersKept.clearEntry (hd : d ≠ 0) (h : KernelReady s) (i : Nat) :
    OthersKept d s (Kernel.setEntry s d i none) := by
  have htable : ∀ e j, (Kernel.setEntry s d i none).mem.table e j = if e = d ∧ j = i then none else s.mem.table e j :=
    setEntry_table s d i none
  have hkernel : ∀ j, (Kernel.setEntry s d i none).mem.table 0 j = s.mem.table 0 j := by
    intro j
    rw [htable, if_neg fun hc => hd hc.1.symm]
  constructor
  · refine ⟨⟨⟨fun v hv => ?_, h.heap.heap.start, h.heap.heap.brk⟩, h.heap.dynStart⟩, h.dynEnd, fun j hj => ?_, h.last,
      h.sizes⟩
    · rw [hkernel]
      exact h.heap.heap.tables v hv
    · rw [hkernel]
      exact h.lower j hj
  · intro e he v _
    have hother : (Kernel.setEntry s d i none).mem.table e (v / 1024) = s.mem.table e (v / 1024) := by
      rw [htable, if_neg fun hc => he hc.1]
    unfold userEntry
    rw [hother]
    rfl
  · intro j hj
    rw [htable, hj, ite_self]

/-- The loop over the tables clears every entry it comes to. -/
theorem freeTables_others (hd : d ≠ 0) : ∀ {n i : Nat} {s : Kernel}, KernelReady s → freeTables d i n s = .ok () t →
    OthersKept d s t ∧ ∀ j, i ≤ j → j < i + n → t.mem.table d j = none
  | 0, i, s, hs, h => by
    cases h
    exact ⟨.refl hs, fun j h1 h2 => by omega⟩
  | n + 1, i, s, hs, h => by
    unfold freeTables at h
    rw [get_bind] at h
    -- entry `i` is cleared in `u`, the rest of the loop the others
    have hstep : ∀ {u : Kernel}, OthersKept d s u → u.mem.table d i = none → freeTables d (i + 1) n u = .ok () t →
        OthersKept d s t ∧ ∀ j, i ≤ j → j < i + (n + 1) → t.mem.table d j = none := by
      intro u hu hnone hrest
      obtain ⟨ht, hgone⟩ := freeTables_others hd hu.ready hrest
      refine ⟨hu.trans ht, fun j h1 h2 => ?_⟩
      rcases eq_or_lt_of_le h1 with rfl | hlt
      · exact ht.gone i hnone
      · exact hgone j hlt (by omega)
    cases hf : s.mem.table d i with
    | none =>
      simp only [hf] at h
      exact hstep (.refl hs) hf h
    | some f =>
      simp only [hf, get_bind] at h
      obtain ⟨_, u, hfree, h⟩ := ok_of_bind h
      have hu : OthersKept d s u := .kfree hs hfree
      refine hstep (hu.trans (.clearEntry hd hu.ready i)) ?_ h
      rw [setEntry_table, if_pos ⟨rfl, rfl⟩]

theorem freeDirectory_others {ptr : Nat} (hd : d ≠ 0) (hs : KernelReady s) (h : freeDirectory d ptr s = .ok () t) :
    OthersKept d s t ∧ ∀ j < pdx userTop, t.mem.table d j = none := by
  unfold freeDirectory at h
  obtain ⟨_, u, h1, h⟩ := ok_of_bind h
  obtain ⟨_, v, h2, h⟩ := ok_of_bind h
  cases h
  obtain ⟨hu, hgone⟩ := freeTables_others hd hs h1
  have hv : OthersKept d u v := .kfree hu.ready h2
  have hw : OthersKept d v { v with mem := { v.mem with dirs := v.mem.dirs.erase d } } :=
    .of_within (hv.ready.mem rfl rfl) ⟨rfl, fun _ _ => rfl⟩
  exact ⟨(hu.trans hv).trans hw, fun j hj => (hv.trans hw).gone j (hgone j (Nat.zero_le j) (by omega))⟩

end OthersKept

/-! ## The steps -/

/-- What a step of `env_free` does to the processes other than that of directory `d`, while the directory of the
environment is `p`. -/
def KeepsOthers (d p : Nat) (s t : Machine) : Prop :=
  KernelReady s.kernel → s.env.envPageDirectory = p → OthersKept d s.kernel t.kernel ∧ t.env.envPageDirectory = p

section Steps

variable {d p : Nat} {α β : Type}

theorem KeepsOthers.refl (s : Machine) : KeepsOthers d p s s := fun hs hp => ⟨.refl hs, hp⟩

theorem KeepsOthers.trans {s t u : Machine} (h : KeepsOthers d p s t) (h' : KeepsOthers d p t u) :
    KeepsOthers d p s u := by
  intro hs hp
  obtain ⟨ht, hpt⟩ := h hs hp
  obtain ⟨hu, hpu⟩ := h' ht.ready hpt
  exact ⟨ht.trans hu, hpu⟩

theorem others_bind {x : PM α} {f : α → PM β} (hx : Does (KeepsOthers d p) x)
    (hf : ∀ a, Does (KeepsOthers d p) (f a)) : Does (KeepsOthers d p) (x >>= f) :=
  hx.bind KeepsOthers.trans hf

theorem others_pure (a : α) : Does (KeepsOthers d p) (pure a : PM α) := .pure KeepsOthers.refl a

theorem others_get : Does (KeepsOthers d p) (get : PM Machine) := .get KeepsOthers.refl

theorem others_modifyEnv {g : Env → Env} (hg : ∀ e, (g e).envPageDirectory = e.envPageDirectory) :
    Does (KeepsOthers d p) (modifyEnv g) :=
  .modify fun _ hs hp => ⟨.refl hs, (hg _).trans hp⟩

theorem others_kfree (ptr : Nat) : Does (KeepsOthers d p) (onKernel (kfree ptr)) := by
  intro s a t h hs hp
  obtain ⟨k, hk, rfl⟩ := onKernel_ok h
  exact ⟨.kfree hs hk, hp⟩

theorem others_freePointer (ptr : Nat) : Does (KeepsOthers d p) (freePointer ptr) :=
  .ite (others_pure _) (others_kfree ptr)

theorem others_freeElements {setList : List WorkingSetElement → Env → Env}
    (hset : ∀ l e, (setList l e).envPageDirectory = e.envPageDirectory) {l : List WorkingSetElement} :
    Does (KeepsOthers d p) (freeElements setList l) := by
  induction l with
  | nil => exact others_pure _
  | cons w l ih =>
    apply others_bind (others_modifyEnv (hset l))
    intro _
    exact others_bind (others_kfree _) fun _ => ih

theorem others_freeReferences : ∀ refs, Does (KeepsOthers d p) (freeReferences refs)
  | [] => others_pure _
  | _ :: refs => others_bind (others_modifyEnv fun _ => rfl) fun _ =>
      others_bind (others_kfree _) fun _ => others_freeReferences refs

theorem others_freeWorkingSet (algo : PageRepAlgo) (refs : List Nat) :
    Does (KeepsOthers d p) (freeWorkingSet algo refs) := by
  -- the stream is freed after the lists, whether there are two or one
  have hrefs : Does (KeepsOthers d p) (if algo = .optimal then freeReferences refs else pure ()) :=
    .ite (others_freeReferences refs) (others_pure _)
  refine others_bind ?_ fun _ => .ite_rest hrefs fun hrest => others_bind ?_ fun _ => others_bind ?_ fun _ => hrest
  all_goals
    apply others_bind others_get
    intro s
    apply others_freeElements
    exact fun _ _ => rfl

theorem others_freeDiskFrame (dfn : Nat) : Does (KeepsOthers d p) (freeDiskFrame dfn) :=
  .ite (others_pure _) (.modify fun _ hs hp => ⟨.refl hs, hp⟩)

theorem others_freeDiskPages : ∀ n v, Does (KeepsOthers d p) (freeDiskPages v n)
  | 0, _ => others_pure _
  | n + 1, v => others_bind others_get fun _ => others_bind (others_modifyEnv fun _ => rfl) fun _ =>
      others_bind (others_freeDiskFrame _) fun _ => others_freeDiskPages n (v + 1)

theorem others_freeDiskTables : ∀ n i, Does (KeepsOthers d p) (freeDiskTables i n)
  | 0, _ => others_pure _
  | n + 1, i => by
    unfold freeDiskTables
    apply others_bind others_get
    intro s
    split
    · exact others_freeDiskTables n (i + 1)
    · exact others_bind others_get fun _ => others_bind (others_freeDiskPages _ _) fun _ =>
        others_bind (others_modifyEnv fun _ => rfl) fun _ => others_bind (others_kfree _) fun _ =>
          others_freeDiskTables n (i + 1)

theorem others_pfFreeEnv : Does (KeepsOthers d p) pfFreeEnv := by
  refine others_bind others_get fun s => .guard (R := KeepsOthers d p) KeepsOthers.trans ?_
  exact others_bind (others_freeDiskTables _ _) fun _ => others_bind others_get fun _ =>
    others_bind (others_kfree _) fun _ => others_modifyEnv fun _ => rfl

end Steps

/-! ## `env_free` -/

section EnvFree

variable {d : Nat} {s t : Machine} {algo : PageRepAlgo}

/-- A page of the process is unmapped. -/
theorem OthersKept.unmap {k : Kernel} {va : Nat} (hd : d ≠ 0) (hk : KernelReady k) (hva : va < userTop) :
    OthersKept d k { k with mem := k.mem.unmapFrame d va } := by
  obtain ⟨-, -, hslot, -⟩ := user_address hva d
  have htable : (k.mem.unmapFrame d va).table = k.mem.table := (Mem.unmapFrame_same _ _ _).1
  refine ⟨hk.mem htable (unmapFrame_pte _ _ _ ?_), fun e he v _ => ?_, fun i hi => ?_⟩
  · rw [hslot]
    exact fun hc => hd (congrArg Prod.fst hc).symm
  · unfold userEntry
    rw [htable, unmapFrame_pte]
    rw [hslot]
    exact fun hc => he (congrArg Prod.fst hc)
  · rw [htable, hi]

theorem unmapPages_others (hd : d ≠ 0) : ∀ {l : List WorkingSetElement} {s : Machine},
    (∀ w ∈ l, w.virtualAddress < userTop) → KernelReady s.kernel → s.env.envPageDirectory = d →
    unmapPages l s = .ok () t → OthersKept d s.kernel t.kernel ∧ t.env = s.env
  | [], s, _, hs, _, h => by
    cases h
    exact ⟨.refl hs, rfl⟩
  | w :: l, s, hl, hs, hdir, h => by
    obtain ⟨hw, hl⟩ := List.forall_mem_cons.1 hl
    obtain ⟨_, u, hunmap, h⟩ := ok_of_bind h
    cases hunmap
    have hu : OthersKept d s.kernel
        { s.kernel with mem := s.mem.unmapFrame s.env.envPageDirectory w.virtualAddress } := by
      rw [hdir]
      exact .unmap hd hs hw
    obtain ⟨ht, henv⟩ := unmapPages_others (s := s.setMem _) hd hl hu.ready hdir h
    exact ⟨hu.trans ht, henv⟩

theorem freeWorkingSetPages_others (hd : d ≠ 0) (hs : KernelReady s.kernel) (hdir : s.env.envPageDirectory = d)
    (hws : ∀ w ∈ s.env.pageWsList ++ (s.env.activeList ++ s.env.secondList), w.virtualAddress < userTop)
    (h : freeWorkingSetPages algo s = .ok () t) : OthersKept d s.kernel t.kernel ∧ t.env = s.env := by
  obtain ⟨hpages, hlists⟩ := List.forall_mem_append.1 hws
  obtain ⟨hactive, hsecond⟩ := List.forall_mem_append.1 hlists
  unfold freeWorkingSetPages at h
  rw [get_bind] at h
  obtain ⟨_, u, h1, h⟩ := ok_of_bind h
  obtain ⟨hu, henv⟩ := unmapPages_others hd hpages hs hdir h1
  split at h
  · rw [get_bind] at h
    obtain ⟨_, v, h2, h⟩ := ok_of_bind h
    obtain ⟨hv, henv'⟩ := unmapPages_others hd (henv ▸ hactive) hu.ready (henv ▸ hdir) h2
    rw [get_bind] at h
    have henv'' := henv'.trans henv
    obtain ⟨ht, he⟩ := unmapPages_others hd (henv'' ▸ hsecond) hv.ready (henv'' ▸ hdir) h
    exact ⟨(hu.trans hv).trans ht, he.trans henv''⟩
  · cases h
    exact ⟨hu, henv⟩

/-- `env_free` leaves its process no page table for user addresses, and takes no user page from any other process. -/
theorem envFree_others {refs : List Nat} {prepagedVAs kstack ptr : Nat} (hs : KernelReady s.kernel)
    (hd : s.env.envPageDirectory ≠ 0)
    (hws : ∀ w ∈ s.env.pageWsList ++ (s.env.activeList ++ s.env.secondList), w.virtualAddress < userTop)
    (h : envFree algo refs prepagedVAs kstack ptr s = .ok () t) :
    KernelReady t.kernel ∧ (∀ i < pdx userTop, t.mem.table s.env.envPageDirectory i = none) ∧
      ∀ e ≠ s.env.envPageDirectory, ∀ v < userPages, userEntry t.mem e v = userEntry s.mem e v := by
  unfold envFree at h
  obtain ⟨_, s₁, h1, h⟩ := ok_of_bind h
  obtain ⟨hk₁, henv⟩ := freeWorkingSetPages_others hd hs rfl hws h1
  obtain ⟨_, s₂, h2, h⟩ := ok_of_bind h
  obtain ⟨hk₂, hdir₂⟩ := others_freeWorkingSet _ _ _ _ _ h2 hk₁.ready (congrArg Env.envPageDirectory henv)
  obtain ⟨_, s₃, h3, h⟩ := ok_of_bind h
  obtain ⟨hk₃, hdir₃⟩ := others_freePointer _ _ _ _ h3 hk₂.ready hdir₂
  rw [get_bind] at h
  obtain ⟨_, s₄, h4, h5⟩ := ok_of_bind h
  obtain ⟨k, hk, rfl⟩ := onKernel_ok h4
  rw [hdir₃] at hk
  obtain ⟨hk₄, hgone⟩ := freeDirectory_others hd hk₃.ready hk
  obtain ⟨_, s₅, hclear, h5⟩ := ok_of_bind h5
  -- from here on the environment has no directory
  cases hclear
  obtain ⟨_, s₆, h6, h7⟩ := ok_of_bind h5
  obtain ⟨hk₆, hdir₆⟩ := others_freePointer _ _ _ _ h6 hk₄.ready rfl
  obtain ⟨hk₇, -⟩ := others_pfFreeEnv _ _ _ h7 hk₆.ready hdir₆
  have hend : OthersKept s.env.envPageDirectory k t.kernel := hk₆.trans hk₇
  have hall := (((hk₁.trans hk₂).trans hk₃).trans hk₄).trans hend
  exact ⟨hall.ready, fun i hi => hend.gone i (hgone i hi), hall.entries⟩

end EnvFree

end Fos.Fault
