/-
The kernel's part of the page directories over runs. Each directory gets a copy of the kernel's entries when it
is made, so the entries stay equal as long as no page table for an address of the kernel is made or deleted
afterwards. A fault at such an address makes one before the address is looked at.
-/
import Fos.Fault.Steps
import Fos.Fault.ReferenceStream
import Fos.Shared.SharedMemory
import Fos.Lib.Trace

namespace Fos.Fault

open Fos.Memory Fos.Heap Fos.Proc Fos.Disk Fos.Lib

/-! ## The handler and the directories -/

/-- No entry of a directory changes, but the one of `va` in the directory of the process where it has no table. -/
structure Extends (va : Nat) (s t : Machine) : Prop where
  dir : t.env.envPageDirectory = s.env.envPageDirectory
  dirs : t.mem.dirs = s.mem.dirs
  there : s.hasTable va = true → t.mem.table = s.mem.table
  others : ∀ e j, ¬ (e = s.env.envPageDirectory ∧ j = pdx va) → t.mem.table e j = s.mem.table e j

section Extends

variable {s t u : Machine} {va : Nat}

theorem hasTable_congr (hd : t.env.envPageDirectory = s.env.envPageDirectory) (ht : t.mem.table = s.mem.table) :
    t.hasTable va = s.hasTable va := by
  unfold Machine.hasTable
  rw [hd, ht]

theorem Extends.trans (h : Extends va s t) (h' : Extends va t u) : Extends va s u := by
  refine ⟨h'.dir.trans h.dir, h'.dirs.trans h.dirs, fun hs => ?_, fun e j hne => ?_⟩
  · rw [h'.there (by rw [hasTable_congr h.dir (h.there hs), hs]), h.there hs]
  · rw [h'.others e j (by rw [h.dir]; exact hne), h.others e j hne]

theorem extends_of_same (hd : t.env.envPageDirectory = s.env.envPageDirectory) (ht : t.mem.table = s.mem.table)
    (hdirs : t.mem.dirs = s.mem.dirs) : Extends va s t :=
  ⟨hd, hdirs, fun _ => ht, fun e j _ => by rw [ht]⟩

theorem extends_onKernel {α : Type} {x : KM α} (hx : Does SameTables x) : Does (Extends va) (onKernel x) := by
  intro s a t h
  obtain ⟨k, hk, rfl⟩ := onKernel_ok h
  have hsame := hx _ _ _ hk
  exact extends_of_same rfl hsame.table hsame.dirs

theorem extends_unmap (d w : Nat) (s : Machine) : Extends va s (s.setMem (s.mem.unmapFrame d w)) := by
  obtain ⟨ht, -, hd⟩ := Mem.unmapFrame_same s.mem d w
  exact extends_of_same rfl ht hd

theorem extends_map (f : Nat) (perm : Perm) : Does (Extends va) (mapUserFrame f (roundDown va pageSize) perm) := by
  intro s a t h
  obtain ⟨k, hk, rfl⟩ := onKernel_ok h
  have hpdx : pdx (roundDown va pageSize) = pdx va := by
    unfold pdx roundDown pageSize
    omega
  have howner : owner s.env.envPageDirectory (roundDown va pageSize) = owner s.env.envPageDirectory va := by
    unfold owner isKernelAddress
    have : userTop ≤ roundDown va pageSize ↔ userTop ≤ va := by
      unfold roundDown userTop pageSize
      omega
    rw [decide_eq_decide.2 this]
  rcases mapFrame_tables hk with ⟨hsame, -⟩ | ⟨hmade, hno⟩
  · exact extends_of_same rfl hsame.table hsame.dirs
  · rw [hpdx] at hmade
    refine ⟨rfl, hmade.dirs, fun hs => ?_, hmade.table⟩
    rw [howner, hpdx] at hno
    unfold Machine.hasTable at hs
    have hno' : s.mem.table (owner s.env.envPageDirectory va) (pdx va) = none := hno
    rw [hno'] at hs
    cases hs

theorem steps_extends : Steps va (Extends va) where
  refl s := extends_of_same rfl rfl rfl
  trans := Extends.trans
  kmalloc size := extends_onKernel (same_kmalloc size)
  kfree ptr := extends_onKernel (same_kfree ptr)
  allocateFrame := extends_onKernel (same_onMem allocateFrame_tables)
  map := extends_map
  unmap w := fun s a t h => by
    cases h
    exact extends_unmap _ _ s
  unmapKernel w := .modify fun s => extends_unmap _ _ s
  permissions w x y := fun s a t h => by
    refine extends_onKernel (same_onMem fun {m a m'} h => ?_) s a t h
    obtain ⟨m₁, hm, h⟩ := bind_ok h
    cases h
    unfold Mem.ptSetPagePermissions at hm
    split at hm
    · cases hm
      exact ⟨rfl, rfl⟩
    · cases hm
  setPte s a e := extends_of_same rfl rfl rfl
  contents s frames pageFile := extends_of_same rfl rfl rfl
  lists hg := .modify fun s => extends_of_same (hg s.env) rfl rfl

end Extends

/-! ## Runs -/

/-- Every directory has the kernel's entries. -/
def SharesKernel (m : Mem) : Prop := ∀ d ∈ m.dirs, ∀ i, KernelEntry i → m.table d i = m.table 0 i

/-- What makes or deletes directories and page tables, and whatever else runs. -/
inductive DirCall where
  | newDirectory (d : Nat)
  | freeDirectory (d ptr : Nat)
  | mapFrame (d f va : Nat) (perm : Perm)
  | createPageTable (d va : Nat)
  | delPageTable (va : Nat)
  | fault (va : Nat) (tf : Trapframe)
  | others

def FaultState.withKernel (s : FaultState) (k : Kernel) : FaultState :=
  { s with machine := { s.machine with kernel := k } }

/-- A process is on the CPU. -/
def FaultState.Running (s : FaultState) : Prop :=
  s.machine.env.envPageDirectory ≠ 0 ∧ s.machine.env.envPageDirectory ∈ s.machine.mem.dirs

/-- The part of the address space that shows the directory itself. -/
def SelfMapped (va : Nat) : Prop := pdx va = pdx vpt ∨ pdx va = pdx uvpt

/-- The calls of the kernel on directories, with any arguments, and the faults of user code at any address. Besides
`fault_handler` and `map_frame` only `allocate_user_mem` makes a page table, for an address of the user heap. The kernel
is not followed through the self-mapped part. Whatever else runs changes no entry; another process may run then. -/
inductive DirStep : FaultState → DirCall → FaultState → Prop
  | newDirectory {s : FaultState} {d : Nat} {r : Nat × Nat} {k : Kernel} (hd : d ≠ 0) (hnew : d ∉ s.machine.mem.dirs)
      (h : Proc.newDirectory d s.machine.kernel = .ok r k) : DirStep s (.newDirectory d) (s.withKernel k)
  | freeDirectory {s : FaultState} {d ptr : Nat} {k : Kernel} (hd : d ≠ 0)
      (h : Proc.freeDirectory d ptr s.machine.kernel = .ok () k) : DirStep s (.freeDirectory d ptr) (s.withKernel k)
  | mapFrame {s : FaultState} {d f va : Nat} {perm : Perm} {k : Kernel} (hd : d ≠ 0) (hlive : d ∈ s.machine.mem.dirs)
      (hva : ¬ SelfMapped va) (h : Heap.mapFrame d f va perm s.machine.kernel = .ok () k) :
      DirStep s (.mapFrame d f va perm) (s.withKernel k)
  | createPageTable {s : FaultState} {d va : Nat} {k : Kernel} (hva : va < userTop)
      (h : Heap.createPageTable d va s.machine.kernel = .ok () k) : DirStep s (.createPageTable d va) (s.withKernel k)
  | delPageTable {s : FaultState} {va : Nat} {k : Kernel} (hrun : s.Running)
      (h : Shared.delPageTable va s.machine.kernel = .ok () k) : DirStep s (.delPageTable va) (s.withKernel k)
  | fault {s t : FaultState} {va : Nat} {tf : Trapframe} {o : Outcome} (hrun : s.Running)
      (hva : tf.userTrap = true ∨ ¬ SelfMapped va) (h : faultHandler va tf s = .ok o t) : DirStep s (.fault va tf) t
  | others {s t : FaultState} (h : SameTables s.machine.kernel t.machine.kernel) : DirStep s .others t

/-- No page table for an address of the kernel is made or deleted. -/
def KeepsTables (s : FaultState) : DirCall → Prop
  | .mapFrame _ _ va _ => KernelEntry (pdx va) → (s.machine.mem.table 0 (pdx va)).isSome = true
  | .fault va _ => KernelEntry (pdx va) → (s.machine.mem.table 0 (pdx va)).isSome = true
  | .delPageTable va => KernelEntry (pdx va) → s.machine.mem.table 0 (pdx va) = none
  | _ => True

section Runs

variable {s t : FaultState} {c : DirCall} {k k' : Kernel} {d i va : Nat}

theorem kernelEntry_owner (h : KernelEntry (pdx va)) (d : Nat) : owner d va = 0 := by
  have hk : isKernelAddress va = true := decide_eq_true (by
    have := h.1
    unfold pdx at this
    simp only [userTop]
    omega)
  rw [owner, hk]
  rfl

theorem SharesKernel.same (h : SharesKernel k.mem) (hs : SameTables k k') : SharesKernel k'.mem := by
  intro e he i hi
  rw [hs.dirs] at he
  rw [hs.table]
  exact h e he i hi

/-- A new page table for an address of a process. -/
theorem SharesKernel.makes (h : SharesKernel k.mem) (hm : MakesTable d i k k') (hi : ¬ KernelEntry i) :
    SharesKernel k'.mem := by
  intro e he j hj
  have hne : ∀ e', ¬ (e' = d ∧ j = i) := fun e' hc => hi (hc.2 ▸ hj)
  rw [hm.dirs] at he
  rw [hm.table e j (hne e), hm.table 0 j (hne 0)]
  exact h e he j hj

/-- A new page table for an address of the kernel that has none. -/
theorem not_shares_of_makes (hm : MakesTable d i k k') (hd : d ≠ 0) (hlive : d ∈ k.mem.dirs) (hi : KernelEntry i)
    (hno : k.mem.table 0 i = none) : ¬ SharesKernel k'.mem := by
  intro h
  have heq := h d (hm.dirs ▸ hlive) i hi
  have hthere := hm.there
  rw [heq, hm.table 0 i fun hc => hd hc.1.symm, hno] at hthere
  cases hthere

/-- `del_page_table` clears the kernel's entry. -/
theorem delPageTable_table (h : Shared.delPageTable va k = .ok () k') :
    k'.mem.dirs = k.mem.dirs ∧
      ∀ e j, k'.mem.table e j = if e = 0 ∧ j = pdx va then none else k.mem.table e j := by
  unfold Shared.delPageTable at h
  rw [get_bind] at h
  cases hf : k.mem.table 0 (pdx va) with
  | none =>
    simp only [hf] at h
    cases h
    refine ⟨rfl, fun e j => ?_⟩
    split
    · rename_i hc
      rw [hc.1, hc.2, hf]
    · rfl
  | some f =>
    simp only [hf] at h
    obtain ⟨_, u, hk, h⟩ := ok_of_bind h
    cases h
    have hu := same_kfree _ _ _ _ hk
    refine ⟨hu.dirs, fun e j => ?_⟩
    rw [← hu.table]
    simp only [Function.update_apply]
    split <;> grind

theorem tableFaultHandler_makes {m m' : Machine} (h : tableFaultHandler va m = .ok () m') :
    MakesTable m.env.envPageDirectory (pdx va) m.kernel m'.kernel := by
  obtain ⟨k, hk, rfl⟩ := onKernel_ok h
  exact createPageTable_makes hk

/-- A step that makes and deletes no page table for the kernel keeps the entries equal. -/
theorem DirStep.shares (hs : DirStep s c t) (h : SharesKernel s.machine.mem) (hc : KeepsTables s c) :
    SharesKernel t.machine.mem := by
  cases hs with
  | @newDirectory d r k hd hnew hr =>
    obtain ⟨hdirs, hother, hcopy⟩ := newDirectory_table hd hr
    intro e he i hi
    replace he : e ∈ _ := hdirs ▸ he
    rcases Finset.mem_insert.1 he with rfl | he
    · exact (hcopy i hi).trans (hother 0 i hd.symm).symm
    · have hne : e ≠ d := fun hc => hnew (hc ▸ he)
      exact (hother e i hne).trans ((h e he i hi).trans (hother 0 i hd.symm).symm)
  | @freeDirectory d ptr k hd hr =>
    obtain ⟨hdirs, hother⟩ := freeDirectory_table hr
    intro e he i hi
    replace he : e ∈ _ := hdirs ▸ he
    have hne : ∀ e', ¬ (e' = d ∧ i < 955) := fun e' hx => absurd hi.1 (by omega)
    exact (hother e i (hne e)).trans ((h e (Finset.mem_of_mem_erase he) i hi).trans (hother 0 i (hne 0)).symm)
  | mapFrame hd hlive hva hr =>
    rcases mapFrame_tables hr with ⟨hsame, -⟩ | ⟨hmade, hno⟩
    · exact h.same hsame
    · apply h.makes hmade
      intro hi
      rw [kernelEntry_owner hi] at hno
      have hsome := hc hi
      rw [Machine.mem, hno] at hsome
      cases hsome
  | createPageTable hva hr =>
    refine h.makes (createPageTable_makes hr) fun hi => absurd hi.1 ?_
    simp only [userTop] at hva
    unfold pdx
    omega
  | @delPageTable va k hrun hr =>
    obtain ⟨hdirs, htab⟩ := delPageTable_table hr
    intro e he i hi
    have hsame : ∀ e', k.mem.table e' i = s.machine.mem.table e' i := by
      intro e'
      rw [htab]
      split
      · rename_i hx
        rw [hx.1, hx.2]
        exact (hc (hx.2 ▸ hi)).symm
      · rfl
    exact (hsame e).trans ((h e (hdirs ▸ he) i hi).trans (hsame 0).symm)
  | @fault _ va tf o hrun hva hr =>
    obtain ⟨hH, -⟩ := faultHandler_ok hr
    cases hH with
    | table hno ht =>
      apply h.makes (tableFaultHandler_makes ht)
      intro hi
      have hsome := hc hi
      rw [← h _ hrun.2 _ hi, hno] at hsome
      cases hsome
    | invalid _ _ hm =>
      rw [hm]
      exact h
    | page ht hvalid hp =>
      have hE := (steps_extends : Steps va _).pageFaultHandler _ _ _ _ hp
      intro e he i hi
      have hsame : t.machine.mem.table e i = s.machine.mem.table e i ∧
          t.machine.mem.table 0 i = s.machine.mem.table 0 i := by
        by_cases hi' : KernelEntry (pdx va)
        · have hthere := hE.there (by rw [Machine.hasTable, kernelEntry_owner hi']; exact hc hi')
          rw [hthere]
          exact ⟨rfl, rfl⟩
        · have hne : i ≠ pdx va := fun hx => hi' (hx ▸ hi)
          exact ⟨hE.others _ _ fun hx => hne hx.2, hE.others _ _ fun hx => hne hx.2⟩
      rw [hsame.1, hsame.2]
      exact h e (hE.dirs ▸ he) i hi
  | others hr => exact h.same hr

/-- Any other step ends with an entry that differs. -/
theorem DirStep.keeps (hs : DirStep s c t) (h : SharesKernel s.machine.mem) (ht : SharesKernel t.machine.mem) :
    KeepsTables s c := by
  cases hs with
  | newDirectory => trivial
  | freeDirectory => trivial
  | createPageTable => trivial
  | others => trivial
  | @mapFrame d _ va _ _ hd hlive hva hr =>
    intro hi
    rcases mapFrame_tables hr with ⟨-, hthere⟩ | ⟨hmade, hno⟩
    · rwa [kernelEntry_owner hi] at hthere
    · rw [kernelEntry_owner hi] at hno
      exact absurd ht (not_shares_of_makes hmade hd hlive hi hno)
  | @delPageTable va k hrun hr =>
    intro hi
    obtain ⟨hdirs, htab⟩ := delPageTable_table hr
    have heq := ht _ (show _ ∈ k.mem.dirs from hdirs ▸ hrun.2) _ hi
    rw [show (s.withKernel k).machine.mem = k.mem from rfl, htab, htab, if_neg fun hc => hrun.1 hc.1,
      if_pos ⟨rfl, rfl⟩] at heq
    exact (h _ hrun.2 _ hi).symm.trans heq
  | @fault _ va tf o hrun hva hr =>
    intro hi
    obtain ⟨hH, -⟩ := faultHandler_ok hr
    have hown := h _ hrun.2 _ hi
    cases hH with
    | table hno htf =>
      exact absurd ht (not_shares_of_makes (tableFaultHandler_makes htf) hrun.1 hrun.2 hi (hown.symm.trans hno))
    | invalid hsome _ _ => exact hown ▸ hsome
    | page hsome _ _ => exact hown ▸ hsome

end Runs

/-! ## Every run -/

/-- In a run, every directory has the kernel's entries in every state exactly when no step makes or deletes a page table
for an address of the kernel. -/
theorem kernel_entries_shared_iff {s : FaultState} (h : SharesKernel s.machine.mem) (cs : List DirCall) :
    Always DirStep (fun s => SharesKernel s.machine.mem) s cs ↔ Each DirStep KeepsTables s cs :=
  always_iff_each (fun _ hs => hs) (fun _ _ _ hI hC hs => hs.shares hI hC) (fun _ _ _ hI hs hP => hs.keeps hI hP) h

/-! ## A process at boot -/

/-- The small machine with all the tables of the kernel: those of the environments, of the stacks of the CPUs and of
the directory itself besides the ones from `KERNEL_BASE` on. There is none for the 4 MB after the environments. -/
def bootMemory : Mem :=
  { machine with table := fun d i => if d = 0 ∧ 955 ≤ i ∧ i < 1024 ∧ i ≠ 956 then some i else none }

/-- After boot; no process runs yet. -/
def bootState : FaultState where
  machine :=
    { kernel := { stackKernel with mem := bootMemory }
      env := { envPageDirectory := 0, pageWsMaxSize := 0 }
      frames := fun _ => zeroPage
      pageFile := ⟨fun _ => zeroPage, []⟩ }
  faults := { pageRepAlgoType := .clock, kstack := 0xF0000000, cpuStack := 0xF0010000 }

theorem bootState_shares : SharesKernel bootState.machine.mem := by
  intro d hd i _
  rw [Finset.mem_singleton.1 hd]

/-- A new process goes on the CPU. -/
def FaultState.runs (s : FaultState) (d n : Nat) : FaultState :=
  { s with machine := { s.machine with env := { envPageDirectory := d, pageWsMaxSize := n } } }

/-- The run of a new process at boot with a fault at `va`, and what was computed of the state it ends in. -/
theorem boot_fault (va : Nat) (p : FaultState → Bool) (h : (EStateM.run' (do
      let _ ← onMachine (onKernel (newDirectory 1))
      modify (FaultState.runs · 1 8)
      let s ← get
      let _ ← faultHandler va ⟨true, false⟩
      let t ← get
      return decide (s.machine.env.envPageDirectory ≠ 0 ∧ s.machine.env.envPageDirectory ∈ s.machine.mem.dirs) && p t :
      FM Bool) bootState).any (· == true) = true) : ∃ s₁ s₂ t, DirStep bootState (.newDirectory 1) s₁ ∧
    DirStep s₁ .others s₂ ∧ DirStep s₂ (.fault va ⟨true, false⟩) t ∧ p t = true := by
  obtain ⟨b, u, hrun, hb⟩ := ok_of_run h
  obtain ⟨r, s₁, h1, hrun⟩ := ok_of_bind hrun
  rw [modify_bind, get_bind] at hrun
  obtain ⟨o, t, h2, hrun⟩ := ok_of_bind hrun
  cases hrun
  obtain ⟨h1, hf⟩ := onMachine_ok h1
  obtain ⟨k, hk, hm⟩ := onKernel_ok h1
  rw [beq_iff_eq, Bool.and_eq_true, decide_eq_true_eq] at hb
  have hs₁ : s₁ = bootState.withKernel k := by
    cases s₁
    cases hm
    cases hf
    rfl
  subst hs₁
  exact ⟨bootState.withKernel k, (bootState.withKernel k).runs 1 8, u, .newDirectory (by decide) (by decide) hk,
    .others ⟨rfl, rfl⟩, .fault hb.1 (.inl rfl) h2, hb.2⟩

/-- A process at boot touches an address of the kernel, one that has a table. -/
theorem kernel_entries_shared_iff_boot :
    (Always DirStep (fun s => SharesKernel s.machine.mem) bootState
      [.newDirectory 1, .others, .fault 0xF0000000 ⟨true, false⟩] ↔
      Each DirStep KeepsTables bootState [.newDirectory 1, .others, .fault 0xF0000000 ⟨true, false⟩]) ∧
    ∃ s₁ s₂ t, DirStep bootState (.newDirectory 1) s₁ ∧ DirStep s₁ .others s₂ ∧
      DirStep s₂ (.fault 0xF0000000 ⟨true, false⟩) t := by
  refine ⟨kernel_entries_shared_iff bootState_shares _, ?_⟩
  obtain ⟨s₁, s₂, t, h1, h2, h3, -⟩ := boot_fault 0xF0000000 (fun _ => true) (by decide +kernel)
  exact ⟨s₁, s₂, t, h1, h2, h3⟩

/-- A process touches the 4 MB for which the kernel has no page table: its directory gets one. -/
theorem kernel_entry_differs : ¬ Always DirStep (fun s => SharesKernel s.machine.mem) bootState
    [.newDirectory 1, .others, .fault 0xEF000000 ⟨true, false⟩] := by
  intro h
  obtain ⟨s₁, s₂, t, h1, h2, h3, ht⟩ := boot_fault 0xEF000000
    (fun t => decide (1 ∈ t.machine.mem.dirs ∧ t.machine.mem.table 1 956 ≠ t.machine.mem.table 0 956))
      (by decide +kernel)
  obtain ⟨hlive, hdiffers⟩ := of_decide_eq_true ht
  exact hdiffers (((h.2 s₁ h1).2 s₂ h2).2 t h3 1 hlive 956 (by decide))

end Fos.Fault
