/-
The page directories of processes, `kern/proc/user_environment.c`: how `initialize_environment` makes one out
of the kernel's own and how `env_free` (whole in `Fos.Fault.EnvFree`) clears one. The calls of the kernel heap change
no entry of any directory; `create_page_table` changes one.
-/
import Fos.Heap.KernelCode
import Fos.Proc.Machine
import Fos.Memory.ReferencesRun

namespace Fos.Proc

open Fos.Memory Fos.Heap Fos.Lib

def vpt : Nat := 0xEFC00000
def uvpt : Nat := 0xEF400000

/-! ## A new directory -/

/-- Write entry `i` of directory `d`. -/
def Kernel.setEntry (s : Kernel) (d i : Nat) (e : Option Nat) : Kernel :=
  { s with mem := { s.mem with table := Function.update s.mem.table d (Function.update (s.mem.table d) i e) } }

/-- The loop that clears the entries of user addresses. -/
def clearEntries (d i : Nat) : Nat → KM Unit
  | 0 => pure ()
  | n + 1 => do
    modify (Kernel.setEntry · d i none)
    clearEntries d (i + 1) n

/-- The loop that copies the entries of the kernel's directory. -/
def copyEntries (d i : Nat) : Nat → KM Unit
  | 0 => pure ()
  | n + 1 => do
    modify fun s => Kernel.setEntry s d i (s.mem.table 0 i)
    copyEntries d (i + 1) n

/-- `create_user_kern_stack`. -/
def createUserKernStack (d : Nat) : KM Nat := do
  let base ← kmalloc kernelStackSize
  if base = 0 then throw (.panic "Failed to allocate memory for user kernel stack")
  onMem fun m => return ((), ← m.ptSetPagePermissions d base .none .permPresent)
  return base

/-- `initialize_environment` and the entries that `complete_environment_initialization` makes. The frame of the
directory is `cr3`. -/
def initializeEnvironment (d cr3 : Nat) : KM Nat := do
  clearEntries d 0 (pdx userTop)
  copyEntries d (pdx userTop) (1024 - pdx userTop)
  let kstack ← createUserKernStack d
  modify (Kernel.setEntry · d (pdx vpt) (some cr3))
  modify (Kernel.setEntry · d (pdx uvpt) (some cr3))
  return kstack

/-- `create_user_directory`. -/
def createUserDirectory : KM Nat := do
  let ptr ← kmalloc pageSize
  if ptr = 0 then throw (.panic "NOT ENOUGH KERNEL HEAP SPACE")
  return ptr

/-- What `env_create` does for the directory `d` of a new process: it returns the directory's address and the
one of the kernel stack. -/
def newDirectory (d : Nat) : KM (Nat × Nat) := do
  let ptr ← createUserDirectory
  let kstack ← initializeEnvironment d (kheapPhysicalAddress (← get) ptr / 4096)
  modify fun s => { s with mem := { s.mem with dirs := insert d s.mem.dirs } }
  return (ptr, kstack)

/-! ## The end of a directory -/

/-- The loop of `env_free` over the tables of user addresses. -/
def freeTables (d i : Nat) : Nat → KM Unit
  | 0 => pure ()
  | n + 1 => do
    match (← get).mem.table d i with
    | none => pure ()
    | some f =>
      kfree (kheapVirtualAddress (← get) (f * 4096))
      modify (Kernel.setEntry · d i none)
    freeTables d (i + 1) n

/-- The directory itself, at address `ptr`. -/
def freeDirectory (d ptr : Nat) : KM Unit := do
  freeTables d 0 (pdx userTop)
  kfree ptr
  modify fun s => { s with mem := { s.mem with dirs := s.mem.dirs.erase d } }

/-! ## Calls that change no entry -/

/-- The directories and their entries are the same. -/
structure SameTables (s t : Kernel) : Prop where
  table : t.mem.table = s.mem.table
  dirs : t.mem.dirs = s.mem.dirs

section SameTables

variable {s t u : Kernel}

theorem SameTables.refl (s : Kernel) : SameTables s s := ⟨rfl, rfl⟩

theorem SameTables.trans (h : SameTables s t) (h' : SameTables t u) : SameTables s u :=
  ⟨h'.table.trans h.table, h'.dirs.trans h.dirs⟩

theorem same_bind {α β : Type} {x : KM α} {f : α → KM β} (hx : Does SameTables x) (hf : ∀ a, Does SameTables (f a)) :
    Does SameTables (x >>= f) :=
  hx.bind SameTables.trans hf

theorem same_pure {α : Type} (a : α) : Does SameTables (pure a : KM α) := .pure SameTables.refl a

theorem same_guard {α : Type} {c : Prop} [Decidable c] {e : Halt} {f : Unit → KM α} (hf : Does SameTables (f ())) :
    Does SameTables (if c then throw e >>= f else f ()) :=
  .guard (R := SameTables) SameTables.trans hf

/-- A check that stops the kernel once it has done something. -/
theorem same_guarded {α β : Type} {c : Prop} [Decidable c] {e : Halt} {x : KM β} {f : Unit → KM α}
    (hx : Does SameTables x)
    (hf : Does SameTables (f ())) : Does SameTables (if c then x >>= fun _ => throw e >>= f else f ()) :=
  .ite (same_bind hx fun _ => same_bind (.throw _) fun _ => hf) hf

/-- A change of something else than frames and page tables. -/
theorem same_modify {g : Kernel → Kernel} (hg : ∀ s, (g s).mem = s.mem) : Does SameTables (modify g : KM Unit) :=
  .modify fun s => ⟨by rw [hg], by rw [hg]⟩

theorem same_onMem {α : Type} {g : Mem → Res (α × Mem)}
    (hg : ∀ {m a m'}, g m = .ok (a, m') → m'.table = m.table ∧ m'.dirs = m.dirs) : Does SameTables (onMem g) := by
  intro s a t h
  unfold onMem at h
  split at h
  · rename_i hm
    cases h
    exact ⟨(hg hm).1, (hg hm).2⟩
  · cases h

theorem allocateFrame_tables {m m' : Mem} {f : Nat} (h : m.allocateFrame = .ok (f, m')) :
    m'.table = m.table ∧ m'.dirs = m.dirs := by
  unfold Mem.allocateFrame at h
  split at h
  · cases h
  · cases h
    exact ⟨rfl, rfl⟩

theorem mapKernelFrame_tables {m m' : Mem} {f va : Nat} {perm : Perm} (h : mapKernelFrame m f va perm = .ok m') :
    m'.table = m.table ∧ m'.dirs = m.dirs := by
  unfold mapKernelFrame at h
  dsimp only at h
  split at h
  · cases h
    obtain ⟨ht, -, hd⟩ := Mem.enterFrame_same (m.setFrameVa f va) 0 f va perm
    exact ⟨ht, hd⟩
  · cases h

theorem getPage_tables {m m' : Mem} {va : Nat} (h : getPage m va = .ok m') : m'.table = m.table ∧ m'.dirs = m.dirs := by
  unfold getPage at h
  dsimp only at h
  split at h
  · cases h
    exact ⟨rfl, rfl⟩
  · obtain ⟨⟨f, m₁⟩, ha, h⟩ := bind_ok h
    obtain ⟨h1, h2⟩ := allocateFrame_tables ha
    obtain ⟨h3, h4⟩ := mapKernelFrame_tables h
    exact ⟨h3.trans h1, h4.trans h2⟩

theorem returnPage_tables {m m' : Mem} {va : Nat} (h : returnPage m va = .ok m') :
    m'.table = m.table ∧ m'.dirs = m.dirs := by
  cases h
  obtain ⟨ht, -, hd⟩ := Mem.unmapFrame_same m 0 (roundDown va pageSize)
  exact ⟨ht, hd⟩

theorem allocBlock_tables {dyn dyn' : DynAlloc} {m m' : Mem} {size : Nat} {r : AllocResult}
    (h : allocBlock kernelPages dyn m size = .ok (r, dyn', m')) : m'.table = m.table ∧ m'.dirs = m.dirs := by
  unfold allocBlock at h
  split at h
  · cases h
  split at h
  · cases h
    exact ⟨rfl, rfl⟩
  dsimp only at h
  split at h
  · obtain ⟨_, _, h⟩ := bind_ok h
    cases h
    exact ⟨rfl, rfl⟩
  split at h
  · obtain ⟨_, _, h⟩ := bind_ok h
    obtain ⟨m₁, hg, h⟩ := bind_ok h
    obtain ⟨_, _, h⟩ := bind_ok h
    cases h
    exact getPage_tables hg
  split at h
  · obtain ⟨_, _, h⟩ := bind_ok h
    cases h
    exact ⟨rfl, rfl⟩
  · cases h
    exact ⟨rfl, rfl⟩

theorem freeBlock_tables {dyn dyn' : DynAlloc} {m m' : Mem} {va : Nat}
    (h : freeBlock kernelPages dyn m va = .ok (dyn', m')) : m'.table = m.table ∧ m'.dirs = m.dirs := by
  unfold freeBlock at h
  split at h
  · cases h
  dsimp only at h
  split at h
  · cases h
  split at h
  · obtain ⟨m₁, hr, h⟩ := bind_ok h
    cases h
    exact returnPage_tables hr
  · cases h
    exact ⟨rfl, rfl⟩

theorem same_setFrameSize (va size : Nat) : Does SameTables (setFrameSize va size) := by
  intro s a t h
  unfold setFrameSize at h
  split at h
  · cases h
    exact ⟨rfl, rfl⟩
  · cases h
    exact ⟨rfl, rfl⟩

theorem same_kallocBlock (size : Nat) : Does SameTables (kallocBlock size) := by
  intro s a t h
  unfold kallocBlock at h
  split at h
  · rename_i ha
    cases h
    exact ⟨(allocBlock_tables ha).1, (allocBlock_tables ha).2⟩
  · rename_i ha
    cases h
    exact ⟨(allocBlock_tables ha).1, (allocBlock_tables ha).2⟩
  · cases h
  · cases h

/-- The pieces of `kmalloc` change no entry. -/
theorem sameRule : HeapRule SameTables where
  refl := SameTables.refl
  trans := SameTables.trans
  fields hg := same_modify fun s => (hg s).1
  allocateFrame := same_onMem allocateFrame_tables
  mapKernelFrame _ _ _ := same_onMem fun {m a m'} h => by
    obtain ⟨m₁, hm, h⟩ := bind_ok h
    cases h
    exact mapKernelFrame_tables hm
  setFrameSize := same_setFrameSize

theorem same_kmalloc (size : Nat) : Does SameTables (kmalloc size) := sameRule.kmalloc same_kallocBlock size

theorem same_freePages : ∀ (n va i : Nat), Does SameTables (freePages va i n)
  | 0, _, _ => same_pure _
  | n + 1, va, i => by
    unfold freePages
    refine same_bind (same_onMem fun {m a m'} h => ?_) fun _ => same_bind (sameRule.writeSize i 0) fun _ =>
      same_freePages n _ _
    obtain ⟨m₁, hm, h⟩ := bind_ok h
    cases h
    exact returnPage_tables hm

theorem same_kfree (va : Nat) : Does SameTables (kfree va) := by
  unfold kfree
  refine same_bind sameRule.acquireLock fun _ => ?_
  intro s a t h
  rw [get_bind] at h
  split at h
  · split at h
    · rename_i hf
      obtain ⟨ht, hd⟩ := freeBlock_tables hf
      obtain ⟨_, u, hset, h⟩ := ok_of_bind h
      cases hset
      have hrel := sameRule.releaseLock _ _ _ h
      exact ⟨hrel.table.trans ht, hrel.dirs.trans hd⟩
    · obtain ⟨_, u, h, -⟩ := ok_of_bind h
      cases h
  split at h
  · have hread : Does SameTables (readSize (roundDown va pageSize / 4096)) := by
      intro s a t h
      cases h
      exact ⟨rfl, rfl⟩
    refine (?_ : Does SameTables _) _ _ _ h
    dsimp only
    refine same_guarded sameRule.releaseLock (same_bind hread fun size => same_guarded sameRule.releaseLock ?_)
    exact same_bind (same_freePages _ _ _) fun _ => same_bind (same_modify fun _ => rfl) fun _ => sameRule.releaseLock
  split at h
  · obtain ⟨_, u, -, h⟩ := ok_of_bind h
    cases h
  · cases h
    exact ⟨rfl, rfl⟩

end SameTables

/-! ## Calls that change entries -/

/-- The entries of the kernel's part of a directory, without those that map the directory to itself. -/
def KernelEntry (i : Nat) : Prop := 955 ≤ i ∧ i < 1024 ∧ i ≠ pdx vpt ∧ i ≠ pdx uvpt

instance (i : Nat) : Decidable (KernelEntry i) := inferInstanceAs (Decidable (_ ∧ _))

section Entries

variable {s t : Kernel} {d f va i n e j : Nat} {perm : Perm}

theorem setEntry_table (s : Kernel) (d i : Nat) (o : Option Nat) (e j : Nat) :
    (Kernel.setEntry s d i o).mem.table e j = if e = d ∧ j = i then o else s.mem.table e j := by
  simp only [Kernel.setEntry, Function.update_apply]
  by_cases he : e = d
  · subst he
    by_cases hj : j = i <;> simp [hj]
  · simp [he]

theorem setEntry_dirs (s : Kernel) (d i : Nat) (o : Option Nat) : (Kernel.setEntry s d i o).mem.dirs = s.mem.dirs := rfl

/-- Only entry `i` of directory `d` changed, and it has a table now. -/
structure MakesTable (d i : Nat) (s t : Kernel) : Prop where
  dirs : t.mem.dirs = s.mem.dirs
  there : (t.mem.table d i).isSome = true
  table : ∀ e j, ¬ (e = d ∧ j = i) → t.mem.table e j = s.mem.table e j

theorem createPageTable_makes (h : createPageTable d va s = .ok () t) : MakesTable d (pdx va) s t := by
  unfold createPageTable at h
  obtain ⟨ptr, u, hk, h⟩ := ok_of_bind h
  have hu := same_kmalloc _ _ _ _ hk
  split at h
  · obtain ⟨_, _, h, -⟩ := ok_of_bind h
    cases h
  cases h
  refine ⟨hu.dirs, ?_, fun e j hne => ?_⟩
  · simp [Kernel.linkTable]
  · rw [← hu.table]
    simp only [Kernel.linkTable, Function.update_apply]
    by_cases he : e = d
    · subst he
      rw [if_pos rfl, Function.update_of_ne fun hj => hne ⟨rfl, hj⟩]
    · rw [if_neg he]

/-- `map_frame` makes a page table where there is none. -/
theorem mapFrame_tables (h : mapFrame d f va perm s = .ok () t) :
    SameTables s t ∧ (s.mem.table (owner d va) (pdx va)).isSome = true ∨
      MakesTable d (pdx va) s t ∧ s.mem.table (owner d va) (pdx va) = none := by
  rcases mapFrame_ok h with ⟨hthere, rfl⟩ | ⟨hno, u, hc, rfl⟩
  · obtain ⟨ht, -, hd⟩ := Mem.enterFrame_same (s.mem.setFrameVa f va) d f va perm
    exact .inl ⟨⟨ht, hd⟩, hthere⟩
  · obtain ⟨hdirs, hthere, htable⟩ := createPageTable_makes hc
    obtain ⟨ht, -, hd⟩ := Mem.enterFrame_same u.mem d f va perm
    refine .inr ⟨⟨hd.trans hdirs, ?_, fun e j hne => ?_⟩, hno⟩
    · show ((u.mem.enterFrame d f va perm).table d (pdx va)).isSome = true
      rw [ht]
      exact hthere
    · show (u.mem.enterFrame d f va perm).table e j = _
      rw [ht]
      exact htable e j hne

theorem clearEntries_table : ∀ {n i : Nat} {s : Kernel}, clearEntries d i n s = .ok () t →
    t.mem.dirs = s.mem.dirs ∧ ∀ e j, t.mem.table e j = if e = d ∧ i ≤ j ∧ j < i + n then none else s.mem.table e j
  | 0, i, s, h => by
    cases h
    exact ⟨rfl, fun e j => (if_neg fun hc => by omega).symm⟩
  | n + 1, i, s, h => by
    obtain ⟨hd, ht⟩ := clearEntries_table (n := n) (i := i + 1) h
    refine ⟨hd, fun e j => ?_⟩
    rw [ht, setEntry_table]
    grind

theorem copyEntries_table (hd0 : d ≠ 0) : ∀ {n i : Nat} {s : Kernel}, copyEntries d i n s = .ok () t →
    t.mem.dirs = s.mem.dirs ∧
      ∀ e j, t.mem.table e j = if e = d ∧ i ≤ j ∧ j < i + n then s.mem.table 0 j else s.mem.table e j
  | 0, i, s, h => by
    cases h
    exact ⟨rfl, fun e j => (if_neg fun hc => by omega).symm⟩
  | n + 1, i, s, h => by
    obtain ⟨hd, ht⟩ := copyEntries_table hd0 (n := n) (i := i + 1) h
    refine ⟨hd, fun e j => ?_⟩
    simp only [ht, setEntry_table, hd0.symm, false_and, if_false]
    grind

theorem same_createUserKernStack (d : Nat) : Does SameTables (createUserKernStack d) := by
  unfold createUserKernStack
  refine same_bind (same_kmalloc _) fun base => same_guard
    (same_bind (same_onMem fun {m a m'} h => ?_) fun _ => same_pure _)
  obtain ⟨m₁, hm, h⟩ := bind_ok h
  cases h
  unfold Mem.ptSetPagePermissions at hm
  split at hm
  · cases hm
    exact ⟨rfl, rfl⟩
  · cases hm

theorem same_createUserDirectory : Does SameTables createUserDirectory := by
  unfold createUserDirectory
  exact same_bind (same_kmalloc _) fun ptr => same_guard (same_pure _)

/-- A new directory has the kernel's entries, but for the two that map it to itself. -/
theorem newDirectory_table {r : Nat × Nat} (hd0 : d ≠ 0) (h : newDirectory d s = .ok r t) :
    t.mem.dirs = insert d s.mem.dirs ∧ (∀ e j, e ≠ d → t.mem.table e j = s.mem.table e j) ∧
      ∀ j, KernelEntry j → t.mem.table d j = s.mem.table 0 j := by
  unfold newDirectory at h
  obtain ⟨ptr, s₁, h1, h⟩ := ok_of_bind h
  have hs₁ := same_createUserDirectory _ _ _ h1
  rw [get_bind] at h
  obtain ⟨kstack, s₂, h2, h⟩ := ok_of_bind h
  cases h
  unfold initializeEnvironment at h2
  obtain ⟨_, u₁, hclear, h2⟩ := ok_of_bind h2
  obtain ⟨_, u₂, hcopy, h2⟩ := ok_of_bind h2
  obtain ⟨_, u₃, hstack, h2⟩ := ok_of_bind h2
  cases h2
  obtain ⟨hd₁, ht₁⟩ := clearEntries_table hclear
  obtain ⟨hd₂, ht₂⟩ := copyEntries_table hd0 hcopy
  have hu₃ := same_createUserKernStack _ _ _ _ hstack
  have htop : pdx userTop = 955 := by decide
  refine ⟨?_, fun e j he => ?_, fun j hj => ?_⟩
  · show insert d u₃.mem.dirs = _
    rw [hu₃.dirs, hd₂, hd₁, hs₁.dirs]
  · show (Kernel.setEntry (Kernel.setEntry u₃ d _ _) d _ _).mem.table e j = _
    rw [setEntry_table, setEntry_table, if_neg fun hc => he hc.1, if_neg fun hc => he hc.1, hu₃.table, ht₂,
      if_neg fun hc => he hc.1, ht₁, if_neg fun hc => he hc.1, hs₁.table]
  · obtain ⟨hlow, hhigh, hvpt, huvpt⟩ := hj
    show (Kernel.setEntry (Kernel.setEntry u₃ d _ _) d _ _).mem.table d j = _
    rw [setEntry_table, setEntry_table, if_neg fun hc => huvpt hc.2, if_neg fun hc => hvpt hc.2, hu₃.table, ht₂, htop,
      if_pos ⟨rfl, hlow, by omega⟩, ht₁, if_neg fun hc => hd0 hc.1.symm, hs₁.table]

theorem freeTables_table : ∀ {n i : Nat} {s : Kernel}, freeTables d i n s = .ok () t →
    t.mem.dirs = s.mem.dirs ∧ ∀ e j, ¬ (e = d ∧ i ≤ j ∧ j < i + n) → t.mem.table e j = s.mem.table e j
  | 0, i, s, h => by
    cases h
    exact ⟨rfl, fun _ _ _ => rfl⟩
  | n + 1, i, s, h => by
    unfold freeTables at h
    rw [get_bind] at h
    cases hf : s.mem.table d i with
    | none =>
      simp only [hf] at h
      obtain ⟨hd, ht⟩ := freeTables_table (n := n) (i := i + 1) h
      exact ⟨hd, fun e j hne => ht e j fun hc => hne ⟨hc.1, by omega, by omega⟩⟩
    | some f =>
      simp only [hf, get_bind] at h
      obtain ⟨_, u, hk, h⟩ := ok_of_bind h
      have hu := same_kfree _ _ _ _ hk
      obtain ⟨hd, ht⟩ := freeTables_table (n := n) (i := i + 1) h
      refine ⟨hd.trans hu.dirs, fun e j hne => ?_⟩
      rw [ht e j fun hc => hne ⟨hc.1, by omega, by omega⟩, setEntry_table,
        if_neg fun hc => hne ⟨hc.1, by omega, by omega⟩, hu.table]

theorem freeDirectory_table {ptr : Nat} (h : freeDirectory d ptr s = .ok () t) :
    t.mem.dirs = s.mem.dirs.erase d ∧ ∀ e j, ¬ (e = d ∧ j < 955) → t.mem.table e j = s.mem.table e j := by
  unfold freeDirectory at h
  obtain ⟨_, u, h1, h⟩ := ok_of_bind h
  obtain ⟨_, v, h2, h⟩ := ok_of_bind h
  cases h
  obtain ⟨hd, ht⟩ := freeTables_table h1
  have hv := same_kfree _ _ _ _ h2
  constructor
  · show v.mem.dirs.erase d = _
    rw [hv.dirs, hd]
  · intro e j hne
    show v.mem.table e j = _
    rw [hv.table]
    exact ht e j fun hc => hne ⟨hc.1, hc.2.2⟩

end Entries

end Fos.Proc
