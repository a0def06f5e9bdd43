/-
Kernel threads on the one CPU: the scheduler and any number of processes that take and release spinlocks, give up the
CPU (`sched` of `kern/proc/user_environment.c`), are dispatched (`fos_scheduler` of `kern/cpu/sched.c`) and trapped
(`trap` of `kern/trap/trap.c`), with `FL_IF`, `ncli` and `intena` of `kern/cpu/cpu.c`. A thread that keeps to its locks
is not interrupted while it holds one. What the threads compute, the clock and the directories are left out.
-/
import Fos.Conc.KSpinLock

namespace Fos.Conc

open Fos.Lib
open Fos.Cpu (EnvStatus)

/-! ## The code -/

/-- The lock of the process queues, and the others. -/
inductive Spinlock where
  | qlock
  | other (n : Nat)
  deriving DecidableEq, Repr

/-- The locks and the CPU, `c->proc`, the process on whose kernel stack the CPU is (none for the scheduler's stack), and
of each thread that is not on the CPU what its stack has: the variable `intena` of `sched`, which a process that has not
run yet does not have, and `FL_IF` in its trap frames. -/
structure KernelCpu where
  locks : Spinlock → KSpinlock
  cpu : CpuState
  proc : Option Nat
  stack : Option Nat
  status : Nat → EnvStatus
  intena : Nat → Option Bool
  eflags : Option Nat → List Bool

abbrev TM (α : Type) := EStateM Halt KernelCpu α

def onSpinlock {α : Type} (l : Spinlock) (x : SpinM α) : TM α := fun s =>
  match x ⟨s.locks l, s.cpu⟩ with
  | .ok a t => .ok a { s with locks := Function.update s.locks l t.lk, cpu := t.cpu }
  | .error e t => .error e { s with locks := Function.update s.locks l t.lk, cpu := t.cpu }

/-- `pushcli` and `popcli` look at no lock. -/
def onCpu {α : Type} (x : SpinM α) : TM α := onSpinlock .qlock x

def getCpuProc : TM (Option Nat) := do
  onCpu pushcli
  let p := (← get).proc
  onCpu popcli
  return p

def setCpuProc (p : Option Nat) : TM Unit := do
  onCpu pushcli
  modify ({ · with proc := p })
  onCpu popcli

/-- `sched`, up to the switch to the scheduler's stack. -/
def sched : TM Unit := do
  match ← getCpuProc with
  | none => throw (.panic "assertion failed: p != NULL")
  | some p =>
    if !(← onSpinlock .qlock holdingKspinlock) then
      throw (.panic "sched: q.lock is not held by this CPU while it's expected to be. ")
    let s ← get
    if s.cpu.ncli ≠ 1 then throw (.panic "sched locks: ncli = %d")
    if s.status p = .running then throw (.panic "sched a running process")
    if s.cpu.interrupts then throw (.panic "sched is interruptible!")
    modify fun s => { s with intena := Function.update s.intena p (some s.cpu.intena), stack := none }

/-- The rest of a round of `fos_scheduler` after the switch back to it. -/
def switchedBack : TM Unit := do
  if !(← onSpinlock .qlock holdingKspinlock) then
    throw (.panic "fos_scheduler(): qlock is either not held or held by another CPU!")
  let s ← get
  match s.proc with
  | none => throw .faults
  | some p =>
    if s.status p = .running then throw (.panic "assertion failed: status != ENV_RUNNING")
    if s.status p ≠ .ready then setCpuProc none

/-- A process gives up the CPU with a new status. -/
def giveUp (status : EnvStatus) : TM Unit := do
  match ← getCpuProc with
  | none => throw .faults
  | some p =>
    modify fun s => { s with status := Function.update s.status p status }
    sched
    switchedBack

/-- `fos_scheduler` switches to a process, which goes on after `context_switch` in `sched`, or at `env_start` if it has
not run yet. -/
def switchTo (p : Nat) : TM Unit := do
  setCpuProc (some p)
  onCpu pushcli
  modify ({ · with proc := some p })
  onCpu popcli
  modify fun s => { s with status := Function.update s.status p .running, stack := some p }
  modify fun s => match s.intena p with
    | some b => { s with cpu := { s.cpu with intena := b }, intena := Function.update s.intena p none }
    | none => s

/-- The interrupt gate, and the check at the start of `trap`. -/
def trapEntry : TM Unit := do
  modify fun s => { s with
    eflags := Function.update s.eflags s.stack (s.cpu.interrupts :: s.eflags s.stack)
    cpu := { s.cpu with interrupts := false } }
  if (← get).cpu.interrupts then throw (.panic "trap(): interrupt is enabled while it's expected to be disabled\n")

/-- `trapret`. -/
def trapret : TM Unit := do
  let s ← get
  match s.eflags s.stack with
  | [] => throw .faults
  | b :: l => set { s with eflags := Function.update s.eflags s.stack l, cpu := { s.cpu with interrupts := b } }

/-- The check at the end of `trap`, and `trapret`. -/
def trapEnd : TM Unit := do
  if (← get).cpu.interrupts then throw (.panic "assertion failed: IEN == 0")
  trapret

def sti : TM Unit := modify fun s => { s with cpu := { s.cpu with interrupts := true } }

def cli : TM Unit := modify fun s => { s with cpu := { s.cpu with interrupts := false } }

/-- `acquire_kspinlock` from `pushcli` on, where no interrupt comes any more. -/
def takeKspinlock : SpinM Unit := do
  pushcli
  let s ← get
  if s.lk.locked then throw .spins
  set { s with lk := { locked := true, cpu := some s.cpu.index } }

/-- Before it. -/
def checkKspinlock : SpinM Unit := do
  if ← holdingKspinlock then throw (.panic "acquire_spinlock: lock \"%s\" is already held by the same CPU.")

theorem acquireKspinlock_split : acquireKspinlock = (checkKspinlock >>= fun _ => takeKspinlock) := by
  unfold acquireKspinlock checkKspinlock
  rw [bind_assoc]
  apply bind_congr
  intro b
  cases b <;> rfl

/-! ## The threads -/

inductive ThreadEvent where
  | check (l : Spinlock)
  | take (l : Spinlock)
  | release (l : Spinlock)
  | getCpuProc
  | sti
  | cli
  | interrupt
  | trap
  | trapEnd
  | trapret
  | giveUp (status : EnvStatus)
  | switchTo (p : Nat)

def ThreadEvent.code : ThreadEvent → TM Unit
  | .check l => onSpinlock l checkKspinlock
  | .take l => onSpinlock l takeKspinlock
  | .release l => onSpinlock l releaseKspinlock
  | .getCpuProc => do let _ ← Conc.getCpuProc
  | .sti => Conc.sti
  | .cli => Conc.cli
  | .interrupt | .trap => trapEntry
  | .trapEnd => Conc.trapEnd
  | .trapret => Conc.trapret
  | .giveUp status => Conc.giveUp status
  | .switchTo p => Conc.switchTo p

/-- The locks that a thread has taken, and whether it has the interrupts on where it has none. -/
structure Mode where
  held : List Spinlock
  enabled : Bool

/-- A thread now, and at the traps that it is in. -/
structure Thread extends Mode where
  frames : List Mode

structure Threads where
  kernel : KernelCpu
  thread : Option Nat → Thread

namespace Threads

/-- The thread on the CPU. -/
def current (s : Threads) : Thread := s.thread s.kernel.stack

/-- The thread is in a trap and has the locks that it had before. -/
def Ends (s : Threads) : Prop := ∃ m ms, s.current.frames = m :: ms ∧ s.current.held = m.held ∧
  (m.held ≠ [] → m.enabled = s.current.enabled)

/-- What a thread must keep to: it takes no lock that it has, releases only what it has, leaves `sti` and `cli` alone
while it has one, gives up the CPU with the lock of the queues alone, and ends a trap as it began it. -/
def Legal (s : Threads) : ThreadEvent → Prop
  | .check l | .take l => l ∉ s.current.held
  | .release l => l ∈ s.current.held
  | .getCpuProc | .trap => True
  | .sti | .cli => s.current.held = []
  | .interrupt => s.kernel.cpu.interrupts = true
  | .trapEnd => s.Ends ∧ (s.current.held = [] → s.current.enabled = false)
  | .trapret => s.Ends
  | .giveUp status => (∃ p, s.kernel.stack = some p) ∧ s.current.held = [.qlock] ∧ status ≠ .running
  | .switchTo _ => s.kernel.stack = none ∧ s.current.held = [.qlock]

def withCurrent (s : Threads) (k : KernelCpu) (t : Thread) : Threads := ⟨k, Function.update s.thread s.kernel.stack t⟩

/-- A thread that comes to the CPU without an `intena` of its own has the one that is there. -/
def comes (s : Threads) (k : KernelCpu) (t : Option Nat) : Threads :=
  ⟨k, Function.update s.thread t { s.thread t with enabled := k.cpu.intena }⟩

def after (s : Threads) (k : KernelCpu) : ThreadEvent → Threads
  | .take l => s.withCurrent k { s.current with held := l :: s.current.held }
  | .release l => s.withCurrent k { s.current with held := s.current.held.erase l }
  | .check _ | .getCpuProc => { s with kernel := k }
  | .sti => s.withCurrent k { s.current with enabled := true }
  | .cli => s.withCurrent k { s.current with enabled := false }
  | .interrupt | .trap => s.withCurrent k { s.current with
      enabled := !s.current.held.isEmpty && s.current.enabled
      frames := s.current.toMode :: s.current.frames }
  | .trapEnd | .trapret => s.withCurrent k
      ⟨⟨s.current.held, (s.current.frames.head?.map (·.enabled)).getD false⟩, s.current.frames.tail⟩
  | .giveUp _ => s.comes k none
  | .switchTo p => if (s.kernel.intena p).isSome then { s with kernel := k } else s.comes k (some p)

end Threads

inductive ThreadStep (s : Threads) (e : ThreadEvent) : Threads → Prop
  | of {k : KernelCpu} (hl : s.Legal e) (hr : e.code s.kernel = .ok () k) : ThreadStep s e (s.after k e)

/-- The CPU as `cpu_init` leaves it, with the scheduler's stack and processes that have not run. -/
def bootThreads (index : Nat) (interrupts : Bool) (status : Nat → EnvStatus) : Threads where
  kernel :=
    { locks := fun _ => {}, cpu := ⟨index, interrupts, 0, interrupts⟩, proc := none, stack := none, status
      intena := fun _ => none, eflags := fun t => if t = none then [] else [true] }
  thread t := if t = none then ⟨⟨[], interrupts⟩, []⟩ else ⟨⟨[.qlock], interrupts⟩, [⟨[], true⟩]⟩

/-! ## The locks -/

section Locks

variable {s : SpinState} {k : KernelCpu} {l : Spinlock}

/-- Inside `pushcli` the interrupts are off. -/
def CpuState.Masks (c : CpuState) : Prop := c.ncli ≠ 0 → c.interrupts = false

/-- `pushcli` and `popcli` leave nothing but the `intena` of a CPU that was not inside. -/
def CpuState.looked (c : CpuState) : CpuState := { c with intena := if c.ncli = 0 then c.interrupts else c.intena }

def CpuState.pushed (c : CpuState) : CpuState :=
  { c with interrupts := false, intena := if c.ncli = 0 then c.interrupts else c.intena, ncli := c.ncli + 1 }

theorem pushcli_eq (s : SpinState) : pushcli s = .ok () { s with cpu := s.cpu.pushed } := rfl

theorem popcli_eq (hi : s.cpu.interrupts = false) (hn : s.cpu.ncli ≠ 0) : popcli s = .ok () { s with cpu :=
    { s.cpu with ncli := s.cpu.ncli - 1, interrupts := decide (s.cpu.ncli = 1) && s.cpu.intena } } := by
  unfold popcli
  rw [get_bind]
  dsimp only
  rw [if_neg (by rw [hi]; exact Bool.false_ne_true), if_neg hn]
  rfl

theorem popcli_pushed (lk : KSpinlock) {c : CpuState} (h : c.Masks) :
    popcli ⟨lk, c.pushed⟩ = .ok () ⟨lk, c.looked⟩ := by
  rw [popcli_eq rfl (Nat.succ_ne_zero _)]
  have hif : (decide (c.ncli + 1 = 1) && if c.ncli = 0 then c.interrupts else c.intena) = c.interrupts := by
    by_cases h0 : c.ncli = 0
    · simp [h0]
    · simp [h0, h h0]
  exact congrArg (fun b => EStateM.Result.ok () (⟨lk, { c.looked with interrupts := b }⟩ : SpinState)) hif

theorem holdingKspinlock_masked (h : s.cpu.Masks) :
    holdingKspinlock s = .ok (decide s.Holds) { s with cpu := s.cpu.looked } := by
  have hread : (s.lk.locked && decide (s.lk.cpu = some s.cpu.index)) = decide s.Holds := by
    rw [Bool.eq_iff_iff, Bool.and_eq_true, decide_eq_true_iff, decide_eq_true_iff]
    exact Iff.rfl
  unfold holdingKspinlock
  rw [bind_of_ok (pushcli_eq s), get_bind, bind_of_ok (popcli_pushed s.lk h)]
  exact congrArg (EStateM.Result.ok · _) hread

/-- A free lock is taken. -/
theorem takeKspinlock_eq (hfree : s.lk = {}) : takeKspinlock s = .ok () ⟨⟨true, some s.cpu.index⟩, s.cpu.pushed⟩ := by
  unfold takeKspinlock
  rw [bind_of_ok (pushcli_eq s), get_bind]
  dsimp only
  rw [hfree, if_neg Bool.false_ne_true]
  rfl

theorem checkKspinlock_eq (h : s.cpu.Masks) (hfree : s.lk = {}) :
    checkKspinlock s = .ok () { s with cpu := s.cpu.looked } := by
  have hno : ¬ s.Holds := by
    rintro ⟨hl, -⟩
    rw [hfree] at hl
    cases hl
  unfold checkKspinlock
  rw [bind_of_ok (holdingKspinlock_masked h), decide_eq_false hno]
  rfl

theorem CpuState.pushed_looked (c : CpuState) : c.looked.pushed = c.pushed := by
  have hif : (if c.ncli = 0 then c.interrupts else if c.ncli = 0 then c.interrupts else c.intena) =
      if c.ncli = 0 then c.interrupts else c.intena := by
    split <;> rfl
  exact congrArg (fun b => { c.pushed with intena := b }) hif

theorem acquireKspinlock_eq (h : s.cpu.Masks) (hfree : s.lk = {}) : acquireKspinlock s = takeKspinlock s := by
  have hlooked := takeKspinlock_eq (s := { s with cpu := s.cpu.looked }) hfree
  rw [CpuState.pushed_looked] at hlooked
  rw [acquireKspinlock_split, bind_of_ok (checkKspinlock_eq h hfree), takeKspinlock_eq hfree]
  exact hlooked

/-- A lock that the CPU holds is released. -/
theorem releaseKspinlock_eq (hi : s.cpu.interrupts = false) (hn : s.cpu.ncli ≠ 0) (hh : s.Holds) :
    releaseKspinlock s = .ok () ⟨{}, { s.cpu with
      ncli := s.cpu.ncli - 1, interrupts := decide (s.cpu.ncli = 1) && s.cpu.intena }⟩ := by
  have hlooked : s.cpu.looked = s.cpu := by
    rw [CpuState.looked, if_neg hn]
  unfold releaseKspinlock
  rw [bind_of_ok (holdingKspinlock_masked fun _ => hi), decide_eq_true hh, hlooked]
  exact popcli_eq hi hn

/-! On the locks of the kernel. -/

theorem onSpinlock_eq {α : Type} {x : SpinM α} {a : α} {t : SpinState} (h : x ⟨k.locks l, k.cpu⟩ = .ok a t) :
    onSpinlock l x k = .ok a { k with locks := Function.update k.locks l t.lk, cpu := t.cpu } := by
  unfold onSpinlock
  rw [h]

theorem onSpinlock_same {α : Type} {x : SpinM α} {a : α} {c : CpuState}
    (h : x ⟨k.locks l, k.cpu⟩ = .ok a ⟨k.locks l, c⟩) : onSpinlock l x k = .ok a { k with cpu := c } := by
  rw [onSpinlock_eq h, Function.update_eq_self]

theorem getCpuProc_eq (h : k.cpu.Masks) : getCpuProc k = .ok k.proc { k with cpu := k.cpu.looked } := by
  unfold getCpuProc onCpu
  rw [bind_of_ok (onSpinlock_same (pushcli_eq _)), get_bind, bind_of_ok (onSpinlock_same (popcli_pushed _ h))]
  rfl

theorem setCpuProc_eq (h : k.cpu.Masks) (p : Option Nat) :
    setCpuProc p k = .ok () { k with cpu := k.cpu.looked, proc := p } := by
  unfold setCpuProc onCpu
  rw [bind_of_ok (onSpinlock_same (pushcli_eq _)), modify_bind]
  exact onSpinlock_same (popcli_pushed _ h)

end Locks

/-! ## The invariant -/

/-- A lock is taken if and only if the thread on the CPU has it, `ncli` counts its locks, and `FL_IF` and `intena` are
what the thread has them to be. Each other thread waits for the lock of the queues to be handed over to it. -/
structure Threads.Inv (s : Threads) : Prop where
  locks : ∀ l, s.kernel.locks l = if l ∈ s.current.held then ⟨true, some s.kernel.cpu.index⟩ else {}
  nodup : s.current.held.Nodup
  ncli : s.kernel.cpu.ncli = s.current.held.length
  masked : s.kernel.cpu.interrupts = (s.current.held.isEmpty && s.current.enabled)
  intena : s.current.held ≠ [] → s.kernel.cpu.intena = s.current.enabled
  away : ∀ t, t ≠ s.kernel.stack → (s.thread t).held = [.qlock]
  saved : ∀ p b, s.kernel.intena p = some b → s.kernel.stack ≠ some p ∧ (s.thread (some p)).enabled = b
  frames : ∀ t, s.kernel.eflags t = (s.thread t).frames.map fun m => m.held.isEmpty && m.enabled
  proc : ∀ p, s.kernel.stack = some p → s.kernel.proc = some p

/-- What `giveUp` leaves. -/
def KernelCpu.givenUp (k : KernelCpu) (p : Nat) (status : EnvStatus) : KernelCpu := { k with
  proc := if status = .ready then some p else none, stack := none, status := Function.update k.status p status
  intena := Function.update k.intena p (some k.cpu.intena) }

/-- What `switchTo` leaves. -/
def KernelCpu.switchedTo (k : KernelCpu) (p : Nat) : KernelCpu := { k with
  cpu := { k.cpu with intena := (k.intena p).getD k.cpu.intena }
  proc := some p, stack := some p, status := Function.update k.status p .running
  intena := Function.update k.intena p none }

section Inv

variable {s : Threads} {k : KernelCpu} {l : Spinlock} {c : CpuState}

namespace Threads

theorem Inv.masks (h : s.Inv) : s.kernel.cpu.Masks := by
  intro hn
  rw [h.masked]
  cases hheld : s.current.held with
  | nil => exact absurd (by rw [h.ncli, hheld]; rfl) hn
  | cons l ls => rfl

theorem Inv.off (h : s.Inv) (hheld : s.current.held ≠ []) : s.kernel.cpu.interrupts = false := by
  apply h.masks
  rw [h.ncli]
  exact fun h0 => hheld (List.length_eq_zero_iff.1 h0)

theorem Inv.holds (h : s.Inv) (hl : l ∈ s.current.held) : SpinState.Holds ⟨s.kernel.locks l, s.kernel.cpu⟩ := by
  rw [h.locks l, if_pos hl]
  exact ⟨rfl, rfl⟩

theorem withCurrent_current (s : Threads) (k : KernelCpu) (t : Thread) (hk : k.stack = s.kernel.stack) :
    (s.withCurrent k t).current = t := by
  show Function.update s.thread s.kernel.stack t k.stack = t
  rw [hk, Function.update_self]

/-- What the thread on the CPU does to its own locks and to `FL_IF`. -/
theorem Inv.acts (h : s.Inv) {t : Thread} (hstack : k.stack = s.kernel.stack) (hproc : k.proc = s.kernel.proc)
    (hintena : k.intena = s.kernel.intena)
    (hlocks : ∀ l, k.locks l = if l ∈ t.held then ⟨true, some k.cpu.index⟩ else {}) (hnodup : t.held.Nodup)
    (hncli : k.cpu.ncli = t.held.length) (hmasked : k.cpu.interrupts = (t.held.isEmpty && t.enabled))
    (hen : t.held ≠ [] → k.cpu.intena = t.enabled)
    (hframes : ∀ u, k.eflags u = if u = s.kernel.stack then t.frames.map (fun m => m.held.isEmpty && m.enabled)
      else s.kernel.eflags u) : (s.withCurrent k t).Inv := by
  have hcur := withCurrent_current s k t hstack
  have hother : ∀ u, u ≠ s.kernel.stack → (s.withCurrent k t).thread u = s.thread u := fun u hu =>
    Function.update_of_ne hu ..
  refine ⟨?_, ?_, ?_, ?_, ?_, fun u hu => ?_, fun p b hp => ?_, fun u => ?_, ?_⟩
  · rw [hcur]
    exact hlocks
  · rw [hcur]
    exact hnodup
  · rw [hcur]
    exact hncli
  · rw [hcur]
    exact hmasked
  · rw [hcur]
    exact hen
  · have hu : u ≠ s.kernel.stack := fun hc => hu (hc.trans hstack.symm)
    rw [hother u hu]
    exact h.away u hu
  · obtain ⟨hne, henabled⟩ := h.saved p b (hintena ▸ hp)
    refine ⟨fun hc => hne (hstack ▸ hc), ?_⟩
    rw [hother _ hne.symm]
    exact henabled
  · show k.eflags u = _
    rw [hframes u]
    split
    · rename_i hu
      rw [hu, show (s.withCurrent k t).thread s.kernel.stack = t from Function.update_self ..]
    · rename_i hu
      rw [hother u hu, h.frames u]
  · show ∀ p, k.stack = some p → k.proc = some p
    rw [hstack, hproc]
    exact h.proc

theorem length_ne_zero_of_mem {l : Spinlock} {ls : List Spinlock} (h : l ∈ ls) : ls.length ≠ 0 :=
  (List.length_pos_of_mem h).ne'

theorem Inv.free (h : s.Inv) (hl : l ∉ s.current.held) : s.kernel.locks l = {} := by
  rw [h.locks l, if_neg hl]

/-- What looks at the CPU alone. -/
theorem Inv.looked (h : s.Inv) : Inv { s with kernel := { s.kernel with cpu := s.kernel.cpu.looked } } := by
  refine ⟨h.locks, h.nodup, h.ncli, h.masked, fun hne => ?_, h.away, h.saved, h.frames, h.proc⟩
  show (if s.kernel.cpu.ncli = 0 then _ else s.kernel.cpu.intena) = _
  rw [if_neg fun h0 => hne (List.length_eq_zero_iff.1 (h.ncli ▸ h0))]
  exact h.intena hne

theorem Inv.check (h : s.Inv) (hl : s.Legal (.check l)) :
    ∃ k, onSpinlock l checkKspinlock s.kernel = .ok () k ∧ (s.after k (.check l)).Inv :=
  ⟨_, onSpinlock_same (checkKspinlock_eq h.masks (h.free hl)), h.looked⟩

theorem Inv.take (h : s.Inv) (hl : s.Legal (.take l)) :
    ∃ k, onSpinlock l takeKspinlock s.kernel = .ok () k ∧ (s.after k (.take l)).Inv := by
  refine ⟨_, onSpinlock_eq (takeKspinlock_eq (h.free hl)), ?_⟩
  refine h.acts rfl rfl rfl (fun x => ?_) (List.nodup_cons.2 ⟨hl, h.nodup⟩) ?_ rfl (fun _ => ?_) fun u => ?_
  · show Function.update s.kernel.locks l ⟨true, some s.kernel.cpu.index⟩ x = _
    rw [Function.update_apply, h.locks x]
    simp only [List.mem_cons]
    split_ifs <;> first | rfl | (exfalso; tauto)
  · show s.kernel.cpu.ncli + 1 = _
    rw [h.ncli]
    rfl
  · show (if s.kernel.cpu.ncli = 0 then s.kernel.cpu.interrupts else s.kernel.cpu.intena) = s.current.enabled
    by_cases h0 : s.current.held = []
    · rw [h.ncli, h0, List.length_nil, if_pos rfl, h.masked, h0]
      rfl
    · rw [h.ncli, if_neg fun hc => h0 (List.length_eq_zero_iff.1 hc)]
      exact h.intena h0
  · split
    · rename_i hu
      rw [hu]
      exact h.frames _
    · rfl

theorem Inv.release (h : s.Inv) (hl : s.Legal (.release l)) :
    ∃ k, onSpinlock l releaseKspinlock s.kernel = .ok () k ∧ (s.after k (.release l)).Inv := by
  have hne : s.current.held ≠ [] := List.ne_nil_of_mem hl
  have hn : s.kernel.cpu.ncli ≠ 0 := by
    rw [h.ncli]
    exact length_ne_zero_of_mem hl
  refine ⟨_, onSpinlock_eq (releaseKspinlock_eq (h.off hne) hn (h.holds hl)), ?_⟩
  have hlen : (s.current.held.erase l).length = s.current.held.length - 1 := List.length_erase_of_mem hl
  refine h.acts rfl rfl rfl (fun x => ?_) (h.nodup.erase l) ?_ ?_ (fun _ => h.intena hne) fun u => ?_
  · show Function.update s.kernel.locks l {} x =
      if x ∈ s.current.held.erase l then ⟨true, some s.kernel.cpu.index⟩ else {}
    rw [Function.update_apply, h.locks x]
    simp only [h.nodup.mem_erase_iff]
    split_ifs <;> first | rfl | (exfalso; tauto)
  · show s.kernel.cpu.ncli - 1 = _
    rw [h.ncli, hlen]
  · show (decide (s.kernel.cpu.ncli = 1) && s.kernel.cpu.intena) =
        ((s.current.held.erase l).isEmpty && s.current.enabled)
    have hone : (s.current.held.erase l).isEmpty = decide (s.current.held.length = 1) := by
      have hpos := length_ne_zero_of_mem hl
      rw [Bool.eq_iff_iff, List.isEmpty_iff, decide_eq_true_iff, ← List.length_eq_zero_iff, hlen]
      omega
    rw [h.intena hne, h.ncli, hone]
  · split
    · rename_i hu
      rw [hu]
      exact h.frames _
    · rfl

/-- `FL_IF` and the trap frames of a thread that takes and releases nothing. -/
theorem Inv.flags (h : s.Inv) {t : Thread} {b : Bool} {eflags : Option Nat → List Bool}
    (hheld : t.held = s.current.held)
    (hb : b = (t.held.isEmpty && t.enabled)) (hen : t.held ≠ [] → t.enabled = s.current.enabled)
    (hframes : ∀ u, eflags u = if u = s.kernel.stack then t.frames.map (fun m => m.held.isEmpty && m.enabled)
      else s.kernel.eflags u) :
    (s.withCurrent { s.kernel with cpu := { s.kernel.cpu with interrupts := b }, eflags } t).Inv := by
  refine h.acts rfl rfl rfl ?_ (hheld ▸ h.nodup) (hheld ▸ h.ncli) hb (fun hne => ?_) hframes
  · rw [hheld]
    exact h.locks
  · rw [hen hne]
    exact h.intena (hheld ▸ hne)

theorem Inv.same_frames (h : s.Inv) (u : Option Nat) : s.kernel.eflags u =
    if u = s.kernel.stack then s.current.frames.map (fun m => m.held.isEmpty && m.enabled) else s.kernel.eflags u := by
  split
  · rename_i hu
    rw [hu]
    exact h.frames _
  · rfl

theorem Inv.trapEntry (h : s.Inv) : ∃ k, Conc.trapEntry s.kernel = .ok () k ∧ (s.after k .trap).Inv := by
  refine ⟨_, rfl, h.flags rfl ?_ (fun hne => ?_) fun u => ?_⟩
  · cases s.current.held <;> rfl
  · show (!s.current.held.isEmpty && s.current.enabled) = _
    rw [List.isEmpty_eq_false_iff.2 hne]
    rfl
  · rw [Function.update_apply]
    split
    · rw [h.masked]
      show _ :: s.kernel.eflags s.kernel.stack = _ :: s.current.frames.map _
      rw [h.frames]
      rfl
    · rfl

theorem Inv.trapret (h : s.Inv) (hl : s.Ends) :
    ∃ k, Conc.trapret s.kernel = .ok () k ∧ (s.after k .trapret).Inv := by
  obtain ⟨m, ms, hf, hheld, hen⟩ := hl
  have heflags : s.kernel.eflags s.kernel.stack =
      (m.held.isEmpty && m.enabled) :: ms.map fun m => m.held.isEmpty && m.enabled := by
    rw [h.frames]
    show s.current.frames.map _ = _
    rw [hf]
    rfl
  have hrun : Conc.trapret s.kernel = .ok () { s.kernel with
      eflags := Function.update s.kernel.eflags s.kernel.stack (ms.map fun m => m.held.isEmpty && m.enabled)
      cpu := { s.kernel.cpu with interrupts := m.held.isEmpty && m.enabled } } := by
    unfold Conc.trapret
    rw [get_bind, heflags]
    rfl
  refine ⟨_, hrun, h.flags rfl ?_ (fun hne => ?_) fun u => ?_⟩
  · show _ = (s.current.held.isEmpty && (s.current.frames.head?.map (·.enabled)).getD false)
    rw [hf, hheld]
    rfl
  · show (s.current.frames.head?.map (·.enabled)).getD false = _
    rw [hf]
    exact hen (hheld ▸ hne)
  · rw [Function.update_apply]
    show _ = if u = s.kernel.stack then s.current.frames.tail.map _ else _
    rw [hf]
    rfl

theorem Inv.trapEnd (h : s.Inv) (hl : s.Legal .trapEnd) :
    ∃ k, Conc.trapEnd s.kernel = .ok () k ∧ (s.after k .trapEnd).Inv := by
  obtain ⟨hends, hoff⟩ := hl
  obtain ⟨k, hk, hI⟩ := h.trapret hends
  refine ⟨k, ?_, hI⟩
  have hint : s.kernel.cpu.interrupts = false := by
    by_cases h0 : s.current.held = []
    · rw [h.masked, hoff h0, Bool.and_false]
    · exact h.off h0
  unfold Conc.trapEnd
  rw [get_bind, hint, if_neg Bool.false_ne_true]
  exact hk

theorem Inv.getCpuProc (h : s.Inv) :
    ∃ k, ThreadEvent.getCpuProc.code s.kernel = .ok () k ∧ (s.after k .getCpuProc).Inv := by
  exact ⟨_, bind_of_ok (getCpuProc_eq h.masks), h.looked⟩

theorem looked_eq {c : CpuState} (h : c.ncli ≠ 0) : c.looked = c := by
  rw [CpuState.looked, if_neg h]

/-- The CPU holds the lock of the queues. -/
structure HasQueues (s : Threads) : Prop where
  masks : s.kernel.cpu.Masks
  off : s.kernel.cpu.interrupts = false
  holds : SpinState.Holds ⟨s.kernel.locks .qlock, s.kernel.cpu⟩
  looked : s.kernel.cpu.looked = s.kernel.cpu

theorem Inv.hasQueues (h : s.Inv) (hq : .qlock ∈ s.current.held) : HasQueues s := by
  refine ⟨h.masks, h.off (List.ne_nil_of_mem hq), h.holds hq, looked_eq ?_⟩
  rw [h.ncli]
  exact length_ne_zero_of_mem hq

theorem Inv.alone (h : s.Inv) (hq : s.current.held = [.qlock]) : HasQueues s ∧ s.kernel.cpu.ncli = 1 := by
  refine ⟨h.hasQueues ?_, ?_⟩
  · rw [hq]
    exact List.mem_singleton_self _
  · rw [h.ncli, hq]
    rfl

section HasQueues

variable {p : Nat} (k : KernelCpu) (h : HasQueues s) (hc : k.cpu = s.kernel.cpu)

include h hc

theorem HasQueues.holding (hk : k.locks .qlock = s.kernel.locks .qlock) :
    onSpinlock .qlock holdingKspinlock k = .ok true k := by
  have hrun : holdingKspinlock ⟨k.locks .qlock, k.cpu⟩ = .ok true ⟨k.locks .qlock, k.cpu⟩ := by
    rw [hk, hc, holdingKspinlock_masked h.masks, decide_eq_true h.holds, h.looked]
  exact onSpinlock_same hrun

theorem HasQueues.getCpuProc : Conc.getCpuProc k = .ok k.proc k := by
  rw [getCpuProc_eq (hc ▸ h.masks), hc, h.looked, ← hc]

theorem HasQueues.setCpuProc (p : Option Nat) : Conc.setCpuProc p k = .ok () { k with proc := p } := by
  rw [setCpuProc_eq (hc ▸ h.masks), hc, h.looked, ← hc]

theorem HasQueues.sched (hn : s.kernel.cpu.ncli = 1) (hk : k.locks .qlock = s.kernel.locks .qlock)
    (hproc : k.proc = some p) (hst : k.status p ≠ .running) :
      Conc.sched k = .ok () { k with intena := Function.update k.intena p (some k.cpu.intena), stack := none } := by
  unfold Conc.sched
  rw [bind_of_ok (h.getCpuProc k hc), hproc]
  dsimp only
  rw [bind_of_ok (h.holding k hc hk), if_neg (by decide), get_bind, if_neg (not_not.2 (hc ▸ hn)), if_neg hst,
    hc, if_neg (by rw [h.off]; exact Bool.false_ne_true), ← hc, ← hproc]
  rfl

/-- With another lock besides. -/
theorem HasQueues.sched_panics (hn : s.kernel.cpu.ncli ≠ 1) (hk : k.locks .qlock = s.kernel.locks .qlock)
    (hproc : k.proc = some p) : Conc.sched k = .error (.panic "sched locks: ncli = %d") k := by
  unfold Conc.sched
  rw [bind_of_ok (h.getCpuProc k hc), hproc]
  dsimp only
  rw [bind_of_ok (h.holding k hc hk), if_neg (by decide), get_bind, if_pos (hc ▸ hn)]
  rfl

theorem HasQueues.switchedBack (hk : k.locks .qlock = s.kernel.locks .qlock) (hproc : k.proc = some p)
    (hst : k.status p ≠ .running) :
    Conc.switchedBack k = .ok () { k with proc := if k.status p = .ready then some p else none } := by
  unfold Conc.switchedBack
  rw [bind_of_ok (h.holding k hc hk), if_neg (by decide)]
  dsimp only
  rw [get_bind, hproc]
  dsimp only
  rw [if_neg hst]
  by_cases hready : k.status p = .ready
  · rw [if_neg (not_not.2 hready), if_pos hready, ← hproc]
    rfl
  · rw [if_pos hready, if_neg hready]
    exact h.setCpuProc k hc none

end HasQueues

/-- Another thread comes to the CPU, and the lock of the queues with it. -/
theorem Inv.comes {t : Option Nat} (h : s.Inv) (hq : s.current.held = [.qlock]) (hne : t ≠ s.kernel.stack)
    (hstack : k.stack = t) (hlocks : k.locks = s.kernel.locks)
    (hcpu : k.cpu = { s.kernel.cpu with intena := k.cpu.intena })
    (heflags : k.eflags = s.kernel.eflags)
    (hsaved : ∀ p b, k.intena p = some b → some p ≠ t ∧
      (s.kernel.intena p = some b ∨ s.kernel.stack = some p ∧ b = s.kernel.cpu.intena))
    (hproc : ∀ p, t = some p → k.proc = some p) : (s.comes k t).Inv := by
  have hcur : (s.comes k t).current = { s.thread t with enabled := k.cpu.intena } := by
    show Function.update s.thread t _ k.stack = _
    rw [hstack, Function.update_self]
  have hother : ∀ u, u ≠ t → (s.comes k t).thread u = s.thread u := fun u hu => Function.update_of_ne hu ..
  have hheld : (s.comes k t).current.held = [.qlock] := by
    rw [hcur]
    exact h.away t hne
  obtain ⟨hA, hn⟩ := h.alone hq
  refine ⟨fun l => ?_, ?_, ?_, ?_, fun _ => ?_, fun u hu => ?_, fun p b hp => ?_, fun u => ?_, fun p hp => ?_⟩
  · show k.locks l = _
    rw [hheld, hlocks, h.locks l, hq, show (s.comes k t).kernel.cpu.index =
      s.kernel.cpu.index from congrArg (·.index) hcpu]
  · rw [hheld]
    exact List.nodup_singleton _
  · rw [hheld]
    exact (congrArg (·.ncli) hcpu).trans hn
  · rw [hheld]
    exact (congrArg (·.interrupts) hcpu).trans hA.off
  · rw [hcur]
    rfl
  · have hu : u ≠ t := fun hc => hu (hc.trans hstack.symm)
    rw [hother u hu]
    by_cases hs : u = s.kernel.stack
    · rw [hs]
      exact hq
    · exact h.away u hs
  · obtain ⟨hp, hb⟩ := hsaved p b hp
    refine ⟨fun hc => hp (hc.symm.trans hstack), ?_⟩
    rw [hother _ hp]
    rcases hb with hb | ⟨hb, rfl⟩
    · exact (h.saved p b hb).2
    · rw [← hb]
      refine (h.intena ?_).symm
      rw [hq]
      exact List.cons_ne_nil _ _
  · show k.eflags u = _
    rw [heflags, h.frames u]
    by_cases hu : u = t
    · rw [hu, show (s.comes k t).thread t = _ from Function.update_self ..]
    · rw [hother u hu]
  · exact hproc p (hstack.symm.trans hp)

theorem HasQueues.giveUp {p : Nat} {status : EnvStatus} (h : HasQueues s) (hn : s.kernel.cpu.ncli = 1)
    (hproc : s.kernel.proc = some p)
    (hst : status ≠ .running) : Conc.giveUp status s.kernel = .ok () (s.kernel.givenUp p status) := by
  have hself : Function.update s.kernel.status p status p = status := Function.update_self ..
  have hst' : Function.update s.kernel.status p status p ≠ .running := by rwa [hself]
  have hsched := h.sched { s.kernel with status := Function.update s.kernel.status p status } rfl hn rfl hproc hst'
  have hback := h.switchedBack { s.kernel with
    status := Function.update s.kernel.status p status
    intena := Function.update s.kernel.intena p (some s.kernel.cpu.intena), stack := none } rfl rfl hproc hst'
  unfold Conc.giveUp
  rw [bind_of_ok (h.getCpuProc s.kernel rfl), hproc]
  dsimp only
  rw [modify_bind, bind_of_ok hsched]
  exact hback.trans (congrArg (fun proc => EStateM.Result.ok () { s.kernel.givenUp p status with proc })
    (if_congr (iff_of_eq (congrArg (· = EnvStatus.ready) hself)) rfl rfl))

theorem HasQueues.switchTo (h : HasQueues s) (p : Nat) : Conc.switchTo p s.kernel = .ok () (s.kernel.switchedTo p) := by
  have hon : (onCpu pushcli >>= fun _ => (modify ({ · with proc := some p }) : TM Unit) >>= fun _ => onCpu popcli)
      { s.kernel with proc := some p } = .ok () { s.kernel with proc := some p } :=
    h.setCpuProc { s.kernel with proc := some p } rfl (some p)
  obtain ⟨_, k₁, h1, h2⟩ := ok_of_bind hon
  obtain ⟨_, k₂, h3, h4⟩ := ok_of_bind h2
  unfold Conc.switchTo
  rw [bind_of_ok (h.setCpuProc s.kernel rfl (some p)), bind_of_ok h1, bind_of_ok h3, bind_of_ok h4, modify_bind]
  show EStateM.Result.ok () (match s.kernel.intena p with
    | some b => _
    | none => _) = _
  unfold KernelCpu.switchedTo
  cases hb : s.kernel.intena p with
  | some b => rfl
  | none =>
    have hsame : Function.update s.kernel.intena p none = s.kernel.intena := by
      rw [← hb, Function.update_eq_self]
    rw [hsame]
    rfl

theorem Inv.giveUp {status : EnvStatus} (h : s.Inv) (hl : s.Legal (.giveUp status)) :
    ∃ k, Conc.giveUp status s.kernel = .ok () k ∧ (s.after k (.giveUp status)).Inv := by
  obtain ⟨⟨p, hstack⟩, hq, hst⟩ := hl
  refine ⟨_, (h.alone hq).1.giveUp (h.alone hq).2 (h.proc p hstack) hst,
    h.comes hq ?_ rfl rfl rfl rfl (fun q b hb => ?_) nofun⟩
  · rw [hstack]
    exact (Option.some_ne_none p).symm
  · refine ⟨Option.some_ne_none q, ?_⟩
    have hb : Function.update s.kernel.intena p (some s.kernel.cpu.intena) q = some b := hb
    rw [Function.update_apply] at hb
    split at hb
    · rename_i hqp
      exact .inr ⟨hqp ▸ hstack, (Option.some.inj hb).symm⟩
    · exact .inl hb

theorem Inv.switchTo {p : Nat} (h : s.Inv) (hl : s.Legal (.switchTo p)) :
    ∃ k, Conc.switchTo p s.kernel = .ok () k ∧ (s.after k (.switchTo p)).Inv := by
  obtain ⟨hstack, hq⟩ := hl
  refine ⟨_, (h.alone hq).1.switchTo p, ?_⟩
  have hcomes : (s.comes (s.kernel.switchedTo p) (some p)).Inv := by
    refine h.comes hq ?_ rfl rfl rfl rfl (fun q b hb => ?_) fun q hq => hq
    · rw [hstack]
      exact Option.some_ne_none p
    · have hb : Function.update s.kernel.intena p none q = some b := hb
      rw [Function.update_apply] at hb
      split at hb
      · cases hb
      · rename_i hqp
        exact ⟨fun hc => hqp (Option.some.inj hc), .inl hb⟩
  unfold Threads.after
  dsimp only
  split
  · -- the process has an `intena` of its own
    rename_i hsome
    obtain ⟨b, hb⟩ := Option.isSome_iff_exists.1 hsome
    have hsame : s.comes (s.kernel.switchedTo p) (some p) = { s with kernel := s.kernel.switchedTo p } := by
      have hen : (s.kernel.switchedTo p).cpu.intena = (s.thread (some p)).enabled := by
        rw [(h.saved p b hb).2, KernelCpu.switchedTo, hb]
        rfl
      unfold Threads.comes
      rw [hen]
      exact congrArg (Threads.mk _) (Function.update_eq_self ..)
    rwa [hsame] at hcomes
  · exact hcomes

/-- Each event of a thread that keeps to its locks goes through, and keeps the invariant. -/
theorem Inv.step {e : ThreadEvent} (h : s.Inv) (hl : s.Legal e) :
    ∃ k, e.code s.kernel = .ok () k ∧ (s.after k e).Inv := by
  cases e with
  | check l => exact h.check hl
  | take l => exact h.take hl
  | release l => exact h.release hl
  | getCpuProc => exact h.getCpuProc
  | sti =>
    have hl : s.current.held = [] := hl
    refine ⟨_, rfl, h.flags rfl ?_ (fun hne => absurd hl hne) h.same_frames⟩
    rw [hl]
    rfl
  | cli =>
    refine ⟨_, rfl, h.flags rfl ?_ (fun hne => absurd hl hne) h.same_frames⟩
    exact (Bool.and_false _).symm
  | interrupt => exact h.trapEntry
  | trap => exact h.trapEntry
  | trapEnd => exact h.trapEnd hl
  | trapret => exact h.trapret hl
  | giveUp status => exact h.giveUp hl
  | switchTo p => exact h.switchTo hl

theorem boot_inv (index : Nat) (interrupts : Bool) (status : Nat → EnvStatus) :
    (bootThreads index interrupts status).Inv := by
  refine ⟨fun l => rfl, List.nodup_nil, rfl, rfl, fun hne => absurd rfl hne, fun t ht => ?_, nofun, fun t => ?_, nofun⟩
  · have ht : t ≠ none := ht
    show (if t = none then _ else _ : Thread).held = _
    rw [if_neg ht]
  · show (if t = none then _ else _) = (if t = none then _ else _ : Thread).frames.map _
    split <;> rfl

end Threads

end Inv

/-! ## Runs -/

/-- No event of a thread that keeps to its locks panics or waits, only the thread on the CPU has locks, its interrupts
are off while it has one, and it stays on the CPU while it has one that is not the lock of the queues. -/
structure Threads.Safe (s : Threads) : Prop where
  goesOn : ∀ e, s.Legal e → ∃ t, ThreadStep s e t
  exclusive : ∀ l, (s.kernel.locks l).locked = true ↔ l ∈ s.current.held
  away : ∀ t, t ≠ s.kernel.stack → (s.thread t).held = [.qlock]
  masked : s.kernel.cpu.interrupts = (s.current.held.isEmpty && s.current.enabled)
  stays : ∀ e t, ThreadStep s e t → (∃ l ∈ s.current.held, l ≠ .qlock) → t.kernel.stack = s.kernel.stack

section Runs

variable {s t : Threads} {e : ThreadEvent} {k k' : KernelCpu} {l : Spinlock}

theorem onSpinlock_stack {α : Type} {x : SpinM α} {a : α} (h : onSpinlock l x k = .ok a k') : k'.stack = k.stack := by
  unfold onSpinlock at h
  split at h
  · cases h
    rfl
  · cases h

theorem after_kernel (s : Threads) (k : KernelCpu) (e : ThreadEvent) : (s.after k e).kernel = k := by
  cases e with
  | switchTo p =>
    unfold Threads.after
    dsimp only
    split <;> rfl
  | _ => rfl

theorem trapret_stack (h : trapret k = .ok () k') : k'.stack = k.stack := by
  unfold trapret at h
  rw [get_bind] at h
  cases hb : k.eflags k.stack with
  | nil =>
    rw [hb] at h
    cases h
  | cons b l =>
    rw [hb] at h
    cases h
    rfl

/-- A thread is switched from only while it has the lock of the queues alone. -/
theorem Threads.Inv.stays (h : s.Inv) (hst : ThreadStep s e t) (hl : l ∈ s.current.held) (hne : l ≠ .qlock) :
    t.kernel.stack = s.kernel.stack := by
  obtain ⟨hlegal, hr⟩ := hst
  have hq : s.current.held ≠ [.qlock] := fun hc => hne (List.mem_singleton.1 (hc ▸ hl))
  rw [after_kernel]
  cases e with
  | check l => exact onSpinlock_stack hr
  | take l => exact onSpinlock_stack hr
  | release l => exact onSpinlock_stack hr
  | getCpuProc =>
    obtain ⟨_, _, hget, hr⟩ := ok_of_bind hr
    rw [getCpuProc_eq h.masks] at hget
    cases hget
    cases hr
    rfl
  | trapEnd =>
    have hr : Conc.trapEnd s.kernel = _ := hr
    unfold Conc.trapEnd at hr
    rw [get_bind] at hr
    split at hr
    · obtain ⟨_, _, hr, -⟩ := ok_of_bind hr
      cases hr
    · exact trapret_stack hr
  | trapret => exact trapret_stack hr
  | giveUp status => exact absurd hlegal.2.1 hq
  | switchTo p => exact absurd hlegal.2 hq
  | _ =>
    cases hr
    rfl

theorem Threads.Inv.safe (h : s.Inv) : s.Safe := by
  refine ⟨fun e hl => ?_, fun l => ?_, h.away, h.masked, fun e t hst ⟨l, hl, hne⟩ => h.stays hst hl hne⟩
  · obtain ⟨k, hk, -⟩ := h.step hl
    exact ⟨_, .of hl hk⟩
  · rw [h.locks l]
    split
    · rename_i hl
      exact iff_of_true rfl hl
    · rename_i hl
      exact iff_of_false Bool.false_ne_true hl

theorem Threads.Inv.next (h : s.Inv) (hst : ThreadStep s e t) : t.Inv := by
  obtain ⟨hl, hr⟩ := hst
  obtain ⟨k, hk, hI⟩ := h.step hl
  obtain rfl := (EStateM.Result.ok.inj (hr.symm.trans hk)).2
  exact hI

end Runs

/-- `sleep` up to the switch, the channel's queue apart. -/
def sleepSwitch (lk : Spinlock) : TM Unit := do
  onSpinlock .qlock acquireKspinlock
  onSpinlock lk releaseKspinlock
  giveUp .blocked

/-- In every run of any number of threads that keep to their locks, from boot on and whatever the order in which they
are scheduled, interrupted and trapped, no spinlock is waited for, no check of the code panics, and a section under a
lock is not interrupted. -/
theorem spinlock_sections_atomic (index : Nat) (interrupts : Bool) (status : Nat → EnvStatus) (es : List ThreadEvent) :
    Always ThreadStep Threads.Safe (bootThreads index interrupts status) es :=
  (always_of_step (fun _ _ _ h hst => h.next hst) (Threads.boot_inv index interrupts status)).mono fun _ h => h.safe

section Sleep

variable {s : Threads} {p : Nat} {lk : Spinlock}

theorem Threads.HasQueues.giveUp_panics (h : s.HasQueues) (hn : s.kernel.cpu.ncli ≠ 1) (hproc : s.kernel.proc = some p)
    (status : EnvStatus) : ∃ k, Conc.giveUp status s.kernel = .error (.panic "sched locks: ncli = %d") k := by
  have hsched := h.sched_panics { s.kernel with status := Function.update s.kernel.status p status } rfl hn rfl hproc
  refine ⟨{ s.kernel with status := Function.update s.kernel.status p status }, ?_⟩
  unfold Conc.giveUp
  rw [bind_of_ok (h.getCpuProc s.kernel rfl), hproc]
  dsimp only
  rw [modify_bind, bind_of_error hsched]

/-- What a process that sleeps on a lock does before it gives up the CPU. -/
theorem Threads.Inv.beforeSleep (h : s.Inv) (hstack : s.kernel.stack = some p) (hlk : lk ∈ s.current.held)
    (hq : .qlock ∉ s.current.held) : ∃ t : Threads, t.Inv ∧ t.kernel.stack = some p ∧
      t.current.held = .qlock :: s.current.held.erase lk ∧ sleepSwitch lk s.kernel = Conc.giveUp .blocked t.kernel := by
  obtain ⟨k₁, hk₁, h₁⟩ := h.take hq
  have hs₁ := onSpinlock_stack hk₁
  have hheld₁ : (s.after k₁ (.take .qlock)).current.held = .qlock :: s.current.held :=
    congrArg (·.held) (Threads.withCurrent_current s k₁ _ hs₁)
  obtain ⟨k₂, hk₂, h₂⟩ := h₁.release (l := lk) (by
    show lk ∈ _
    rw [hheld₁]
    exact List.mem_cons_of_mem _ hlk)
  have hs₂ := onSpinlock_stack hk₂
  have hheld₂ := congrArg (·.held) (Threads.withCurrent_current (s.after k₁ (.take .qlock)) k₂
    { (s.after k₁ (.take .qlock)).current with held := (s.after k₁ (.take .qlock)).current.held.erase lk } hs₂)
  refine ⟨_, h₂, hs₂.trans (hs₁.trans hstack), ?_, ?_⟩
  · apply hheld₂.trans
    dsimp only
    rw [hheld₁, List.erase_cons_tail]
    rw [beq_iff_eq]
    rintro rfl
    exact hq hlk
  · have hk₂ : onSpinlock lk releaseKspinlock k₁ = .ok () k₂ := hk₂
    unfold sleepSwitch
    have hacquire : onSpinlock .qlock acquireKspinlock s.kernel = .ok () k₁ := by
      rw [← hk₁]
      unfold onSpinlock
      rw [acquireKspinlock_eq h.masks (h.free hq)]
    rw [bind_of_ok hacquire, bind_of_ok hk₂]
    rfl

/-- A process can sleep on a lock if it has no other: then it gives up the CPU, and otherwise the kernel panics. -/
theorem Threads.Inv.sleepSwitch_iff (h : s.Inv) (hstack : s.kernel.stack = some p) (hlk : lk ∈ s.current.held)
    (hq : .qlock ∉ s.current.held) :
    if s.current.held = [lk] then ∃ k, sleepSwitch lk s.kernel = .ok () k ∧ k.stack = none
    else ∃ k, sleepSwitch lk s.kernel = .error (.panic "sched locks: ncli = %d") k := by
  obtain ⟨t, ht, hst, hheld, hrun⟩ := h.beforeSleep hstack hlk hq
  rw [hrun]
  split
  · rename_i hone
    rw [hone, List.erase_cons_head] at hheld
    obtain ⟨hQ, hn⟩ := ht.alone hheld
    exact ⟨_, hQ.giveUp hn (ht.proc p hst) (by decide), rfl⟩
  · rename_i hmore
    have hn : t.kernel.cpu.ncli ≠ 1 := by
      intro hc
      rw [ht.ncli, hheld, List.length_cons, List.length_erase_of_mem hlk] at hc
      have hlen : s.current.held.length = 1 := by
        have := List.length_pos_of_mem hlk
        omega
      obtain ⟨l, hl⟩ := List.length_eq_one_iff.1 hlen
      rw [hl] at hlk hmore
      exact hmore (by rw [List.mem_singleton.1 hlk])
    exact (ht.hasQueues (by rw [hheld]; exact List.mem_cons_self)).giveUp_panics hn (ht.proc p hst) .blocked

end Sleep

/-- At every point of such a run, a process that sleeps on a lock gives up the CPU if it has no other lock, and the
kernel panics if it has. -/
theorem sleep_panics_iff (index : Nat) (interrupts : Bool) (status : Nat → EnvStatus) (es : List ThreadEvent) :
    Always ThreadStep (fun s => ∀ p lk, s.kernel.stack = some p → lk ∈ s.current.held → .qlock ∉ s.current.held →
      if s.current.held = [lk] then ∃ k, sleepSwitch lk s.kernel = .ok () k ∧ k.stack = none
      else ∃ k, sleepSwitch lk s.kernel = .error (.panic "sched locks: ncli = %d") k)
      (bootThreads index interrupts status) es :=
  (always_of_step (fun _ _ _ h hst => h.next hst) (Threads.boot_inv index interrupts status)).mono
    fun _ h p lk hstack hlk hq => @Threads.Inv.sleepSwitch_iff _ p lk h hstack hlk hq

end Fos.Conc
