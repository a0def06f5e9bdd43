/-
The spinlocks of `kern/conc/kspinlock.c` with `pushcli` and `popcli` of `kern/cpu/cpu.c`, and `env_set_priority`
of `kern/cpu/sched_helpers.c` on the slots of `envs` and on `ProcessQueues.qlock`. The call releases the lock for an
id that names no environment, which it has not acquired. The addresses in `pcs` and what is printed are left out.
-/
import Fos.Proc.EnvIds
import Fos.Cpu.Places

namespace Fos.Conc

open Fos.Lib Fos.Proc
open Fos.Cpu hiding envid2env

/-! ## The lock -/

structure KSpinlock where
  locked : Bool := false
  cpu : Option Nat := none
  deriving DecidableEq, Repr

/-- `interrupts` is `FL_IF`. -/
structure CpuState where
  index : Nat
  interrupts : Bool
  ncli : Nat
  intena : Bool
  deriving DecidableEq, Repr

/-- A lock, and the CPU the code runs on. -/
structure SpinState where
  lk : KSpinlock
  cpu : CpuState
  deriving DecidableEq, Repr

abbrev SpinM (α : Type) := EStateM Halt SpinState α

def pushcli : SpinM Unit := modify fun s =>
  { s with cpu := { s.cpu with
      interrupts := false
      intena := if s.cpu.ncli = 0 then s.cpu.interrupts else s.cpu.intena
      ncli := s.cpu.ncli + 1 } }

def popcli : SpinM Unit := do
  let c := (← get).cpu
  if c.interrupts then throw (.panic "popcli - interruptible")
  if c.ncli = 0 then throw (.panic "popcli")
  modify fun s => { s with cpu := { c with ncli := c.ncli - 1, interrupts := decide (c.ncli = 1) && c.intena } }

def holdingKspinlock : SpinM Bool := do
  pushcli
  let s ← get
  popcli
  return s.lk.locked && s.lk.cpu = some s.cpu.index

/-- A lock that another CPU holds is waited for. -/
def acquireKspinlock : SpinM Unit := do
  if ← holdingKspinlock then throw (.panic "acquire_spinlock: lock \"%s\" is already held by the same CPU.")
  pushcli
  let s ← get
  if s.lk.locked then throw .spins
  set { s with lk := { locked := true, cpu := some s.cpu.index } }

def releaseKspinlock : SpinM Unit := do
  if !(← holdingKspinlock) then throw (.panic "release: lock \"%s\" is either not held or held by another CPU!")
  modify fun s => { s with lk := { locked := false, cpu := none } }
  popcli

/-- The CPU holds the lock. -/
def SpinState.Holds (s : SpinState) : Prop := s.lk.locked = true ∧ s.lk.cpu = some s.cpu.index

instance (s : SpinState) : Decidable s.Holds := inferInstanceAs (Decidable (_ ∧ _))

section Lock

variable {s t : SpinState}

/-- The question does not touch the lock. -/
theorem holdingKspinlock_eq (s : SpinState) : ∃ c, holdingKspinlock s = .ok (decide s.Holds) { s with cpu := c } := by
  unfold holdingKspinlock pushcli popcli
  rw [modify_bind, get_bind]
  simp only [bind_assoc]
  rw [get_bind]
  simp only [Bool.false_eq_true, if_false, Nat.add_eq_zero_iff, one_ne_zero, and_false]
  rw [modify_bind]
  refine ⟨_, congrArg₂ EStateM.Result.ok ?_ rfl⟩
  rw [Bool.eq_iff_iff, Bool.and_eq_true, decide_eq_true_iff, decide_eq_true_iff]
  exact Iff.rfl

/-- A release by a CPU that does not hold the lock panics. -/
theorem releaseKspinlock_panics (h : ¬ s.Holds) :
    ∃ t, releaseKspinlock s = .error (.panic "release: lock \"%s\" is either not held or held by another CPU!") t := by
  obtain ⟨c, hc⟩ := holdingKspinlock_eq s
  unfold releaseKspinlock
  rw [bind_of_ok hc, decide_eq_false h]
  exact ⟨_, rfl⟩

/-- After a release the lock is free. -/
theorem releaseKspinlock_frees (h : releaseKspinlock s = .ok () t) : s.Holds ∧ t.lk = {} := by
  obtain ⟨c, hc⟩ := holdingKspinlock_eq s
  have hH : s.Holds := by
    by_contra hno
    obtain ⟨u, hu⟩ := releaseKspinlock_panics hno
    rw [h] at hu
    cases hu
  refine ⟨hH, ?_⟩
  unfold releaseKspinlock popcli at h
  rw [bind_of_ok hc, decide_eq_true hH] at h
  simp only [Bool.not_true, Bool.false_eq_true, if_false] at h
  rw [modify_bind, get_bind] at h
  split at h
  · obtain ⟨_, _, h, -⟩ := ok_of_bind h
    cases h
  split at h
  · obtain ⟨_, _, h, -⟩ := ok_of_bind h
    cases h
  cases h
  rfl

end Lock

/-! ## `env_set_priority` -/

/-- The slots of `envs` with the queues they are on, an environment being its slot, and `ProcessQueues.qlock`. -/
structure QueueState where
  sched : Sched
  envId : Nat → BitVec 32
  envParentId : Nat → BitVec 32
  envFreeList : List Nat
  qlock : SpinState

abbrev QM (α : Type) := EStateM Halt QueueState α

namespace QueueState

/-- The fields of the slots that `envid2env` reads. -/
def table (s : QueueState) : EnvTable where
  envs e := { envId := s.envId e, envStatus := (s.sched.env e).status, envParentId := s.envParentId e }
  envFreeList := s.envFreeList
  proc := s.sched.proc

/-- No live environment has the id. -/
def NamesNone (s : QueueState) (envid : BitVec 32) : Prop :=
  ∀ e < nenv, (s.sched.env e).status ≠ .free → s.envId e ≠ envid

end QueueState

def onQueues {α : Type} (x : SM α) : QM α := fun s =>
  match x s.sched with
  | .ok a t => .ok a { s with sched := t }
  | .error e t => .error e { s with sched := t }

def onLock {α : Type} (x : SpinM α) : QM α := fun s =>
  match x s.qlock with
  | .ok a t => .ok a { s with qlock := t }
  | .error e t => .error e { s with qlock := t }

def envSetPriority (envID : BitVec 32) (priority : Int) : QM Unit := do
  let s ← get
  match envid2env s.table envID false with
  | .error h => throw h
  | .ok (.error _) => onLock releaseKspinlock
  | .ok (.ok none) => onLock releaseKspinlock
  | .ok (.ok (some samaproc)) =>
    if (s.sched.env samaproc).status = .ready then
      onLock acquireKspinlock
      onQueues do
        schedRemoveReady samaproc
        modifyEnv samaproc ({ · with priority := priority, samawaitingTicks := 0 })
        schedInsertReady samaproc
      onLock releaseKspinlock
    else
      onQueues (modifyEnv samaproc ({ · with priority := priority }))

/-- The call returns, and the environments, the queues and the lock are as before. -/
def ReturnsUnchanged (s : QueueState) (envID : BitVec 32) (priority : Int) : Prop :=
  ∃ t, envSetPriority envID priority s = .ok () t ∧ t.sched = s.sched ∧ t.envId = s.envId ∧ t.qlock.lk = s.qlock.lk

section BadId

variable {s t : QueueState} {envID : BitVec 32} {priority : Int}

/-- The id is decoded to a slot outside of the array, or to one with another id or with no environment. -/
theorem envid2env_none (h : s.NamesNone envID) (h0 : envID ≠ 0) :
    envid2env s.table envID false = .error .faults ∨ envid2env s.table envID false = .ok (.error eBadEnv) := by
  unfold envid2env
  rw [if_neg h0]
  dsimp only
  by_cases hout : nenv ≤ envx envID
  · exact .inl (if_pos hout)
  · refine .inr ?_
    have hbad : (s.table.envs (envx envID)).envStatus = .free ∨ (s.table.envs (envx envID)).envId ≠ envID := by
      by_cases hfree : (s.sched.env (envx envID)).status = .free
      · exact .inl hfree
      · exact .inr (h _ (by omega) hfree)
    rw [if_neg hout, if_pos hbad]

/-- The call does nothing but release the lock. -/
theorem envSetPriority_releases (h : s.NamesNone envID) (h0 : envID ≠ 0)
    (hr : envSetPriority envID priority s = .ok () t) :
    onLock releaseKspinlock s = .ok () t := by
  unfold envSetPriority at hr
  rw [get_bind] at hr
  rcases envid2env_none h h0 with hid | hid
  · simp only [hid] at hr
    cases hr
  · simp only [hid] at hr
    exact hr

/-- Without the lock the call panics, and a caller that holds the lock comes back without it. -/
theorem bad_id_never_unchanged (h : s.NamesNone envID) (h0 : envID ≠ 0) : ¬ ReturnsUnchanged s envID priority := by
  rintro ⟨t, hr, -, -, hlk⟩
  have hrel := envSetPriority_releases h h0 hr
  unfold onLock at hrel
  split at hrel
  · rename_i hq
    cases hrel
    obtain ⟨⟨hlocked, -⟩, hfree⟩ := releaseKspinlock_frees hq
    rw [show _ = s.qlock.lk from hlk] at hfree
    rw [hfree] at hlocked
    cases hlocked
  · cases hrel

end BadId

/-- After `env_init` with no environment, in the middle of a system call. -/
def noEnvironments : QueueState where
  sched :=
    { env := fun _ => {}, queues := fun _ => [], proc := none, schedulerMethod := .prirr, numOfReadyQueues := 10,
      starvationThreshold := 5, started := false }
  envId := fun _ => 0
  envParentId := fun _ => 0
  envFreeList := List.range nenv
  qlock := { lk := {}, cpu := { index := 0, interrupts := true, ncli := 0, intena := true } }

/-- The environment `2048` runs and `2049` is ready in the third queue. -/
def twoEnvironments (qlock : SpinState) : QueueState where
  sched :=
    { env := fun e => if e = 0 then { status := .running, priority := 3 }
        else if e = 1 then { status := .ready, priority := 3 } else {}
      queues := fun q => if q = .ready 3 then [1] else []
      proc := some 0, schedulerMethod := .prirr, numOfReadyQueues := 10, starvationThreshold := 5, started := true }
  envId e := if e = 0 then 2048 else if e = 1 then 2049 else 0
  envParentId := fun _ => 0
  envFreeList := List.range' 2 (nenv - 2)
  qlock

theorem twoEnvironments_none (qlock : SpinState) : (twoEnvironments qlock).NamesNone 4096#32 := by
  intro e _ hs hid
  have hid : (if e = 0 then 2048 else if e = 1 then 2049 else 0 : BitVec 32) = 4096#32 := hid
  split_ifs at hid with h0 h1 <;> cases hid

/-- `4096` is the next id of the slot of `2048`: with the lock free the call panics, and a caller with the lock loses
it. -/
theorem bad_id_never_unchanged_two :
    ¬ ReturnsUnchanged (twoEnvironments noEnvironments.qlock) 4096#32 5 ∧
      ¬ ReturnsUnchanged (twoEnvironments ⟨⟨true, some 0⟩, ⟨0, false, 1, true⟩⟩) 4096#32 5 :=
  ⟨bad_id_never_unchanged (twoEnvironments_none _) (by decide),
    bad_id_never_unchanged (twoEnvironments_none _) (by decide)⟩

/-- `2048` is the id of the first environment; there is none now. -/
theorem bad_id_panics : ¬ ∀ (s : QueueState) (envID : BitVec 32) (priority : Int), envID ≠ 0 → s.NamesNone envID →
    ReturnsUnchanged s envID priority := by
  intro h
  obtain ⟨t, hr, -⟩ := h noEnvironments 2048#32 3 (by decide) fun _ _ hs => absurd rfl hs
  have hpanic : ∃ u, envSetPriority 2048#32 3 noEnvironments =
      .error (.panic "release: lock \"%s\" is either not held or held by another CPU!") u := ⟨_, rfl⟩
  obtain ⟨u, hu⟩ := hpanic
  rw [hr] at hu
  cases hu

end Fos.Conc
