/-
The process queues and the scheduler, `kern/cpu/sched_helpers.c`, `kern/cpu/sched.c` and
`kern/conc/channel.c`, with `yield`, `sched`, `env_exit` and `envid2env` of
`kern/proc/user_environment.c`. An environment is its `env_id`, a queue the list of its
environments from `LIST_FIRST` on. A call is one step, as with `ProcessQueues.qlock` held from its
start to its end. `sched_kill_env` and `env_set_priority` hold it in parts only: their parts are
steps of their own in `KillSteps` and `PriorityRace`. `clock_interrupt_handler` does not take it for the
queues that age, but runs with interrupts disabled. What a call does to memory outside of the queues is
not defined: it ends with `faults`.
-/
import Fos.Lib.StateCode
import Fos.Base

namespace Fos.Cpu

open Fos.Lib

/-! ## The state -/

/-- The values of `env_status`. -/
inductive EnvStatus where
  | free
  | ready
  | running
  | blocked
  | new
  | exit
  | killed
  | unknown
  deriving DecidableEq, Repr

/-- The fields of `struct Env` that the scheduler uses. -/
structure Env where
  status : EnvStatus := .free
  priority : Int := 0
  samawaitingTicks : Nat := 0
  deriving DecidableEq, Repr

inductive QueueId where
  | new
  | ready (level : Int)
  | exit
  | chan (c : Nat)
  deriving DecidableEq, Repr

inductive SchedMethod where
  | rr
  | prirr
  deriving DecidableEq, Repr

/-- `started` is `scheduler_status` not being `SCH_STOPPED`; `proc` is the process on the CPU. -/
structure Sched where
  env : Nat → Env
  queues : QueueId → List Nat
  proc : Option Nat
  schedulerMethod : SchedMethod
  numOfReadyQueues : Nat
  starvationThreshold : Nat
  started : Bool

abbrev SM (α : Type) := EStateM Halt Sched α

namespace Sched

def setEnv (s : Sched) (e : Nat) (x : Env) : Sched := { s with env := Function.update s.env e x }

def setQueue (s : Sched) (q : QueueId) (l : List Nat) : Sched := { s with queues := Function.update s.queues q l }

/-- A level with a ready queue. -/
def InRange (s : Sched) (level : Int) : Prop := 0 ≤ level ∧ level < s.numOfReadyQueues

instance (s : Sched) (level : Int) : Decidable (s.InRange level) := inferInstanceAs (Decidable (_ ∧ _))

/-- `queues` has the queue: `env_ready_queues` is an array. -/
def Has (s : Sched) : QueueId → Prop
  | .ready level => s.InRange level
  | _ => True

instance (s : Sched) : (q : QueueId) → Decidable (s.Has q)
  | .ready level => inferInstanceAs (Decidable (s.InRange level))
  | .new | .exit | .chan _ => isTrue trivial

/-- The first ready queue that `find_env_in_queue` finds the environment in. -/
def findReady (s : Sched) (e : Nat) : Option Nat :=
  (List.range s.numOfReadyQueues).find? fun i => e ∈ s.queues (.ready i)

@[simp] theorem setEnv_env (s : Sched) (e : Nat) (x : Env) (f : Nat) :
    (s.setEnv e x).env f = if f = e then x else s.env f := Function.update_apply ..
@[simp] theorem setEnv_queues (s : Sched) (e : Nat) (x : Env) : (s.setEnv e x).queues = s.queues := rfl
@[simp] theorem setEnv_proc (s : Sched) (e : Nat) (x : Env) : (s.setEnv e x).proc = s.proc := rfl
@[simp] theorem setEnv_num (s : Sched) (e : Nat) (x : Env) :
    (s.setEnv e x).numOfReadyQueues = s.numOfReadyQueues := rfl
@[simp] theorem setQueue_env (s : Sched) (q : QueueId) (l : List Nat) : (s.setQueue q l).env = s.env := rfl
@[simp] theorem setQueue_queues (s : Sched) (q : QueueId) (l : List Nat) (q' : QueueId) :
    (s.setQueue q l).queues q' = if q' = q then l else s.queues q' := Function.update_apply ..
@[simp] theorem setQueue_proc (s : Sched) (q : QueueId) (l : List Nat) : (s.setQueue q l).proc = s.proc := rfl
@[simp] theorem setQueue_num (s : Sched) (q : QueueId) (l : List Nat) :
    (s.setQueue q l).numOfReadyQueues = s.numOfReadyQueues := rfl

end Sched

/-! ## Queues -/

/-- `LIST_INSERT_HEAD`. -/
def enqueue (q : QueueId) (e : Nat) : SM Unit := do
  let s ← get
  if s.Has q then set (s.setQueue q (e :: s.queues q)) else throw .faults

/-- The last environment is taken. -/
def dequeue (q : QueueId) : SM (Option Nat) := do
  let s ← get
  match (s.queues q).getLast? with
  | none => return none
  | some e =>
    set (s.setQueue q (s.queues q).dropLast)
    return some e

/-- `LIST_REMOVE`: of an environment that is on another queue it would break the links of both. -/
def listRemove (q : QueueId) (e : Nat) : SM Unit := do
  let s ← get
  if e ∈ s.queues q then set (s.setQueue q ((s.queues q).erase e)) else throw .faults

def modifyEnv (e : Nat) (g : Env → Env) : SM Unit := modify fun s => s.setEnv e (g (s.env e))

/-! ## The queues of the scheduler -/

def schedInsertReady (e : Nat) : SM Unit := do
  modifyEnv e ({ · with status := .ready })
  enqueue (.ready ((← get).env e).priority) e

def schedRemoveReady (e : Nat) : SM Unit := do
  let s ← get
  if (s.env e).status ≠ .ready then throw (.panic "assertion failed: env != NULL && env->env_status == ENV_READY")
  match s.findReady e with
  | some i =>
    listRemove (.ready i) e
    modifyEnv e ({ · with status := .unknown })
  | none => pure ()

def schedInsertNew (e : Nat) : SM Unit := do
  modifyEnv e ({ · with status := .new })
  enqueue .new e

def schedRemoveNew (e : Nat) : SM Unit := do
  if ((← get).env e).status ≠ .new then throw (.panic "assertion failed: env != NULL && env->env_status == ENV_NEW")
  listRemove .new e
  modifyEnv e ({ · with status := .unknown })

def schedInsertExit (e : Nat) : SM Unit := do
  modifyEnv e ({ · with status := .exit })
  enqueue .exit e

def schedRemoveExit (e : Nat) : SM Unit := do
  if ((← get).env e).status ≠ .exit then throw (.panic "assertion failed: env != NULL && env->env_status == ENV_EXIT")
  listRemove .exit e
  modifyEnv e ({ · with status := .unknown })

/-! ## The scheduler -/

def fosSchedulerRR : SM (Option Nat) := do
  match (← get).proc with
  | some cur => enqueue (.ready 0) cur
  | none => pure ()
  dequeue (.ready 0)

/-- The search for the first ready queue that is not empty. -/
def chooseNext : List Nat → SM (Option Nat)
  | [] => return none
  | i :: levels => do
    if (← get).queues (.ready i) = [] then chooseNext levels else dequeue (.ready i)

def fosSchedulerPRIRR : SM (Option Nat) := do
  match (← get).proc with
  | some cur =>
    modifyEnv cur ({ · with status := .ready })
    schedInsertReady cur
    modifyEnv cur ({ · with samawaitingTicks := 0 })
  | none => pure ()
  chooseNext (List.range (← get).numOfReadyQueues)

/-- The table `sched_next`. -/
def schedNext : SchedMethod → SM (Option Nat)
  | .rr => fosSchedulerRR
  | .prirr => fosSchedulerPRIRR

/-- The inner loop of `fos_scheduler`: the next process is switched to. With none the scheduler polls while
any environment is blocked. -/
def schedule : SM Unit := do
  match ← schedNext (← get).schedulerMethod with
  | some e =>
    modify ({ · with proc := some e })
    modifyEnv e ({ · with status := .running })
  | none => pure ()

/-- `fos_scheduler` from its start. -/
def fosScheduler : SM Unit := do
  modify ({ · with proc := none, started := true })
  schedule

/-- `sched`: the process leaves the CPU and `fos_scheduler` goes on. -/
def sched : SM Unit := do
  let s ← get
  match s.proc with
  | none => throw (.panic "assertion failed: p != NULL")
  | some p =>
    if (s.env p).status = .running then throw (.panic "sched a running process")
    if (s.env p).status ≠ .ready then modify ({ · with proc := none })
    schedule

def yield : SM Unit := do
  match (← get).proc with
  | none => throw (.panic "assertion failed: p != NULL")
  | some p =>
    modifyEnv p ({ · with status := .ready })
    sched

/-! ## Channels -/

def sleep (c : Nat) : SM Unit := do
  match (← get).proc with
  | none => throw .faults
  | some p =>
    modifyEnv p ({ · with status := .blocked })
    enqueue (.chan c) p
    sched

def wakeupOne (c : Nat) : SM Unit := do
  match ← dequeue (.chan c) with
  | some e => schedInsertReady e
  | none => pure ()

/-- The loop of `wakeup_all` over the processes that are on the channel. -/
def wakeupEach (c : Nat) : Nat → SM Unit
  | 0 => pure ()
  | n + 1 => do
    match ← dequeue (.chan c) with
    | some e =>
      modifyEnv e ({ · with status := .ready })
      schedInsertReady e
      wakeupEach c n
    | none => pure ()

def wakeupAll (c : Nat) : SM Unit := do wakeupEach c ((← get).queues (.chan c)).length

/-! ## Calls -/

/-- What `env_create` leaves in the cleared `struct Env`. -/
def envCreate (e : Nat) : SM Unit := modifyEnv e fun _ => { status := .new }

/-- `get_into_prompt`, up to the prompt. -/
def getIntoPrompt : SM Unit := modify ({ · with proc := none, started := false })

def schedNewEnv (e : Nat) : SM Unit := schedInsertNew e

def schedRunEnv (envId : Nat) : SM Unit := do
  if envId ∈ (← get).queues .new then
    schedRemoveNew envId
    schedInsertReady envId
    if !(← get).started then fosScheduler

/-- The loop of `sched_run_all` over the processes that are new. -/
def runEach : Nat → SM Unit
  | 0 => pure ()
  | n + 1 => do
    match ← dequeue .new with
    | some e => schedInsertReady e
    | none => throw (.panic "assertion failed: env != NULL")
    runEach n

def schedRunAll : SM Unit := do
  runEach ((← get).queues .new).length
  if (← get).started then throw (.panic "scheduler status is NOT STOPPED while it's expected to be!!")
  fosScheduler

/-- `sched_exit_env`. The search of the NEW queue does not stop at the environment and ends at `NULL`. -/
def schedExitEnv (envId : Nat) : SM Unit := do
  let s ← get
  if envId ∈ s.queues .new then
    schedRemoveNew envId
    throw (.panic "assertion failed: env != NULL")
  match s.findReady envId with
  | some i => listRemove (.ready i) envId
  | none => pure ()
  match s.proc with
  | none => throw (.panic "assertion failed: cur_env != NULL")
  | some cur =>
    if (s.findReady envId).isSome ∨ cur = envId then
      schedInsertExit envId
      if cur = envId then sched

def envExit : SM Unit := do
  match (← get).proc with
  | none => throw (.panic "assertion failed: cur_env != NULL")
  | some cur => schedExitEnv cur

/-- `env_free`, which clears the whole `struct Env` (its `channel` is never set). The memory that it gives back is in
`Fos.Fault.EnvFree`. -/
def envFree (e : Nat) : SM Unit := modifyEnv e fun _ => {}

def schedKillEnv (envId : Nat) : SM Unit := do
  let s ← get
  if envId ∈ s.queues .new then
    schedRemoveNew envId
    envFree envId
  else if let some i := s.findReady envId then
    listRemove (.ready i) envId
    envFree envId
  else if envId ∈ s.queues .exit then
    schedRemoveExit envId
    envFree envId
  else
    match s.proc with
    | none => throw (.panic "assertion failed: cur_env != NULL")
    | some cur =>
      if cur = envId then
        if (s.env cur).status ≠ .running then throw (.panic "assertion failed: ptr_env->env_status == ENV_RUNNING")
        envFree cur
        sched

/-- A loop of `sched_kill_all` over a queue, which takes the next element before it frees one. -/
def killEach (remove : Nat → SM Unit) : List Nat → SM Unit
  | [] => pure ()
  | e :: es => do
    remove e
    envFree e
    killEach remove es

def killLevels : List Nat → SM Unit
  | [] => pure ()
  | i :: levels => do
    killEach (listRemove (.ready i)) ((← get).queues (.ready i))
    killLevels levels

/-- The end of `sched_kill_all`. Nothing comes back to it after the `sched` of the process that it frees. -/
def killRunning : SM Unit := do
  let s ← get
  match s.proc with
  | some cur =>
    if (s.env cur).status ≠ .running then throw (.panic "assertion failed: ptr_env->env_status == ENV_RUNNING")
    envFree cur
    sched
  | none => getIntoPrompt

def schedKillAll : SM Unit := do
  killEach schedRemoveNew ((← get).queues .new)
  killLevels (List.range (← get).numOfReadyQueues)
  killEach schedRemoveExit ((← get).queues .exit)
  killRunning

/-- `envid2env`, with no check of permissions; `none` is a bad id. -/
def envid2env (s : Sched) (envId : Nat) : Option Nat :=
  if envId = 0 then s.proc
  else if (s.env envId).status = .free then none
  else some envId

def envSetPriority (envId : Nat) (priority : Int) : SM Unit := do
  let s ← get
  match envid2env s envId with
  | none => throw (.panic "release: lock \"%s\" is either not held or held by another CPU!")
  | some e =>
    if (s.env e).status = .ready then
      schedRemoveReady e
      modifyEnv e ({ · with priority := priority, samawaitingTicks := 0 })
      schedInsertReady e
    else
      modifyEnv e ({ · with priority := priority })

/-! ## The clock -/

/-- What a tick does with an environment of ready queue `i`. -/
def tickEnv (i e : Nat) : SM Unit := do
  let s ← get
  let x := s.env e
  if s.starvationThreshold < x.samawaitingTicks then
    listRemove (.ready i) e
    modifyEnv e ({ · with priority := x.priority - 1, samawaitingTicks := 0 })
    enqueue (.ready (x.priority - 1)) e
  else
    modifyEnv e ({ · with samawaitingTicks := add32 x.samawaitingTicks 1 })

/-- `LIST_FOREACH` of a ready queue: the next environment is read before one is moved, so it visits those
that are on the queue at its start. -/
def tickQueue (i : Nat) : List Nat → SM Unit
  | [] => pure ()
  | e :: l => do
    tickEnv i e
    tickQueue i l

def tickQueues : List Nat → SM Unit
  | [] => pure ()
  | i :: levels => do
    tickQueue i ((← get).queues (.ready i))
    tickQueues levels

/-- The first part of `clock_interrupt_handler`. -/
def tickReady : SM Unit := do
  let s ← get
  if s.schedulerMethod = .prirr then tickQueues (List.range s.numOfReadyQueues)

def clockInterruptHandler : SM Unit := do
  tickReady
  if (← get).proc.isSome then yield

/-! ## Initialization -/

/-- `sched_init_RR`. -/
def schedInitRR (s : Sched) : Sched :=
  { s.setQueue (.ready 0) [] with numOfReadyQueues := 1, schedulerMethod := .rr, started := false }

/-- `sched_init_PRIRR`, with memory for the queues. -/
def schedInitPRIRR (s : Sched) (numOfPriorities starvThresh : Nat) : Sched :=
  { s with
    queues := fun q => match q with
      | .ready _ => []
      | q => s.queues q
    starvationThreshold := starvThresh
    numOfReadyQueues := numOfPriorities
    schedulerMethod := .prirr
    started := false }

end Fos.Cpu
