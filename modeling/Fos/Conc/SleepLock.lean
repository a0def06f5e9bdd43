/-
The sleeping lock of `kern/conc/sleeplock.c`. Its spinlock makes a call one step up to the switch to
another process inside `sleep`; a process that comes back from there tests the lock again before
anything else runs, since it holds a spinlock all the time.
-/
import Fos.Cpu.Placement

namespace Fos.Conc

open Fos.Lib Fos.Cpu

/-! ## The lock -/

structure SleepLock where
  locked : Nat := 0
  pid : Nat := 0
  deriving DecidableEq, Repr

/-- The scheduler and one lock. -/
structure LockState where
  sched : Sched
  lk : SleepLock

abbrev LM (α : Type) := EStateM Halt LockState α

/-- A call of the scheduler or of a channel. -/
def onSched {α : Type} (x : SM α) : LM α := fun s =>
  match x s.sched with
  | .ok a t => .ok a { s with sched := t }
  | .error e t => .error e { s with sched := t }

def initSleeplock (s : LockState) (c : Nat) : LockState := ⟨s.sched.setQueue (.chan c) [], { locked := 0, pid := 0 }⟩

/-- `acquire_sleeplock` with channel `c`, from the test of its loop on: to its end, or to the switch inside
`sleep`, after which the process is at the test again. -/
def acquireSleeplock (c : Nat) : LM Unit := do
  let s ← get
  if s.lk.locked ≠ 0 then
    onSched (sleep c)
  else
    match s.sched.proc with
    | none => throw .faults
    | some p => set { s with lk := { locked := 1, pid := p } }

def releaseSleeplock (c : Nat) : LM Unit := do
  let s ← get
  if s.lk.locked ≠ 0 then
    match s.sched.proc with
    | none => throw .faults
    | some x =>
      if s.lk.pid = x then
        set { s with lk := { locked := 0, pid := 0 } }
        onSched (wakeupAll c)

/-! ## The processes -/

/-- What the process on the CPU does, or the scheduler between two processes. -/
inductive Event where
  | acquire
  | resume
  | release
  | other (op : Op)

def Event.code (c : Nat) : Event → LM Unit
  | .acquire => acquireSleeplock c
  | .resume => acquireSleeplock c
  | .release => releaseSleeplock c
  | .other op => onSched op.code

/-- A state of a run. `inside` are the processes that have gone to sleep in `acquire_sleeplock`, `holders` those
between their return from it and their `release_sleeplock`. -/
structure LockWorld where
  state : LockState
  admitted : Finset Nat
  inside : Finset Nat
  holders : Finset Nat

/-- The calls that have nothing to do with the lock's channel. The processes of the run do not end. -/
def Elsewhere (c : Nat) (s : Sched) : Op → Prop
  | .sleep c' | .wakeupOne c' | .wakeupAll c' => c' ≠ c
  | .envExit | .killEnv _ => False
  | .setPriority _ priority => s.InRange priority
  | _ => True

/-- A process back from `sleep` goes on in `acquire_sleeplock`; any other may do anything else. -/
def LockLegal (c : Nat) (w : LockWorld) : Event → Prop
  | .acquire | .release => ∃ p, w.state.sched.proc = some p ∧ p ∉ w.inside
  | .resume => ∃ p, w.state.sched.proc = some p ∧ p ∈ w.inside
  | .other op => (∀ p, w.state.sched.proc = some p → p ∉ w.inside) ∧ Legal w.state.sched w.admitted op ∧
      Elsewhere c w.state.sched op

/-- Where the processes are after an event that the process `p` took. -/
def LockWorld.after (w : LockWorld) (t : LockState) : Event → LockWorld
  | .acquire | .resume =>
    match w.state.sched.proc with
    | some p =>
      if w.state.lk.locked = 0 then ⟨t, w.admitted, w.inside.erase p, insert p w.holders⟩
      else ⟨t, w.admitted, insert p w.inside, w.holders⟩
    | none => { w with state := t }
  | .release =>
    match w.state.sched.proc with
    | some p => ⟨t, w.admitted, w.inside, w.holders.erase p⟩
    | none => { w with state := t }
  | .other op => ⟨t, survivors w.admitted op t.sched, w.inside, w.holders⟩

/-- A call that panics or goes outside of the ready queues ends the run. -/
def LockStep (c : Nat) (w : LockWorld) (ev : Event) (w' : LockWorld) : Prop :=
  LockLegal c w ev ∧ ∃ t, ev.code c w.state = .ok () t ∧ w' = w.after t ev

/-- At most one process holds the lock; `locked` is 1 with its id in `pid` or 0 with none, and then no process is
blocked in the channel. -/
structure Guarded (c : Nat) (w : LockWorld) : Prop where
  alone : ∀ p ∈ w.holders, ∀ q ∈ w.holders, p = q
  locked : w.state.lk.locked = if w.holders.Nonempty then 1 else 0
  pid : ∀ p ∈ w.holders, w.state.lk.pid = p
  awake : w.state.lk.locked = 0 → w.state.sched.queues (.chan c) = []

/-- A release by a process that does not hold the lock changes nothing. -/
def ReleaseIgnored (c : Nat) (w : LockWorld) : Event → Prop
  | .release => ∀ p, w.state.sched.proc = some p → p ∉ w.holders → releaseSleeplock c w.state = .ok () w.state
  | _ => True

/-! ## The invariant -/

structure LockInv (c : Nat) (w : LockWorld) : Prop where
  resting : w.state.sched.Resting w.admitted
  leveled : ∀ e, w.state.sched.InRange (w.state.sched.env e).priority
  guard : w.state.lk.locked = 0 ∧ w.holders = ∅ ∧ w.state.sched.queues (.chan c) = [] ∨
    w.state.lk.locked = 1 ∧ w.holders = {w.state.lk.pid}

section SleepLock

variable {c : Nat} {w w' : LockWorld} {ev : Event}

theorem LockInv.guarded (h : LockInv c w) : Guarded c w := by
  rcases h.guard with ⟨h0, hh, hq⟩ | ⟨h1, hh⟩
  · refine ⟨?_, ?_, ?_, fun _ => hq⟩
    · simp [hh]
    · simp [hh, h0]
    · simp [hh]
  · refine ⟨?_, ?_, ?_, fun h0 => ?_⟩
    · rw [hh]
      rintro p hp q hq
      rw [Finset.mem_singleton.1 hp, Finset.mem_singleton.1 hq]
    · rw [hh, h1, if_pos (Finset.singleton_nonempty _)]
    · rw [hh]
      rintro p hp
      exact (Finset.mem_singleton.1 hp).symm
    · rw [h1] at h0
      cases h0

theorem onSched_ok {x : SM Unit} {s t : LockState} (h : onSched x s = .ok () t) :
    ∃ r, x s.sched = .ok () r ∧ t = { s with sched := r } := by
  unfold onSched at h
  cases hx : x s.sched with
  | ok a r =>
    rw [hx] at h
    cases h
    exact ⟨r, rfl, rfl⟩
  | error e r =>
    rw [hx] at h
    cases h

/-- A call with priorities in range that returns fits. -/
theorem effect_of_leveled {s t : Sched} {admitted : Finset Nat} (op : Op) (h : s.Resting admitted)
    (hp : ∀ e, s.InRange (s.env e).priority) (hset : ∀ envId priority,
      op = .setPriority envId priority → s.InRange priority)
    (hl : Legal s admitted op) (hc : op.code s = .ok () t) :
    Effect s admitted op t ∧ t.Resting (survivors admitted op t) ∧ ∀ e, t.InRange (t.env e).priority := by
  have hpr : Proper s op := by
    cases op with
    | setPriority envId priority => exact hset envId priority rfl
    | tick =>
      rintro hm e he hs
      obtain ⟨r, hr⟩ := tickReady_outside h hm ⟨e, he, hs⟩
      have hc' : Op.tick.code s = .error .faults r := bind_of_error hr
      rw [hc] at hc'
      cases hc'
    | create | newEnv | runEnv | runAll | dispatch | prompt | yield | sleep | wakeupOne | wakeupAll | envExit
    | killEnv => trivial
  rcases code_effect h hl (fits_of_leveled hp hpr) with ⟨r, hr, he⟩ | ⟨m, r, hr⟩
  · rw [hc] at hr
    cases hr
    refine ⟨he, he.resting h hl, fun e => ?_⟩
    unfold Sched.InRange
    rw [he.settings.1]
    exact he.priority h hpr hp e
  · rw [hc] at hr
    cases hr

theorem ages_chan {s r : Sched} {admitted : Finset Nat} (hr : Ages s admitted r) :
    r.queues (.chan c) = s.queues (.chan c) := by
  cases hr with
  | rr hm => rfl
  | prirr hm hk => exact hk.off _ (by simp)

/-- A call that has nothing to do with the channel leaves it as it is. -/
theorem effect_chan {s t : Sched} {admitted : Finset Nat} {op : Op} (hop : Elsewhere c s op)
    (he : Effect s admitted op t) :
    t.queues (.chan c) = s.queues (.chan c) := by
  have hpick : ∀ {r : Sched}, r.Picks t → r.queues (.chan c) = s.queues (.chan c) →
      t.queues (.chan c) = s.queues (.chan c) :=
    fun ht hr => (ht.off (by simp)).trans hr
  cases he with
  | create => rfl
  | newEnv => simp [Sched.admitted]
  | runNone | wakeNone | prompt | setPriority => rfl
  | runOne => exact Sched.moveReady_off (by simp) (by simp)
  | @runFirst envId t hq hp ht hs =>
    have hoff : (s.moveReady .new envId).queues (.chan c) = s.queues (.chan c) :=
      Sched.moveReady_off (by simp) (by simp)
    exact hpick ht hoff
  | runAll hp hs ht =>
    have hoff : (s.moveAll .new (s.queues .new).reverse).queues (.chan c) = s.queues (.chan c) :=
      Sched.moveAll_off (by simp) (by simp)
    exact hpick ht hoff
  | dispatch hproc ht => exact hpick ht rfl
  | yield hproc hp ht => exact hpick ht (by simp [Sched.preempted])
  | sleep hproc ht =>
    apply hpick ht
    unfold Sched.blocked
    rw [Sched.leaveTo_queues, if_neg]
    simpa using hop.symm
  | wakeOne => exact Sched.moveReady_off (by simpa using hop.symm) (by simp)
  | wakeAll => exact Sched.moveAll_off (by simpa using hop.symm) (by simp)
  | exit | killNone | kill | killRunning => exact hop.elim
  | setReady hid hs hp => simp [Sched.reprioritised]
  | tickIdle ht hproc => exact ages_chan ht
  | tick hr hproc hp ht =>
    apply hpick ht
    unfold Sched.preempted
    rw [Sched.leaveTo_queues, if_neg (by simp)]
    exact ages_chan hr

theorem getL_bind {α : Type} (f : LockState → LM α) (s : LockState) : ((get : LM LockState) >>= f) s = f s s := rfl

/-- The test finds the lock taken: the process sleeps. -/
theorem acquire_sleeps {s t : LockState} (h1 : s.lk.locked ≠ 0) (hc : acquireSleeplock c s = .ok () t) :
    sleep c s.sched = .ok () t.sched ∧ t.lk = s.lk := by
  unfold acquireSleeplock at hc
  rw [getL_bind, if_pos h1] at hc
  obtain ⟨r, hr, rfl⟩ := onSched_ok hc
  exact ⟨hr, rfl⟩

/-- The test finds the lock free: the process takes it. -/
theorem acquire_takes {s : LockState} {p : Nat} (h0 : s.lk.locked = 0) (hproc : s.sched.proc = some p) :
    acquireSleeplock c s = .ok () { s with lk := { locked := 1, pid := p } } := by
  unfold acquireSleeplock
  rw [getL_bind, if_neg (by simp [h0])]
  simp only [hproc]
  rfl

theorem release_ignored {s : LockState} {p : Nat} (hproc : s.sched.proc = some p)
    (hp : s.lk.locked ≠ 0 → s.lk.pid ≠ p) :
    releaseSleeplock c s = .ok () s := by
  unfold releaseSleeplock
  rw [getL_bind]
  by_cases h1 : s.lk.locked ≠ 0
  · simp only [if_pos h1, hproc, if_neg (hp h1)]
    rfl
  · rw [if_neg h1]
    rfl

/-- The holder frees the lock and wakes all. -/
theorem release_frees {s t : LockState} {p : Nat} (h1 : s.lk.locked ≠ 0) (hproc : s.sched.proc = some p)
    (hp : s.lk.pid = p)
    (hc : releaseSleeplock c s = .ok () t) : wakeupAll c s.sched = .ok () t.sched ∧
      t.lk = { locked := 0, pid := 0 } := by
  unfold releaseSleeplock at hc
  rw [getL_bind] at hc
  simp only [if_pos h1, hproc, if_pos hp] at hc
  have hset : (set { s with lk := { locked := 0, pid := 0 } } : LM PUnit) s = .ok () { s with lk := {} } := rfl
  rw [bind_of_ok hset] at hc
  obtain ⟨r, hr, rfl⟩ := onSched_ok hc
  exact ⟨hr, rfl⟩

/-! ## Runs -/

/-- While a process sleeps or wakes others every admitted process stays. -/
theorem survivors_chan {s t : Sched} {admitted : Finset Nat} {op : Op} (h : s.Resting admitted)
    (he : Effect s admitted op t)
    (hop : op = .sleep c ∨ op = .wakeupAll c) : survivors admitted op t = admitted := by
  have hsame : ∀ {op : Op}, op = .sleep c ∨ op = .wakeupAll c → t.Ok t.proc none admitted →
      survivors admitted op t = admitted := by
    rintro op (rfl | rfl) hok
    · exact survivors_eq hok (Finset.Subset.refl _) fun e he hn => absurd he hn
    · exact survivors_eq hok (Finset.Subset.refl _) fun e he hn => absurd he hn
  apply hsame hop
  cases he with
  | sleep hproc ht =>
    have hok := h.ok
    rw [hproc] at hok
    exact ht.ok (hok.blocked _) rfl
  | wakeAll hp =>
    rw [(Sched.moveAll_settings _ _).1]
    exact h.ok.moveAll (by simp) (List.reverse_reverse _).symm (by simpa using hp)
  | _ => rcases hop with hop | hop <;> cases hop

theorem LockInv.acquire {t : LockState} {p : Nat} (h : LockInv c w) (hproc : w.state.sched.proc = some p)
    (hc : acquireSleeplock c w.state = .ok () t) : LockInv c (w.after t .acquire) := by
  unfold LockWorld.after
  simp only [hproc]
  rcases h.guard with ⟨h0, hh, hq⟩ | ⟨h1, hh⟩
  · rw [acquire_takes h0 hproc] at hc
    cases hc
    rw [if_pos h0, hh]
    exact ⟨h.resting, h.leveled, .inr ⟨rfl, rfl⟩⟩
  · have hne : w.state.lk.locked ≠ 0 := by omega
    obtain ⟨hsleep, hlk⟩ := acquire_sleeps hne hc
    obtain ⟨he, hr, hp⟩ := effect_of_leveled (.sleep c) h.resting h.leveled (by simp) (by simp [Legal, hproc]) hsleep
    rw [survivors_chan h.resting he (.inl rfl)] at hr
    rw [if_neg hne]
    exact ⟨hr, hp, .inr ⟨by rw [hlk, h1], by rw [hlk, hh]⟩⟩

theorem LockInv.release {t : LockState} {p : Nat} (h : LockInv c w) (hproc : w.state.sched.proc = some p)
    (hc : releaseSleeplock c w.state = .ok () t) : LockInv c (w.after t .release) := by
  unfold LockWorld.after
  simp only [hproc]
  by_cases hp : w.state.lk.locked ≠ 0 ∧ w.state.lk.pid = p
  · obtain ⟨h1, hp⟩ := hp
    obtain ⟨hwake, hlk⟩ := release_frees h1 hproc hp hc
    obtain ⟨he, hr, hl⟩ := effect_of_leveled (.wakeupAll c) h.resting h.leveled (by simp) trivial hwake
    rw [survivors_chan h.resting he (.inr rfl)] at hr
    have hh : w.holders = {w.state.lk.pid} := by
      rcases h.guard with ⟨h0, -⟩ | ⟨-, hh⟩
      · exact absurd h0 h1
      · exact hh
    refine ⟨hr, hl, .inl ⟨by rw [hlk], by rw [hh, hp, Finset.erase_singleton], ?_⟩⟩
    have hall : ∀ e ∈ (w.state.sched.queues (.chan c)).reverse, w.state.sched.InRange (w.state.sched.env e).priority :=
      fun e _ => h.leveled e
    have hempty := h.resting.ok.moveAll_queue (q := .chan c) (by simp) (List.reverse_reverse _).symm hall
    have hw := wakeupAll_eq (c := c) h.resting.ok fun e _ => h.leveled e
    rw [hwake] at hw
    obtain ⟨-, hw⟩ := EStateM.Result.ok.inj hw
    show t.sched.queues (.chan c) = []
    rw [hw]
    exact hempty
  · rw [release_ignored hproc fun h1 h2 => hp ⟨h1, h2⟩] at hc
    cases hc
    have hnot : p ∉ w.holders := by
      rcases h.guard with ⟨-, hh, -⟩ | ⟨h1, hh⟩
      · rw [hh]
        exact Finset.notMem_empty p
      · rw [hh, Finset.mem_singleton]
        rintro rfl
        exact hp ⟨by omega, rfl⟩
    rw [Finset.erase_eq_of_notMem hnot]
    exact ⟨h.resting, h.leveled, h.guard⟩

theorem LockInv.other {t : LockState} {op : Op} (h : LockInv c w) (hl : Legal w.state.sched w.admitted op)
    (hop : Elsewhere c w.state.sched op) (hc : onSched op.code w.state = .ok () t) :
      LockInv c (w.after t (.other op)) := by
  obtain ⟨r, hr, rfl⟩ := onSched_ok hc
  obtain ⟨he, hrest, hp⟩ := effect_of_leveled op h.resting h.leveled
    (fun envId priority heq => by subst heq; exact hop) hl hr
  refine ⟨hrest, hp, ?_⟩
  show w.state.lk.locked = 0 ∧ w.holders = ∅ ∧ r.queues (.chan c) = [] ∨ _
  rw [effect_chan hop he]
  exact h.guard

theorem LockInv.step (h : LockInv c w) (hs : LockStep c w ev w') : LockInv c w' := by
  obtain ⟨hl, t, hc, rfl⟩ := hs
  cases ev with
  | acquire | resume =>
    obtain ⟨p, hproc, -⟩ := hl
    exact h.acquire hproc hc
  | release =>
    obtain ⟨p, hproc, -⟩ := hl
    exact h.release hproc hc
  | other op => exact h.other hl.2.1 hl.2.2 hc

theorem LockInv.releaseIgnored (h : LockInv c w) (ev : Event) : ReleaseIgnored c w ev := by
  cases ev with
  | acquire | resume | other => trivial
  | release =>
    rintro p hproc hp
    apply release_ignored hproc
    intro h1 hpid
    rcases h.guard with ⟨h0, -⟩ | ⟨-, hh⟩
    · exact h1 h0
    · rw [hh, hpid] at hp
      exact hp (Finset.mem_singleton_self p)

/-- Any number of processes, on either scheduler, in any order: at most one holds the lock, `locked` and `pid` say
which, a release by another changes nothing, and nobody is blocked in the channel of a free lock. -/
theorem sleeplock_guards {s : Sched} (hs : Initial s) (c : Nat) (evs : List Event) :
    Always (LockStep c) (Guarded c) ⟨initSleeplock ⟨s, {}⟩ c, ∅, ∅, ∅⟩ evs ∧
      Each (LockStep c) (ReleaseIgnored c) ⟨initSleeplock ⟨s, {}⟩ c, ∅, ∅, ∅⟩ evs := by
  have hlevel : (World.at s ∅ ()).Leveled := hs.leveled
  have hqueue : s.setQueue (.chan c) [] = s := by
    have hq : s.queues (.chan c) = [] := by cases hs <;> rfl
    unfold Sched.setQueue
    rw [← hq, Function.update_eq_self]
  have hI : LockInv c ⟨initSleeplock ⟨s, {}⟩ c, ∅, ∅, ∅⟩ := by
    unfold initSleeplock
    rw [hqueue]
    exact ⟨hlevel.1, hlevel.2, .inl ⟨rfl, rfl, by cases hs <;> rfl⟩⟩
  exact (always_each_iff (fun w hw => hw.guarded) (fun w ev w' hI _ hs => ⟨hI.releaseIgnored ev, hI.step hs⟩)
    (fun _ _ _ _ _ _ _ => trivial) hI).2 Each.trivially

theorem sleeplock_guards_two : Always (LockStep 7) (Guarded 7) ⟨initSleeplock ⟨schedInitRR cleared, {}⟩ 7, ∅, ∅, ∅⟩
      [.other (.create 1), .other (.create 2), .other (.newEnv 1), .other (.newEnv 2), .other .runAll, .acquire,
        .other .yield, .acquire, .release, .other .yield, .resume] ∧
    Each (LockStep 7) (ReleaseIgnored 7) ⟨initSleeplock ⟨schedInitRR cleared, {}⟩ 7, ∅, ∅, ∅⟩
      [.other (.create 1), .other (.create 2), .other (.newEnv 1), .other (.newEnv 2), .other .runAll, .acquire,
        .other .yield, .acquire, .release, .other .yield, .resume] :=
  sleeplock_guards .rr 7 _

end SleepLock

end Fos.Conc
