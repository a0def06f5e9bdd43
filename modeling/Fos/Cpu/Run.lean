/-
Runs of the scheduler: the calls, ticks and choices in any order, from a freshly initialised
scheduler. A run is in a state, with the environments that were admitted and not freed, or lost: a
call has gone outside of the array of ready queues or has taken an environment off a queue it is not on.
-/
import Fos.Cpu.Calls
import Fos.Cpu.Clock
import Fos.Lib.Trace

namespace Fos.Cpu

open Fos.Lib

/-! ## The system -/

inductive Op where
  | create (e : Nat)
  | newEnv (e : Nat)
  | runEnv (envId : Nat)
  | runAll
  | dispatch
  | prompt
  | yield
  | sleep (c : Nat)
  | wakeupOne (c : Nat)
  | wakeupAll (c : Nat)
  | envExit
  | killEnv (envId : Nat)
  | setPriority (envId : Nat) (priority : Int)
  | tick
  deriving DecidableEq, Repr

def Op.code : Op → SM Unit
  | .create e => envCreate e
  | .newEnv e => schedNewEnv e
  | .runEnv envId => schedRunEnv envId
  | .runAll => schedRunAll
  | .dispatch => schedule
  | .prompt => getIntoPrompt
  | .yield => Cpu.yield
  | .sleep c => Cpu.sleep c
  | .wakeupOne c => Cpu.wakeupOne c
  | .wakeupAll c => Cpu.wakeupAll c
  | .envExit => Cpu.envExit
  | .killEnv envId => schedKillEnv envId
  | .setPriority envId priority => envSetPriority envId priority
  | .tick => clockInterruptHandler

/-- When a call can come: the scheduler itself runs only between two processes, a free slot is taken for a
new environment, `env_create` comes before `sched_new_env`, and only a process can sleep. -/
def Legal (s : Sched) (admitted : Finset Nat) : Op → Prop
  | .create e => e ∉ admitted ∧ (s.env e).status = .free
  | .newEnv e => e ∉ admitted ∧ (s.env e).status = .new
  | .dispatch => s.proc = none ∧ s.started = true
  | .prompt => s.proc = none ∧ s.started = true ∧ (∀ i, s.queues (.ready i) = []) ∧ ∀ e, (s.env e).status ≠ .blocked
  | .sleep _ => s.proc ≠ none
  | _ => True

/-- The environments that are admitted and not freed after a call. -/
def survivors (admitted : Finset Nat) (op : Op) (t : Sched) : Finset Nat :=
  (match op with
    | .newEnv e => insert e admitted
    | _ => admitted).filter fun e => (t.env e).status ≠ EnvStatus.free

/-- A state of a run, with what a property adds to it. -/
inductive World (γ : Type) where
  | at (s : Sched) (admitted : Finset Nat) (ghost : γ)
  | lost

/-- `update` keeps the addition. A panic ends the run. -/
inductive Step {γ : Type} (update : Sched → Op → Sched → γ → γ) : World γ → Op → World γ → Prop
  | returns {s t : Sched} {admitted : Finset Nat} {g : γ} {op : Op} (hlegal : Legal s admitted op)
      (hcode : op.code s = .ok () t) :
      Step update (.at s admitted g) op (.at t (survivors admitted op t) (update s op t g))
  | loses {s t : Sched} {admitted : Finset Nat} {g : γ} {op : Op} (hlegal : Legal s admitted op)
      (hcode : op.code s = .error .faults t) : Step update (.at s admitted g) op .lost

/-- The calls of a run one after the other, with those of `Legal` that can be decided. -/
def execOps {γ : Type} (update : Sched → Op → Sched → γ → γ) : List Op → Sched → Finset Nat → γ → Option (Sched × γ)
  | [], s, _, g => some (s, g)
  | op :: ops, s, admitted, g =>
    let legal : Bool := match op with
      | .create e => e ∉ admitted ∧ (s.env e).status = .free
      | .newEnv e => e ∉ admitted ∧ (s.env e).status = .new
      | .dispatch => s.proc = none ∧ s.started = true
      | .prompt => false
      | .sleep _ => s.proc ≠ none
      | _ => true
    match legal, op.code s with
    | true, .ok _ t => execOps update ops t (survivors admitted op t) (update s op t g)
    | _, _ => none

/-- Before `sched_init`. -/
def cleared : Sched where
  env := fun _ => {}
  queues := fun _ => []
  proc := none
  schedulerMethod := .rr
  numOfReadyQueues := 0
  starvationThreshold := 0
  started := false

/-- An initialised scheduler. With no queue `sched_init_PRIRR` panics. -/
inductive Initial : Sched → Prop
  | rr : Initial (schedInitRR cleared)
  | prirr {numOfPriorities starvThresh : Nat} (hn : 0 < numOfPriorities) (hn' : numOfPriorities < 256)
      (ht : starvThresh < 4294967296) : Initial (schedInitPRIRR cleared numOfPriorities starvThresh)

/-- Every environment that the call inserts into a ready queue has a level for its priority, and a tick
promotes none of the first queue. -/
def Fits (s : Sched) : Op → Prop
  | .runEnv envId => envId ∈ s.queues .new → s.InRange (s.env envId).priority
  | .runAll => ∀ e ∈ s.queues .new, s.InRange (s.env e).priority
  | .yield => ∀ cur, s.proc = some cur → s.InRange (s.env cur).priority
  | .wakeupOne c => ∀ e, (s.queues (.chan c)).getLast? = some e → s.InRange (s.env e).priority
  | .wakeupAll c => ∀ e ∈ s.queues (.chan c), s.InRange (s.env e).priority
  | .setPriority envId priority => ∀ e, envid2env s envId = some e → (s.env e).status = .ready → s.InRange priority
  | .tick => (s.schedulerMethod = .prirr → ∀ e ∈ s.queues (.ready 0), ¬ s.Starved e) ∧
      ∀ cur, s.proc = some cur → s.InRange (s.env cur).priority
  | _ => True

/-! ## What a call does -/

/-- What a tick does to the ready queues. -/
inductive Ages (s : Sched) (admitted : Finset Nat) : Sched → Prop
  | rr (hm : s.schedulerMethod = .rr) : Ages s admitted s
  | prirr {r : Sched} (hm : s.schedulerMethod = .prirr) (h : s.Ticked r s.proc admitted 0) : Ages s admitted r

inductive Effect (s : Sched) (admitted : Finset Nat) : Op → Sched → Prop
  | create {e : Nat} : Effect s admitted (.create e) (s.setEnv e { status := .new })
  | newEnv {e : Nat} : Effect s admitted (.newEnv e) (s.admitted e)
  | runNone {envId : Nat} (h : envId ∉ s.queues .new) : Effect s admitted (.runEnv envId) s
  | runOne {envId : Nat} (h : envId ∈ s.queues .new) (hp : s.InRange (s.env envId).priority) (hs : s.started = true) :
      Effect s admitted (.runEnv envId) (s.moveReady .new envId)
  | runFirst {envId : Nat} {t : Sched} (h : envId ∈ s.queues .new) (hp : s.InRange (s.env envId).priority)
      (ht : (s.moveReady .new envId).begun.Picks t) (hs : s.started = false) : Effect s admitted (.runEnv envId) t
  | runAll {t : Sched} (hp : ∀ e ∈ s.queues .new, s.InRange (s.env e).priority) (hs : s.started = false)
      (ht : (s.moveAll .new (s.queues .new).reverse).begun.Picks t) : Effect s admitted .runAll t
  | dispatch {t : Sched} (hproc : s.proc = none) (ht : s.Picks t) : Effect s admitted .dispatch t
  | prompt (hproc : s.proc = none) : Effect s admitted .prompt { s with proc := none, started := false }
  | yield {cur : Nat} {t : Sched} (hproc : s.proc = some cur) (hp : s.InRange (s.env cur).priority)
      (ht : (s.preempted cur).Picks t) : Effect s admitted .yield t
  | sleep {cur c : Nat} {t : Sched} (hproc : s.proc = some cur) (ht : (s.blocked c cur).Picks t) :
      Effect s admitted (.sleep c) t
  | wakeNone {c : Nat} (hq : s.queues (.chan c) = []) : Effect s admitted (.wakeupOne c) s
  | wakeOne {c e : Nat} {l : List Nat} (hq : s.queues (.chan c) = l ++ [e]) (hp : s.InRange (s.env e).priority) :
      Effect s admitted (.wakeupOne c) (s.moveReady (.chan c) e)
  | wakeAll {c : Nat} (hp : ∀ e ∈ s.queues (.chan c), s.InRange (s.env e).priority) :
      Effect s admitted (.wakeupAll c) (s.moveAll (.chan c) (s.queues (.chan c)).reverse)
  | exit {cur : Nat} {t : Sched} (hproc : s.proc = some cur) (ht : (s.exited cur).Picks t) :
    Effect s admitted .envExit t
  | killNone {envId : Nat} (hproc : s.proc ≠ some envId) : Effect s admitted (.killEnv envId) s
  | kill {envId : Nat} {q : QueueId} (hq : envId ∈ s.queues q) :
    Effect s admitted (.killEnv envId) (s.killedFrom q envId)
  | killRunning {envId : Nat} {t : Sched} (hproc : s.proc = some envId) (ht : (s.killedRunning envId).Picks t) :
      Effect s admitted (.killEnv envId) t
  | setPriority {envId e : Nat} {priority : Int} (hid : envid2env s envId = some e) (hs : (s.env e).status ≠ .ready) :
      Effect s admitted (.setPriority envId priority) (s.setEnv e { s.env e with priority := priority })
  | setReady {envId e : Nat} {priority : Int} (hid : envid2env s envId = some e) (hs : (s.env e).status = .ready)
      (hp : s.InRange priority) : Effect s admitted (.setPriority envId priority) (s.reprioritised e priority)
  | tickIdle {t : Sched} (ht : Ages s admitted t) (hproc : s.proc = none) : Effect s admitted .tick t
  | tick {cur : Nat} {r t : Sched} (hr : Ages s admitted r) (hproc : s.proc = some cur)
      (hp : s.InRange (s.env cur).priority) (ht : (r.preempted cur).Picks t) : Effect s admitted .tick t

section Effect

variable {s r t : Sched} {admitted : Finset Nat} {op : Op}

theorem Ages.resting (h : s.Resting admitted) (hr : Ages s admitted r) : r.Resting admitted := by
  cases hr with
  | rr hm => exact h
  | prirr hm hk =>
    obtain ⟨h1, h2, h3, -, h5⟩ := hk.settings
    exact ⟨by rw [h1]; exact hk.ok, by rw [h2]; exact h.levels, by rw [h2, h3]; exact h.single,
      by rw [h1, h5]; exact h.stopped⟩

theorem Ages.proc (hr : Ages s admitted r) : r.proc = s.proc := by
  cases hr with
  | rr hm => rfl
  | prirr hm hk => exact hk.settings.1

theorem Ages.started (hr : Ages s admitted r) : r.started = s.started := by
  cases hr with
  | rr hm => rfl
  | prirr hm hk => exact hk.settings.2.2.2.2

theorem Ages.settings (hr : Ages s admitted r) :
    r.numOfReadyQueues = s.numOfReadyQueues ∧ r.schedulerMethod = s.schedulerMethod := by
  cases hr with
  | rr hm => exact ⟨rfl, rfl⟩
  | prirr hm hk => exact ⟨hk.settings.2.1, hk.settings.2.2.1⟩

/-- A tick leaves the process on the CPU alone. -/
theorem Ages.running {e : Nat} (hs : (s.env e).status ≠ .ready) (hr : Ages s admitted r) : r.env e = s.env e := by
  cases hr with
  | rr hm => rfl
  | prirr hm hk => rw [hk.env, if_neg fun h => hs h.1]

/-- The process on the CPU has the same priority after the ready queues have aged. -/
theorem Ages.inRange {cur : Nat} (h : s.Resting admitted) (hr : Ages s admitted r) (hproc : s.proc = some cur) :
    r.InRange (r.env cur).priority ↔ s.InRange (s.env cur).priority := by
  have hrun : r.env cur = s.env cur := hr.running (by rw [h.ok.running cur hproc]; simp)
  unfold Sched.InRange
  rw [hrun, hr.settings.1]

theorem clockInterruptHandler_eq (hr : tickReady s = .ok () r) :
    clockInterruptHandler s = if r.proc.isSome then yield r else .ok () r := by
  unfold clockInterruptHandler
  rw [bind_of_ok hr, getS_bind]
  split <;> rfl

theorem ages_of_fits (h : s.Resting admitted)
    (h0 : s.schedulerMethod = .prirr → ∀ e ∈ s.queues (.ready 0), ¬ s.Starved e) :
    ∃ r, tickReady s = .ok () r ∧ Ages s admitted r := by
  cases hm : s.schedulerMethod with
  | rr => exact ⟨s, tickReady_rr hm, .rr hm⟩
  | prirr =>
    obtain ⟨r, hr, hk⟩ := tickReady_ticked h hm (h0 hm)
    exact ⟨r, hr, .prirr hm hk⟩

/-- A call that fits has its effect or panics. -/
theorem code_effect (h : s.Resting admitted) (hl : Legal s admitted op) (hf : Fits s op) :
    (∃ t, op.code s = .ok () t ∧ Effect s admitted op t) ∨ ∃ m t, op.code s = .error (.panic m) t := by
  cases op with
  | create e => exact .inl ⟨_, rfl, .create⟩
  | newEnv e =>
    refine .inl ⟨s.admitted e, ?_, .newEnv⟩
    show schedInsertNew e s = _
    unfold schedInsertNew
    rw [bind_of_ok (modifyEnv_mark s e .new)]
    exact enqueue_eq (s := s.mark e .new) (q := .new) trivial
  | runEnv envId =>
    by_cases he : envId ∈ s.queues .new
    · cases hs : s.started with
      | true => exact .inl ⟨_, schedRunEnv_started h.ok he (hf he) hs, .runOne he (hf he) hs⟩
      | false =>
        obtain ⟨t, hc, ht⟩ := schedRunEnv_picks h he (hf he) hs
        exact .inl ⟨t, hc, .runFirst he (hf he) ht hs⟩
    · exact .inl ⟨s, schedRunEnv_absent he, .runNone he⟩
  | runAll =>
    cases hs : s.started with
    | true => exact .inr (schedRunAll_panics h hs hf)
    | false =>
      obtain ⟨t, hc, ht⟩ := schedRunAll_picks h hs hf
      exact .inl ⟨t, hc, .runAll hf hs ht⟩
  | dispatch =>
    obtain ⟨t, hc, ht⟩ := schedule_picks h.levels h.single hl.1
    exact .inl ⟨t, hc, .dispatch hl.1 ht⟩
  | prompt => exact .inl ⟨_, rfl, .prompt hl.1⟩
  | yield =>
    cases hproc : s.proc with
    | none =>
      obtain ⟨m, hc⟩ := yield_panics hproc
      exact .inr ⟨m, s, hc⟩
    | some cur =>
      obtain ⟨t, hc, ht⟩ := yield_picks h hproc (hf cur hproc)
      exact .inl ⟨t, hc, .yield hproc (hf cur hproc) ht⟩
  | sleep c =>
    obtain ⟨cur, hproc⟩ := Option.ne_none_iff_exists'.1 hl
    obtain ⟨t, hc, ht⟩ := sleep_picks h hproc c
    exact .inl ⟨t, hc, .sleep hproc ht⟩
  | wakeupOne c =>
    rcases queue_cases (s.queues (.chan c)) with hq | ⟨l, e, hq⟩
    · exact .inl ⟨s, wakeupOne_nil hq, .wakeNone hq⟩
    · have hp : s.InRange (s.env e).priority := hf e (by rw [hq]; simp)
      exact .inl ⟨_, wakeupOne_eq h.ok hq hp, .wakeOne hq hp⟩
  | wakeupAll c => exact .inl ⟨_, wakeupAll_eq h.ok hf, .wakeAll hf⟩
  | envExit =>
    cases hproc : s.proc with
    | none =>
      obtain ⟨m, hc⟩ := envExit_panics hproc
      exact .inr ⟨m, s, hc⟩
    | some cur =>
      obtain ⟨t, hc, ht⟩ := envExit_picks h hproc
      exact .inl ⟨t, hc, .exit hproc ht⟩
  | killEnv envId =>
    rcases schedKillEnv_cases h (e := envId) with ⟨q, -, hq, hc⟩ | ⟨hproc, t, hc, ht⟩ | ⟨hproc, -, ⟨m, hc⟩ | hc⟩
    · exact .inl ⟨_, hc, .kill hq⟩
    · exact .inl ⟨t, hc, .killRunning hproc ht⟩
    · exact .inr ⟨m, s, hc⟩
    · exact .inl ⟨s, hc, .killNone hproc⟩
  | setPriority envId priority =>
    cases hid : envid2env s envId with
    | none =>
      obtain ⟨m, hc⟩ := envSetPriority_bad hid priority
      exact .inr ⟨m, s, hc⟩
    | some e =>
      by_cases hs : (s.env e).status = .ready
      · exact .inl ⟨_, envSetPriority_ready h.ok hid hs (hf e hid hs), .setReady hid hs (hf e hid hs)⟩
      · exact .inl ⟨_, envSetPriority_sets hid hs, .setPriority hid hs⟩
  | tick =>
    obtain ⟨h0, hcur⟩ := hf
    obtain ⟨r, hr, ha⟩ := ages_of_fits h h0
    have hc := clockInterruptHandler_eq hr
    cases hproc : s.proc with
    | none =>
      rw [ha.proc, hproc] at hc
      exact .inl ⟨r, hc, .tickIdle ha hproc⟩
    | some cur =>
      have hrp : r.proc = some cur := ha.proc.trans hproc
      have hp : s.InRange (s.env cur).priority := hcur cur hproc
      rw [hrp] at hc
      obtain ⟨t, hy, ht⟩ := yield_picks (ha.resting h) hrp ((ha.inRange h hproc).2 hp)
      exact .inl ⟨t, hc.trans hy, .tick ha hproc hp ht⟩

/-- A call that does not fit goes outside of the array. -/
theorem code_outside (h : s.Resting admitted) (hm : s.schedulerMethod = .prirr) (hf : ¬ Fits s op) :
    ∃ t, op.code s = .error .faults t := by
  cases op with
  | create | newEnv | dispatch | prompt | sleep | envExit | killEnv => exact absurd trivial hf
  | runEnv envId =>
    simp only [Fits, Classical.not_imp] at hf
    exact schedRunEnv_outside h.ok hf.1 hf.2
  | runAll =>
    simp only [Fits, not_forall] at hf
    obtain ⟨e, he, hp⟩ := hf
    exact schedRunAll_outside h ⟨e, he, hp⟩
  | yield =>
    simp only [Fits, not_forall] at hf
    obtain ⟨cur, hproc, hp⟩ := hf
    exact yield_outside hproc hm hp
  | wakeupOne c =>
    simp only [Fits, not_forall] at hf
    obtain ⟨e, he, hp⟩ := hf
    obtain ⟨l, hl⟩ := List.getLast?_eq_some_iff.1 he
    exact wakeupOne_outside hl hp
  | wakeupAll c =>
    simp only [Fits, not_forall] at hf
    obtain ⟨e, he, hp⟩ := hf
    exact wakeupAll_outside h.ok ⟨e, he, hp⟩
  | setPriority envId priority =>
    simp only [Fits, not_forall] at hf
    obtain ⟨e, hid, hs, hp⟩ := hf
    exact envSetPriority_outside h.ok hid hs hp
  | tick =>
    by_cases h0 : ∃ e ∈ s.queues (.ready 0), s.Starved e
    · obtain ⟨t, ht⟩ := tickReady_outside h hm h0
      exact ⟨t, bind_of_error ht⟩
    · push Not at h0
      obtain ⟨r, hr, ha⟩ := ages_of_fits h fun _ => h0
      have hcur : ∃ cur, s.proc = some cur ∧ ¬ s.InRange (s.env cur).priority := by
        by_contra hn
        push Not at hn
        exact hf ⟨fun _ => h0, hn⟩
      obtain ⟨cur, hproc, hp⟩ := hcur
      have hp' : ¬ r.InRange (r.env cur).priority := by rwa [ha.inRange h hproc]
      have hrp : r.proc = some cur := ha.proc.trans hproc
      obtain ⟨t, ht⟩ := yield_outside hrp (ha.settings.2.trans hm) hp'
      have hc := clockInterruptHandler_eq hr
      rw [hrp] at hc
      exact ⟨t, hc.trans ht⟩

theorem Effect.settings (he : Effect s admitted op t) :
    t.numOfReadyQueues = s.numOfReadyQueues ∧ t.schedulerMethod = s.schedulerMethod := by
  have hpicks : ∀ {r : Sched}, r.Picks t → r.numOfReadyQueues = s.numOfReadyQueues →
      r.schedulerMethod = s.schedulerMethod → t.numOfReadyQueues = s.numOfReadyQueues ∧
        t.schedulerMethod = s.schedulerMethod := by
    rintro r ht hn hm
    obtain ⟨hn', hm', -⟩ := ht.settings
    exact ⟨hn'.trans hn, hm'.trans hm⟩
  cases he with
  | runFirst h hp ht hs => exact hpicks ht rfl rfl
  | runAll hp hs ht =>
    obtain ⟨-, hn, hm, -⟩ := Sched.moveAll_settings (q := .new) (s.queues .new).reverse s
    exact hpicks ht hn hm
  | wakeAll hp =>
    obtain ⟨-, hn, hm, -⟩ := Sched.moveAll_settings (q := .chan _) (s.queues (.chan _)).reverse s
    exact ⟨hn, hm⟩
  | dispatch hproc ht => exact hpicks ht rfl rfl
  | yield hproc hp ht => exact hpicks ht rfl rfl
  | sleep hproc ht => exact hpicks ht rfl rfl
  | exit hproc ht => exact hpicks ht rfl rfl
  | killRunning hproc ht => exact hpicks ht rfl rfl
  | tickIdle ht hproc => exact ht.settings
  | tick hr hproc hp ht =>
    obtain ⟨hn, hm⟩ := hr.settings
    exact hpicks ht hn hm
  | create | newEnv | runNone | runOne | prompt | wakeNone | wakeOne | killNone | kill | setPriority | setReady =>
    exact ⟨rfl, rfl⟩

/-- A process is on the CPU only after the scheduler has started. -/
theorem Effect.stopped (h : s.Resting admitted) (hl : Legal s admitted op) (he : Effect s admitted op t)
    (hs : t.started = false) : t.proc = none := by
  have hrun : ∀ {cur : Nat} {r : Sched}, s.proc = some cur → r.Picks t → r.started = s.started → t.proc = none := by
    rintro cur r hproc ht hr
    have hst := ht.settings.2.2.2
    rw [hs, hr] at hst
    rw [h.stopped hst.symm] at hproc
    cases hproc
  have hbegun : ∀ {r : Sched}, r.begun.Picks t → t.proc = none := by
    rintro r ht
    have hst := ht.settings.2.2.2
    rw [hs] at hst
    cases hst
  cases he with
  | runFirst h hp ht hs => exact hbegun ht
  | runAll hp hs ht => exact hbegun ht
  | wakeAll hp =>
    obtain ⟨hp, -, -, -, hst⟩ := Sched.moveAll_settings (q := .chan _) (s.queues (.chan _)).reverse s
    rw [hst] at hs
    rw [hp]
    exact h.stopped hs
  | dispatch hproc ht =>
    have hst := ht.settings.2.2.2
    rw [hs, hl.2] at hst
    cases hst
  | yield hproc hp ht => exact hrun hproc ht rfl
  | sleep hproc ht => exact hrun hproc ht rfl
  | exit hproc ht => exact hrun hproc ht rfl
  | killRunning hproc ht => exact hrun hproc ht rfl
  | tickIdle ht hproc => exact ht.proc.trans hproc
  | tick hr hproc hp ht => exact hrun hproc ht hr.started
  | prompt hproc => rfl
  | create | newEnv | runNone | runOne | wakeNone | wakeOne | killNone | kill | setPriority | setReady =>
    exact h.stopped hs

/-- The environments that are admitted and not freed are those that have a place. -/
theorem survivors_eq {base all : Finset Nat} {cpu : Option Nat} (h : t.Ok cpu none all) (hsub : all ⊆ base)
    (hfree : ∀ e ∈ base, e ∉ all → (t.env e).status = .free) :
    (base.filter fun e => (t.env e).status ≠ EnvStatus.free) = all := by
  ext e
  rw [Finset.mem_filter]
  constructor
  · rintro ⟨he, hs⟩
    by_contra hn
    exact hs (hfree e he hn)
  · intro he
    refine ⟨hsub he, ?_⟩
    rcases h.placed.placed e he with hc | hc | ⟨q, hq⟩
    · rw [h.running e hc]
      simp
    · cases hc
    · rw [h.status q e hq]
      cases q <;> simp [QueueId.status]

/-- Every environment that is not freed is in its place after a call. -/
theorem Effect.ok (h : s.Resting admitted) (hl : Legal s admitted op) (he : Effect s admitted op t) :
    t.Ok t.proc none (survivors admitted op t) := by
  have hkeep : ∀ {base : Finset Nat}, t.Ok t.proc none base →
      t.Ok t.proc none (base.filter fun e => (t.env e).status ≠ EnvStatus.free) := by
    rintro base hok
    rw [survivors_eq hok (Finset.Subset.refl _) fun e he hn => absurd he hn]
    exact hok
  have hcur : ∀ {cur : Nat}, s.proc = some cur → s.Ok (some cur) none admitted := by
    rintro cur hproc
    rw [← hproc]
    exact h.ok
  cases he with
  | create =>
    exact hkeep (h.ok.prepare hl.1 (.inr rfl))
  | newEnv => exact hkeep (h.ok.admitted hl.1)
  | runNone | wakeNone | killNone => exact hkeep h.ok
  | runOne hq hp hs => exact hkeep (h.ok.moveReady hq hp)
  | wakeOne hq hp => exact hkeep (h.ok.moveReady (by rw [hq]; simp) hp)
  | wakeAll hp =>
    apply hkeep
    rw [(Sched.moveAll_settings _ _).1]
    exact h.ok.moveAll (by simp) (List.reverse_reverse _).symm (by simpa using hp)
  | runFirst hq hp ht hs =>
    have hok := h.ok.moveReady hq hp
    rw [h.stopped hs] at hok
    have hbegun : (s.moveReady .new _).begun.Ok none none admitted := hok.congr rfl rfl rfl
    exact hkeep (ht.ok hbegun rfl)
  | runAll hp hs ht =>
    have hok := h.ok.moveAll (q := .new) (by simp) (List.reverse_reverse _).symm (by simpa using hp)
    rw [h.stopped hs] at hok
    have hbegun : (s.moveAll .new (s.queues .new).reverse).begun.Ok none none admitted := hok.congr rfl rfl rfl
    exact hkeep (ht.ok hbegun rfl)
  | dispatch hproc ht =>
    have hok := h.ok
    rw [hproc] at hok
    exact hkeep (ht.ok hok hproc)
  | prompt hproc =>
    have hok := h.ok
    rw [hproc] at hok
    exact hkeep (hok.congr rfl rfl rfl)
  | yield hproc hp ht => exact hkeep (ht.ok ((hcur hproc).preempted hp) rfl)
  | sleep hproc ht => exact hkeep (ht.ok ((hcur hproc).blocked _) rfl)
  | exit hproc ht => exact hkeep (ht.ok (hcur hproc).exited rfl)
  | kill hq =>
    have hok := h.ok.killedFrom hq
    have hs := survivors_eq (t := s.killedFrom _ _) hok (Finset.erase_subset _ _) fun e he hn => by
      have heq : e = _ := by_contra fun hne => hn (Finset.mem_erase.2 ⟨hne, he⟩)
      rw [heq]
      simp [Sched.killedFrom]
    unfold survivors
    rw [hs]
    exact hok
  | killRunning hproc ht =>
    have hkill := (hcur hproc).killedRunning
    have hok := ht.ok hkill rfl
    have hs := survivors_eq hok (Finset.erase_subset _ _) fun e he hn => by
      have heq : e = _ := by_contra fun hne => hn (Finset.mem_erase.2 ⟨hne, he⟩)
      rw [heq, ht.env_off fun q hq => by simpa using hkill.placed.known q _ hq]
      simp [Sched.killedRunning]
    unfold survivors
    rw [hs]
    exact hok
  | setPriority hid hs => exact hkeep (h.ok.rewrite rfl fun hr => absurd hr hs)
  | setReady hid hs hp => exact hkeep (h.ok.reprioritised (h.ok.of_ready hs).1 hp)
  | tickIdle ht hproc => exact hkeep (ht.resting h).ok
  | tick hr hproc hp ht =>
    have hok := (hr.resting h).ok
    rw [hr.proc, hproc] at hok
    exact hkeep (ht.ok (hok.preempted ((hr.inRange h hproc).2 hp)) rfl)

theorem Effect.resting (h : s.Resting admitted) (hl : Legal s admitted op) (he : Effect s admitted op t) :
    t.Resting (survivors admitted op t) := by
  obtain ⟨hn, hm⟩ := he.settings
  exact ⟨he.ok h hl, by rw [hn]; exact h.levels, by rw [hn, hm]; exact h.single, he.stopped h hl⟩

end Effect

/-! ## Steps -/

section Step

variable {γ : Type} {update : Sched → Op → Sched → γ → γ} {s : Sched} {admitted : Finset Nat} {g : γ} {op : Op}
    {w : World γ}

/-- What holds along a run holds where it ends. -/
theorem always_execOps {P : World γ → Prop} :
    ∀ {ops : List Op} {s : Sched} {admitted : Finset Nat} {g : γ} {t : Sched} {g' : γ},
    Always (Step update) P (.at s admitted g) ops → execOps update ops s admitted g = some (t, g') →
      ∃ admitted', P (.at t admitted' g')
  | [], s, admitted, g, t, g', h, hx => by
    cases hx
    exact ⟨admitted, h⟩
  | op :: ops, s, admitted, g, t, g', h, hx => by
    unfold execOps at hx
    simp only [] at hx
    split at hx
    · next hlegal hc =>
      refine always_execOps (h.2 _ (.returns ?_ hc)) hx
      cases op with
      | create | newEnv | dispatch | sleep => simpa [Legal] using hlegal
      | prompt => cases hlegal
      | runEnv | runAll | yield | wakeupOne | wakeupAll | envExit | killEnv | setPriority | tick => trivial
    · cases hx

/-- A step with a call that fits. -/
theorem Step.fits (h : s.Resting admitted) (hf : Fits s op) (hs : Step update (.at s admitted g) op w) :
    ∃ t, w = .at t (survivors admitted op t) (update s op t g) ∧ Legal s admitted op ∧ Effect s admitted op t ∧
      t.Resting (survivors admitted op t) := by
  cases hs with
  | returns hl hc =>
    rcases code_effect h hl hf with ⟨r, hr, he⟩ | ⟨m, r, hr⟩
    · rw [hc] at hr
      cases hr
      exact ⟨_, rfl, hl, he, he.resting h hl⟩
    · rw [hc] at hr
      cases hr
  | loses hl hc =>
    rcases code_effect h hl hf with ⟨r, hr, he⟩ | ⟨m, r, hr⟩ <;> rw [hc] at hr <;> cases hr

/-- A step with a call that does not fit. -/
theorem Step.outside (h : s.Resting admitted) (hm : s.schedulerMethod = .prirr) (hf : ¬ Fits s op)
    (hs : Step update (.at s admitted g) op w) : w = .lost := by
  obtain ⟨r, hr⟩ := code_outside h hm hf
  cases hs with
  | returns hl hc =>
    rw [hc] at hr
    cases hr
  | loses hl hc => rfl

theorem Initial.resting (h : Initial s) : s.Resting ∅ := by
  have hok : ∀ {r : Sched}, r.queues = (fun _ => []) → r.env = (fun _ => {}) → r.Ok none none ∅ := by
    rintro r hq he
    refine ⟨by rw [hq]; exact placed_empty, ?_, by simp, ?_, ?_⟩
    · simp [hq]
    · simp [hq]
    · simp [he]
  cases h with
  | rr =>
    refine ⟨hok ?_ rfl, Nat.one_pos, fun _ => rfl, fun _ => rfl⟩
    funext q
    simp [schedInitRR, cleared]
  | prirr hn =>
    refine ⟨hok ?_ rfl, hn, fun hm => (by cases hm), fun _ => rfl⟩
    funext q
    cases q <;> rfl

/-- Two processes are READY in the first queue, 2 before 1. -/
def twoReady (s : Sched) : Sched := (s.insertedReady 2).insertedReady 1

theorem Initial.twoReady (h : Initial s) : (twoReady s).Resting {1, 2} := by
  have henv : ∀ f, s.env f = {} := by cases h <;> exact fun _ => rfl
  have hproc : s.proc = none := by cases h <;> rfl
  have hrest := h.resting
  have hzero : ∀ f, s.InRange (s.env f).priority := by
    intro f
    rw [henv f]
    exact ⟨le_rfl, Int.natCast_pos.2 hrest.levels⟩
  have hok := hrest.ok
  rw [hproc] at hok
  have hok₂ := (hok.enter (e := 2) (Finset.notMem_empty 2)).insertedReady (hzero 2)
  have hok₁ := (hok₂.enter (e := 1) (by decide)).insertedReady (by
    rw [insertedReady_env, if_neg (by decide)]
    exact hzero 1)
  exact ⟨by show Sched.Ok _ s.proc none _; rw [hproc]; exact hok₁, hrest.levels, hrest.single, fun _ => hproc⟩

end Step

end Fos.Cpu
