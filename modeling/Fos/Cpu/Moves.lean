/-
What each call of the scheduler does to a state where every environment is in its place, as one
equation: the moves it makes, then the choice of the next process.
-/
import Fos.Cpu.Places

namespace Fos.Cpu

open Fos.Lib

/-! ## The moves -/

namespace Sched

/-- Only the `env_status` of the environment is written. -/
def mark (s : Sched) (e : Nat) (st : EnvStatus) : Sched := s.setEnv e { s.env e with status := st }

def withProc (s : Sched) (p : Option Nat) : Sched := { s with proc := p }

/-- From queue `q` to the ready queue of its priority. -/
def moveReady (s : Sched) (q : QueueId) (e : Nat) : Sched := (s.setQueue q ((s.queues q).erase e)).insertedReady e

/-- One after the other. -/
def moveAll (s : Sched) (q : QueueId) : List Nat → Sched
  | [] => s
  | e :: l => (s.moveReady q e).moveAll q l

/-- From the CPU to a queue, with a new record. -/
def leaveTo (s : Sched) (q : QueueId) (e : Nat) (x : Env) : Sched :=
  ((s.setEnv e x).setQueue q (e :: s.queues q)).withProc none

/-- The record of a process that gives up the CPU. Only the priority scheduler resets its wait. -/
def givenUp (s : Sched) (e : Nat) : Env :=
  { s.env e with
    status := .ready
    samawaitingTicks := if s.schedulerMethod = .prirr then 0 else (s.env e).samawaitingTicks }

def preempted (s : Sched) (e : Nat) : Sched := s.leaveTo (.ready (s.env e).priority) e (s.givenUp e)

def blocked (s : Sched) (c e : Nat) : Sched := s.leaveTo (.chan c) e { s.env e with status := .blocked }

def exited (s : Sched) (e : Nat) : Sched := s.leaveTo .exit e { s.env e with status := .exit }

def admitted (s : Sched) (e : Nat) : Sched :=
  (s.setEnv e { s.env e with status := .new }).setQueue .new (e :: s.queues .new)

/-- From a queue to nowhere. -/
def killedFrom (s : Sched) (q : QueueId) (e : Nat) : Sched := (s.setQueue q ((s.queues q).erase e)).setEnv e {}

def killedRunning (s : Sched) (e : Nat) : Sched := (s.setEnv e {}).withProc none

def reprioritised (s : Sched) (e : Nat) (priority : Int) : Sched :=
  ((s.setQueue (.ready (s.env e).priority) ((s.queues (.ready (s.env e).priority)).erase e)).setEnv e
    { s.env e with priority := priority, samawaitingTicks := 0 }).insertedReady e

/-- From the end of a ready queue to the CPU. -/
def dispatched (s : Sched) (i : Int) (l : List Nat) (e : Nat) : Sched :=
  ((s.setQueue (.ready i) l).withProc (some e)).setEnv e { s.env e with status := .running }

/-- The choice of the next process: the last one of the first ready queue that is not empty. -/
inductive Picks (s : Sched) : Sched → Prop
  | idle (hnone : ∀ i < s.numOfReadyQueues, s.queues (.ready i) = []) : Picks s s
  | runs {i : Nat} {l : List Nat} {e : Nat} (hi : i < s.numOfReadyQueues) (hl : s.queues (.ready i) = l ++ [e])
      (hfirst : ∀ j < i, s.queues (.ready j) = []) : Picks s (s.dispatched i l e)

/-- With the queue lock free, and the ready queues of the scheduling method. -/
structure Resting (s : Sched) (all : Finset Nat) : Prop where
  ok : s.Ok s.proc none all
  levels : 0 < s.numOfReadyQueues
  single : s.schedulerMethod = .rr → s.numOfReadyQueues = 1
  stopped : s.started = false → s.proc = none

section Fields

variable {s t : Sched} {e f : Nat} {q : QueueId} {i : Int} {l : List Nat} {x : Env} {p : Option Nat}

@[simp] theorem mark_self (st : EnvStatus) : (s.mark e st).env e = { s.env e with status := st } := by simp [mark]
@[simp] theorem mark_queues (st : EnvStatus) : (s.mark e st).queues = s.queues := rfl
@[simp] theorem mark_proc (st : EnvStatus) : (s.mark e st).proc = s.proc := rfl
@[simp] theorem moveReady_self : (s.moveReady q e).env e = { s.env e with status := .ready } := by simp [moveReady]
theorem moveReady_other (hf : f ≠ e) : (s.moveReady q e).env f = s.env f := by simp [moveReady, hf]
@[simp] theorem moveReady_priority : ((s.moveReady q e).env f).priority = (s.env f).priority := by
  by_cases hf : f = e
  · rw [hf, moveReady_self]
  · rw [moveReady_other hf]
@[simp] theorem moveReady_proc : (s.moveReady q e).proc = s.proc := rfl
@[simp] theorem moveReady_num : (s.moveReady q e).numOfReadyQueues = s.numOfReadyQueues := rfl
@[simp] theorem withProc_env : (s.withProc p).env = s.env := rfl
@[simp] theorem withProc_queues : (s.withProc p).queues = s.queues := rfl
@[simp] theorem withProc_proc : (s.withProc p).proc = p := rfl
@[simp] theorem withProc_num : (s.withProc p).numOfReadyQueues = s.numOfReadyQueues := rfl
@[simp] theorem leaveTo_env : (s.leaveTo q e x).env f = if f = e then x else s.env f := by simp [leaveTo]
@[simp] theorem leaveTo_queues (q' : QueueId) :
    (s.leaveTo q e x).queues q' = if q' = q then e :: s.queues q else s.queues q' := by simp [leaveTo]
@[simp] theorem leaveTo_proc : (s.leaveTo q e x).proc = none := rfl
@[simp] theorem leaveTo_num : (s.leaveTo q e x).numOfReadyQueues = s.numOfReadyQueues := rfl
@[simp] theorem dispatched_env :
    (s.dispatched i l e).env f = if f = e then { s.env e with status := .running } else s.env f := by simp [dispatched]
@[simp] theorem dispatched_queues (q : QueueId) :
    (s.dispatched i l e).queues q = if q = .ready i then l else s.queues q := by simp [dispatched]
@[simp] theorem dispatched_proc : (s.dispatched i l e).proc = some e := rfl
@[simp] theorem insertedReady_queues (q : QueueId) :
    (s.insertedReady e).queues q =
      if q = .ready (s.env e).priority then e :: s.queues (.ready (s.env e).priority) else s.queues q := by
  simp [insertedReady]

/-- What the moves leave alone. -/
theorem moveAll_settings : ∀ (l : List Nat) (s : Sched), (s.moveAll q l).proc = s.proc ∧
    (s.moveAll q l).numOfReadyQueues = s.numOfReadyQueues ∧ (s.moveAll q l).schedulerMethod = s.schedulerMethod ∧
    (s.moveAll q l).starvationThreshold = s.starvationThreshold ∧ (s.moveAll q l).started = s.started
  | [], _ => ⟨rfl, rfl, rfl, rfl, rfl⟩
  | e :: l, s => moveAll_settings l (s.moveReady q e)

theorem moveAll_other : ∀ {l : List Nat} {s : Sched}, f ∉ l → (s.moveAll q l).env f = s.env f
  | [], _, _ => rfl
  | e :: l, s, hf => by
    rw [List.mem_cons, not_or] at hf
    exact (moveAll_other hf.2).trans (moveReady_other hf.1)

theorem moveAll_mem : ∀ {l : List Nat} {s : Sched}, f ∈ l → (s.moveAll q l).env f = { s.env f with status := .ready }
  | e :: l, s, hf => by
    by_cases hl : f ∈ l
    · rw [moveAll, moveAll_mem hl]
      by_cases hfe : f = e
      · rw [hfe, moveReady_self]
      · rw [moveReady_other hfe]
    · have hfe : f = e := (List.mem_cons.1 hf).resolve_right hl
      rw [moveAll, moveAll_other hl, hfe, moveReady_self]

end Fields

end Sched

theorem modifyEnv_mark (s : Sched) (e : Nat) (st : EnvStatus) :
    modifyEnv e ({ · with status := st }) s = .ok () (s.mark e st) := rfl

/-! ## Places are kept -/

section Ok

variable {s t : Sched} {cpu : Option Nat} {all : Finset Nat} {e f : Nat} {q : QueueId}

theorem Sched.Ok.moveReady (h : s.Ok cpu none all) (he : e ∈ s.queues q) (hp : s.InRange (s.env e).priority) :
    (s.moveReady q e).Ok cpu none all :=
  (h.remove he).insertedReady hp

/-- What is left of a queue from which an environment was moved. -/
theorem Sched.Ok.moveReady_queue {l : List Nat} (h : s.Ok cpu none all) (hq : s.queues q = l ++ [e])
    (hr : ∀ i, q ≠ .ready i) : (s.moveReady q e).queues q = l := by
  have hnd := h.placed.nodup q
  rw [hq, List.nodup_append] at hnd
  have he : e ∉ l := fun hl => hnd.2.2 e hl e (by simp) rfl
  unfold Sched.moveReady
  rw [Sched.insertedReady_queues, if_neg (hr _), Sched.setQueue_queues, if_pos rfl, hq, List.erase_append_right _ he]
  simp

theorem Sched.moveReady_off {q' : QueueId} (hq : q' ≠ q) (hr : ∀ i, q' ≠ .ready i) :
    (s.moveReady q e).queues q' = s.queues q' := by
  unfold Sched.moveReady
  rw [Sched.insertedReady_queues, if_neg (hr _), Sched.setQueue_queues, if_neg hq]

theorem Sched.moveAll_off {q' : QueueId} (hq : q' ≠ q) (hr : ∀ i, q' ≠ .ready i) :
    ∀ {l : List Nat} {s : Sched}, (s.moveAll q l).queues q' = s.queues q'
  | [], _ => rfl
  | e :: l, s => (Sched.moveAll_off hq hr (l := l) (s := s.moveReady q e)).trans (Sched.moveReady_off hq hr)

/-- A queue from which all were moved is empty. -/
theorem Sched.Ok.moveAll_queue (hr : ∀ i, q ≠ .ready i) : ∀ {l : List Nat} {s : Sched}, s.Ok cpu none all →
    s.queues q = l.reverse → (∀ e ∈ l, s.InRange (s.env e).priority) → (s.moveAll q l).queues q = []
  | [], _, _, hq, _ => hq
  | e :: l, s, h, hq, hp => by
    rw [List.reverse_cons] at hq
    have he : e ∈ s.queues q := by rw [hq]; simp
    apply Sched.Ok.moveAll_queue hr (h.moveReady he (hp e List.mem_cons_self)) (h.moveReady_queue hq hr)
    rintro f hf
    rw [Sched.moveReady_priority]
    exact hp f (List.mem_cons_of_mem _ hf)

theorem Sched.Ok.moveAll (hr : ∀ i, q ≠ .ready i) : ∀ {l : List Nat} {s : Sched}, s.Ok cpu none all →
    s.queues q = l.reverse → (∀ e ∈ l, s.InRange (s.env e).priority) → (s.moveAll q l).Ok cpu none all
  | [], _, h, _, _ => h
  | e :: l, s, h, hq, hp => by
    rw [List.reverse_cons] at hq
    have he : e ∈ s.queues q := by rw [hq]; simp
    apply Sched.Ok.moveAll hr (h.moveReady he (hp e List.mem_cons_self)) (h.moveReady_queue hq hr)
    rintro f hf
    rw [Sched.moveReady_priority]
    exact hp f (List.mem_cons_of_mem _ hf)

theorem Sched.Ok.leaveTo {x : Env} (h : s.Ok (some e) none all) (hx : x.status = q.status)
    (hp : ∀ i, q = .ready i → x.priority = i ∧ s.InRange i) : (s.leaveTo q e x).Ok none none all := by
  have h' : ((s.setEnv e x).setQueue q (e :: s.queues q)).Ok none none all := by
    refine (h.leave.setEnv x).put (.refl _) ?_ ?_
    · rw [Sched.setEnv_env, if_pos rfl]
      exact hx
    · rw [Sched.setEnv_env, if_pos rfl]
      exact hp
  exact h'.congr rfl rfl rfl

theorem Sched.Ok.preempted (h : s.Ok (some e) none all) (hp : s.InRange (s.env e).priority) :
    (s.preempted e).Ok none none all := by
  apply h.leaveTo rfl
  rintro i hi
  cases hi
  exact ⟨rfl, hp⟩

theorem Sched.Ok.blocked (h : s.Ok (some e) none all) (c : Nat) : (s.blocked c e).Ok none none all :=
  h.leaveTo rfl (by rintro i hi; cases hi)

theorem Sched.Ok.exited (h : s.Ok (some e) none all) : (s.exited e).Ok none none all :=
  h.leaveTo rfl (by rintro i hi; cases hi)

theorem Sched.Ok.admitted (h : s.Ok cpu none all) (he : e ∉ all) : (s.admitted e).Ok cpu none (insert e all) := by
  refine ((h.enter he).setEnv { s.env e with status := .new }).put (.refl _) ?_ (by rintro i hi; cases hi)
  rw [Sched.setEnv_env, if_pos rfl]
  rfl

theorem Sched.Ok.killedFrom (h : s.Ok cpu none all) (he : e ∈ s.queues q) :
    (s.killedFrom q e).Ok cpu none (all.erase e) := by
  refine ((h.remove he).setEnv {}).release ?_
  rw [Sched.setEnv_env, if_pos rfl]

theorem Sched.Ok.killedRunning (h : s.Ok (some e) none all) : (s.killedRunning e).Ok none none (all.erase e) := by
  have h' : (s.setEnv e {}).Ok none none (all.erase e) := by
    refine (h.leave.setEnv {}).release ?_
    rw [Sched.setEnv_env, if_pos rfl]
  exact h'.congr rfl rfl rfl

theorem Sched.Ok.reprioritised {priority : Int} (h : s.Ok cpu none all) (he : e ∈ s.queues (.ready (s.env e).priority))
    (hp : s.InRange priority) : (s.reprioritised e priority).Ok cpu none all := by
  refine ((h.remove he).setEnv _).insertedReady ?_
  rw [Sched.setEnv_env, if_pos rfl]
  exact hp

/-- A record may change in all but its status and, on a ready queue, its priority. -/
theorem Sched.Ok.rewrite (h : s.Ok cpu none all) {x : Env} (hx : x.status = (s.env e).status)
    (hp : (s.env e).status = .ready → x.priority = (s.env e).priority) : (s.setEnv e x).Ok cpu none all := by
  have hst : ∀ f, ((s.setEnv e x).env f).status = (s.env f).status := by
    intro f
    rw [Sched.setEnv_env]
    split
    · next hf => rw [hf, hx]
    · rfl
  refine ⟨h.placed, fun q f hf => ?_, fun f hf => ?_, fun i f hf => ?_, fun f hf => ?_⟩
  · rw [hst]
    exact h.status q f hf
  · rw [hst]
    exact h.running f hf
  · rw [Sched.setEnv_env]
    split
    · next hfe =>
      subst hfe
      rw [hp (h.status _ f hf)]
      exact h.level i f hf
    · exact h.level i f hf
  · rw [hst]
    exact h.outside f hf

/-- The record of an environment that is not admitted. -/
theorem Sched.Ok.prepare (h : s.Ok cpu none all) (he : e ∉ all) {x : Env} (hx : x.status = .free ∨ x.status = .new) :
    (s.setEnv e x).Ok cpu none all := by
  have hne : ∀ {f}, f ∈ all → (s.setEnv e x).env f = s.env f := by
    rintro f hf
    have hfe : f ≠ e := fun hfe => he (hfe ▸ hf)
    rw [Sched.setEnv_env, if_neg hfe]
  refine ⟨h.placed, fun q f hf => ?_, fun f hf => ?_, fun i f hf => ?_, fun f hf => ?_⟩
  · rw [hne (h.placed.known q f hf)]
    exact h.status q f hf
  · rw [hne (h.placed.cpuKnown f hf)]
    exact h.running f hf
  · rw [hne (h.placed.known _ f hf)]
    exact h.level i f hf
  · rw [Sched.setEnv_env]
    split
    · exact hx
    · exact h.outside f hf

theorem Sched.Ok.dispatched {i : Int} {l : List Nat} (h : s.Ok none none all) (hl : s.queues (.ready i) = l ++ [e]) :
    (s.dispatched i l e).Ok (some e) none all := by
  refine Sched.Ok.congr (((h.dequeue hl).1.setEnv { s.env e with status := .running }).run ?_) rfl rfl rfl
  rw [Sched.setEnv_env, if_pos rfl]

theorem Sched.Picks.ok (h : s.Ok none none all) (hproc : s.proc = none) (ht : s.Picks t) : t.Ok t.proc none all := by
  cases ht with
  | idle => rw [hproc]; exact h
  | runs hi hl hfirst => exact h.dispatched hl

/-- The choice writes the record of the environment that it runs. -/
theorem Sched.Picks.env_of_waiting (ht : s.Picks t) (hr : (t.env f).status ≠ .running) : t.env f = s.env f := by
  cases ht with
  | idle => rfl
  | runs hi hl hfirst =>
    rw [Sched.dispatched_env] at hr ⊢
    split at hr
    · exact absurd rfl hr
    · next hne => rw [if_neg hne]

theorem Sched.Picks.env_off (ht : s.Picks t) (hf : ∀ q, f ∉ s.queues q) : t.env f = s.env f := by
  cases ht with
  | idle => rfl
  | runs hi hl hfirst =>
    rw [Sched.dispatched_env, if_neg]
    rintro rfl
    exact hf _ (by rw [hl]; simp)

theorem Sched.Picks.off (ht : s.Picks t) (hq : ∀ i, q ≠ .ready i) : t.queues q = s.queues q := by
  cases ht with
  | idle => rfl
  | runs hi hl hfirst => rw [Sched.dispatched_queues, if_neg (hq _)]

theorem Sched.Picks.priority (ht : s.Picks t) : (t.env f).priority = (s.env f).priority := by
  cases ht with
  | idle => rfl
  | runs hi hl hfirst =>
    rw [Sched.dispatched_env]
    split
    · next hf => rw [hf]
    · rfl

theorem Sched.Picks.settings (ht : s.Picks t) : t.numOfReadyQueues = s.numOfReadyQueues ∧
    t.schedulerMethod = s.schedulerMethod ∧ t.starvationThreshold = s.starvationThreshold ∧ t.started = s.started := by
  cases ht <;> exact ⟨rfl, rfl, rfl, rfl⟩

end Ok

end Fos.Cpu
