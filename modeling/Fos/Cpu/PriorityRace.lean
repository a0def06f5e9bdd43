/-
`env_set_priority` in two parts: it looks at the status of the environment before it takes the queue lock, and an
interrupt of the clock or of the keyboard may come between. On the CPU there is one process, which may be between its
two parts; others wait there for the CPU.
-/
import Fos.Cpu.Placement

namespace Fos.Cpu

open Fos.Lib

/-! ## The two parts of the call -/

/-- A call between its two parts: the environment it looked up, and whether it was READY. -/
structure PriorityCall where
  env : Nat
  ready : Bool
  priority : Int
  deriving DecidableEq, Repr

def examine (s : Sched) (envId : Nat) (priority : Int) : Option PriorityCall :=
  (envid2env s envId).map fun e => ⟨e, (s.env e).status = .ready, priority⟩

/-- The part with the lock, or the store without it. -/
def PriorityCall.code (c : PriorityCall) : SM Unit :=
  if c.ready then do
    schedRemoveReady c.env
    modifyEnv c.env ({ · with priority := c.priority, samawaitingTicks := 0 })
    schedInsertReady c.env
  else modifyEnv c.env ({ · with priority := c.priority })

theorem envSetPriority_parts {s : Sched} {envId : Nat} {priority : Int} {c : PriorityCall}
    (h : examine s envId priority = some c) : envSetPriority envId priority s = c.code s := by
  obtain ⟨e, he, rfl⟩ := Option.map_eq_some_iff.1 h
  unfold envSetPriority PriorityCall.code
  rw [getS_bind]
  simp only [he, decide_eq_true_eq]

/-! ## Runs -/

inductive CallEvent where
  | op (op : Op)
  | examine (envId : Nat) (priority : Int)
  | finish
  deriving DecidableEq, Repr

/-- A state of a run with the calls of the processes, or the end of one: the memory outside of the ready queues was
written, or the assertion of `sched_remove_ready` failed. -/
inductive CallWorld where
  | at (s : Sched) (admitted : Finset Nat) (calls : Nat → Option PriorityCall)
  | lost
  | asserted

/-- A new environment is in no call. -/
def callsAfter (calls : Nat → Option PriorityCall) : Op → Nat → Option PriorityCall
  | .create e => Function.update calls e none
  | _ => calls

/-- What an interrupt does: the clock's tick, and the keyboard's wakeup of a reader. -/
def Op.interrupts : Op → Bool
  | .tick | .wakeupOne _ => true
  | _ => false

/-- A process between the two parts of its call goes on with the second one, unless it is interrupted. -/
inductive CallStep : CallWorld → CallEvent → CallWorld → Prop
  | op {s t : Sched} {admitted : Finset Nat} {calls : Nat → Option PriorityCall} {o : Op}
      (hfree : o.interrupts = true ∨ ∀ p, s.proc = some p → calls p = none) (hlegal : Legal s admitted o)
      (hcode : o.code s = .ok () t) :
      CallStep (.at s admitted calls) (.op o) (.at t (survivors admitted o t) (callsAfter calls o))
  | opLost {s t : Sched} {admitted : Finset Nat} {calls : Nat → Option PriorityCall} {o : Op}
      (hfree : o.interrupts = true ∨ ∀ p, s.proc = some p → calls p = none) (hlegal : Legal s admitted o)
      (hcode : o.code s = .error .faults t) : CallStep (.at s admitted calls) (.op o) .lost
  | examine {s : Sched} {admitted : Finset Nat} {calls : Nat → Option PriorityCall} {p envId : Nat} {priority : Int}
      {c : PriorityCall} (hproc : s.proc = some p) (hfree : calls p = none) (hc : examine s envId priority = some c) :
      CallStep (.at s admitted calls) (.examine envId priority) (.at s admitted (Function.update calls p (some c)))
  | finish {s t : Sched} {admitted : Finset Nat} {calls : Nat → Option PriorityCall} {p : Nat} {c : PriorityCall}
      (hproc : s.proc = some p) (hc : calls p = some c) (hcode : c.code s = .ok () t) :
      CallStep (.at s admitted calls) .finish (.at t admitted (Function.update calls p none))
  | finishLost {s t : Sched} {admitted : Finset Nat} {calls : Nat → Option PriorityCall} {p : Nat} {c : PriorityCall}
      (hproc : s.proc = some p) (hc : calls p = some c) (hcode : c.code s = .error .faults t) :
      CallStep (.at s admitted calls) .finish .lost
  | finishAsserts {s t : Sched} {admitted : Finset Nat} {calls : Nat → Option PriorityCall} {p : Nat} {c : PriorityCall}
      {m : String} (hproc : s.proc = some p) (hc : calls p = some c) (hcode : c.code s = .error (.panic m) t) :
      CallStep (.at s admitted calls) .finish .asserted

/-- No assertion has failed, and what is in a ready queue is in that of its priority. -/
def CallWorld.Queued : CallWorld → Prop
  | .at s _ _ => ∀ i, ∀ e ∈ s.queues (.ready i), (s.env e).priority = i ∧ s.InRange i
  | .lost => False
  | .asserted => False

/-- A call that found its environment READY finds it READY again and has a ready queue for it, and one that did not
finds it not READY, or with the new priority already. -/
def PriorityCall.Undisturbed (c : PriorityCall) (s : Sched) : Prop :=
  if c.ready = true then (s.env c.env).status = .ready ∧ s.InRange c.priority
  else (s.env c.env).status = .ready → c.priority = (s.env c.env).priority

/-- The condition on a step. -/
def CallWorld.Undisturbed : CallWorld → CallEvent → Prop
  | .at s _ _, .op o => Fits s o
  | .at s _ calls, .finish => ∀ p c, s.proc = some p → calls p = some c → c.Undisturbed s
  | _, _ => True

/-- A resting state of the priority scheduler. -/
def CallWorld.Prirr : CallWorld → Prop
  | .at s admitted _ => s.Resting admitted ∧ s.schedulerMethod = .prirr
  | .lost => False
  | .asserted => False

/-! ## The second part -/

section Finish

variable {s t : Sched} {all : Finset Nat} {c : PriorityCall}

theorem PriorityCall.code_ready (hr : c.ready = true) : c.code s = (do
    schedRemoveReady c.env
    modifyEnv c.env ({ · with priority := c.priority, samawaitingTicks := 0 })
    schedInsertReady c.env : SM Unit) s := by
  unfold PriorityCall.code
  rw [if_pos hr]

theorem PriorityCall.code_other (hr : c.ready ≠ true) :
    c.code s = .ok () (s.setEnv c.env { s.env c.env with priority := c.priority }) := by
  unfold PriorityCall.code
  rw [if_neg hr]
  rfl

/-- A call that was not disturbed returns, and everything is in its place. -/
theorem PriorityCall.code_undisturbed (h : s.Resting all) (hc : c.Undisturbed s) :
    ∃ t, c.code s = .ok () t ∧ t.Resting all ∧ t.schedulerMethod = s.schedulerMethod := by
  unfold PriorityCall.Undisturbed at hc
  by_cases hr : c.ready = true
  · rw [if_pos hr] at hc
    refine ⟨_, (code_ready hr).trans (setReady_eq h.ok hc.1 hc.2), ⟨?_, h.levels, h.single, h.stopped⟩, rfl⟩
    exact h.ok.reprioritised (h.ok.of_ready hc.1).1 hc.2
  · rw [if_neg hr] at hc
    exact ⟨_, code_other hr, ⟨h.ok.rewrite rfl hc, h.levels, h.single, h.stopped⟩, rfl⟩

/-- A call that found its environment READY does not return unless it finds it READY again. -/
theorem PriorityCall.code_panics (hready : c.ready = true) (hs : (s.env c.env).status ≠ .ready) :
    ∃ m, c.code s = .error (.panic m) s := by
  have hrem : schedRemoveReady c.env s =
      .error (.panic "assertion failed: env != NULL && env->env_status == ENV_READY") s := by
    unfold schedRemoveReady
    rw [getS_bind, if_pos hs]
    rfl
  exact ⟨_, (code_ready hready).trans (bind_of_error hrem)⟩

/-- A call that returned and left its environment in its place was not disturbed. -/
theorem PriorityCall.undisturbed_of_code (h : s.Resting all) (hr : c.code s = .ok () t)
    (hq : ∀ i, ∀ e ∈ t.queues (.ready i), (t.env e).priority = i ∧ t.InRange i) : c.Undisturbed s := by
  unfold PriorityCall.Undisturbed
  by_cases hready : c.ready = true
  · rw [if_pos hready]
    have hs : (s.env c.env).status = .ready := by
      by_contra hs
      obtain ⟨m, hm⟩ := code_panics hready hs
      rw [hr] at hm
      cases hm
    rw [code_ready hready] at hr
    refine ⟨hs, ?_⟩
    by_contra hp
    obtain ⟨u, hu⟩ := setReady_outside h.ok hs hp
    rw [hr] at hu
    cases hu
  · rw [if_neg hready]
    rw [code_other hready] at hr
    cases hr
    intro hs
    have hpr := (hq (s.env c.env).priority c.env (h.ok.of_ready hs).1).1
    rw [Sched.setEnv_env, if_pos rfl] at hpr
    exact hpr

/-- The call stores its priority and no other, and leaves the settings alone. -/
theorem PriorityCall.code_priority (h : s.Resting all) (hc : c.Undisturbed s) (hr : c.code s = .ok () t) :
    t.numOfReadyQueues = s.numOfReadyQueues ∧
      ∀ f, (t.env f).priority = (s.env f).priority ∨ (t.env f).priority = c.priority := by
  unfold PriorityCall.Undisturbed at hc
  by_cases hready : c.ready = true
  · rw [if_pos hready] at hc
    rw [code_ready hready, setReady_eq h.ok hc.1 hc.2] at hr
    cases hr
    refine ⟨rfl, fun f => ?_⟩
    unfold Sched.reprioritised
    rw [insertedReady_env]
    split
    · rw [Sched.setEnv_env, if_pos rfl]
      exact .inr rfl
    · rw [Sched.setEnv_env]
      split
      · exact .inr rfl
      · exact .inl rfl
  · rw [code_other hready] at hr
    cases hr
    refine ⟨rfl, fun f => ?_⟩
    rw [Sched.setEnv_env]
    split
    · exact .inr rfl
    · exact .inl rfl

end Finish

/-! ## Every run -/

section Runs

variable {w w' : CallWorld} {ev : CallEvent}

theorem CallWorld.Prirr.queued (h : w.Prirr) : w.Queued := by
  cases w with
  | lost => exact h.elim
  | asserted => exact h.elim
  | «at» s admitted calls => exact fun i e he => h.1.ok.level i e he

/-- A step that meets the condition leaves everything in its place. -/
theorem CallStep.prirr (hs : CallStep w ev w') (hI : w.Prirr) (hc : w.Undisturbed ev) : w'.Prirr := by
  cases hs with
  | @op s t admitted calls o hfree hlegal hcode =>
    rcases code_effect hI.1 hlegal hc with ⟨u, hu, he⟩ | ⟨m, u, hu⟩
    · rw [hcode] at hu
      cases hu
      exact ⟨he.resting hI.1 hlegal, he.settings.2.trans hI.2⟩
    · rw [hcode] at hu
      cases hu
  | opLost hfree hlegal hcode =>
    rcases code_effect hI.1 hlegal hc with ⟨u, hu, -⟩ | ⟨m, u, hu⟩ <;> rw [hcode] at hu <;> cases hu
  | examine hproc hfree hcall => exact hI
  | finish hproc hcall hcode =>
    obtain ⟨u, hu, hrest, hm⟩ := PriorityCall.code_undisturbed hI.1 (hc _ _ hproc hcall)
    rw [hcode] at hu
    cases hu
    exact ⟨hrest, hm.trans hI.2⟩
  | finishLost hproc hcall hcode =>
    obtain ⟨u, hu, -⟩ := PriorityCall.code_undisturbed hI.1 (hc _ _ hproc hcall)
    rw [hcode] at hu
    cases hu
  | finishAsserts hproc hcall hcode =>
    obtain ⟨u, hu, -⟩ := PriorityCall.code_undisturbed hI.1 (hc _ _ hproc hcall)
    rw [hcode] at hu
    cases hu

/-- Any other step loses an environment or fails the assertion. -/
theorem CallStep.undisturbed (hs : CallStep w ev w') (hI : w.Prirr) (hq : w'.Queued) : w.Undisturbed ev := by
  cases hs with
  | @op s t admitted calls o hfree hlegal hcode =>
    by_contra hf
    obtain ⟨u, hu⟩ := code_outside hI.1 hI.2 hf
    rw [hcode] at hu
    cases hu
  | opLost => exact hq.elim
  | examine => trivial
  | finish hproc hcall hcode =>
    intro p c hp hc
    rw [hproc] at hp
    cases hp
    rw [hcall] at hc
    cases hc
    exact PriorityCall.undisturbed_of_code hI.1 hcode hq
  | finishLost => exact hq.elim
  | finishAsserts => exact hq.elim

/-- Whatever runs between the two parts of the calls, the assertion never fails and every environment of a ready queue
is in that of its priority, in exactly the runs whose calls are not disturbed and whose other steps insert only
environments that have a level. -/
theorem priority_calls_undisturbed_iff {n k : Nat} (hn : 0 < n) (hn' : n < 256) (hk : k < 4294967296)
    (evs : List CallEvent) :
    Always CallStep CallWorld.Queued (.at (schedInitPRIRR cleared n k) ∅ fun _ => none) evs ↔
      Each CallStep CallWorld.Undisturbed (.at (schedInitPRIRR cleared n k) ∅ fun _ => none) evs :=
  always_iff_each (I := CallWorld.Prirr) (fun _ hw => hw.queued) (fun _ _ _ hI hc hs => hs.prirr hI hc)
    (fun _ _ _ hI hs hq => hs.undisturbed hI hq) ⟨(Initial.prirr hn hn' hk).resting, rfl⟩

theorem priority_calls_undisturbed_iff_ten :
    Always CallStep CallWorld.Queued (.at (schedInitPRIRR cleared 10 5) ∅ fun _ => none)
        [.op (.create 1), .op (.newEnv 1), .op .runAll, .examine 1 3, .op .tick, .finish] ↔
      Each CallStep CallWorld.Undisturbed (.at (schedInitPRIRR cleared 10 5) ∅ fun _ => none)
        [.op (.create 1), .op (.newEnv 1), .op .runAll, .examine 1 3, .op .tick, .finish] :=
  priority_calls_undisturbed_iff (by decide) (by decide) (by decide) _

end Runs

/-! ## A disturbed call -/

/-- The next state, for the calls of `Legal` that can be decided. -/
def nextWorld (w : CallWorld) (ev : CallEvent) : Option CallWorld :=
  match w, ev with
  | .at s admitted calls, .op o =>
    let free : Bool := o.interrupts || (s.proc.bind calls).isNone
    let legal : Bool := match o with
      | .create e => e ∉ admitted ∧ (s.env e).status = .free
      | .newEnv e => e ∉ admitted ∧ (s.env e).status = .new
      | .dispatch => s.proc = none ∧ s.started = true
      | .prompt => false
      | .sleep _ => s.proc ≠ none
      | _ => true
    match free, legal, o.code s with
    | true, true, .ok _ t => some (.at t (survivors admitted o t) (callsAfter calls o))
    | _, _, _ => none
  | .at s admitted calls, .examine envId priority =>
    match s.proc with
    | some p =>
      match calls p, examine s envId priority with
      | none, some c => some (.at s admitted (Function.update calls p (some c)))
      | _, _ => none
    | none => none
  | .at s admitted calls, .finish =>
    match s.proc with
    | some p =>
      match calls p with
      | some c =>
        match c.code s with
        | .ok _ t => some (.at t admitted (Function.update calls p none))
        | .error .faults _ => some .lost
        | .error (.panic _) _ => some .asserted
        | _ => none
      | none => none
    | none => none
  | _, _ => none

theorem nextWorld_step {w w' : CallWorld} {ev : CallEvent} (h : nextWorld w ev = some w') : CallStep w ev w' := by
  unfold nextWorld at h
  split at h
  · rename_i s admitted calls o
    dsimp only at h
    split at h
    · rename_i hfree hlegal hcode
      cases h
      refine .op ?_ ?_ hcode
      · rcases Bool.or_eq_true_iff.1 hfree with ho | hnone
        · exact .inl ho
        · refine .inr fun p hp => ?_
          rw [hp] at hnone
          exact Option.isNone_iff_eq_none.1 hnone
      · cases o with
        | create | newEnv | dispatch | sleep => simpa [Legal] using hlegal
        | prompt => cases hlegal
        | runEnv | runAll | yield | wakeupOne | wakeupAll | envExit | killEnv | setPriority | tick => trivial
    · cases h
  · split at h
    · rename_i hproc
      split at h
      · rename_i hcalls hc
        cases h
        exact .examine hproc hcalls hc
      · cases h
    · cases h
  · split at h
    · rename_i hproc
      split at h
      · rename_i hcall
        split at h
        · rename_i hcode
          cases h
          exact .finish hproc hcall hcode
        · rename_i hcode
          cases h
          exact .finishLost hproc hcall hcode
        · rename_i hcode
          cases h
          exact .finishAsserts hproc hcall hcode
        · cases h
      · cases h
    · cases h
  · cases h

def CallWorld.isAsserted : CallWorld → Bool
  | .asserted => true
  | _ => false

/-- Process 1 finds process 2 READY. A tick gives the CPU to process 2, which goes to sleep, and process 1 goes on. -/
theorem ready_assertion_fails : ¬ ∀ (n k : Nat), 0 < n → n < 256 → k < 4294967296 → ∀ evs : List CallEvent,
    Always CallStep CallWorld.Queued (.at (schedInitPRIRR cleared n k) ∅ fun _ => none) evs := by
  intro h
  have hrun := h 10 5 (by decide) (by decide) (by decide)
    [.op (.create 1), .op (.newEnv 1), .op (.create 2), .op (.newEnv 2), .op .runAll, .examine 2 7, .op .tick,
      .op (.sleep 0), .finish]
  have hend : (List.foldlM nextWorld (.at (schedInitPRIRR cleared 10 5) ∅ fun _ => none)
      [.op (.create 1), .op (.newEnv 1), .op (.create 2), .op (.newEnv 2), .op .runAll, .examine 2 7, .op .tick,
        .op (.sleep 0), .finish]).any CallWorld.isAsserted = true := by decide +kernel
  obtain ⟨w, hw, hasserted⟩ := (Option.any_eq_true _ _).1 hend
  have hq := hrun.of_foldlM (fun _ _ _ => nextWorld_step) hw
  cases w with
  | «at» => cases hasserted
  | lost => cases hasserted
  | asserted => exact hq

end Fos.Cpu
