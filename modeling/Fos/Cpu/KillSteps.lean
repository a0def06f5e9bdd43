/-
The calls with the moments between them at which the queue lock is free. `sched_kill_env` takes its victim off its
queue, releases the lock and only then frees it; a process that kills itself is freed before the lock is taken again;
and `env_set_priority` looks at the status without it. In between the clock and the keyboard may interrupt, and other
processes run.
-/
import Fos.Cpu.PriorityRace

namespace Fos.Cpu

open Fos.Lib

/-! ## The parts of `sched_kill_env` -/

/-- Up to the release of the lock: whether the environment was on a queue, and has been taken off it. -/
def schedKillSearch (envId : Nat) : SM Bool := do
  let s ← get
  if envId ∈ s.queues .new then
    schedRemoveNew envId
    return true
  else if let some i := s.findReady envId then
    -- off its queue, with its status READY as before
    listRemove (.ready i) envId
    return true
  else if envId ∈ s.queues .exit then
    schedRemoveExit envId
    return true
  else return false

/-- An environment that was on no queue is freed if it is the running one. -/
def schedKillRunning (envId : Nat) : SM Bool := do
  let s ← get
  match s.proc with
  | none => throw (.panic "assertion failed: cur_env != NULL")
  | some cur =>
    if cur = envId then
      if (s.env cur).status ≠ .running then throw (.panic "assertion failed: ptr_env->env_status == ENV_RUNNING")
      envFree cur
      return true
    else return false

section Parts

variable {s : Sched} {envId : Nat}

theorem found_then {x y z : SM Unit} : (do
    if ← (do
      x
      return true : SM Bool) then y else z : SM Unit) s = (do
    x
    y : SM Unit) s := by
  simp only [bind, EStateM.bind]
  cases x s <;> rfl

/-- `sched_kill_env` is its parts, one after the other. -/
theorem schedKillEnv_parts (envId : Nat) (s : Sched) : schedKillEnv envId s = (do
    if ← schedKillSearch envId then envFree envId
    else if ← schedKillRunning envId then sched : SM Unit) s := by
  -- the search looks at the NEW queue, the ready queues and the EXIT queue, in this order
  have hsearch : ∀ {x : SM Bool} {f : Bool → SM Unit}, schedKillSearch envId s = x s →
      (schedKillSearch envId >>= f) s = (x >>= f) s := by
    intro x f hx
    simp only [bind, EStateM.bind, hx]
  unfold schedKillEnv
  rw [getS_bind]
  by_cases hnew : envId ∈ s.queues .new
  · rw [if_pos hnew, hsearch (x := do schedRemoveNew envId; return true) (by
      unfold schedKillSearch
      rw [getS_bind, if_pos hnew]), found_then]
  rw [if_neg hnew]
  cases hf : s.findReady envId with
  | some i =>
    rw [hsearch (x := do listRemove (.ready i) envId; return true) (by
      unfold schedKillSearch
      rw [getS_bind, if_neg hnew, hf]), found_then]
  | none =>
    by_cases hexit : envId ∈ s.queues .exit
    · simp only [if_pos hexit]
      rw [hsearch (x := do schedRemoveExit envId; return true) (by
        unfold schedKillSearch
        rw [getS_bind, if_neg hnew, hf]
        simp only [if_pos hexit]), found_then]
    · simp only [if_neg hexit]
      rw [hsearch (x := return false) (by
        unfold schedKillSearch
        rw [getS_bind, if_neg hnew, hf]
        simp only [if_neg hexit])]
      -- on none of them: the second part of the call
      show _ = (do if ← schedKillRunning envId then sched : SM Unit) s
      unfold schedKillRunning
      rw [bind_assoc, getS_bind]
      cases hproc : s.proc with
      | none => rfl
      | some cur =>
        by_cases hcur : cur = envId
        · simp only [if_pos hcur]
          split
          · rfl
          · rfl
        · simp only [if_neg hcur]
          rfl

/-- The environment is on one of the queues that the search goes through. -/
def Sched.Queued (s : Sched) (e : Nat) : Prop :=
  e ∈ s.queues .new ∨ (∃ i < s.numOfReadyQueues, e ∈ s.queues (.ready i)) ∨ e ∈ s.queues .exit

instance (s : Sched) (e : Nat) : Decidable (s.Queued e) := inferInstanceAs (Decidable (_ ∨ _ ∨ _))

theorem schedKillSearch_absent (h : ¬ s.Queued envId) : schedKillSearch envId s = .ok false s := by
  unfold Sched.Queued at h
  push Not at h
  have hf : s.findReady envId = none :=
    List.find?_eq_none.2 fun i hi => by simpa using h.2.1 i (List.mem_range.1 hi)
  unfold schedKillSearch
  rw [getS_bind, if_neg h.1, hf]
  simp only [if_neg h.2.2]
  rfl

/-- An environment that is found is nowhere afterwards. -/
theorem schedKillSearch_taken {t : Sched} {all : Finset Nat} {b : Bool} (h : s.Ok s.proc none all) (hq : s.Queued envId)
    (hcode : schedKillSearch envId s = .ok b t) : t.Ok s.proc (some envId) all ∧ t.proc = s.proc := by
  unfold schedKillSearch at hcode
  rw [getS_bind] at hcode
  by_cases hnew : envId ∈ s.queues .new
  · rw [if_pos hnew] at hcode
    obtain ⟨_, u, hrem, hret⟩ := ok_of_bind hcode
    rw [schedRemoveNew_eq h hnew] at hrem
    cases hrem
    cases hret
    exact ⟨(h.remove hnew).setEnv _, rfl⟩
  rw [if_neg hnew] at hcode
  rcases h.findReady (e := envId) with ⟨hf, hne⟩ | ⟨i, hf, hready, -⟩
  · rw [hf] at hcode
    have hexit : envId ∈ s.queues .exit := by
      rcases hq with hq | ⟨i, -, hq⟩ | hq
      · exact absurd hq hnew
      · exact absurd (h.status _ _ hq) hne
      · exact hq
    simp only [if_pos hexit] at hcode
    obtain ⟨_, u, hrem, hret⟩ := ok_of_bind hcode
    rw [schedRemoveExit_eq h hexit] at hrem
    cases hrem
    cases hret
    exact ⟨(h.remove hexit).setEnv _, rfl⟩
  · rw [hf] at hcode
    obtain ⟨_, u, hrem, hret⟩ := ok_of_bind hcode
    rw [listRemove_eq hready] at hrem
    cases hrem
    cases hret
    exact ⟨h.remove hready, rfl⟩

/-- The running process is freed, or nothing happens. -/
theorem schedKillRunning_ok {t : Sched} {b : Bool} (h : schedKillRunning envId s = .ok b t) :
    b = false ∧ t = s ∨ b = true ∧ s.proc = some envId ∧ t = s.setEnv envId {} := by
  unfold schedKillRunning at h
  rw [getS_bind] at h
  cases hproc : s.proc with
  | none =>
    rw [hproc] at h
    cases h
  | some cur =>
    rw [hproc] at h
    by_cases hcur : cur = envId
    · subst hcur
      simp only [if_true] at h
      split at h
      · obtain ⟨_, _, h, -⟩ := ok_of_bind h
        cases h
      · cases h
        exact .inr ⟨rfl, rfl, rfl⟩
    · simp only [if_neg hcur] at h
      cases h
      exact .inl ⟨rfl, rfl⟩

theorem schedKillRunning_safe {t : Sched} : schedKillRunning envId s ≠ .error .faults t := by
  intro h
  unfold schedKillRunning at h
  rw [getS_bind] at h
  cases hproc : s.proc with
  | none =>
    rw [hproc] at h
    cases h
  | some cur =>
    rw [hproc] at h
    by_cases hcur : cur = envId
    · simp only [if_pos hcur] at h
      split at h <;> cases h
    · simp only [if_neg hcur] at h
      cases h

end Parts

/-! ## Runs -/

/-- Where a call stands with the queue lock free: `env_set_priority` has looked at the status, `sched_kill_env` has
taken its victim off a queue, or has found it on none, or has freed the process that called it. -/
inductive Pause where
  | priority (c : PriorityCall)
  | taken (e : Nat)
  | missed (envId : Nat)
  | freed
  deriving DecidableEq, Repr

/-- The call goes on, to its next pause or its end. -/
def Pause.code : Pause → SM (Option Pause)
  | .priority c => do
    c.code
    return none
  | .taken e => do
    envFree e
    return none
  | .missed envId => do return if ← schedKillRunning envId then some .freed else none
  | .freed => do
    sched
    return none

/-- The calls without a pause. -/
def Op.whole : Op → Bool
  | .killEnv _ | .setPriority _ _ => false
  | _ => true

inductive PausedEvent where
  | op (op : Op)
  | examine (envId : Nat) (priority : Int)
  | search (envId : Nat)
  | go
  deriving DecidableEq, Repr

/-- A state with the queue lock free, and the pauses of the processes and, without one, of the command prompt. -/
inductive Paused where
  | at (s : Sched) (admitted : Finset Nat) (calls : Option Nat → Option Pause)
  | lost

/-- A new environment is in no call. -/
def pausesAfter (calls : Option Nat → Option Pause) : Op → Option Nat → Option Pause
  | .create e => Function.update calls (some e) none
  | _ => calls

/-- The environments that are admitted and not freed. -/
def unfreed (admitted : Finset Nat) (s : Sched) : Finset Nat :=
  admitted.filter fun e => (s.env e).status ≠ EnvStatus.free

/-- Who is on the CPU goes on with its call, unless it is interrupted. A panic ends the run. -/
inductive PausedStep : Paused → PausedEvent → Paused → Prop
  | op {s t : Sched} {admitted : Finset Nat} {calls : Option Nat → Option Pause} {o : Op} (hwhole : o.whole = true)
      (hfree : o.interrupts = true ∨ calls s.proc = none) (hlegal : Legal s admitted o) (hcode : o.code s = .ok () t) :
      PausedStep (.at s admitted calls) (.op o) (.at t (survivors admitted o t) (pausesAfter calls o))
  | opLost {s t : Sched} {admitted : Finset Nat} {calls : Option Nat → Option Pause} {o : Op} (hwhole : o.whole = true)
      (hfree : o.interrupts = true ∨ calls s.proc = none) (hlegal : Legal s admitted o)
      (hcode : o.code s = .error .faults t) : PausedStep (.at s admitted calls) (.op o) .lost
  | examine {s : Sched} {admitted : Finset Nat} {calls : Option Nat → Option Pause} {envId : Nat} {priority : Int}
      {c : PriorityCall} (hfree : calls s.proc = none) (hc : examine s envId priority = some c) :
      PausedStep (.at s admitted calls) (.examine envId priority)
        (.at s admitted (Function.update calls s.proc (some (.priority c))))
  | search {s t : Sched} {admitted : Finset Nat} {calls : Option Nat → Option Pause} {envId : Nat} {found : Bool}
      (hfree : calls s.proc = none) (hcode : schedKillSearch envId s = .ok found t) :
      PausedStep (.at s admitted calls) (.search envId)
        (.at t admitted (Function.update calls s.proc (some (if found then .taken envId else .missed envId))))
  | searchLost {s t : Sched} {admitted : Finset Nat} {calls : Option Nat → Option Pause} {envId : Nat}
      (hfree : calls s.proc = none) (hcode : schedKillSearch envId s = .error .faults t) :
      PausedStep (.at s admitted calls) (.search envId) .lost
  | go {s t : Sched} {admitted : Finset Nat} {calls : Option Nat → Option Pause} {c : Pause} {next : Option Pause}
      (hcall : calls s.proc = some c) (hcode : c.code s = .ok next t) :
      PausedStep (.at s admitted calls) .go (.at t (unfreed admitted t) (Function.update calls s.proc next))
  | goLost {s t : Sched} {admitted : Finset Nat} {calls : Option Nat → Option Pause} {c : Pause}
      (hcall : calls s.proc = some c) (hcode : c.code s = .error .faults t) :
      PausedStep (.at s admitted calls) .go .lost

/-- Every environment that is admitted and not freed is in one place. -/
def Paused.OnePlace : Paused → Prop
  | .at s admitted _ => ∀ e ∈ admitted, s.OnePlace e
  | .lost => False

/-- The priority given is in range, and no environment of level 0 has waited beyond the threshold at a tick. -/
def Paused.Proper : Paused → PausedEvent → Prop
  | .at s _ _, .op o => Cpu.Proper s o
  | .at s _ calls, .go => ∀ c, calls s.proc = some (.priority c) → s.InRange c.priority
  | _, _ => True

/-- The environment was READY when the call looked at it, or it is not, or it has the new priority already. -/
def PriorityCall.Current (c : PriorityCall) (s : Sched) : Prop :=
  c.ready = false → (s.env c.env).status = .ready → c.priority = (s.env c.env).priority

/-- The clock does not interrupt a process that has freed itself, and no priority is stored in an environment that has
become READY. -/
def Paused.Unraced : Paused → PausedEvent → Prop
  | .at s _ calls, .op .tick => calls s.proc ≠ some .freed
  | .at s _ calls, .go => ∀ c, calls s.proc = some (.priority c) → c.Current s
  | _, _ => True

/-- `sched_kill_env` takes nothing off a queue. -/
def Paused.Untaken : Paused → PausedEvent → Prop
  | .at s _ _, .search envId => ¬ s.Queued envId
  | _, _ => True

/-! ## One step -/

/-- A pause in which every environment is in its place. -/
def Pause.Resting : Pause → Prop
  | .priority _ | .missed _ => True
  | .taken _ | .freed => False

/-- The process on the CPU has freed itself. -/
structure Sched.Leaving (s : Sched) (admitted : Finset Nat) : Prop where
  ok : s.Ok none none admitted
  levels : 0 < s.numOfReadyQueues
  single : s.schedulerMethod = .rr → s.numOfReadyQueues = 1
  cur : ∃ cur, s.proc = some cur ∧ (s.env cur).status = .free
  started : s.started = true

/-- All priorities are levels, and every environment is in its place. -/
inductive Paused.Quiet : Paused → Prop
  | resting {s : Sched} {admitted : Finset Nat} {calls : Option Nat → Option Pause} (hr : s.Resting admitted)
      (hp : ∀ e, s.InRange (s.env e).priority) (hc : ∀ p c, calls p = some c → c.Resting) : Quiet (.at s admitted calls)
  | leaving {s : Sched} {admitted : Finset Nat} {calls : Option Nat → Option Pause} (hl : s.Leaving admitted)
      (hp : ∀ e, s.InRange (s.env e).priority) (hcur : calls s.proc = some .freed)
      (hc : ∀ p c, p ≠ s.proc → calls p = some c → c.Resting) : Quiet (.at s admitted calls)

section Steps

variable {s t : Sched} {admitted : Finset Nat} {calls : Option Nat → Option Pause} {w w' : Paused} {ev : PausedEvent}
    {o : Op}

/-- A process that has freed itself is not one of them. -/
theorem Sched.Leaving.not_admitted (h : s.Leaving admitted) {e : Nat} (he : e ∈ admitted) : s.proc ≠ some e := by
  intro hp
  obtain ⟨cur, hcur, hfree⟩ := h.cur
  obtain rfl : cur = e := Option.some.inj (hcur.symm.trans hp)
  rcases h.ok.placed.placed cur he with hc | hc | ⟨q, hq⟩
  · cases hc
  · cases hc
  · have := h.ok.status q cur hq
    rw [hfree] at this
    cases q <;> cases this

theorem Paused.Quiet.onePlace (h : w.Quiet) : w.OnePlace := by
  cases h with
  | resting hr hp hc => exact fun e he => hr.ok.onePlace he Iff.rfl
  | leaving hl hp hcur hc =>
    exact fun e he => hl.ok.onePlace he ⟨fun h => absurd h (hl.not_admitted he), fun h => by cases h⟩

/-- Whoever has a place is not freed. -/
theorem unfreed_eq {cpu : Option Nat} (h : t.Ok cpu none admitted) : unfreed admitted t = admitted :=
  survivors_eq h (Finset.Subset.refl _) fun _ he hn => absurd he hn

/-- A whole call between pauses. -/
theorem Paused.Quiet.op (hr : s.Resting admitted) (hp : ∀ e, s.InRange (s.env e).priority) (hpr : Cpu.Proper s o)
    (hlegal : Legal s admitted o) :
    (∀ {t}, o.code s = .ok () t → t.Resting (survivors admitted o t) ∧ ∀ e, t.InRange (t.env e).priority) ∧
      ∀ t, o.code s ≠ .error .faults t := by
  rcases code_effect hr hlegal (fits_of_leveled hp hpr) with ⟨u, hu, he⟩ | ⟨m, u, hu⟩
  · constructor
    · intro t ht
      rw [hu] at ht
      cases ht
      refine ⟨he.resting hr hlegal, fun e => ?_⟩
      unfold Sched.InRange
      rw [he.settings.1]
      exact he.priority hr hpr hp e
    · intro t ht
      rw [hu] at ht
      cases ht
  · refine ⟨?_, ?_⟩ <;> intro t ht <;> rw [hu] at ht <;> cases ht

theorem pausesAfter_resting (hc : ∀ p c, calls p = some c → c.Resting) (p : Option Nat) (c : Pause)
    (h : pausesAfter calls o p = some c) : c.Resting := by
  cases o with
  | create e =>
    have hmake : Function.update calls (some e) none p = some c := h
    rw [Function.update_apply] at hmake
    split at hmake
    · cases hmake
    · exact hc p c hmake
  | _ => exact hc p c h

theorem update_resting {k : Option Pause} (hc : ∀ p c, p ≠ s.proc → calls p = some c → c.Resting)
    (hk : ∀ c, k = some c → c.Resting) (p : Option Nat) (c : Pause)
    (h : Function.update calls s.proc k p = some c) : c.Resting := by
  rw [Function.update_apply] at h
  split at h
  · exact hk c h
  · next hp => exact hc p c hp h

/-- The second part of `env_set_priority`, which returns or panics. -/
theorem Paused.Quiet.goPriority {k : PriorityCall} {n : Option Pause} (hr : s.Resting admitted)
    (hp : ∀ e, s.InRange (s.env e).priority) (hc : ∀ p c, calls p = some c → c.Resting)
    (hin : s.InRange k.priority) (hcur : k.Current s) :
    ((Pause.priority k).code s = .ok n t →
      Quiet (.at t (unfreed admitted t) (Function.update calls s.proc n))) ∧
      (Pause.priority k).code s ≠ .error .faults t := by
  by_cases hsame : k.ready = true → (s.env k.env).status = .ready
  · have hU : k.Undisturbed s := by
      unfold PriorityCall.Undisturbed
      split
      · next hready => exact ⟨hsame hready, hin⟩
      · next hready => exact hcur (by simpa using hready)
    obtain ⟨u, hu, hrest, -⟩ := PriorityCall.code_undisturbed hr hU
    obtain ⟨hnum, hpr⟩ := PriorityCall.code_priority hr hU hu
    have hcode : (Pause.priority k).code s = .ok none u := by
      unfold Pause.code
      exact bind_of_ok hu
    rw [hcode]
    refine ⟨?_, nofun⟩
    rintro ⟨⟩
    rw [unfreed_eq hrest.ok]
    refine .resting hrest (fun e => ?_) (update_resting (fun p c _ => hc p c) (by simp))
    unfold Sched.InRange
    rw [hnum]
    rcases hpr e with he | he
    · rw [he]
      exact hp e
    · rw [he]
      exact hin
  · obtain ⟨hready, hs⟩ := Classical.not_imp.1 hsame
    obtain ⟨m, hm⟩ := PriorityCall.code_panics hready hs
    have hcode : (Pause.priority k).code s = .error (.panic m) s := by
      unfold Pause.code
      exact bind_of_error hm
    rw [hcode]
    exact ⟨nofun, nofun⟩

theorem goMissed_safe (envId : Nat) (s : Sched) : (Pause.missed envId).code s ≠ .error .faults t := by
  intro h
  cases hrun : schedKillRunning envId s with
  | ok b u =>
    rw [Pause.code, bind_of_ok hrun] at h
    cases h
  | error x u =>
    rw [Pause.code, bind_of_error hrun] at h
    cases h
    exact schedKillRunning_safe hrun

/-- A victim that was on no queue: nothing happens, unless it is the process on the CPU. -/
theorem Paused.Quiet.goMissed {envId : Nat} {next : Option Pause} (hr : s.Resting admitted)
    (hp : ∀ e, s.InRange (s.env e).priority) (hc : ∀ p c, calls p = some c → c.Resting)
    (hcode : (Pause.missed envId).code s = .ok next t) :
    Quiet (.at t (unfreed admitted t) (Function.update calls s.proc next)) := by
  unfold Pause.code at hcode
  obtain ⟨b, u, hrun, hret⟩ := ok_of_bind hcode
  rcases schedKillRunning_ok hrun with ⟨rfl, rfl⟩ | ⟨rfl, hproc, rfl⟩
  · cases hret
    rw [unfreed_eq hr.ok]
    exact .resting hr hp (update_resting (fun p c _ => hc p c) (by simp))
  · cases hret
    -- the caller is its own victim
    have hok : (s.setEnv envId {}).Ok none none (admitted.erase envId) := by
      have hrun := hr.ok
      rw [hproc] at hrun
      exact (hrun.leave.setEnv {}).release (by rw [Sched.setEnv_env, if_pos rfl])
    have hleft : unfreed admitted (s.setEnv envId {}) = admitted.erase envId := by
      apply survivors_eq hok (Finset.erase_subset _ _)
      intro e he hn
      obtain rfl : e = envId := by_contra fun hne => hn (Finset.mem_erase.2 ⟨hne, he⟩)
      rw [Sched.setEnv_env, if_pos rfl]
    rw [hleft]
    refine .leaving ⟨hok, hr.levels, hr.single, ⟨envId, hproc, ?_⟩, ?_⟩ (fun e => ?_) ?_ fun p c hne h => ?_
    · rw [Sched.setEnv_env, if_pos rfl]
    · show s.started = true
      by_contra hs
      have hnone := hr.stopped (Bool.not_eq_true _ ▸ hs)
      rw [hproc] at hnone
      cases hnone
    · rw [Sched.setEnv_env]
      split
      · exact ⟨le_rfl, Int.natCast_pos.2 hr.levels⟩
      · exact hp e
    · rw [Sched.setEnv_proc, Function.update_self]
      rfl
    · rw [Sched.setEnv_proc] at hne
      rw [Function.update_of_ne hne] at h
      exact hc p c h

/-- The process that freed itself gives the CPU to the next one. -/
theorem Paused.Quiet.goFreed {n : Option Pause} (hl : s.Leaving admitted) (hp : ∀ e, s.InRange (s.env e).priority)
    (hc : ∀ p c, p ≠ s.proc → calls p = some c → c.Resting) :
    (Pause.freed.code s = .ok n t → Quiet (.at t (unfreed admitted t) (Function.update calls s.proc n))) ∧
      Pause.freed.code s ≠ .error .faults t := by
  obtain ⟨cur, hproc, hfree⟩ := hl.cur
  obtain ⟨u, hu, hpick⟩ := schedule_picks (s := s.withProc none) hl.levels hl.single rfl
  have hcode : Pause.freed.code s = .ok none u := by
    unfold Pause.code
    exact bind_of_ok ((sched_leaving hproc (by simp [hfree]) (by simp [hfree])).trans hu)
  have hok : u.Ok u.proc none admitted := hpick.ok (s := s.withProc none) (hl.ok.congr rfl rfl rfl) rfl
  obtain ⟨hnum, hm, -, hst⟩ := hpick.settings
  rw [hcode]
  refine ⟨?_, nofun⟩
  rintro ⟨⟩
  rw [unfreed_eq hok]
  refine .resting ⟨hok, ?_, ?_, ?_⟩ (fun e => ?_) (update_resting hc (by simp))
  · rw [hnum]
    exact hl.levels
  · rw [hnum, hm]
    exact hl.single
  · intro hs
    rw [hst, Sched.withProc, hl.started] at hs
    cases hs
  · unfold Sched.InRange
    rw [hpick.priority, hnum]
    exact hp e

/-- While a process that has freed itself is on the CPU only the keyboard may interrupt it. -/
theorem Sched.Leaving.wakeupOne {c : Nat} (hl : s.Leaving admitted) (hp : ∀ e, s.InRange (s.env e).priority) :
    ∃ u, Cpu.wakeupOne c s = .ok () u ∧ u.Leaving admitted ∧ u.proc = s.proc ∧ ∀ e, u.InRange (u.env e).priority := by
  rcases queue_cases (s.queues (.chan c)) with hq | ⟨l, e, hq⟩
  · exact ⟨s, wakeupOne_nil hq, hl, rfl, hp⟩
  · have he : e ∈ s.queues (.chan c) := by
      rw [hq]
      simp
    refine ⟨_, wakeupOne_eq hl.ok hq (hp e), ⟨hl.ok.moveReady he (hp e), hl.levels, hl.single, ?_, hl.started⟩, rfl, ?_⟩
    · obtain ⟨cur, hproc, hfree⟩ := hl.cur
      refine ⟨cur, hproc, ?_⟩
      rw [Sched.moveReady_other, hfree]
      rintro rfl
      have hblocked := hl.ok.status _ _ he
      rw [hfree] at hblocked
      cases hblocked
    · intro f
      rw [Sched.moveReady_priority]
      exact hp f

/-- A step that meets the condition leaves every environment in its place. -/
theorem PausedStep.quiet (hs : PausedStep w ev w') (hI : w.Quiet) (hpr : w.Proper ev) (hh : w.Unraced ev)
    (hu : w.Untaken ev) : w'.Quiet := by
  cases hI with
  | @resting s admitted calls hr hp hc =>
    cases hs with
    | op hwhole hfree hlegal hcode =>
      obtain ⟨hrest, hp'⟩ := (Paused.Quiet.op hr hp hpr hlegal).1 hcode
      exact .resting hrest hp' (pausesAfter_resting hc)
    | opLost hwhole hfree hlegal hcode => exact absurd hcode ((Paused.Quiet.op hr hp hpr hlegal).2 _)
    | examine hfree hcall =>
      refine .resting hr hp (update_resting (fun p c _ => hc p c) ?_)
      rintro c ⟨⟩
      trivial
    | search hfree hcode =>
      rw [schedKillSearch_absent hu] at hcode
      cases hcode
      refine .resting hr hp (update_resting (fun p c _ => hc p c) ?_)
      rintro c ⟨⟩
      trivial
    | searchLost hfree hcode =>
      rw [schedKillSearch_absent hu] at hcode
      cases hcode
    | @go _ t _ _ c next hcall hcode =>
      have hrest := hc _ _ hcall
      cases c with
      | priority k => exact (Paused.Quiet.goPriority hr hp hc (hpr k hcall) (hh k hcall)).1 hcode
      | missed envId => exact Paused.Quiet.goMissed hr hp hc hcode
      | taken e => exact hrest.elim
      | freed => exact hrest.elim
    | @goLost _ t _ _ c hcall hcode =>
      have hrest := hc _ _ hcall
      cases c with
      | priority k => exact absurd hcode (Paused.Quiet.goPriority (n := none) hr hp hc (hpr k hcall) (hh k hcall)).2
      | missed envId => exact absurd hcode (goMissed_safe envId s)
      | taken e => exact hrest.elim
      | freed => exact hrest.elim
  -- the process has freed itself: a clock tick is excluded, and a wakeup from the keyboard does no harm
  | @leaving s admitted calls hl hp hcur hc =>
    cases hs with
    | @op _ t _ _ o hwhole hfree hlegal hcode =>
      rcases hfree with hint | hnone
      · cases o with
        -- the tick would put the freed process back into a ready queue
        | tick => exact absurd hcur hh
        | wakeupOne c =>
          obtain ⟨u, hu, hleav, hproc, hp'⟩ := hl.wakeupOne (c := c) hp
          obtain rfl : u = t := by
            have := hu.symm.trans hcode
            cases this
            rfl
          have hkept : survivors admitted (.wakeupOne c) u = admitted := unfreed_eq hleav.ok
          rw [hkept]
          refine .leaving hleav hp' ?_ fun p k hne h => hc p k (hproc ▸ hne) h
          rw [hproc]
          exact hcur
        | _ => cases hint
      · rw [hcur] at hnone
        cases hnone
    | @opLost _ t _ _ o hwhole hfree hlegal hcode =>
      rcases hfree with hint | hnone
      · cases o with
        | tick => exact absurd hcur hh
        | wakeupOne c =>
          obtain ⟨u, hu, -⟩ := hl.wakeupOne (c := c) hp
          have := hu.symm.trans hcode
          cases this
        | _ => cases hint
      · rw [hcur] at hnone
        cases hnone
    | examine hfree hcall =>
      rw [hcur] at hfree
      cases hfree
    | search hfree hcode =>
      rw [hcur] at hfree
      cases hfree
    | searchLost hfree hcode =>
      rw [hcur] at hfree
      cases hfree
    | go hcall hcode =>
      obtain rfl := Option.some.inj (hcur.symm.trans hcall)
      exact (Paused.Quiet.goFreed hl hp hc).1 hcode
    | goLost hcall hcode =>
      obtain rfl := Option.some.inj (hcur.symm.trans hcall)
      exact absurd hcode (Paused.Quiet.goFreed (n := none) hl hp hc).2

/-- An environment that `sched_kill_env` takes off a queue is nowhere, and is not freed yet. -/
theorem PausedStep.untaken (hs : PausedStep w ev w') (hI : w.Quiet) (hw : w'.OnePlace) : w.Untaken ev := by
  cases hs with
  | @search s t admitted calls envId found hfree hcode =>
    intro hq
    cases hI with
    | resting hr hp hc =>
      obtain ⟨hok, hproc⟩ := schedKillSearch_taken hr.ok hq hcode
      -- the victim is in the caller's hand: on no queue and not on the CPU
      obtain ⟨hcpu, hnowhere⟩ := hok.placed.handFree envId rfl
      obtain ⟨p, hp, -⟩ := (hw envId (hok.placed.handKnown envId rfl)).place
      cases p with
      | queue q => exact hnowhere q hp
      | cpu => exact hcpu (hproc.symm.trans hp)
    | leaving hl hp hcur hc =>
      rw [hcur] at hfree
      cases hfree
  | searchLost => exact hw.elim
  | op | opLost | examine | go | goLost => trivial

end Steps

/-! ## Every run -/

theorem Initial.quiet {s : Sched} (h : Initial s) : Paused.Quiet (.at s ∅ fun _ => none) := by
  refine .resting h.resting (fun e => ?_) (by simp)
  cases h with
  | rr => exact ⟨le_rfl, Int.one_pos⟩
  | prirr hn => exact ⟨le_rfl, Int.natCast_pos.2 hn⟩

/-- In a run without the races every environment that is admitted and not freed is in one place whenever the queue lock
is free, exactly if no `sched_kill_env` takes its victim off a queue. -/
theorem every_env_in_one_place {s : Sched} (hs : Initial s) (evs : List PausedEvent) :
    Always PausedStep Paused.OnePlace (.at s ∅ fun _ => none) evs ∧
        Each PausedStep (fun w ev => w.Proper ev ∧ w.Unraced ev) (.at s ∅ fun _ => none) evs ↔
      Each PausedStep (fun w ev => (w.Proper ev ∧ w.Unraced ev) ∧ w.Untaken ev) (.at s ∅ fun _ => none) evs :=
  always_each_iff (I := Paused.Quiet) (fun _ hw => hw.onePlace)
    (fun _ _ _ hI hC hR => ⟨hC.1, hR.quiet hI hC.1.1 hC.1.2 hC.2⟩) (fun _ _ _ hI hR hH hw => ⟨hH, hR.untaken hI hw⟩)
    hs.quiet

/-! ## Two runs -/

/-- The only state that a step can lead to. -/
def Paused.next : Paused → PausedEvent → Option Paused
  | .at s admitted calls, .op o =>
    match o.code s with
    | .ok _ t => some (.at t (survivors admitted o t) (pausesAfter calls o))
    | .error .faults _ => some .lost
    | _ => none
  | .at s admitted calls, .examine envId priority =>
    (Cpu.examine s envId priority).map fun c => .at s admitted (Function.update calls s.proc (some (.priority c)))
  | .at s admitted calls, .search envId =>
    match schedKillSearch envId s with
    | .ok found t =>
      some (.at t admitted (Function.update calls s.proc (some (if found then .taken envId else .missed envId))))
    | .error .faults _ => some .lost
    | _ => none
  | .at s admitted calls, .go =>
    match calls s.proc with
    | some c =>
      match c.code s with
      | .ok next t => some (.at t (unfreed admitted t) (Function.update calls s.proc next))
      | .error .faults _ => some .lost
      | _ => none
    | none => none
  | .lost, _ => none

theorem PausedStep.next {w w' : Paused} {ev : PausedEvent} (h : PausedStep w ev w') : w.next ev = some w' := by
  cases h with
  | op hwhole hfree hlegal hcode | opLost hwhole hfree hlegal hcode => simp only [Paused.next, hcode]
  | examine hfree hc => simp only [Paused.next, hc, Option.map_some]
  | search hfree hcode | searchLost hfree hcode => simp only [Paused.next, hcode]
  | go hcall hcode | goLost hcall hcode => simp only [Paused.next, hcall, hcode]

section Decidable

variable {o : Option Pause} {P : PriorityCall → Prop} [DecidablePred P]

instance decidablePriority : Decidable (∀ c, o = some (.priority c) → P c) :=
  match o with
  | some (.priority c) => decidable_of_iff (P c) (by simp)
  | some (.taken _) | some (.missed _) | some .freed | none => isTrue (by simp)

instance (s : Sched) : (op : Op) → Decidable (Cpu.Proper s op)
  | .setPriority _ priority => inferInstanceAs (Decidable (s.InRange priority))
  | .tick => inferInstanceAs (Decidable (s.schedulerMethod = .prirr → ∀ e ∈ s.queues (.ready 0), ¬ s.Starved e))
  | .create _ | .newEnv _ | .runEnv _ | .runAll | .dispatch | .prompt | .yield | .sleep _ | .wakeupOne _ | .wakeupAll _
  | .envExit | .killEnv _ => isTrue trivial

instance : (w : Paused) → (ev : PausedEvent) → Decidable (w.Proper ev)
  | .at s _ _, .op o => inferInstanceAs (Decidable (Cpu.Proper s o))
  | .at s _ calls, .go => inferInstanceAs (Decidable (∀ c, calls s.proc = some (.priority c) → s.InRange c.priority))
  | .at _ _ _, .examine _ _ | .at _ _ _, .search _ | .lost, _ => isTrue trivial

instance (s : Sched) (c : PriorityCall) : Decidable (c.Current s) := inferInstanceAs (Decidable (_ → _ → _))

instance : (w : Paused) → (ev : PausedEvent) → Decidable (w.Unraced ev)
  | .at s _ calls, .op .tick => inferInstanceAs (Decidable (calls s.proc ≠ some .freed))
  | .at s _ calls, .go => inferInstanceAs (Decidable (∀ c, calls s.proc = some (.priority c) → c.Current s))
  | .at _ _ _, .op (.create _) | .at _ _ _, .op (.newEnv _) | .at _ _ _, .op (.runEnv _) | .at _ _ _, .op .runAll
  | .at _ _ _, .op .dispatch | .at _ _ _, .op .prompt | .at _ _ _, .op .yield | .at _ _ _, .op (.sleep _)
  | .at _ _ _, .op (.wakeupOne _) | .at _ _ _, .op (.wakeupAll _) | .at _ _ _, .op .envExit
  | .at _ _ _, .op (.killEnv _) | .at _ _ _, .op (.setPriority _ _) | .at _ _ _, .examine _ _ | .at _ _ _, .search _
  | .lost, _ => isTrue trivial

instance : (w : Paused) → (ev : PausedEvent) → Decidable (w.Untaken ev)
  | .at s _ _, .search envId => inferInstanceAs (Decidable (¬ s.Queued envId))
  | .at _ _ _, .op _ | .at _ _ _, .examine _ _ | .at _ _ _, .go | .lost, _ => isTrue trivial

end Decidable

/-- Process 2 changes the priority of process 1, which sleeps and is woken; a tick comes before process 2 stores its own
new priority; process 1 kills itself. -/
theorem every_env_in_one_place_calls :
    Always PausedStep Paused.OnePlace (.at (schedInitPRIRR cleared 10 5) ∅ fun _ => none)
    [.op (.create 1), .op (.newEnv 1), .op (.create 2), .op (.newEnv 2), .op .runAll, .op (.sleep 0), .examine 1 3, .go,
      .op (.wakeupOne 0), .examine 2 4, .op .tick, .go, .op .yield, .search 1, .go, .go] :=
  ((every_env_in_one_place (.prirr (by decide) (by decide) (by decide)) _).2
    (Each.of_next (fun _ _ _ h => h.next) (by decide +kernel))).1

/-- Process 1 kills process 2, which is READY: after the search it is on no queue and not freed, and the lock is
free. -/
theorem taken_env_nowhere : ¬ ∀ s, Initial s → ∀ evs : List PausedEvent,
    Each PausedStep Paused.Proper (.at s ∅ fun _ => none) evs →
      Always PausedStep Paused.OnePlace (.at s ∅ fun _ => none) evs := by
  intro h
  have hrun := h (schedInitRR cleared) .rr
    [.op (.create 1), .op (.newEnv 1), .op (.create 2), .op (.newEnv 2), .op .runAll, .search 2]
    (Each.of_next (fun _ _ _ h => h.next) (by decide +kernel))
  have h1 := hrun.2 _ (.op rfl (.inr rfl) ⟨by simp, rfl⟩ rfl)
  have h2 := h1.2 _ (.op rfl (.inr rfl) ⟨by simp [survivors], rfl⟩ rfl)
  have h3 := h2.2 _ (.op rfl (.inr rfl) ⟨by decide, rfl⟩ rfl)
  have h4 := h3.2 _ (.op rfl (.inr rfl) ⟨by decide, rfl⟩ rfl)
  have h5 := h4.2 _ (.op rfl (.inr rfl) trivial rfl)
  have h6 := h5.2 _ (.search rfl rfl)
  have hone := h6 2 (by decide)
  obtain ⟨p, hp, -⟩ := hone.place
  cases p with
  | cpu => cases hp
  | queue q =>
    have hstatus := hone.agrees _ hp
    cases q with
    | new | exit | chan c => cases hstatus
    | ready i =>
      obtain ⟨h0, hlt⟩ := hone.real _ hp
      have hlt : i < 1 := hlt
      obtain rfl : i = 0 := by omega
      have hmem : 2 ∈ ([] : List Nat) := hp
      cases hmem

end Fos.Cpu
