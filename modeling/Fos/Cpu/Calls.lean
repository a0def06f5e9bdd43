/-
The calls of the scheduler as moves: from a state where every environment is in its place, a call
makes the moves its name says, unless it inserts into a ready queue that does not exist.
-/
import Fos.Cpu.Moves

namespace Fos.Cpu

open Fos.Lib

/-! ## The choice of the next process -/

section Choice

variable {s r : Sched} {e cur : Nat} {all : Finset Nat}

theorem chooseNext_cases : ∀ {levels : List Nat}, levels.Pairwise (· < ·) →
    ((∀ i ∈ levels, s.queues (.ready i) = []) ∧ chooseNext levels s = .ok none s) ∨
      ∃ i ∈ levels, ∃ l e, s.queues (.ready i) = l ++ [e] ∧ (∀ j ∈ levels, j < i → s.queues (.ready j) = []) ∧
        chooseNext levels s = .ok (some e) (s.setQueue (.ready i) l)
  | [], _ => .inl ⟨by simp, rfl⟩
  | i :: levels, hs => by
    obtain ⟨hlt, hs⟩ := List.pairwise_cons.1 hs
    rcases queue_cases (s.queues (.ready i)) with hq | ⟨l, e, hq⟩
    · have hstep : chooseNext (i :: levels) s = chooseNext levels s := by
        rw [chooseNext, getS_bind, if_pos hq]
      rw [hstep]
      rcases chooseNext_cases hs with ⟨hnone, h⟩ | ⟨k, hk, l, e, hl, hfirst, h⟩
      · exact .inl ⟨List.forall_mem_cons.2 ⟨hq, hnone⟩, h⟩
      · exact .inr ⟨k, List.mem_cons_of_mem _ hk, l, e, hl, List.forall_mem_cons.2 ⟨fun _ => hq, hfirst⟩, h⟩
    · have hne : s.queues (.ready i) ≠ [] := by rw [hq]; simp
      have hstep : chooseNext (i :: levels) s = dequeue (.ready i) s := by
        rw [chooseNext, getS_bind, if_neg hne]
      refine .inr ⟨i, List.mem_cons_self, l, e, hq, ?_, hstep.trans (dequeue_concat hq)⟩
      rintro j hj hji
      rcases List.mem_cons.1 hj with rfl | hj
      · omega
      · have := hlt j hj
        omega

theorem schedule_some (h : schedNext s.schedulerMethod s = .ok (some e) r) :
    schedule s = .ok () ((r.withProc (some e)).setEnv e { r.env e with status := .running }) := by
  unfold schedule
  rw [getS_bind, bind_of_ok h]
  rfl

theorem schedule_none (h : schedNext s.schedulerMethod s = .ok none r) : schedule s = .ok () r := by
  unfold schedule
  rw [getS_bind, bind_of_ok h]
  rfl

theorem schedule_error {x : Halt} (h : schedNext s.schedulerMethod s = .error x r) : schedule s = .error x r := by
  unfold schedule
  rw [getS_bind, bind_of_error h]

theorem chooseNext_range : ((∀ i < s.numOfReadyQueues, s.queues (.ready i) = []) ∧
      chooseNext (List.range s.numOfReadyQueues) s = .ok none s) ∨
    ∃ i < s.numOfReadyQueues, ∃ l e, s.queues (.ready i) = l ++ [e] ∧ (∀ j < i, s.queues (.ready j) = []) ∧
      chooseNext (List.range s.numOfReadyQueues) s = .ok (some e) (s.setQueue (.ready i) l) := by
  rcases chooseNext_cases (s := s) (List.pairwise_lt_range (n := s.numOfReadyQueues)) with ⟨hn, h⟩ |
    ⟨i, hi, l, e, hl, hf, h⟩
  · exact .inl ⟨fun i hi => hn i (List.mem_range.2 hi), h⟩
  · have hi := List.mem_range.1 hi
    exact .inr ⟨i, hi, l, e, hl, fun j hj => hf j (List.mem_range.2 (hj.trans hi)) hj, h⟩

/-- The choice from a state with no process on the CPU, or with the last one back on its queue. -/
def choose : SM (Option Nat) := do
  match (← get).schedulerMethod with
  | .rr => dequeue (.ready 0)
  | .prirr => chooseNext (List.range (← get).numOfReadyQueues)

theorem choose_cases (h1 : 0 < s.numOfReadyQueues) (hrr : s.schedulerMethod = .rr → s.numOfReadyQueues = 1) :
    ((∀ i < s.numOfReadyQueues, s.queues (.ready i) = []) ∧ choose s = .ok none s) ∨
      ∃ i < s.numOfReadyQueues, ∃ l e, s.queues (.ready i) = l ++ [e] ∧ (∀ j < i, s.queues (.ready j) = []) ∧
        choose s = .ok (some e) (s.setQueue (.ready i) l) := by
  unfold choose
  rw [getS_bind]
  cases hm : s.schedulerMethod with
  | rr =>
    have hone := hrr hm
    rcases queue_cases (s.queues (.ready 0)) with hq | ⟨l, e, hq⟩
    · refine .inl ⟨fun i hi => ?_, dequeue_nil hq⟩
      have : i = 0 := by omega
      subst this
      exact hq
    · exact .inr ⟨0, h1, l, e, hq, by simp, dequeue_concat hq⟩
  | prirr =>
    simp only [getS_bind]
    exact chooseNext_range

theorem schedNext_of_none (hproc : s.proc = none) : schedNext s.schedulerMethod s = choose s := by
  unfold choose
  rw [getS_bind]
  cases s.schedulerMethod with
  | rr =>
    simp only [schedNext, fosSchedulerRR, getS_bind, hproc]
  | prirr =>
    simp only [schedNext, fosSchedulerPRIRR, getS_bind, hproc]

/-- With no process on the CPU. -/
theorem schedule_picks (h1 : 0 < s.numOfReadyQueues) (hrr : s.schedulerMethod = .rr → s.numOfReadyQueues = 1)
    (hproc : s.proc = none) : ∃ t, schedule s = .ok () t ∧ s.Picks t := by
  rcases choose_cases h1 hrr with ⟨hnone, h⟩ | ⟨i, hi, l, e, hl, hfirst, h⟩
  · exact ⟨s, schedule_none ((schedNext_of_none hproc).trans h), .idle hnone⟩
  · exact ⟨s.dispatched i l e, schedule_some ((schedNext_of_none hproc).trans h), .runs hi hl hfirst⟩

/-- The state in which the next process is chosen after `cur`. -/
def Sched.reinserted (s : Sched) (cur : Nat) : Sched := (s.preempted cur).withProc (some cur)

theorem fosSchedulerPRIRR_some (hproc : s.proc = some cur) (hm : s.schedulerMethod = .prirr)
    (hp : s.InRange (s.env cur).priority) :
    fosSchedulerPRIRR s = chooseNext (List.range s.numOfReadyQueues) (s.reinserted cur) := by
  have hi : schedInsertReady cur (s.mark cur .ready) = .ok () ((s.mark cur .ready).insertedReady cur) := by
    apply schedInsertReady_eq
    rw [Sched.mark_self]
    exact hp
  have hr : ((s.mark cur .ready).insertedReady cur).setEnv cur
      { ((s.mark cur .ready).insertedReady cur).env cur with samawaitingTicks := 0 } = s.reinserted cur := by
    unfold Sched.reinserted Sched.preempted Sched.leaveTo Sched.withProc Sched.givenUp Sched.mark
    simp [Sched.insertedReady, Sched.setQueue, Sched.setEnv, hm, hproc]
  unfold fosSchedulerPRIRR
  rw [getS_bind]
  simp only [hproc]
  rw [bind_of_ok (modifyEnv_mark s cur .ready), bind_of_ok hi, bind_of_ok (modifyEnv_eq cur _ _), hr, getS_bind]
  rfl

theorem fosSchedulerPRIRR_outside (hproc : s.proc = some cur) (hp : ¬ s.InRange (s.env cur).priority) :
    fosSchedulerPRIRR s = .error .faults ((s.mark cur .ready).mark cur .ready) := by
  have hp' : ¬ (s.mark cur .ready).InRange ((s.mark cur .ready).env cur).priority := by
    rw [Sched.mark_self]
    exact hp
  unfold fosSchedulerPRIRR
  rw [getS_bind]
  simp only [hproc]
  rw [bind_of_ok (modifyEnv_mark s cur .ready)]
  exact bind_of_error (schedInsertReady_outside hp')

theorem schedNext_of_some (hproc : s.proc = some cur) (hs : (s.env cur).status = .ready)
    (hrr : s.schedulerMethod = .rr → s.numOfReadyQueues = 1) (hp : s.InRange (s.env cur).priority) :
    schedNext s.schedulerMethod s = choose (s.reinserted cur) := by
  have hm' : (s.reinserted cur).schedulerMethod = s.schedulerMethod := rfl
  unfold choose
  rw [getS_bind, hm']
  cases hm : s.schedulerMethod with
  | rr =>
    have hone := hrr hm
    have hpr : (s.env cur).priority = 0 := by
      obtain ⟨h0, hn⟩ := hp
      omega
    have hq : s.Has (.ready 0) := by
      rw [hpr] at hp
      exact hp
    have hx : s.givenUp cur = s.env cur := by
      unfold Sched.givenUp
      rw [hm, ← hs]
      rfl
    have hr : s.setQueue (.ready 0) (cur :: s.queues (.ready 0)) = s.reinserted cur := by
      unfold Sched.reinserted Sched.preempted Sched.leaveTo Sched.withProc
      rw [hpr, hx, ← hproc]
      simp [Sched.setQueue, Sched.setEnv]
    simp only [schedNext, fosSchedulerRR, getS_bind, hproc]
    rw [bind_of_ok (enqueue_eq hq), hr]
  | prirr =>
    exact fosSchedulerPRIRR_some hproc hm hp

/-- After a process that gives up the CPU. There is a next one, if only the process itself. -/
theorem schedule_preempts (hproc : s.proc = some cur) (hs : (s.env cur).status = .ready)
    (hrr : s.schedulerMethod = .rr → s.numOfReadyQueues = 1) (hp : s.InRange (s.env cur).priority) :
    ∃ t, schedule s = .ok () t ∧ (s.preempted cur).Picks t := by
  have h1 : 0 < s.numOfReadyQueues := by
    obtain ⟨h0, hn⟩ := hp
    omega
  rcases choose_cases (s := s.reinserted cur) h1 hrr with ⟨hnone, -⟩ | ⟨i, hi, l, e, hl, hfirst, h⟩
  · have hlevel := hnone (s.env cur).priority.toNat (by
      obtain ⟨h0, hn⟩ := hp
      show _ < s.numOfReadyQueues
      omega)
    rw [Int.toNat_of_nonneg hp.1] at hlevel
    simp [Sched.reinserted, Sched.preempted] at hlevel
  · exact ⟨_, schedule_some ((schedNext_of_some hproc hs hrr hp).trans h), .runs hi hl hfirst⟩

theorem schedule_outside (hproc : s.proc = some cur) (hm : s.schedulerMethod = .prirr)
    (hp : ¬ s.InRange (s.env cur).priority) : ∃ t, schedule s = .error .faults t := by
  have hnext : schedNext s.schedulerMethod s = .error .faults ((s.mark cur .ready).mark cur .ready) := by
    rw [hm]
    exact fosSchedulerPRIRR_outside hproc hp
  exact ⟨_, schedule_error hnext⟩

end Choice

/-! ## Leaving the CPU -/

section Leaving

variable {s : Sched} {cur : Nat} {all : Finset Nat}

/-- `sched` by a process that has taken itself off the CPU and every ready queue. -/
theorem sched_leaving (hproc : s.proc = some cur) (hs : (s.env cur).status ≠ .running)
    (hs' : (s.env cur).status ≠ .ready) : sched s = schedule (s.withProc none) := by
  unfold sched
  rw [getS_bind]
  simp only [hproc, if_neg hs, if_pos hs']
  rfl

theorem sched_ready (hproc : s.proc = some cur) (hs : (s.env cur).status = .ready) : sched s = schedule s := by
  unfold sched
  rw [getS_bind]
  simp only [hproc, hs]
  rfl

theorem yield_eq (hproc : s.proc = some cur) : yield s = schedule (s.mark cur .ready) := by
  unfold yield
  rw [getS_bind]
  simp only [hproc]
  rw [bind_of_ok (modifyEnv_eq cur _ s)]
  exact sched_ready (s := s.mark cur .ready) hproc (by simp)

theorem yield_panics (hproc : s.proc = none) : ∃ m, yield s = .error (.panic m) s := by
  unfold yield
  rw [getS_bind]
  simp only [hproc]
  exact ⟨_, rfl⟩

theorem envExit_panics (hproc : s.proc = none) : ∃ m, envExit s = .error (.panic m) s := by
  unfold envExit
  rw [getS_bind]
  simp only [hproc]
  exact ⟨_, rfl⟩

theorem preempted_mark : (s.mark cur .ready).preempted cur = s.preempted cur := by
  unfold Sched.preempted Sched.givenUp Sched.leaveTo Sched.mark
  simp [Sched.setQueue, Sched.setEnv]

theorem yield_picks (hr : s.Resting all) (hproc : s.proc = some cur) (hp : s.InRange (s.env cur).priority) :
    ∃ t, yield s = .ok () t ∧ (s.preempted cur).Picks t := by
  rw [yield_eq hproc, ← preempted_mark]
  apply schedule_preempts (s := s.mark cur .ready) hproc
  · simp
  · exact hr.single
  · rw [Sched.mark_self]
    exact hp

theorem yield_outside (hproc : s.proc = some cur) (hm : s.schedulerMethod = .prirr)
    (hp : ¬ s.InRange (s.env cur).priority) : ∃ t, yield s = .error .faults t := by
  rw [yield_eq hproc]
  apply schedule_outside (s := s.mark cur .ready) hproc hm
  rw [Sched.mark_self]
  exact hp

theorem sleep_picks (hr : s.Resting all) (hproc : s.proc = some cur) (c : Nat) :
    ∃ t, sleep c s = .ok () t ∧ (s.blocked c cur).Picks t := by
  have hsleep : sleep c s = schedule (s.blocked c cur) := by
    unfold sleep
    rw [getS_bind]
    simp only [hproc]
    rw [bind_of_ok (modifyEnv_mark s cur .blocked),
      bind_of_ok (enqueue_eq (s := s.mark cur .blocked) (q := .chan c) trivial)]
    exact sched_leaving (s := (s.mark cur .blocked).setQueue (.chan c) (cur :: s.queues (.chan c))) hproc (by simp)
      (by simp)
  rw [hsleep]
  exact schedule_picks hr.levels hr.single rfl

/-- `sched_exit_env` of the process on the CPU, up to its `sched`. -/
theorem schedExitEnv_running (hr : s.Resting all) (hproc : s.proc = some cur) :
    schedExitEnv cur s = schedule (s.exited cur) := by
  have hfree := hr.ok.placed.cpuFree cur hproc
  have hfind : s.findReady cur = none := by
    rcases hr.ok.findReady (e := cur) with ⟨h, -⟩ | ⟨i, -, h, -⟩
    · exact h
    · exact absurd h (hfree _)
  have hinsert : schedInsertExit cur s = .ok () ((s.mark cur .exit).setQueue .exit (cur :: s.queues .exit)) := by
    unfold schedInsertExit
    rw [bind_of_ok (modifyEnv_mark s cur .exit), enqueue_eq (s := s.mark cur .exit) (q := .exit) trivial]
    rfl
  unfold schedExitEnv
  rw [getS_bind]
  simp only [hproc, if_neg (hfree .new), hfind]
  simp only [Option.isSome_none, or_true, if_true]
  rw [bind_of_ok hinsert]
  exact sched_leaving (s := (s.mark cur .exit).setQueue .exit (cur :: s.queues .exit)) hproc (by simp) (by simp)

theorem envExit_picks (hr : s.Resting all) (hproc : s.proc = some cur) :
    ∃ t, envExit s = .ok () t ∧ (s.exited cur).Picks t := by
  have hexit : envExit s = schedule (s.exited cur) := by
    unfold envExit
    rw [getS_bind]
    simp only [hproc]
    exact schedExitEnv_running hr hproc
  rw [hexit]
  exact schedule_picks hr.levels hr.single rfl

end Leaving

/-! ## Into the ready queues -/

section Arriving

variable {s : Sched} {e : Nat} {cpu : Option Nat} {all : Finset Nat} {q : QueueId} {l : List Nat}

/-- An environment taken off a queue goes to its ready queue. -/
theorem dequeue_insert (h : s.Ok cpu none all) (hq : s.queues q = l ++ [e]) (hp : s.InRange (s.env e).priority) :
    schedInsertReady e (s.setQueue q l) = .ok () (s.moveReady q e) := by
  have hnd := h.placed.nodup q
  rw [hq, List.nodup_append] at hnd
  have he : e ∉ l := fun hl => hnd.2.2 e hl e (by simp) rfl
  unfold Sched.moveReady
  rw [hq, List.erase_append_right _ he, List.erase_cons_head, List.append_nil]
  exact schedInsertReady_eq (s := s.setQueue q l) hp

/-- A f that takes environments off the end of a queue and makes them READY. -/
theorem loop_moveAll {f : Nat → SM Unit} (hr : ∀ i, q ≠ .ready i) (hzero : f 0 = pure ())
    (hstep : ∀ n s l e, s.Ok cpu none all → s.queues q = l ++ [e] → s.InRange (s.env e).priority →
      f (n + 1) s = f n (s.moveReady q e)) :
    ∀ {l : List Nat} {s : Sched}, s.Ok cpu none all → s.queues q = l.reverse →
      (∀ e ∈ l, s.InRange (s.env e).priority) → f l.length s = .ok () (s.moveAll q l)
  | [], _, _, _, _ => by
    rw [List.length_nil, hzero]
    rfl
  | e :: l, s, h, hq, hp => by
    rw [List.reverse_cons] at hq
    have he : e ∈ s.queues q := by rw [hq]; simp
    have hpe := hp e List.mem_cons_self
    rw [List.length_cons, hstep _ s _ e h hq hpe]
    apply loop_moveAll hr hzero hstep (h.moveReady he hpe) (h.moveReady_queue hq hr)
    rintro x hx
    rw [Sched.moveReady_priority]
    exact hp x (List.mem_cons_of_mem _ hx)

theorem loop_outside {f : Nat → SM Unit} (hr : ∀ i, q ≠ .ready i)
    (hstep : ∀ n s l e, s.Ok cpu none all → s.queues q = l ++ [e] → s.InRange (s.env e).priority →
      f (n + 1) s = f n (s.moveReady q e))
    (hfail : ∀ n s l e, s.queues q = l ++ [e] → ¬ s.InRange (s.env e).priority →
      ∃ t, f (n + 1) s = .error .faults t) :
    ∀ {l : List Nat} {s : Sched}, s.Ok cpu none all → s.queues q = l.reverse →
      (∃ e ∈ l, ¬ s.InRange (s.env e).priority) → ∃ t, f l.length s = .error .faults t
  | [], _, _, _, hp => by simp at hp
  | e :: l, s, h, hq, hp => by
    rw [List.reverse_cons] at hq
    have he : e ∈ s.queues q := by rw [hq]; simp
    rw [List.length_cons]
    by_cases hpe : s.InRange (s.env e).priority
    · rw [hstep _ s _ e h hq hpe]
      apply loop_outside hr hstep hfail (h.moveReady he hpe) (h.moveReady_queue hq hr)
      obtain ⟨x, hx, hpx⟩ := hp
      rcases List.mem_cons.1 hx with rfl | hx
      · exact absurd hpe hpx
      · exact ⟨x, hx, by rw [Sched.moveReady_priority]; exact hpx⟩
    · exact hfail _ s _ e hq hpe

theorem wakeupEach_step {c : Nat} (n : Nat) (s : Sched) (l : List Nat) (e : Nat) (h : s.Ok cpu none all)
    (hq : s.queues (.chan c) = l ++ [e]) (hp : s.InRange (s.env e).priority) :
    wakeupEach c (n + 1) s = wakeupEach c n (s.moveReady (.chan c) e) := by
  have hinsert : schedInsertReady e ((s.setQueue (.chan c) l).mark e .ready) = .ok () (s.moveReady (.chan c) e) := by
    rw [← dequeue_insert h hq hp, schedInsertReady_eq_enqueue, schedInsertReady_eq_enqueue]
    simp [Sched.mark, Sched.setEnv]
  rw [wakeupEach, bind_of_ok (dequeue_concat hq)]
  simp only []
  rw [bind_of_ok (modifyEnv_mark _ e .ready), bind_of_ok hinsert]

theorem wakeupEach_fail {c : Nat} (n : Nat) (s : Sched) (l : List Nat) (e : Nat)
    (hq : s.queues (.chan c) = l ++ [e]) (hp : ¬ s.InRange (s.env e).priority) :
    ∃ t, wakeupEach c (n + 1) s = .error .faults t := by
  have hp' : ¬ ((s.setQueue (.chan c) l).mark e .ready).InRange
      (((s.setQueue (.chan c) l).mark e .ready).env e).priority := by
    rw [Sched.mark_self]
    exact hp
  rw [wakeupEach, bind_of_ok (dequeue_concat hq)]
  simp only []
  rw [bind_of_ok (modifyEnv_mark _ e .ready), bind_of_error (schedInsertReady_outside hp')]
  exact ⟨_, rfl⟩

theorem runEach_step (n : Nat) (s : Sched) (l : List Nat) (e : Nat) (h : s.Ok cpu none all)
    (hq : s.queues .new = l ++ [e]) (hp : s.InRange (s.env e).priority) :
    runEach (n + 1) s = runEach n (s.moveReady .new e) := by
  rw [runEach, bind_of_ok (dequeue_concat hq)]
  simp only []
  rw [bind_of_ok (dequeue_insert h hq hp)]

theorem runEach_fail (n : Nat) (s : Sched) (l : List Nat) (e : Nat) (hq : s.queues .new = l ++ [e])
    (hp : ¬ s.InRange (s.env e).priority) : ∃ t, runEach (n + 1) s = .error .faults t := by
  rw [runEach, bind_of_ok (dequeue_concat hq)]
  simp only []
  rw [bind_of_error (schedInsertReady_outside (s := s.setQueue .new l) hp)]
  exact ⟨_, rfl⟩

theorem wakeupAll_eq {c : Nat} (h : s.Ok cpu none all) (hp : ∀ e ∈ s.queues (.chan c), s.InRange (s.env e).priority) :
    wakeupAll c s = .ok () (s.moveAll (.chan c) (s.queues (.chan c)).reverse) := by
  have hloop := loop_moveAll (f := wakeupEach c) (q := .chan c) (by simp) rfl wakeupEach_step h
    (List.reverse_reverse _).symm (by simpa using hp)
  rw [List.length_reverse] at hloop
  exact hloop

theorem wakeupAll_outside {c : Nat} (h : s.Ok cpu none all)
    (hp : ∃ e ∈ s.queues (.chan c), ¬ s.InRange (s.env e).priority) : ∃ t, wakeupAll c s = .error .faults t := by
  have hloop := loop_outside (f := wakeupEach c) (q := .chan c) (by simp) wakeupEach_step wakeupEach_fail h
    (List.reverse_reverse _).symm (by simpa using hp)
  rw [List.length_reverse] at hloop
  exact hloop

theorem wakeupOne_nil {c : Nat} (hq : s.queues (.chan c) = []) : wakeupOne c s = .ok () s := by
  unfold wakeupOne
  rw [bind_of_ok (dequeue_nil hq)]
  rfl

theorem wakeupOne_eq {c : Nat} (h : s.Ok cpu none all) (hq : s.queues (.chan c) = l ++ [e])
    (hp : s.InRange (s.env e).priority) : wakeupOne c s = .ok () (s.moveReady (.chan c) e) := by
  unfold wakeupOne
  rw [bind_of_ok (dequeue_concat hq)]
  exact dequeue_insert h hq hp

theorem wakeupOne_outside {c : Nat} (hq : s.queues (.chan c) = l ++ [e]) (hp : ¬ s.InRange (s.env e).priority) :
    ∃ t, wakeupOne c s = .error .faults t := by
  unfold wakeupOne
  rw [bind_of_ok (dequeue_concat hq)]
  exact ⟨_, schedInsertReady_outside (s := s.setQueue (.chan c) l) hp⟩

/-- The state in which `fos_scheduler` chooses the first process. -/
def Sched.begun (s : Sched) : Sched := { s with proc := none, started := true }

theorem runEach_eq (h : s.Ok cpu none all) (hp : ∀ e ∈ s.queues .new, s.InRange (s.env e).priority) :
    runEach (s.queues .new).length s = .ok () (s.moveAll .new (s.queues .new).reverse) := by
  have hloop := loop_moveAll (f := runEach) (q := .new) (by simp) rfl runEach_step h
    (List.reverse_reverse _).symm (by simpa using hp)
  rw [List.length_reverse] at hloop
  exact hloop

theorem schedRunAll_picks (h : s.Resting all) (hs : s.started = false)
    (hp : ∀ e ∈ s.queues .new, s.InRange (s.env e).priority) :
    ∃ t, schedRunAll s = .ok () t ∧ (s.moveAll .new (s.queues .new).reverse).begun.Picks t := by
  obtain ⟨-, hn, hm, -, hst⟩ := Sched.moveAll_settings (q := .new) (s.queues .new).reverse s
  have hall : schedRunAll s = schedule (s.moveAll .new (s.queues .new).reverse).begun := by
    unfold schedRunAll
    rw [getS_bind, bind_of_ok (runEach_eq h.ok hp), getS_bind, hst, hs]
    rfl
  rw [hall]
  refine schedule_picks ?_ ?_ rfl
  · show 0 < (s.moveAll .new _).numOfReadyQueues
    rw [hn]
    exact h.levels
  · show (s.moveAll .new _).schedulerMethod = .rr → (s.moveAll .new _).numOfReadyQueues = 1
    rw [hn, hm]
    exact h.single

theorem schedRunAll_panics (h : s.Resting all) (hs : s.started = true)
    (hp : ∀ e ∈ s.queues .new, s.InRange (s.env e).priority) : ∃ m t, schedRunAll s = .error (.panic m) t := by
  obtain ⟨-, -, -, -, hst⟩ := Sched.moveAll_settings (q := .new) (s.queues .new).reverse s
  unfold schedRunAll
  rw [getS_bind, bind_of_ok (runEach_eq h.ok hp), getS_bind, hst, hs]
  exact ⟨_, _, rfl⟩

theorem schedRunAll_outside (h : s.Resting all) (hp : ∃ e ∈ s.queues .new, ¬ s.InRange (s.env e).priority) :
    ∃ t, schedRunAll s = .error .faults t := by
  have hloop := loop_outside (f := runEach) (q := .new) (by simp) runEach_step runEach_fail h.ok
    (List.reverse_reverse _).symm (by simpa using hp)
  rw [List.length_reverse] at hloop
  obtain ⟨t, ht⟩ := hloop
  unfold schedRunAll
  rw [getS_bind, bind_of_error ht]
  exact ⟨t, rfl⟩

theorem schedRemoveNew_eq (h : s.Ok cpu none all) (he : e ∈ s.queues .new) :
    schedRemoveNew e s = .ok () ((s.setQueue .new ((s.queues .new).erase e)).mark e .unknown) := by
  have hs : (s.env e).status = .new := h.status .new e he
  unfold schedRemoveNew
  rw [getS_bind]
  simp only [hs, ne_eq, not_true_eq_false, if_false]
  rw [bind_of_ok (listRemove_eq he)]
  rfl

theorem schedRunEnv_absent (he : e ∉ s.queues .new) : schedRunEnv e s = .ok () s := by
  unfold schedRunEnv
  rw [getS_bind, if_neg he]
  rfl

theorem schedRunEnv_inserts (hp : s.InRange (s.env e).priority) :
    schedInsertReady e ((s.setQueue .new ((s.queues .new).erase e)).mark e .unknown) = .ok () (s.moveReady .new e) := by
  have hp' : ((s.setQueue .new ((s.queues .new).erase e)).mark e .unknown).InRange
      (((s.setQueue .new ((s.queues .new).erase e)).mark e .unknown).env e).priority := by
    rw [Sched.mark_self]
    exact hp
  rw [schedInsertReady_eq hp']
  simp [Sched.moveReady, Sched.insertedReady, Sched.mark, Sched.setEnv, Sched.setQueue]

theorem schedRunEnv_started (h : s.Ok cpu none all) (he : e ∈ s.queues .new) (hp : s.InRange (s.env e).priority)
    (hs : s.started = true) : schedRunEnv e s = .ok () (s.moveReady .new e) := by
  have hst : (s.moveReady .new e).started = true := hs
  unfold schedRunEnv
  rw [getS_bind, if_pos he, bind_of_ok (schedRemoveNew_eq h he), bind_of_ok (schedRunEnv_inserts hp), getS_bind, hst]
  rfl

theorem schedRunEnv_picks (h : s.Resting all) (he : e ∈ s.queues .new) (hp : s.InRange (s.env e).priority)
    (hs : s.started = false) : ∃ t, schedRunEnv e s = .ok () t ∧ (s.moveReady .new e).begun.Picks t := by
  have hst : (s.moveReady .new e).started = false := hs
  have hrun : schedRunEnv e s = schedule (s.moveReady .new e).begun := by
    unfold schedRunEnv
    rw [getS_bind, if_pos he, bind_of_ok (schedRemoveNew_eq h.ok he), bind_of_ok (schedRunEnv_inserts hp),
      getS_bind, hst]
    rfl
  rw [hrun]
  exact schedule_picks h.levels h.single rfl

theorem schedRunEnv_outside (h : s.Ok cpu none all) (he : e ∈ s.queues .new) (hp : ¬ s.InRange (s.env e).priority) :
    ∃ t, schedRunEnv e s = .error .faults t := by
  have hp' : ¬ ((s.setQueue .new ((s.queues .new).erase e)).mark e .unknown).InRange
      (((s.setQueue .new ((s.queues .new).erase e)).mark e .unknown).env e).priority := by
    rw [Sched.mark_self]
    exact hp
  unfold schedRunEnv
  rw [getS_bind, if_pos he, bind_of_ok (schedRemoveNew_eq h he), bind_of_error (schedInsertReady_outside hp')]
  exact ⟨_, rfl⟩

end Arriving

/-! ## Kills and priorities -/

section Records

variable {s : Sched} {e cur : Nat} {all : Finset Nat} {priority : Int}

theorem envFree_eq (e : Nat) (s : Sched) : envFree e s = .ok () (s.setEnv e {}) := rfl

/-! An environment is taken off its queue and freed. -/

theorem killNew_eq {cpu : Option Nat} (h : s.Ok cpu none all) (he : e ∈ s.queues .new) :
    (do
      schedRemoveNew e
      envFree e : SM Unit) s = .ok () (s.killedFrom .new e) := by
  rw [bind_of_ok (schedRemoveNew_eq h he)]
  simp [envFree, modifyEnv_eq, Sched.killedFrom, Sched.mark, Sched.setEnv]

theorem killReady_eq {i : Nat} (he : e ∈ s.queues (.ready i)) :
    (do
      listRemove (.ready i) e
      envFree e : SM Unit) s = .ok () (s.killedFrom (.ready i) e) := by
  rw [bind_of_ok (listRemove_eq he)]
  rfl

theorem schedRemoveExit_eq {cpu : Option Nat} (h : s.Ok cpu none all) (he : e ∈ s.queues .exit) :
    schedRemoveExit e s = .ok () ((s.setQueue .exit ((s.queues .exit).erase e)).mark e .unknown) := by
  have hs : (s.env e).status = .exit := h.status .exit e he
  unfold schedRemoveExit
  rw [getS_bind]
  simp only [hs, ne_eq, not_true_eq_false, if_false]
  rw [bind_of_ok (listRemove_eq he)]
  rfl

theorem killExit_eq {cpu : Option Nat} (h : s.Ok cpu none all) (he : e ∈ s.queues .exit) :
    (do
      schedRemoveExit e
      envFree e : SM Unit) s = .ok () (s.killedFrom .exit e) := by
  rw [bind_of_ok (schedRemoveExit_eq h he)]
  simp [envFree, modifyEnv_eq, Sched.killedFrom, Sched.mark, Sched.setEnv]

/-- What killing an environment leaves, with the choice of the next process when it is the running one. -/
theorem schedKillEnv_cases (h : s.Resting all) :
    (∃ q, q.status ≠ .blocked ∧ e ∈ s.queues q ∧ schedKillEnv e s = .ok () (s.killedFrom q e)) ∨
      (s.proc = some e ∧ ∃ t, schedKillEnv e s = .ok () t ∧ (s.killedRunning e).Picks t) ∨
      (s.proc ≠ some e ∧ (∀ q, q.status ≠ .blocked → e ∉ s.queues q) ∧
        ((∃ m, schedKillEnv e s = .error (.panic m) s) ∨ schedKillEnv e s = .ok () s)) := by
  unfold schedKillEnv
  rw [getS_bind]
  by_cases hnew : e ∈ s.queues .new
  · refine .inl ⟨.new, nofun, hnew, ?_⟩
    rw [if_pos hnew]
    exact killNew_eq h.ok hnew
  rw [if_neg hnew]
  rcases h.ok.findReady (e := e) with ⟨hf, hne⟩ | ⟨i, hf, hq, hst⟩
  swap
  · refine .inl ⟨.ready i, nofun, hq, ?_⟩
    simp only [hf]
    exact killReady_eq hq
  simp only [hf]
  by_cases hexit : e ∈ s.queues .exit
  · refine .inl ⟨.exit, nofun, hexit, ?_⟩
    rw [if_pos hexit]
    exact killExit_eq h.ok hexit
  rw [if_neg hexit]
  have hout : ∀ q, q.status ≠ .blocked → e ∉ s.queues q := by
    rintro (_ | i | _ | c) hq
    · exact hnew
    · exact fun he => hne (h.ok.status _ e he)
    · exact hexit
    · exact absurd rfl hq
  cases hproc : s.proc with
  | none => exact .inr (.inr ⟨by simp, hout, .inl ⟨_, rfl⟩⟩)
  | some cur =>
    by_cases hcur : cur = e
    · subst hcur
      have hs : (s.env cur).status = .running := h.ok.running cur hproc
      refine .inr (.inl ⟨rfl, ?_⟩)
      simp only [if_true, hs, ne_eq, not_true_eq_false, if_false]
      rw [bind_of_ok (envFree_eq cur s), sched_leaving (s := s.setEnv cur {}) hproc (by simp) (by simp)]
      exact schedule_picks h.levels h.single rfl
    · refine .inr (.inr ⟨by simpa using hcur, hout, .inr ?_⟩)
      simp only [if_neg hcur]
      rfl

theorem envSetPriority_bad (hid : envid2env s e = none) (priority : Int) :
    ∃ m, envSetPriority e priority s = .error (.panic m) s := by
  unfold envSetPriority
  rw [getS_bind]
  simp only [hid]
  exact ⟨_, rfl⟩

theorem envSetPriority_sets {envId : Nat} (hid : envid2env s envId = some e) (hs : (s.env e).status ≠ .ready) :
    envSetPriority envId priority s = .ok () (s.setEnv e { s.env e with priority := priority }) := by
  unfold envSetPriority
  rw [getS_bind]
  simp only [hid, if_neg hs]
  rfl

theorem schedRemoveReady_eq (h : s.Ok s.proc none all) (hs : (s.env e).status = .ready) :
    schedRemoveReady e s =
      .ok () ((s.setQueue (.ready (s.env e).priority) ((s.queues (.ready (s.env e).priority)).erase e)).mark e
        .unknown) := by
  rcases h.findReady (e := e) with ⟨-, hne⟩ | ⟨i, hf, hq, -⟩
  · exact absurd hs hne
  · unfold schedRemoveReady
    rw [getS_bind]
    simp only [hs, ne_eq, not_true_eq_false, if_false, hf]
    rw [(h.level i e hq).1, bind_of_ok (listRemove_eq hq)]
    rfl

/-- A READY environment is taken out with its old priority and inserted with the new one. -/
theorem setReady_eq (h : s.Ok s.proc none all) (hs : (s.env e).status = .ready) (hp : s.InRange priority) :
    (do
      schedRemoveReady e
      modifyEnv e ({ · with priority := priority, samawaitingTicks := 0 })
      schedInsertReady e : SM Unit) s = .ok () (s.reprioritised e priority) := by
  have hin : schedInsertReady e
      (((s.setQueue (.ready (s.env e).priority) ((s.queues (.ready (s.env e).priority)).erase e)).mark e
        .unknown).setEnv e { ((s.setQueue (.ready (s.env e).priority)
            ((s.queues (.ready (s.env e).priority)).erase e)).mark e .unknown).env e with
          priority := priority, samawaitingTicks := 0 }) = .ok () (s.reprioritised e priority) := by
    rw [schedInsertReady_eq (by rw [Sched.setEnv_env, if_pos rfl]; exact hp)]
    simp [Sched.reprioritised, Sched.insertedReady, Sched.mark, Sched.setEnv, Sched.setQueue]
  rw [bind_of_ok (schedRemoveReady_eq h hs), bind_of_ok (modifyEnv_eq e _ _)]
  exact hin

theorem setReady_outside (h : s.Ok s.proc none all) (hs : (s.env e).status = .ready) (hp : ¬ s.InRange priority) :
    ∃ t, (do
      schedRemoveReady e
      modifyEnv e ({ · with priority := priority, samawaitingTicks := 0 })
      schedInsertReady e : SM Unit) s = .error .faults t := by
  rw [bind_of_ok (schedRemoveReady_eq h hs), bind_of_ok (modifyEnv_eq e _ _)]
  refine ⟨_, schedInsertReady_outside ?_⟩
  rw [Sched.setEnv_env, if_pos rfl]
  exact hp

theorem envSetPriority_ready {envId : Nat} (h : s.Ok s.proc none all) (hid : envid2env s envId = some e)
    (hs : (s.env e).status = .ready) (hp : s.InRange priority) :
    envSetPriority envId priority s = .ok () (s.reprioritised e priority) := by
  unfold envSetPriority
  rw [getS_bind]
  simp only [hid, hs, if_true]
  exact setReady_eq h hs hp

theorem envSetPriority_outside {envId : Nat} (h : s.Ok s.proc none all) (hid : envid2env s envId = some e)
    (hs : (s.env e).status = .ready) (hp : ¬ s.InRange priority) :
    ∃ t, envSetPriority envId priority s = .error .faults t := by
  unfold envSetPriority
  rw [getS_bind]
  simp only [hid, hs, if_true]
  exact setReady_outside h hs hp

end Records

end Fos.Cpu
