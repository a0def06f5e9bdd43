/-
How long a READY process can wait for the CPU, whatever the other processes do. Under round robin it is
counted in dispatches, by its place in the ready queue; under the priority scheduler in ticks, by its
level and the starvation threshold: an environment that has risen to the first level and waits there
beyond the threshold makes the clock write outside of the array of ready queues.
-/
import Fos.Cpu.Fifo

namespace Fos.Cpu

open Fos.Lib

/-! ## What is counted -/

instance (s : Sched) : (op : Op) → Decidable (Dispatches s op)
  | .dispatch | .yield | .sleep _ | .envExit | .tick | .runAll => isTrue trivial
  | .runEnv _ => inferInstanceAs (Decidable (_ ∧ _))
  | .killEnv envId => inferInstanceAs (Decidable (s.proc = some envId))
  | .create _ | .newEnv _ | .prompt | .wakeupOne _ | .wakeupAll _ | .setPriority _ _ => isFalse id

/-- Since a process began to wait: the processes put on the CPU, the ticks, and whether it was put on the CPU itself. -/
structure Waited where
  dispatches : Nat := 0
  ticks : Nat := 0
  ran : Bool := false

def countWait (e : Nat) (s : Sched) (op : Op) (t : Sched) (g : Waited) : Waited where
  dispatches := g.dispatches + if Dispatches s op ∧ t.proc.isSome then 1 else 0
  ticks := g.ticks + if op = .tick then 1 else 0
  ran := g.ran || t.proc = some e

/-- The call neither kills the process nor gives it a priority. -/
def Op.Spares (e : Nat) : Op → Prop
  | .killEnv envId => envId ≠ e
  | .setPriority envId _ => envId ≠ e
  | _ => True

/-- How many are taken from the first ready queue before the environment. -/
def Sched.turn (s : Sched) (e : Nat) : Nat := (s.queues (.ready 0)).reverse.idxOf e

/-- The ticks that an environment can be READY from now on: it is promoted from each level at the second tick after its
wait has reached the threshold. -/
def Sched.ticksLeft (s : Sched) (e : Nat) : Nat :=
  (s.env e).priority.toNat * (s.starvationThreshold + 2) + (s.starvationThreshold + 1 - (s.env e).samawaitingTicks)

/-! ## The place in the ready queue -/

theorem idxOf_filter_le {α : Type*} [BEq α] [LawfulBEq α] {p : α → Bool} {a : α} (ha : p a = true) :
    ∀ l : List α, (l.filter p).idxOf a ≤ l.idxOf a
  | [] => le_rfl
  | b :: l => by
    have ih := idxOf_filter_le ha l
    rw [List.filter_cons, List.idxOf_cons]
    by_cases hb : b = a
    · rw [hb, if_pos ha, List.idxOf_cons_self]
      exact Nat.zero_le _
    · have hne : (b == a) = false := beq_eq_false_iff_ne.2 hb
      rw [hne, cond_false]
      split
      · rw [List.idxOf_cons, hne]
        exact Nat.succ_le_succ ih
      · exact ih.trans (Nat.le_succ _)

section Turn

variable {s r t : Sched} {e f : Nat} {q : QueueId} {admitted : Finset Nat} {op : Op}

theorem Sched.turn_congr (hq : t.queues (.ready 0) = s.queues (.ready 0)) : t.turn e = s.turn e := by
  unfold Sched.turn
  rw [hq]

/-- What arrives is behind. -/
theorem Sched.turn_arrive (he : e ∈ s.queues (.ready 0)) (hq : t.queues (.ready 0) = f :: s.queues (.ready 0)) :
    t.turn e = s.turn e := by
  unfold Sched.turn
  rw [hq, List.reverse_cons, List.idxOf_append_of_mem (List.mem_reverse.2 he)]

/-- The environment stays on the queue with its turn. -/
theorem Sched.turn_of_queue (he : e ∈ s.queues (.ready 0))
    (hq : t.queues (.ready 0) = f :: s.queues (.ready 0) ∨ t.queues (.ready 0) = s.queues (.ready 0)) :
    e ∈ t.queues (.ready 0) ∧ t.turn e = s.turn e := by
  rcases hq with hq | hq
  · refine ⟨?_, Sched.turn_arrive he hq⟩
    rw [hq]
    exact List.mem_cons_of_mem _ he
  · refine ⟨?_, Sched.turn_congr hq⟩
    rw [hq]
    exact he

/-- What leaves the queue was before or behind. -/
theorem Sched.turn_leave (hnd : (s.queues (.ready 0)).Nodup) (hfe : f ≠ e)
    (hq : t.queues (.ready 0) = (s.queues (.ready 0)).erase f) : t.turn e ≤ s.turn e := by
  unfold Sched.turn
  rw [hq, hnd.erase_eq_filter, ← List.filter_reverse]
  exact idxOf_filter_le (by simpa using hfe.symm) _

theorem Sched.moveReady_turn (hq : q ≠ .ready 0) (he : e ∈ s.queues (.ready 0)) :
    e ∈ (s.moveReady q f).queues (.ready 0) ∧ (s.moveReady q f).turn e = s.turn e := by
  have hqueue : (s.moveReady q f).queues (.ready 0) =
      if QueueId.ready 0 = .ready (s.env f).priority then f :: s.queues (.ready 0) else s.queues (.ready 0) := by
    unfold Sched.moveReady
    rw [Sched.insertedReady_queues]
    split
    · next hp =>
      rw [show (s.setQueue q ((s.queues q).erase f)).env = s.env from rfl] at hp ⊢
      rw [if_pos hp, ← hp, Sched.setQueue_queues, if_neg hq.symm]
    · next hp =>
      rw [show (s.setQueue q ((s.queues q).erase f)).env = s.env from rfl] at hp
      rw [if_neg hp, Sched.setQueue_queues, if_neg hq.symm]
  apply Sched.turn_of_queue he
  split at hqueue
  · exact .inl hqueue
  · exact .inr hqueue

theorem Sched.moveAll_turn (hq : q ≠ .ready 0) : ∀ {l : List Nat} {s : Sched}, e ∈ s.queues (.ready 0) →
    e ∈ (s.moveAll q l).queues (.ready 0) ∧ (s.moveAll q l).turn e = s.turn e
  | [], _, he => ⟨he, rfl⟩
  | f :: l, s, he => by
    obtain ⟨he', hturn⟩ := Sched.moveReady_turn (f := f) hq he
    obtain ⟨hmem, hrest⟩ := Sched.moveAll_turn hq (l := l) he'
    exact ⟨hmem, hrest.trans hturn⟩

theorem Sched.preempted_turn (he : e ∈ s.queues (.ready 0)) :
    e ∈ (s.preempted f).queues (.ready 0) ∧ (s.preempted f).turn e = s.turn e := by
  have hqueue : (s.preempted f).queues (.ready 0) =
      if QueueId.ready 0 = .ready (s.env f).priority then f :: s.queues (.ready (s.env f).priority)
      else s.queues (.ready 0) := Sched.leaveTo_queues _
  apply Sched.turn_of_queue he
  split at hqueue
  · next hp =>
    rw [← hp] at hqueue
    exact .inl hqueue
  · exact .inr hqueue

/-- Each choice takes the process or the one that is first before it. -/
theorem Sched.Picks.turn (ht : r.Picks t) (hn : r.numOfReadyQueues = 1) (he : e ∈ r.queues (.ready 0)) :
    t.proc = some e ∨ t.proc.isSome = true ∧ t.turn e + 1 = r.turn e := by
  cases ht with
  | idle hnone =>
    have hnil : r.queues (.ready 0) = [] := hnone 0 (by omega)
    rw [hnil] at he
    exact absurd he List.not_mem_nil
  | @runs i l f hi hl hfirst =>
    obtain rfl : i = 0 := by omega
    have hl' : r.queues (.ready 0) = l ++ [f] := hl
    by_cases hfe : f = e
    · exact .inl (congrArg some hfe)
    · right
      refine ⟨rfl, ?_⟩
      have hqueue : (r.dispatched (0 : Nat) l f).queues (.ready 0) = l := by
        rw [Sched.dispatched_queues]
        exact if_pos rfl
      unfold Sched.turn
      rw [hqueue, hl', List.reverse_append, List.reverse_singleton, List.singleton_append, List.idxOf_cons,
        show (f == e) = false from beq_eq_false_iff_ne.2 hfe, cond_false]

end Turn

/-! ## The process while it waits -/

section Waits

variable {s r t : Sched} {admitted : Finset Nat} {op : Op} {e f : Nat} {q : QueueId}

theorem Sched.Picks.waits (ht : r.Picks t) : t.proc = some e ∨ t.env e = r.env e := by
  cases ht with
  | idle => exact .inr rfl
  | @runs i l f hi hl hfirst =>
    by_cases hfe : e = f
    · exact .inl (congrArg some hfe.symm)
    · right
      rw [Sched.dispatched_env, if_neg hfe]

theorem Ages.env_ready (h : s.Resting admitted) (hs : (s.env e).status = .ready) (hr : Ages s admitted r) :
    r.env e = if s.schedulerMethod = .prirr then s.aged e else s.env e := by
  cases hr with
  | rr hm => rw [if_neg (by rw [hm]; exact SchedMethod.noConfusion)]
  | prirr hm hk => rw [if_pos hm, hk.aged h.ok hs]

/-- A READY process whose queue is not that of the call. -/
theorem Sched.Resting.apart (h : s.Resting admitted) (hs : (s.env e).status = .ready) (hq : ∀ i, q ≠ .ready i) :
    e ∉ s.queues q := fun he => hq _ (h.ok.placed.apart q _ e he (h.ok.of_ready hs).1)

theorem Sched.Resting.ne_running {cur : Nat} (h : s.Resting admitted) (hs : (s.env e).status = .ready)
    (hproc : s.proc = some cur) : e ≠ cur := by
  rintro rfl
  have hrun := h.ok.running e hproc
  rw [hs] at hrun
  cases hrun

/-- No other call can give a READY process a priority: the id 0 stands for the one on the CPU. -/
theorem Sched.Resting.ne_named {envId : Nat} (h : s.Resting admitted) (hs : (s.env e).status = .ready) (hid : envId ≠ e)
    (hf : envid2env s envId = some f) : e ≠ f := by
  rintro rfl
  unfold envid2env at hf
  split at hf
  · exact h.ne_running hs hf rfl
  · split at hf
    · cases hf
    · exact hid (Option.some.inj hf)

/-- A READY process is put on the CPU, or keeps its record apart from what a tick of the priority scheduler does. -/
theorem Effect.waits (h : s.Resting admitted) (hl : Legal s admitted op) (hs : (s.env e).status = .ready)
    (hsp : op.Spares e) (he : Effect s admitted op t) : t.proc = some e ∨
      t.env e = if op = .tick ∧ s.schedulerMethod = .prirr then s.aged e else s.env e := by
  have hmem := (h.ok.of_ready hs).1
  have hkeep : op ≠ .tick → t.env e = s.env e → t.proc = some e ∨
      t.env e = if op = .tick ∧ s.schedulerMethod = .prirr then s.aged e else s.env e := by
    intro hop heq
    rw [if_neg fun hc => hop hc.1]
    exact .inr heq
  have hpick : ∀ {r : Sched}, op ≠ .tick → r.Picks t → r.env e = s.env e → t.proc = some e ∨
      t.env e = if op = .tick ∧ s.schedulerMethod = .prirr then s.aged e else s.env e := fun hop ht heq =>
    ht.waits.elim .inl fun hw => hkeep hop (hw.trans heq)
  cases he with
  | @create f =>
    have hne : e ≠ f := fun hc => hl.1 (hc ▸ h.ok.placed.known _ e hmem)
    exact hkeep (by simp) (by rw [Sched.setEnv_env, if_neg hne])
  | @newEnv f =>
    have hne : e ≠ f := fun hc => hl.1 (hc ▸ h.ok.placed.known _ e hmem)
    exact hkeep (by simp) (by simp [Sched.admitted, hne])
  | runNone | wakeNone | killNone | prompt => exact hkeep (by simp) rfl
  | runOne hq =>
    exact hkeep (by simp) (Sched.moveReady_other fun hc => h.apart hs (q := .new) (by simp) (hc ▸ hq))
  | runFirst hq hp ht =>
    exact hpick (by simp) ht (Sched.moveReady_other fun hc => h.apart hs (q := .new) (by simp) (hc ▸ hq))
  | runAll hp hst ht =>
    exact hpick (by simp) ht (Sched.moveAll_other fun hc => h.apart hs (q := .new) (by simp) (List.mem_reverse.1 hc))
  | dispatch hproc ht => exact hpick (by simp) ht rfl
  | yield hproc hp ht =>
    exact hpick (by simp) ht (by rw [Sched.preempted, Sched.leaveTo_env, if_neg (h.ne_running hs hproc)])
  | sleep hproc ht =>
    exact hpick (by simp) ht (by rw [Sched.blocked, Sched.leaveTo_env, if_neg (h.ne_running hs hproc)])
  | exit hproc ht =>
    exact hpick (by simp) ht (by rw [Sched.exited, Sched.leaveTo_env, if_neg (h.ne_running hs hproc)])
  | @wakeOne c f l hq =>
    refine hkeep (by simp) (Sched.moveReady_other fun hc => h.apart hs (q := .chan c) (by simp) ?_)
    rw [hq, hc]
    exact List.mem_append_right _ (List.mem_singleton_self f)
  | @wakeAll c =>
    exact hkeep (by simp) (Sched.moveAll_other fun hc => h.apart hs (q := .chan c) (by simp) (List.mem_reverse.1 hc))
  | kill hq => exact hkeep (by simp) (by simp [Sched.killedFrom, Ne.symm hsp])
  | killRunning hproc ht => exact hpick (by simp) ht (by simp [Sched.killedRunning, Ne.symm hsp])
  | @setPriority envId f priority hid hst =>
    have hne : e ≠ f := fun hc => hst (hc ▸ hs)
    exact hkeep (by simp) (by rw [Sched.setEnv_env, if_neg hne])
  | @setReady envId f priority hid hst =>
    exact hkeep (by simp) (by simp [Sched.reprioritised, h.ne_named hs hsp hid])
  | tickIdle ht =>
    right
    rw [ht.env_ready h hs]
    simp
  | tick hr hproc hp ht =>
    apply ht.waits.imp_right
    intro hw
    rw [hw, Sched.preempted, Sched.leaveTo_env, if_neg (h.ne_running hs hproc), hr.env_ready h hs]
    simp

/-- With one ready queue each process that is put on the CPU was before it there. -/
theorem Effect.turn (h : s.Resting admitted) (hm : s.schedulerMethod = .rr) (hs : (s.env e).status = .ready)
    (hsp : op.Spares e) (he : Effect s admitted op t) : t.proc = some e ∨
      t.turn e + (if Dispatches s op ∧ t.proc.isSome then 1 else 0) ≤ s.turn e := by
  obtain ⟨hmem, h0, hlt⟩ := h.ok.of_ready hs
  have hn : s.numOfReadyQueues = 1 := h.single hm
  rw [show (s.env e).priority = 0 by omega] at hmem
  have hnd := h.ok.placed.nodup (.ready 0)
  have hkeep : ¬ (Dispatches s op ∧ t.proc.isSome = true) → t.turn e ≤ s.turn e → t.proc = some e ∨
      t.turn e + (if Dispatches s op ∧ t.proc.isSome then 1 else 0) ≤ s.turn e := by
    intro hd hle
    rw [if_neg hd]
    exact .inr hle
  have hpick : ∀ {r : Sched}, r.Picks t → r.numOfReadyQueues = 1 → e ∈ r.queues (.ready 0) ∧ r.turn e = s.turn e →
      t.proc = some e ∨ t.turn e + (if Dispatches s op ∧ t.proc.isSome then 1 else 0) ≤ s.turn e := by
    rintro r ht hr ⟨hin, hturn⟩
    refine (ht.turn hr hin).imp_right fun hlast => ?_
    have := hlast.2
    split <;> omega
  cases he with
  | create => exact hkeep (fun hd => hd.1) (Sched.turn_congr rfl).le
  | newEnv => exact hkeep (fun hd => hd.1) (Sched.turn_congr (by simp [Sched.admitted])).le
  | runNone hq => exact hkeep (fun hd => hq hd.1.1) le_rfl
  | runOne hq hp hst =>
    refine hkeep (fun hd => ?_) (Sched.moveReady_turn (q := .new) (by simp) hmem).2.le
    have hstopped := hd.1.2
    rw [hst] at hstopped
    cases hstopped
  | runFirst hq hp ht => exact hpick ht hn (Sched.moveReady_turn (q := .new) (by simp) hmem)
  | runAll hp hst ht =>
    refine hpick ht ?_ (Sched.moveAll_turn (q := .new) (by simp) hmem)
    exact (Sched.moveAll_settings (q := .new) _ s).2.1.trans hn
  | dispatch hproc ht => exact hpick ht hn ⟨hmem, rfl⟩
  | prompt => exact hkeep (fun hd => hd.1) (Sched.turn_congr rfl).le
  | yield hproc hp ht => exact hpick ht hn (Sched.preempted_turn hmem)
  | @sleep cur c t hproc ht =>
    have hqueue : (s.blocked c cur).queues (.ready 0) = s.queues (.ready 0) := by simp [Sched.blocked]
    exact hpick ht hn ⟨by rw [hqueue]; exact hmem, Sched.turn_congr hqueue⟩
  | wakeNone => exact hkeep (fun hd => hd.1) le_rfl
  | @wakeOne c => exact hkeep (fun hd => hd.1) (Sched.moveReady_turn (q := .chan c) (by simp) hmem).2.le
  | @wakeAll c => exact hkeep (fun hd => hd.1) (Sched.moveAll_turn (q := .chan c) (by simp) hmem).2.le
  | @exit cur t hproc ht =>
    have hqueue : (s.exited cur).queues (.ready 0) = s.queues (.ready 0) := by simp [Sched.exited]
    exact hpick ht hn ⟨by rw [hqueue]; exact hmem, Sched.turn_congr hqueue⟩
  | killNone hproc => exact hkeep (fun hd => hproc hd.1) le_rfl
  | @kill envId q hq =>
    apply hkeep (fun hd => h.ok.placed.cpuFree _ hd.1 _ hq)
    have hqueue : (s.killedFrom q envId).queues (.ready 0) =
        if QueueId.ready 0 = q then (s.queues q).erase envId else s.queues (.ready 0) := by simp [Sched.killedFrom]
    split at hqueue
    · next h0 =>
      subst h0
      exact Sched.turn_leave hnd hsp hqueue
    · exact (Sched.turn_congr hqueue).le
  | killRunning hproc ht => exact hpick ht hn ⟨hmem, Sched.turn_congr rfl⟩
  | setPriority => exact hkeep (fun hd => hd.1) (Sched.turn_congr rfl).le
  | @setReady envId f priority hid hst hp =>
    have hne : f ≠ e := (h.ne_named hs hsp hid).symm
    have hf : (s.env f).priority = 0 := by
      obtain ⟨-, h0, hlt⟩ := h.ok.of_ready hst
      omega
    have h0 : priority = 0 := by
      obtain ⟨h0, hlt⟩ := hp
      omega
    -- it goes to the head of the queue, behind all
    let r := s.setQueue (.ready 0) ((s.queues (.ready 0)).erase f)
    have hin : e ∈ r.queues (.ready 0) := by
      rw [Sched.setQueue_queues, if_pos rfl]
      exact (List.mem_erase_of_ne hne.symm).2 hmem
    have hqueue : (s.reprioritised f priority).queues (.ready 0) = f :: r.queues (.ready 0) := by
      simp [Sched.reprioritised, hf, h0, r]
    apply hkeep (fun hd => hd.1)
    rw [Sched.turn_arrive hin hqueue]
    exact Sched.turn_leave hnd hne (by rw [Sched.setQueue_queues, if_pos rfl])
  | tickIdle ht hproc =>
    refine hkeep (fun hd => ?_) (Sched.turn_congr ?_).le
    · rw [ht.proc, hproc] at hd
      exact absurd hd.2 Bool.false_ne_true
    · cases ht with
      | rr => rfl
      | prirr hm' => rw [hm] at hm'; cases hm'
  | tick hr hproc hp ht =>
    cases hr with
    | rr => exact hpick ht hn (Sched.preempted_turn hmem)
    | prirr hm' => rw [hm] at hm'; cases hm'

theorem Effect.threshold (he : Effect s admitted op t) : t.starvationThreshold = s.starvationThreshold := by
  have hpicks : ∀ {r : Sched}, r.Picks t → r.starvationThreshold = s.starvationThreshold →
      t.starvationThreshold = s.starvationThreshold := fun ht hr => ht.settings.2.2.1.trans hr
  have hages : ∀ {r : Sched}, Ages s admitted r → r.starvationThreshold = s.starvationThreshold := fun hr => by
    cases hr with
    | rr hm => rfl
    | prirr hm hk => exact hk.settings.2.2.2.1
  cases he with
  | runFirst hq hp ht | dispatch hproc ht | sleep hproc ht | exit hproc ht | killRunning hproc ht => exact hpicks ht rfl
  | yield hproc hp ht => exact hpicks ht rfl
  | runAll hp hst ht => exact hpicks ht (Sched.moveAll_settings (q := .new) _ s).2.2.2.1
  | @wakeAll c => exact (Sched.moveAll_settings (q := .chan c) _ s).2.2.2.1
  | tickIdle ht => exact hages ht
  | tick hr hproc hp ht =>
    have hr := hages hr
    exact hpicks ht hr
  | create | newEnv | runNone | runOne | prompt | wakeNone | wakeOne | killNone | kill | setPriority | setReady => rfl

/-- A tick takes one from what is left, if the wait does not wrap and the process can rise from its level. -/
theorem Sched.Resting.ticksLeft_aged (h : s.Resting admitted) (hs : (s.env e).status = .ready)
    (h0 : ∀ e ∈ s.queues (.ready 0), ¬ s.Starved e) (ht : s.starvationThreshold + 1 < 4294967296)
    (henv : t.env e = s.aged e) (hth : t.starvationThreshold = s.starvationThreshold) :
    t.ticksLeft e + 1 = s.ticksLeft e := by
  obtain ⟨hmem, hpos, -⟩ := h.ok.of_ready hs
  unfold Sched.ticksLeft
  rw [hth]
  by_cases hst : s.Starved e
  · rw [henv, Sched.aged_of_starved hst]
    have hne : (s.env e).priority ≠ 0 := fun hz => h0 e (hz ▸ hmem) hst
    obtain ⟨p, hp⟩ : ∃ p : Nat, (s.env e).priority = (p + 1 : Nat) := ⟨((s.env e).priority - 1).toNat, by omega⟩
    have hlt : s.starvationThreshold < (s.env e).samawaitingTicks := hst
    rw [hp, Int.toNat_natCast, show ((p + 1 : Nat) : Int) - 1 = p by omega, Int.toNat_natCast, Nat.succ_mul]
    show p * (s.starvationThreshold + 2) + (s.starvationThreshold + 1 - 0) + 1 = _
    omega
  · have hle : (s.env e).samawaitingTicks ≤ s.starvationThreshold := Nat.le_of_not_lt hst
    rw [henv, Sched.aged_of_not_starved hst, add32_of_lt (by omega)]
    show (s.env e).priority.toNat * _ + (s.starvationThreshold + 1 - ((s.env e).samawaitingTicks + 1)) + 1 = _
    omega

end Waits

/-! ## Runs -/

/-- The steps of round robin without the end of the process or a priority for it. -/
def RoundStep (e : Nat) (w : World Waited) (op : Op) (w' : World Waited) : Prop :=
  Step (countWait e) w op w' ∧ op.Spares e ∧ w.Fits op

/-- The process has run, or no more processes have been put on the CPU than `n` less those that are still before it. -/
def World.TurnComes (e n : Nat) : World Waited → Prop
  | .at s _ g => g.ran = true ∨ (s.env e).status = .ready ∧ g.dispatches + s.turn e ≤ n
  | .lost => False

/-- The steps of the priority scheduler without the end of the process or a priority for it. -/
def AgingStep (e : Nat) (w : World Waited) (op : Op) (w' : World Waited) : Prop :=
  Step (countWait e) w op w' ∧ op.Spares e

/-- The process has run, or `n` ticks less those that it still has have passed. -/
def World.RisesIn (e n : Nat) : World Waited → Prop
  | .at s _ g => g.ran = true ∨ (s.env e).status = .ready ∧ g.ticks + s.ticksLeft e = n
  | .lost => True

/-- A resting state of the scheduler of the method, and the process waits so. -/
def World.TakesTurns (e n : Nat) : World Waited → Prop
  | .at s admitted g => s.Resting admitted ∧ s.schedulerMethod = .rr ∧ (World.at s admitted g).TurnComes e n
  | .lost => False

def World.Rises (e n : Nat) : World Waited → Prop
  | .at s admitted g => s.Resting admitted ∧ s.schedulerMethod = .prirr ∧ s.starvationThreshold + 1 < 4294967296 ∧
      (World.at s admitted g).RisesIn e n
  | .lost => True

section Runs

variable {s t : Sched} {admitted : Finset Nat} {e n : Nat} {g : Waited} {w w' : World Waited} {op : Op}

theorem countWait_ran : (countWait e s op t g).ran = true ↔ g.ran = true ∨ t.proc = some e := by
  simp [countWait]

theorem RoundStep.takesTurns (hI : w.TakesTurns e n) (hs : RoundStep e w op w') : w'.TakesTurns e n := by
  obtain ⟨hst, hsp, hf⟩ := hs
  cases w with
  | lost => exact hI.elim
  | «at» s admitted g =>
    obtain ⟨h, hm, hI⟩ := hI
    obtain ⟨t, rfl, hl, he, hr⟩ := hst.fits h hf
    refine ⟨hr, he.settings.2.trans hm, ?_⟩
    rcases hI with hran | ⟨hs, hle⟩
    · exact .inl (countWait_ran.2 (.inl hran))
    · rcases he.turn h hm hs hsp with hrun | hturn
      · exact .inl (countWait_ran.2 (.inr hrun))
      · rcases he.waits h hl hs hsp with hrun | henv
        · exact .inl (countWait_ran.2 (.inr hrun))
        · rw [if_neg fun hc => by rw [hm] at hc; cases hc.2] at henv
          refine .inr ⟨by rw [henv]; exact hs, ?_⟩
          show g.dispatches + (if Dispatches s op ∧ t.proc.isSome then 1 else 0) + t.turn e ≤ n
          omega

theorem AgingStep.rises (hI : w.Rises e n) (hs : AgingStep e w op w') : w'.Rises e n := by
  obtain ⟨hst, hsp⟩ := hs
  cases w with
  | lost => cases hst
  | «at» s admitted g =>
    obtain ⟨h, hm, hth, hI⟩ := hI
    by_cases hf : Fits s op
    · obtain ⟨t, rfl, hl, he, hr⟩ := hst.fits h hf
      refine ⟨hr, he.settings.2.trans hm, by rw [he.threshold]; exact hth, ?_⟩
      rcases hI with hran | ⟨hs, heq⟩
      · exact .inl (countWait_ran.2 (.inl hran))
      · rcases he.waits h hl hs hsp with hrun | henv
        · exact .inl (countWait_ran.2 (.inr hrun))
        · right
          by_cases hop : op = .tick
          · subst hop
            rw [if_pos ⟨rfl, hm⟩] at henv
            have hleft := h.ticksLeft_aged hs (hf.1 hm) hth henv he.threshold
            refine ⟨by rw [henv, Sched.aged, Env.aged_status]; exact hs, ?_⟩
            show g.ticks + 1 + t.ticksLeft e = n
            omega
          · rw [if_neg fun hc => hop hc.1] at henv
            refine ⟨by rw [henv]; exact hs, ?_⟩
            show g.ticks + (if op = .tick then 1 else 0) + t.ticksLeft e = n
            rw [if_neg hop, Sched.ticksLeft, henv, he.threshold]
            exact heq
    · rw [hst.outside h hm hf]
      exact trivial

/-- Under round robin a READY process runs after at most as many other processes as are before it in the ready queue,
whatever arrives, leaves or is woken, unless it is killed or given a priority. -/
theorem round_robin_bounded (h : s.Resting admitted) (hm : s.schedulerMethod = .rr) (hs : (s.env e).status = .ready)
    (ops : List Op) : Always (RoundStep e) (World.TurnComes e (s.turn e)) (.at s admitted {}) ops := by
  have hstart : (World.at s admitted {}).TakesTurns e (s.turn e) := ⟨h, hm, .inr ⟨hs, by show 0 + s.turn e ≤ _; omega⟩⟩
  refine (always_of_step (fun _ _ _ hI hst => hst.takesTurns hI) hstart).mono fun w hw => ?_
  cases w with
  | lost => exact hw.elim
  | «at» => exact hw.2.2

theorem round_robin_bounded_two : Always (RoundStep 1) (World.TurnComes 1 ((twoReady (schedInitRR cleared)).turn 1))
    (.at (twoReady (schedInitRR cleared)) {1, 2} {}) [.runAll, .yield] :=
  round_robin_bounded Initial.rr.twoReady rfl rfl [.runAll, .yield]

/-- Under the priority scheduler a READY process runs, or the clock has gone outside of the array of ready queues,
after as many ticks as it takes to rise through its levels: there is a bound on its wait that does not depend on the
other processes. -/
theorem aging_bounded (h : s.Resting admitted) (hm : s.schedulerMethod = .prirr)
    (hth : s.starvationThreshold + 1 < 4294967296) (hs : (s.env e).status = .ready) (ops : List Op) :
    Always (AgingStep e) (World.RisesIn e (s.ticksLeft e)) (.at s admitted {}) ops := by
  have hstart : (World.at s admitted {}).Rises e (s.ticksLeft e) :=
    ⟨h, hm, hth, .inr ⟨hs, by show 0 + s.ticksLeft e = _; omega⟩⟩
  refine (always_of_step (fun _ _ _ hI hst => hst.rises hI) hstart).mono fun w hw => ?_
  cases w with
  | lost => exact trivial
  | «at» => exact hw.2.2.2

theorem aging_bounded_ten : Always (AgingStep 1)
    (World.RisesIn 1 ((twoReady (schedInitPRIRR cleared 10 5)).ticksLeft 1))
    (.at (twoReady (schedInitPRIRR cleared 10 5)) {1, 2} {}) [.runAll, .tick, .tick] :=
  aging_bounded (Initial.prirr (by decide) (by decide) (by decide)).twoReady rfl (by decide) rfl [.runAll, .tick, .tick]

end Runs

end Fos.Cpu
