/-
How long READY environments have waited: under the priority scheduler `samawaiting_ticks` is compared, in
every state of a run, with a count of the ticks since the environment became READY, was promoted or got
another priority.
-/
import Fos.Cpu.Placement

namespace Fos.Cpu

open Fos.Lib

/-! ## The count -/

/-- The ticks since an environment last became READY, was promoted or was given a priority. -/
def sinceReady (s : Sched) (op : Op) (_ : Sched) (since : Nat → Nat) (e : Nat) : Nat :=
  if (s.env e).status = .ready then
    match op with
    | .tick => if s.Starved e then 0 else since e + 1
    | .setPriority envId _ => if envid2env s envId = some e then 0 else since e
    | _ => since e
  else 0

abbrev WaitStep := Step sinceReady

/-- The wait of every READY environment is its count. -/
def World.WaitsCounted : World (Nat → Nat) → Prop
  | .at s _ since => ∀ e, (s.env e).status = .ready → (s.env e).samawaitingTicks = since e
  | .lost => False

/-- A tick that handles every READY environment once: one that has waited beyond the threshold is promoted
by one level and starts to wait again, and the wait of each other grows by one. -/
def World.TickHandles : World (Nat → Nat) → Op → Prop
  | .at s _ _, .tick => ∃ r, tickReady s = .ok () r ∧ ∀ e, (s.env e).status = .ready →
      if s.Starved e then
        0 < (s.env e).priority ∧ r.env e = { s.env e with priority := (s.env e).priority - 1, samawaitingTicks := 0 }
      else r.env e = { s.env e with samawaitingTicks := (s.env e).samawaitingTicks + 1 }
  | _, _ => True

/-- Nothing woken has a wait left from before it ran, and no wait wraps. -/
def Counts (s : Sched) : Op → Prop
  | .wakeupOne c => ∀ e, (s.queues (.chan c)).getLast? = some e → (s.env e).samawaitingTicks = 0
  | .wakeupAll c => ∀ e ∈ s.queues (.chan c), (s.env e).samawaitingTicks = 0
  | .tick => ∀ e, (s.env e).status = .ready → ¬ s.Starved e → (s.env e).samawaitingTicks + 1 < 4294967296
  | _ => True

def World.Counts : World (Nat → Nat) → Op → Prop
  | .at s _ _, op => Cpu.Fits s op ∧ Cpu.Counts s op
  | .lost, _ => True

/-! ## What keeps it -/

section Waiting

variable {s r t : Sched} {admitted : Finset Nat} {since : Nat → Nat} {op : Op} {w w' : World (Nat → Nat)}

/-- The counts are right, and what is new has not waited. -/
structure Sched.Waits (s : Sched) (since : Nat → Nat) : Prop where
  counted : ∀ e, (s.env e).status = .ready → (s.env e).samawaitingTicks = since e
  fresh : ∀ e, (s.env e).status = .new → (s.env e).samawaitingTicks = 0

theorem fresh_setEnv {e : Nat} {x : Env} (h : ∀ f, (r.env f).status = .new → (r.env f).samawaitingTicks = 0)
    (hx : x.status = .new → x.samawaitingTicks = 0) (f : Nat) (hf : ((r.setEnv e x).env f).status = .new) :
    ((r.setEnv e x).env f).samawaitingTicks = 0 := by
  rw [Sched.setEnv_env] at hf ⊢
  split at hf
  · next hfe => rw [if_pos hfe]; exact hx hf
  · next hfe => rw [if_neg hfe]; exact h f hf

theorem fresh_picks (ht : r.Picks t) (h : ∀ f, (r.env f).status = .new → (r.env f).samawaitingTicks = 0) (f : Nat)
    (hf : (t.env f).status = .new) : (t.env f).samawaitingTicks = 0 := by
  have hsame := ht.env_of_waiting (f := f) (by rw [hf]; simp)
  rw [hsame] at hf ⊢
  exact h f hf

theorem fresh_moveAll {q : QueueId} {l : List Nat} (h : ∀ f, (r.env f).status = .new → (r.env f).samawaitingTicks = 0)
    (f : Nat) (hf : ((r.moveAll q l).env f).status = .new) : ((r.moveAll q l).env f).samawaitingTicks = 0 := by
  by_cases hl : f ∈ l
  · rw [Sched.moveAll_mem hl] at hf
    cases hf
  · rw [Sched.moveAll_other hl] at hf ⊢
    exact h f hf

theorem Ages.fresh (hw : ∀ f, (s.env f).status = .new → (s.env f).samawaitingTicks = 0) (hr : Ages s admitted r)
    (f : Nat)
    (hf : (r.env f).status = .new) : (r.env f).samawaitingTicks = 0 := by
  cases hr with
  | rr hm => exact hw f hf
  | prirr hm hk =>
    rw [hk.env] at hf ⊢
    split at hf
    · next hs =>
      have hst := Env.aged_status s.starvationThreshold (s.env f)
      rw [Sched.aged, hst, hs.1] at hf
      cases hf
    · next hs => rw [if_neg hs]; exact hw f hf

/-- What is new has not waited: a call gives no other environment the status. -/
theorem Effect.fresh (hl : Legal s admitted op) (hw : ∀ f, (s.env f).status = .new → (s.env f).samawaitingTicks = 0)
    (he : Effect s admitted op t) : ∀ f, (t.env f).status = .new → (t.env f).samawaitingTicks = 0 := by
  cases he with
  | create => exact fresh_setEnv hw fun _ => rfl
  | newEnv => exact fresh_setEnv hw fun _ => hw _ hl.2
  | runNone | wakeNone | killNone | prompt => exact hw
  | runOne | wakeOne => exact fresh_moveAll (l := [_]) hw
  | wakeAll => exact fresh_moveAll hw
  | runFirst hq hp ht hs => exact fresh_picks ht (fresh_moveAll (l := [_]) hw)
  | runAll hp hs ht => exact fresh_picks ht (fresh_moveAll hw)
  | dispatch hproc ht => exact fresh_picks ht hw
  | yield hproc hp ht => exact fresh_picks ht (fresh_setEnv hw (by rintro ⟨⟩))
  | sleep hproc ht | exit hproc ht => exact fresh_picks ht (fresh_setEnv hw (by rintro ⟨⟩))
  | kill hq => exact fresh_setEnv hw (by rintro ⟨⟩)
  | killRunning hproc ht => exact fresh_picks ht (fresh_setEnv hw (by rintro ⟨⟩))
  | setPriority hid hs => exact fresh_setEnv hw (hw _)
  | setReady hid hs hp => exact fresh_setEnv (fresh_setEnv hw fun _ => rfl) (by rintro ⟨⟩)
  | tickIdle ht hproc => exact ht.fresh hw
  | tick hr hproc hp ht => exact fresh_picks ht (fresh_setEnv (hr.fresh hw) (by rintro ⟨⟩))

/-- A tick counts for the environments that are READY after the ready queues have aged. -/
theorem Ages.counted (h : s.Resting admitted) (hm : s.schedulerMethod = .prirr) (hw : s.Waits since)
    (hc : Counts s .tick) (hr : Ages s admitted r)
    (f : Nat) (hf : (r.env f).status = .ready) : (s.env f).status = .ready ∧
      (r.env f).samawaitingTicks = if s.Starved f then 0 else since f + 1 := by
  cases hr with
  | rr hm' =>
    rw [hm] at hm'
    cases hm'
  | prirr hm hk =>
    have hst : (r.env f).status = (s.env f).status := by
      rw [hk.env]
      split
      · exact Env.aged_status _ _
      · rfl
    rw [hst] at hf
    refine ⟨hf, ?_⟩
    rw [hk.aged h.ok hf]
    by_cases hs : s.Starved f
    · rw [Sched.aged_of_starved hs, if_pos hs]
    · rw [Sched.aged_of_not_starved hs, if_neg hs]
      show add32 _ _ = _
      rw [add32_of_lt (hc f hf hs), hw.counted f hf]

theorem setEnv_of_ready {e f : Nat} {x : Env} (hx : x.status ≠ .ready) (hf : ((r.setEnv e x).env f).status = .ready) :
    (r.setEnv e x).env f = r.env f := by
  rw [Sched.setEnv_env] at hf ⊢
  split at hf
  · exact absurd hf hx
  · next hfe => rw [if_neg hfe]

theorem Effect.counted (h : s.Resting admitted) (hm : s.schedulerMethod = .prirr) (hw : s.Waits since)
    (hc : Counts s op) (he : Effect s admitted op t) (f : Nat) (hf : (t.env f).status = .ready) :
    (t.env f).samawaitingTicks = sinceReady s op t since f := by
  have hzero : (s.env f).status ≠ .ready → sinceReady s op t since f = 0 := fun hs => if_neg hs
  -- READY before and after a call that gives no priority and is not a tick
  have hstay : (t.env f = s.env f) → sinceReady s op t since f = (if (s.env f).status = .ready then since f else 0) →
      (t.env f).samawaitingTicks = sinceReady s op t since f := by
    rintro hsame hop
    rw [hsame] at hf ⊢
    rw [hop, if_pos hf]
    exact hw.counted f hf
  have hmove : ∀ {q : QueueId} {l : List Nat}, (∀ i, q ≠ .ready i) →
      (∀ e ∈ l, e ∈ s.queues q ∧ (s.env e).samawaitingTicks = 0) →
      t.env f = (s.moveAll q l).env f →
      sinceReady s op t since f = (if (s.env f).status = .ready then since f else 0) →
      (t.env f).samawaitingTicks = sinceReady s op t since f := by
    rintro q l hq hl hsame hop
    by_cases hfl : f ∈ l
    · have hs : (s.env f).status ≠ .ready := by
        rw [h.ok.status q f (hl f hfl).1]
        cases q with
        | ready i => exact absurd rfl (hq i)
        | new | exit | chan c => simp [QueueId.status]
      rw [hsame, Sched.moveAll_mem hfl, hzero hs]
      exact (hl f hfl).2
    · exact hstay (hsame.trans (Sched.moveAll_other hfl)) hop
  have hnew : ∀ e ∈ s.queues .new, e ∈ s.queues .new ∧ (s.env e).samawaitingTicks = 0 :=
    fun e he => ⟨he, hw.fresh e (h.ok.status .new e he)⟩
  have hpick : ∀ {r : Sched}, r.Picks t → t.env f = r.env f := fun ht => ht.env_of_waiting (by rw [hf]; simp)
  have hleave : ∀ {q : QueueId} {e : Nat} {x : Env}, (s.leaveTo q e x).Picks t → x.status ≠ .ready →
      t.env f = s.env f := by
    rintro q e x ht hx
    have := hpick ht
    rw [this] at hf ⊢
    exact setEnv_of_ready hx hf
  cases he with
  | create => exact hstay (setEnv_of_ready (by simp) hf) rfl
  | newEnv => exact hstay (setEnv_of_ready (by simp) hf) rfl
  | runNone | wakeNone | killNone | prompt => exact hstay rfl rfl
  | runOne hq hp hs => exact hmove (q := .new) (l := [_]) (by simp) (by simpa using hnew _ hq) rfl rfl
  | runFirst hq hp ht hs =>
    have hsame := hpick ht
    exact hmove (q := .new) (l := [_]) (by simp) (by simpa using hnew _ hq) hsame rfl
  | runAll hp hs ht =>
    have hsame := hpick ht
    exact hmove (q := .new) (by simp) (fun e he => hnew e (List.mem_reverse.1 he)) hsame rfl
  | wakeOne hq hp =>
    refine hmove (q := .chan _) (l := [_]) (by simp) ?_ rfl rfl
    rintro e he
    rw [List.mem_singleton.1 he]
    exact ⟨by rw [hq]; simp, hc _ (by rw [hq]; simp)⟩
  | wakeAll hp =>
    exact hmove (q := .chan _) (l := (s.queues (.chan _)).reverse) (by simp)
      (fun e he => ⟨List.mem_reverse.1 he, hc e (List.mem_reverse.1 he)⟩) rfl rfl
  | dispatch hproc ht => exact hstay (hpick ht) rfl
  | yield hproc hp ht =>
    rename_i cur
    have hsame := hpick ht
    unfold Sched.preempted at hsame
    rw [Sched.leaveTo_env] at hsame
    split at hsame
    · next hfc =>
      have hs : (s.env f).status ≠ .ready := by
        rw [hfc, h.ok.running cur hproc]
        simp
      rw [hsame, hzero hs]
      simp [Sched.givenUp, hm]
    · exact hstay hsame rfl
  | sleep hproc ht => exact hstay (hleave ht (by simp)) rfl
  | exit hproc ht => exact hstay (hleave ht (by simp)) rfl
  | kill hq => exact hstay (setEnv_of_ready (by simp) hf) rfl
  | killRunning hproc ht =>
    have hsame := hpick ht
    rw [hsame] at hf
    exact hstay (hsame.trans (setEnv_of_ready (by simp) hf)) rfl
  | setPriority hid hs =>
    rename_i envId e priority
    have hne : f ≠ e := by
      rintro rfl
      rw [Sched.setEnv_env, if_pos rfl] at hf
      exact hs hf
    apply hstay (by rw [Sched.setEnv_env, if_neg hne])
    have hid' : ¬ envid2env s envId = some f := by
      rw [hid]
      exact fun heq => hne (Option.some.inj heq).symm
    simp only [sinceReady, if_neg hid']
  | setReady hid hs hp =>
    rename_i envId e priority
    by_cases hfe : f = e
    · subst hfe
      have hzero' : sinceReady s (.setPriority envId priority) (s.reprioritised f priority) since f = 0 := by
        simp only [sinceReady, hs, if_true, hid]
      rw [hzero']
      simp [Sched.reprioritised]
    · apply hstay (by simp [Sched.reprioritised, hfe])
      have hid' : ¬ envid2env s envId = some f := by
        rw [hid]
        exact fun heq => hfe (Option.some.inj heq).symm
      simp only [sinceReady, if_neg hid']
  | tickIdle ht hproc =>
    obtain ⟨hs, hcount⟩ := ht.counted h hm hw hc f hf
    rw [hcount]
    exact (if_pos hs).symm
  | tick hr hproc hp ht =>
    rename_i cur r
    have hsame := hpick ht
    unfold Sched.preempted at hsame
    rw [Sched.leaveTo_env] at hsame
    split at hsame
    · next hfc =>
      have hs : (s.env f).status ≠ .ready := by
        rw [hfc, h.ok.running cur hproc]
        simp
      rw [hsame, hzero hs]
      simp [Sched.givenUp, hr.settings.2, hm]
    · rw [hsame] at hf ⊢
      obtain ⟨hs, hcount⟩ := hr.counted h hm hw hc f hf
      rw [hcount]
      exact (if_pos hs).symm

/-- A resting state of the priority scheduler with the right counts. -/
def World.Waiting : World (Nat → Nat) → Prop
  | .at s admitted since => s.Resting admitted ∧ s.schedulerMethod = .prirr ∧ s.Waits since
  | .lost => False

theorem World.Waiting.counted (h : w.Waiting) : w.WaitsCounted := by
  cases w with
  | lost => exact h.elim
  | «at» s admitted since => exact h.2.2.counted

/-- A tick that promotes none of level 0 and wraps no wait handles every READY environment once. -/
theorem tick_handles (h : s.Resting admitted) (hm : s.schedulerMethod = .prirr) (hf : Fits s .tick)
    (hc : Counts s .tick) :
    (World.at s admitted since).TickHandles .tick := by
  obtain ⟨r, hr, ha⟩ := ages_of_fits h hf.1
  refine ⟨r, hr, fun e hs => ?_⟩
  cases ha with
  | rr hm' =>
    rw [hm] at hm'
    cases hm'
  | prirr hm' hk =>
    obtain ⟨hq, h0, hn⟩ := h.ok.of_ready hs
    rw [hk.aged h.ok hs]
    split
    · next hst =>
      have hne : (s.env e).priority ≠ 0 := by
        intro hz
        rw [hz] at hq
        exact hf.1 hm e hq hst
      exact ⟨by omega, Sched.aged_of_starved hst⟩
    · next hst => rw [Sched.aged_of_not_starved hst, add32_of_lt (hc e hs hst)]

theorem Step.waiting (hI : w.Waiting) (hC : w.Counts op) (hs : WaitStep w op w') : w.TickHandles op ∧ w'.Waiting := by
  cases w with
  | lost => exact hI.elim
  | «at» s admitted since =>
    obtain ⟨h, hm, hw⟩ := hI
    obtain ⟨hf, hc⟩ := hC
    obtain ⟨t, rfl, hl, he, hr⟩ := hs.fits h hf
    refine ⟨?_, hr, he.settings.2.trans hm, fun f hf => he.counted h hm hw hc f hf, he.fresh hl hw.fresh⟩
    cases op with
    | tick => exact tick_handles h hm hf hc
    | create | newEnv | runEnv | runAll | dispatch | prompt | yield | sleep | wakeupOne | wakeupAll | envExit | killEnv
      | setPriority => trivial

/-- A step that handles the READY environments and leaves the right counts has woken nothing with an old wait. -/
theorem Step.counts (hI : w.Waiting) (hs : WaitStep w op w') (hH : w.TickHandles op) (hP : w'.WaitsCounted) :
    w.Counts op := by
  cases w with
  | lost => exact hI.elim
  | «at» s admitted since =>
    obtain ⟨h, hm, hw⟩ := hI
    have hf : Fits s op := by
      by_contra hf
      rw [hs.outside h hm hf] at hP
      exact hP.elim
    refine ⟨hf, ?_⟩
    obtain ⟨t, rfl, hl, he, hr⟩ := hs.fits h hf
    have hwoken : ∀ {c : Nat} {e : Nat}, e ∈ s.queues (.chan c) → sinceReady s op t since e = 0 := by
      rintro c e hq
      apply if_neg
      rw [h.ok.status _ e hq]
      simp [QueueId.status]
    cases op with
    | wakeupOne c =>
      intro e hlast
      obtain ⟨l, hl⟩ := List.getLast?_eq_some_iff.1 hlast
      cases he with
      | wakeNone hq =>
        rw [hq] at hlast
        cases hlast
      | wakeOne hq hp =>
        obtain ⟨-, heq⟩ := List.append_inj' (hl.symm.trans hq) rfl
        obtain rfl := List.singleton_injective heq
        have hcount := hP e (by simp)
        rw [hwoken (c := c) (by rw [hl]; simp)] at hcount
        simpa using hcount
    | wakeupAll c =>
      intro e hq
      cases he with
      | wakeAll hp =>
        have hmem : e ∈ (s.queues (.chan c)).reverse := List.mem_reverse.2 hq
        have hcount := hP e (by rw [Sched.moveAll_mem hmem])
        rw [hwoken hq, Sched.moveAll_mem hmem] at hcount
        exact hcount
    | tick =>
      rintro e hst hns
      obtain ⟨r, hr, hall⟩ := hH
      obtain ⟨r', hr', ha⟩ := ages_of_fits h hf.1
      rw [hr] at hr'
      cases hr'
      have hrec := hall e hst
      rw [if_neg hns] at hrec
      cases ha with
      | rr hm' =>
        rw [hm] at hm'
        cases hm'
      | prirr hm' hk =>
        rw [hk.aged h.ok hst, Sched.aged_of_not_starved hns] at hrec
        have hadd : add32 (s.env e).samawaitingTicks 1 = (s.env e).samawaitingTicks + 1 :=
          congrArg Env.samawaitingTicks hrec
        rw [← hadd]
        exact Nat.mod_lt _ (by decide)
    | create | newEnv | runEnv | runAll | dispatch | prompt | yield | sleep | envExit | killEnv | setPriority => trivial

end Waiting

/-- Under the priority scheduler each tick handles every READY environment once and their waits are the ticks
since they became READY, were promoted or got a priority, in exactly the runs that insert only environments with
a level for their priority, promote none of level 0, wake only what has no wait left from before it ran, and let
no wait wrap. -/
theorem ready_waits_iff {n k : Nat} (hn : 0 < n) (hn' : n < 256) (hk : k < 4294967296) (ops : List Op) :
    Always WaitStep World.WaitsCounted (.at (schedInitPRIRR cleared n k) ∅ fun _ => 0) ops ∧
        Each WaitStep World.TickHandles (.at (schedInitPRIRR cleared n k) ∅ fun _ => 0) ops ↔
      Each WaitStep World.Counts (.at (schedInitPRIRR cleared n k) ∅ fun _ => 0) ops := by
  have hI : (World.at (schedInitPRIRR cleared n k) ∅ fun _ => 0).Waiting :=
    ⟨(Initial.prirr hn hn' hk).resting, rfl, ⟨fun _ _ => rfl, fun _ _ => rfl⟩⟩
  exact always_each_iff (fun _ hw => hw.counted) (fun _ _ _ hI hC hs => hs.waiting hI hC)
    (fun _ _ _ hI hs hH hP => hs.counts hI hH hP) hI

theorem ready_waits_iff_ten :
    Always WaitStep World.WaitsCounted (.at (schedInitPRIRR cleared 10 5) ∅ fun _ => 0)
      [.create 1, .newEnv 1, .runAll, .tick] ∧
        Each WaitStep World.TickHandles (.at (schedInitPRIRR cleared 10 5) ∅ fun _ => 0)
          [.create 1, .newEnv 1, .runAll, .tick] ↔
      Each WaitStep World.Counts (.at (schedInitPRIRR cleared 10 5) ∅ fun _ => 0)
        [.create 1, .newEnv 1, .runAll, .tick] :=
  ready_waits_iff (by decide) (by decide) (by decide) _

/-- A process that waited for a tick before it ran, slept and is woken counts that tick again. -/
theorem woken_env_counts_twice : ¬ (Always WaitStep World.WaitsCounted (.at (schedInitPRIRR cleared 10 5) ∅ fun _ => 0)
      [.create 1, .create 2, .newEnv 1, .newEnv 2, .runAll, .tick, .sleep 0, .wakeupOne 0] ∧
    Each WaitStep World.TickHandles (.at (schedInitPRIRR cleared 10 5) ∅ fun _ => 0)
      [.create 1, .create 2, .newEnv 1, .newEnv 2, .runAll, .tick, .sleep 0, .wakeupOne 0]) := by
  rintro ⟨h, -⟩
  have hx : (execOps sinceReady [.create 1, .create 2, .newEnv 1, .newEnv 2, .runAll, .tick, .sleep 0, .wakeupOne 0]
      (schedInitPRIRR cleared 10 5) ∅ fun _ => 0).any
        (fun x => (x.1.env 2).status = .ready ∧ (x.1.env 2).samawaitingTicks = 1 ∧ x.2 2 = 0) = true := by
    decide +kernel
  obtain ⟨x, hrun, hx⟩ := (Option.any_eq_true _ _).1 hx
  obtain ⟨admitted, hP⟩ := always_execOps h hrun
  obtain ⟨hs, hw, hg⟩ := of_decide_eq_true hx
  have := hP 2 hs
  omega

end Fos.Cpu
