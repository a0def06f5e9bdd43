/-
A clock tick: the priority scheduler goes through the ready queues from the highest priority on and
ages each environment, moving those that have waited beyond the threshold one queue up, where it has
already been.
-/
import Fos.Cpu.Moves

namespace Fos.Cpu

open Fos.Lib

/-! ## One environment -/

/-- What a tick makes of the record of a READY environment. -/
def Env.aged (threshold : Nat) (x : Env) : Env :=
  if threshold < x.samawaitingTicks then { x with priority := x.priority - 1, samawaitingTicks := 0 }
  else { x with samawaitingTicks := add32 x.samawaitingTicks 1 }

namespace Sched

/-- An environment that a tick promotes. -/
def Starved (s : Sched) (e : Nat) : Prop := s.starvationThreshold < (s.env e).samawaitingTicks

instance (s : Sched) (e : Nat) : Decidable (s.Starved e) := inferInstanceAs (Decidable (_ < _))

def aged (s : Sched) (e : Nat) : Env := (s.env e).aged s.starvationThreshold

/-- One queue up. -/
def promoted (s : Sched) (e : Nat) : Sched :=
  ((s.setQueue (.ready (s.env e).priority) ((s.queues (.ready (s.env e).priority)).erase e)).setEnv e
    { s.env e with priority := (s.env e).priority - 1, samawaitingTicks := 0 }).insertedReady e

def SameSettings (s t : Sched) : Prop :=
  t.proc = s.proc ∧ t.numOfReadyQueues = s.numOfReadyQueues ∧ t.schedulerMethod = s.schedulerMethod ∧
    t.starvationThreshold = s.starvationThreshold ∧ t.started = s.started

theorem SameSettings.trans {r s t : Sched} (h : r.SameSettings s) (h' : s.SameSettings t) : r.SameSettings t := by
  obtain ⟨h1, h2, h3, h4, h5⟩ := h
  obtain ⟨h1', h2', h3', h4', h5'⟩ := h'
  exact ⟨h1'.trans h1, h2'.trans h2, h3'.trans h3, h4'.trans h4, h5'.trans h5⟩

end Sched

section Tick

variable {s t : Sched} {cpu : Option Nat} {all : Finset Nat} {e f : Nat} {i : Nat}

theorem Env.aged_status (n : Nat) (x : Env) : (x.aged n).status = x.status := by
  unfold Env.aged
  split <;> rfl

theorem Sched.aged_of_starved (hs : s.Starved e) :
    s.aged e = { s.env e with priority := (s.env e).priority - 1, samawaitingTicks := 0 } := if_pos hs

theorem Sched.aged_of_not_starved (hs : ¬ s.Starved e) :
    s.aged e = { s.env e with samawaitingTicks := add32 (s.env e).samawaitingTicks 1 } := if_neg hs

/-- What going through some of the environments of ready queue `i` has done. -/
structure Sched.Swept (s t : Sched) (cpu : Option Nat) (all : Finset Nat) (i : Nat) (l : List Nat) : Prop where
  ok : t.Ok cpu none all
  env : ∀ f, t.env f = if f ∈ l then s.aged f else s.env f
  later : ∀ j : Nat, i < j → t.queues (.ready j) = s.queues (.ready j)
  kept : (∀ e ∈ l, ¬ s.Starved e) → t.queues = s.queues
  off : ∀ q, (∀ i, q ≠ .ready i) → t.queues q = s.queues q
  settings : s.SameSettings t

theorem tickEnv_counts (hs : ¬ s.Starved e) : tickEnv i e s = .ok () (s.setEnv e (s.aged e)) := by
  unfold tickEnv
  rw [getS_bind, Sched.aged_of_not_starved hs]
  simp only [if_neg (show ¬ s.starvationThreshold < (s.env e).samawaitingTicks from hs)]
  rfl

/-- The state after a starved environment is taken off its queue and its record is written. -/
def Sched.lifted (s : Sched) (e : Nat) : Sched :=
  (s.setQueue (.ready (s.env e).priority) ((s.queues (.ready (s.env e).priority)).erase e)).setEnv e
    { s.env e with priority := (s.env e).priority - 1, samawaitingTicks := 0 }

theorem tickEnv_starved (h : s.Ok cpu none all) (he : e ∈ s.queues (.ready i)) (hs : s.Starved e) :
    tickEnv i e s = enqueue (.ready ((s.env e).priority - 1)) e (s.lifted e) := by
  have hpr := (h.level i e he).1
  unfold tickEnv
  rw [getS_bind]
  simp only [if_pos (show s.starvationThreshold < (s.env e).samawaitingTicks from hs)]
  rw [bind_of_ok (listRemove_eq he), bind_of_ok (modifyEnv_eq e _ _)]
  unfold Sched.lifted
  rw [hpr]
  rfl

theorem tickEnv_promotes (h : s.Ok cpu none all) (he : e ∈ s.queues (.ready i)) (hs : s.Starved e) (hi : 0 < i) :
    tickEnv i e s = .ok () (s.promoted e) := by
  obtain ⟨hpr, -, hlt⟩ := h.level i e he
  have hst : (s.env e).status = .ready := h.status _ e he
  have hq : (s.lifted e).Has (.ready ((s.env e).priority - 1)) := by
    constructor
    · omega
    · show (s.env e).priority - 1 < s.numOfReadyQueues
      omega
  rw [tickEnv_starved h he hs, enqueue_eq hq]
  simp [Sched.promoted, Sched.lifted, Sched.insertedReady, Sched.setEnv, Sched.setQueue, ← hst]

theorem tickEnv_outside (h : s.Ok cpu none all) (he : e ∈ s.queues (.ready (0 : Nat))) (hs : s.Starved e) :
    tickEnv 0 e s = .error .faults (s.lifted e) := by
  obtain ⟨hpr, -⟩ := h.level _ e he
  have hq : ¬ (s.lifted e).Has (.ready ((s.env e).priority - 1)) := by
    rintro ⟨h0, -⟩
    rw [hpr] at h0
    omega
  rw [tickEnv_starved h he hs, enqueue_outside hq]

theorem Sched.Ok.promoted (h : s.Ok cpu none all) (he : e ∈ s.queues (.ready i)) (hi : 0 < i) :
    (s.promoted e).Ok cpu none all := by
  obtain ⟨hpr, -, hlt⟩ := h.level i e he
  refine ((h.remove (by rw [hpr]; exact he)).setEnv _).insertedReady ?_
  rw [Sched.setEnv_env, if_pos rfl]
  constructor
  · show 0 ≤ (s.env e).priority - 1
    omega
  · show (s.env e).priority - 1 < s.numOfReadyQueues
    omega

/-! ## One queue -/

theorem Sched.promoted_env (hst : (s.env e).status = .ready) (hs : s.Starved e) :
    (s.promoted e).env f = if f = e then s.aged e else s.env f := by
  rw [Sched.aged_of_starved hs]
  unfold Sched.promoted
  rw [insertedReady_env]
  split
  · simp [← hst]
  · next hf => simp [hf]

theorem Sched.promoted_queue (hpr : (s.env e).priority = i) (j : Nat) (hj : i ≤ j) :
    (s.promoted e).queues (.ready j) = if j = i then (s.queues (.ready i)).erase e else s.queues (.ready j) := by
  have hne : ¬ ((j : Int) = (s.env e).priority - 1) := by omega
  unfold Sched.promoted
  rw [Sched.insertedReady_queues, if_neg]
  · simp [hpr]
  · intro hq
    simp only [QueueId.ready.injEq, Sched.setEnv_env, if_true] at hq
    exact hne hq

theorem Sched.promoted_off {q : QueueId} (hq : ∀ i, q ≠ .ready i) : (s.promoted e).queues q = s.queues q := by
  unfold Sched.promoted
  rw [Sched.insertedReady_queues, if_neg (hq _), Sched.setEnv_queues, Sched.setQueue_queues, if_neg (hq _)]

/-- What one environment of queue `i` is made to. -/
theorem tickEnv_swept (h : s.Ok cpu none all) (he : e ∈ s.queues (.ready i)) (hi : s.Starved e → 0 < i) :
    ∃ t, tickEnv i e s = .ok () t ∧ s.Swept t cpu all i [e] ∧
      ∀ f, f ≠ e → f ∈ s.queues (.ready i) → f ∈ t.queues (.ready i) := by
  have hst : (s.env e).status = .ready := h.status _ e he
  by_cases hs : s.Starved e
  · refine ⟨_, tickEnv_promotes h he hs (hi hs), ⟨h.promoted he (hi hs), fun f => ?_, fun j hj => ?_, ?_,
      fun q hq => Sched.promoted_off hq, ⟨rfl, rfl, rfl, rfl, rfl⟩⟩, ?_⟩
    · rw [Sched.promoted_env hst hs]
      by_cases hf : f = e
      · simp [hf]
      · simp [hf]
    · rw [Sched.promoted_queue (h.level _ e he).1 j (by omega), if_neg (by omega)]
    · intro hk
      exact absurd hs (hk e (by simp))
    · rintro f hf hq
      rw [Sched.promoted_queue (h.level _ e he).1 i le_rfl, if_pos rfl]
      exact (List.mem_erase_of_ne hf).2 hq
  · refine ⟨_, tickEnv_counts hs, ⟨?_, fun f => ?_, fun _ _ => rfl, fun _ => rfl, fun _ _ => rfl,
      ⟨rfl, rfl, rfl, rfl, rfl⟩⟩, fun _ _ hq => hq⟩
    · rw [Sched.aged_of_not_starved hs]
      exact h.rewrite rfl fun _ => rfl
    · rw [Sched.setEnv_env]
      by_cases hf : f = e
      · simp [hf]
      · simp [hf]

theorem Sched.Swept.nil (h : s.Ok cpu none all) : s.Swept s cpu all i [] :=
  ⟨h, by simp, fun _ _ => rfl, fun _ => rfl, fun _ _ => rfl, ⟨rfl, rfl, rfl, rfl, rfl⟩⟩

theorem Sched.Swept.cons {r : Sched} {l : List Nat} (h : s.Swept r cpu all i [e]) (h' : r.Swept t cpu all i l)
    (he : e ∉ l) : s.Swept t cpu all i (e :: l) := by
  have hr : ∀ f, f ≠ e → r.env f = s.env f := by
    rintro f hf
    rw [h.env, if_neg (by simpa using hf)]
  have haged : ∀ f, f ≠ e → r.aged f = s.aged f := by
    rintro f hf
    unfold Sched.aged
    rw [hr f hf, h.settings.2.2.2.1]
  refine ⟨h'.ok, fun f => ?_, fun j hj => (h'.later j hj).trans (h.later j hj), fun hk => ?_,
    fun q hq => (h'.off q hq).trans (h.off q hq), h.settings.trans h'.settings⟩
  · rw [h'.env]
    by_cases hf : f = e
    · subst hf
      rw [if_neg he, h.env]
      simp
    · rw [haged f hf, hr f hf]
      simp [hf]
  · have hke : ∀ f ∈ l, ¬ r.Starved f := by
      rintro f hf hs
      have hne : f ≠ e := fun hfe => he (hfe ▸ hf)
      unfold Sched.Starved at hs
      rw [hr f hne, h.settings.2.2.2.1] at hs
      exact hk f (List.mem_cons_of_mem _ hf) hs
    rw [h'.kept hke]
    exact h.kept (by simpa using hk e List.mem_cons_self)

theorem tickQueue_swept : ∀ {l : List Nat} {s : Sched}, s.Ok cpu none all → l.Nodup →
    (∀ e ∈ l, e ∈ s.queues (.ready i)) → (∀ e ∈ l, s.Starved e → 0 < i) →
      ∃ t, tickQueue i l s = .ok () t ∧ s.Swept t cpu all i l
  | [], s, h, _, _, _ => ⟨s, rfl, .nil h⟩
  | e :: l, s, h, hnd, hq, hs => by
    obtain ⟨he, hnd⟩ := List.nodup_cons.1 hnd
    obtain ⟨r, hr, hsw, hstay⟩ := tickEnv_swept h (hq e List.mem_cons_self) (hs e List.mem_cons_self)
    have hne : ∀ f ∈ l, f ≠ e := fun f hf hfe => he (hfe ▸ hf)
    obtain ⟨t, ht, hsw'⟩ := tickQueue_swept hsw.ok hnd
      (fun f hf => hstay f (hne f hf) (hq f (List.mem_cons_of_mem _ hf)))
      (fun f hf hst => by
        unfold Sched.Starved at hst
        rw [hsw.env, if_neg (by simpa using hne f hf), hsw.settings.2.2.2.1] at hst
        exact hs f (List.mem_cons_of_mem _ hf) hst)
    refine ⟨t, ?_, hsw.cons hsw' he⟩
    rw [tickQueue, bind_of_ok hr]
    exact ht

/-- The first queue with an environment that has waited too long. -/
theorem tickQueue_outside : ∀ {l : List Nat} {s : Sched}, s.Ok cpu none all → l.Nodup →
    (∀ e ∈ l, e ∈ s.queues (.ready (0 : Nat))) → (∃ e ∈ l, s.Starved e) →
      ∃ t, tickQueue 0 l s = .error .faults t
  | [], _, _, _, _, hs => by simp at hs
  | e :: l, s, h, hnd, hq, hs => by
    obtain ⟨he, hnd⟩ := List.nodup_cons.1 hnd
    by_cases hst : s.Starved e
    · rw [tickQueue, bind_of_error (tickEnv_outside h (hq e List.mem_cons_self) hst)]
      exact ⟨_, rfl⟩
    · obtain ⟨f, hf, hsf⟩ := hs
      have hfl : f ∈ l := by
        rcases List.mem_cons.1 hf with rfl | hf
        · exact absurd hsf hst
        · exact hf
      rw [tickQueue, bind_of_ok (tickEnv_counts hst)]
      apply tickQueue_outside (s := s.setEnv e (s.aged e)) _ hnd (fun f hf => hq f (List.mem_cons_of_mem _ hf))
      · refine ⟨f, hfl, ?_⟩
        have hne : f ≠ e := fun hfe => he (hfe ▸ hfl)
        unfold Sched.Starved
        rw [Sched.setEnv_env, if_neg hne]
        exact hsf
      · rw [Sched.aged_of_not_starved hst]
        exact h.rewrite rfl fun _ => rfl

/-! ## All queues -/

/-- What going through the queues from `k` on has done: every READY environment of theirs has been
aged once. -/
structure Sched.Ticked (s t : Sched) (cpu : Option Nat) (all : Finset Nat) (k : Nat) : Prop where
  ok : t.Ok cpu none all
  env : ∀ f, t.env f = if (s.env f).status = .ready ∧ k ≤ (s.env f).priority then s.aged f else s.env f
  kept : (∀ e, (s.env e).status = .ready → k ≤ (s.env e).priority → ¬ s.Starved e) → t.queues = s.queues
  off : ∀ q, (∀ i, q ≠ .ready i) → t.queues q = s.queues q
  settings : s.SameSettings t

theorem Sched.Ticked.aged (hk : s.Ticked t cpu all 0) (h : s.Ok cpu none all) (hs : (s.env f).status = .ready) :
    t.env f = s.aged f := by
  rw [hk.env, if_pos ⟨hs, (h.of_ready hs).2.1⟩]

theorem Sched.aged_priority_le : (s.aged e).priority ≤ (s.env e).priority := by
  unfold Sched.aged Env.aged
  split
  · show (s.env e).priority - 1 ≤ _
    omega
  · exact le_rfl

theorem tickQueues_ticked : ∀ {n k : Nat} {s : Sched}, s.Ok cpu none all → k + n = s.numOfReadyQueues →
    (k = 0 → ∀ e ∈ s.queues (.ready (0 : Nat)), ¬ s.Starved e) →
      ∃ t, tickQueues (List.range' k n) s = .ok () t ∧ s.Ticked t cpu all k
  | 0, k, s, h, hn, _ => by
    refine ⟨s, rfl, h, fun f => ?_, fun _ => rfl, fun _ _ => rfl, rfl, rfl, rfl, rfl, rfl⟩
    split
    · next hf =>
      have := (h.of_ready hf.1).2.2
      omega
    · rfl
  | n + 1, k, s, h, hn, h0 => by
    obtain ⟨r, hr, hsw⟩ := tickQueue_swept (l := s.queues (.ready k)) h (h.placed.nodup _) (fun _ he => he)
      (fun e he hs => by
        by_contra hk
        have hk : k = 0 := by omega
        subst hk
        exact h0 rfl e he hs)
    obtain ⟨t, ht, htk⟩ := tickQueues_ticked (n := n) (k := k + 1) hsw.ok (by rw [hsw.settings.2.1]; omega) (by simp)
    have hmem : ∀ f, f ∈ s.queues (.ready k) ↔ (s.env f).status = .ready ∧ (s.env f).priority = k := by
      intro f
      constructor
      · intro hf
        exact ⟨h.status _ f hf, (h.level _ f hf).1⟩
      · rintro ⟨hst, hp⟩
        have := (h.of_ready hst).1
        rwa [hp] at this
    refine ⟨t, ?_, htk.ok, fun f => ?_, fun hk => ?_, fun q hq => (htk.off q hq).trans (hsw.off q hq),
      hsw.settings.trans htk.settings⟩
    · rw [List.range'_succ, tickQueues, getS_bind, bind_of_ok hr]
      exact ht
    · rw [htk.env]
      by_cases hf : f ∈ s.queues (.ready k)
      · obtain ⟨hst, hp⟩ := (hmem f).1 hf
        have hle := s.aged_priority_le (e := f)
        have hrf : r.env f = s.aged f := by rw [hsw.env, if_pos hf]
        rw [if_neg (by rw [hrf]; omega), hrf, if_pos ⟨hst, hp.ge⟩]
      · have hrf : r.env f = s.env f := by rw [hsw.env, if_neg hf]
        have hraged : r.aged f = s.aged f := by
          unfold Sched.aged
          rw [hrf, hsw.settings.2.2.2.1]
        rw [hrf, hraged]
        have hiff : (s.env f).status = .ready ∧ ((k + 1 : Nat) : Int) ≤ (s.env f).priority ↔
            (s.env f).status = .ready ∧ (k : Int) ≤ (s.env f).priority := by
          constructor
          · rintro ⟨hst, hp⟩
            exact ⟨hst, by omega⟩
          · rintro ⟨hst, hp⟩
            have hne : (s.env f).priority ≠ k := fun hp' => hf ((hmem f).2 ⟨hst, hp'⟩)
            exact ⟨hst, by omega⟩
        rw [if_congr hiff rfl rfl]
    · have hk1 : r.queues = s.queues := hsw.kept fun e he => hk e (h.status _ e he) (h.level _ e he).1.ge
      rw [htk.kept, hk1]
      rintro e hst hp hs
      unfold Sched.Starved at hs
      rw [hsw.env] at hst hp hs
      split at hp
      · next he =>
        have := s.aged_priority_le (e := e)
        have := (h.level _ e he).1
        omega
      · next he =>
        rw [if_neg he, hsw.settings.2.2.2.1] at hs
        rw [if_neg he] at hst
        exact hk e hst (by omega) hs

/-- A tick without a starved environment of the first queue. -/
theorem tickReady_ticked (h : s.Resting all) (hm : s.schedulerMethod = .prirr)
    (h0 : ∀ e ∈ s.queues (.ready 0), ¬ s.Starved e) :
    ∃ t, tickReady s = .ok () t ∧ s.Ticked t s.proc all 0 := by
  obtain ⟨t, ht, htk⟩ := tickQueues_ticked (n := s.numOfReadyQueues) (k := 0) h.ok (by simp) fun _ => h0
  refine ⟨t, ?_, htk⟩
  unfold tickReady
  rw [getS_bind, if_pos hm, List.range_eq_range']
  exact ht

theorem tickReady_rr (hm : s.schedulerMethod = .rr) : tickReady s = .ok () s := by
  unfold tickReady
  rw [getS_bind, if_neg (by rw [hm]; simp)]
  rfl

theorem tickReady_outside (h : s.Resting all) (hm : s.schedulerMethod = .prirr)
    (h0 : ∃ e ∈ s.queues (.ready 0), s.Starved e) : ∃ t, tickReady s = .error .faults t := by
  obtain ⟨t, ht⟩ := tickQueue_outside (l := s.queues (.ready 0)) h.ok (h.ok.placed.nodup _) (fun _ he => he) h0
  obtain ⟨n, hn⟩ : ∃ n, s.numOfReadyQueues = n + 1 := ⟨s.numOfReadyQueues - 1, by have := h.levels; omega⟩
  refine ⟨t, ?_⟩
  unfold tickReady
  rw [getS_bind, if_pos hm, List.range_eq_range', hn, List.range'_succ, tickQueues, getS_bind]
  exact bind_of_error ht

end Tick

end Fos.Cpu
