/-
Where an environment is: on one queue, whose kind its `env_status` names, or on the CPU. Each
function of the scheduler moves environments from place to place; its lemma gives the state it leaves.
-/
import Fos.Cpu.Scheduler
import Fos.Lib.Placed

namespace Fos.Cpu

open Fos.Lib

/-! ## The invariant -/

/-- The `env_status` of the environments on a queue. -/
def QueueId.status : QueueId → EnvStatus
  | .new => .new
  | .ready _ => .ready
  | .exit => .exit
  | .chan _ => .blocked

/-- The environments of `all` are each in one place, `cpu` being the one that runs and `hand` one that is
between two places. Those on a ready queue have its level as their priority. -/
structure Sched.Ok (s : Sched) (cpu hand : Option Nat) (all : Finset Nat) : Prop where
  placed : Placed s.queues cpu hand all
  status : ∀ q, ∀ e ∈ s.queues q, (s.env e).status = q.status
  running : ∀ e, cpu = some e → (s.env e).status = .running
  level : ∀ i, ∀ e ∈ s.queues (.ready i), (s.env e).priority = i ∧ s.InRange i
  outside : ∀ e ∉ all, (s.env e).status = .free ∨ (s.env e).status = .new

section Ok

variable {s : Sched} {cpu hand : Option Nat} {all : Finset Nat} {e : Nat} {q : QueueId} {l : List Nat} {i : Int}

theorem getS_bind {α : Type} (f : Sched → SM α) (s : Sched) : ((get : SM Sched) >>= f) s = f s s := rfl

theorem modifyEnv_eq (e : Nat) (g : Env → Env) (s : Sched) : modifyEnv e g s = .ok () (s.setEnv e (g (s.env e))) := rfl

/-- The record of the environment in the hand is written. -/
theorem Sched.Ok.setEnv (h : s.Ok cpu (some e) all) (x : Env) : (s.setEnv e x).Ok cpu (some e) all := by
  obtain ⟨hcpu, hq⟩ := h.placed.handFree e rfl
  have hne : ∀ q f, f ∈ s.queues q → f ≠ e := fun q f hf he => hq q (he ▸ hf)
  refine ⟨h.placed, fun q f hf => ?_, fun f hf => ?_, fun i f hf => ?_, fun f hf => ?_⟩
  · rw [Sched.setEnv_env, if_neg (hne q f hf)]
    exact h.status q f hf
  · have : f ≠ e := fun he => hcpu (he ▸ hf)
    rw [Sched.setEnv_env, if_neg this]
    exact h.running f hf
  · rw [Sched.setEnv_env, if_neg (hne _ f hf)]
    exact h.level i f hf
  · have : f ≠ e := fun he => hf (he ▸ h.placed.handKnown e rfl)
    rw [Sched.setEnv_env, if_neg this]
    exact h.outside f hf

theorem Sched.Ok.take (h : s.Ok cpu none all) (hl : (s.queues q).Perm (e :: l)) :
    (s.setQueue q l).Ok cpu (some e) all := by
  have hsub : ∀ {q' f}, f ∈ (s.setQueue q l).queues q' → f ∈ s.queues q' := by
    rintro q' f hf
    rcases mem_update.1 hf with ⟨rfl, hfl⟩ | ⟨-, hfq⟩
    · exact hl.mem_iff.2 (List.mem_cons_of_mem _ hfl)
    · exact hfq
  exact ⟨h.placed.take hl, fun q' f hf => h.status q' f (hsub hf), h.running, fun i f hf => h.level i f (hsub hf),
    h.outside⟩

theorem Sched.Ok.put (h : s.Ok cpu (some e) all) (hl : l.Perm (e :: s.queues q)) (hs : (s.env e).status = q.status)
    (hp : ∀ i, q = .ready i → (s.env e).priority = i ∧ s.InRange i) : (s.setQueue q l).Ok cpu none all := by
  have hsub : ∀ {q' f}, f ∈ (s.setQueue q l).queues q' → q' = q ∧ f = e ∨ f ∈ s.queues q' := by
    rintro q' f hf
    rcases mem_update.1 hf with ⟨rfl, hfl⟩ | ⟨-, hfq⟩
    · exact (List.mem_cons.1 (hl.mem_iff.1 hfl)).imp_left fun he => ⟨rfl, he⟩
    · exact .inr hfq
  refine ⟨h.placed.put hl, fun q' f hf => ?_, h.running, fun i f hf => ?_, h.outside⟩
  · rcases hsub hf with ⟨rfl, rfl⟩ | hf
    · exact hs
    · exact h.status q' f hf
  · rcases hsub hf with ⟨hq, rfl⟩ | hf
    · exact hp i hq.symm
    · exact h.level i f hf

theorem Sched.Ok.leave (h : s.Ok (some e) none all) : s.Ok none (some e) all :=
  ⟨h.placed.leave, h.status, by simp, h.level, h.outside⟩

theorem Sched.Ok.run (h : s.Ok none (some e) all) (hs : (s.env e).status = .running) : s.Ok (some e) none all :=
  ⟨h.placed.run, h.status, by rintro f hf; cases hf; exact hs, h.level, h.outside⟩

theorem Sched.Ok.enter (h : s.Ok cpu none all) (he : e ∉ all) : s.Ok cpu (some e) (insert e all) :=
  ⟨h.placed.enter he, h.status, h.running, h.level, fun f hf => h.outside f fun hf' =>
    hf (Finset.mem_insert_of_mem hf')⟩

/-- The environment in the hand is freed. -/
theorem Sched.Ok.release (h : s.Ok cpu (some e) all) (hs : (s.env e).status = .free) : s.Ok cpu none (all.erase e) := by
  refine ⟨h.placed.release, h.status, h.running, h.level, fun f hf => ?_⟩
  by_cases hfe : f = e
  · exact .inl (hfe ▸ hs)
  · exact h.outside f fun hf' => hf (Finset.mem_erase.2 ⟨hfe, hf'⟩)

/-- Fields that no place depends on. -/
theorem Sched.Ok.congr (h : s.Ok cpu hand all) {t : Sched} (henv : t.env = s.env) (hq : t.queues = s.queues)
    (hn : t.numOfReadyQueues = s.numOfReadyQueues) : t.Ok cpu hand all := by
  refine ⟨by rw [hq]; exact h.placed, ?_, ?_, ?_, ?_⟩
  · rw [henv, hq]; exact h.status
  · rw [henv]; exact h.running
  · rw [henv, hq]
    unfold Sched.InRange
    rw [hn]
    exact h.level
  · rw [henv]; exact h.outside

/-- A READY environment is on the ready queue of its priority. -/
theorem Sched.Ok.of_ready (h : s.Ok cpu none all) (hs : (s.env e).status = .ready) :
    e ∈ s.queues (.ready (s.env e).priority) ∧ s.InRange (s.env e).priority := by
  have hall : e ∈ all := by
    by_contra hn
    rcases h.outside e hn with ho | ho <;> rw [hs] at ho <;> cases ho
  rcases h.placed.placed e hall with hc | hc | ⟨q, hq⟩
  · have := h.running e hc
    rw [hs] at this; cases this
  · cases hc
  · have hst := h.status q e hq
    rw [hs] at hst
    cases q with
    | ready i =>
      obtain ⟨hp, hr⟩ := h.level i e hq
      rw [hp]
      exact ⟨hq, hr⟩
    | new | exit | chan c => cases hst

/-- The search of the ready queues finds exactly the READY environments. -/
theorem Sched.Ok.findReady (h : s.Ok cpu none all) :
    (s.findReady e = none ∧ (s.env e).status ≠ .ready) ∨
      ∃ i : Nat, s.findReady e = some i ∧ e ∈ s.queues (.ready i) ∧ (s.env e).status = .ready := by
  cases hf : s.findReady e with
  | none =>
    refine .inl ⟨rfl, fun hs => ?_⟩
    obtain ⟨hq, h0, hn⟩ := h.of_ready hs
    have hlt : (s.env e).priority.toNat < s.numOfReadyQueues := by omega
    have := List.find?_eq_none.1 hf _ (List.mem_range.2 hlt)
    rw [Int.toNat_of_nonneg h0] at this
    exact this (by simpa using hq)
  | some i =>
    have hq : e ∈ s.queues (.ready i) := by simpa using List.find?_some hf
    exact .inr ⟨i, rfl, hq, h.status _ e hq⟩

end Ok

/-! ## Queues -/

section Queues

variable {s : Sched} {cpu : Option Nat} {all : Finset Nat} {e : Nat} {q : QueueId}

theorem enqueue_eq (hq : s.Has q) : enqueue q e s = .ok () (s.setQueue q (e :: s.queues q)) := by
  unfold enqueue
  rw [getS_bind, if_pos hq]
  rfl

theorem enqueue_outside (hq : ¬ s.Has q) : enqueue q e s = .error .faults s := by
  unfold enqueue
  rw [getS_bind, if_neg hq]
  rfl

theorem listRemove_eq (he : e ∈ s.queues q) : listRemove q e s = .ok () (s.setQueue q ((s.queues q).erase e)) := by
  unfold listRemove
  rw [getS_bind, if_pos he]
  rfl

theorem dequeue_nil (hq : s.queues q = []) : dequeue q s = .ok none s := by
  unfold dequeue
  rw [getS_bind, hq]
  rfl

/-- The last one is taken off. -/
theorem dequeue_concat {l : List Nat} (hq : s.queues q = l ++ [e]) : dequeue q s = .ok (some e) (s.setQueue q l) := by
  unfold dequeue
  rw [getS_bind, hq, List.getLast?_append, List.dropLast_concat]
  rfl

theorem queue_cases (l : List Nat) : l = [] ∨ ∃ l' e, l = l' ++ [e] := by
  rcases List.eq_nil_or_concat l with h | ⟨l', e, h⟩
  · exact .inl h
  · exact .inr ⟨l', e, by rw [h, List.concat_eq_append]⟩

theorem Sched.Ok.dequeue {l : List Nat} (h : s.Ok cpu none all) (hq : s.queues q = l ++ [e]) :
    (s.setQueue q l).Ok cpu (some e) all ∧ (s.env e).status = q.status := by
  refine ⟨h.take ?_, h.status q e (by rw [hq]; simp)⟩
  rw [hq]
  exact List.perm_append_comm

theorem Sched.Ok.remove (h : s.Ok cpu none all) (he : e ∈ s.queues q) :
    (s.setQueue q ((s.queues q).erase e)).Ok cpu (some e) all :=
  h.take (List.perm_cons_erase he)

/-- The state after `sched_insert_ready`. -/
def Sched.insertedReady (s : Sched) (e : Nat) : Sched :=
  (s.setEnv e { s.env e with status := .ready }).setQueue (.ready (s.env e).priority)
    (e :: s.queues (.ready (s.env e).priority))

theorem schedInsertReady_eq_enqueue : schedInsertReady e s =
    enqueue (.ready (s.env e).priority) e (s.setEnv e { s.env e with status := .ready }) := by
  unfold schedInsertReady
  rw [bind_of_ok (modifyEnv_eq e _ s), getS_bind]
  simp only [Sched.setEnv_env, if_pos]

theorem schedInsertReady_eq (hp : s.InRange (s.env e).priority) :
    schedInsertReady e s = .ok () (s.insertedReady e) := by
  have hq : (s.setEnv e { s.env e with status := .ready }).Has (.ready (s.env e).priority) := hp
  rw [schedInsertReady_eq_enqueue, enqueue_eq hq]
  rfl

theorem schedInsertReady_outside (hp : ¬ s.InRange (s.env e).priority) :
    schedInsertReady e s = .error .faults (s.setEnv e { s.env e with status := .ready }) := by
  have hq : ¬ (s.setEnv e { s.env e with status := .ready }).Has (.ready (s.env e).priority) := hp
  rw [schedInsertReady_eq_enqueue, enqueue_outside hq]

theorem Sched.Ok.insertedReady (h : s.Ok cpu (some e) all) (hp : s.InRange (s.env e).priority) :
    (s.insertedReady e).Ok cpu none all := by
  refine (h.setEnv { s.env e with status := .ready }).put (q := .ready (s.env e).priority) (.refl _) ?_ ?_
  · simp [QueueId.status]
  · rintro i hi
    cases hi
    exact ⟨by simp, hp⟩

@[simp] theorem insertedReady_env (f : Nat) :
    (s.insertedReady e).env f = if f = e then { s.env e with status := .ready } else s.env f := by
  simp [Sched.insertedReady]

@[simp] theorem insertedReady_proc : (s.insertedReady e).proc = s.proc := rfl
@[simp] theorem insertedReady_num : (s.insertedReady e).numOfReadyQueues = s.numOfReadyQueues := rfl

end Queues

end Fos.Cpu
