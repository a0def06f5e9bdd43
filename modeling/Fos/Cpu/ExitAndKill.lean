/-
`sched_exit_env`, `sched_kill_env` and `sched_kill_all` of `kern/cpu/sched_helpers.c`, for an environment in any
place. The search of the NEW queue in the first one goes on to the end of the queue, and the last two look at no
channel.
-/
import Fos.Cpu.Placement

namespace Fos.Cpu

open Fos.Lib

/-! ## Runs -/

/-- The calls of which `Proper` asks nothing. -/
def unrestricted : Op → Bool
  | .setPriority _ _ | .tick => false
  | _ => true

section Runs

variable {s t : Sched} {ops : List Op}

/-- Where a run of such calls ends. -/
theorem resting_execOps (h : Initial s) (hops : ops.all unrestricted)
    (hx : execOps (fun _ _ _ (g : Unit) => g) ops s ∅ () = some (t, ())) : ∃ all, t.Resting all := by
  have hproper : Each (Step fun _ _ _ (g : Unit) => g) World.Proper (.at s ∅ ()) ops := by
    apply Each.of_forall
    rintro w op hop
    have hop := List.all_eq_true.1 hops op hop
    cases w with
    | lost => trivial
    | «at» s admitted g =>
      cases op with
      | setPriority | tick => cases hop
      | _ => trivial
  have hL := Each.always (I := World.Leveled) (fun _ _ _ hI hC hR => hR.leveled hI hC) h.leveled hproper
  obtain ⟨all, hr, -⟩ := always_execOps hL hx
  exact ⟨all, hr⟩

end Runs

/-! ## Exit -/

/-- The environment is on the EXIT queue with its status, off every other queue and off the CPU, and the others are
where they were. -/
structure Sched.ExitedFrom (s : Sched) (e : Nat) (t : Sched) : Prop where
  exit : t.queues .exit = e :: s.queues .exit
  status : (t.env e).status = .exit
  proc : t.proc = if s.proc = some e then none else s.proc
  others : ∀ f ≠ e, t.env f = s.env f
  queues : ∀ q, q ≠ .exit → t.queues q = (s.queues q).erase e

/-- The call returns in such a state, or gives the CPU to the scheduler in it when the environment was running. -/
def MovesToExit (s : Sched) (e : Nat) : Prop :=
  ∃ t, s.ExitedFrom e t ∧ schedExitEnv e s = if s.proc = some e then schedule t else .ok () t

section Exit

variable {s t : Sched} {all : Finset Nat} {e cur : Nat}

/-- The loop over the NEW queue ends at `NULL`, which `sched_insert_exit` does not take. -/
theorem schedExitEnv_new (he : e ∈ s.queues .new) : ∃ m t, schedExitEnv e s = .error (.panic m) t := by
  unfold schedExitEnv schedRemoveNew
  rw [getS_bind, if_pos he]
  by_cases hs : (s.env e).status = .new
  · simp only [bind_assoc, getS_bind, hs, ne_eq, not_true_eq_false, if_false]
    rw [bind_of_ok (listRemove_eq he), bind_of_ok (modifyEnv_eq e _ _)]
    exact ⟨_, _, rfl⟩
  · simp only [bind_assoc, getS_bind, ne_eq, hs, not_false_eq_true, if_true]
    exact ⟨_, _, rfl⟩

/-- The assertion that there is a process on the CPU comes after the search of the ready queues. -/
theorem schedExitEnv_idle (h : s.Resting all) (hproc : s.proc = none) :
    ∃ m t, schedExitEnv e s = .error (.panic m) t := by
  by_cases hnew : e ∈ s.queues .new
  · exact schedExitEnv_new hnew
  unfold schedExitEnv
  rw [getS_bind]
  rcases h.ok.findReady (e := e) with ⟨hf, -⟩ | ⟨i, hf, hq, -⟩
  · simp only [if_neg hnew, hf, hproc]
    exact ⟨_, _, rfl⟩
  · simp only [if_neg hnew, hf, hproc]
    rw [bind_of_ok (listRemove_eq hq)]
    exact ⟨_, _, rfl⟩

theorem schedExitEnv_ready (h : s.Resting all) {i : Nat} (hq : e ∈ s.queues (.ready i)) (hproc : s.proc = some cur) :
    ∃ t, s.ExitedFrom e t ∧ schedExitEnv e s = .ok () t := by
  have hst : (s.env e).status = .ready := h.ok.status _ e hq
  have hnew : e ∉ s.queues .new := by
    intro hc
    have := h.ok.status _ e hc
    rw [hst] at this
    cases this
  have hcur : cur ≠ e := by
    intro hc
    have := h.ok.running cur hproc
    rw [hc, hst] at this
    cases this
  obtain ⟨j, hf, hqj, -⟩ := h.ok.findReady.resolve_left fun hc => hc.2 hst
  let r := s.setQueue (.ready j) ((s.queues (.ready j)).erase e)
  have hinsert : schedInsertExit e r = .ok () ((r.mark e .exit).setQueue .exit (e :: s.queues .exit)) := by
    unfold schedInsertExit
    rw [bind_of_ok (modifyEnv_mark r e .exit), enqueue_eq (s := r.mark e .exit) (q := .exit) trivial]
    rfl
  refine ⟨(r.mark e .exit).setQueue .exit (e :: s.queues .exit), ⟨?_, ?_, ?_, ?_, ?_⟩, ?_⟩
  · simp
  · simp
  · rw [if_neg fun hc => hcur (Option.some.inj (hproc.symm.trans hc))]
    rfl
  · intro f hne
    simp [r, Sched.mark, hne]
  · intro q hne
    by_cases hqj' : q = .ready j
    · subst hqj'
      simp [r, hne]
    · have hout : e ∉ s.queues q := fun hc => hqj' (h.ok.placed.apart q (.ready j) e hc hqj)
      simp [r, hne, hqj', List.erase_of_not_mem hout]
  · unfold schedExitEnv
    rw [getS_bind]
    simp only [if_neg hnew, hf, hproc]
    rw [bind_of_ok (listRemove_eq hqj)]
    simp only [Option.isSome_some, true_or, if_true, if_neg hcur]
    rw [bind_of_ok hinsert]
    rfl

theorem exited_from_cpu (h : s.Resting all) (hproc : s.proc = some e) : s.ExitedFrom e (s.exited e) := by
  constructor
  · simp [Sched.exited]
  · simp [Sched.exited]
  · simp [Sched.exited, hproc]
  · intro f hne
    simp [Sched.exited, hne]
  · intro q hne
    have hout := h.ok.placed.cpuFree e hproc q
    simp [Sched.exited, hne, List.erase_of_not_mem hout]

/-- A NEW environment is never moved. -/
theorem not_moves_new (hnew : e ∈ s.queues .new) (hproc : s.proc ≠ some e) : ¬ MovesToExit s e := by
  rintro ⟨t, -, hr⟩
  obtain ⟨m, u, hu⟩ := schedExitEnv_new hnew
  rw [if_neg hproc, hu] at hr
  cases hr

/-- Of the environments that are NEW, READY or running, `sched_exit_env` moves exactly those to the EXIT queue that are
not NEW, if there is a process on the CPU. -/
theorem exit_env_moves_iff (h : s.Resting all)
    (he : e ∈ s.queues .new ∨ (∃ i : Nat, e ∈ s.queues (.ready i)) ∨ s.proc = some e) :
    MovesToExit s e ↔ e ∉ s.queues .new ∧ s.proc ≠ none := by
  constructor
  · rintro hm
    constructor
    · exact fun hnew => not_moves_new hnew (fun hc => h.ok.placed.cpuFree e hc .new hnew) hm
    · rintro hidle
      obtain ⟨t, -, hr⟩ := hm
      obtain ⟨m, u, hu⟩ := schedExitEnv_idle (e := e) h hidle
      rw [if_neg (by rw [hidle]; nofun), hu] at hr
      cases hr
  · rintro ⟨hnew, hproc⟩
    obtain ⟨cur, hcur⟩ := Option.ne_none_iff_exists'.1 hproc
    rcases he.resolve_left hnew with ⟨i, hq⟩ | hrun
    · obtain ⟨t, ht, hr⟩ := schedExitEnv_ready h hq hcur
      refine ⟨t, ht, ?_⟩
      rw [if_neg fun hc => h.ok.placed.cpuFree e hc _ hq, hr]
    · exact ⟨s.exited e, exited_from_cpu h hrun, by rw [if_pos hrun]; exact schedExitEnv_running h hrun⟩

theorem exit_env_moves_iff_ready : ∃ s, execOps (fun _ _ _ (g : Unit) => g)
    [.create 1, .create 2, .newEnv 1, .newEnv 2, .runAll] (schedInitRR cleared) ∅ () = some (s, ()) ∧
      s.proc = some 1 ∧ 2 ∈ s.queues (.ready 0) ∧ (MovesToExit s 2 ↔ 2 ∉ s.queues .new ∧ s.proc ≠ none) := by
  have hx : (execOps (fun _ _ _ (g : Unit) => g) [.create 1, .create 2, .newEnv 1, .newEnv 2, .runAll]
      (schedInitRR cleared) ∅ ()).any (fun x => x.1.proc = some 1 ∧ 2 ∈ x.1.queues (.ready 0)) = true := by
    decide +kernel
  obtain ⟨⟨s, g⟩, hrun, hx⟩ := (Option.any_eq_true _ _).1 hx
  obtain ⟨hproc, hq⟩ := of_decide_eq_true hx
  obtain ⟨all, hr⟩ := resting_execOps .rr rfl hrun
  exact ⟨s, hrun, hproc, hq, exit_env_moves_iff hr (.inr (.inl ⟨0, hq⟩))⟩

/-- A second process that is loaded while the first runs. -/
theorem new_env_not_moved : ∃ s, execOps (fun _ _ _ (g : Unit) => g)
    [.create 1, .newEnv 1, .runAll, .create 2, .newEnv 2] (schedInitRR cleared) ∅ () = some (s, ()) ∧
      2 ∈ s.queues .new ∧ s.proc = some 1 ∧ ¬ MovesToExit s 2 := by
  have hx : (execOps (fun _ _ _ (g : Unit) => g) [.create 1, .newEnv 1, .runAll, .create 2, .newEnv 2]
      (schedInitRR cleared) ∅ ()).any (fun x => 2 ∈ x.1.queues .new ∧ x.1.proc = some 1) = true := by
    decide +kernel
  obtain ⟨⟨s, g⟩, hrun, hx⟩ := (Option.any_eq_true _ _).1 hx
  obtain ⟨hnew, hproc⟩ := of_decide_eq_true hx
  exact ⟨s, hrun, hnew, hproc, not_moves_new hnew (by rw [hproc]; nofun)⟩

end Exit

/-! ## Kill -/

/-- The call returns, and the environment is free, on no queue and off the CPU. -/
def KillsEnv (s : Sched) (e : Nat) : Prop :=
  ∃ t, schedKillEnv e s = .ok () t ∧ (t.env e).status = .free ∧ (∀ q, e ∉ t.queues q) ∧ t.proc ≠ some e

/-- Every environment is free, and none is on a queue or on the CPU. -/
def KillsAll (s : Sched) (all : Finset Nat) : Prop :=
  ∃ t, schedKillAll s = .ok () t ∧ (∀ e ∈ all, (t.env e).status = .free) ∧ (∀ q, t.queues q = []) ∧ t.proc = none

/-- The environments of some queues are freed. -/
structure Sched.Emptied (s : Sched) (qs : Set QueueId) (t : Sched) : Prop where
  emptied : ∀ q ∈ qs, t.queues q = []
  others : ∀ q ∉ qs, t.queues q = s.queues q
  freed : ∀ q ∈ qs, ∀ e ∈ s.queues q, t.env e = {}
  kept : ∀ e, (∀ q ∈ qs, e ∉ s.queues q) → t.env e = s.env e
  proc : t.proc = s.proc
  num : t.numOfReadyQueues = s.numOfReadyQueues
  method : t.schedulerMethod = s.schedulerMethod

section Emptied

variable {s t u : Sched} {all : Finset Nat} {cpu : Option Nat} {q : QueueId} {e : Nat} {A B : Set QueueId}

theorem emptied_refl (s : Sched) : s.Emptied ∅ s :=
  ⟨nofun, fun _ _ => rfl, nofun, fun _ _ => rfl, rfl, rfl, rfl⟩

theorem Sched.Emptied.trans (h : s.Emptied A t) (h' : t.Emptied B u) : s.Emptied (A ∪ B) u := by
  constructor
  · rintro q hq
    by_cases hB : q ∈ B
    · exact h'.emptied q hB
    · rw [h'.others q hB]
      exact h.emptied q (hq.resolve_right hB)
  · rintro q hq
    rw [Set.mem_union, not_or] at hq
    rw [h'.others q hq.2, h.others q hq.1]
  · rintro q hq e he
    by_cases hA : q ∈ A
    · have ht := h.freed q hA e he
      by_cases hB : ∃ q' ∈ B, e ∈ t.queues q'
      · obtain ⟨q', hq', he'⟩ := hB
        exact h'.freed q' hq' e he'
      · rw [h'.kept e fun q' hq' he' => hB ⟨q', hq', he'⟩, ht]
    · apply h'.freed q (hq.resolve_left hA) e
      rw [h.others q hA]
      exact he
  · rintro e he
    have ht := h.kept e fun q hq => he q (.inl hq)
    rw [h'.kept e ?_, ht]
    rintro q hq
    by_cases hA : q ∈ A
    · rw [h.emptied q hA]
      exact List.not_mem_nil
    · rw [h.others q hA]
      exact he q (.inr hq)
  · rw [h'.proc, h.proc]
  · rw [h'.num, h.num]
  · rw [h'.method, h.method]

/-- The first of a queue is freed before the others. -/
theorem Sched.Emptied.killedFrom {l : List Nat} (hq : s.queues q = e :: l) (he : e ∉ l)
    (h : (s.killedFrom q e).Emptied {q} t) : s.Emptied {q} t := by
  have hself : (s.killedFrom q e).queues q = l := by simp [Sched.killedFrom, hq]
  constructor
  · exact h.emptied
  · rintro q' hne
    rw [h.others q' hne]
    simp [Sched.killedFrom, Set.mem_singleton_iff.not.1 hne]
  · rintro q' rfl f hf
    rw [hq] at hf
    rcases List.mem_cons.1 hf with rfl | hf
    · rw [h.kept f (by rintro q' rfl; rw [hself]; exact he)]
      simp [Sched.killedFrom]
    · exact h.freed q' rfl f (by rw [hself]; exact hf)
  · rintro f hf
    have hout : f ∉ e :: l := hq ▸ hf q rfl
    rw [List.mem_cons, not_or] at hout
    rw [h.kept f (by rintro q' rfl; rw [hself]; exact hout.2)]
    simp [Sched.killedFrom, hout.1]
  · exact h.proc
  · exact h.num
  · exact h.method

theorem killEach_emptied {remove : Nat → SM Unit}
    (hkill : ∀ {s e all}, s.Ok cpu none all → e ∈ s.queues q → (do
      remove e
      envFree e : SM Unit) s = .ok () (s.killedFrom q e)) :
    ∀ {l : List Nat} {s : Sched} {all : Finset Nat}, s.Ok cpu none all → s.queues q = l →
      ∃ t all', killEach remove l s = .ok () t ∧ s.Emptied {q} t ∧ t.Ok cpu none all'
  | [], s, all, h, hq => by
    refine ⟨s, all, rfl, ?_, h⟩
    constructor
    · rintro q' rfl
      exact hq
    · exact fun _ _ => rfl
    · rintro q' rfl e he
      rw [hq] at he
      cases he
    · exact fun _ _ => rfl
    · rfl
    · rfl
    · rfl
  | e :: l, s, all, h, hq => by
    have he : e ∈ s.queues q := hq ▸ List.mem_cons_self
    have hout : e ∉ l := (List.nodup_cons.1 (hq ▸ h.placed.nodup q)).1
    have hself : (s.killedFrom q e).queues q = l := by simp [Sched.killedFrom, hq]
    obtain ⟨t, all', ht, hem, hok⟩ := killEach_emptied hkill (h.killedFrom he) hself
    refine ⟨t, all', ?_, hem.killedFrom hq hout, hok⟩
    rw [killEach, ← bind_assoc, bind_of_ok (hkill h he)]
    exact ht

theorem killLevels_emptied : ∀ (levels : List Nat) {s : Sched} {all : Finset Nat}, s.Ok cpu none all →
    ∃ t all', killLevels levels s = .ok () t ∧ s.Emptied {q | ∃ i ∈ levels, q = .ready (i : Nat)} t ∧ t.Ok cpu none all'
  | [], s, all, h => by
    refine ⟨s, all, rfl, ?_, h⟩
    convert emptied_refl s
    simp
  | i :: levels, s, all, h => by
    obtain ⟨t, all₁, ht, hem, hok⟩ := killEach_emptied (fun _ he => killReady_eq he) h (q := .ready i) rfl
    obtain ⟨u, all₂, hu, hem', hok'⟩ := killLevels_emptied levels hok
    refine ⟨u, all₂, ?_, ?_, hok'⟩
    · rw [killLevels, getS_bind, bind_of_ok ht]
      exact hu
    · convert hem.trans hem' using 1
      ext q
      simp

end Emptied

section Kill

variable {s t : Sched} {all : Finset Nat} {e : Nat}

/-- The loops of `sched_kill_all` free what is on the queues of the scheduler. -/
theorem schedKillAll_loops (h : s.Resting all) : ∃ t all', s.Emptied {q | q.status ≠ .blocked} t ∧
    t.Ok s.proc none all' ∧ schedKillAll s = killRunning t := by
  obtain ⟨r₁, all₁, hr₁, hem₁, hok₁⟩ := killEach_emptied (fun hk he => killNew_eq hk he) h.ok (q := .new) rfl
  obtain ⟨r₂, all₂, hr₂, hem₂, hok₂⟩ := killLevels_emptied (List.range r₁.numOfReadyQueues) hok₁
  obtain ⟨t, all₃, ht, hem₃, hok₃⟩ := killEach_emptied (fun hk he => killExit_eq hk he) hok₂ (q := .exit) rfl
  have hem := (hem₁.trans hem₂).trans hem₃
  have hout : ∀ i : Int, (∀ j < s.numOfReadyQueues, i ≠ j) → s.queues (.ready i) = [] := by
    rintro i hi
    rw [List.eq_nil_iff_forall_not_mem]
    rintro e he
    obtain ⟨h0, hn⟩ := (h.ok.level i e he).2
    exact hi i.toNat (by omega) (by omega)
  refine ⟨t, all₃, ⟨?_, ?_, ?_, ?_, hem.proc, hem.num, hem.method⟩, hok₃, ?_⟩
  · rintro q hq
    by_cases hA : q ∈ ({.new} ∪ {q | ∃ i ∈ List.range r₁.numOfReadyQueues, q = .ready (i : Nat)} ∪
      {.exit} : Set QueueId)
    · exact hem.emptied q hA
    · rw [hem.others q hA]
      cases q with
      | new => exact absurd (.inl (.inl rfl)) hA
      | exit => exact absurd (.inr rfl) hA
      | chan c => exact absurd rfl hq
      | ready i =>
        apply hout
        rintro j hj rfl
        exact hA (.inl (.inr ⟨j, List.mem_range.2 (by rw [hem₁.num]; exact hj), rfl⟩))
  · rintro q hq
    apply hem.others
    rintro ((rfl | ⟨i, -, rfl⟩) | rfl)
    · exact hq nofun
    · exact hq nofun
    · exact hq nofun
  · rintro q hq e he
    refine hem.freed q ?_ e he
    cases q with
    | new => exact .inl (.inl rfl)
    | exit => exact .inr rfl
    | chan c => exact absurd rfl hq
    | ready i =>
      by_cases hi : ∀ j < s.numOfReadyQueues, i ≠ (j : Nat)
      · rw [hout i hi] at he
        cases he
      · push Not at hi
        obtain ⟨j, hj, rfl⟩ := hi
        exact .inl (.inr ⟨j, List.mem_range.2 (by rw [hem₁.num]; exact hj), rfl⟩)
  · rintro e he
    apply hem.kept
    rintro q ((rfl | ⟨i, -, rfl⟩) | rfl)
    · exact he _ nofun
    · exact he _ nofun
    · exact he _ nofun
  · unfold schedKillAll
    rw [getS_bind, bind_of_ok hr₁, getS_bind, bind_of_ok hr₂, getS_bind, bind_of_ok ht]

/-- `sched_kill_all` leaves the sleeping environments and their channels. -/
theorem schedKillAll_spec (h : s.Resting all) : ∃ t, schedKillAll s = .ok () t ∧ t.proc = none ∧
    (∀ q, t.queues q = if q.status = .blocked then s.queues q else []) ∧
    ∀ e ∈ all, t.env e = if (s.env e).status = .blocked then s.env e else {} := by
  obtain ⟨r, all', hem, hok, hr⟩ := schedKillAll_loops h
  have hq : ∀ q, r.queues q = if q.status = .blocked then s.queues q else [] := by
    rintro q
    split
    · next hb => exact hem.others q (not_not.2 hb)
    · next hb => exact hem.emptied q hb
  have hwait : ∀ e ∈ all, s.proc ≠ some e → r.env e = if (s.env e).status = .blocked then s.env e else {} := by
    rintro e he hproc
    obtain ⟨q, hq⟩ : ∃ q, e ∈ s.queues q := by
      rcases h.ok.placed.placed e he with hc | hc | hc
      · exact absurd hc hproc
      · cases hc
      · exact hc
    rw [h.ok.status q e hq]
    split
    · next hb =>
      apply hem.kept
      rintro q' hb' hq'
      exact hb' (h.ok.placed.apart q q' e hq hq' ▸ hb)
    · next hb => exact hem.freed q hb e hq
  unfold killRunning at hr
  rw [getS_bind] at hr
  cases hproc : s.proc with
  | none =>
    rw [hem.proc, hproc] at hr
    exact ⟨_, hr, rfl, hq, fun e he => hwait e he (by rw [hproc]; nofun)⟩
  | some cur =>
    have hrun := hok.running cur hproc
    have hrproc : r.proc = some cur := hem.proc.trans hproc
    simp only [hrproc, hrun, ne_eq, not_true_eq_false, if_false] at hr
    rw [bind_of_ok (envFree_eq cur r), sched_leaving (s := r.setEnv cur {}) hrproc (by simp) (by simp)] at hr
    have hsingle : r.schedulerMethod = .rr → r.numOfReadyQueues = 1 := by
      rw [hem.method, hem.num]
      exact h.single
    obtain ⟨t, ht, hpicks⟩ := schedule_picks (s := (r.setEnv cur {}).withProc none) (hem.num ▸ h.levels) hsingle rfl
    rw [ht] at hr
    cases hpicks with
    | runs hi hl =>
      have hnil := (hq (.ready _)).symm.trans hl
      rw [if_neg nofun] at hnil
      simp at hnil
    | idle =>
      refine ⟨_, hr, rfl, hq, fun e he => ?_⟩
      by_cases hcur : e = cur
      · subst hcur
        simp [h.ok.running e hproc]
      · rw [Sched.withProc_env, Sched.setEnv_env, if_neg hcur]
        exact hwait e he fun hc => hcur (Option.some.inj (hc.symm.trans hproc))

theorem kills_env_iff (h : s.Resting all) (he : e ∈ all) : KillsEnv s e ↔ (s.env e).status ≠ .blocked := by
  rcases schedKillEnv_cases h (e := e) with ⟨q, hne, hq, hr⟩ | ⟨hproc, t, hr, ht⟩ | ⟨hproc, hout, hr⟩
  · refine iff_of_true ⟨_, hr, by simp [Sched.killedFrom], fun q' hq' => ?_, ?_⟩ (h.ok.status q e hq ▸ hne)
    · have hok := h.ok.killedFrom hq
      exact absurd (hok.placed.known q' e hq') (Finset.notMem_erase e all)
    · exact fun hc => h.ok.placed.cpuFree e hc q hq
  · have hok : (s.killedRunning e).Ok none none (all.erase e) := (hproc ▸ h.ok).killedRunning
    have htok := ht.ok hok rfl
    have hgone : e ∉ all.erase e := Finset.notMem_erase e all
    refine iff_of_true ⟨t, hr, ?_, fun q hq => ?_, fun hc => ?_⟩ (by rw [h.ok.running e hproc]; decide)
    · rw [ht.env_off fun q hq => hgone (hok.placed.known q e hq)]
      simp [Sched.killedRunning]
    · exact hgone (htok.placed.known q e hq)
    · exact hgone (htok.placed.cpuKnown e hc)
  · -- on no queue that the search looks at, so on a channel
    obtain ⟨q, hq⟩ : ∃ q, e ∈ s.queues q := by
      rcases h.ok.placed.placed e he with hc | hc | hc
      · exact absurd hc hproc
      · cases hc
      · exact hc
    have hb : (s.env e).status = .blocked := by
      rw [h.ok.status q e hq]
      by_contra hb
      exact hout q hb hq
    refine iff_of_false ?_ (not_not.2 hb)
    rintro ⟨t, ht, hfree, -⟩
    rcases hr with ⟨m, hr⟩ | hr
    · rw [hr] at ht
      cases ht
    · rw [hr] at ht
      cases ht
      rw [hb] at hfree
      cases hfree

theorem kills_all_iff (h : s.Resting all) : KillsAll s all ↔ ∀ e ∈ all, (s.env e).status ≠ .blocked := by
  obtain ⟨t, hr, hproc, hq, henv⟩ := schedKillAll_spec h
  constructor
  · rintro ⟨t', hr', hfree, -⟩ e he hb
    rw [hr] at hr'
    cases hr'
    have := hfree e he
    rw [henv e he, if_pos hb, hb] at this
    cases this
  · rintro hb
    refine ⟨t, hr, fun e he => ?_, fun q => ?_, hproc⟩
    · rw [henv e he, if_neg (hb e he)]
    · rw [hq q]
      split
      · next hs =>
        rw [List.eq_nil_iff_forall_not_mem]
        rintro e he
        exact hb e (h.ok.placed.known q e he) ((h.ok.status q e he).trans hs)
      · rfl

/-- `sched_kill_env` kills exactly the environments that do not sleep, and `sched_kill_all` all of them if none does. -/
theorem kills_live_envs_iff (h : s.Resting all) : (∀ e ∈ all, KillsEnv s e ↔ (s.env e).status ≠ .blocked) ∧
    (KillsAll s all ↔ ∀ e ∈ all, (s.env e).status ≠ .blocked) :=
  ⟨fun _ he => kills_env_iff h he, kills_all_iff h⟩

theorem kills_live_envs_iff_asleep : ∃ s all, execOps (fun _ _ _ (g : Unit) => g)
    [.create 1, .create 2, .newEnv 1, .newEnv 2, .runAll, .sleep 0] (schedInitRR cleared) ∅ () = some (s, ()) ∧
      s.Resting all ∧ (∀ e ∈ all, KillsEnv s e ↔ (s.env e).status ≠ .blocked) ∧
      (KillsAll s all ↔ ∀ e ∈ all, (s.env e).status ≠ .blocked) := by
  have hx : (execOps (fun _ _ _ (g : Unit) => g) [.create 1, .create 2, .newEnv 1, .newEnv 2, .runAll, .sleep 0]
      (schedInitRR cleared) ∅ ()).isSome = true := by
    decide +kernel
  obtain ⟨⟨s, g⟩, hrun⟩ := Option.isSome_iff_exists.1 hx
  obtain ⟨all, hr⟩ := resting_execOps .rr rfl hrun
  exact ⟨s, all, hrun, hr, kills_live_envs_iff hr⟩

/-- A process asleep on a channel. -/
theorem sleeping_env_not_killed : ∃ s all, execOps (fun _ _ _ (g : Unit) => g)
    [.create 1, .create 2, .newEnv 1, .newEnv 2, .runAll, .sleep 0] (schedInitRR cleared) ∅ () = some (s, ()) ∧
      s.Resting all ∧ 1 ∈ all ∧ 1 ∈ s.queues (.chan 0) ∧ ¬ KillsEnv s 1 ∧ ¬ KillsAll s all := by
  have hx : (execOps (fun _ _ _ (g : Unit) => g) [.create 1, .create 2, .newEnv 1, .newEnv 2, .runAll, .sleep 0]
      (schedInitRR cleared) ∅ ()).any (fun x => 1 ∈ x.1.queues (.chan 0)) = true := by
    decide +kernel
  obtain ⟨⟨s, g⟩, hrun, hx⟩ := (Option.any_eq_true _ _).1 hx
  have hq : 1 ∈ s.queues (.chan 0) := of_decide_eq_true hx
  obtain ⟨all, hr⟩ := resting_execOps .rr rfl hrun
  have hall := hr.ok.placed.known _ 1 hq
  have hb : (s.env 1).status = .blocked := hr.ok.status _ 1 hq
  exact ⟨s, all, hrun, hr, hall, hq, fun hk => (kills_env_iff hr hall).1 hk hb,
    fun hk => (kills_all_iff hr).1 hk 1 hall hb⟩

end Kill

end Fos.Cpu
