/-
Where environments are in every state of a run: what it is to be in one place, and that priorities stay in range; with
any priorities the ready queues are right exactly as long as what is inserted fits.
-/
import Fos.Cpu.Run

namespace Fos.Cpu

open Fos.Lib

/-! ## One place each -/

inductive Place where
  | queue (q : QueueId)
  | cpu

def Place.Holds (s : Sched) (e : Nat) : Place → Prop
  | .queue q => e ∈ s.queues q
  | .cpu => s.proc = some e

def Place.status : Place → EnvStatus
  | .queue q => q.status
  | .cpu => .running

/-- The environment is in exactly one place, once, and its `env_status` says which kind. -/
structure Sched.OnePlace (s : Sched) (e : Nat) : Prop where
  place : ∃! p : Place, p.Holds s e
  once : ∀ q, (s.queues q).count e ≤ 1
  real : ∀ q, e ∈ s.queues q → s.Has q
  agrees : ∀ p : Place, p.Holds s e → (s.env e).status = p.status

theorem Sched.Ok.onePlace {s : Sched} {cpu : Option Nat} {all : Finset Nat} {e : Nat} (h : s.Ok cpu none all)
    (he : e ∈ all)
    (hcpu : s.proc = some e ↔ cpu = some e) : s.OnePlace e := by
  have hq : ∀ q, e ∈ s.queues q → (Place.queue q).Holds s e ∧ ∀ p : Place, p.Holds s e → p = .queue q := by
    rintro q hq
    refine ⟨hq, fun p hp => ?_⟩
    cases p with
    | queue q' => rw [h.placed.apart q' q e hp hq]
    | cpu => exact absurd hq (h.placed.cpuFree e (hcpu.1 hp) q)
  refine ⟨?_, fun q => List.nodup_iff_count_le_one.1 (h.placed.nodup q) e, fun q hq => ?_, fun p hp => ?_⟩
  · rcases h.placed.placed e he with hc | hc | ⟨q, hmem⟩
    · refine ⟨.cpu, hcpu.2 hc, fun p hp => ?_⟩
      cases p with
      | queue q => exact absurd hp (h.placed.cpuFree e hc q)
      | cpu => rfl
    · cases hc
    · exact ⟨.queue q, hq q hmem⟩
  · cases q with
    | ready i => exact (h.level i e hq).2
    | new | exit | chan c => trivial
  · cases p with
    | queue q => exact h.status q e hp
    | cpu => exact h.running e (hcpu.1 hp)

/-- The priority given is in range, and no environment of level 0 has waited beyond the threshold at a tick. -/
def Proper (s : Sched) : Op → Prop
  | .setPriority _ priority => s.InRange priority
  | .tick => s.schedulerMethod = .prirr → ∀ e ∈ s.queues (.ready 0), ¬ s.Starved e
  | _ => True

def World.Proper {γ : Type} : World γ → Op → Prop
  | .at s _ _, op => Cpu.Proper s op
  | .lost, _ => True

/-- All priorities are levels. -/
def World.Leveled {γ : Type} : World γ → Prop
  | .at s admitted _ => s.Resting admitted ∧ ∀ e, s.InRange (s.env e).priority
  | .lost => False

section Placement

variable {s t r : Sched} {admitted : Finset Nat} {op : Op}

theorem fits_of_leveled (hp : ∀ e, s.InRange (s.env e).priority) (hpr : Proper s op) : Fits s op := by
  cases op with
  | setPriority envId priority => exact fun _ _ _ => hpr
  | tick => exact ⟨hpr, fun cur _ => hp cur⟩
  | runEnv | runAll | yield | wakeupOne | wakeupAll => simp only [Fits, hp, implies_true]
  | create | newEnv | dispatch | prompt | sleep | envExit | killEnv => trivial

theorem Ages.priority (h : s.Resting admitted)
    (h0 : s.schedulerMethod = .prirr → ∀ e ∈ s.queues (.ready 0), ¬ s.Starved e)
    (hp : ∀ e, s.InRange (s.env e).priority) (hr : Ages s admitted r) (e : Nat) : s.InRange (r.env e).priority := by
  cases hr with
  | rr hm => exact hp e
  | prirr hm hk =>
    rw [hk.env]
    split
    · next hst =>
      obtain ⟨h1, h2⟩ := hp e
      by_cases hs : s.Starved e
      · have hne : (s.env e).priority ≠ 0 := by
          intro hz
          have := (h.ok.of_ready hst.1).1
          rw [hz] at this
          exact h0 hm e this hs
        rw [Sched.aged_of_starved hs]
        constructor
        · show 0 ≤ (s.env e).priority - 1
          omega
        · show (s.env e).priority - 1 < s.numOfReadyQueues
          omega
      · rw [Sched.aged_of_not_starved hs]
        exact hp e
    · exact hp e

theorem Effect.priority (h : s.Resting admitted) (hpr : Proper s op) (hp : ∀ e, s.InRange (s.env e).priority)
    (he : Effect s admitted op t) (f : Nat) : s.InRange (t.env f).priority := by
  have hzero : s.InRange 0 := ⟨le_rfl, by exact_mod_cast h.levels⟩
  have hset : ∀ {r : Sched} {e : Nat} {x : Env}, (∀ f, s.InRange (r.env f).priority) → s.InRange x.priority →
      s.InRange ((r.setEnv e x).env f).priority := by
    rintro r e x hr hx
    rw [Sched.setEnv_env]
    split
    · exact hx
    · exact hr f
  have hleave : ∀ {r : Sched} {q : QueueId} {e : Nat} {x : Env}, (∀ f, s.InRange (r.env f).priority) →
      s.InRange x.priority → s.InRange ((r.leaveTo q e x).env f).priority := by
    rintro r q e x hr hx
    rw [Sched.leaveTo_env]
    split
    · exact hx
    · exact hr f
  have hall : ∀ q l, s.InRange ((s.moveAll q l).env f).priority := by
    rintro q l
    by_cases hf : f ∈ l
    · rw [Sched.moveAll_mem hf]
      exact hp f
    · rw [Sched.moveAll_other hf]
      exact hp f
  cases he with
  | create => exact hset hp hzero
  | newEnv => exact hset hp (hp _)
  | runNone | wakeNone | killNone | prompt => exact hp f
  | runOne | wakeOne =>
    rw [Sched.moveReady_priority]
    exact hp f
  | wakeAll hp' => exact hall _ _
  | runFirst hq hp' ht hs =>
    rw [ht.priority]
    show s.InRange ((s.moveReady _ _).env f).priority
    rw [Sched.moveReady_priority]
    exact hp f
  | runAll hp' hs ht =>
    rw [ht.priority]
    exact hall _ _
  | dispatch hproc ht =>
    rw [ht.priority]
    exact hp f
  | yield hproc hp' ht | sleep hproc ht | exit hproc ht =>
    rw [ht.priority]
    exact hleave hp (hp _)
  | kill hq => exact hset hp hzero
  | killRunning hproc ht =>
    rw [ht.priority]
    exact hset hp hzero
  | setPriority hid hs => exact hset hp hpr
  | setReady hid hs hp' =>
    unfold Sched.reprioritised
    rw [insertedReady_env]
    split
    · rw [Sched.setEnv_env, if_pos rfl]
      exact hpr
    · exact hset hp hpr
  | tickIdle ht hproc => exact ht.priority h hpr hp f
  | tick hr hproc hp' ht =>
    rw [ht.priority]
    exact hleave (hr.priority h hpr hp) (hr.priority h hpr hp _)

end Placement

section Run

variable {γ : Type} {update : Sched → Op → Sched → γ → γ} {s : Sched} {g : γ}

theorem Step.leveled {w w' : World γ} {op : Op} (hI : w.Leveled) (hpr : w.Proper op) (hs : Step update w op w') :
    w'.Leveled := by
  cases w with
  | lost => exact hI.elim
  | «at» s admitted g =>
    obtain ⟨hr, hp⟩ := hI
    obtain ⟨t, rfl, hl, he, hrt⟩ := hs.fits hr (fits_of_leveled hp hpr)
    refine ⟨hrt, fun e => ?_⟩
    unfold Sched.InRange
    rw [he.settings.1]
    exact he.priority hr hpr hp e

theorem Initial.leveled (h : Initial s) : (World.at s ∅ g).Leveled := by
  refine ⟨h.resting, fun e => ?_⟩
  cases h with
  | rr => exact ⟨le_rfl, Int.one_pos⟩
  | prirr hn => exact ⟨le_rfl, Int.natCast_pos.2 hn⟩

end Run

/-! ## The ready queues -/

/-- Every READY environment is on the ready queue of its priority, which exists. -/
def World.ReadyFits {γ : Type} : World γ → Prop
  | .at s _ _ => ∀ e, (s.env e).status = .ready →
      s.InRange (s.env e).priority ∧ e ∈ s.queues (.ready (s.env e).priority)
  | .lost => False

def World.Fits {γ : Type} : World γ → Op → Prop
  | .at s _ _, op => Cpu.Fits s op
  | .lost, _ => True

/-- A resting state of the priority scheduler. -/
def World.Prirr {γ : Type} : World γ → Prop
  | .at s admitted _ => s.Resting admitted ∧ s.schedulerMethod = .prirr
  | .lost => False

theorem World.Prirr.readyFits {γ : Type} {w : World γ} (h : w.Prirr) : w.ReadyFits := by
  cases w with
  | lost => exact h.elim
  | «at» s admitted g =>
    intro e hs
    obtain ⟨hq, hr⟩ := h.1.ok.of_ready hs
    exact ⟨hr, hq⟩

theorem Step.prirr {γ : Type} {update : Sched → Op → Sched → γ → γ} {w w' : World γ} {op : Op} (hI : w.Prirr)
    (hf : w.Fits op) (hs : Step update w op w') : w'.Prirr := by
  cases w with
  | lost => exact hI.elim
  | «at» s admitted g =>
    obtain ⟨t, rfl, hl, he, hrt⟩ := hs.fits hI.1 hf
    exact ⟨hrt, he.settings.2.trans hI.2⟩

theorem Initial.prirr_resting {γ : Type} {g : γ} {n k : Nat} (hn : 0 < n) (hn' : n < 256) (hk : k < 4294967296) :
    (World.at (schedInitPRIRR cleared n k) ∅ g).Prirr :=
  ⟨(Initial.prirr hn hn' hk).resting, rfl⟩

/-- Under the priority scheduler the READY environments are on the queues of their priorities, and no call
goes outside of the array, in exactly the runs whose calls insert only environments with a level for their
priority and whose ticks promote none of level 0. -/
theorem ready_envs_fit_iff {n k : Nat} (hn : 0 < n) (hn' : n < 256) (hk : k < 4294967296) (ops : List Op) :
    Always (Step fun _ _ _ (g : Unit) => g) World.ReadyFits (.at (schedInitPRIRR cleared n k) ∅ ()) ops ↔
      Each (Step fun _ _ _ (g : Unit) => g) World.Fits (.at (schedInitPRIRR cleared n k) ∅ ()) ops := by
  apply always_iff_each (I := World.Prirr) (fun _ hw => hw.readyFits) (fun _ _ _ hI hf hs => hs.prirr hI hf) _
    (Initial.prirr_resting hn hn' hk)
  rintro w op w' hI hs hP
  cases w with
  | lost => exact hI.elim
  | «at» s admitted g =>
    by_contra hf
    rw [hs.outside hI.1 hI.2 hf] at hP
    exact hP.elim

theorem ready_envs_fit_iff_ten :
    Always (Step fun _ _ _ (g : Unit) => g) World.ReadyFits (.at (schedInitPRIRR cleared 10 5) ∅ ())
        [.create 1, .newEnv 1, .runAll, .setPriority 1 10, .tick] ↔
      Each (Step fun _ _ _ (g : Unit) => g) World.Fits (.at (schedInitPRIRR cleared 10 5) ∅ ())
        [.create 1, .newEnv 1, .runAll, .setPriority 1 10, .tick] :=
  ready_envs_fit_iff (by decide) (by decide) (by decide) _

/-- A process gives itself the priority 10 of ten levels and is inserted at the next tick. -/
theorem ready_env_outside : ¬ Always (Step fun _ _ _ (g : Unit) => g) World.ReadyFits
    (.at (schedInitPRIRR cleared 10 5) ∅ ()) [.create 1, .newEnv 1, .runAll, .setPriority 1 10, .tick] := by
  intro h
  have h1 := h.2 _ (.returns ⟨by simp, rfl⟩ rfl)
  have h2 := h1.2 _ (.returns ⟨by simp [survivors], rfl⟩ rfl)
  have h3 := h2.2 _ (.returns trivial rfl)
  have h4 := h3.2 _ (.returns trivial rfl)
  exact h4.2 _ (.loses trivial rfl)

end Fos.Cpu
