/-
The choice of the priority scheduler: the lowest level that is not empty, and among the environments of
one level the one that has arrived first. Every arrival on a ready queue is stamped with its number.
-/
import Fos.Cpu.Placement

namespace Fos.Cpu

open Fos.Lib

/-! ## The lowest level -/

/-- The environments of a level once the process on the CPU is back among them. -/
def Sched.levelAfter (s : Sched) (i : Nat) : List Nat :=
  match s.proc with
  | some cur => if (s.env cur).priority = i then cur :: s.queues (.ready i) else s.queues (.ready i)
  | none => s.queues (.ready i)

/-- The scheduler returns one of the lowest level that is not empty, and none only if all are empty. -/
def Sched.PicksLowest (s : Sched) : Prop :=
  ∃ next t, fosSchedulerPRIRR s = .ok next t ∧
    match next with
    | some e => ∃ i < s.numOfReadyQueues, e ∈ s.levelAfter i ∧ ∀ j < i, s.levelAfter j = []
    | none => ∀ i < s.numOfReadyQueues, s.levelAfter i = []

theorem picksLowest_of_queues {s r : Sched} (hs : fosSchedulerPRIRR s = chooseNext (List.range r.numOfReadyQueues) r)
    (hn : r.numOfReadyQueues = s.numOfReadyQueues) (hq : ∀ i : Nat, r.queues (.ready i) = s.levelAfter i) :
      s.PicksLowest := by
  rcases chooseNext_range (s := r) with ⟨hnone, h⟩ | ⟨i, hi, l, e, hl, hfirst, h⟩
  · refine ⟨none, r, hs.trans h, fun i hi => ?_⟩
    rw [← hq]
    exact hnone i (by omega)
  · refine ⟨some e, _, hs.trans h, i, by omega, ?_, fun j hj => ?_⟩
    · rw [← hq, hl]
      simp
    · rw [← hq]
      exact hfirst j hj

/-- From any state, provided that the process on the CPU has a level to go back to. -/
theorem picksLowest_iff {s : Sched} (hm : s.schedulerMethod = .prirr) :
    s.PicksLowest ↔ ∀ cur, s.proc = some cur → s.InRange (s.env cur).priority := by
  constructor
  · rintro ⟨next, t, h, -⟩ cur hproc
    by_contra hp
    rw [fosSchedulerPRIRR_outside hproc hp] at h
    cases h
  · intro hp
    cases hproc : s.proc with
    | none =>
      refine picksLowest_of_queues (r := s) ?_ rfl fun i => ?_
      · unfold fosSchedulerPRIRR
        rw [getS_bind]
        simp only [hproc]
        rfl
      · simp only [Sched.levelAfter, hproc]
    | some cur =>
      refine picksLowest_of_queues (r := s.reinserted cur) (fosSchedulerPRIRR_some hproc hm (hp cur hproc)) rfl
        fun i => ?_
      simp only [Sched.levelAfter, hproc, Sched.reinserted, Sched.preempted, Sched.withProc_queues,
        Sched.leaveTo_queues]
      by_cases hi : (s.env cur).priority = i
      · simp [hi]
      · have hi' : ¬ (i : Int) = (s.env cur).priority := fun h => hi h.symm
        simp [hi, hi']

/-! ## Arrivals -/

/-- The number of the last arrival of each environment, and how many there were. -/
structure Arrivals where
  stamp : Nat → Nat
  count : Nat

def Arrivals.arrive (g : Arrivals) : List Nat → Arrivals
  | [] => g
  | e :: l => Arrivals.arrive ⟨Function.update g.stamp e g.count, g.count + 1⟩ l

/-- The environments that a call inserts into ready queues, in order. -/
def arriving (s : Sched) : Op → List Nat
  | .runEnv envId => if envId ∈ s.queues .new then [envId] else []
  | .runAll => (s.queues .new).reverse
  | .yield | .tick => s.proc.toList
  | .wakeupOne c => (s.queues (.chan c)).getLast?.toList
  | .wakeupAll c => (s.queues (.chan c)).reverse
  | _ => []

def stampArrivals (s : Sched) (op : Op) (_ : Sched) (g : Arrivals) : Arrivals := g.arrive (arriving s op)

/-- The calls that end with the choice of the next process. -/
def Dispatches (s : Sched) : Op → Prop
  | .dispatch | .yield | .sleep _ | .envExit | .tick | .runAll => True
  | .runEnv envId => envId ∈ s.queues .new ∧ s.started = false
  | .killEnv envId => s.proc = some envId
  | _ => False

/-- A call that gives no priority, or a tick that promotes nobody. -/
def Steady (s : Sched) : Op → Prop
  | .setPriority _ _ => False
  | .tick => ∀ e, (s.env e).status = .ready → ¬ s.Starved e
  | _ => True

def World.Steady {γ : Type} : World γ → Op → Prop
  | .at s _ _, op => Cpu.Steady s op
  | .lost, _ => True

/-- A step without promotion or priority change. -/
def SteadyStep (w : World Arrivals) (op : Op) (w' : World Arrivals) : Prop := Step stampArrivals w op w' ∧ w.Steady op

/-- The process that a call dispatches arrived on its level before all that are left there. -/
def World.DispatchesFirst : World Arrivals → Op → Prop
  | .at s _ g, op => Dispatches s op → ∀ t, op.code s = .ok () t → ∀ e, t.proc = some e →
      ∀ f ∈ t.queues (.ready (t.env e).priority), (stampArrivals s op t g).stamp e < (stampArrivals s op t g).stamp f
  | .lost, _ => True

def World.Running : World Arrivals → Prop
  | .at _ _ _ => True
  | .lost => False

/-- Each ready queue is in the order of arrival, the newest first. -/
structure Sched.InOrder (s : Sched) (g : Arrivals) : Prop where
  sorted : ∀ i, (s.queues (.ready i)).Pairwise fun e f => g.stamp f < g.stamp e
  past : ∀ i, ∀ e ∈ s.queues (.ready i), g.stamp e < g.count

section InOrder

variable {s r t : Sched} {g : Arrivals} {e : Nat} {q : QueueId} {admitted : Finset Nat} {op : Op} {cpu : Option Nat}

theorem Sched.InOrder.congr (h : s.InOrder g) (hq : ∀ i, t.queues (.ready i) = s.queues (.ready i)) : t.InOrder g := by
  constructor
  · intro i
    rw [hq]
    exact h.sorted i
  · intro i
    rw [hq]
    exact h.past i

/-- Environments taken off the ready queues. -/
theorem Sched.InOrder.sublist (h : s.InOrder g) (hq : ∀ i, (t.queues (.ready i)).Sublist (s.queues (.ready i))) :
    t.InOrder g :=
  ⟨fun i => (h.sorted i).sublist (hq i), fun i e he => h.past i e ((hq i).subset he)⟩

/-- One more arrival. -/
theorem Sched.InOrder.arrive (h : s.InOrder g) {p : Int} (hoff : ∀ i, e ∉ s.queues (.ready i))
    (hq : ∀ i, t.queues (.ready i) = if i = p then e :: s.queues (.ready i) else s.queues (.ready i)) :
    t.InOrder (g.arrive [e]) := by
  have hother : ∀ i, ∀ f ∈ s.queues (.ready i), (g.arrive [e]).stamp f = g.stamp f := by
    rintro i f hf
    have hne : f ≠ e := fun hfe => hoff i (hfe ▸ hf)
    exact Function.update_of_ne hne _ _
  have hself : (g.arrive [e]).stamp e = g.count := Function.update_self _ _ _
  have hsorted : ∀ i, (s.queues (.ready i)).Pairwise fun f f' => (g.arrive [e]).stamp f' < (g.arrive [e]).stamp f := by
    intro i
    refine (h.sorted i).imp_of_mem ?_
    rintro f f' hf hf' hlt
    rwa [hother i f hf, hother i f' hf']
  have hpast : ∀ i, ∀ f ∈ s.queues (.ready i), (g.arrive [e]).stamp f < g.count := by
    rintro i f hf
    rw [hother i f hf]
    exact h.past i f hf
  constructor
  · intro i
    rw [hq]
    split
    · refine List.pairwise_cons.2 ⟨fun f hf => ?_, hsorted i⟩
      rw [hself]
      exact hpast i f hf
    · exact hsorted i
  · intro i f hf
    show _ < g.count + 1
    rw [hq] at hf
    split at hf
    · rcases List.mem_cons.1 hf with rfl | hf
      · rw [hself]
        exact Nat.lt_succ_self _
      · exact (hpast i f hf).trans (Nat.lt_succ_self _)
    · exact (hpast i f hf).trans (Nat.lt_succ_self _)

theorem Arrivals.arrive_cons (g : Arrivals) (e : Nat) (l : List Nat) :
    g.arrive (e :: l) = (g.arrive [e]).arrive l := rfl

theorem Sched.InOrder.moveReady (h : s.InOrder g) (hok : s.Ok cpu none admitted) (hq : ∀ i, q ≠ .ready i)
    (he : e ∈ s.queues q) :
    (s.moveReady q e).InOrder (g.arrive [e]) := by
  apply h.arrive (p := (s.env e).priority) (fun i hi => hq i (hok.placed.apart q _ e he hi))
  intro i
  unfold Sched.moveReady
  rw [Sched.insertedReady_queues]
  have hne : ∀ i, ¬ (QueueId.ready i = q) := fun i h => hq i h.symm
  by_cases hi : i = (s.env e).priority
  · simp [hi, hne]
  · simp [hi, hne]

theorem Sched.InOrder.moveAll (hq : ∀ i, q ≠ .ready i) : ∀ {l : List Nat} {s : Sched} {g : Arrivals}, s.InOrder g →
    s.Ok cpu none admitted → s.queues q = l.reverse → (∀ e ∈ l, s.InRange (s.env e).priority) →
      (s.moveAll q l).InOrder (g.arrive l)
  | [], _, _, h, _, _, _ => h
  | e :: l, s, g, h, hok, hl, hp => by
    rw [List.reverse_cons] at hl
    have he : e ∈ s.queues q := by rw [hl]; simp
    rw [Arrivals.arrive_cons]
    apply Sched.InOrder.moveAll hq (h.moveReady hok hq he) (hok.moveReady he (hp e List.mem_cons_self))
      (hok.moveReady_queue hl hq)
    rintro f hf
    rw [Sched.moveReady_priority]
    exact hp f (List.mem_cons_of_mem _ hf)

theorem Sched.InOrder.preempted {cur : Nat} (h : s.InOrder g) (hok : s.Ok (some cur) none admitted) :
    (s.preempted cur).InOrder (g.arrive [cur]) := by
  apply h.arrive (p := (s.env cur).priority) (fun i => hok.placed.cpuFree cur rfl _)
  intro i
  unfold Sched.preempted
  rw [Sched.leaveTo_queues]
  by_cases hi : i = (s.env cur).priority
  · simp [hi]
  · simp [hi]

/-- The choice takes the one that arrived first on its level. -/
theorem Sched.Picks.inOrder (ht : r.Picks t) (h : r.InOrder g) (hok : r.Ok none none admitted) (hproc : r.proc = none) :
    t.InOrder g ∧ ∀ e, t.proc = some e → ∀ f ∈ t.queues (.ready (t.env e).priority), g.stamp e < g.stamp f := by
  cases ht with
  | idle =>
    refine ⟨h, fun e he => ?_⟩
    rw [hproc] at he
    cases he
  | @runs i l e hi hl hfirst =>
    refine ⟨h.sublist fun j => ?_, fun e' he' f hf => ?_⟩
    · rw [Sched.dispatched_queues]
      split
      · next hj =>
        rw [hj, hl]
        exact List.sublist_append_left l [e]
      · exact List.Sublist.refl _
    · cases he'
      have hpr : (r.env e).priority = i := (hok.level i e (by rw [hl]; simp)).1
      rw [Sched.dispatched_env, if_pos rfl, Sched.dispatched_queues] at hf
      simp only [hpr, if_true] at hf
      have hs := h.sorted i
      rw [hl, List.pairwise_append] at hs
      exact hs.2.2 f hf e (by simp)

/-- A tick that promotes nobody leaves the queues as they are. -/
theorem Ages.queues (hst : ∀ e, (s.env e).status = .ready → ¬ s.Starved e) (hr : Ages s admitted r) :
    r.queues = s.queues := by
  cases hr with
  | rr hm => rfl
  | prirr hm hk => exact hk.kept fun e hs _ => hst e hs

/-- What a call that fits does to the order of arrival. -/
theorem Effect.inOrder (h : s.Resting admitted) (hst : Steady s op) (ho : s.InOrder g) (he : Effect s admitted op t) :
    t.InOrder (g.arrive (arriving s op)) ∧ (Dispatches s op → ∀ e, t.proc = some e →
      ∀ f ∈ t.queues (.ready (t.env e).priority),
        (g.arrive (arriving s op)).stamp e < (g.arrive (arriving s op)).stamp f) := by
  have hpick : ∀ {r : Sched} {g' : Arrivals} {all : Finset Nat}, r.Picks t → r.InOrder g' → r.Ok none none all →
      r.proc = none →
      t.InOrder g' ∧ (Dispatches s op → ∀ e, t.proc = some e →
        ∀ f ∈ t.queues (.ready (t.env e).priority), g'.stamp e < g'.stamp f) := by
    rintro r g' all ht ho hok hproc
    obtain ⟨h1, h2⟩ := ht.inOrder ho hok hproc
    exact ⟨h1, fun _ => h2⟩
  have hcur : ∀ {cur : Nat}, s.proc = some cur → s.Ok (some cur) none admitted := by
    rintro cur hproc
    rw [← hproc]
    exact h.ok
  cases he with
  | create => exact ⟨ho.congr fun _ => rfl, fun hd => hd.elim⟩
  | newEnv => exact ⟨ho.congr fun _ => by simp [Sched.admitted], fun hd => hd.elim⟩
  | runNone hq =>
    rw [arriving, if_neg hq]
    exact ⟨ho, fun hd => absurd hd.1 hq⟩
  | runOne hq hp hs =>
    rw [arriving, if_pos hq]
    refine ⟨ho.moveReady h.ok (by simp) hq, fun hd => ?_⟩
    have hd := hd.2
    rw [hs] at hd
    cases hd
  | runFirst hq hp ht hs =>
    rw [arriving, if_pos hq]
    have hok := h.ok.moveReady hq hp
    rw [h.stopped hs] at hok
    exact hpick ht ((ho.moveReady h.ok (by simp) hq).congr fun _ => rfl) (hok.congr rfl rfl rfl) rfl
  | runAll hp hs ht =>
    have hp' : ∀ e ∈ (s.queues .new).reverse, s.InRange (s.env e).priority := by simpa using hp
    have hok := h.ok.moveAll (q := .new) (by simp) (List.reverse_reverse _).symm hp'
    rw [h.stopped hs] at hok
    exact hpick ht ((ho.moveAll (by simp) h.ok (List.reverse_reverse _).symm hp').congr fun _ => rfl)
      (hok.congr rfl rfl rfl) rfl
  | dispatch hproc ht =>
    have hok := h.ok
    rw [hproc] at hok
    exact hpick ht ho hok hproc
  | prompt hproc => exact ⟨ho.congr fun _ => rfl, fun hd => hd.elim⟩
  | yield hproc hp ht =>
    rw [arriving, hproc]
    exact hpick ht (ho.preempted (hcur hproc)) ((hcur hproc).preempted hp) rfl
  | sleep hproc ht =>
    exact hpick ht (ho.congr fun _ => by simp [Sched.blocked]) ((hcur hproc).blocked _) rfl
  | wakeNone hq =>
    rw [arriving, hq]
    exact ⟨ho, fun hd => hd.elim⟩
  | wakeOne hq hp =>
    rw [arriving, hq, List.getLast?_concat]
    exact ⟨ho.moveReady h.ok (by simp) (by rw [hq]; simp), fun hd => hd.elim⟩
  | wakeAll hp =>
    exact ⟨ho.moveAll (by simp) h.ok (List.reverse_reverse _).symm (by simpa using hp), fun hd => hd.elim⟩
  | exit hproc ht =>
    exact hpick ht (ho.congr fun _ => by simp [Sched.exited]) (hcur hproc).exited rfl
  | killNone hproc => exact ⟨ho, fun hd => absurd hd hproc⟩
  | kill hq =>
    refine ⟨ho.sublist fun i => ?_, fun hd => absurd hq (h.ok.placed.cpuFree _ hd _)⟩
    simp only [Sched.killedFrom, Sched.setEnv_queues, Sched.setQueue_queues]
    split
    · next hi =>
      rw [hi]
      exact List.erase_sublist
    · exact List.Sublist.refl _
  | killRunning hproc ht =>
    exact hpick ht (ho.congr fun _ => rfl) (hcur hproc).killedRunning rfl
  | setPriority | setReady => exact hst.elim
  | tickIdle ht hproc =>
    rw [arriving, hproc]
    refine ⟨ho.congr fun i => by rw [ht.queues hst], fun _ e he => ?_⟩
    rw [ht.proc, hproc] at he
    cases he
  | tick hr hproc hp ht =>
    rw [arriving, hproc]
    have hrcur := (hr.resting h).ok
    rw [hr.proc, hproc] at hrcur
    exact hpick ht ((ho.congr fun i => by rw [hr.queues hst]).preempted hrcur)
      (hrcur.preempted ((hr.inRange h hproc).2 hp)) rfl

end InOrder

/-! ## Runs -/

theorem idxOf_reverse {l : List Nat} (hl : l.Nodup) {k : Nat} (hk : k < l.length) :
    l.reverse.idxOf l[k] = l.length - 1 - k := by
  have hk' : l.length - 1 - k < l.reverse.length := by rw [List.length_reverse]; omega
  have hget : l.reverse[l.length - 1 - k] = l[k] := by
    rw [List.getElem_reverse]
    congr 1
    omega
  rw [← hget]
  exact (List.nodup_reverse.2 hl).idxOf_getElem _ hk'

/-- The order of the ready queues is an order of arrival. -/
theorem Sched.Resting.exists_inOrder {s : Sched} {all : Finset Nat} (h : s.Resting all) : ∃ g, s.InOrder g := by
  refine ⟨⟨fun e => (s.queues (.ready (s.env e).priority)).reverse.idxOf e, all.card⟩, fun i => ?_, fun i e he => ?_⟩
  · have hnd := h.ok.placed.nodup (.ready i)
    rw [List.pairwise_iff_getElem]
    rintro j k hj hk hjk
    have hpj := (h.ok.level i _ (List.getElem_mem hj)).1
    have hpk := (h.ok.level i _ (List.getElem_mem hk)).1
    simp only [hpj, hpk]
    rw [idxOf_reverse hnd hj, idxOf_reverse hnd hk]
    omega
  · have hpe := (h.ok.level i e he).1
    have hlt := List.idxOf_lt_length_of_mem (List.mem_reverse.2 he)
    have hsub : (s.queues (.ready i)).toFinset ⊆ all := fun f hf => h.ok.placed.known _ f (List.mem_toFinset.1 hf)
    have hcard := Finset.card_le_card hsub
    rw [List.toFinset_card_of_nodup (h.ok.placed.nodup _)] at hcard
    rw [List.length_reverse] at hlt
    simp only [hpe]
    omega

/-- A resting state of the priority scheduler with the ready queues in the order of arrival. -/
def World.InOrder : World Arrivals → Prop
  | .at s admitted g => s.Resting admitted ∧ s.schedulerMethod = .prirr ∧ s.InOrder g
  | .lost => False

section Run

variable {w w' : World Arrivals} {op : Op}

theorem SteadyStep.inOrder (hI : w.InOrder) (hf : w.Fits op) (hs : SteadyStep w op w') :
    w.DispatchesFirst op ∧ w'.InOrder := by
  obtain ⟨hs, hst⟩ := hs
  cases w with
  | lost => exact hI.elim
  | «at» s admitted g =>
    obtain ⟨h, hm, ho⟩ := hI
    obtain ⟨t, rfl, hl, he, hr⟩ := hs.fits h hf
    obtain ⟨ho', -⟩ := he.inOrder h hst ho
    refine ⟨fun hd t' hc => ?_, hr, he.settings.2.trans hm, ho'⟩
    rcases code_effect h hl hf with ⟨t'', hc', he'⟩ | ⟨m, t'', hc'⟩
    · rw [hc] at hc'
      cases hc'
      exact (he'.inOrder h hst ho).2 hd
    · rw [hc] at hc'
      cases hc'

theorem SteadyStep.fits (hI : w.InOrder) (hs : SteadyStep w op w') (hP : w'.Running) : w.Fits op := by
  cases w with
  | lost => exact hI.elim
  | «at» s admitted g =>
    by_contra hf
    rw [hs.1.outside hI.1 hI.2.1 hf] at hP
    exact hP.elim

/-- The priority scheduler returns an environment of the lowest level that is not empty exactly when the process
on the CPU, if any, has a level to go back to. Without promotions and priority changes the environments of a level
are dispatched in the order of their arrival in exactly the runs that insert only environments with a level for
their priority. -/
theorem lowest_level_first_in_first_out {s : Sched} (hm : s.schedulerMethod = .prirr) :
    (s.PicksLowest ↔ ∀ cur, s.proc = some cur → s.InRange (s.env cur).priority) ∧
      ∀ admitted, s.Resting admitted → (∃ g, s.InOrder g) ∧ ∀ g, s.InOrder g → ∀ ops,
        (Always SteadyStep World.Running (.at s admitted g) ops ∧
          Each SteadyStep World.DispatchesFirst (.at s admitted g) ops ↔
          Each SteadyStep World.Fits (.at s admitted g) ops) := by
  refine ⟨picksLowest_iff hm, fun admitted h => ⟨h.exists_inOrder, fun g ho ops => ?_⟩⟩
  have hI : (World.at s admitted g).InOrder := ⟨h, hm, ho⟩
  refine always_each_iff (fun w hw => ?_) (fun _ _ _ hI hC hs => hs.inOrder hI hC)
    (fun _ _ _ hI hs _ hP => hs.fits hI hP) hI
  cases w with
  | lost => exact hw.elim
  | «at» => trivial

/-- The two READY processes are dispatched in their order. -/
theorem lowest_level_first_in_first_out_two : (twoReady (schedInitPRIRR cleared 10 5)).PicksLowest ∧
    ∃ g, (twoReady (schedInitPRIRR cleared 10 5)).InOrder g ∧ ∀ ops,
      (Always SteadyStep World.Running (.at (twoReady (schedInitPRIRR cleared 10 5)) {1, 2} g) ops ∧
          Each SteadyStep World.DispatchesFirst (.at (twoReady (schedInitPRIRR cleared 10 5)) {1, 2} g) ops ↔
        Each SteadyStep World.Fits (.at (twoReady (schedInitPRIRR cleared 10 5)) {1, 2} g) ops) := by
  have hinit : Initial (schedInitPRIRR cleared 10 5) := .prirr (by decide) (by decide) (by decide)
  obtain ⟨hpicks, hruns⟩ := @lowest_level_first_in_first_out (twoReady (schedInitPRIRR cleared 10 5)) rfl
  obtain ⟨⟨g, hg⟩, hall⟩ := hruns {1, 2} hinit.twoReady
  exact ⟨hpicks.2 (fun cur hcur => by cases hcur), g, hg, hall g hg⟩

/-- A process that has given itself the priority 10 of ten levels has no level to go back to. -/
theorem preempted_without_level :
    ∃ s, execOps (fun _ _ _ (g : Unit) => g) [.create 1, .newEnv 1, .runAll, .setPriority 1 10]
    (schedInitPRIRR cleared 10 5) ∅ () = some (s, ()) ∧ s.schedulerMethod = .prirr ∧ ¬ s.PicksLowest := by
  have hx : (execOps (fun _ _ _ (g : Unit) => g) [.create 1, .newEnv 1, .runAll, .setPriority 1 10]
      (schedInitPRIRR cleared 10 5) ∅ ()).any
        (fun x => x.1.schedulerMethod = .prirr ∧ x.1.proc = some 1 ∧ ¬ x.1.InRange (x.1.env 1).priority) = true := by
    decide +kernel
  obtain ⟨⟨s, g⟩, hrun, hx⟩ := (Option.any_eq_true _ _).1 hx
  obtain ⟨hm, hproc, hp⟩ := of_decide_eq_true hx
  exact ⟨s, hrun, hm, fun h => hp ((picksLowest_iff hm).1 h 1 hproc)⟩

end Run

end Fos.Cpu
