/-
The semaphore of `kern/conc/ksemaphore.c`. Its spinlock makes a call one step up to the switch to another
process inside `sleep`; what is left of `wait_ksemaphore` after the switch back changes nothing.
-/
import Fos.Conc.SleepLock

namespace Fos.Conc

open Fos.Lib Fos.Cpu

/-! ## The semaphore -/

/-- An `int`. -/
def toInt (x : Int) : Int := (x + 2147483648) % 4294967296 - 2147483648

theorem toInt_of_range {x : Int} (h1 : -2147483648 ≤ x) (h2 : x < 2147483648) : toInt x = x := by
  unfold toInt; omega

theorem toInt_range (x : Int) : -2147483648 ≤ toInt x ∧ toInt x < 2147483648 := by
  unfold toInt; omega

/-- The scheduler and one semaphore. -/
structure SemState where
  sched : Sched
  count : Int

abbrev KSM (α : Type) := EStateM Halt SemState α

/-- A call of the scheduler or of a channel. -/
def aroundSched {α : Type} (x : SM α) : KSM α := fun s =>
  match x s.sched with
  | .ok a t => .ok a { s with sched := t }
  | .error e t => .error e { s with sched := t }

def initKSemaphore (s : SemState) (c : Nat) (value : Int) : SemState := ⟨s.sched.setQueue (.chan c) [], value⟩

/-- `wait_ksemaphore` with channel `c`, to its end or to the switch inside `sleep`. -/
def waitKSemaphore (c : Nat) : KSM Unit := do
  modify fun s => { s with count := toInt (s.count - 1) }
  if (← get).count < 0 then aroundSched (sleep c)

def signalKSemaphore (c : Nat) : KSM Unit := do
  modify fun s => { s with count := toInt (s.count + 1) }
  if (← get).count ≤ 0 then aroundSched (wakeupOne c)

/-! ## The processes -/

/-- What the process on the CPU does, or the scheduler between two processes. -/
inductive SemEvent where
  | wait
  | resume
  | signal
  | other (op : Op)

def SemEvent.code (c : Nat) : SemEvent → KSM Unit
  | .wait => waitKSemaphore c
  | .resume => pure ()
  | .signal => signalKSemaphore c
  | .other op => aroundSched op.code

/-- A state of a run, with what has happened so far. `inside` are the processes that went to sleep in
`wait_ksemaphore` and have not come back; `slept` are those that went to sleep and `released` those that left
the channel, each in its order. -/
structure SemWorld where
  state : SemState
  admitted : Finset Nat
  inside : Finset Nat
  initial : Int
  waits : Nat
  signals : Nat
  passed : Nat
  slept : List Nat
  released : List Nat

/-- The calls that have nothing to do with the semaphore's channel. -/
def Aside (c : Nat) (s : Sched) : Op → Prop
  | .sleep c' | .wakeupOne c' | .wakeupAll c' => c' ≠ c
  | .setPriority _ priority => s.InRange priority
  | _ => True

/-- A process back from `sleep` goes on in `wait_ksemaphore`; any other may do anything else. -/
def SemLegal (c : Nat) (w : SemWorld) : SemEvent → Prop
  | .wait | .signal => ∃ p, w.state.sched.proc = some p ∧ p ∉ w.inside
  | .resume => ∃ p, w.state.sched.proc = some p ∧ p ∈ w.inside
  | .other op => (∀ p, w.state.sched.proc = some p → p ∉ w.inside) ∧ Legal w.state.sched w.admitted op ∧
      Aside c w.state.sched op

/-- The processes that have left the channel, the first to come first. -/
def leaving (c : Nat) (s t : SemState) : List Nat :=
  (s.sched.queues (.chan c)).reverse.filter fun e => e ∉ t.sched.queues (.chan c)

/-- What an event of the process `p` adds. A process that is freed is in no call any more. -/
def SemWorld.after (c : Nat) (w : SemWorld) (t : SemState) (ev : SemEvent) : SemWorld :=
  let w' := { w with state := t, released := w.released ++ leaving c w.state t }
  match ev, w.state.sched.proc with
  | .wait, some p =>
    if p ∈ t.sched.queues (.chan c) then
      { w' with waits := w.waits + 1, inside := insert p w.inside, slept := w.slept ++ [p] }
    else { w' with waits := w.waits + 1, passed := w.passed + 1 }
  | .resume, some p => { w' with inside := w.inside.erase p, passed := w.passed + 1 }
  | .signal, _ => { w' with signals := w.signals + 1 }
  | .other op, _ =>
    { w' with
      admitted := survivors w.admitted op t.sched
      inside := w.inside ∩ survivors w.admitted op t.sched }
  | _, none => w'

/-- A call that panics or goes outside of the ready queues ends the run. -/
def SemStep (c : Nat) (w : SemWorld) (ev : SemEvent) (w' : SemWorld) : Prop :=
  SemLegal c w ev ∧ ∃ t, ev.code c w.state = .ok () t ∧ w' = w.after c t ev

/-- The initial value with the signals so far, less the waits so far. -/
def SemWorld.balance (w : SemWorld) : Int := w.initial + w.signals - w.waits

/-- `count` is the balance, as many processes are blocked as it is below zero, no more have passed than were let
through, and those released are the first that went to sleep. -/
structure SemCounts (c : Nat) (w : SemWorld) : Prop where
  count : w.state.count = w.balance
  blocked : ((w.state.sched.queues (.chan c)).length : Int) = max 0 (-w.state.count)
  passed : (w.passed : Int) ≤ w.initial + w.signals
  fifo : w.slept = w.released ++ (w.state.sched.queues (.chan c)).reverse

/-- A signal releases the process that has been blocked for the longest time, if any is blocked; nothing else
releases any. -/
def ReleasesFirst (c : Nat) (w : SemWorld) (ev : SemEvent) : Prop :=
  ∀ t, ev.code c w.state = .ok () t →
    leaving c w.state t = (match ev with
      | .signal => (w.state.sched.queues (.chan c)).getLast?.toList
      | _ => []) ∧
    ∀ e ∈ leaving c w.state t, (t.sched.env e).status = .ready

/-- The call leaves a balance that an `int` can hold. -/
def Countable (w : SemWorld) : SemEvent → Prop
  | .wait => -2147483648 ≤ w.balance - 1
  | .signal => w.balance + 1 < 2147483648
  | _ => True

/-! ## The invariant -/

structure SemInv (c : Nat) (w : SemWorld) : Prop where
  resting : w.state.sched.Resting w.admitted
  leveled : ∀ e, w.state.sched.InRange (w.state.sched.env e).priority
  range : -2147483648 ≤ w.state.count ∧ w.state.count < 2147483648
  count : w.state.count = w.balance
  blocked : ((w.state.sched.queues (.chan c)).length : Int) = max 0 (-w.state.count)
  inside : ∀ e ∈ w.state.sched.queues (.chan c), e ∈ w.inside
  passed : w.passed + w.inside.card ≤ w.waits
  fifo : w.slept = w.released ++ (w.state.sched.queues (.chan c)).reverse

section KSemaphore

variable {c : Nat} {w w' : SemWorld} {ev : SemEvent}

/-- Those who have passed are not inside, and all who are blocked are. -/
theorem SemInv.counts (h : SemInv c w) : SemCounts c w := by
  refine ⟨h.count, h.blocked, ?_, h.fifo⟩
  have hsub : (w.state.sched.queues (.chan c)).toFinset ⊆ w.inside := fun e he => h.inside e (List.mem_toFinset.1 he)
  have hcard := Finset.card_le_card hsub
  rw [List.toFinset_card_of_nodup (h.resting.ok.placed.nodup _)] at hcard
  have hb := h.blocked
  have hc := h.count
  have hp := h.passed
  unfold SemWorld.balance at hc
  omega

theorem aroundSched_ok {x : SM Unit} {s t : SemState} (h : aroundSched x s = .ok () t) :
    ∃ r, x s.sched = .ok () r ∧ t = { s with sched := r } := by
  unfold aroundSched at h
  cases hx : x s.sched with
  | ok a r =>
    rw [hx] at h
    cases h
    exact ⟨r, rfl, rfl⟩
  | error e r =>
    rw [hx] at h
    cases h

/-! ## The channel -/

/-- A blocked process that is killed stays where it is. -/
theorem kill_blocked {s t : Sched} {all : Finset Nat} {e : Nat} (h : s.Resting all) (he : e ∈ s.queues (.chan c))
    (hc : schedKillEnv e s = .ok () t) : t = s := by
  have hnot : ∀ q, q ≠ .chan c → e ∉ s.queues q := fun q hq hmem => hq (h.ok.placed.apart q _ e hmem he)
  have hcpu : s.proc ≠ some e := fun hp => h.ok.placed.cpuFree e hp _ he
  unfold schedKillEnv at hc
  rw [getS_bind, if_neg (hnot .new (by simp))] at hc
  rcases h.ok.findReady (e := e) with ⟨hf, -⟩ | ⟨i, -, hq, -⟩
  · simp only [hf, if_neg (hnot .exit (by simp))] at hc
    cases hproc : s.proc with
    | none =>
      simp only [hproc] at hc
      cases hc
    | some cur =>
      have hne : cur ≠ e := fun hce => hcpu (hproc.trans (congrArg some hce))
      simp only [hproc, if_neg hne] at hc
      cases hc
      rfl
  · exact absurd hq (hnot _ (by simp))

/-- A call that has nothing to do with the channel leaves it as it is. -/
theorem aside_chan {s t : Sched} {admitted : Finset Nat} {op : Op} (h : s.Resting admitted) (hop : Aside c s op)
    (he : Effect s admitted op t) (hc : op.code s = .ok () t) : t.queues (.chan c) = s.queues (.chan c) := by
  have hpick : ∀ {r : Sched}, r.Picks t → r.queues (.chan c) = s.queues (.chan c) →
      t.queues (.chan c) = s.queues (.chan c) :=
    fun ht hr => (ht.off (by simp)).trans hr
  cases op with
  | envExit =>
    cases he with
    | exit hproc ht => exact hpick ht (by simp [Sched.exited])
  | killEnv envId =>
    by_cases hq : envId ∈ s.queues (.chan c)
    · rw [kill_blocked h hq hc]
    · cases he with
      | killNone => rfl
      | @kill _ q hmem =>
        have hne : .chan c ≠ q := fun heq => hq (heq ▸ hmem)
        simp [Sched.killedFrom, hne]
      | killRunning hproc ht => exact hpick ht rfl
  | create | newEnv | runEnv | runAll | dispatch | prompt | yield | sleep | wakeupOne | wakeupAll | setPriority
  | tick =>
    exact effect_chan (by exact hop) he

theorem leaving_none {s t : SemState} (h : ∀ e ∈ s.sched.queues (.chan c), e ∈ t.sched.queues (.chan c)) :
    leaving c s t = [] := by
  apply List.filter_eq_nil_iff.2
  intro e he
  simpa using h e (List.mem_reverse.1 he)

theorem leaving_one {s t : SemState} {l : List Nat} {e : Nat} (hnd : (s.sched.queues (.chan c)).Nodup)
    (hs : s.sched.queues (.chan c) = l ++ [e]) (ht : t.sched.queues (.chan c) = l) : leaving c s t = [e] := by
  rw [hs, List.nodup_append] at hnd
  have he : e ∉ l := fun hl => hnd.2.2 e hl e (by simp) rfl
  have hl : l.reverse.filter (fun x => decide (x ∉ l)) = [] := by
    apply List.filter_eq_nil_iff.2
    intro x hx
    simpa using hx
  unfold leaving
  rw [hs, ht, List.reverse_append, List.reverse_singleton, List.singleton_append, List.filter_cons,
    if_pos (by simpa using he), hl]

/-- What `sleep` leaves: the process has joined the channel. -/
theorem sleep_joins {s t : Sched} {admitted : Finset Nat} {p : Nat} (h : s.Resting admitted)
    (hp : ∀ e, s.InRange (s.env e).priority) (hproc : s.proc = some p) (hc : sleep c s = .ok () t) :
    t.queues (.chan c) = p :: s.queues (.chan c) ∧ t.Resting admitted ∧ ∀ e, t.InRange (t.env e).priority := by
  obtain ⟨he, hr, hl⟩ := effect_of_leveled (.sleep c) h hp (by simp) (by simp [Legal, hproc]) hc
  rw [survivors_chan h he (.inl rfl)] at hr
  refine ⟨?_, hr, hl⟩
  cases he with
  | @sleep cur _ _ hcur ht =>
    obtain rfl : p = cur := Option.some.inj (hproc.symm.trans hcur)
    rw [ht.off (by simp), Sched.blocked, Sched.leaveTo_queues, if_pos rfl]

/-- What `wakeup_one` leaves: the process that was blocked first is ready. -/
theorem wakeupOne_leaves {s t : Sched} {admitted : Finset Nat} {l : List Nat} {e : Nat} (h : s.Resting admitted)
    (hp : ∀ e, s.InRange (s.env e).priority) (hq : s.queues (.chan c) = l ++ [e]) (hc : wakeupOne c s = .ok () t) :
    t.queues (.chan c) = l ∧ (t.env e).status = .ready ∧ t.Resting admitted ∧ ∀ f, t.InRange (t.env f).priority := by
  obtain ⟨he, hr, hl⟩ := effect_of_leveled (.wakeupOne c) h hp (by simp) trivial hc
  have hok : (s.moveReady (.chan c) e).Ok s.proc none admitted := h.ok.moveReady (by rw [hq]; simp) (hp e)
  rw [wakeupOne_eq h.ok hq (hp e)] at hc
  obtain rfl := (EStateM.Result.ok.inj hc).2
  have hsurv : survivors admitted (.wakeupOne c) (s.moveReady (.chan c) e) = admitted :=
    survivors_eq hok (Finset.Subset.refl _) fun e he hn => absurd he hn
  rw [hsurv] at hr
  exact ⟨h.ok.moveReady_queue hq (by simp), by simp, hr, hl⟩

/-! ## Steps -/

theorem getK_bind {α : Type} (f : SemState → KSM α) (s : SemState) : ((get : KSM SemState) >>= f) s = f s s := rfl

theorem wait_eq (s : SemState) : waitKSemaphore c s =
    if toInt (s.count - 1) < 0 then aroundSched (sleep c) { s with count := toInt (s.count - 1) }
    else .ok () { s with count := toInt (s.count - 1) } := by
  unfold waitKSemaphore
  rw [bind_of_ok (show (modify _ : KSM Unit) s = .ok () { s with count := toInt (s.count - 1) } from rfl), getK_bind]
  split <;> rfl

theorem signal_eq (s : SemState) : signalKSemaphore c s =
    if toInt (s.count + 1) ≤ 0 then aroundSched (wakeupOne c) { s with count := toInt (s.count + 1) }
    else .ok () { s with count := toInt (s.count + 1) } := by
  unfold signalKSemaphore
  rw [bind_of_ok (show (modify _ : KSM Unit) s = .ok () { s with count := toInt (s.count + 1) } from rfl), getK_bind]
  split <;> rfl

/-- A process that waits passes, or is the last of the channel. -/
theorem SemInv.wait {t : SemState} {p : Nat} (h : SemInv c w) (hproc : w.state.sched.proc = some p) (hp : p ∉ w.inside)
    (hC : Countable w .wait) (hc : waitKSemaphore c w.state = .ok () t) :
    leaving c w.state t = [] ∧ SemInv c (w.after c t .wait) := by
  have hcount := h.count
  have hblocked := h.blocked
  have hpassed := h.passed
  have hcpu : p ∉ w.state.sched.queues (.chan c) := h.resting.ok.placed.cpuFree p hproc _
  have hlow : -2147483648 ≤ w.balance - 1 := hC
  have hhigh : w.balance - 1 < 2147483648 := by
    have := h.range.2
    omega
  rw [wait_eq, hcount, toInt_of_range hlow hhigh] at hc
  by_cases hneg : w.balance - 1 < 0
  · rw [if_pos hneg] at hc
    obtain ⟨r, hr, rfl⟩ := aroundSched_ok hc
    obtain ⟨hq, hrest, hlevel⟩ := sleep_joins h.resting h.leveled hproc hr
    have hnone : leaving c w.state { sched := r, count := w.balance - 1 } = [] :=
      leaving_none fun e he => by rw [hq]; exact List.mem_cons_of_mem p he
    refine ⟨hnone, ?_⟩
    simp only [SemWorld.after, hproc, hnone, List.append_nil, hq, List.mem_cons_self, if_true]
    constructor
    · exact hrest
    · exact hlevel
    · exact ⟨hlow, hhigh⟩
    · simp only [SemWorld.balance, Nat.cast_add, Nat.cast_one]
      omega
    · simp only [hq, List.length_cons, Nat.cast_add, Nat.cast_one]
      omega
    · rintro e he
      rcases List.mem_cons.1 (hq ▸ he) with rfl | he
      · exact Finset.mem_insert_self _ _
      · exact Finset.mem_insert_of_mem (h.inside e he)
    · simp only [Finset.card_insert_of_notMem hp]
      omega
    · simp only [hq, List.reverse_cons, h.fifo, List.append_assoc]
  · rw [if_neg hneg] at hc
    cases hc
    have hnone : leaving c w.state { w.state with count := w.balance - 1 } = [] := leaving_none fun e he => he
    refine ⟨hnone, ?_⟩
    simp only [SemWorld.after, hproc, hnone, List.append_nil, if_neg hcpu]
    constructor
    · exact h.resting
    · exact h.leveled
    · exact ⟨hlow, hhigh⟩
    · simp only [SemWorld.balance, Nat.cast_add, Nat.cast_one]
      omega
    · simp only
      omega
    · exact h.inside
    · simp only
      omega
    · exact h.fifo

/-- A signal lets the first of the channel go, and counts it when the channel is empty. -/
theorem SemInv.signal {t : SemState} (h : SemInv c w) (hC : Countable w .signal)
    (hc : signalKSemaphore c w.state = .ok () t) :
    leaving c w.state t = (w.state.sched.queues (.chan c)).getLast?.toList ∧
      (∀ e ∈ leaving c w.state t, (t.sched.env e).status = .ready) ∧ SemInv c (w.after c t .signal) := by
  have hcount := h.count
  have hblocked := h.blocked
  have hpassed := h.passed
  have hhigh : w.balance + 1 < 2147483648 := hC
  have hlow : -2147483648 ≤ w.balance + 1 := by
    have := h.range.1
    omega
  rw [signal_eq, hcount, toInt_of_range hlow hhigh] at hc
  by_cases hpos : w.balance + 1 ≤ 0
  · rw [if_pos hpos] at hc
    obtain ⟨r, hr, rfl⟩ := aroundSched_ok hc
    rcases queue_cases (w.state.sched.queues (.chan c)) with hq | ⟨l, e, hq⟩
    · -- below zero somebody is blocked
      rw [hq, List.length_nil] at hblocked
      omega
    · obtain ⟨hq', hready, hrest, hlevel⟩ := wakeupOne_leaves h.resting h.leveled hq hr
      have hone : leaving c w.state { sched := r, count := w.balance + 1 } = [e] :=
        leaving_one (h.resting.ok.placed.nodup _) hq hq'
      refine ⟨by rw [hone, hq]; simp, ?_, ?_⟩
      · rw [hone]
        rintro f hf
        rw [List.mem_singleton.1 hf]
        exact hready
      · simp only [SemWorld.after, hone]
        rw [hq, List.length_append, List.length_singleton] at hblocked
        constructor
        · exact hrest
        · exact hlevel
        · exact ⟨hlow, hhigh⟩
        · simp only [SemWorld.balance, Nat.cast_add, Nat.cast_one]
          omega
        · simp only [hq']
          omega
        · rintro f hf
          exact h.inside f (by rw [hq]; exact List.mem_append_left _ (hq' ▸ hf))
        · exact hpassed
        · simp only [hq', h.fifo, hq, List.reverse_append, List.reverse_singleton, List.append_assoc]
  · rw [if_neg hpos] at hc
    cases hc
    have hnone : leaving c w.state { w.state with count := w.balance + 1 } = [] := leaving_none fun e he => he
    have hempty : w.state.sched.queues (.chan c) = [] := List.length_eq_zero_iff.1 (by omega)
    refine ⟨by rw [hnone, hempty]; rfl, by simp [hnone], ?_⟩
    simp only [SemWorld.after, hnone, List.append_nil]
    constructor
    · exact h.resting
    · exact h.leveled
    · exact ⟨hlow, hhigh⟩
    · simp only [SemWorld.balance, Nat.cast_add, Nat.cast_one]
      omega
    · simp only
      omega
    · exact h.inside
    · exact hpassed
    · exact h.fifo

/-- Back from `sleep` the process has passed. -/
theorem SemInv.resume {p : Nat} (h : SemInv c w) (hproc : w.state.sched.proc = some p) (hp : p ∈ w.inside) :
    leaving c w.state w.state = [] ∧ SemInv c (w.after c w.state .resume) := by
  have hcpu : p ∉ w.state.sched.queues (.chan c) := h.resting.ok.placed.cpuFree p hproc _
  have hnone : leaving c w.state w.state = [] := leaving_none fun e he => he
  have hpassed := h.passed
  have hcard := Finset.card_pos.2 ⟨p, hp⟩
  refine ⟨hnone, ?_⟩
  simp only [SemWorld.after, hproc, hnone, List.append_nil]
  constructor
  · exact h.resting
  · exact h.leveled
  · exact h.range
  · exact h.count
  · exact h.blocked
  · rintro e he
    refine Finset.mem_erase.2 ⟨?_, h.inside e he⟩
    rintro rfl
    exact hcpu he
  · simp only [Finset.card_erase_of_mem hp]
    omega
  · exact h.fifo

theorem SemInv.other {t : SemState} {op : Op} (h : SemInv c w) (hl : Legal w.state.sched w.admitted op)
    (hop : Aside c w.state.sched op) (hc : aroundSched op.code w.state = .ok () t) :
    leaving c w.state t = [] ∧ SemInv c (w.after c t (.other op)) := by
  obtain ⟨r, hr, rfl⟩ := aroundSched_ok hc
  obtain ⟨he, hrest, hlevel⟩ := effect_of_leveled op h.resting h.leveled
    (fun envId priority heq => by subst heq; exact hop) hl hr
  have hq := aside_chan h.resting hop he hr
  have hnone : leaving c w.state { w.state with sched := r } = [] := leaving_none fun e he => by rw [hq]; exact he
  refine ⟨hnone, ?_⟩
  simp only [SemWorld.after, hnone, List.append_nil]
  constructor
  · exact hrest
  · exact hlevel
  · exact h.range
  · exact h.count
  · simp only [hq]
    exact h.blocked
  · rintro e he
    refine Finset.mem_inter.2 ⟨h.inside e (hq ▸ he), hrest.ok.placed.known _ e he⟩
  · exact (Nat.add_le_add_left (Finset.card_le_card Finset.inter_subset_left) _).trans h.passed
  · simp only [hq]
    exact h.fifo

theorem SemInv.step (h : SemInv c w) (hC : Countable w ev) (hs : SemStep c w ev w') :
    ReleasesFirst c w ev ∧ SemInv c w' := by
  obtain ⟨hl, t, hc, rfl⟩ := hs
  have hsame : ∀ t', ev.code c w.state = .ok () t' → t' = t := by
    intro t' ht'
    rw [hc] at ht'
    exact (EStateM.Result.ok.inj ht').2.symm
  cases ev with
  | wait =>
    obtain ⟨p, hproc, hp⟩ := hl
    obtain ⟨hnone, hI⟩ := h.wait hproc hp hC hc
    refine ⟨fun t' ht' => ?_, hI⟩
    rw [hsame t' ht', hnone]
    exact ⟨rfl, by simp⟩
  | resume =>
    obtain ⟨p, hproc, hp⟩ := hl
    obtain rfl : w.state = t := (EStateM.Result.ok.inj hc).2
    obtain ⟨hnone, hI⟩ := h.resume hproc hp
    refine ⟨fun t' ht' => ?_, hI⟩
    rw [hsame t' ht', hnone]
    exact ⟨rfl, by simp⟩
  | signal =>
    obtain ⟨hone, hready, hI⟩ := h.signal hC hc
    refine ⟨fun t' ht' => ?_, hI⟩
    rw [hsame t' ht']
    exact ⟨hone, hready⟩
  | other op =>
    obtain ⟨hnone, hI⟩ := h.other hl.2.1 hl.2.2 hc
    refine ⟨fun t' ht' => ?_, hI⟩
    rw [hsame t' ht', hnone]
    exact ⟨rfl, by simp⟩

/-- A balance that an `int` cannot hold is not in `count`. -/
theorem countable_of_counts (hs : SemStep c w ev w') (hP : SemCounts c w') : Countable w ev := by
  obtain ⟨hl, t, hc, rfl⟩ := hs
  have hcount := hP.count
  cases ev with
  | resume | other => trivial
  | wait =>
    obtain ⟨p, hproc, hp⟩ := hl
    have hbal : (w.after c t .wait).balance = w.balance - 1 := by
      simp only [SemWorld.after, hproc]
      split <;> simp only [SemWorld.balance, Nat.cast_add, Nat.cast_one] <;> omega
    have hstate : (w.after c t .wait).state.count = toInt (w.state.count - 1) := by
      have ht : t.count = toInt (w.state.count - 1) := by
        change waitKSemaphore c w.state = _ at hc
        rw [wait_eq] at hc
        split at hc
        · obtain ⟨r, -, rfl⟩ := aroundSched_ok hc
          rfl
        · cases hc
          rfl
      simp only [SemWorld.after, hproc]
      split <;> exact ht
    show -2147483648 ≤ w.balance - 1
    rw [← hbal, ← hcount, hstate]
    exact (toInt_range _).1
  | signal =>
    have hbal : (w.after c t .signal).balance = w.balance + 1 := by
      simp only [SemWorld.after, SemWorld.balance, Nat.cast_add, Nat.cast_one]
      omega
    have hstate : (w.after c t .signal).state.count = toInt (w.state.count + 1) := by
      change signalKSemaphore c w.state = _ at hc
      show t.count = _
      rw [signal_eq] at hc
      split at hc
      · obtain ⟨r, -, rfl⟩ := aroundSched_ok hc
        rfl
      · cases hc
        rfl
    show w.balance + 1 < 2147483648
    rw [← hbal, ← hcount, hstate]
    exact (toInt_range _).2

/-! ## Runs -/

/-- After `init_ksemaphore` on a freshly initialised scheduler. -/
def SemWorld.start (s : Sched) (c : Nat) (value : Int) : SemWorld :=
  ⟨initKSemaphore ⟨s, 0⟩ c value, ∅, ∅, value, 0, 0, 0, [], []⟩

/-- Any number of processes, on either scheduler, in any order: `count`, the channel and those who have passed agree,
and blocked processes are released first-in first-out, one per signal, exactly as long as an `int` holds the
initial value with the signals less the waits. -/
theorem ksemaphore_counts {s : Sched} (hs : Initial s) (c : Nat) {value : Int} (h0 : 0 ≤ value)
    (h1 : value < 2147483648)
    (evs : List SemEvent) :
    (Always (SemStep c) (SemCounts c) (SemWorld.start s c value) evs ∧
      Each (SemStep c) (ReleasesFirst c) (SemWorld.start s c value) evs) ↔
    Each (SemStep c) Countable (SemWorld.start s c value) evs := by
  have hlevel : (World.at s ∅ ()).Leveled := hs.leveled
  have hq : s.queues (.chan c) = [] := by cases hs <;> rfl
  have hqueue : s.setQueue (.chan c) [] = s := by
    unfold Sched.setQueue
    rw [← hq, Function.update_eq_self]
  refine always_each_iff (I := SemInv c) (fun w hw => hw.counts) (fun w ev w' hI hC hs => hI.step hC hs)
    (fun w ev w' _ hs _ hP => countable_of_counts hs hP) ?_
  unfold SemWorld.start initKSemaphore
  rw [hqueue]
  constructor
  · exact hlevel.1
  · exact hlevel.2
  · exact ⟨le_trans (by decide) h0, h1⟩
  · simp [SemWorld.balance]
  · simp only [hq, List.length_nil]
    omega
  · simp only [hq]
    exact nofun
  · simp
  · simp [hq]

theorem ksemaphore_counts_two : (Always (SemStep 7) (SemCounts 7) (SemWorld.start (schedInitRR cleared) 7 0)
      [.other (.create 1), .other (.create 2), .other (.newEnv 1), .other (.newEnv 2), .other .runAll, .wait, .signal] ∧
    Each (SemStep 7) (ReleasesFirst 7) (SemWorld.start (schedInitRR cleared) 7 0)
      [.other (.create 1), .other (.create 2), .other (.newEnv 1), .other (.newEnv 2), .other .runAll, .wait,
        .signal]) ↔
    Each (SemStep 7) Countable (SemWorld.start (schedInitRR cleared) 7 0)
      [.other (.create 1), .other (.create 2), .other (.newEnv 1), .other (.newEnv 2), .other .runAll, .wait,
        .signal] :=
  ksemaphore_counts .rr 7 le_rfl (by decide) _

/-- A signal to a semaphore of the largest value: `count` becomes negative. -/
theorem ksemaphore_overflow : ¬ Always (SemStep 7) (SemCounts 7) (SemWorld.start (schedInitRR cleared) 7 2147483647)
    [.other (.create 1), .other (.newEnv 1), .other .runAll, .signal] := by
  intro h
  have h1 := h.2 _ ⟨⟨nofun, ⟨by decide, rfl⟩, trivial⟩, _, rfl, rfl⟩
  have h2 := h1.2 _ ⟨⟨nofun, ⟨by decide, rfl⟩, trivial⟩, _, rfl, rfl⟩
  have h3 := h2.2 _ ⟨⟨nofun, trivial, trivial⟩, _, rfl, rfl⟩
  have h4 := (h3.2 _ ⟨⟨1, rfl, by decide⟩, _, rfl, rfl⟩).count
  revert h4
  decide

end KSemaphore

end Fos.Conc
