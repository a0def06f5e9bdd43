/-
Runs under the optimal policy: the process accesses pages, and an access that finds no page goes to the fault
handler until it does. From the first page fault on the pages there for the CPU are those of `ActiveWorkingSet`,
and the reference stream is the log of the greedy phases of the accesses.
-/
import Fos.Fault.Pages
import Fos.Fault.Optimal
import Fos.Lib.Phases

namespace Fos.Fault

open Fos.Memory Fos.Heap Fos.Proc Fos.Disk Fos.Lib

/-! ## Runs -/

/-- What else runs: it leaves the lists of the process alone, and unmaps and maps none of its pages. The bits the
CPU sets, the contents of pages, new marks in the user heap, the faults of other processes and the calls of the
kernel heap are all among it. -/
structure Others (s t : FaultState) : Prop where
  ready : Ready t.machine
  env : Alike s.machine.env t.machine.env
  shown : ∀ v < userPages, shown t.machine.mem s.machine.env.envPageDirectory v =
    shown s.machine.mem s.machine.env.envPageDirectory v
  algo : t.faults.pageRepAlgoType = s.faults.pageRepAlgoType

/-- One access to `va`, with the faults it takes. -/
inductive Access (va : Nat) : FaultState → FaultState → Prop
  | done {s : FaultState} (hp : s.machine.present va = true) : Access va s s
  | fault {s t u : FaultState} (tf : Trapframe) (hp : s.machine.present va = false)
      (hf : faultHandler va tf s = .ok .returns t) (h : Access va t u) : Access va s u
  | others {s t u : FaultState} (ho : Others s t) (h : Access va t u) : Access va s u

/-- Accesses of the process to its pages. -/
inductive Accesses : FaultState → List Nat → FaultState → Prop
  | nil {s : FaultState} : Accesses s [] s
  | cons {s t u : FaultState} {va : Nat} {vas : List Nat} (hva : va < userTop) (h : Access va s t)
      (hr : Accesses t vas u) : Accesses s (va :: vas) u
  | others {s t u : FaultState} {vas : List Nat} (ho : Others s t) (hr : Accesses t vas u) : Accesses s vas u

/-- The pages of a list of addresses. -/
def pages (vas : List Nat) : List Nat := vas.map (· / 4096)

def wsPages (e : Env) : List Nat := pages (e.pageWsList.map (·.virtualAddress))

/-- A process as `env_create` leaves it under the optimal policy: only pages of its working set are there. -/
structure Start (s : FaultState) : Prop where
  ready : Ready s.machine
  algo : s.faults.pageRepAlgoType = .optimal
  active : s.machine.env.activeWorkingSet = []
  stream : s.machine.env.referenceStreamList = []
  loaded : ∀ v < userPages, shown s.machine.mem s.machine.env.envPageDirectory v = true → v ∈ wsPages s.machine.env

/-! ## The loops -/

section Loops

variable {s t : Machine} {va : Nat}

theorem clearPresent_spec : ∀ {l : List Nat} {s : Machine}, Ready s → (∀ va ∈ l, va < userTop) →
    clearPresent l s = .ok () t → Ready t ∧ Alike s.env t.env ∧
      ∀ v < userPages, shown t.mem s.env.envPageDirectory v =
        if v ∈ pages l then false else shown s.mem s.env.envPageDirectory v
  | [], s, hs, _, h => by
    cases h
    exact ⟨hs, .refl _, fun v _ => rfl⟩
  | va :: l, s, hs, hl, h => by
    unfold clearPresent at h
    obtain ⟨_, u, h1, h⟩ := ok_of_bind h
    have hset := sets_permissions hs (hl va List.mem_cons_self) h1
    obtain ⟨ht, henv, hsh⟩ := clearPresent_spec hset.ready (fun w hw => hl w (List.mem_cons_of_mem _ hw)) h
    refine ⟨ht, hset.env.trans henv, fun v hv => ?_⟩
    have hu := hset.shown s.env.envPageDirectory v hv
    have htv := hsh v hv
    rw [hset.env.dir, hu] at htv
    rw [htv]
    simp only [pages, List.map_cons, List.mem_cons, true_and]
    by_cases hva : v = va / 4096
    · simp [hva, Perm.permPresent]
    · simp [hva]

theorem emptyActive_spec : ∀ {l : List WorkingSetElement} {s : Machine}, Ready s → s.env.activeWorkingSet = l →
    emptyActive l s = .ok () t → Ready t ∧ Alike { s.env with activeWorkingSet := [] } t.env ∧
      ∀ v < userPages, shown t.mem s.env.envPageDirectory v =
        if v ∈ pages (l.map (·.virtualAddress)) then false else shown s.mem s.env.envPageDirectory v
  | [], s, hs, hl, h => by
    cases h
    exact ⟨hs, ⟨rfl, rfl, rfl, rfl, hl, rfl⟩, fun v _ => rfl⟩
  | e :: l, s, hs, hl, h => by
    unfold emptyActive at h
    obtain ⟨_, s₁, h1, h⟩ := ok_of_bind h
    have hset := sets_permissions hs (hs.active e (hl ▸ List.mem_cons_self)) h1
    rw [modifyEnv, modify_bind] at h
    obtain ⟨_, s₂, h2, h⟩ := ok_of_bind h
    have hR : Ready { s₁ with env := { s₁.env with activeWorkingSet := l } } := by
      refine ⟨hset.ready.kernel, hset.ready.dir, hset.ready.ws, fun w hw => hset.ready.active w ?_⟩
      rw [hset.env.active, hl]
      exact List.mem_cons_of_mem _ hw
    have hfree := quiet_kfree e.addr _ _ _ h2 hR
    obtain ⟨ht, henv, hsh⟩ := emptyActive_spec hfree.ready hfree.env.active h
    refine ⟨ht, ?_, fun v hv => ?_⟩
    · exact ⟨henv.dir.trans (hfree.env.dir.trans hset.env.dir), henv.size.trans (hfree.env.size.trans hset.env.size),
        henv.ws.trans (hfree.env.ws.trans hset.env.ws), henv.last.trans (hfree.env.last.trans hset.env.last),
          henv.active,
        henv.stream.trans (hfree.env.stream.trans hset.env.stream)⟩
    · have htv := hsh v hv
      have hdir : s₂.env.envPageDirectory = s.env.envPageDirectory := hfree.env.dir.trans hset.env.dir
      rw [hdir, hfree.shown _ v hv] at htv
      rw [htv]
      have hu := hset.shown s.env.envPageDirectory v hv
      show (if _ then false else shown s₁.mem s.env.envPageDirectory v) = _
      rw [hu]
      simp only [pages, List.map_cons, List.mem_cons, true_and]
      by_cases hva : v = e.virtualAddress / 4096
      · simp [hva, Perm.permPresent]
      · simp [hva]

end Loops

/-! ## One page fault -/

/-- The pages `ActiveWorkingSet` holds. Before the first page fault it holds none, and only pages of the working
set are there; after it, exactly its pages are there. -/
structure Tracks (s : Machine) (held : List Nat) : Prop where
  ready : Ready s
  active : s.env.activeWorkingSet.map (·.virtualAddress) = held.map (· * 4096)
  first : s.env.referenceStreamList = [] → held = [] ∧
    ∀ v < userPages, shown s.mem s.env.envPageDirectory v = true → v ∈ wsPages s.env
  later : s.env.referenceStreamList ≠ [] → ∀ v < userPages, shown s.mem s.env.envPageDirectory v = true ↔ v ∈ held

section PageFault

variable {s t : Machine} {held : List Nat} {faultVa va : Nat} {o : Outcome}

/-- After `rediscover` exactly the pages held are there. -/
theorem rediscover_spec (hT : Tracks s held) (h : rediscover s = .ok () t) :
    Ready t ∧ Alike s.env t.env ∧ ∀ v < userPages, shown t.mem s.env.envPageDirectory v = true ↔ v ∈ held := by
  unfold rediscover at h
  rw [get_bind] at h
  split at h
  · rename_i hnil
    obtain ⟨rfl, hws⟩ := hT.first hnil
    obtain ⟨ht, henv, hsh⟩ := clearPresent_spec hT.ready (fun w hw => by
      obtain ⟨e, he, rfl⟩ := List.mem_map.1 hw
      exact hT.ready.ws e he) h
    refine ⟨ht, henv, fun v hv => ?_⟩
    rw [hsh v hv]
    constructor
    · intro hc
      split at hc
      · cases hc
      · rename_i hn
        exact absurd (hws v hv hc) hn
    · exact fun hc => absurd hc List.not_mem_nil
  · rename_i hne
    cases h
    exact ⟨hT.ready, .refl _, hT.later hne⟩

theorem pages_held (h : s.env.activeWorkingSet.map (·.virtualAddress) = held.map (· * 4096)) :
    pages (s.env.activeWorkingSet.map (·.virtualAddress)) = held := by
  rw [h, pages, List.map_map]
  conv_rhs => rw [← List.map_id held]
  exact List.map_congr_left fun v _ => Nat.mul_div_cancel v (show 0 < 4096 by decide)

/-- The pages held after room was made. -/
def roomFor (k : Nat) (held : List Nat) : List Nat := if k ≤ held.length then [] else held

theorem makeRoom_spec (hs : Ready s) (hact : s.env.activeWorkingSet.map (·.virtualAddress) = held.map (· * 4096))
    (hsh : ∀ v < userPages, shown s.mem s.env.envPageDirectory v = true ↔ v ∈ held) (h : makeRoom s = .ok () t) :
    Ready t ∧ Alike { s.env with activeWorkingSet := t.env.activeWorkingSet } t.env ∧
      t.env.activeWorkingSet.map (·.virtualAddress) = (roomFor s.env.pageWsMaxSize held).map (· * 4096) ∧
      ∀ v < userPages, shown t.mem s.env.envPageDirectory v = true ↔ v ∈ roomFor s.env.pageWsMaxSize held := by
  have hlen : s.env.activeWorkingSet.length = held.length := by
    have := congrArg List.length hact
    rwa [List.length_map, List.length_map] at this
  unfold makeRoom at h
  rw [get_bind] at h
  unfold roomFor
  rw [← hlen]
  split at h
  · rename_i hk
    obtain ⟨ht, henv, hsh'⟩ := emptyActive_spec hs rfl h
    have hnil : t.env.activeWorkingSet = [] := henv.active
    rw [if_pos hk]
    refine ⟨ht, hnil ▸ henv, by rw [hnil]; rfl, fun v hv => ?_⟩
    rw [hsh' v hv, pages_held hact]
    split
    · simp
    · rename_i hn
      simp [hsh v hv, hn]
  · rename_i hk
    cases h
    rw [if_neg hk]
    exact ⟨hs, .refl _, hact, hsh⟩

theorem recordReference_spec (hs : Ready s) (hva : va < userTop) (h : recordReference faultVa va s = .ok () t) :
    Ready t ∧ (∃ wse, Alike { s.env with
        activeWorkingSet := s.env.activeWorkingSet ++ [⟨wse, va, 0⟩]
        referenceStreamList := s.env.referenceStreamList ++ [faultVa] } t.env) ∧
      ∀ v < userPages, shown t.mem s.env.envPageDirectory v = shown s.mem s.env.envPageDirectory v := by
  unfold recordReference at h
  obtain ⟨wse, s₁, h1, h⟩ := ok_of_bind h
  have hk := quiet_kmalloc _ _ _ _ h1 hs
  split at h
  · obtain ⟨_, _, h, -⟩ := ok_of_bind h
    cases h
  obtain ⟨_, _, hpush, h⟩ := ok_of_bind h
  cases hpush
  obtain ⟨ref, s₂, h2, h⟩ := ok_of_bind h
  have hR : Ready { s₁ with env := { s₁.env with activeWorkingSet := s₁.env.activeWorkingSet ++ [⟨wse, va, 0⟩] } } := by
    refine ⟨hk.ready.kernel, hk.ready.dir, hk.ready.ws, fun w hw => ?_⟩
    rcases List.mem_append.1 hw with hw | hw
    · exact hk.ready.active w hw
    · rw [List.mem_singleton.1 hw]
      exact hva
  have hk' := quiet_kmalloc _ _ _ _ h2 hR
  split at h
  · obtain ⟨_, _, h, -⟩ := ok_of_bind h
    cases h
  cases h
  refine ⟨⟨hk'.ready.kernel, hk'.ready.dir, hk'.ready.ws, hk'.ready.active⟩, ⟨wse, ?_⟩, fun v hv => ?_⟩
  · constructor
    · exact hk'.env.dir.trans hk.env.dir
    · exact hk'.env.size.trans hk.env.size
    · exact hk'.env.ws.trans hk.env.ws
    · exact hk'.env.last.trans hk.env.last
    · show s₂.env.activeWorkingSet = _
      rw [hk'.env.active]
      show s₁.env.activeWorkingSet ++ _ = _
      rw [hk.env.active]
    · show s₂.env.referenceStreamList ++ _ = _
      rw [hk'.env.stream]
      show s₁.env.referenceStreamList ++ _ = _
      rw [hk.env.stream]
  · exact (hk'.shown _ v hv).trans (hk.shown _ v hv)

theorem showPage_sets (hs : Ready s) (hva : va < userTop) (hal : va % 4096 = 0) (h : showPage va s = .ok o t) :
    Sets (va / 4096) true s t := by
  unfold showPage at h
  rw [get_bind] at h
  split at h
  · obtain ⟨_, u, h1, h⟩ := ok_of_bind h
    cases h
    have hset := sets_permissions hs hva h1
    simpa [presentUserWriteable, Perm.none] using hset
  · exact placePage_sets hs hva hal h

/-- A page fault on a page that is not there: the page joins those held, or starts a new phase. -/
theorem optimalFault_spec (hT : Tracks s held) (hva : faultVa < userTop)
    (hp : shown s.mem s.env.envPageDirectory (faultVa / 4096) = false) (h : optimalFault faultVa s = .ok o t) :
    Tracks t (roomFor s.env.pageWsMaxSize held ++ [faultVa / 4096]) ∧ faultVa / 4096 ∉ held ∧
      t.env.envPageDirectory = s.env.envPageDirectory ∧
      t.env.pageWsMaxSize = s.env.pageWsMaxSize ∧ t.env.pageWsList = s.env.pageWsList ∧
      t.env.referenceStreamList = s.env.referenceStreamList ++ [faultVa] := by
  have hv : faultVa / 4096 < userPages := (user_address hva 0).1
  have hrd := roundDown_lt hva
  have hal := roundDown_aligned faultVa
  have hdiv := roundDown_div faultVa
  unfold optimalFault at h
  obtain ⟨_, s₁, h1, h⟩ := ok_of_bind h
  obtain ⟨hs₁, he₁, hsh₁⟩ := rediscover_spec hT h1
  rw [get_bind] at h
  have hact₁ : s₁.env.activeWorkingSet.map (·.virtualAddress) = held.map (· * 4096) := by
    rw [he₁.active]
    exact hT.active
  have hnot : faultVa / 4096 ∉ held := by
    intro hc
    by_cases hnil : s.env.referenceStreamList = []
    · rw [(hT.first hnil).1] at hc
      cases hc
    · rw [(hT.later hnil _ hv).2 hc] at hp
      cases hp
  have hany : ¬ s₁.env.activeWorkingSet.any (fun e => roundDown e.virtualAddress pageSize =
      roundDown faultVa pageSize) = true := by
    intro hc
    obtain ⟨e, he, heq⟩ := List.any_eq_true.1 hc
    have heq : roundDown e.virtualAddress pageSize = roundDown faultVa pageSize := of_decide_eq_true heq
    have hmem : e.virtualAddress / 4096 ∈ pages (s₁.env.activeWorkingSet.map (·.virtualAddress)) :=
      List.mem_map_of_mem (List.mem_map_of_mem he)
    rw [pages_held hact₁, ← roundDown_div, heq, hdiv] at hmem
    exact hnot hmem
  rw [if_neg hany] at h
  obtain ⟨_, s₂, h2, h⟩ := ok_of_bind h
  obtain ⟨_, s₃, h3, h⟩ := ok_of_bind h
  rw [← he₁.dir] at hsh₁
  obtain ⟨hs₂, he₂, hact₂, hsh₂⟩ := makeRoom_spec hs₁ hact₁ hsh₁ h2
  obtain ⟨hs₃, ⟨wse, he₃⟩, hsh₃⟩ := recordReference_spec hs₂ hrd h3
  have hset := showPage_sets hs₃ hrd hal h
  rw [hdiv] at hset
  have hdir₃ : s₃.env.envPageDirectory = s.env.envPageDirectory := he₃.dir.trans (he₂.dir.trans he₁.dir)
  have hsize : s₁.env.pageWsMaxSize = s.env.pageWsMaxSize := he₁.size
  have hstream : t.env.referenceStreamList = s.env.referenceStreamList ++ [faultVa] := by
    rw [hset.env.stream, he₃.stream, he₂.stream]
    show s₁.env.referenceStreamList ++ _ = _
    rw [he₁.stream]
  refine ⟨⟨hset.ready, ?_, ?_, ?_⟩, hnot, hset.env.dir.trans hdir₃, ?_, ?_, hstream⟩
  · rw [hset.env.active, he₃.active]
    show List.map _ (s₂.env.activeWorkingSet ++ _) = _
    rw [List.map_append, hact₂, hsize, List.map_append, List.map_singleton, List.map_singleton]
    congr 2
    show roundDown faultVa pageSize = _
    omega
  · intro hc
    rw [hstream] at hc
    exact absurd hc (by simp)
  · intro _ v hvu
    have h₂ := hsh₂ v hvu
    rw [hsize] at h₂
    have h₃ := hsh₃ v hvu
    rw [he₂.dir] at h₃
    rw [hset.env.dir, hset.shown _ v hvu, List.mem_append, List.mem_singleton]
    by_cases hvp : v = faultVa / 4096
    · simp [hvp]
    · rw [if_neg fun hc => hvp hc.2, hdir₃, ← he₁.dir, h₃, h₂]
      simp [hvp]
  · exact (hset.env.size.trans he₃.size).trans (he₂.size.trans he₁.size)
  · exact (hset.env.ws.trans he₃.ws).trans (he₂.ws.trans he₁.ws)

end PageFault

/-! ## Runs keep the log -/

/-- The process, with the settings of `E`, is in the state that the log `r` describes. -/
structure Follows (E : Env) (r : PhaseLog Nat) (s : FaultState) : Prop where
  tracks : Tracks s.machine r.held
  log : pages s.machine.env.referenceStreamList = r.log
  algo : s.faults.pageRepAlgoType = .optimal
  size : s.machine.env.pageWsMaxSize = E.pageWsMaxSize
  ws : s.machine.env.pageWsList = E.pageWsList

section Follows

variable {s t : FaultState} {va : Nat} {E : Env} {r : PhaseLog Nat} {vas : List Nat}

theorem Tracks.alike {m m' : Machine} {held : List Nat} (h : Tracks m held) (hr : Ready m') (he : Alike m.env m'.env)
    (hsh : ∀ v < userPages, shown m'.mem m.env.envPageDirectory v = shown m.mem m.env.envPageDirectory v) :
      Tracks m' held := by
  constructor
  · exact hr
  · rw [he.active]
    exact h.active
  · intro hnil
    rw [he.stream] at hnil
    refine ⟨(h.first hnil).1, fun v hv hs => ?_⟩
    rw [he.dir, hsh v hv] at hs
    rw [wsPages, he.ws]
    exact (h.first hnil).2 v hv hs
  · intro hne v hv
    rw [he.stream] at hne
    rw [he.dir, hsh v hv]
    exact h.later hne v hv

theorem Unmoved.others (h : Unmoved s.machine t.machine) (ha : t.faults.pageRepAlgoType = s.faults.pageRepAlgoType) :
    Others s t :=
  ⟨h.ready, h.env, fun v hv => h.shown _ v hv, ha⟩

theorem Follows.others (h : Follows E r s) (ho : Others s t) : Follows E r t := by
  constructor
  · exact h.tracks.alike ho.ready ho.env ho.shown
  · rw [ho.env.stream]
    exact h.log
  · exact ho.algo.trans h.algo
  · exact ho.env.size.trans h.size
  · exact ho.env.ws.trans h.ws

theorem Start.follows (h : Start s) : Follows s.machine.env ⟨[], []⟩ s := by
  refine ⟨⟨h.ready, ?_, fun _ => ⟨rfl, h.loaded⟩, fun hne => absurd h.stream hne⟩, ?_, h.algo, rfl, rfl⟩
  · rw [h.active]
    rfl
  · rw [h.stream]
    rfl

/-- One access. Before the first page fault an access to a page that is there changes nothing. -/
theorem Access.follows (h : Access va s t) (hva : va < userTop) (hF : Follows E r s) :
    if s.machine.env.referenceStreamList = [] ∧ s.machine.present va = true then Others s t
    else Follows E (r.use E.pageWsMaxSize (va / 4096)) t ∧ t.machine.env.referenceStreamList ≠ [] := by
  have hv : va / 4096 < userPages := (user_address hva 0).1
  induction h generalizing r with
  | @done s hp =>
    by_cases hnil : s.machine.env.referenceStreamList = []
    · rw [if_pos ⟨hnil, hp⟩]
      exact ⟨hF.tracks.ready, .refl _, fun _ _ => rfl, rfl⟩
    · rw [if_neg fun hc => hnil hc.1]
      rw [present_eq hva] at hp
      rw [PhaseLog.use, if_pos ((hF.tracks.later hnil _ hv).1 hp)]
      exact ⟨hF, hnil⟩
  | @fault s t u tf hp hf h ih =>
    rw [if_neg fun hc => by rw [hp] at hc; cases hc.2]
    obtain ⟨hH, ha⟩ := faultHandler_ok hf
    cases hH with
    | table hno ht =>
      have hu := quiet_tableFaultHandler hF.tracks.ready hno ht
      have := ih (hF.others (hu.others ha))
      rw [present_eq hva, hu.env.dir, hu.shown _ _ hv, ← present_eq hva, hp,
        if_neg fun hc => Bool.noConfusion hc.2] at this
      exact this
    | page hsome hvalid hpage =>
      rw [hF.algo, pageFaultHandler, if_pos rfl] at hpage
      rw [present_eq hva] at hp
      obtain ⟨hT, hnot, hdir, hsize, hws, hstream⟩ := optimalFault_spec hF.tracks hva hp hpage
      have huse : r.use E.pageWsMaxSize (va / 4096) = ⟨roomFor E.pageWsMaxSize r.held ++ [va / 4096],
          r.log ++ [va / 4096]⟩ := by
        rw [PhaseLog.use, if_neg hnot, roomFor]
        split <;> rfl
      have hne : t.machine.env.referenceStreamList ≠ [] := by
        rw [hstream]
        simp
      have hF' : Follows E (r.use E.pageWsMaxSize (va / 4096)) t := by
        rw [huse]
        refine ⟨hF.size ▸ hT, ?_, ha.trans hF.algo, hsize.trans hF.size, hws.trans hF.ws⟩
        rw [hstream, pages, List.map_append, ← pages, hF.log]
        rfl
      have := ih hF'
      rw [if_neg fun hc => hne hc.1, PhaseLog.use_use] at this
      exact this
  | @others s t u ho h ih =>
    have := ih (hF.others ho)
    rw [present_eq hva, ho.env.stream, ho.env.dir, ho.shown _ hv, ← present_eq hva] at this
    split
    · rename_i hc
      rw [if_pos hc] at this
      refine ⟨this.ready, ho.env.trans this.env, fun v hvu => ?_, this.algo.trans ho.algo⟩
      have h1 := this.shown v hvu
      rw [ho.env.dir] at h1
      exact h1.trans (ho.shown v hvu)
    · rename_i hc
      rw [if_neg hc] at this
      exact this

/-- The accesses that count: those from the first one on that finds no page. -/
def counted (s : FaultState) (vas : List Nat) : List Nat :=
  (pages vas).dropWhile fun v => shown s.machine.mem s.machine.env.envPageDirectory v

theorem counted_others (ho : Others s t) (hvas : ∀ va ∈ vas, va < userTop) : counted t vas = counted s vas := by
  unfold counted pages
  induction vas with
  | nil => rfl
  | cons va vas ih =>
    have h := ho.shown _ (user_address (hvas va List.mem_cons_self) 0).1
    rw [← ho.env.dir] at h
    rw [List.map_cons, List.dropWhile_cons, List.dropWhile_cons, h, ho.env.dir,
      ← ih fun w hw => hvas w (List.mem_cons_of_mem _ hw), ho.env.dir]

theorem Accesses.addresses (h : Accesses s vas t) : ∀ va ∈ vas, va < userTop := by
  induction h with
  | nil => exact fun va hva => absurd hva List.not_mem_nil
  | cons hva _ _ ih =>
    intro w hw
    rcases List.mem_cons.1 hw with rfl | hw
    · exact hva
    · exact ih w hw
  | others _ _ ih => exact ih

/-- After the first page fault every access counts. -/
theorem Accesses.follows (h : Accesses s vas t) (hF : Follows E r s) (hne : s.machine.env.referenceStreamList ≠ []) :
    Follows E (r.run E.pageWsMaxSize (pages vas)) t := by
  induction h generalizing r with
  | nil => exact hF
  | cons hva h _ ih =>
    have := h.follows hva hF
    rw [if_neg fun hc => hne hc.1] at this
    exact ih this.1 this.2
  | others ho _ ih => exact ih (hF.others ho) (by rw [ho.env.stream]; exact hne)

theorem Accesses.follows_start (h : Accesses s vas t) (hF : Follows E r s)
    (hnil : s.machine.env.referenceStreamList = []) :
    Follows E (r.run E.pageWsMaxSize (counted s vas)) t := by
  induction h generalizing r with
  | nil => exact hF
  | @cons s u t va vas hva h hr ih =>
    have := h.follows hva hF
    rw [present_eq hva] at this
    by_cases hp : shown s.machine.mem s.machine.env.envPageDirectory (va / 4096) = true
    · rw [if_pos ⟨hnil, hp⟩] at this
      have hrest := ih (hF.others this) (by rw [this.env.stream]; exact hnil)
      rw [counted_others this hr.addresses] at hrest
      rwa [counted, pages, List.map_cons, List.dropWhile_cons, if_pos hp]
    · rw [if_neg fun hc => hp hc.2] at this
      have hrest := hr.follows this.1 this.2
      rwa [counted, pages, List.map_cons, List.dropWhile_cons, if_neg hp]
  | others ho hr ih =>
    have hrest := ih (hF.others ho) (by rw [ho.env.stream]; exact hnil)
    rwa [counted_others ho hr.addresses] at hrest

end Follows

/-! ## Every run -/

/-- The pages of `ActiveWorkingSet` and those of the reference stream. -/
def streamLog (e : Env) : PhaseLog Nat :=
  ⟨pages (e.activeWorkingSet.map (·.virtualAddress)), pages e.referenceStreamList⟩

/-- In every state after the first page fault, the pages there for the CPU are exactly those of
`ActiveWorkingSet`, distinct and at most `page_WS_max_size` (or one, where that is `0`), and the reference stream is
the log of the greedy phases of the accesses from the first page fault on. -/
theorem optimal_greedy_phases {s t : FaultState} {vas : List Nat} (hs : Start s) (hr : Accesses s vas t)
    (hfault : counted s vas ≠ []) :
    (∃ L last, Phased s.machine.env.pageWsMaxSize (counted s vas) L last (streamLog t.machine.env)) ∧
      (streamLog t.machine.env).held.Nodup ∧
      (streamLog t.machine.env).held.length ≤ max s.machine.env.pageWsMaxSize 1 ∧
      ∀ v < userPages, shown t.machine.mem t.machine.env.envPageDirectory v = true ↔
        v ∈ (streamLog t.machine.env).held := by
  have hF := hr.follows_start hs.follows hs.stream
  obtain ⟨L, last, hP⟩ := phased_run s.machine.env.pageWsMaxSize hfault
  have hlog : streamLog t.machine.env = PhaseLog.run s.machine.env.pageWsMaxSize ⟨[], []⟩ (counted s vas) := by
    rw [streamLog, pages_held hF.tracks.active, hF.log]
  have hne : t.machine.env.referenceStreamList ≠ [] := by
    intro hnil
    have := hF.log
    rw [hnil, hP.log] at this
    have hlast := hP.greedy.nonempty last (List.mem_append_right _ List.mem_cons_self)
    obtain ⟨p, ps, rfl⟩ := List.exists_cons_of_ne_nil hlast
    have hmem : p ∈ firstUses [] (p :: ps) := mem_firstUses.2 (.inr List.mem_cons_self)
    rw [List.map_append, List.flatten_append] at this
    have hin : p ∈ pages [] := by
      rw [this]
      exact List.mem_append_right _ (by simpa using hmem)
    cases hin
  rw [hlog]
  refine ⟨⟨L, last, hP⟩, ?_, ?_, hF.tracks.later hne⟩
  · rw [hP.held]
    exact firstUses_nodup .nil
  · rw [hP.held]
    exact hP.greedy.bounded last (List.mem_append_right _ List.mem_cons_self)

/-! ## A run -/

/-- One access in user mode, run on a state. -/
def access (va : Nat) : Nat → FaultState → Option FaultState
  | 0, _ => none
  | fuel + 1, s =>
    if s.machine.present va then some s
    else match faultHandler va ⟨true, false⟩ s with
      | .ok .returns t => access va fuel t
      | _ => none

def accesses : List Nat → FaultState → Option FaultState
  | [], s => some s
  | va :: vas, s => (access va 3 s).bind (accesses vas)

section Runs

variable {s t : FaultState} {va : Nat}

theorem access_access : ∀ {fuel : Nat} {s : FaultState}, access va fuel s = some t → Access va s t
  | fuel + 1, s, h => by
    unfold access at h
    split at h
    · rename_i hp
      cases h
      exact .done hp
    · rename_i hp
      split at h
      · rename_i u hf
        exact .fault _ (by simpa using hp) hf (access_access h)
      · cases h

theorem accesses_accesses : ∀ {vas : List Nat} {s : FaultState}, (∀ va ∈ vas, va < userTop) → accesses vas s = some t →
    Accesses s vas t
  | [], s, _, h => by
    cases h
    exact .nil
  | va :: vas, s, hvas, h => by
    obtain ⟨u, hu, h⟩ := Option.bind_eq_some_iff.1 h
    exact .cons (hvas va List.mem_cons_self) (access_access hu)
      (accesses_accesses (fun w hw => hvas w (List.mem_cons_of_mem _ hw)) h)

end Runs

/-- The small machine with a process: directory `1` with one page table, the one of the stack, and two pages in it. -/
def stackMemory : Mem := { machine with
  dirs := {0, 1}
  table := fun d i => if d = 1 ∧ i = 954 then some 900 else machine.table d i
  pte := fun a => if a = (1, 977917) then ⟨800, presentUserWriteable⟩
    else if a = (1, 977916) then ⟨801, presentUserWriteable⟩
    else machine.pte a }

theorem stackMemory_booted : Booted stackMemory := by
  have hb := machine_booted
  have htab : stackMemory.table 0 = machine.table 0 := by
    funext i
    simp [stackMemory]
  have hpte : ∀ v, stackMemory.pte (0, v) = machine.pte (0, v) := by
    intro v
    simp [stackMemory]
  constructor
  · exact hb.few
  · exact hb.freeNodup
  · exact hb.freeLt
  · exact hb.fresh
  · exact fun v hv => htab ▸ hb.tables v hv
  · exact fun v hv => (hpte v).trans (hb.empty v hv)
  · exact fun i hi => htab ▸ hb.lower i hi
  · exact (hpte _).trans hb.last
  · exact hb.unreferenced
  · exact hb.zero

def stackKernel : Kernel := { unusedKernel stackMemory with
  dyn := (initializeDynamicAllocator zeroedAlloc kernelHeapStart
    (kernelHeapStart + dynAllocMaxSize)).toOption.getD zeroedAlloc
  kheapPageAllocStart := 1015809 * 4096
  kheapPageAllocBreak := 1015809 * 4096 }

/-- A process of at most `n` pages that starts with the working set `ws`, in the two pages. -/
def loadedProcess (ws : List WorkingSetElement) (n : Nat) : FaultState where
  machine :=
    { kernel := stackKernel
      env := { envPageDirectory := 1, pageWsMaxSize := n, pageWsList := ws }
      frames := fun _ => zeroPage
      pageFile := ⟨fun _ => zeroPage, []⟩ }
  faults := { pageRepAlgoType := .optimal, kstack := 0xF0000000, cpuStack := 0xF0010000 }

def twoPages : List WorkingSetElement := [⟨kernelHeapStart, 977917 * 4096, 0⟩, ⟨kernelHeapStart + 32, 977916 * 4096, 0⟩]

def stackProcess (n : Nat) : FaultState := loadedProcess twoPages n

/-- Page `i` of the stack, from its top. -/
def stackPage (i : Nat) : Nat := (977917 - i) * 4096

theorem loadedProcess_ready {ws : List WorkingSetElement} (hws : ws.all (·.virtualAddress < userTop) = true) (n : Nat) :
    Ready (loadedProcess ws n).machine := by
  have hb := stackMemory_booted
  have hstart : stackKernel.dyn.dynAllocStart = kernelHeapStart := by decide
  have hend : stackKernel.dyn.dynAllocEnd = kernelHeapStart + dynAllocMaxSize := by decide
  exact ⟨⟨⟨⟨hb.tables, rfl, 1015809, rfl, le_rfl, by decide⟩, hstart⟩, hend, hb.lower, hb.last, fun _ => Nat.zero_le _⟩,
    show (1 : Nat) ≠ 0 by decide, fun w hw => of_decide_eq_true (List.all_eq_true.1 hws w hw),
    fun w hw => absurd hw List.not_mem_nil⟩

theorem loadedProcess_start {ws : List WorkingSetElement} (hws : ws.all (·.virtualAddress < userTop) = true)
    (h1 : 977917 ∈ pages (ws.map (·.virtualAddress))) (h2 : 977916 ∈ pages (ws.map (·.virtualAddress))) (n : Nat) :
    Start (loadedProcess ws n) := by
  refine ⟨loadedProcess_ready hws n, rfl, rfl, rfl, fun v _ hs => ?_⟩
  have hpte : ((userEntry stackMemory 1 v).perm.present = true) := hs
  unfold userEntry at hpte
  split at hpte
  · by_cases hv1 : v = 977917
    · exact hv1 ▸ h1
    by_cases hv2 : v = 977916
    · exact hv2 ▸ h2
    simp [stackMemory, machine, hv1, hv2] at hpte
  · cases hpte

theorem stackProcess_start (n : Nat) : Start (stackProcess n) :=
    loadedProcess_start (by decide) (by decide) (by decide) n

/-- A run over `vas`, with a fact about the state it ends in that was computed. -/
theorem accesses_run (s : FaultState) (vas : List Nat) (p : FaultState → Bool) (hvas : vas.all (· < userTop) = true)
    (h : (accesses vas s).any p = true) : ∃ t, Accesses s vas t ∧ p t = true := by
  obtain ⟨t, ht, hp⟩ := (Option.any_eq_true _ _).1 h
  exact ⟨t, accesses_accesses (fun va hva => of_decide_eq_true (List.all_eq_true.1 hvas va hva)) ht, hp⟩

theorem optimal_greedy_phases_stack : ∃ t, Accesses (stackProcess 2) [stackPage 2, stackPage 3, stackPage 4] t ∧
    ∃ L last, Phased 2 [977915, 977914, 977913] L last (streamLog t.machine.env) := by
  obtain ⟨t, hr, -⟩ := accesses_run (stackProcess 2) [stackPage 2, stackPage 3, stackPage 4] (fun _ => true)
    (by decide) (by decide +kernel)
  have hc : counted (stackProcess 2) [stackPage 2, stackPage 3, stackPage 4] = [977915, 977914, 977913] := by decide
  have h := (optimal_greedy_phases (stackProcess_start 2) hr (by rw [hc]; simp)).1
  rw [hc] at h
  exact ⟨t, hr, h⟩

/-- The access before the first page fault is in no phase, and with no room for a page one is held. -/
theorem optimal_phases_late : (∃ t, Accesses (stackProcess 2) [stackPage 0, stackPage 2, stackPage 0] t ∧
      ¬ ∃ L last, Phased 2 (pages [stackPage 0, stackPage 2, stackPage 0]) L last (streamLog t.machine.env)) ∧
    ∃ t, Accesses (stackProcess 0) [stackPage 2] t ∧ 0 < (streamLog t.machine.env).held.length := by
  constructor
  · obtain ⟨t, hr, ht⟩ := accesses_run (stackProcess 2) [stackPage 0, stackPage 2, stackPage 0]
      (fun t => (streamLog t.machine.env).log.head? == some 977915) (by decide) (by decide +kernel)
    refine ⟨t, hr, ?_⟩
    rintro ⟨L, last, h⟩
    have hhead := h.head
    rw [beq_iff_eq.1 ht] at hhead
    exact absurd hhead (by decide)
  · obtain ⟨t, hr, ht⟩ := accesses_run (stackProcess 0) [stackPage 2]
      (fun t => decide (0 < (streamLog t.machine.env).held.length)) (by decide) (by decide +kernel)
    exact ⟨t, hr, of_decide_eq_true ht⟩

end Fos.Fault
