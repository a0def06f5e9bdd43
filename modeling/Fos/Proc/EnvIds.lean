/-
The ids of environments, `kern/proc/user_environment.c`: `env_init`, `allocate_environment`,
`complete_environment_initialization` and `free_environment` as far as they touch `env_id`, `env_status`,
`env_parent_id` and the free list, and `envid2env`. The slots of `envs` are numbered from 0.
-/
import Fos.Cpu.Scheduler
import Fos.Lib.Trace

namespace Fos.Proc

open Fos.Lib Fos.Cpu

/-! ## The table of environments -/

/-- `sizeof(struct Env)`. -/
def sizeofEnv : Nat := 1500

/-- `NENV`. -/
def nenv : Nat := 4194304 / 4 / sizeofEnv

/-- The loop of `nearest_pow2_ceil`; `power` is an `int`. -/
def doublePower : Nat → Nat → Nat → Nat
  | 0, _, power => power
  | fuel + 1, x, power => if x / 2 = 0 then power else doublePower fuel (x / 2) (2 * power % 2 ^ 32)

def nearestPow2Ceil (x : Nat) : Nat := if x ≤ 1 then 1 else doublePower 32 (x - 1) 2

/-- The loop of `log2_ceil`. -/
def countBits : Nat → Nat → Nat → Nat
  | 0, _, bits => bits
  | fuel + 1, x, bits => if x / 2 = 0 then bits else countBits fuel (x / 2) (bits + 1)

def log2Ceil (x : Nat) : Nat := if x ≤ 1 then 1 else countBits 32 (x - 1) 2

/-- `ENVGENSHIFT`; it is one more than the number of bits of a slot. -/
def envGenShift : Nat := log2Ceil nenv

/-- `NEARPOW2NENV - 1`. -/
def slotMask : BitVec 32 := BitVec.ofNat 32 (nearestPow2Ceil nenv) - 1

/-- `ENVX`. -/
def envx (envid : BitVec 32) : Nat := (envid &&& slotMask).toNat

structure EnvSlot where
  envId : BitVec 32 := 0
  envStatus : EnvStatus := .free
  envParentId : BitVec 32 := 0
  deriving DecidableEq, Repr

structure EnvTable where
  envs : Nat → EnvSlot
  envFreeList : List Nat
  proc : Option Nat

def EnvTable.setSlot (t : EnvTable) (e : Nat) (x : EnvSlot) : EnvTable := { t with envs := Function.update t.envs e x }

/-- The loop of `env_init`, from slot `n - 1` down. -/
def envInitFrom : Nat → EnvTable → EnvTable
  | 0, t => t
  | n + 1, t =>
    envInitFrom n
      { t.setSlot n { t.envs n with envStatus := .free, envId := 0 } with envFreeList := n :: t.envFreeList }

def envInit (t : EnvTable) : EnvTable := envInitFrom nenv t

/-- `allocate_environment`; with no free environment `E_NO_FREE_ENV`. -/
def allocateEnvironment (t : EnvTable) : Option (Nat × EnvTable) :=
  match t.envFreeList with
  | [] => none
  | e :: _ => some (e, t.setSlot e { t.envs e with envStatus := .unknown })

/-- The id that slot `e` gets after `envId`: the next generation, and never a negative id. -/
def nextEnvId (envId : BitVec 32) (e : Nat) : BitVec 32 :=
  let generation := (envId + 1#32 <<< envGenShift) &&& ~~~slotMask
  let generation := if generation.sle 0#32 then 1#32 <<< envGenShift else generation
  generation ||| BitVec.ofNat 32 e

def completeEnvironmentInitialization (t : EnvTable) (e : Nat) : EnvTable :=
  { t.setSlot e {
      envId := nextEnvId (t.envs e).envId e
      envParentId := match t.proc with
        | none => 0
        | some p => (t.envs p).envId
      envStatus := .new } with
    envFreeList := t.envFreeList.erase e }

/-- `env_create`, with the environment it returns. -/
def envCreateSlot (t : EnvTable) : Option Nat × EnvTable :=
  match allocateEnvironment t with
  | none => (none, t)
  | some (e, t) => (some e, completeEnvironmentInitialization t e)

/-- `free_environment` clears the whole `struct Env`. -/
def freeEnvironment (t : EnvTable) (e : Nat) : EnvTable :=
  { t.setSlot e {} with envFreeList := e :: t.envFreeList }

/-- `E_BAD_ENV`. -/
def eBadEnv : Int := -2

/-- `envid2env`: the environment, or an error. The slots from `nenv` on are `.faults`: the source reads what lies in
memory after the array there, which is mapped and is no environment. -/
def envid2env (t : EnvTable) (envid : BitVec 32) (checkperm : Bool) : Res (Except Int (Option Nat)) :=
  if envid = 0 then .ok (.ok t.proc)
  else
    let e := envx envid
    if nenv ≤ e then .error .faults
    else if (t.envs e).envStatus = .free ∨ (t.envs e).envId ≠ envid then .ok (.error eBadEnv)
    else if checkperm ∧ some e ≠ t.proc then
      match t.proc with
      | none => .error .faults
      | some cur => .ok (if (t.envs e).envParentId ≠ (t.envs cur).envId then .error eBadEnv else .ok (some e))
    else .ok (.ok (some e))

/-! ## Ids -/

section Ids

variable {e f : Nat}

theorem nenv_lt : nenv < 1024 := by decide

theorem generation_first : ((0 : BitVec 32) + 1#32 <<< envGenShift) &&& ~~~slotMask = 2048#32 := by decide

theorem nextEnvId_first (h : e < nenv) : (nextEnvId 0 e).toNat = 2048 + e := by
  have he : e < 1024 := h.trans nenv_lt
  have hid : nextEnvId 0 e = 2048#32 ||| BitVec.ofNat 32 e := by
    unfold nextEnvId
    rw [generation_first]
    exact congrArg (· ||| BitVec.ofNat 32 e) (if_neg (by decide))
  rw [hid, BitVec.toNat_or, BitVec.toNat_ofNat, BitVec.toNat_ofNat, Nat.mod_eq_of_lt (by omega),
    Nat.mod_eq_of_lt (by omega)]
  exact (Nat.two_pow_add_eq_or_of_lt (show e < 2 ^ 11 by omega) 1).symm

theorem envx_first (h : e < nenv) : envx (nextEnvId 0 e) = e := by
  have he : e < 1024 := h.trans nenv_lt
  have hmask : slotMask.toNat = 2 ^ 10 - 1 := by decide
  unfold envx
  rw [BitVec.toNat_and, nextEnvId_first h, hmask, Nat.and_two_pow_sub_one_eq_mod]
  omega

theorem nextEnvId_inj (he : e < nenv) (hf : f < nenv) (h : nextEnvId 0 e = nextEnvId 0 f) : e = f := by
  have := congrArg BitVec.toNat h
  rw [nextEnvId_first he, nextEnvId_first hf] at this
  omega

theorem nextEnvId_pos (h : e < nenv) : 0 < (nextEnvId 0 e).toInt := by
  have he : e < 1024 := h.trans nenv_lt
  rw [BitVec.toInt_eq_toNat_of_lt (by rw [nextEnvId_first h]; omega), nextEnvId_first h]
  omega

end Ids

/-! ## Runs -/

inductive EnvCall where
  | create
  | free (e : Nat)
  | status (e : Nat) (st : EnvStatus)
  | switch (p : Option Nat)

def EnvTable.Live (t : EnvTable) (e : Nat) : Prop := e < nenv ∧ (t.envs e).envStatus ≠ .free

/-- What `env_free` freed: the id, its slot, and which of the environments of the slot it was. -/
structure FreedEnv where
  id : BitVec 32
  slot : Nat
  number : Nat

/-- The table, with how many environments each slot has had and those that were freed. -/
structure EnvWorld where
  table : EnvTable
  created : Nat → Nat
  freed : List FreedEnv

/-- Only a live environment is freed, run or given another status. -/
def EnvLegal (w : EnvWorld) : EnvCall → Prop
  | .create => True
  | .free e => w.table.Live e
  | .status e st => w.table.Live e ∧ st ≠ .free
  | .switch p => ∀ e, p = some e → w.table.Live e

def EnvWorld.call (w : EnvWorld) : EnvCall → EnvWorld
  | .create =>
    match envCreateSlot w.table with
    | (some e, t) => { w with table := t, created := Function.update w.created e (w.created e + 1) }
    | (none, t) => { w with table := t }
  | .free e =>
    { w with table := freeEnvironment w.table e, freed := ⟨(w.table.envs e).envId, e, w.created e⟩ :: w.freed }
  | .status e st => { w with table := w.table.setSlot e { w.table.envs e with envStatus := st } }
  | .switch p => { w with table := { w.table with proc := p } }

def EnvStep (w : EnvWorld) (c : EnvCall) (w' : EnvWorld) : Prop := EnvLegal w c ∧ w' = w.call c

/-- The number of generations that an `env_id` can hold. -/
def generations : Nat := 2 ^ (31 - envGenShift)

/-- A slot has been used again, and its generations have not run out. -/
def EnvWorld.Reused (w : EnvWorld) (x : FreedEnv) : Prop := x.number < w.created x.slot ∧ w.created x.slot < generations

/-- The ids of live environments are positive and distinct, and that of a freed environment whose slot is used again
is a bad one. -/
structure GoodIds (w : EnvWorld) : Prop where
  distinct : ∀ e f, w.table.Live e → w.table.Live f → (w.table.envs e).envId = (w.table.envs f).envId → e = f
  positive : ∀ e, w.table.Live e → 0 < (w.table.envs e).envId.toInt
  stale : ∀ x ∈ w.freed, w.Reused x → ∀ checkperm, envid2env w.table x.id checkperm = .ok (.error eBadEnv)

/-- The slot of the next environment has had none. -/
def Unused (w : EnvWorld) : EnvCall → Prop
  | .create => ∀ e, w.table.envFreeList.head? = some e → w.created e = 0
  | _ => True

/-! ## The invariant -/

/-- An environment has the first id of its slot, and a free slot has none. -/
structure SlotsInv (t : EnvTable) : Prop where
  nodup : t.envFreeList.Nodup
  listed : ∀ e, e ∈ t.envFreeList ↔ e < nenv ∧ (t.envs e).envStatus = .free
  live : ∀ e, t.Live e → (t.envs e).envId = nextEnvId 0 e
  cleared : ∀ e ∈ t.envFreeList, (t.envs e).envId = 0

section SlotsInv

variable {t : EnvTable} {e f : Nat}

theorem SlotsInv.create (h : SlotsInv t) {l : List Nat} (hl : t.envFreeList = e :: l) :
    ∃ t', envCreateSlot t = (some e, t') ∧ SlotsInv t' ∧ t'.Live e ∧
      (∀ f, f ≠ e → t'.envs f = t.envs f) ∧ t'.envFreeList = l := by
  have hmem : e ∈ t.envFreeList := by rw [hl]; exact List.mem_cons_self
  obtain ⟨hlt, hst⟩ := (h.listed e).1 hmem
  have hid := h.cleared e hmem
  have hnd := h.nodup
  rw [hl, List.nodup_cons] at hnd
  refine ⟨completeEnvironmentInitialization (t.setSlot e { t.envs e with envStatus := .unknown }) e,
    by simp only [envCreateSlot, allocateEnvironment, hl], ?_⟩
  have hself : ((completeEnvironmentInitialization (t.setSlot e { t.envs e with envStatus := .unknown }) e).envs
      e).envId =
      nextEnvId 0 e ∧
      ((completeEnvironmentInitialization (t.setSlot e { t.envs e with envStatus := .unknown }) e).envs e).envStatus =
        .new := by
    simp [completeEnvironmentInitialization, EnvTable.setSlot, hid]
  have hother : ∀ f, f ≠ e →
      (completeEnvironmentInitialization (t.setSlot e { t.envs e with envStatus := .unknown }) e).envs f =
        t.envs f := by
    rintro f hf
    simp [completeEnvironmentInitialization, EnvTable.setSlot, hf]
  have hlist : (completeEnvironmentInitialization (t.setSlot e { t.envs e with envStatus := .unknown })
      e).envFreeList = l := by
    simp [completeEnvironmentInitialization, EnvTable.setSlot, hl]
  generalize completeEnvironmentInitialization (t.setSlot e { t.envs e with envStatus := .unknown }) e =
    t' at hself hother hlist
  refine ⟨?_, ⟨hlt, by rw [hself.2]; simp⟩, hother, hlist⟩
  constructor
  · rw [hlist]
    exact hnd.2
  · intro f
    rw [hlist]
    by_cases hf : f = e
    · subst hf
      simp [hself.2, hnd.1]
    · rw [hother f hf, ← h.listed f, hl]
      simp [hf]
  · intro f hf
    by_cases hfe : f = e
    · rw [hfe, hself.1]
    · rw [hother f hfe]
      exact h.live f ⟨hf.1, by rw [← hother f hfe]; exact hf.2⟩
  · intro f hf
    rw [hlist] at hf
    rw [hother f (fun hfe => hnd.1 (hfe ▸ hf))]
    exact h.cleared f (by rw [hl]; exact List.mem_cons_of_mem e hf)

theorem SlotsInv.free (h : SlotsInv t) (he : t.Live e) : SlotsInv (freeEnvironment t e) := by
  have hnot : e ∉ t.envFreeList := fun hmem => he.2 ((h.listed e).1 hmem).2
  have hself : (freeEnvironment t e).envs e = {} := by simp [freeEnvironment, EnvTable.setSlot]
  have hother : ∀ f, f ≠ e → (freeEnvironment t e).envs f = t.envs f := by
    rintro f hf
    simp [freeEnvironment, EnvTable.setSlot, hf]
  constructor
  · exact List.nodup_cons.2 ⟨hnot, h.nodup⟩
  · intro f
    show f ∈ e :: t.envFreeList ↔ _
    by_cases hf : f = e
    · subst hf
      simp [hself, he.1]
    · rw [hother f hf, ← h.listed f]
      simp [hf]
  · intro f hf
    have hfe : f ≠ e := by
      rintro rfl
      exact hf.2 (by rw [hself])
    rw [hother f hfe]
    exact h.live f ⟨hf.1, by rw [← hother f hfe]; exact hf.2⟩
  · rintro f hf
    rcases List.mem_cons.1 hf with rfl | hf
    · rw [hself]
    · rw [hother f (fun hfe => hnot (hfe ▸ hf))]
      exact h.cleared f hf

theorem SlotsInv.status (h : SlotsInv t) (he : t.Live e) {st : EnvStatus} (hst : st ≠ .free) :
    SlotsInv (t.setSlot e { t.envs e with envStatus := st }) := by
  have hid : ∀ f, ((t.setSlot e { t.envs e with envStatus := st }).envs f).envId = (t.envs f).envId := by
    intro f
    by_cases hf : f = e
    · subst hf
      simp [EnvTable.setSlot]
    · simp [EnvTable.setSlot, hf]
  have hfree : ∀ f, ((t.setSlot e { t.envs e with envStatus := st }).envs f).envStatus = .free ↔
      (t.envs f).envStatus = .free := by
    intro f
    by_cases hf : f = e
    · subst hf
      simp [EnvTable.setSlot, hst, he.2]
    · simp [EnvTable.setSlot, hf]
  constructor
  · exact h.nodup
  · intro f
    rw [hfree]
    exact h.listed f
  · intro f hf
    rw [hid]
    exact h.live f ⟨hf.1, fun hfr => hf.2 ((hfree f).2 hfr)⟩
  · intro f hf
    rw [hid]
    exact h.cleared f hf

theorem SlotsInv.call {w : EnvWorld} (h : SlotsInv w.table) (c : EnvCall) (hl : EnvLegal w c) :
    SlotsInv (w.call c).table := by
  cases c with
  | create =>
    cases hlist : w.table.envFreeList with
    | nil =>
      simp only [EnvWorld.call, envCreateSlot, allocateEnvironment, hlist]
      exact h
    | cons e l =>
      obtain ⟨t', ht', hI, -⟩ := h.create hlist
      simp only [EnvWorld.call, ht']
      exact hI
  | free e => exact h.free hl
  | status e st => exact h.status hl.1 hl.2
  | switch p => exact ⟨h.nodup, h.listed, h.live, h.cleared⟩

theorem SlotsInv.distinct (h : SlotsInv t) (he : t.Live e) (hf : t.Live f) (hid : (t.envs e).envId = (t.envs f).envId) :
    e = f := by
  rw [h.live e he, h.live f hf] at hid
  exact nextEnvId_inj he.1 hf.1 hid

theorem SlotsInv.positive (h : SlotsInv t) (he : t.Live e) : 0 < (t.envs e).envId.toInt := by
  rw [h.live e he]
  exact nextEnvId_pos he.1

/-- The id of a live environment is a good one. -/
theorem SlotsInv.accepts (h : SlotsInv t) (he : t.Live e) : envid2env t (nextEnvId 0 e) false = .ok (.ok (some e)) := by
  have hne : nextEnvId 0 e ≠ 0 := by
    intro h0
    have := congrArg BitVec.toNat h0
    rw [nextEnvId_first he.1] at this
    simp at this
  unfold envid2env
  rw [if_neg hne]
  simp only [envx_first he.1]
  rw [if_neg (by have := he.1; omega), if_neg (not_or.2 ⟨he.2, not_not.2 (h.live e he)⟩), if_neg (by simp)]

end SlotsInv

/-- No slot has been used twice. -/
structure EnvInv (w : EnvWorld) : Prop where
  slots : SlotsInv w.table
  once : ∀ e, w.created e ≤ 1
  used : ∀ e, w.table.Live e → w.created e = 1
  freed : ∀ x ∈ w.freed, x.id = nextEnvId 0 x.slot ∧ 1 ≤ x.number
  kept : ∀ e ∈ w.table.envFreeList, w.created e = 1 → ∃ x ∈ w.freed, x.slot = e ∧ x.number = 1

section EnvInv

variable {w w' : EnvWorld} {c : EnvCall} {e : Nat}

theorem EnvInv.good (h : EnvInv w) : GoodIds w := by
  refine ⟨fun e f => h.slots.distinct, fun e => h.slots.positive, fun x hx hr => ?_⟩
  have h1 := (h.freed x hx).2
  have h2 := h.once x.slot
  have h3 := hr.1
  omega

/-- What a creation does to the counts. -/
theorem create_call {l : List Nat} (h : SlotsInv w.table) (hl : w.table.envFreeList = e :: l) : ∃ t',
    w.call .create = ⟨t', Function.update w.created e (w.created e + 1), w.freed⟩ ∧ SlotsInv t' ∧ t'.Live e ∧
      (∀ f, f ≠ e → t'.envs f = w.table.envs f) ∧ t'.envFreeList = l := by
  obtain ⟨t', ht', hI, hlive, hother, hlist⟩ := h.create hl
  exact ⟨t', by simp only [EnvWorld.call, ht'], hI, hlive, hother, hlist⟩

theorem EnvInv.call (h : EnvInv w) (c : EnvCall) (hl : EnvLegal w c) (hC : Unused w c) : EnvInv (w.call c) := by
  cases c with
  | create =>
    cases hlist : w.table.envFreeList with
    | nil =>
      simp only [EnvWorld.call, envCreateSlot, allocateEnvironment, hlist]
      exact h
    | cons e l =>
      obtain ⟨t', hcall, hI, hlive, hother, hfree⟩ := create_call h.slots hlist
      have h0 : w.created e = 0 := hC e (by rw [hlist]; rfl)
      have hnd := h.slots.nodup
      rw [hlist, List.nodup_cons] at hnd
      rw [hcall]
      constructor
      · exact hI
      · intro f
        rcases eq_or_ne f e with rfl | hf
        · simp [h0]
        · simp only [Function.update_of_ne hf]
          exact h.once f
      · intro f hf
        rcases eq_or_ne f e with rfl | hfe
        · simp [h0]
        · simp only [Function.update_of_ne hfe]
          exact h.used f ⟨hf.1, by rw [← hother f hfe]; exact hf.2⟩
      · exact h.freed
      · intro f hf
        have hfl : f ∈ l := by rw [← hfree]; exact hf
        have hfe : f ≠ e := fun hfe => hnd.1 (hfe ▸ hfl)
        simp only [Function.update_of_ne hfe]
        exact h.kept f (by rw [hlist]; exact List.mem_cons_of_mem e hfl)
  | free e =>
    have hlive : w.table.Live e := hl
    constructor
    · exact h.slots.free hlive
    · exact h.once
    · intro f hf
      refine h.used f ⟨hf.1, ?_⟩
      have hfe : f ≠ e := by
        rintro rfl
        exact hf.2 (by simp [EnvWorld.call, freeEnvironment, EnvTable.setSlot])
      have hst := hf.2
      simpa [EnvWorld.call, freeEnvironment, EnvTable.setSlot, hfe] using hst
    · rintro x hx
      rcases List.mem_cons.1 hx with rfl | hx
      · exact ⟨h.slots.live e hlive, (h.used e hlive).ge⟩
      · exact h.freed x hx
    · rintro f hf h1
      rcases List.mem_cons.1 hf with rfl | hf
      · exact ⟨_, List.mem_cons_self, rfl, h1⟩
      · obtain ⟨x, hx, hs⟩ := h.kept f hf h1
        exact ⟨x, List.mem_cons_of_mem _ hx, hs⟩
  | status e st =>
    have hlive : w.table.Live e := hl.1
    refine ⟨h.slots.status hlive hl.2, h.once, fun f hf => ?_, h.freed, h.kept⟩
    rcases eq_or_ne f e with rfl | hfe
    · exact h.used f hlive
    · have hst := hf.2
      simp only [EnvWorld.call, EnvTable.setSlot, Function.update_of_ne hfe] at hst
      exact h.used f ⟨hf.1, hst⟩
  | switch p => exact ⟨h.slots.call (.switch p) hl, h.once, h.used, h.freed, h.kept⟩

/-- A slot used again gets the id of the environment it had. -/
theorem unused_of_good (h : EnvInv w) (hs : EnvStep w c w') (hP : GoodIds w') : Unused w c := by
  obtain ⟨-, rfl⟩ := hs
  cases c with
  | free | status | switch => trivial
  | create =>
    rintro e he
    obtain ⟨l, hl⟩ : ∃ l, w.table.envFreeList = e :: l := by
      cases hlist : w.table.envFreeList with
      | nil => rw [hlist] at he; cases he
      | cons f l => rw [hlist] at he; cases he; exact ⟨l, rfl⟩
    obtain ⟨t', hcall, hI, hlive, -, -⟩ := create_call h.slots hl
    by_contra hne
    have h1 : w.created e = 1 := by
      have := h.once e
      omega
    obtain ⟨x, hx, rfl, hnum⟩ := h.kept e (by rw [hl]; exact List.mem_cons_self) h1
    rw [hcall] at hP
    have hreused : EnvWorld.Reused ⟨t', Function.update w.created x.slot (w.created x.slot + 1), w.freed⟩ x := by
      simp only [EnvWorld.Reused, Function.update_self, h1, hnum]
      decide
    have hbad := hP.stale x hx hreused false
    rw [(h.freed x hx).1, hI.accepts hlive] at hbad
    cases hbad

end EnvInv

/-! ## From boot -/

theorem envInitFrom_envs : ∀ (n : Nat) (t : EnvTable), (envInitFrom n t).envFreeList = List.range n ++ t.envFreeList ∧
    ∀ e, (e < n → ((envInitFrom n t).envs e).envStatus = .free ∧ ((envInitFrom n t).envs e).envId = 0) ∧
      (n ≤ e → (envInitFrom n t).envs e = t.envs e)
  | 0, t => ⟨rfl, fun e => ⟨fun h => absurd h (by omega), fun _ => rfl⟩⟩
  | n + 1, t => by
    unfold envInitFrom
    obtain ⟨h1, h2⟩ := envInitFrom_envs n
      { t.setSlot n { t.envs n with envStatus := .free, envId := 0 } with envFreeList := n :: t.envFreeList }
    refine ⟨by rw [h1, List.range_succ, List.append_assoc, List.singleton_append], fun e => ⟨fun he => ?_,
      fun he => ?_⟩⟩
    · rcases Nat.lt_succ_iff_lt_or_eq.1 he with hlt | rfl
      · exact (h2 e).1 hlt
      · rw [(h2 e).2 le_rfl]
        simp [EnvTable.setSlot]
    · rw [(h2 e).2 (by omega)]
      simp only [EnvTable.setSlot]
      rw [Function.update_of_ne (by omega)]

/-- The table before `env_init`. -/
def clearedEnvs : EnvTable := ⟨fun _ => {}, [], none⟩

theorem envInit_slots : SlotsInv (envInit clearedEnvs) ∧ (∀ e, ¬ (envInit clearedEnvs).Live e) ∧
    ∃ l, (envInit clearedEnvs).envFreeList = 0 :: l := by
  unfold envInit
  obtain ⟨h1, h2⟩ := envInitFrom_envs nenv clearedEnvs
  have h0 : clearedEnvs.envFreeList = [] := rfl
  rw [h0, List.append_nil] at h1
  generalize envInitFrom nenv clearedEnvs = t at h1 h2 ⊢
  have hmem : ∀ e, e ∈ t.envFreeList ↔ e < nenv := fun e => by rw [h1, List.mem_range]
  have hlive : ∀ e, ¬ t.Live e := fun e he => he.2 ((h2 e).1 he.1).1
  refine ⟨⟨?_, ?_, ?_, ?_⟩, hlive, ?_⟩
  · rw [h1]
    exact List.nodup_range
  · intro e
    rw [hmem]
    exact ⟨fun he => ⟨he, ((h2 e).1 he).1⟩, fun he => he.1⟩
  · exact fun e he => absurd he (hlive e)
  · exact fun e he => ((h2 e).1 ((hmem e).1 he)).2
  · exact ⟨_, by rw [h1, show nenv = 698 + 1 from by decide, List.range_succ_eq_map]⟩

theorem envInv_of_none {t : EnvTable} (hI : SlotsInv t) (hlive : ∀ e, ¬ t.Live e) : EnvInv ⟨t, fun _ => 0, []⟩ :=
  ⟨hI, fun _ => Nat.zero_le 1, fun e he => absurd he (hlive e), nofun, fun _ _ h => absurd h Nat.zero_ne_one⟩

/-- After `env_init`. -/
def EnvWorld.boot : EnvWorld := ⟨envInit clearedEnvs, fun _ => 0, []⟩

theorem boot_inv : EnvInv EnvWorld.boot := by
  obtain ⟨hI, hlive, -⟩ := envInit_slots
  exact envInv_of_none hI hlive

/-- Whatever is created, run and freed, the ids of live environments are distinct and positive. -/
theorem live_ids (cs : List EnvCall) : Always EnvStep
    (fun w => (∀ e f, w.table.Live e → w.table.Live f → (w.table.envs e).envId = (w.table.envs f).envId → e = f) ∧
      ∀ e, w.table.Live e → 0 < (w.table.envs e).envId.toInt) EnvWorld.boot cs := by
  apply Always.mono (P := fun w => SlotsInv w.table) (fun w h => ⟨fun e f => h.distinct, fun e => h.positive⟩)
  refine always_of_step ?_ boot_inv.slots
  rintro w c w' h ⟨hl, rfl⟩
  exact h.call c hl

/-- The ids of freed environments stay bad ones exactly as long as no slot is used again. -/
theorem env_ids (cs : List EnvCall) :
    Always EnvStep GoodIds EnvWorld.boot cs ↔ Each EnvStep Unused EnvWorld.boot cs := by
  refine always_iff_each (I := EnvInv) (fun w h => h.good) ?_ (fun w c w' h hs hP => unused_of_good h hs hP) boot_inv
  rintro w c w' h hC ⟨hl, rfl⟩
  exact h.call c hl hC

/-- An environment is created, freed and created again: the second has the id of the first. -/
theorem env_id_reused : ¬ Always EnvStep GoodIds EnvWorld.boot [.create, .free 0, .create] := by
  obtain ⟨hI₀, -, l, hl⟩ := envInit_slots
  unfold EnvWorld.boot
  generalize envInit clearedEnvs = t₀ at hI₀ hl ⊢
  intro h
  obtain ⟨t₁, hcall₁, hI₁, hlive₁, -, hl₁⟩ := create_call (w := ⟨t₀, fun _ => 0, []⟩) hI₀ hl
  have h₁ := h.2 _ ⟨trivial, rfl⟩
  rw [hcall₁] at h₁
  have h₂ := h₁.2 ⟨freeEnvironment t₁ 0, Function.update (fun _ => 0) 0 (0 + 1), [⟨(t₁.envs 0).envId, 0, 1⟩]⟩
    ⟨hlive₁, rfl⟩
  have hl₂ : (freeEnvironment t₁ 0).envFreeList = 0 :: l := congrArg (List.cons 0) hl₁
  obtain ⟨t₃, hcall₃, hI₃, hlive₃, -, -⟩ :=
      create_call (w := ⟨freeEnvironment t₁ 0, Function.update (fun _ => 0) 0 (0 + 1),
    [⟨(t₁.envs 0).envId, 0, 1⟩]⟩) (hI₁.free hlive₁) hl₂
  have h₃ : GoodIds _ := h₂.2 _ ⟨trivial, hcall₃.symm⟩
  have hbad := h₃.stale _ List.mem_cons_self ⟨show 1 < 2 by decide, show 2 < generations by decide⟩ false
  rw [hI₁.live 0 hlive₁, hI₃.accepts hlive₃] at hbad
  cases hbad

end Fos.Proc
