/-
A page fault on a full working set, step by step and alike for the clock, aging and the modified clock: used bits are
cleared and the list turned, a modified victim is written back, its page goes, its element gets the new page, that
comes, and the list is turned again.
-/
import Fos.Fault.Aging

namespace Fos.Fault

open Fos.Memory Fos.Heap Fos.Proc Fos.Disk Fos.Lib

/-! ## The steps -/

/-- The list in another order and the hand elsewhere. -/
structure Turns (e e' : Env) : Prop where
  dir : e'.envPageDirectory = e.envPageDirectory
  size : e'.pageWsMaxSize = e.pageWsMaxSize
  list : e'.pageWsList.Perm e.pageWsList
  active : e'.activeWorkingSet = e.activeWorkingSet
  diskEnvPgdir : e'.diskEnvPgdir = e.diskEnvPgdir
  diskTables : e'.diskTables = e.diskTables
  diskPages : e'.diskPages = e.diskPages

/-- Used bits of pages of the working set are cleared, and the list is turned. -/
def Searches (s a : Machine) : Prop := ∃ (l : List WorkingSetElement) (e : Env), (∀ w ∈ l, w ∈ s.env.pageWsList) ∧
  Turns s.env e ∧ a = { l.foldl clearUsed s with env := e }

/-- A victim that is there and modified is written back, and then what is mapped at `PGFLTEMP` may go. -/
def BacksUp (victim : WorkingSetElement) (a u : Machine) : Prop :=
  u = a ∧ (a.present victim.virtualAddress = true → modifiedBit a victim = false) ∨
    ∃ m, pfUpdateEnvPage victim.virtualAddress a = .ok () m ∧ (u = m ∨ unmapUserFrame pgfltemp m = .ok () u)

/-- The victim's page goes, its element gets page `va`, and that comes, or is rejected. -/
inductive Exchange (va : Nat) (victim : WorkingSetElement) (s : Machine) : Outcome → Machine → Prop
  | of {a u u₁ u₂ : Machine} {e : Env} {perm : Perm} {r : Bool} (hsearch : Searches s a) (hback : BacksUp victim a u)
      (hgoes : unmapUserFrame victim.virtualAddress u = .ok () u₁) (hperm : perm.buffered = false)
      (hmark : perm.uhpage = false) (hcomes : placePage va perm (withPage u₁ victim.addr va r) = .ok .returns u₂)
      (hturn : Turns u₂.env e)
      (hhand : ∀ a, e.pageLastWsElement = some a → a ∈ e.pageWsList.map (·.addr)) :
    Exchange va victim s .returns { u₂ with env := e }
  | rejected {a u u₁ t : Machine} {perm : Perm} {r : Bool} (hsearch : Searches s a) (hback : BacksUp victim a u)
      (hgoes : unmapUserFrame victim.virtualAddress u = .ok () u₁)
      (hcomes : placePage va perm (withPage u₁ victim.addr va r) = .ok .exits t) : Exchange va victim s .exits t

section Exchange

variable {s t u : Machine} {va : Nat} {victim : WorkingSetElement} {algo : PageRepAlgo} {e : Env} {o : Outcome}

theorem Turns.refl (e : Env) : Turns e e := ⟨rfl, rfl, .refl _, rfl, rfl, rfl, rfl⟩

theorem listFrom_perm (l : List WorkingSetElement) (a : Nat) : (listFrom l a).Perm l := by
  have hperm : (listFrom l a).Perm (l.takeWhile (·.addr ≠ a) ++ l.dropWhile (·.addr ≠ a)) := List.perm_append_comm
  rwa [List.takeWhile_append_dropWhile] at hperm

theorem rotated_perm (l : List WorkingSetElement) (a : Nat) : (rotated l a).Perm l := by
  unfold rotated
  split
  · exact listFrom_perm l _
  · exact .refl l

theorem turns_rotated (e : Env) (a : Nat) (hand : Option Nat) :
    Turns e { e with pageWsList := rotated e.pageWsList a, pageLastWsElement := hand } := by
  exact ⟨rfl, rfl, rotated_perm _ _, rfl, rfl, rfl, rfl⟩

theorem turns_hand (e : Env) (hand : Option Nat) : Turns e { e with pageLastWsElement := hand } :=
  ⟨rfl, rfl, .refl _, rfl, rfl, rfl, rfl⟩

/-- It still is a state of the process. -/
theorem Turns.ready (h : Turns s.env e) (hs : Ready s) : Ready { s with env := e } :=
  ⟨hs.kernel, h.dir.symm ▸ hs.dir, fun w hw => hs.ws w (h.list.mem_iff.1 hw), h.active.symm ▸ hs.active⟩

theorem Searches.ready {a : Machine} (h : Searches s a) (hs : Ready s) : Ready a := by
  obtain ⟨l, e, hl, hturn, rfl⟩ := h
  refine Turns.ready ?_ (hs.foldl_clearUsed fun w hw => hs.ws w (hl w hw))
  rw [foldl_clearUsed_env]
  exact hturn

theorem hand_head (h : e.pageLastWsElement = e.pageWsList.head?.map (·.addr)) (a : Nat)
    (ha : e.pageLastWsElement = some a) : a ∈ e.pageWsList.map (·.addr) := by
  rw [h] at ha
  obtain ⟨w, hw, rfl⟩ := Option.map_eq_some_iff.1 ha
  exact List.mem_map_of_mem (List.mem_of_mem_head? hw)

/-! ## The three policies -/

theorem clock_exchange (hs : Ready s) (hfull : FullSet s) (hr : pageFaultHandler .clock va s = .ok o t) :
    ∃ victim ∈ s.env.pageWsList, Exchange (roundDown va pageSize) victim s o t := by
  obtain ⟨passed, victim, -, hin, hvictim, hrun⟩ := clock_run hs hfull va
  rw [hrun] at hr
  obtain ⟨x, u₁, h1, h2⟩ := ok_of_bind hr
  obtain ⟨rfl, u, hback, h3⟩ := evictPage_ok h1
  unfold clockFinish at h2
  obtain ⟨_, m, h4, h2⟩ := ok_of_bind h2
  cases h4
  have hsearch : Searches s { passed.foldl clearUsed s with
      env := { (passed.foldl clearUsed s).env with pageLastWsElement := some x.addr } } := by
    refine ⟨passed, _, hin, ?_, rfl⟩
    rw [foldl_clearUsed_env]
    exact turns_hand _ _
  obtain ⟨o', u₂, h5, h2⟩ := ok_of_bind h2
  refine ⟨x, hvictim, ?_⟩
  cases o' with
  | exits =>
    cases h2
    exact .rejected hsearch (hback.imp id fun h => ⟨u, h, .inl rfl⟩) h3 h5
  | returns =>
    cases h2
    show Exchange _ x s .returns { u₂ with env := { u₂.env with
      pageWsList := rotated u₂.env.pageWsList x.addr
      pageLastWsElement := (rotated u₂.env.pageWsList x.addr).head?.map (·.addr) } }
    exact .of hsearch (hback.imp id fun h => ⟨u, h, .inl rfl⟩) h3 rfl rfl h5 (turns_rotated _ _ _) (hand_head rfl)

theorem modifiedClock_exchange (hs : Ready s) (hfull : FullSet s)
    (hr : pageFaultHandler .modifiedClock va s = .ok o t) :
    ∃ victim ∈ s.env.pageWsList, Exchange (roundDown va pageSize) victim s o t := by
  obtain ⟨passed, victim, -, hin, hvictim, hrun⟩ := modified_clock_run hs hfull va
  have hv := hs.ws victim hvictim
  refine ⟨victim, hvictim, ?_⟩
  rw [hrun] at hr
  unfold modifiedClockFinish at hr
  obtain ⟨_, a, h1, hr⟩ := ok_of_bind hr
  have hsearch : Searches s a := by
    cases h1
    refine ⟨passed, _, hin, ?_, rfl⟩
    rw [foldl_clearUsed_env]
    exact turns_rotated s.env victim.addr s.env.pageLastWsElement
  clear h1
  -- the end, from where the victim is written back
  have hend : ∀ {u}, BacksUp victim a u → modifiedClockPlace (roundDown va pageSize) victim u = .ok o t →
      Exchange (roundDown va pageSize) victim s o t := by
    intro u hback hplace
    unfold modifiedClockPlace at hplace
    obtain ⟨_, u₁, h2, hplace⟩ := ok_of_bind hplace
    obtain ⟨_, m, h3, hplace⟩ := ok_of_bind hplace
    cases h3
    obtain ⟨o', u₂, h4, hplace⟩ := ok_of_bind hplace
    cases o' with
    | exits =>
      cases hplace
      exact .rejected hsearch hback h2 h4
    | returns =>
      cases hplace
      exact .of hsearch hback h2 rfl rfl h4 (turns_hand u₂.env _) (hand_head rfl)
  obtain ⟨perms, u, h2, hr⟩ := ok_of_bind hr
  obtain rfl : a = u := (EStateM.Result.ok.inj ((ptGetPagePermissions_eq _ _).symm.trans h2)).2
  dsimp only at hr
  split at hr
  · obtain ⟨_, m, h3, hr⟩ := ok_of_bind hr
    obtain ⟨_, m', h4, hr⟩ := ok_of_bind hr
    -- the kernel's directory has nothing at `PGFLTEMP`
    have hsame : m' = m := by
      cases h4
      show m.setMem (m.mem.unmapFrame 0 pgfltemp) = m
      rw [(quiet_pfUpdateEnvPage hv _ _ _ h3 (hsearch.ready hs)).ready.unmap_pgfltemp]
      rfl
    exact hend (.inr ⟨m, h3, .inl hsame⟩) hr
  · rename_i hclean
    exact hend (.inl ⟨rfl, fun _ => unmodified_of_permissions h2 hclean⟩) hr

theorem lru_exchange (hstamps : ∀ w ∈ s.env.pageWsList, w.timeStamp < 2 ^ 32)
    (hfull : s.env.pageWsMaxSize ≤ s.env.pageWsList.length)
    (hr : pageFaultHandler .lruTimeApprox va s = .ok o t) :
    ∃ victim ∈ s.env.pageWsList, Exchange (roundDown va pageSize) victim s o t := by
  unfold pageFaultHandler at hr
  rw [if_neg (by decide), get_bind] at hr
  dsimp only at hr
  rw [if_neg (not_lt.2 hfull)] at hr
  obtain ⟨victim, u, hfirst, hback, hr⟩ := lruReplacement_run hstamps hr
  unfold lruFinish at hr
  obtain ⟨_, u₁, h1, hr⟩ := ok_of_bind hr
  obtain ⟨_, m, h2, hr⟩ := ok_of_bind hr
  cases h2
  have hsearch : Searches s s := ⟨[], s.env, by simp, .refl _, rfl⟩
  have hback : BacksUp victim s u := hback.imp id fun ⟨m, h4, h5⟩ => ⟨m, h4, .inr h5⟩
  obtain ⟨o', u₂, h3, hr⟩ := ok_of_bind hr
  refine ⟨victim, hfirst.mem, ?_⟩
  cases o' with
  | exits =>
    cases hr
    exact .rejected hsearch hback h1 h3
  | returns =>
    cases hr
    refine .of hsearch hback h1 rfl rfl h3 (turns_hand u₂.env _) fun a ha => ?_
    have ha : (if u₂.env.pageWsList.length = u₂.env.pageWsMaxSize then u₂.env.pageWsList.head?.map
      (·.addr) else none) = some a := ha
    split at ha
    · exact hand_head (e := { u₂.env with pageLastWsElement := u₂.env.pageWsList.head?.map (·.addr) }) rfl a ha
    · cases ha

end Exchange

end Fos.Fault
