/-
The page file as a map from pages of processes to contents. Every entry is backed by a disk frame of its
own; each call on the page file changes the map at its own page, or at the pages of its own process.
-/
import Fos.Disk.Entries
import Fos.Lib.Backed

namespace Fos.Disk

open Fos.Memory Fos.Heap Fos.Proc Fos.Lib

/-! ## The map -/

/-- From (process, page) to contents; `some none` is an entry whose contents nothing specifies. -/
abbrev DiskMap := Nat × Nat → Option (Option Page)

namespace DiskMap

def store (m : DiskMap) (x : Nat × Nat) (p : Page) : DiskMap := Function.update m x (some (some p))

/-- An entry for `x`, with the contents it had. -/
def claim (m : DiskMap) (x : Nat × Nat) : DiskMap := if (m x).isSome then m else Function.update m x (some none)

def remove (m : DiskMap) (x : Nat × Nat) : DiskMap := fun y => if y = x then none else m y

def removeAll (m : DiskMap) (e : Nat) : DiskMap := fun y => if y.1 = e then none else m y

/-- The map without `n` pages of process `e` from page `v` on. -/
def removeRange (m : DiskMap) (e v n : Nat) : DiskMap := fun y => if y.1 = e ∧ v ≤ y.2 ∧ y.2 < v + n then none else m y

theorem removeRange_zero (m : DiskMap) (e v : Nat) : m.removeRange e v 0 = m := by
  funext y
  unfold removeRange
  rw [if_neg (by omega)]

theorem removeRange_add (m : DiskMap) (e v n k : Nat) :
    (m.removeRange e v n).removeRange e (v + n) k = m.removeRange e v (n + k) := by
  funext y
  unfold removeRange
  by_cases h : y.1 = e ∧ v ≤ y.2 ∧ y.2 < v + (n + k)
  · rw [if_pos h]
    by_cases hn : v + n ≤ y.2
    · rw [if_pos (by omega)]
    · rw [if_neg (by omega), if_pos (by omega)]
  · rw [if_neg h, if_neg (by omega), if_neg (by omega)]

theorem removeRange_one (m : DiskMap) (e v : Nat) : m.removeRange e v 1 = m.remove (e, v) := by
  funext y
  unfold removeRange remove
  congr 1
  simp only [eq_iff_iff, Prod.ext_iff]
  omega

section Other

variable {m : DiskMap} {x y : Nat × Nat}

theorem store_other (h : y ≠ x) (p : Page) : m.store x p y = m y := Function.update_of_ne h ..

theorem claim_other (h : y ≠ x) : m.claim x y = m y := by
  unfold claim
  split
  · rfl
  · exact Function.update_of_ne h ..

theorem remove_other (h : y ≠ x) : m.remove x y = m y := if_neg h

theorem removeAll_other {e : Nat} (h : y.1 ≠ e) : m.removeAll e y = m y := if_neg h

end Other

theorem store_claim (m : DiskMap) (x : Nat × Nat) (p : Page) : (m.claim x).store x p = m.store x p := by
  unfold claim store
  split
  · rfl
  · exact Function.update_idem ..

end DiskMap

/-! ## Disk frames of all processes -/

/-- The disk frames that entries can hold. -/
def diskPool : Set Nat := {f | 1 ≤ f ∧ f < pagesPerFile}

/-- The disk frame of a page of a process. -/
def diskCell (env : Nat → Env) (x : Nat × Nat) : Option Nat :=
  if diskEntry (env x.1) x.2 = 0 then none else some (diskEntry (env x.1) x.2)

/-- The page file, as process `e` in state `s` and the others share it, is the map `m`. -/
structure Represents (env : Nat → Env) (e : Nat) (m : DiskMap) (s : Machine) : Prop where
  tables : Tabled env e s
  backed : Backed diskPool (diskCell (Function.update env e s.env)) s.pageFile.diskFreeFrameList
  stores : Stores (diskCell (Function.update env e s.env)) s.pageFile.disk m

section Represents

variable {env : Nat → Env} {e va v f : Nat} {m : DiskMap} {s t : Machine} {E E' : Env}

theorem diskCell_self : diskCell (Function.update env e E) (e, v) =
    if diskEntry E v = 0 then none else some (diskEntry E v) := by
  simp only [diskCell, Function.update_self]

theorem diskCell_congr (h : ∀ w, diskEntry E' w = diskEntry E w) :
    diskCell (Function.update env e E') = diskCell (Function.update env e E) := by
  funext x
  unfold diskCell
  by_cases hx : x.1 = e
  · rw [hx, Function.update_self, Function.update_self, h]
  · rw [Function.update_of_ne hx, Function.update_of_ne hx]

/-- A change of one entry. -/
theorem diskCell_update (env : Nat → Env) (e : Nat) (h : ∀ w, diskEntry E' w = if w = v then f else diskEntry E w) :
    diskCell (Function.update env e E') =
      Function.update (diskCell (Function.update env e E)) (e, v) (if f = 0 then none else some f) := by
  funext x
  by_cases hx : x = (e, v)
  · rw [hx, Function.update_self, diskCell_self, h, if_pos rfl]
  · rw [Function.update_of_ne hx]
    unfold diskCell
    by_cases he : x.1 = e
    · have hv : x.2 ≠ v := fun hc => hx (Prod.ext he hc)
      rw [he, Function.update_self, Function.update_self, h, if_neg hv]
    · rw [Function.update_of_ne he, Function.update_of_ne he]

/-- The disk frame for a page: the page has an entry then. -/
theorem Represents.frameFor {r : Option Nat} (h : Represents env e m s) (hv : va < userTop)
    (hr : diskFrameFor va s = .ok r t) :
    Stays s t ∧ t.env.diskEnvPgdir ≠ 0 ∧ match r with
      | none => Represents env e m t
      | some f => diskCell (Function.update env e t.env) (e, va / 4096) = some f ∧
          Represents env e (m.claim (e, va / 4096)) t := by
  obtain ⟨hT, hS, hd, hF⟩ := diskFrameFor_ok h.tables hv hr
  refine ⟨hS, hd, ?_⟩
  cases hF with
  | full h0 hsame hfree =>
    refine ⟨hT, ?_, ?_⟩
    · rw [diskCell_congr hsame, hfree]
      exact h.backed
    · rw [diskCell_congr hsame, hS.disk]
      exact h.stores
  | found hne hsame hfree =>
    have hcell : diskCell (Function.update env e s.env) (e, va / 4096) = some (diskEntry s.env (va / 4096)) := by
      rw [diskCell_self, if_neg hne]
    have hclaim : m.claim (e, va / 4096) = m := by
      have : m (e, va / 4096) ≠ none := by
        intro hc
        rw [(h.stores.dom _).1 hc] at hcell
        cases hcell
      rw [DiskMap.claim, if_pos (Option.isSome_iff_ne_none.2 this)]
    refine ⟨by rw [diskCell_congr hsame]; exact hcell, hT, ?_, ?_⟩
    · rw [diskCell_congr hsame, hfree]
      exact h.backed
    · rw [diskCell_congr hsame, hS.disk, hclaim]
      exact h.stores
  | @taken f h0 hfree hsame =>
    have hB := h.backed
    rw [hfree] at hB
    have hf : f ≠ 0 := by
      have := (hB.free_mem f List.mem_cons_self).1
      omega
    have hnone : diskCell (Function.update env e s.env) (e, va / 4096) = none := by
      rw [diskCell_self, if_pos h0]
    have hcell := diskCell_update env e hsame
    rw [if_neg hf] at hcell
    have hclaim : m.claim (e, va / 4096) = Function.update m (e, va / 4096) (some none) := by
      rw [DiskMap.claim, (h.stores.dom _).2 hnone]
      rfl
    refine ⟨by rw [hcell, Function.update_self], hT, ?_, ?_⟩
    · rw [hcell]
      exact hB.take hnone
    · rw [hcell, hS.disk, hclaim]
      exact h.stores.take f

/-- The disk frames of the other processes are as they were. -/
def Spares (env : Nat → Env) (e : Nat) (s t : Machine) : Prop :=
  ∀ x f, x.1 ≠ e → diskCell env x = some f → t.pageFile.disk f = s.pageFile.disk f

theorem Spares.of_disk (h : t.pageFile.disk = s.pageFile.disk) : Spares env e s t := fun _ f _ _ => congrFun h f

theorem Spares.trans {u : Machine} (h : Spares env e s t) (h' : Spares env e t u) : Spares env e s u :=
  fun x f hx hf => (h' x f hx hf).trans (h x f hx hf)

/-- Writing the disk frame of a page. -/
theorem Represents.write (h : Represents env e m s) (hcell : diskCell (Function.update env e s.env) (e, v) = some f)
    (p : Page) :
    Represents env e (m.store (e, v) p)
      { s with pageFile := { s.pageFile with disk := Function.update s.pageFile.disk f p } } := by
  constructor
  · exact h.tables.entries rfl rfl rfl
  · exact h.backed
  · exact h.stores.write h.backed hcell p

theorem Represents.write_spares (h : Represents env e m s)
    (hcell : diskCell (Function.update env e s.env) (e, v) = some f) (p : Page) :
    Spares env e s { s with pageFile := { s.pageFile with disk := Function.update s.pageFile.disk f p } } := by
  intro x g hx hg
  refine Function.update_of_ne (fun hc => hx ?_) ..
  have hg' : diskCell (Function.update env e s.env) x = some f := by
    rw [← hc, ← hg, diskCell, diskCell, Function.update_of_ne hx]
  exact congrArg Prod.fst (h.backed.inj x (e, v) f hg' hcell)

theorem pfAddEnvPage_represents {p : Page} {r : Bool} (h : Represents env e m s) (hv : va < userTop)
    (hr : pfAddEnvPage va p s = .ok r t) :
    Represents env e (if r then m.store (e, va / 4096) p else m) t ∧ Spares env e s t := by
  unfold pfAddEnvPage at hr
  obtain ⟨a, u, h1, hr⟩ := ok_of_bind hr
  obtain ⟨hS, -, hm⟩ := h.frameFor hv h1
  have hsu : Spares env e s u := .of_disk hS.disk
  cases a with
  | none =>
    cases hr
    exact ⟨hm, hsu⟩
  | some f =>
    cases hr
    obtain ⟨hcell, hu⟩ := hm
    have hw := hu.write hcell p
    rw [DiskMap.store_claim] at hw
    exact ⟨hw, hsu.trans (hu.write_spares hcell p)⟩

theorem pfAddEmptyEnvPage_represents {r b : Bool} (h : Represents env e m s) (hv : va < userTop)
    (hr : pfAddEmptyEnvPage va b s = .ok r t) :
    Represents env e (if r then (if b then m.store (e, va / 4096) zeroPage else m.claim (e, va / 4096)) else m) t ∧
      Spares env e s t := by
  unfold pfAddEmptyEnvPage at hr
  cases b with
  | true => exact pfAddEnvPage_represents h hv hr
  | false =>
    obtain ⟨a, u, h1, hr⟩ := ok_of_bind hr
    cases hr
    obtain ⟨hS, -, hm⟩ := h.frameFor hv h1
    have hst : Spares env e s t := .of_disk hS.disk
    cases a with
    | none => exact ⟨hm, hst⟩
    | some f => exact ⟨hm.2, hst⟩

/-- A call that changes no entry. -/
theorem Represents.congr (h : Represents env e m s) (hT : Tabled env e t) (hp : t.pageFile = s.pageFile)
    (he : ∀ v, diskEntry t.env v = diskEntry s.env v) : Represents env e m t := by
  constructor
  · exact hT
  · rw [diskCell_congr he, hp]
    exact h.backed
  · rw [diskCell_congr he, hp]
    exact h.stores

/-- A change of the entry of a user page in the page tables. -/
theorem Represents.setUserPte (h : Represents env e m s) (hv : va < userTop) (p : Pte) :
    Represents env e m (s.setMem (s.mem.setPte (slot s.env.envPageDirectory va) p)) := by
  obtain ⟨page, hT⟩ := h.tables
  refine ⟨⟨page, hT.setPte (fun w hw hc => ?_) p⟩, h.backed, h.stores⟩
  have h2 := congrArg Prod.snd hc
  have := hw.1
  simp only [slot, userTop] at h2 hv
  omega

theorem Represents.withFrames (h : Represents env e m s) (g : Nat → Page) : Represents env e m { s with frames := g } :=
  ⟨h.tables, h.backed, h.stores⟩

theorem Stays.pte (h : Stays s t) (hv : va < userTop) : t.pte va = s.pte va := by
  unfold Machine.pte
  rw [h.dir]
  apply h.user.pte _
  intro hc
  have := hc.2.1
  simp only [slot, userTop] at this hv
  omega

/-- The end of `pf_update_env_page`, once the page has a disk frame. -/
theorem Represents.writeBack (h : Represents env e m s) (hv : va < userTop) (hd : s.env.diskEnvPgdir ≠ 0)
    (hcell : diskCell (Function.update env e s.env) (e, va / 4096) = some f)
    (hr : (do
      let s ← get
      if !s.hasTable va then throw .faults
      let e := s.pte va
      writeDiskPage (s.env.diskPages (va / 4096)) (s.frames e.frame)
      modifyMem (·.setPte (slot s.env.envPageDirectory va) { e with perm := { e.perm with modified := false } }) :
        PM Unit) s =
      .ok () t) : Represents env e (m.store (e, va / 4096) (s.frames (s.pte va).frame)) t ∧ Spares env e s t := by
  rw [get_bind] at hr
  split at hr
  · obtain ⟨_, _, h3, -⟩ := ok_of_bind hr
    cases h3
  · cases hr
    have hf : s.env.diskPages (va / 4096) = f := by
      rw [diskCell_self, diskEntry, if_neg hd] at hcell
      by_cases ht : (s.env.diskTables (va / 4096 / 1024)).isSome
      · rw [if_pos ht] at hcell
        split at hcell
        · cases hcell
        · exact Option.some.inj hcell
      · rw [if_neg ht, if_pos rfl] at hcell
        cases hcell
    rw [hf]
    exact ⟨(h.write hcell _).setUserPte hv _, h.write_spares hcell _⟩

theorem pfUpdateEnvPage_represents (h : Represents env e m s) (hv : va < userTop)
    (hr : pfUpdateEnvPage va s = .ok () t) :
    Represents env e (m.store (e, va / 4096) (s.frames (s.pte va).frame)) t ∧ Spares env e s t := by
  unfold pfUpdateEnvPage at hr
  have hk : ¬ kernelBase ≤ va := by simp only [kernelBase, userTop] at *; omega
  rw [if_neg hk] at hr
  obtain ⟨_, u, h1, hr⟩ := ok_of_bind hr
  obtain ⟨hT, hS, hp, hd, he⟩ := getDiskPageDirectory_ok h.tables h1
  have hu := h.congr hT hp he
  have hsu : Spares env e s u := .of_disk hS.disk
  obtain ⟨b, _, h2, hr⟩ := ok_of_bind hr
  rw [hasDiskPage_eq va hd] at h2
  cases h2
  cases hb : decide (diskEntry u.env (va / 4096) ≠ 0) with
  | true =>
    simp only [hb, Bool.not_true, Bool.false_eq_true, if_false] at hr
    have hne : diskEntry u.env (va / 4096) ≠ 0 := of_decide_eq_true hb
    rw [← hS.pte hv, ← hS.frames]
    obtain ⟨hR, hut⟩ := hu.writeBack hv hd (by rw [diskCell_self, if_neg hne]) hr
    exact ⟨hR, hsu.trans hut⟩
  | false =>
    simp only [hb, Bool.not_false, if_true] at hr
    split at hr
    · obtain ⟨a, w, h3, hr⟩ := ok_of_bind hr
      unfold pfAddEmptyEnvPage at h3
      obtain ⟨o, w', h4, h3⟩ := ok_of_bind h3
      cases h3
      obtain ⟨hSw, hdw, hm⟩ := hu.frameFor hv h4
      cases o with
      | none =>
        obtain ⟨_, _, h5, -⟩ := ok_of_bind hr
        cases h5
      | some f =>
        have hsw := hS.trans hSw
        rw [← hsw.pte hv, ← hsw.frames, ← DiskMap.store_claim]
        obtain ⟨hR, hwt⟩ := hm.2.writeBack hv hdw hm.1 hr
        exact ⟨hR, (hsu.trans (.of_disk hSw.disk)).trans hwt⟩
    · obtain ⟨_, _, h5, -⟩ := ok_of_bind hr
      cases h5

theorem storePage_ok {g : Page → Page} (h : storePage va g s = .ok () t) :
    s.present va = true ∧ t = { s.setMem (s.mem.setPte (slot s.env.envPageDirectory va)
      { s.pte va with perm := { (s.pte va).perm with used := true, modified := true } }) with
        frames := Function.update s.frames (s.pte va).frame (g (s.frames (s.pte va).frame)) } := by
  unfold storePage at h
  rw [get_bind] at h
  split at h
  · rename_i hp
    cases h
    exact ⟨hp, rfl⟩
  · cases h

theorem ptSetPagePermissions_ok {a b : Perm} (h : Proc.ptSetPagePermissions va a b s = .ok () t) :
    s.hasTable va = true ∧ t = s.setMem (s.mem.setPte (slot s.env.envPageDirectory va)
      { s.pte va with perm := ((s.pte va).perm.union a).diff b }) := by
  obtain ⟨k, hk, rfl⟩ := onKernel_ok h
  have hm : s.kernel.mem = s.mem := rfl
  simp only [onMem, Mem.ptSetPagePermissions, hm] at hk
  by_cases ht : (s.mem.table (owner s.env.envPageDirectory va) (pdx va)).isSome = true
  · rw [if_pos ht] at hk
    cases hk
    exact ⟨ht, rfl⟩
  · rw [if_neg ht] at hk
    cases hk

/-- The two addresses are of one page. -/
theorem page_address (hv : va < userTop) (s : Machine) :
    roundDown va pageSize < userTop ∧ roundDown va pageSize / 4096 = va / 4096 ∧
      s.present (roundDown va pageSize) = s.present va ∧ s.pte (roundDown va pageSize) = s.pte va := by
  have hrd : roundDown va pageSize = va / 4096 * 4096 := by
    unfold roundDown pageSize; omega
  have hlt : va / 4096 * 4096 < userTop := by simp only [userTop] at *; omega
  have hdiv : va / 4096 * 4096 / 4096 = va / 4096 := by omega
  have hown : ∀ d, owner d (va / 4096 * 4096) = d ∧ owner d va = d := by
    intro d
    simp only [owner, isKernelAddress, decide_eq_true_eq, if_neg (show ¬ userTop ≤ va / 4096 * 4096 by omega),
      if_neg (show ¬ userTop ≤ va by omega), and_self]
  have hpdx : pdx (va / 4096 * 4096) = pdx va := by unfold pdx; omega
  rw [hrd]
  have hpte : s.pte (va / 4096 * 4096) = s.pte va := by
    simp only [Machine.pte, slot, (hown _).1, (hown _).2, hdiv]
  refine ⟨hlt, hdiv, ?_, hpte⟩
  simp only [Machine.present, Machine.hasTable, hpte, (hown _).1, (hown _).2, hpdx]

/-- A read finds what the map holds, and leaves it in the frame of the page. -/
theorem pfReadEnvPage_represents {r : Bool} (h : Represents env e m s) (hv : va < userTop)
    (hr : pfReadEnvPage va s = .ok r t) :
    Represents env e m t ∧ t.env = s.env ∧ t.pageFile = s.pageFile ∧ r = (m (e, va / 4096)).isSome ∧
      ∀ p, m (e, va / 4096) = some (some p) → t.present va = true ∧ t.frames (t.pte va).frame = p := by
  obtain ⟨hlt, hdiv, -, -⟩ := page_address hv s
  have hnone : diskEntry s.env (va / 4096) = 0 → m (e, va / 4096) = none := fun h0 =>
    (h.stores.dom _).2 (by rw [diskCell_self, if_pos h0])
  unfold pfReadEnvPage at hr
  rw [get_bind] at hr
  split at hr
  · rename_i hd
    cases hr
    rw [hnone (by rw [diskEntry, if_pos hd])]
    exact ⟨h, rfl, rfl, rfl, by simp⟩
  rename_i hd
  rw [bind_of_ok (hasDiskPage_eq _ hd), hdiv] at hr
  cases hb : decide (diskEntry s.env (va / 4096) ≠ 0) with
  | false =>
    simp only [hb, Bool.not_false, if_true] at hr
    cases hr
    have h0 : diskEntry s.env (va / 4096) = 0 := not_not.1 (of_decide_eq_false hb)
    rw [hnone h0]
    exact ⟨h, rfl, rfl, rfl, by simp⟩
  | true =>
    simp only [hb, Bool.not_true, Bool.false_eq_true, if_false] at hr
    have hne : diskEntry s.env (va / 4096) ≠ 0 := of_decide_eq_true hb
    have hcell : diskCell (Function.update env e s.env) (e, va / 4096) = some (diskEntry s.env (va / 4096)) := by
      rw [diskCell_self, if_neg hne]
    have hsome : m (e, va / 4096) ≠ none := by
      intro hc
      rw [(h.stores.dom _).1 hc] at hcell
      cases hcell
    have hpages : s.env.diskPages (va / 4096) = diskEntry s.env (va / 4096) := by
      unfold diskEntry at hne ⊢
      rw [if_neg hd] at hne ⊢
      split
      · rfl
      · rename_i ht
        rw [if_neg ht] at hne
        exact absurd rfl hne
    rw [get_bind] at hr
    obtain ⟨_, u, h1, hr⟩ := ok_of_bind hr
    obtain ⟨hpres, hu⟩ := storePage_ok h1
    obtain ⟨_, w, h2, hr⟩ := ok_of_bind hr
    obtain ⟨htab, hw⟩ := ptSetPagePermissions_ok h2
    cases hr
    have hupte : u.pte (roundDown va pageSize) = { s.pte (roundDown va pageSize) with
        perm := { (s.pte (roundDown va pageSize)).perm with used := true, modified := true } } := by
      rw [hu]
      exact Function.update_self ..
    have htpte : t.pte (roundDown va pageSize) = { s.pte (roundDown va pageSize) with
        perm := ((u.pte (roundDown va pageSize)).perm.union .none).diff { modified := true } } := by
      rw [hw]
      refine (Function.update_self ..).trans ?_
      rw [hupte]
    refine ⟨?_, by rw [hw, hu]; rfl, by rw [hw, hu]; rfl, (Option.isSome_iff_ne_none.2 hsome).symm, fun p hp => ?_⟩
    · rw [hw, hu]
      exact ((h.setUserPte hlt _).withFrames _).setUserPte hlt _
    rw [← (page_address hv t).2.2.1, ← (page_address hv t).2.2.2, htpte]
    constructor
    · rw [Machine.present, Bool.and_eq_true, htpte, hupte]
      have hP := (Bool.and_eq_true _ _ ▸ hpres : _ ∧ _).2
      refine ⟨by rw [hw]; exact htab, ?_⟩
      show (((s.pte (roundDown va pageSize)).perm.present || false) && !false) = true
      rw [hP]
      rfl
    · rw [hw, hu]
      refine (Function.update_self ..).trans ?_
      rw [hpages]
      exact h.stores.val _ _ _ hcell hp

/-! ## Entries that go -/

/-- The state once the entry of page `v` is cleared and its disk frame free. -/
def dropped (s : Machine) (v : Nat) : Machine := { s with
  env := { s.env with diskPages := Function.update s.env.diskPages v 0 }
  pageFile := { s.pageFile with
    diskFreeFrameList := if s.env.diskPages v = 0 then s.pageFile.diskFreeFrameList
      else s.env.diskPages v :: s.pageFile.diskFreeFrameList } }

theorem freeDiskFrame_dropped (s : Machine) (v : Nat) :
    freeDiskFrame (s.env.diskPages v)
      { s with env := { s.env with diskPages := Function.update s.env.diskPages v 0 } } =
      .ok () (dropped s v) := by
  unfold freeDiskFrame dropped
  split
  · rfl
  · rfl

theorem dropped_entry (s : Machine) (v w : Nat) :
    diskEntry (dropped s v).env w = if w = v then 0 else diskEntry s.env w := by
  simp only [diskEntry, dropped, Function.update_apply]
  by_cases hw : w = v
  · simp [hw]
  · simp [hw]

/-- Clearing an entry whose table is there. -/
theorem Represents.drop (h : Represents env e m s) (hd : s.env.diskEnvPgdir ≠ 0)
    (ht : (s.env.diskTables (v / 1024)).isSome) : Represents env e (m.remove (e, v)) (dropped s v) := by
  have hentry : diskEntry s.env v = s.env.diskPages v := by rw [diskEntry, if_neg hd, if_pos ht]
  have hcell := diskCell_update env e (dropped_entry s v)
  rw [if_pos rfl] at hcell
  have hold : diskCell (Function.update env e s.env) (e, v) =
      if s.env.diskPages v = 0 then none else some (s.env.diskPages v) := by
    rw [diskCell_self, hentry]
  constructor
  · exact h.tables.entries rfl rfl rfl
  · rw [hcell]
    simp only [dropped]
    split
    · rename_i h0
      rw [if_pos h0] at hold
      rw [← hold, Function.update_eq_self]
      exact h.backed
    · rename_i h0
      rw [if_neg h0] at hold
      exact h.backed.drop hold
  · rw [hcell]
    refine h.stores.restrict (· = (e, v)) ?_ ?_
    · rintro y rfl
      exact Function.update_self ..
    · exact fun y hy => Function.update_of_ne hy ..

theorem pfRemoveEnvPage_represents (h : Represents env e m s) (hr : pfRemoveEnvPage va s = .ok () t) :
    Represents env e (m.remove (e, va / 4096)) t ∧ t.pageFile.disk = s.pageFile.disk := by
  have hpdx : va / 4096 / 1024 = pdx va := by unfold pdx; omega
  -- where there is no entry the map has none
  have hgone : diskEntry s.env (va / 4096) = 0 → m.remove (e, va / 4096) = m := by
    intro h0
    funext y
    unfold DiskMap.remove
    split
    · rename_i hy
      rw [hy, (h.stores.dom _).2 (by rw [diskCell_self, if_pos h0])]
    · rfl
  unfold pfRemoveEnvPage at hr
  rw [get_bind] at hr
  split at hr
  · rename_i hd
    cases hr
    rw [hgone (by rw [diskEntry, if_pos hd])]
    exact ⟨h, rfl⟩
  rename_i hd
  rw [bind_of_ok (getDiskPageTable_find va s)] at hr
  cases ht : (s.env.diskTables (pdx va)).isSome with
  | false =>
    simp only [ht, Bool.not_false, if_true] at hr
    cases hr
    rw [hgone (by rw [diskEntry, if_neg hd, hpdx, ht]; rfl)]
    exact ⟨h, rfl⟩
  | true =>
    simp only [ht, Bool.not_true, Bool.false_eq_true, if_false] at hr
    rw [get_bind] at hr
    obtain ⟨_, u, h1, hr⟩ := ok_of_bind hr
    cases h1
    rw [freeDiskFrame_dropped] at hr
    cases hr
    exact ⟨h.drop hd (by rwa [hpdx]), rfl⟩

/-! ## The end of a process -/

theorem Represents.entry_zero (h : Represents env e m s) (hm : m (e, v) = none) : diskEntry s.env v = 0 := by
  have := (h.stores.dom (e, v)).1 hm
  rw [diskCell_self] at this
  by_contra h0
  rw [if_neg h0] at this
  cases this

theorem Represents.none_of_zero (h : Represents env e m s) (h0 : diskEntry s.env v = 0) : m (e, v) = none :=
  (h.stores.dom _).2 (by rw [diskCell_self, if_pos h0])

/-- The map without pages that have no entry. -/
theorem Represents.removeRange_none (h : Represents env e m s) {n : Nat}
    (h0 : ∀ w, v ≤ w → w < v + n → diskEntry s.env w = 0) : m.removeRange e v n = m := by
  funext y
  unfold DiskMap.removeRange
  split
  · rename_i hy
    obtain ⟨he, h1, h2⟩ := hy
    rw [show y = (e, y.2) from Prod.ext he rfl, h.none_of_zero (h0 _ h1 h2)]
  · rfl

/-- The loop over the entries of a table. -/
theorem Represents.freeDiskPages : ∀ (n v : Nat) (m : DiskMap) (s : Machine), Represents env e m s →
    s.env.diskEnvPgdir ≠ 0 →
    (∀ w, v ≤ w → w < v + n → (s.env.diskTables (w / 1024)).isSome) →
    ∃ t, Disk.freeDiskPages v n s = .ok () t ∧ Represents env e (m.removeRange e v n) t ∧ t.kernel = s.kernel ∧
      t.env.diskEnvPgdir = s.env.diskEnvPgdir ∧ t.env.diskTables = s.env.diskTables ∧ t.pageFile.disk = s.pageFile.disk
  | 0, v, m, s, h, _, _ => ⟨s, rfl, by rwa [DiskMap.removeRange_zero], rfl, rfl, rfl, rfl⟩
  | n + 1, v, m, s, h, hd, ht => by
    obtain ⟨t, hr, ht', hk, hd', htab, hdisk⟩ := Represents.freeDiskPages n (v + 1) (m.remove (e, v)) (dropped s v)
      (h.drop hd (ht v le_rfl (by omega))) hd (fun w h1 h2 => ht w (by omega) (by omega))
    refine ⟨t, ?_, ?_, hk, hd', htab, hdisk⟩
    · unfold Disk.freeDiskPages
      rw [get_bind, modifyEnv, modify_bind, bind_of_ok (freeDiskFrame_dropped s v)]
      exact hr
    · rwa [← DiskMap.removeRange_one, DiskMap.removeRange_add, Nat.add_comm 1 n] at ht'

/-- A table whose entries are gone is given back. -/
theorem Represents.freeTable (h : Represents env e m s) {i : Nat} (hf : s.env.diskTables i = some f)
    (h0 : ∀ w, w / 1024 = i → diskEntry s.env w = 0) :
    ∃ k, kfree (kheapVirtualAddress s.kernel (f * 4096)) s.kernel = .ok () k ∧ Represents env e m
      { s with kernel := k, env := { s.env with diskTables := Function.update s.env.diskTables i none } } := by
  obtain ⟨page, hT⟩ := h.tables
  obtain ⟨k, page', hr, hT'⟩ := hT.freeTable (e := e) (i := i) (f := f)
    (E := { s.env with diskTables := Function.update s.env.diskTables i none }) (by rwa [Function.update_self])
    (by rw [Function.update_self]) (by rw [Function.update_self])
  refine ⟨k, hr, h.congr (Tabled.update ⟨page', hT'⟩ rfl rfl) rfl fun w => ?_⟩
  by_cases hw : w / 1024 = i
  · rw [h0 w hw]
    simp [diskEntry, hw]
  · simp only [diskEntry, Function.update_of_ne hw]

/-- The loop over the tables. -/
theorem Represents.freeDiskTables : ∀ (n i : Nat) (m : DiskMap) (s : Machine), Represents env e m s →
    s.env.diskEnvPgdir ≠ 0 →
    ∃ t, Disk.freeDiskTables i n s = .ok () t ∧ Represents env e (m.removeRange e (i * 1024) (n * 1024)) t ∧
      t.env.diskEnvPgdir ≠ 0 ∧ (∀ j, i ≤ j → j < i + n → t.env.diskTables j = none) ∧
      (∀ j, s.env.diskTables j = none → t.env.diskTables j = none) ∧ t.pageFile.disk = s.pageFile.disk
  | 0, i, m, s, h, hd =>
    ⟨s, rfl, by rwa [Nat.zero_mul, DiskMap.removeRange_zero], hd, fun j h1 h2 => by omega, fun _ hj => hj, rfl⟩
  | n + 1, i, m, s, h, hd => by
    -- one table, then the rest of them
    obtain ⟨u, hu, hR, hdu, hnone, hkeep, hdisk⟩ : ∃ u, Disk.freeDiskTables i (n + 1) s =
        Disk.freeDiskTables (i + 1) n u ∧
        Represents env e (m.removeRange e (i * 1024) 1024) u ∧ u.env.diskEnvPgdir ≠ 0 ∧ u.env.diskTables i = none ∧
        (∀ j, s.env.diskTables j = none → u.env.diskTables j = none) ∧ u.pageFile.disk = s.pageFile.disk := by
      rw [Disk.freeDiskTables, get_bind]
      cases hf : s.env.diskTables i with
      | none =>
        refine ⟨s, rfl, ?_, hd, hf, fun _ hj => hj, rfl⟩
        rw [h.removeRange_none fun w h1 h2 => ?_]
        · exact h
        · rw [diskEntry, if_neg hd, show w / 1024 = i by omega, hf]
          rfl
      | some f =>
        obtain ⟨u, hu, hR, hk, hdu, htab, hdisk⟩ := h.freeDiskPages 1024 (i * 1024) m s hd fun w h1 h2 => by
          rw [show w / 1024 = i by omega, hf]
          rfl
        obtain ⟨k, hkf, hR'⟩ := hR.freeTable (htab ▸ hf) fun w hw => hR.entry_zero (by
          unfold DiskMap.removeRange
          rw [if_pos ⟨rfl, by omega, by omega⟩])
        refine ⟨_, ?_, hR', by rw [hdu]; exact hd, Function.update_self .., fun j hj => ?_, hdisk⟩
        · simp only
          have hon := onKernel_of_ok
            (s := { u with env := { u.env with diskTables := Function.update u.env.diskTables i none } }) hkf
          rw [get_bind, bind_of_ok hu, modifyEnv, modify_bind, ← hk]
          exact bind_of_ok hon
        · simp only [Function.update_apply]
          split
          · rfl
          · rw [htab, hj]
    obtain ⟨t, ht, hRt, hdt, hnonet, hkeept, hdiskt⟩ := Represents.freeDiskTables n (i + 1) _ u hR hdu
    refine ⟨t, hu.trans ht, ?_, hdt, fun j h1 h2 => ?_, fun j hj => hkeept j (hkeep j hj), hdiskt.trans hdisk⟩
    · have := DiskMap.removeRange_add m e (i * 1024) 1024 (n * 1024)
      rw [← Nat.succ_mul] at this
      rw [show (i + 1) * 1024 = i * 1024 + 1024 from Nat.succ_mul i 1024] at hRt
      rwa [DiskMap.removeRange_add, show 1024 + n * 1024 = (n + 1) * 1024 by omega] at hRt
    · by_cases hji : j = i
      · exact hji ▸ hkeept i hnone
      · exact hnonet j (by omega) (by omega)

/-- `pf_free_env` of a process with a directory returns, and nothing of the process is left in the page file. -/
theorem Represents.pfFreeEnv (h : Represents env e m s) (hd : s.env.diskEnvPgdir ≠ 0) :
    ∃ t, Disk.pfFreeEnv s = .ok () t ∧ Represents env e (m.removeAll e) t ∧ t.pageFile.disk = s.pageFile.disk := by
  obtain ⟨t, ht, hR, hdt, hnone, hkeep, hdisk⟩ := h.freeDiskTables (pdx userTop) 0 m s hd
  have hall : ∀ j, t.env.diskTables j = none := by
    intro j
    by_cases hj : j < pdx userTop
    · exact hnone j (Nat.zero_le j) (by omega)
    · obtain ⟨page, hT⟩ := h.tables
      have := hT.lower (e := e) (i := j) (by omega)
      rw [Function.update_self] at this
      exact hkeep j this
  obtain ⟨page, hT⟩ := hR.tables
  obtain ⟨k, page', hk, hT'⟩ := hT.freeDirectory (e := e) (E := { t.env with diskEnvPgdir := 0 })
    (by rwa [Function.update_self]) (by rwa [Function.update_self]) rfl (by rw [Function.update_self])
  rw [Function.update_self] at hk
  refine ⟨{ t with kernel := k, env := { t.env with diskEnvPgdir := 0 } }, ?_, ?_, hdisk⟩
  · unfold Disk.pfFreeEnv
    rw [get_bind, if_neg hd]
    refine (bind_of_ok ht).trans ?_
    rw [get_bind, bind_of_ok (onKernel_of_ok hk)]
    rfl
  · have hzero : ∀ w, diskEntry t.env w = 0 := by
      intro w
      rw [diskEntry, hall]
      simp
    have hmap : m.removeRange e (0 * 1024) (pdx userTop * 1024) = m.removeAll e := by
      funext y
      unfold DiskMap.removeAll
      by_cases hy : y.1 = e
      · rw [if_pos hy, show y = (e, y.2) from Prod.ext hy rfl]
        exact hR.none_of_zero (hzero y.2)
      · rw [if_neg hy, DiskMap.removeRange, if_neg fun hc => hy hc.1]
    rw [← hmap]
    exact hR.congr (Tabled.update ⟨page', hT'⟩ rfl rfl) rfl fun w => by rw [hzero w, diskEntry, if_pos rfl]

/-- `pf_free_env` of a process without a directory reads through `NULL`. -/
theorem pfFreeEnv_faults (s : Machine) (hd : s.env.diskEnvPgdir = 0) : Disk.pfFreeEnv s = .error .faults s := by
  unfold Disk.pfFreeEnv
  rw [get_bind, if_pos hd]
  rfl

end Represents

end Fos.Disk
