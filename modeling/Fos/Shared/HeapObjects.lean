/-
The user heap of one process together with the shared objects of the kernel: `smalloc`, `sget` and `sfree` of
`lib/uheap.c` with the kernel's answers, among the calls of other environments. Which object `sfree` gives back is read
from the record at the address, and no function of the source writes that word.
-/
import Fos.Heap.FailedShares
import Fos.Shared.Names
import Fos.Shared.Objects

namespace Fos.Shared

open Fos.Lib Fos.Memory Fos.Heap

/-! ## The code -/

/-- `size_of_shared_object`. -/
def sizeOfSharedObject (ownerID : Int) (shareName : List UInt8) : SM Int := do
  match ← findShare ownerID shareName with
  | none => return eSharedMemNotExists
  | some shr => return shr.size

/-- The address `smalloc` and `sget` pass to the kernel for `n` pages; `none` if they return before. -/
def askedAt (s : UHeap) (n : Nat) : Option Nat :=
  let sizeWeNeeded := mul32 n pageSize
  if userHeapMax < add32 s.uheapPageAllocBreak sizeWeNeeded then none
  else
    let fit := customFit (alignStart s) n
    if fit.1 = 0 then
      let va := fit.2.uheapPageAllocBreak
      if userHeapMax < add32 va sizeWeNeeded then none else some (roundUp va pageSize)
    else some (roundUp fit.1 pageSize)

/-- `smalloc`, with what the kernel answered, the address returned and the heap. -/
def smallocCall (d : Nat) (envID : Int) (s : UHeap) (sharedVarName : List UInt8) (size isWritable stale : Nat) :
    SM (Int × Nat × UHeap) := do
  match if size = 0 then none else askedAt s (roundUp size pageSize / pageSize) with
  | none => return (0, smalloc s size 0 stale)
  | some va =>
    let ret ← createSharedObject d envID sharedVarName size isWritable va
    return (ret, smalloc s size ret stale)

/-- `sget`, with what the kernel answered, the object's size, the address returned and the heap. -/
def sgetCall (d : Nat) (s : UHeap) (ownerEnvID : Int) (sharedVarName : List UInt8) (stale : Nat) :
    SM (Int × Int × Nat × UHeap) := do
  let size ← sizeOfSharedObject ownerEnvID sharedVarName
  match if size ≤ 0 then none else askedAt s (numOfPagesNeededSgetFun size) with
  | none => return (0, size, sget s size 0 stale)
  | some va =>
    let ret ← getSharedObject d ownerEnvID sharedVarName va
    return (ret, size, sget s size ret stale)

/-- The id that `sfree` passes to the kernel. -/
def sfreeID (s : UHeap) (virtualAddress : Nat) : Option Int :=
  (findAllocation s.allocHead virtualAddress).map fun cur => toInt32 cur.shareIDSfreeFunc

/-- `sfree`. -/
def sfreeCall (d : Nat) (s : UHeap) (virtualAddress : Nat) : SM UHeap := do
  match sfreeID s virtualAddress with
  | none => return s
  | some id =>
    let ret ← deleteSharedObject d id virtualAddress
    return sfree s virtualAddress ret

/-! ## Runs -/

/-- What the process did with an address it was given: the ID and the pages of an object, or no object. -/
abbrev Use := Option (Int × Nat)

/-- A process and the objects, with the addresses the heap handed out and did not take back, the newest first. -/
structure ShareProc where
  heap : UHeap
  shares : Shares
  handed : List (Nat × Use)

/-- Calls of the process, of other environments, and what else happens in the kernel. -/
inductive ProcCall where
  | malloc (size blk stale : Nat)
  | free (va : Nat)
  | smalloc (sharedVarName : CString) (size isWritable stale : Nat)
  | sget (ownerEnvID : Int) (sharedVarName : CString) (stale : Nat)
  | sfree (va : Nat)
  | other (c : ShareCall)
  | kernel (t : Shares)

/-- A call made for another environment by its user heap: its directory is not the kernel's, and the range it names lies
in the user heap. -/
def ShareCall.InHeap : ShareCall → Prop
  | .create d _ _ size _ va => d ≠ 0 ∧ va % pageSize = 0 ∧ userHeapStart ≤ va ∧ va + size ≤ userHeapMax
  | .get d _ _ va => d ≠ 0 ∧ va % pageSize = 0 ∧ va ≤ userHeapMax
  | .delete d _ va => d ≠ 0 ∧ va ≤ userHeapMax

namespace ShareProc

/-- The addresses after one was handed out, unless it is `NULL`. -/
def hand (p : ShareProc) (va : Nat) (use : Use) : List (Nat × Use) := if va = 0 then p.handed else (va, use) :: p.handed

/-- The addresses after one was taken back. -/
def taken (p : ShareProc) (va : Nat) : List (Nat × Use) := p.handed.eraseP (·.1 == va)

/-- The object at a live address: the last one that `smalloc` or `sget` returned the address for. -/
def objectAt (p : ShareProc) (va : Nat) : Use := (p.handed.find? fun e => e.1 == va && e.2.isSome).bind (·.2)

/-- A call of the process with directory `d` and id `envID` that returns. A range that the kernel refuses to mark or to
free ends the process; the runs that go on after it are kept. -/
inductive Step (d : Nat) (envID : Int) (p : ShareProc) : ProcCall → ShareProc → Prop
  | malloc {size blk stale va : Nat} {s : UHeap} (h : Heap.malloc p.heap size blk stale = (va, s)) :
      Step d envID p (.malloc size blk stale)
        ⟨s, p.shares, if dynAllocMaxBlockSize < size then p.hand va none else p.handed⟩
  | free {va : Nat} {s : UHeap} (h : Heap.free p.heap va = .ok s) :
      Step d envID p (.free va) ⟨s, p.shares, p.taken (roundDown va pageSize)⟩
  | smalloc {name : CString} {size isWritable stale va : Nat} {ret : Int} {s : UHeap} {t : Shares}
      (h : smallocCall d envID p.heap name.chars size isWritable stale p.shares = .ok (ret, va, s) t) :
      Step d envID p (.smalloc name size isWritable stale)
        ⟨s, t, p.hand va (some (ret, roundUp size pageSize / pageSize))⟩
  | sget {owner : Int} {name : CString} {stale va : Nat} {ret size : Int} {s : UHeap} {t : Shares}
      (h : sgetCall d p.heap owner name.chars stale p.shares = .ok (ret, size, va, s) t) :
      Step d envID p (.sget owner name stale) ⟨s, t, p.hand va (some (ret, numOfPagesNeededSgetFun size))⟩
  | sfree {va : Nat} {s : UHeap} {t : Shares} (h : sfreeCall d p.heap va p.shares = .ok s t) :
      Step d envID p (.sfree va) ⟨s, t, if s.allocHead = p.heap.allocHead then p.handed else p.taken va⟩
  | other {c : ShareCall} {r : Int} {t : Shares} (hc : c.InHeap) (h : c.code p.shares = .ok r t) :
      Step d envID p (.other c) ⟨p.heap, t, p.handed⟩
  | kernel {t : Shares} (hlist : t.sharesList = p.shares.sharesList) (h : SharesReady t) :
      Step d envID p (.kernel t) ⟨p.heap, t, p.handed⟩

/-- The sum of the break and the pages that a `smalloc` asks for does not wrap. Its size is a `uint32`. -/
def Fits (p : ShareProc) (c : ProcCall) : Prop :=
  ∀ name size isWritable stale, c = .smalloc name size isWritable stale →
    size < 4294967296 ∧ p.heap.uheapPageAllocBreak + roundUp size pageSize < 4294967296

/-- A call of the runs that are looked at. -/
def FitStep (d : Nat) (envID : Int) (p : ShareProc) (c : ProcCall) (p' : ShareProc) : Prop :=
  p.Fits c ∧ p.Step d envID c p'

end ShareProc

/-! ## What `sfree` should do, and when it does -/

/-- The references of an object; none if there is no such object. -/
def Shares.referencesOf (s : Shares) (ID : Int) : Nat := ((s.sharesList.find? (·.ID = ID)).map (·.references)).getD 0

/-- `sfree` at `va` passes the kernel the ID of the object there, whose `n` pages are free then; it has lost one
reference, and the other objects are as they were. -/
def ShareProc.Frees (d : Nat) (p : ShareProc) (va : Nat) (ID : Int) (n : Nat) : Prop :=
  sfreeID p.heap va = some ID ∧ ∃ s t, sfreeCall d p.heap va p.shares = .ok s t ∧
    t.referencesOf ID + 1 = p.shares.referencesOf ID ∧
    t.sharesList.filter (·.ID ≠ ID) = p.shares.sharesList.filter (·.ID ≠ ID) ∧
    ∀ x, va ≤ x → x < va + n * pageSize → x ∈ freeSpace s.freeHead

/-- The first record of the address happens to hold the object's ID and, with what is free anyway, all of its pages; and
the object has more than one reference. -/
def ShareProc.Recorded (p : ShareProc) (va : Nat) (ID : Int) (n : Nat) : Prop :=
  ∃ cur, findAllocation p.heap.allocHead va = some cur ∧ toInt32 cur.shareIDSfreeFunc = ID ∧
    2 ≤ p.shares.referencesOf ID ∧
    ∀ x, va ≤ x → x < va + n * pageSize → x < va + cur.size ∨ x ∈ freeSpace p.heap.freeHead

/-! ## The objects -/

/-- The size of an object is that of a range of the user heap, or rounds up to nothing. -/
def Sized (e : Nat × Int × Nat × Int) : Prop := -2147483648 ≤ e.2.2.2 ∧ e.2.2.2 ≤ 536870912 ∧ e.2.2.1 < 4294967296

/-- The objects between calls. -/
structure Objects (s : Shares) : Prop where
  ready : SharesReady s
  sized : ∀ e ∈ s.sharesList.map Share.entry, Sized e

section Objects

variable {s t : Shares} {d va size w : Nat} {o r ID : Int} {name : List UInt8} {shr : Share}

theorem Objects.frames (h : Objects s) (hm : shr ∈ s.sharesList) : shr.numOfFrames ≤ 131072 := by
  obtain ⟨hlo, hhi, -⟩ := h.sized _ (List.mem_map_of_mem hm)
  simp only [Share.entry] at hlo hhi
  unfold Share.numOfFrames
  rcases lt_or_ge shr.size 0 with hneg | hpos
  · by_cases hsmall : -4095 ≤ shr.size
    · have hsum : add32 (ofInt32 shr.size) (pageSize - 1) = (shr.size + 4095).toNat := by
        simp only [add32, ofInt32, pageSize]
        omega
      rw [hsum, toInt32, if_pos (by omega), pageSize, Int.tdiv_eq_ediv_of_nonneg (by omega)]
      omega
    · have hsum : add32 (ofInt32 shr.size) (pageSize - 1) = (shr.size + 4294971391).toNat := by
        simp only [add32, ofInt32, pageSize]
        omega
      have hneg : toInt32 (shr.size + 4294971391).toNat = -(-4095 - shr.size) := by
        rw [toInt32, if_neg (by omega)]
        omega
      have hle : 0 ≤ (-4095 - shr.size).tdiv (pageSize : Nat) := Int.tdiv_nonneg (by omega) (Int.natCast_nonneg _)
      rw [hsum, hneg, Int.neg_tdiv]
      omega
  · have hsum : add32 (ofInt32 shr.size) (pageSize - 1) = (shr.size + 4095).toNat := by
      simp only [add32, ofInt32, pageSize]
      omega
    rw [hsum, toInt32, if_pos (by omega), pageSize, Int.tdiv_eq_ediv_of_nonneg (by omega)]
    omega

theorem sized_recount {l : List (Nat × Int × Nat × Int)} (h : ∀ e ∈ l, Sized e) (addr : Nat) {g : Nat → Nat}
    (hg : ∀ x, g x < 4294967296) : ∀ e ∈ recount addr g l, Sized e := by
  intro e he
  obtain ⟨e', he', rfl⟩ := List.mem_map.1 he
  obtain ⟨hlo, hhi, hr⟩ := h e' he'
  split
  · exact ⟨hlo, hhi, hg _⟩
  · exact ⟨hlo, hhi, hr⟩

theorem Objects.create (h : Objects s) (hd : d ≠ 0)
    (hrange : va % pageSize = 0 → va / 4096 + numberOfFrames size ≤ userPages)
    (hsize : -2147483648 ≤ toInt32 size ∧ toInt32 size ≤ 536870912)
    (hr : createSharedObject d o name size w va s = .ok r t) :
    Objects t := by
  obtain ⟨hready, ⟨-, hlist⟩ | ⟨addr, hlist, -⟩⟩ := create_ready h.ready hd hrange hr
  · exact ⟨hready, hlist ▸ h.sized⟩
  · refine ⟨hready, fun e he => ?_⟩
    rw [hlist] at he
    rcases List.mem_cons.1 he with rfl | he
    · exact ⟨hsize.1, hsize.2, show 1 < 4294967296 by decide⟩
    · exact h.sized e he

theorem Objects.get (h : Objects s) (hd : d ≠ 0) (hal : va % pageSize = 0) (hva : va ≤ userHeapMax)
    (hr : getSharedObject d o name va s = .ok r t) : Objects t := by
  have hrange : ∀ shr, s.lookup o name = some shr → va / 4096 + shr.numOfFrames ≤ userPages := by
    intro shr hl
    have := h.frames (List.mem_of_find?_eq_some hl)
    simp only [userHeapMax] at hva
    simp only [userPages]
    omega
  obtain ⟨hready, ⟨-, -, rfl⟩ | ⟨shr, -, -, -, hlist⟩⟩ := get_ready h.ready hd hal hrange hr
  · exact h
  · refine ⟨hready, hlist ▸ sized_recount h.sized _ fun x => ?_⟩
    exact Nat.mod_lt _ (by decide)

theorem Objects.range (h : Objects s) (hm : shr ∈ s.sharesList) (hva : va ≤ userHeapMax) :
    va + shr.numOfFrames * 4096 ≤ userTop := by
  have := h.frames hm
  simp only [userHeapMax] at hva
  simp only [userTop]
  omega

theorem Objects.delete (h : Objects s) (hd : d ≠ 0) (hva : va ≤ userHeapMax)
    (hr : deleteSharedObject d ID va s = .ok r t) :
    Objects t := by
  obtain ⟨hready, ⟨-, -, rfl⟩ | ⟨shr, -, -, -, -, hlist⟩⟩ := delete_ready h.ready hd (fun shr hm _ => h.range hm hva) hr
  · exact h
  · refine ⟨hready, hlist ▸ sized_recount h.sized _ fun x => ?_⟩
    exact Nat.mod_lt _ (by decide)

/-- What a delete that returns leaves of the objects. -/
theorem Objects.delete_effect (h : Objects s) (hm : shr ∈ s.sharesList)
    (hr : deleteSharedObject d shr.ID va s = .ok r t) :
    r = 0 ∧ sub32 shr.references 1 ≠ 0 ∧ t.referencesOf shr.ID = sub32 shr.references 1 ∧
      t.sharesList.filter (·.ID ≠ shr.ID) = s.sharesList.filter (·.ID ≠ shr.ID) := by
  have hfind := h.ready.find hm
  obtain ⟨-, ⟨hf, -, -⟩ | ⟨shr', k, hf, hz, -, hr0, ht⟩⟩ := delete_ok hr
  · rw [hfind] at hf
    cases hf
  rw [hfind] at hf
  obtain rfl := Option.some.inj hf
  obtain ⟨g, hg⟩ : ∃ g : Share → Share,
      g = fun x => if x.addr = shr.addr then { x with references := sub32 x.references 1 } else x :=
    ⟨_, rfl⟩
  have hlist : t.sharesList = s.sharesList.map g := by
    rw [ht, hg]
    apply List.map_congr_left
    intro x hx
    by_cases ha : x.addr = shr.addr
    · obtain rfl := List.inj_on_of_nodup_map h.ready.addrs hx hm ha
      rfl
    · exact (if_neg ha).trans (if_neg ha).symm
  have hID : ∀ x, (g x).ID = x.ID := by
    intro x
    rw [hg]
    show (if x.addr = shr.addr then _ else x : Share).ID = x.ID
    split <;> rfl
  have hsame : ∀ x ∈ s.sharesList, x.ID ≠ shr.ID → g x = x := by
    intro x hx hne
    have ha : x.addr ≠ shr.addr := fun ha => hne (List.inj_on_of_nodup_map h.ready.addrs hx hm ha ▸ rfl)
    rw [hg]
    exact if_neg ha
  refine ⟨hr0, hz, ?_, ?_⟩
  · have hp : ((fun x : Share => decide (x.ID = shr.ID)) ∘ g) = fun x => decide (x.ID = shr.ID) := by
      funext x
      simp only [Function.comp_apply, hID]
    have hown : g shr = { shr with references := sub32 shr.references 1 } := by
      rw [hg]
      exact if_pos rfl
    rw [Shares.referencesOf, hlist, List.find?_map, hp, hfind, Option.map_some, Option.map_some, hown, Option.getD_some]
  · have hp : ((fun x : Share => decide (x.ID ≠ shr.ID)) ∘ g) = fun x => decide (x.ID ≠ shr.ID) := by
      funext x
      simp only [Function.comp_apply, hID]
    rw [hlist, List.filter_map, hp]
    refine (List.map_congr_left fun x hx => ?_).trans (List.map_id' _)
    obtain ⟨hx, hne⟩ := List.mem_filter.1 hx
    exact hsame x hx (of_decide_eq_true hne)

theorem Objects.referenced (h : Objects s) (hn : 0 < s.referencesOf ID) :
    ∃ shr ∈ s.sharesList, shr.ID = ID ∧ shr.references = s.referencesOf ID ∧ shr.references < 4294967296 := by
  unfold Shares.referencesOf at hn ⊢
  cases hf : s.sharesList.find? (·.ID = ID) with
  | none =>
    rw [hf] at hn
    exact absurd hn (lt_irrefl 0)
  | some shr =>
    have hm := List.mem_of_find?_eq_some hf
    have hid := List.find?_some hf
    exact ⟨shr, hm, of_decide_eq_true hid, rfl, (h.sized _ (List.mem_map_of_mem hm)).2.2⟩

end Objects

/-! ## The heap -/

section Heap

variable {s : UHeap} {n va : Nat} {ret : Int}

/-- The range that `sfree` gives back is free, and so is what was free. -/
theorem sfree_space (h : s.Whole) {cur : OurAllocationNode} (hf : findAllocation s.allocHead va = some cur)
    (hr : 0 ≤ ret) (x : Nat) :
    x ∈ freeSpace (sfree s va ret).freeHead ↔ (va ≤ x ∧ x < va + cur.size) ∨ x ∈ freeSpace s.freeHead := by
  obtain ⟨hin, hsize, hlt⟩ := h.found hf
  have hlo := hin.lo
  have hhi := hin.hi
  simp only [userHeapMax] at hlo hhi
  have hn : add32 cur.size (pageSize - 1) / pageSize = cur.size / 4096 := by
    rw [pageSize, add32_of_lt (by omega)]
    omega
  have hins : ∀ e ∈ insertNode ⟨va, cur.size / 4096⟩ s.freeHead, e.Inside := by
    intro e he
    rcases List.mem_cons.1 ((insertNode_perm _ _).mem_iff.1 he) with rfl | he
    · exact hin
    · exact h.free e he
  have hfree : (sfree s va ret).freeHead = mergee (insertNode ⟨va, cur.size / 4096⟩ s.freeHead) := by
    unfold sfree
    simp only [hf, if_neg (not_lt.2 hr), hn]
  rw [hfree, (mergee_space hins).1, freeSpace_perm (insertNode_perm _ _), mem_freeSpace_cons]
  apply or_congr_left
  show va ≤ x ∧ x < va + cur.size / 4096 * 4096 ↔ _
  omega

/-- The pages a request is placed in. -/
theorem askedAt_inside (h : s.Whole) (hw : s.uheapPageAllocBreak + n * pageSize < 4294967296)
    (ha : askedAt s n = some va) :
    FreeBlockNode.Inside ⟨va, n⟩ := by
  have hlo := h.breakLo
  have hbp := h.breakPage
  simp only [pageSize] at hw
  have hneed : mul32 n pageSize = n * 4096 := mul32_of_lt (by simp only [pageSize]; omega)
  have hgrow : add32 s.uheapPageAllocBreak (n * 4096) = s.uheapPageAllocBreak + n * 4096 := add32_of_lt hw
  unfold askedAt at ha
  simp only [hneed, h.alignStart, customFit_break, hgrow] at ha
  split at ha
  · cases ha
  · rename_i hmax
    rw [not_lt] at hmax
    have hbreak : roundUp s.uheapPageAllocBreak pageSize = s.uheapPageAllocBreak := roundUp_of_dvd hbp (by omega)
    rcases h.split n with ⟨-, hz, -⟩ | ⟨d, -, hin, hle, hz, -⟩
    · rw [if_pos hz, hbreak] at ha
      obtain rfl := Option.some.inj ha
      exact ⟨hlo, hbp, hmax⟩
    · have hd := hin.hi
      have hdlo := hin.lo
      have hst := hin.start
      simp only [userHeapMax] at hd
      have hnz : ¬ (customFit s n).1 = 0 := by omega
      have hup : roundUp d.startVa pageSize = d.startVa := roundUp_of_dvd hst (by omega)
      rw [if_neg hnz, hz, hup] at ha
      obtain rfl := Option.some.inj ha
      exact hin.first hle

end Heap

/-! ## One `sfree` -/

/-- What holds between the calls of a run. -/
structure ShareProc.Inv (p : ShareProc) : Prop where
  heap : p.heap.Whole
  objects : Objects p.shares

section Calls

variable {p : ShareProc} {s : UHeap} {t : Shares} {d va n : Nat} {envID ID : Int}

theorem sfreeID_some {s : UHeap} (h : sfreeID s va = some ID) :
    ∃ cur, findAllocation s.allocHead va = some cur ∧ toInt32 cur.shareIDSfreeFunc = ID := by
  obtain ⟨cur, hf, hid⟩ := Option.map_eq_some_iff.1 h
  exact ⟨cur, hf, hid⟩

theorem sfreeCall_ok {u : Shares} (h : sfreeCall d s va t = .ok s' u) : (sfreeID s va = none ∧ s' = s ∧ u = t) ∨
    ∃ id ret, sfreeID s va = some id ∧ deleteSharedObject d id va t = .ok ret u ∧ s' = sfree s va ret := by
  unfold sfreeCall at h
  cases hid : sfreeID s va with
  | none =>
    simp only [hid] at h
    cases h
    exact .inl ⟨rfl, rfl, rfl⟩
  | some id =>
    simp only [hid] at h
    obtain ⟨ret, u', hdel, h⟩ := ok_of_bind h
    cases h
    exact .inr ⟨id, ret, rfl, hdel, rfl⟩

theorem sfreeCall_of {u : Shares} {ret : Int} (hid : sfreeID s va = some ID)
    (h : deleteSharedObject d ID va t = .ok ret u) :
    sfreeCall d s va t = .ok (sfree s va ret) u := by
  unfold sfreeCall
  simp only [hid]
  exact bind_of_ok h

theorem ShareProc.Inv.frees_iff (h : p.Inv) (hd : d ≠ 0) : p.Frees d va ID n ↔ p.Recorded va ID n := by
  constructor
  · rintro ⟨hid, s, t, hrun, hrefs, -, hfree⟩
    obtain ⟨cur, hf, hcur⟩ := sfreeID_some hid
    obtain ⟨hno, -⟩ | ⟨id, ret, hid', hdel, rfl⟩ := sfreeCall_ok hrun
    · rw [hid] at hno
      cases hno
    rw [hid] at hid'
    obtain rfl := Option.some.inj hid'
    have hpos : 0 < p.shares.referencesOf ID := by omega
    obtain ⟨shr, hm, rfl, hr, hlt⟩ := h.objects.referenced hpos
    obtain ⟨rfl, hz, ht, -⟩ := h.objects.delete_effect hm hdel
    refine ⟨cur, hf, hcur, ?_, fun x hlo hhi => ?_⟩
    · -- the last reference is not given back by a call that returns
      rw [ht, ← hr] at hrefs
      rw [← hr]
      by_contra hlast
      have hone : shr.references = 1 := by omega
      rw [hone] at hz
      exact hz rfl
    · rcases (sfree_space h.heap hf le_rfl x).1 (hfree x hlo hhi) with hx | hx
      · exact .inl hx.2
      · exact .inr hx
  · rintro ⟨cur, hf, rfl, hrefs, hcover⟩
    have hid : sfreeID p.heap va = some (toInt32 cur.shareIDSfreeFunc) := by rw [sfreeID, hf, Option.map_some]
    have hpos : 0 < p.shares.referencesOf (toInt32 cur.shareIDSfreeFunc) := by omega
    obtain ⟨shr, hm, hshr, hr, hlt⟩ := h.objects.referenced hpos
    have hva : va + cur.size / 4096 * 4096 ≤ userHeapMax := (h.heap.found hf).1.hi
    have hsub : sub32 shr.references 1 = shr.references - 1 := sub32_of_le (by omega) hlt
    obtain ⟨t, hdel⟩ : ∃ t, deleteSharedObject d shr.ID va p.shares = .ok 0 t :=
      delete_returns h.objects.ready hd hm (by omega) (h.objects.range hm (by omega))
    obtain ⟨-, -, ht, hothers⟩ := h.objects.delete_effect hm hdel
    rw [hshr] at hdel ht hothers
    refine ⟨hid, _, t, sfreeCall_of hid hdel, ?_, hothers, fun x hlo hhi => ?_⟩
    · rw [ht, ← hr]
      omega
    · refine (sfree_space h.heap hf le_rfl x).2 ?_
      rcases hcover x hlo hhi with hx | hx
      · exact .inl ⟨hlo, hx⟩
      · exact .inr hx

/-! ## Every call -/

theorem Objects.other (h : Objects t) {c : ShareCall} (hc : c.InHeap) {r : Int} {u : Shares}
    (hr : c.code t = .ok r u) : Objects u := by
  cases c with
  | create d o name size w va =>
    obtain ⟨hd, hal, hlo, hhi⟩ := hc
    simp only [pageSize, userHeapStart, userHeapMax] at hal hlo hhi
    have hpages : numberOfFrames size = (size + 4095) / 4096 := by
      rw [numberOfFrames, pageSize, add32_of_lt (by omega)]
    refine h.create hd (fun _ => ?_) ?_ hr
    · rw [hpages]
      simp only [userPages]
      omega
    · rw [toInt32, if_pos (by omega)]
      omega
  | get d o name va => exact h.get hc.1 hc.2.1 hc.2.2 hr
  | delete d ID va => exact h.delete hc.1 hc.2 hr

theorem smallocCall_ok {name : List UInt8} {size w stale : Nat} {r : Int × Nat × UHeap} {u : Shares}
    (h : smallocCall d envID s name size w stale t = .ok r u) :
    (r = (0, smalloc s size 0 stale) ∧ u = t) ∨ ∃ va ret, askedAt s (roundUp size pageSize / pageSize) = some va ∧
      createSharedObject d envID name size w va t = .ok ret u ∧ r = (ret, smalloc s size ret stale) := by
  unfold smallocCall at h
  cases ha : (if size = 0 then none else askedAt s (roundUp size pageSize / pageSize)) with
  | none =>
    simp only [ha] at h
    cases h
    exact .inl ⟨rfl, rfl⟩
  | some va =>
    simp only [ha] at h
    obtain ⟨ret, u', hc, h⟩ := ok_of_bind h
    cases h
    refine .inr ⟨va, ret, ?_, hc, rfl⟩
    split at ha
    · cases ha
    · exact ha

theorem sgetCall_ok {owner size : Int} {name : List UInt8} {stale : Nat} {r : Int × Int × Nat × UHeap} {u : Shares}
    (hsize : sizeOfSharedObject owner name t = .ok size t) (h : sgetCall d s owner name stale t = .ok r u) :
    (r = (0, size, sget s size 0 stale) ∧ u = t) ∨ ∃ va ret, 0 < size ∧
      askedAt s (numOfPagesNeededSgetFun size) = some va ∧
      getSharedObject d owner name va t = .ok ret u ∧ r = (ret, size, sget s size ret stale) := by
  unfold sgetCall at h
  rw [bind_of_ok hsize] at h
  cases ha : (if size ≤ 0 then none else askedAt s (numOfPagesNeededSgetFun size)) with
  | none =>
    simp only [ha] at h
    cases h
    exact .inl ⟨rfl, rfl⟩
  | some va =>
    simp only [ha] at h
    obtain ⟨ret, u', hc, h⟩ := ok_of_bind h
    cases h
    split at ha
    · cases ha
    · exact .inr ⟨va, ret, by omega, ha, hc, rfl⟩

/-- The pages of a request of `size` bytes, as the kernel counts them. -/
theorem numberOfFrames_heap (size : Nat) : numberOfFrames size = roundUp size pageSize / pageSize := by
  simp only [numberOfFrames, roundUp, roundDown, add32, pageSize]
  omega

theorem smalloc_inv (h : p.heap.Whole) (hO : Objects p.shares) (hd : d ≠ 0) {name : List UInt8} {size w stale : Nat}
    {ret : Int}
    {s : UHeap} (hsize : size < 4294967296) (hw : p.heap.uheapPageAllocBreak + roundUp size pageSize < 4294967296)
    (hr : smallocCall d envID p.heap name size w stale p.shares = .ok (ret, va, s) t) : s.Whole ∧ Objects t := by
  have hpages : roundUp size pageSize / pageSize * pageSize = roundUp size pageSize := by
    simp only [roundUp, roundDown, pageSize]
    omega
  have hneed : mul32 (roundUp size pageSize / pageSize) pageSize = roundUp size pageSize := by
    rw [mul32_of_lt (by rw [hpages]; omega), hpages]
  have hwhole : ∀ ret, (smalloc p.heap size ret stale).2.Whole := by
    intro ret
    unfold smalloc
    split
    · exact h
    · exact placeShared_whole h (.inl (smalloc_bytes size)) (fun _ _ => by rw [hneed]; exact hw) stale
  obtain ⟨hs, rfl⟩ | ⟨va', ret', hask, hc, hs⟩ := smallocCall_ok hr
  · have hs : s = (smalloc p.heap size 0 stale).2 := congrArg (fun r => r.2.2) hs
    exact ⟨hs ▸ hwhole 0, hO⟩
  · have hs : s = (smalloc p.heap size ret' stale).2 := congrArg (fun r => r.2.2) hs
    have hin := askedAt_inside h (by rw [hpages]; exact hw) hask
    have hlo := hin.lo
    have hhi := hin.hi
    refine ⟨hs ▸ hwhole ret', hO.create hd (fun _ => ?_) ?_ hc⟩
    · rw [numberOfFrames_heap]
      simp only [userHeapMax] at hhi
      simp only [userPages]
      omega
    · simp only [roundUp, roundDown, pageSize, userHeapMax] at hlo hhi
      unfold toInt32
      split <;> omega

theorem sget_inv (h : p.heap.Whole) (hO : Objects p.shares) (hd : d ≠ 0) {owner : Int} {name : List UInt8}
    {stale : Nat} {ret size : Int}
    {s : UHeap} (hr : sgetCall d p.heap owner name stale p.shares = .ok (ret, size, va, s) t) :
      s.Whole ∧ Objects t := by
  have hfree := hO.ready.lock
  -- the size is that of an object, or an error
  obtain ⟨sz, hsz, hle⟩ : ∃ sz : Int, sizeOfSharedObject owner name p.shares = .ok sz p.shares ∧ sz ≤ 536870912 := by
    unfold sizeOfSharedObject
    rw [bind_of_ok (findShare_free hfree)]
    cases hl : p.shares.lookup owner name with
    | none => exact ⟨_, rfl, by decide⟩
    | some shr => exact ⟨_, rfl, (hO.sized _ (List.mem_map_of_mem (List.mem_of_find?_eq_some hl))).2.1⟩
  have hbreak := h.breakHi
  have hcount : 0 < sz → numOfPagesNeededSgetFun sz = (sz.toNat + 4095) / 4096 := by
    intro hpos
    have hof : ofInt32 sz = sz.toNat := by
      simp only [ofInt32]
      omega
    have hup : roundUp sz.toNat pageSize = (sz.toNat + 4095) / 4096 * 4096 := by
      simp only [roundUp, roundDown, pageSize]
      omega
    rw [numOfPagesNeededSgetFun, hof, hup, toInt32, if_pos (by omega), ← Int.ofNat_tdiv, pageSize,
      Nat.mul_div_cancel _ (show 0 < 4096 by decide)]
    simp only [ofInt32]
    omega
  have hwhole : ∀ ret, (sget p.heap sz ret stale).2.Whole := by
    intro ret
    unfold sget
    split
    · exact h
    · rename_i hpos
      have hn := hcount (by omega)
      refine placeShared_whole h (sget_bytes sz) (fun _ _ => ?_) stale
      simp only [userHeapMax] at hbreak
      rw [hn, mul32_of_lt (by simp only [pageSize]; omega)]
      simp only [pageSize]
      omega
  obtain ⟨hs, rfl⟩ | ⟨va', ret', hpos, hask, hc, hs⟩ := sgetCall_ok hsz hr
  · have hs : s = (sget p.heap sz 0 stale).2 := congrArg (fun r => r.2.2.2) hs
    exact ⟨hs ▸ hwhole 0, hO⟩
  · have hs : s = (sget p.heap sz ret' stale).2 := congrArg (fun r => r.2.2.2) hs
    have hn := hcount hpos
    simp only [userHeapMax] at hbreak
    have hin := askedAt_inside h (by rw [hn]; simp only [pageSize]; omega) hask
    have hhi := hin.hi
    exact ⟨hs ▸ hwhole ret', hO.get hd hin.start (by omega) hc⟩

/-- A call that returns keeps the heap and the objects in order. -/
theorem ShareProc.Inv.step (hd : d ≠ 0) (p : ShareProc) (c : ProcCall) (p' : ShareProc) (h : p.Inv)
    (hstep : ShareProc.FitStep d envID p c p') : p'.Inv := by
  obtain ⟨hfits, hstep⟩ := hstep
  cases hstep with
  | @malloc size blk stale va s hm =>
    have hs : s = (Heap.malloc p.heap size blk stale).2 := by rw [hm]
    exact ⟨hs ▸ malloc_whole h.heap size blk stale, h.objects⟩
  | free hf => exact ⟨free_whole h.heap hf, h.objects⟩
  | smalloc hr =>
    obtain ⟨hsize, hw⟩ := hfits _ _ _ _ rfl
    obtain ⟨hs, ht⟩ := smalloc_inv h.heap h.objects hd hsize hw hr
    exact ⟨hs, ht⟩
  | sget hr =>
    obtain ⟨hs, ht⟩ := sget_inv h.heap h.objects hd hr
    exact ⟨hs, ht⟩
  | @sfree va s t hr =>
    obtain ⟨-, rfl, rfl⟩ | ⟨id, ret, hid, hdel, rfl⟩ := sfreeCall_ok hr
    · exact ⟨h.heap, h.objects⟩
    · obtain ⟨cur, hf, -⟩ := sfreeID_some hid
      have hva : va + cur.size / 4096 * 4096 ≤ userHeapMax := (h.heap.found hf).1.hi
      exact ⟨sfree_whole h.heap va ret, h.objects.delete hd (by omega) hdel⟩
  | other hc hr => exact ⟨h.heap, h.objects.other hc hr⟩
  | kernel hlist hready => exact ⟨h.heap, hready, hlist ▸ h.objects.sized⟩

end Calls

/-- From boot on, in every state the calls of a process and of the others can reach, `sfree` at a live address of an
object gives back that object exactly if the record at the address happens to hold its ID and it has more than one
reference. -/
theorem sfree_object_iff (s₀ k : Kernel) (hboot : Booted s₀.mem) (hinit : kheapInit s₀ = .ok k)
    (hsize : ∀ i, s₀.allocatedSize.val i = 0) (d : Nat) (hd : d ≠ 0) (envID : Int) (cs : List ProcCall) :
    Always (ShareProc.FitStep d envID)
      (fun p => ∀ va ID n, p.objectAt va = some (ID, n) → (p.Frees d va ID n ↔ p.Recorded va ID n))
      ⟨uheapInit, sharingInit k, []⟩ cs := by
  have hI : ShareProc.Inv ⟨uheapInit, sharingInit k, []⟩ :=
    ⟨uheapInit_whole, sharingInit_ready hboot hinit hsize, fun e he => absurd he List.not_mem_nil⟩
  refine Always.mono (fun p h va ID n _ => h.frees_iff hd) (always_of_step (ShareProc.Inv.step hd) hI)

/-- One object, created by the process itself, whose record is in memory that held `0`. -/
def createOne : ProcCall := .smalloc shortName 1 1 0

instance (c : ShareCall) : Decidable c.InHeap :=
  match c with
  | .create _ _ _ _ _ _ => inferInstanceAs (Decidable (_ ∧ _ ∧ _ ∧ _))
  | .get _ _ _ _ => inferInstanceAs (Decidable (_ ∧ _ ∧ _))
  | .delete _ _ _ => inferInstanceAs (Decidable (_ ∧ _))

/-- The step of a `smalloc`, or of a call of another environment. -/
def ShareProc.next (d : Nat) (envID : Int) (p : ShareProc) : ProcCall → Option ShareProc
  | .smalloc name size isWritable stale =>
    if size < 4294967296 ∧ p.heap.uheapPageAllocBreak + roundUp size pageSize < 4294967296 then
      match smallocCall d envID p.heap name.chars size isWritable stale p.shares with
      | .ok r t => some ⟨r.2.2, t, p.hand r.2.1 (some (r.1, roundUp size pageSize / pageSize))⟩
      | .error _ _ => none
    else none
  | .other c =>
    if c.InHeap then
      match c.code p.shares with
      | .ok _ t => some ⟨p.heap, t, p.handed⟩
      | .error _ _ => none
    else none
  | _ => none

theorem ShareProc.next_step {d : Nat} {envID : Int} (p : ShareProc) (c : ProcCall) (p' : ShareProc)
    (h : ShareProc.next d envID p c = some p') : ShareProc.FitStep d envID p c p' := by
  cases c with
  | smalloc name size isWritable stale =>
    unfold ShareProc.next at h
    dsimp only at h
    split at h
    · next hfit =>
      split at h
      · next r t hr =>
        cases h
        refine ⟨?_, .smalloc hr⟩
        rintro _ _ _ _ ⟨⟩
        exact hfit
      · cases h
    · cases h
  | other c =>
    unfold ShareProc.next at h
    dsimp only at h
    split at h
    · next hin =>
      split at h
      · next r t hr =>
        cases h
        refine ⟨?_, .other hin hr⟩
        rintro _ _ _ _ ⟨⟩
      · cases h
    · cases h
  | _ => cases h

/-- The process creates an object, with a record whose memory held a number, and again under the same name; another
environment gets the object. -/
def createGot (stale : Nat) : List ProcCall :=
  [.smalloc shortName 1 1 stale, .smalloc shortName 1 1 0, .other (.get 2 7 shortName 0x80000000)]

/-- The object is at the address, referenced twice, and its record there holds a number. -/
def ObjectOf (p : ShareProc) (va : Nat) (ID stale : Int) : Prop :=
  p.objectAt va = some (ID, 1) ∧ p.shares.referencesOf ID = 2 ∧
    (findAllocation p.heap.allocHead va).map (fun cur => (toInt32 cur.shareIDSfreeFunc, cur.size)) =
      some (stale, pageSize)

instance (p : ShareProc) (va : Nat) (ID stale : Int) : Decidable (ObjectOf p va ID stale) :=
  inferInstanceAs (Decidable (_ ∧ _ ∧ _))

/-- `sfree` gives the object back where the record happens to hold its ID, and does not where it holds `0`. -/
theorem sfree_object_two : ∃ k, kheapInit (unusedKernel machine) = .ok k ∧ ∃ va ID,
    (∃ p, (createGot 1979711488).foldlM (ShareProc.next 1 7) ⟨uheapInit, sharingInit k, []⟩ = some p ∧
      ObjectOf p va ID ID ∧ p.Frees 1 va ID 1) ∧
    ∃ p, (createGot 0).foldlM (ShareProc.next 1 7) ⟨uheapInit, sharingInit k, []⟩ = some p ∧
      ObjectOf p va ID 0 ∧ ¬ p.Frees 1 va ID 1 := by
  obtain ⟨k, hk, hheld, hzero⟩ : ∃ k, kheapInit (unusedKernel machine) = .ok k ∧
      ((createGot 1979711488).foldlM (ShareProc.next 1 7) ⟨uheapInit, sharingInit k, []⟩).any
        (fun p => decide (ObjectOf p 2181042176 1979711488 1979711488)) = true ∧
      ((createGot 0).foldlM (ShareProc.next 1 7) ⟨uheapInit, sharingInit k, []⟩).any
        (fun p => decide (ObjectOf p 2181042176 1979711488 0)) = true :=
    ⟨_, rfl, by decide +kernel, by decide +kernel⟩
  have hiff : ∀ {stale : Nat} {p : ShareProc},
      (createGot stale).foldlM (ShareProc.next 1 7) ⟨uheapInit, sharingInit k, []⟩ = some p →
      ∀ va ID n, p.objectAt va = some (ID, n) → (p.Frees 1 va ID n ↔ p.Recorded va ID n) := fun {stale p} hp =>
    (sfree_object_iff (unusedKernel machine) k machine_booted hk (fun _ => rfl) 1 (by decide) 7
      (createGot stale)).of_foldlM ShareProc.next_step hp
  refine ⟨k, hk, 2181042176, 1979711488, ?_, ?_⟩
  · obtain ⟨p, hp, hend⟩ := (Option.any_eq_true _ _).1 hheld
    have hend := of_decide_eq_true hend
    obtain ⟨hat, hrefs, hrecord⟩ := hend
    obtain ⟨cur, hcur, hid⟩ := Option.map_eq_some_iff.1 hrecord
    obtain ⟨hid, hsize⟩ := Prod.mk.inj hid
    refine ⟨p, hp, ⟨hat, hrefs, hrecord⟩, (hiff hp _ _ _ hat).2 ⟨cur, hcur, hid, hrefs.ge, fun x _ hx => .inl ?_⟩⟩
    rw [hsize]
    omega
  · obtain ⟨p, hp, hend⟩ := (Option.any_eq_true _ _).1 hzero
    have hend := of_decide_eq_true hend
    obtain ⟨hat, hrefs, hrecord⟩ := hend
    refine ⟨p, hp, ⟨hat, hrefs, hrecord⟩, fun hfrees => ?_⟩
    obtain ⟨cur, hcur, hid, -⟩ := (hiff hp _ _ _ hat).1 hfrees
    rw [hcur] at hrecord
    have hzero := (Prod.mk.inj (Option.some.inj hrecord)).1
    exact absurd (hzero.symm.trans hid) (by decide)

/-- The object is created, and the record at its address holds another id. -/
def otherID (s : Shares) : Bool :=
  match smallocCall 1 7 uheapInit [97, 0] 1 1 0 s with
  | .ok r _ => r.2.1 != 0 && sfreeID r.2.2 r.2.1 != some r.1
  | .error _ _ => false

theorem sfree_object_wrong : ∃ k, kheapInit (unusedKernel machine) = .ok k ∧
    ¬ Always (ShareProc.Step 1 7) (fun p => ∀ va ID n, p.objectAt va = some (ID, n) → p.Frees 1 va ID n)
      ⟨uheapInit, sharingInit k, []⟩ [createOne] := by
  obtain ⟨k, hk, hother⟩ : ∃ k, kheapInit (unusedKernel machine) = .ok k ∧ otherID (sharingInit k) = true :=
    ⟨_, rfl, by decide +kernel⟩
  refine ⟨k, hk, fun h => ?_⟩
  unfold otherID at hother
  split at hother
  · rename_i r t hr
    simp only [Bool.and_eq_true, bne_iff_ne, ne_eq] at hother
    obtain ⟨ret, va, s⟩ := r
    have hstep : ShareProc.Step 1 7 ⟨uheapInit, sharingInit k, []⟩ createOne _ := .smalloc hr
    have hlast := (h.2 _ hstep).head va ret 1 (by
      have hva : ¬ va = 0 := hother.1
      simp [ShareProc.objectAt, ShareProc.hand, hva, roundUp, roundDown])
    exact hother.2 hlast.1
  · cases hother

end Fos.Shared
