/-
What the calls of the shared memory manager do when they return, in terms of `alloc_share` and of their
loops over pages, and what none of the loops changes.
-/
import Fos.Shared.SharedMemory
import Fos.Lib.StateCode
import Fos.Memory.ReferencesRun

namespace Fos.Shared

open Fos.Lib Fos.Memory Fos.Heap

/-! ## The lock and the kernel -/

def Shares.locked (s : Shares) : Shares := { s with shareslock := true }
def Shares.unlocked (s : Shares) : Shares := { s with shareslock := false }

@[simp] theorem locked_kernel (s : Shares) : s.locked.kernel = s.kernel := rfl
@[simp] theorem locked_list (s : Shares) : s.locked.sharesList = s.sharesList := rfl
@[simp] theorem locked_lock (s : Shares) : s.locked.shareslock = true := rfl
@[simp] theorem unlocked_kernel (s : Shares) : s.unlocked.kernel = s.kernel := rfl
@[simp] theorem unlocked_list (s : Shares) : s.unlocked.sharesList = s.sharesList := rfl
@[simp] theorem unlocked_lock (s : Shares) : s.unlocked.shareslock = false := rfl
@[simp] theorem locked_lookup (s : Shares) (o : Int) (name : List UInt8) :
    s.locked.lookup o name = s.lookup o name := rfl

theorem locked_unlocked {s : Shares} (h : s.shareslock = false) : s.locked.unlocked = s := by
  obtain ⟨k, l, b⟩ := s
  obtain rfl : b = false := h
  rfl

section Calls

variable {s t : Shares} {d : Nat} {o r : Int} {name : List UInt8} {size w va : Nat}

theorem get_shares (s : Shares) : (get : SM Shares) s = .ok s s := rfl

theorem modify_shares (g : Shares → Shares) (s : Shares) : (modify g : SM Unit) s = .ok () (g s) := rfl

theorem acquire_free (h : s.shareslock = false) : acquireSharesLock s = .ok () s.locked := by
  unfold acquireSharesLock
  rw [bind_of_ok (get_shares s), h]
  rfl

theorem acquire_held (h : s.shareslock = true) : ∃ e, acquireSharesLock s = .error e s := by
  unfold acquireSharesLock
  rw [bind_of_ok (get_shares s), h]
  exact ⟨_, rfl⟩

theorem release_held (h : s.shareslock = true) : releaseSharesLock s = .ok () s.unlocked := by
  unfold releaseSharesLock
  rw [bind_of_ok (get_shares s), h]
  rfl

theorem acquire_ok (h : acquireSharesLock s = .ok () t) : s.shareslock = false ∧ t = s.locked := by
  cases hl : s.shareslock with
  | true =>
    obtain ⟨e, he⟩ := acquire_held hl
    rw [he] at h
    cases h
  | false =>
    rw [acquire_free hl] at h
    cases h
    exact ⟨rfl, rfl⟩

theorem findShare_free (h : s.shareslock = false) : findShare o name s = .ok (s.lookup o name) s := by
  have hdone : (do releaseSharesLock; return s.lookup o name : SM (Option Share)) s.locked =
      .ok (s.lookup o name) s := by
    rw [bind_of_ok (release_held rfl), locked_unlocked h]
    rfl
  unfold findShare
  rw [bind_of_ok (get_shares s), h]
  exact (bind_of_ok (acquire_free h)).trans hdone

theorem findShare_held (h : s.shareslock = true) : findShare o name s = .ok (s.lookup o name) s := by
  unfold findShare
  rw [bind_of_ok (get_shares s), h]
  rfl

theorem onKernel_ok {α : Type} {x : KM α} {a : α} (h : onKernel x s = .ok a t) :
    ∃ k, x s.kernel = .ok a k ∧ t = { s with kernel := k } := by
  unfold onKernel at h
  split at h
  · rename_i hx
    cases h
    exact ⟨_, hx, rfl⟩
  · cases h

theorem onKernel_of_ok {α : Type} {x : KM α} {a : α} {k : Kernel} (h : x s.kernel = .ok a k) :
    onKernel x s = .ok a { s with kernel := k } := by
  unfold onKernel
  rw [h]

/-! ## Calls that return -/

/-- What `alloc_share` leaves: the kernel alone is changed, and the new object is not in the list yet. -/
theorem allocShare_ok {a : Option Share} (h : allocShare o name size w s = .ok a t) :
    t = { s with kernel := t.kernel } ∧
      ∀ shr, a = some shr → ∃ k framesStorage, kmalloc sizeofShare s.kernel = .ok shr.addr k ∧ shr.addr ≠ 0 ∧
        kmalloc (mul32 (numberOfFrames size) 4) k = .ok framesStorage t.kernel ∧ framesStorage ≠ 0 ∧
        shr = newShare shr.addr framesStorage o name size w := by
  unfold allocShare at h
  obtain ⟨addr, u, h1, h⟩ := ok_of_bind h
  obtain ⟨k, hk, rfl⟩ := onKernel_ok h1
  by_cases ha : addr = 0
  · rw [if_pos ha] at h
    cases h
    exact ⟨rfl, fun shr hs => by cases hs⟩
  rw [if_neg ha] at h
  obtain ⟨framesStorage, u, h2, h⟩ := ok_of_bind h
  obtain ⟨k', hk', rfl⟩ := onKernel_ok h2
  by_cases hf : framesStorage = 0
  · rw [if_pos hf] at h
    obtain ⟨_, u, h3, h⟩ := ok_of_bind h
    obtain ⟨k'', -, rfl⟩ := onKernel_ok h3
    cases h
    exact ⟨rfl, fun shr hs => by cases hs⟩
  · rw [if_neg hf] at h
    cases h
    refine ⟨rfl, fun shr hs => ?_⟩
    cases hs
    exact ⟨k, framesStorage, hk, ha, hk', hf, rfl⟩

/-- The state in which the pages of a new object are mapped. -/
def Shares.insert (s : Shares) (shr : Share) : Shares := { s with sharesList := shr :: s.sharesList }

@[simp] theorem insert_kernel (s : Shares) (shr : Share) : (s.insert shr).kernel = s.kernel := rfl
@[simp] theorem insert_list (s : Shares) (shr : Share) : (s.insert shr).sharesList = shr :: s.sharesList := rfl
@[simp] theorem insert_lock (s : Shares) (shr : Share) : (s.insert shr).shareslock = s.shareslock := rfl

/-- The ways `create_shared_object` can return. -/
inductive Created (d : Nat) (o : Int) (name : List UInt8) (size w va : Nat) (s : Shares) : Int → Shares → Prop
  | found (hl : (s.lookup o name).isSome) : Created d o name size w va s eSharedMemExists s
  | noMemory {k : Kernel} (hl : s.lookup o name = none)
      (ha : allocShare o name size w s.locked = .ok none { s.locked with kernel := k }) :
      Created d o name size w va s eNoShare { s with kernel := k }
  | misaligned {k : Kernel} {shr : Share} (hl : s.lookup o name = none)
      (ha : allocShare o name size w s.locked = .ok (some shr) { s.locked with kernel := k })
      (hva : va % pageSize ≠ 0) : Created d o name size w va s eNoShare ({ s with kernel := k }.insert shr)
  | mapped {k : Kernel} {shr : Share} {u : Shares} (hl : s.lookup o name = none)
      (ha : allocShare o name size w s.locked = .ok (some shr) { s.locked with kernel := k })
      (hva : va % pageSize = 0)
      (hp : createPages d shr.addr va 0 (numberOfFrames size) ({ s.locked with kernel := k }.insert shr) = .ok () u) :
      Created d o name size w va s shr.ID u.unlocked

/-! ## One round of a loop -/

/-- The kernel after one round of the loop of `create_shared_object`, with frame `f` recorded for page `i`. -/
def Shares.record (s : Shares) (k : Kernel) (addr i f : Nat) : Shares :=
  { s with kernel := k }.setShare addr fun shr => { shr with frames := Function.update shr.frames i (some f) }

@[simp] theorem record_kernel (s : Shares) (k : Kernel) (addr i f : Nat) : (s.record k addr i f).kernel = k := rfl

/-- A new frame is mapped at the page and recorded in the object. -/
theorem createPages_round {addr i n : Nat} (h : createPages d addr va i (n + 1) s = .ok () t) :
    ∃ f m k, s.kernel.mem.allocateFrame = .ok (f, m) ∧
      mapFrame d f (pageOf va i) { user := true, writeable := true, present := true }
        { s.kernel with mem := m } = .ok () k ∧
      createPages d addr va (i + 1) n (s.record k addr i f) = .ok () t := by
  unfold createPages at h
  obtain ⟨f, _, h1, h⟩ := ok_of_bind h
  obtain ⟨k, hk, rfl⟩ := onKernel_ok h1
  obtain ⟨m, ha, rfl⟩ := onMem_ok hk
  rw [modifyShare, bind_of_ok (modify_shares _ _)] at h
  obtain ⟨_, _, h2, h⟩ := ok_of_bind h
  obtain ⟨k', hmap, rfl⟩ := onKernel_ok h2
  exact ⟨f, m, k', ha, hmap, h⟩

/-- The object's frame is mapped at the page. -/
theorem getPages_round {shr : Share} {i n : Nat} (h : getPages d shr va i (n + 1) s = .ok () t) :
    ∃ f k, shr.frames i = some f ∧ mapFrame d f (pageOf va i) shr.perm s.kernel = .ok () k ∧
      getPages d shr va (i + 1) n { s with kernel := k } = .ok () t := by
  unfold getPages at h
  split at h
  · cases h
  · rename_i f hf
    obtain ⟨_, _, h1, h⟩ := ok_of_bind h
    obtain ⟨k, hk, rfl⟩ := onKernel_ok h1
    exact ⟨f, k, hf, hk, h⟩

/-! ## What the loops leave alone -/

/-- What no call changes in an object. -/
def Share.label (shr : Share) : Nat × Int × Int × List UInt8 := (shr.addr, shr.ID, shr.ownerID, shr.name)

/-- The list holds the same objects, and the lock is as it was. -/
structure Same (s t : Shares) : Prop where
  labels : t.sharesList.map Share.label = s.sharesList.map Share.label
  lock : t.shareslock = s.shareslock

theorem Same.refl (s : Shares) : Same s s := ⟨rfl, rfl⟩

theorem Same.trans {u : Shares} (h : Same s t) (h' : Same t u) : Same s u :=
  ⟨h'.labels.trans h.labels, h'.lock.trans h.lock⟩

theorem Same.kernel (s : Shares) (k : Kernel) : Same s { s with kernel := k } := ⟨rfl, rfl⟩

theorem Same.setShare (s : Shares) (addr : Nat) {g : Share → Share} (hg : ∀ shr, (g shr).label = shr.label) :
    Same s (s.setShare addr g) := by
  refine ⟨?_, rfl⟩
  rw [Shares.setShare, List.map_map]
  apply List.map_congr_left
  intro shr _
  show (if shr.addr = addr then g shr else shr).label = shr.label
  split
  · exact hg shr
  · rfl

theorem Same.count (k : Kernel) (addr : Nat) (g : Nat → Nat) :
    Same s ({ s with kernel := k }.setShare addr fun shr => { shr with references := g shr.references }) :=
  (Same.kernel s k).trans (Same.setShare { s with kernel := k } addr fun _ => rfl)

/-- Labels name the objects of two lists that differ in nothing else. -/
theorem Same.mem {shr : Share} (h : Same s t) (hm : shr ∈ t.sharesList) :
    ∃ shr' ∈ s.sharesList, shr'.label = shr.label := by
  have := List.mem_map_of_mem (f := Share.label) hm
  rw [h.labels, List.mem_map] at this
  exact this

theorem Same.symm (h : Same s t) : Same t s := ⟨h.labels.symm, h.lock.symm⟩

theorem createPages_same {addr : Nat} : ∀ {n i : Nat} {s t : Shares}, createPages d addr va i n s = .ok () t → Same s t
  | 0, _, s, _, h => by cases h; exact Same.refl s
  | n + 1, i, s, t, h => by
    obtain ⟨f, _, k, -, -, h⟩ := createPages_round h
    have hset : Same s (s.record k addr i f) := (Same.kernel s k).trans (Same.setShare _ addr fun _ => rfl)
    exact hset.trans (createPages_same h)

theorem getPages_same {shr : Share} : ∀ {n i : Nat} {s t : Shares}, getPages d shr va i n s = .ok () t →
    ∃ k, t = { s with kernel := k }
  | 0, _, s, _, h => by cases h; exact ⟨s.kernel, rfl⟩
  | n + 1, i, s, t, h => by
    obtain ⟨_, k, -, -, h⟩ := getPages_round h
    obtain ⟨k', rfl⟩ := getPages_same h
    exact ⟨k', rfl⟩

theorem deletePages_same : ∀ {n i : Nat} {s t : Shares}, deletePages d va i n s = .ok () t →
    ∃ k, t = { s with kernel := k }
  | 0, _, s, _, h => by cases h; exact ⟨s.kernel, rfl⟩
  | n + 1, i, s, t, h => by
    unfold deletePages at h
    obtain ⟨_, _, h1, h⟩ := ok_of_bind h
    obtain ⟨k, -, rfl⟩ := onKernel_ok h1
    obtain ⟨k', rfl⟩ := deletePages_same h
    exact ⟨k', rfl⟩

theorem create_ok (h : createSharedObject d o name size w va s = .ok r t) :
    s.shareslock = false ∧ Created d o name size w va s r t := by
  unfold createSharedObject at h
  obtain ⟨_, _, h1, h⟩ := ok_of_bind h
  obtain ⟨hfree, rfl⟩ := acquire_ok h1
  refine ⟨hfree, ?_⟩
  rw [bind_of_ok (findShare_held rfl), locked_lookup] at h
  split at h
  · rename_i hl
    rw [bind_of_ok (release_held rfl), locked_unlocked hfree] at h
    cases h
    exact .found hl
  rename_i hl
  have hl : s.lookup o name = none := by simpa using hl
  obtain ⟨a, u, ha, h⟩ := ok_of_bind h
  obtain ⟨hu, -⟩ := allocShare_ok ha
  obtain ⟨k, rfl⟩ : ∃ k, u = { s.locked with kernel := k } := ⟨_, hu⟩
  have hback : ∀ k, ({ s.locked with kernel := k } : Shares).unlocked = { s with kernel := k } := fun k =>
    locked_unlocked (s := { s with kernel := k }) hfree
  cases a with
  | none =>
    simp only at h
    rw [bind_of_ok (release_held rfl), hback] at h
    cases h
    exact .noMemory hl ha
  | some shr =>
    simp only at h
    rw [bind_of_ok (modify_shares _ _)] at h
    split at h
    · rename_i hva
      rw [bind_of_ok (release_held rfl)] at h
      cases h
      show Created d o name size w va s eNoShare (({ s.locked with kernel := _ } : Shares).unlocked.insert shr)
      rw [hback]
      exact .misaligned hl ha hva
    · rename_i hva
      obtain ⟨_, v, hp, h⟩ := ok_of_bind h
      have hv : v.shareslock = true := (createPages_same hp).lock
      rw [bind_of_ok (release_held hv)] at h
      cases h
      exact .mapped hl ha (not_not.1 hva) hp

/-- The ways `get_shared_object` can return. -/
theorem get_ok (h : getSharedObject d o name va s = .ok r t) :
    s.shareslock = false ∧ (s.lookup o name = none ∧ r = eSharedMemNotExists ∧ t = s ∨
      ∃ shr k, s.lookup o name = some shr ∧
        getPages d shr va 0 shr.numOfFrames s.locked = .ok () { s.locked with kernel := k } ∧ r = shr.ID ∧
        t = { s with kernel := k }.setShare shr.addr fun shr => { shr with references := add32 shr.references 1 }) := by
  unfold getSharedObject at h
  obtain ⟨_, _, h1, h⟩ := ok_of_bind h
  obtain ⟨hfree, rfl⟩ := acquire_ok h1
  refine ⟨hfree, ?_⟩
  rw [bind_of_ok (findShare_held rfl), locked_lookup] at h
  cases hl : s.lookup o name with
  | none =>
    simp only [hl] at h
    rw [bind_of_ok (release_held rfl), locked_unlocked hfree] at h
    cases h
    exact .inl ⟨rfl, rfl, rfl⟩
  | some shr =>
    simp only [hl] at h
    obtain ⟨_, u, hp, h⟩ := ok_of_bind h
    obtain ⟨k, rfl⟩ := getPages_same hp
    rw [modifyShare, bind_of_ok (modify_shares _ _), bind_of_ok (release_held rfl)] at h
    cases h
    refine .inr ⟨shr, k, rfl, hp, rfl, ?_⟩
    show (({ s with kernel := k }.setShare shr.addr _).locked).unlocked = _
    exact locked_unlocked hfree

/-- A create whose pages are all mapped. -/
theorem create_returns {k : Kernel} {shr : Share} {u : Shares} (hfree : s.shareslock = false)
    (hl : s.lookup o name = none)
    (ha : allocShare o name size w s.locked = .ok (some shr) { s.locked with kernel := k }) (hva : va % pageSize = 0)
    (hp : createPages d shr.addr va 0 (numberOfFrames size) ({ s.locked with kernel := k }.insert shr) = .ok () u) :
    createSharedObject d o name size w va s = .ok shr.ID u.unlocked := by
  have hu : u.shareslock = true := (createPages_same hp).lock
  unfold createSharedObject
  rw [bind_of_ok (acquire_free hfree), bind_of_ok (findShare_held rfl), locked_lookup, hl]
  simp only [Option.isSome_none, Bool.false_eq_true, if_false]
  rw [bind_of_ok ha]
  simp only [hva, ne_eq, not_true_eq_false, if_false]
  rw [bind_of_ok (modify_shares _ _)]
  exact (bind_of_ok hp).trans (bind_of_ok (release_held hu))

/-- A get whose pages are all mapped. -/
theorem get_returns {k : Kernel} {shr : Share} (hfree : s.shareslock = false) (hl : s.lookup o name = some shr)
    (hp : getPages d shr va 0 shr.numOfFrames s.locked = .ok () { s.locked with kernel := k }) :
    getSharedObject d o name va s = .ok shr.ID
      ({ s with kernel := k }.setShare shr.addr fun shr => { shr with references := add32 shr.references 1 }) := by
  unfold getSharedObject
  rw [bind_of_ok (acquire_free hfree), bind_of_ok (findShare_held rfl), locked_lookup, hl]
  simp only
  rw [bind_of_ok hp, modifyShare, bind_of_ok (modify_shares _ _), bind_of_ok (release_held rfl)]
  obtain ⟨k₀, l₀, b⟩ := s
  obtain rfl : b = false := hfree
  rfl

theorem freeShare_held (shr : Share) (s : Shares) (h : s.shareslock = true) : ∃ e, freeShare shr s = .error e s := by
  obtain ⟨e, he⟩ := acquire_held h
  refine ⟨e, ?_⟩
  unfold freeShare
  exact bind_of_error he

/-- The ways `delete_shared_object` can return: not after the last reference, where `free_share` takes
the lock again. -/
theorem delete_ok {ID : Int} (h : deleteSharedObject d ID va s = .ok r t) :
    s.shareslock = false ∧ (s.sharesList.find? (·.ID = ID) = none ∧ r = eSharedMemNotExists ∧ t = s ∨
      ∃ shr k, s.sharesList.find? (·.ID = ID) = some shr ∧ sub32 shr.references 1 ≠ 0 ∧
        deletePages d va 0 shr.numOfFrames s.locked = .ok () { s.locked with kernel := k } ∧ r = 0 ∧
        t = { s with kernel := k }.setShare shr.addr fun shr => { shr with references := sub32 shr.references 1 }) := by
  unfold deleteSharedObject at h
  obtain ⟨_, _, h1, h⟩ := ok_of_bind h
  obtain ⟨hfree, rfl⟩ := acquire_ok h1
  refine ⟨hfree, ?_⟩
  rw [bind_of_ok (get_shares _), locked_list] at h
  cases hl : s.sharesList.find? (·.ID = ID) with
  | none =>
    simp only [hl] at h
    rw [bind_of_ok (release_held rfl), locked_unlocked hfree] at h
    cases h
    exact .inl ⟨rfl, rfl, rfl⟩
  | some shr =>
    simp only [hl] at h
    obtain ⟨_, u, hp, h⟩ := ok_of_bind h
    obtain ⟨k, rfl⟩ := deletePages_same hp
    rw [modifyShare, bind_of_ok (modify_shares _ _)] at h
    by_cases hz : sub32 shr.references 1 = 0
    · rw [if_pos hz] at h
      obtain ⟨_, _, hf, -⟩ := ok_of_bind h
      obtain ⟨e, he⟩ := freeShare_held shr (({ s.locked with kernel := k } : Shares).setShare shr.addr
        fun shr => { shr with references := sub32 shr.references 1 }) rfl
      rw [he] at hf
      cases hf
    · rw [if_neg hz, bind_of_ok (release_held rfl)] at h
      cases h
      refine .inr ⟨shr, k, rfl, hz, hp, rfl, ?_⟩
      show (({ s with kernel := k }.setShare shr.addr _).locked).unlocked = _
      exact locked_unlocked hfree

end Calls

end Fos.Shared
