/-
The waiting loop of `alloc_block`: what the function searches before it waits, and when a process that waits could be
served. A call of `alloc_block` that waits ends; once the flag is cleared the process calls it again.
-/
import Fos.Heap.DynAllocRun

namespace Fos.Heap

open Fos.Lib DynAlloc

/-! ## What is searched -/

/-- The index of the list for a size. -/
def classOf (size : Nat) : Nat := (sizeClass (min size maxBlockSize) 16 minBlockSize 0).2

/-- `alloc_block` finds something: a free page, or a block in the list for the size or in one after it, up to that of
1024 bytes. -/
def DynAlloc.Finds (s : DynAlloc) (size : Nat) : Prop :=
  s.freePagesList ≠ [] ∨ ∃ j, classOf size ≤ j ∧ (j = classOf size ∨ j < 8) ∧ s.freeBlockLists j ≠ []

/-- A free page, or a free block that is large enough. -/
def DynAlloc.Serves (s : DynAlloc) (size : Nat) : Prop :=
  s.freePagesList ≠ [] ∨ ∃ j ≤ 8, size ≤ 8 * 2 ^ j ∧ s.freeBlockLists j ≠ []

/-- All that would do is a block of 2048 bytes. -/
def DynAlloc.OnlyLargest (s : DynAlloc) (size : Nat) : Prop :=
  s.freePagesList = [] ∧ size ≤ 1024 ∧ (∀ j < 8, size ≤ 8 * 2 ^ j → s.freeBlockLists j = []) ∧ s.freeBlockLists 8 ≠ []

section Search

variable {M : Type} {src : PageSource M} {s d : DynAlloc} {m m' : M} {size va j : Nat}

theorem classOf_le_iff (hs : size ≤ 2048) : classOf size ≤ 8 ∧ (size ≤ 8 * 2 ^ j ↔ classOf size ≤ j) := by
  obtain ⟨k, -, hcls, hle, hmin⟩ := sizeClass_doubles size 16 0
  have hk : classOf size = k := by
    rw [classOf, show min size maxBlockSize = size from min_eq_left hs]
    exact congrArg Prod.snd hcls
  have hsize : size ≤ 8 * 2 ^ k := by
    rcases hle with hle | rfl
    · exact hle
    · exact hs.trans (by decide)
  have hiff : ∀ j, size ≤ 8 * 2 ^ j ↔ k ≤ j := by
    intro j
    refine ⟨fun h => ?_, fun h => hsize.trans (Nat.mul_le_mul_left 8 (Nat.pow_le_pow_right (by decide) h))⟩
    by_contra hlt
    exact absurd h (not_le.2 (hmin j (Nat.zero_le j) (not_le.1 hlt)))
  rw [hk]
  exact ⟨(hiff 8).1 hs, hiff j⟩

theorem takeFirst_ok {r : AllocResult} {i : Nat} (h : takeFirst s i = .ok (r, d)) :
    ∃ va rest, s.freeBlockLists i = va :: rest ∧ r = .block va ∧ d.freePagesList = s.freePagesList ∧
      d.blockedVarDynallocAllocFunc = s.blockedVarDynallocAllocFunc ∧
      ∀ j, d.freeBlockLists j = if j = i then rest else s.freeBlockLists j := by
  unfold takeFirst at h
  split at h
  · cases h
  · rename_i va rest hl
    obtain ⟨p, -, h⟩ := bind_ok h
    cases h
    exact ⟨va, rest, hl, rfl, rfl, rfl, fun j => by simp⟩

/-- A request that finds nothing waits and sets the flag. -/
theorem allocBlock_waits (h0 : 0 < size) (hs : size ≤ 2048) (hno : ¬ s.Finds size) :
    allocBlock src s m size = .ok (.waits, { s with blockedVarDynallocAllocFunc := 1 }, m) := by
  obtain ⟨hpages, hlists⟩ := not_or.1 hno
  have hmax : ¬ dynAllocMaxBlockSize < size := not_lt.2 hs
  obtain ⟨b, k, hc⟩ : ∃ b k, sizeClass (min size maxBlockSize) 16 minBlockSize 0 = (b, k) := ⟨_, _, rfl⟩
  have hk : classOf size = k := congrArg Prod.snd hc
  have hnone : ∀ j, k ≤ j → (j = k ∨ j < 8) → s.freeBlockLists j = [] := by
    intro j h1 h2
    by_contra hne
    exact hlists ⟨j, hk ▸ h1, hk ▸ h2, hne⟩
  have hfind : (List.range' k (8 - k)).find? (fun i => s.freeBlockLists i ≠ []) = none := by
    refine List.find?_eq_none.2 fun i hi => ?_
    obtain ⟨h1, h2⟩ := List.mem_range'_1.1 hi
    simpa using hnone i h1 (by omega)
  have hlist : ¬ s.freeBlockLists k ≠ [] := not_not.2 (hnone k le_rfl (.inl rfl))
  simp only [allocBlock, if_neg hmax, if_neg h0.ne', hc, if_neg hlist, not_not.1 hpages, hfind]

/-- A request that finds something does not wait, and where there is no free page it only takes a block off a list. -/
theorem allocBlock_finds {r : AllocResult} (h0 : 0 < size) (hf : s.Finds size)
    (h : allocBlock src s m size = .ok (r, d, m')) : ∃ va, r = .block va ∧
      d.blockedVarDynallocAllocFunc = s.blockedVarDynallocAllocFunc ∧
      (s.freePagesList = [] → d.freePagesList = [] ∧ ∀ j, s.freeBlockLists j = [] → d.freeBlockLists j = []) := by
  obtain ⟨b, k, hc⟩ : ∃ b k, sizeClass (min size maxBlockSize) 16 minBlockSize 0 = (b, k) := ⟨_, _, rfl⟩
  have hk : classOf size = k := congrArg Prod.snd hc
  have htake : ∀ {i : Nat} {r : AllocResult} {d : DynAlloc}, takeFirst s i = .ok (r, d) → ∃ va, r = .block va ∧
      d.blockedVarDynallocAllocFunc = s.blockedVarDynallocAllocFunc ∧
      (s.freePagesList = [] → d.freePagesList = [] ∧ ∀ j, s.freeBlockLists j = [] → d.freeBlockLists j = []) := by
    intro i r d ht
    obtain ⟨va, rest, hl, rfl, hpages, hflag, hlists⟩ := takeFirst_ok ht
    refine ⟨va, rfl, hflag, fun hnil => ⟨hpages.trans hnil, fun j hj => ?_⟩⟩
    rw [hlists]
    split
    · rename_i hji
      subst hji
      rw [hl] at hj
      cases hj
    · exact hj
  unfold allocBlock at h
  split at h
  · cases h
  rw [if_neg h0.ne'] at h
  simp only [hc] at h
  split at h
  · obtain ⟨⟨r', d'⟩, ht, h⟩ := bind_ok h
    cases h
    exact htake ht
  · rename_i hlist
    split at h
    · -- a page is split: there was one
      rename_i p rest hpages
      obtain ⟨pageVa, -, h⟩ := bind_ok h
      obtain ⟨m₁, -, h⟩ := bind_ok h
      obtain ⟨⟨r', d'⟩, ht, h⟩ := bind_ok h
      cases h
      obtain ⟨va, -, -, rfl, -, hflag, -⟩ := takeFirst_ok ht
      exact ⟨va, rfl, hflag, fun hnil => absurd hnil (by rw [hpages]; exact List.cons_ne_nil p rest)⟩
    · rename_i hpages
      split at h
      · obtain ⟨⟨r', d'⟩, ht, h⟩ := bind_ok h
        cases h
        exact htake ht
      · -- nothing was found after all
        rename_i hfind
        obtain ⟨j, h1, h2, hne⟩ := hf.resolve_left (not_not.2 hpages)
        rw [hk] at h1 h2
        rcases h2 with rfl | h2
        · exact absurd hne hlist
        · have := List.find?_eq_none.1 hfind j (List.mem_range'_1.2 ⟨h1, by omega⟩)
          simp only [ne_eq, hne, not_false_eq_true, decide_true, not_true_eq_false] at this

/-- When `alloc_block` waits. -/
theorem allocBlock_waits_iff (h0 : 0 < size) (hs : size ≤ 2048) :
    (∃ d m', allocBlock src s m size = .ok (.waits, d, m')) ↔ ¬ s.Finds size := by
  constructor
  · rintro ⟨d, m', h⟩ hf
    obtain ⟨va, hr, -⟩ := allocBlock_finds h0 hf h
    cases hr
  · exact fun hno => ⟨_, _, allocBlock_waits h0 hs hno⟩

/-- Where `alloc_block` waits although it could be served, only a block of 2048 bytes would do. -/
theorem finds_of_serves_iff (hs : size ≤ 2048) : (s.Serves size → s.Finds size) ↔ ¬ s.OnlyLargest size := by
  have hcls : ∀ j, size ≤ 8 * 2 ^ j ↔ classOf size ≤ j := fun j => (classOf_le_iff hs).2
  constructor
  · rintro h ⟨hpages, hsmall, hlists, hlarge⟩
    have h7 : classOf size ≤ 7 := (hcls 7).1 hsmall
    rcases h (.inr ⟨8, le_rfl, hs, hlarge⟩) with hf | ⟨j, h1, h2, hne⟩
    · exact hf hpages
    · exact hne (hlists j (by omega) ((hcls j).2 h1))
  · rintro h (hpages | ⟨j, hj, hle, hne⟩)
    · exact .inl hpages
    · by_contra hno
      obtain ⟨hpages, hlists⟩ := not_or.1 hno
      have hnone : ∀ j, classOf size ≤ j → (j = classOf size ∨ j < 8) → s.freeBlockLists j = [] := by
        intro j h1 h2
        by_contra hne
        exact hlists ⟨j, h1, h2, hne⟩
      have hcj := (hcls j).1 hle
      rcases Nat.lt_or_ge j 8 with hj8 | hj8
      · exact hne (hnone j hcj (.inr hj8))
      obtain rfl : j = 8 := le_antisymm hj hj8
      refine h ⟨not_not.1 hpages, (hcls 7).2 ?_, fun j hj hle => hnone j ((hcls j).1 hle) (.inr hj), hne⟩
      by_contra hlt
      exact hne (hnone 8 hcj (.inl (by omega)))

end Search

/-! ## One process -/

variable {M : Type}

/-- A request waits only where there is no free page and no free block that is large enough. -/
def DynAlloc.WaitsRight (src : PageSource M) (s : DynAlloc) (m : M) : Prop := ∀ size, 0 < size → size ≤ 2048 →
  (∃ d m', allocBlock src s m size = .ok (.waits, d, m')) → ¬ s.Serves size

/-- In every state of every run requests wait only where nothing is left for them, exactly when no state is reached
that has no page and no block left for a request but blocks of 2048 bytes. -/
theorem waits_only_when_empty_iff (src : PageSource M) (d : BlockRun M) (cs : List BlockCall) :
    Always (BlockStep src) (fun d => d.alloc.WaitsRight src d.mem) d cs ↔
      Always (BlockStep src) (fun d => ∀ size, 0 < size → size ≤ 2048 → ¬ d.alloc.OnlyLargest size) d cs := by
  have hiff : ∀ d : BlockRun M, d.alloc.WaitsRight src d.mem ↔
      ∀ size, 0 < size → size ≤ 2048 → ¬ d.alloc.OnlyLargest size := by
    refine fun d => forall_congr' fun size => forall_congr' fun h0 => forall_congr' fun hs => ?_
    rw [allocBlock_waits_iff h0 hs, ← finds_of_serves_iff hs, not_imp_not]
  exact ⟨Always.mono fun d => (hiff d).1, Always.mono fun d => (hiff d).2⟩

/-- Pages that are always there. -/
def plentyOfPages : PageSource Unit := ⟨fun m _ => .ok m, fun m _ => .ok m⟩

/-- An area of one page with a block of 2048 bytes in use and one free: a request of 8 bytes waits. -/
theorem waits_with_largest_free :
    ∃ s, initializeDynamicAllocator zeroedAlloc kernelHeapStart (kernelHeapStart + pageSize) = .ok s ∧
    ¬ Always (BlockStep plentyOfPages) (fun d => d.alloc.WaitsRight plentyOfPages d.mem) ⟨s, (), []⟩
      [.allocBlock 2048, .allocBlock 2048, .freeBlock kernelHeapStart] := by
  obtain ⟨s, s₁, s₂, s₃, hs, h1, h2, h3, hpages, hlists, h8⟩ : ∃ s s₁ s₂ s₃,
      initializeDynamicAllocator zeroedAlloc kernelHeapStart (kernelHeapStart + pageSize) = .ok s ∧
      allocBlock plentyOfPages s () 2048 = .ok (.block kernelHeapStart, s₁, ()) ∧
      allocBlock plentyOfPages s₁ () 2048 = .ok (.block (kernelHeapStart + 2048), s₂, ()) ∧
      freeBlock plentyOfPages s₂ () kernelHeapStart = .ok (s₃, ()) ∧ s₃.freePagesList = [] ∧
      (∀ j < 8, s₃.freeBlockLists j = []) ∧ s₃.freeBlockLists 8 = [kernelHeapStart] :=
    ⟨_, _, _, _, rfl, rfl, rfl, rfl, rfl, by decide, rfl⟩
  refine ⟨s, hs, fun h => ?_⟩
  have hlive : [⟨kernelHeapStart + 2048, 2048⟩, ⟨kernelHeapStart, 2048⟩].Perm
      [(⟨kernelHeapStart, 2048⟩ : LiveBlock), ⟨kernelHeapStart + 2048, 2048⟩] := .swap ..
  have hright : s₃.WaitsRight plentyOfPages () :=
    ((h.2 _ (.alloc (by decide) h1)).2 _ (.alloc (by decide) h2)).2 _ (.free (b := ⟨kernelHeapStart, 2048⟩) hlive h3)
  have hno : ¬ s₃.Finds 8 := by
    rintro (hne | ⟨j, -, hj, hne⟩)
    · exact hne hpages
    · have hj8 : j < 8 := hj.elim (fun hj => hj ▸ by decide) id
      exact hne (hlists j hj8)
  exact hright 8 (by decide) (by decide) ⟨_, _, allocBlock_waits (by decide) (by decide) hno⟩
    (.inr ⟨8, le_rfl, by decide, by rw [h8]; exact List.cons_ne_nil _ _⟩)

/-! ## Several processes -/

/-- Processes that allocate and free blocks of one allocator. A process in the waiting loop waits for a request of
some size. -/
structure Waiters (M : Type) where
  alloc : DynAlloc
  mem : M
  waiting : Nat → Option Nat

inductive WaiterCall where
  | allocBlock (p size : Nat)
  | retry (p : Nat)
  | freeBlock (p va : Nat)

/-- Process `p` calls `alloc_block`. -/
def Waiters.request (src : PageSource M) (w : Waiters M) (p size : Nat) : Option (Waiters M) :=
  match allocBlock src w.alloc w.mem size with
  | .ok (.waits, s, m) => some ⟨s, m, Function.update w.waiting p (some size)⟩
  | .ok (_, s, m) => some ⟨s, m, Function.update w.waiting p none⟩
  | .error _ => none

/-- One call; a process that waits finds the flag cleared and calls again. -/
inductive WaiterStep (src : PageSource M) : Waiters M → WaiterCall → Waiters M → Prop where
  | alloc {w w' : Waiters M} {p size : Nat} (hp : w.waiting p = none) (h : w.request src p size = some w') :
      WaiterStep src w (.allocBlock p size) w'
  | retry {w w' : Waiters M} {p size : Nat} (hp : w.waiting p = some size)
      (hf : w.alloc.blockedVarDynallocAllocFunc = 0)
      (h : w.request src p size = some w') : WaiterStep src w (.retry p) w'
  | free {w : Waiters M} {p va : Nat} {s : DynAlloc} {m : M} (hp : w.waiting p = none)
      (h : freeBlock src w.alloc w.mem va = .ok (s, m)) : WaiterStep src w (.freeBlock p va) ⟨s, m, w.waiting⟩

/-- No process waits for the flag while there is something for it. -/
def Waiters.Justified (w : Waiters M) : Prop := ∀ p size, w.waiting p = some size →
  w.alloc.blockedVarDynallocAllocFunc = 1 → ¬ w.alloc.Serves size

/-- The block at `va` is the last one in use of its page. -/
def DynAlloc.EmptiesPage (s : DynAlloc) (va : Nat) : Prop :=
  let i := s.pageBlockInfoArr (sub32 va s.dynAllocStart / pageSize)
  pageSize / i.blockSize ≤ (i.numOfFreeBlocks + 1) % 65536

/-- A process that goes to the loop with a request, or back to it, sets the flag for all that wait: nothing is there
for it and for the others. -/
def Waiters.MayWait (w : Waiters M) (p size : Nat) : Prop := 0 < size → ¬ w.alloc.Finds size →
  ¬ w.alloc.Serves size ∧ ∀ q sz, q ≠ p → w.waiting q = some sz → ¬ w.alloc.Serves sz

/-- No process goes to the loop while there is something for it or for another one that waits, and no process waits
for the flag when a page is freed. -/
def Waiters.Heeds (w : Waiters M) : WaiterCall → Prop
  | .allocBlock p size => w.MayWait p size
  | .retry p => ∀ size, w.waiting p = some size → w.MayWait p size
  | .freeBlock _ va => w.alloc.blockedVarDynallocAllocFunc = 1 → w.alloc.EmptiesPage va → ∀ p, w.waiting p = none

section Waiters

variable {src : PageSource M} {w w' : Waiters M} {p size va : Nat}

theorem allocBlock_size {r : AllocResult} {s d : DynAlloc} {m m' : M} (h : allocBlock src s m size = .ok (r, d, m')) :
    size ≤ 2048 ∧ (size = 0 → r = .null ∧ d = s) := by
  unfold allocBlock at h
  split at h
  · cases h
  rename_i hmax
  refine ⟨not_lt.1 hmax, fun h0 => ?_⟩
  rw [if_pos h0] at h
  cases h
  exact ⟨rfl, rfl⟩

/-- Blocks that are taken off lists serve no one else. -/
theorem not_serves_of_taken {s d : DynAlloc}
    (ht : s.freePagesList = [] → d.freePagesList = [] ∧ ∀ j, s.freeBlockLists j = [] → d.freeBlockLists j = [])
    (hno : ¬ s.Serves size) : ¬ d.Serves size := by
  obtain ⟨hpages, hlists⟩ := not_or.1 hno
  obtain ⟨hpages', hlists'⟩ := ht (not_not.1 hpages)
  rintro (hne | ⟨j, hj, hle, hne⟩)
  · exact hne hpages'
  · exact hlists ⟨j, hj, hle, fun hnil => hne (hlists' j hnil)⟩

/-- What a call of `alloc_block` does: it waits with the flag set, or it leaves the flag and nothing that it leaves
serves a request that was not served before. -/
theorem Waiters.request_ok (h : w.request src p size = some w') :
    (0 < size ∧ ¬ w.alloc.Finds size ∧ w' =
      ⟨{ w.alloc with blockedVarDynallocAllocFunc := 1 }, w.mem, Function.update w.waiting p (some size)⟩) ∨
    w'.waiting = Function.update w.waiting p none ∧
      w'.alloc.blockedVarDynallocAllocFunc = w.alloc.blockedVarDynallocAllocFunc ∧ (0 < size → w.alloc.Finds size) ∧
      ∀ sz, ¬ w.alloc.Serves sz → ¬ w'.alloc.Serves sz := by
  unfold Waiters.request at h
  cases hr : allocBlock src w.alloc w.mem size with
  | error e =>
    rw [hr] at h
    cases h
  | ok x =>
    obtain ⟨r, d, m'⟩ := x
    rw [hr] at h
    obtain ⟨hs, hzero⟩ := allocBlock_size hr
    rcases Nat.eq_zero_or_pos size with h0 | h0
    · obtain ⟨rfl, rfl⟩ := hzero h0
      cases h
      exact .inr ⟨rfl, rfl, fun hpos => absurd h0 hpos.ne', fun _ hno => hno⟩
    by_cases hf : w.alloc.Finds size
    · obtain ⟨va, rfl, hflag, htaken⟩ := allocBlock_finds h0 hf hr
      cases h
      exact .inr ⟨rfl, hflag, fun _ => hf, fun sz hno => not_serves_of_taken htaken hno⟩
    · rw [allocBlock_waits h0 hs hf] at hr
      cases hr
      cases h
      exact .inl ⟨h0, hf, rfl⟩

/-- `free_block` frees a page and leaves the flag, or clears it. -/
theorem freeBlock_flag {s d : DynAlloc} {m m' : M} (h : freeBlock src s m va = .ok (d, m')) :
    (s.EmptiesPage va ∧ d.blockedVarDynallocAllocFunc = s.blockedVarDynallocAllocFunc ∧ d.freePagesList ≠ []) ∨
      ¬ s.EmptiesPage va ∧ d.blockedVarDynallocAllocFunc = 0 := by
  unfold freeBlock at h
  split at h
  · cases h
  dsimp only at h
  split at h
  · cases h
  split at h
  · rename_i hall
    obtain ⟨m₁, -, h⟩ := bind_ok h
    cases h
    exact .inl ⟨hall, rfl, List.cons_ne_nil _ _⟩
  · rename_i hsome
    cases h
    exact .inr ⟨hsome, rfl⟩

/-- A request keeps the waiting justified exactly when it may wait. -/
theorem Waiters.Justified.request (hJ : w.Justified) (h : w.request src p size = some w') :
    w'.Justified ↔ w.MayWait p size := by
  rcases Waiters.request_ok h with ⟨h0, hno, rfl⟩ | ⟨hwait, hflag, hfinds, hserves⟩
  · have hserves : ∀ sz, DynAlloc.Serves { w.alloc with blockedVarDynallocAllocFunc := 1 } sz ↔ w.alloc.Serves sz :=
      fun _ => Iff.rfl
    constructor
    · intro hJ' _ _
      refine ⟨hJ' p size (Function.update_self ..) rfl, fun q sz hq hw => hJ' q sz ?_ rfl⟩
      exact (Function.update_of_ne hq ..).trans hw
    · intro hm q sz hw _
      obtain ⟨hself, hothers⟩ := hm h0 hno
      rw [hserves]
      change Function.update w.waiting p (some size) q = some sz at hw
      by_cases hq : q = p
      · rw [hq, Function.update_self] at hw
        cases hw
        exact hself
      · rw [Function.update_of_ne hq] at hw
        exact hothers q sz hq hw
  · refine ⟨fun _ h0 hno => absurd (hfinds h0) hno, fun _ q sz hw hf => ?_⟩
    rw [hwait] at hw
    rw [hflag] at hf
    by_cases hq : q = p
    · rw [hq, Function.update_self] at hw
      cases hw
    · rw [Function.update_of_ne hq] at hw
      exact hserves sz (hJ q sz hw hf)

theorem WaiterStep.justified_iff {c : WaiterCall} (hJ : w.Justified) (hs : WaiterStep src w c w') :
    w'.Justified ↔ w.Heeds c := by
  cases hs with
  | alloc hp h => exact hJ.request h
  | @retry w' p size hp hf h =>
    refine (hJ.request h).trans ⟨fun hm sz hw => ?_, fun hh => hh size hp⟩
    obtain rfl : size = sz := Option.some.inj (hp.symm.trans hw)
    exact hm
  | @free p va s m hp h =>
    rcases freeBlock_flag h with ⟨hall, hflag, hpages⟩ | ⟨hsome, hflag⟩
    · constructor
      · intro hJ' hf _ q
        by_contra hw
        obtain ⟨sz, hw⟩ := Option.ne_none_iff_exists'.1 hw
        exact hJ' q sz hw (hflag.trans hf) (.inl hpages)
      · intro hh q sz hw hf
        have hnone := hh (hflag.symm.trans hf) hall q
        exact absurd (hnone.symm.trans hw) (Option.some_ne_none sz).symm
    · refine ⟨fun _ _ hall => absurd hall hsome, fun _ q sz _ hf => ?_⟩
      rw [hflag] at hf
      cases hf

end Waiters

/-- In every state of every run of several processes, no process waits for the flag while there is something for it,
exactly when every step heeds those that wait. -/
theorem waiting_justified_iff (src : PageSource M) (s : DynAlloc) (m : M) (cs : List WaiterCall) :
    Always (WaiterStep src) Waiters.Justified ⟨s, m, fun _ => none⟩ cs ↔
      Each (WaiterStep src) Waiters.Heeds ⟨s, m, fun _ => none⟩ cs :=
  always_iff_each (fun _ h => h) (fun _ _ _ hJ hh hs => (hs.justified_iff hJ).2 hh)
    (fun _ _ _ hJ hs hJ' => (hs.justified_iff hJ).1 hJ') fun _ _ hw => nomatch hw

/-- A process waits for a block of 2048 bytes, and the only page becomes free: the flag stays set. -/
theorem waiting_missed : ∃ s, initializeDynamicAllocator zeroedAlloc kernelHeapStart (kernelHeapStart + pageSize) =
    .ok s ∧
    ¬ Always (WaiterStep plentyOfPages) Waiters.Justified ⟨s, (), fun _ => none⟩
      [.allocBlock 1 1024, .allocBlock 2 2048, .freeBlock 1 kernelHeapStart] := by
  obtain ⟨s, s₁, s₂, s₃, hs, h1, h2, h3, hflag, hpages⟩ : ∃ s s₁ s₂ s₃,
      initializeDynamicAllocator zeroedAlloc kernelHeapStart (kernelHeapStart + pageSize) = .ok s ∧
      allocBlock plentyOfPages s () 1024 = .ok (.block kernelHeapStart, s₁, ()) ∧
      allocBlock plentyOfPages s₁ () 2048 = .ok (.waits, s₂, ()) ∧
      freeBlock plentyOfPages s₂ () kernelHeapStart = .ok (s₃, ()) ∧ s₃.blockedVarDynallocAllocFunc = 1 ∧
      s₃.freePagesList = [0] :=
    ⟨_, _, _, _, rfl, rfl, rfl, rfl, rfl, rfl⟩
  refine ⟨s, hs, fun h => ?_⟩
  have hr1 : (⟨s, (), fun _ => none⟩ : Waiters Unit).request plentyOfPages 1 1024 =
      some ⟨s₁, (), Function.update (fun _ => none) 1 none⟩ := by
    simp only [Waiters.request, h1]
  have hr2 : (⟨s₁, (), Function.update (fun _ => none) 1 none⟩ : Waiters Unit).request plentyOfPages 2 2048 =
      some ⟨s₂, (), Function.update (Function.update (fun _ => none) 1 none) 2 (some 2048)⟩ := by
    simp only [Waiters.request, h2]
  have hJ := ((h.2 _ (.alloc rfl hr1)).2 _ (.alloc rfl hr2)).2 _ (.free rfl h3)
  exact hJ 2 2048 rfl hflag (.inl (by rw [hpages]; exact List.cons_ne_nil _ _))

end Fos.Heap
