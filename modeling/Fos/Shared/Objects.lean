/-
The shared objects over calls: each object lies in its own block of the kernel heap, which gives it its ID, and
the calls leave the kernel heap ready for the next one. Objects come with `create_shared_object`; none ever goes,
since the call that would free one does not return.
-/
import Fos.Heap.LiveBlocks
import Fos.Memory.KernelReady
import Fos.Shared.Pages

namespace Fos.Shared

open Fos.Lib Fos.Memory Fos.Heap

/-! ## The objects and their blocks -/

/-- The block of an object. -/
def shareBlock (shr : Share) : LiveBlock := ⟨shr.addr, sizeofShare⟩

/-- Between calls: the lock is free, and each object is in a block in use of its own, whose address is its ID. -/
structure SharesReady (s : Shares) : Prop where
  lock : s.shareslock = false
  kernel : KernelReady s.kernel
  blocks : ∃ n others, s.kernel.dyn.Ok n (s.sharesList.map shareBlock ++ others)
  ids : ∀ shr ∈ s.sharesList, shr.ID = ((shr.addr % 2147483648 : Nat) : Int)

section SharesReady

variable {s t : Shares} {shr : Share}

theorem SharesReady.addrs (h : SharesReady s) : (s.sharesList.map (·.addr)).Nodup := by
  obtain ⟨n, others, hok⟩ := h.blocks
  have hd := hok.inv.liveNodup
  rw [List.map_append, List.map_map] at hd
  exact (List.nodup_append.1 hd).1

/-- An object is in the block allocator's part of the heap. -/
theorem SharesReady.bounds (h : SharesReady s) (hm : shr ∈ s.sharesList) :
    2147483648 ≤ shr.addr ∧ shr.addr < 4294967296 := by
  obtain ⟨n, others, hok⟩ := h.blocks
  obtain ⟨k, hB, -⟩ := hok.inv.liveBlock (shareBlock shr) (List.mem_append_left _ (List.mem_map_of_mem hm))
  have hlo : s.kernel.dyn.dynAllocStart ≤ shr.addr := hB.lo
  have hhi : shr.addr + 8 * 2 ^ k ≤ s.kernel.dyn.dynAllocEnd := DynAlloc.Block.below hok.inv hB
  have hend := hok.inv.endLt
  rw [h.kernel.heap.dynStart] at hlo
  simp only [kernelHeapStart] at hlo
  exact ⟨by omega, by omega⟩

/-- An ID is that of one object. -/
theorem SharesReady.find (h : SharesReady s) (hm : shr ∈ s.sharesList) :
    s.sharesList.find? (·.ID = shr.ID) = some shr := by
  have hinj : ∀ x ∈ s.sharesList, x.ID = shr.ID → x = shr := by
    intro x hx hid
    rw [h.ids x hx, h.ids shr hm] at hid
    have hx' := h.bounds hx
    have hs' := h.bounds hm
    exact List.inj_on_of_nodup_map h.addrs hx hm (by omega)
  cases hf : s.sharesList.find? (·.ID = shr.ID) with
  | none => exact absurd (List.find?_eq_none.1 hf shr hm) (by simp)
  | some x =>
    have hid := List.find?_some hf
    rw [hinj x (List.mem_of_find?_eq_some hf) (of_decide_eq_true hid)]

theorem SharesReady.same (h : SharesReady s) {a b : Share} (ha : a ∈ s.sharesList) (hb : b ∈ s.sharesList)
    (hid : a.ID = b.ID) : a = b := by
  have hfind := h.find ha
  rw [hid, h.find hb] at hfind
  exact (Option.some.inj hfind).symm

/-- From boot on. -/
theorem sharingInit_ready {s₀ k : Kernel} (hboot : Booted s₀.mem) (hinit : kheapInit s₀ = .ok k)
    (hsize : ∀ i, s₀.allocatedSize.val i = 0) : SharesReady (sharingInit k) := by
  obtain ⟨hmem, hsz⟩ := kheapInit_same hinit
  have hI := kheapInit_use hboot hinit
  refine ⟨rfl, ⟨kheapInit_ready hboot hinit, hI.heap.dynEnd, ?_, ?_, fun i => ?_⟩, ⟨_, [], hI.blocks⟩,
    fun shr hm => absurd hm List.not_mem_nil⟩
  · show ∀ i < 955, k.mem.table 0 i = none
    rw [hmem]
    exact hboot.lower
  · show k.mem.pte (0, 1048575) = {}
    rw [hmem]
    exact hboot.last
  · show k.allocatedSize.val i ≤ _
    rw [hsz, hsize]
    exact Nat.zero_le _

end SharesReady

/-! ## The loops -/

section Loops

variable {s t : Shares} {d v i n addr : Nat}

/-- What the loops keep of the kernel. -/
structure KernelKept (s t : Shares) : Prop where
  ready : KernelReady t.kernel
  dyn : t.kernel.dyn = s.kernel.dyn

theorem KernelKept.trans {u : Shares} (h : KernelKept s t) (h' : KernelKept t u) : KernelKept s u :=
  ⟨h'.ready, h'.dyn.trans h.dyn⟩

theorem createPages_kept (hd : d ≠ 0) : ∀ {n i : Nat} {s t : Shares}, KernelReady s.kernel → v + i + n ≤ userPages →
    createPages d addr (v * 4096) i n s = .ok () t → KernelKept s t
  | 0, _, _, _, hk, _, h => by
    cases h
    exact ⟨hk, rfl⟩
  | n + 1, i, s, t, hk, hrange, h => by
    obtain ⟨f, m, k, ha, hmap, h⟩ := createPages_round h
    rw [pageOf_eq (by omega)] at hmap
    obtain ⟨hk', -⟩ := (hk.within (allocateFrame_within ha)).mapFrame hd (by omega) hmap
    have hdyn := dyn_mapFrame _ _ _ _ _ _ hmap
    have hrest := createPages_kept hd (n := n) (i := i + 1) (s := s.record k addr i f) hk' (by omega) h
    exact ⟨hrest.ready, hrest.dyn.trans hdyn⟩

theorem getPages_kept {shr : Share} (hd : d ≠ 0) : ∀ {n i : Nat} {s t : Shares}, KernelReady s.kernel →
    v + i + n ≤ userPages →
    getPages d shr (v * 4096) i n s = .ok () t → KernelKept s t
  | 0, _, _, _, hk, _, h => by
    cases h
    exact ⟨hk, rfl⟩
  | n + 1, i, s, t, hk, hrange, h => by
    obtain ⟨f, k, -, hmap, h⟩ := getPages_round h
    rw [pageOf_eq (by omega)] at hmap
    obtain ⟨hk', -⟩ := hk.mapFrame hd (by omega) hmap
    have hdyn := dyn_mapFrame _ _ _ _ _ _ hmap
    have hrest := getPages_kept hd (s := { s with kernel := k }) hk' (by omega) h
    exact ⟨hrest.ready, hrest.dyn.trans hdyn⟩

/-- Deleting pages of a process frees no page table: the kernel's directory has none for them. -/
theorem delPageTable_user {k : Kernel} {va : Nat} (hk : KernelReady k) (hva : va < userTop) :
    delPageTable va k = .ok () k := by
  have hnone : k.mem.table 0 (pdx va) = none := hk.lower _ (by simp only [userTop] at hva; unfold pdx; omega)
  unfold delPageTable
  rw [get_bind, hnone]
  rfl

theorem pageOf_user {va i n : Nat} (h : va + (i + (n + 1)) * 4096 ≤ userTop) : pageOf va i < userTop := by
  simp only [userTop] at h ⊢
  have h1 : mul32 i pageSize = i * 4096 := mul32_of_lt (by simp only [pageSize]; omega)
  rw [pageOf, h1, add32_of_lt (by omega)]
  omega

theorem deletePages_returns {va : Nat} (hd : d ≠ 0) (hk : KernelReady s.kernel)
    (hrange : va + (i + n) * 4096 ≤ userTop) :
    ∃ k, deletePages d va i n s = .ok () { s with kernel := k } ∧ KernelReady k ∧ k.dyn = s.kernel.dyn := by
  induction n generalizing i s with
  | zero => exact ⟨s.kernel, rfl, hk, rfl⟩
  | succ n ih =>
    have hva : pageOf va i < userTop := pageOf_user hrange
    obtain ⟨-, -, hslot, -⟩ := user_address hva d
    have hk' : KernelReady { s.kernel with mem := s.kernel.mem.unmapFrame d (pageOf va i) } := by
      refine hk.mem (Mem.unmapFrame_same _ _ _).1 (unmapFrame_pte _ _ _ ?_)
      rw [hslot]
      exact fun hc => hd (congrArg Prod.fst hc).symm
    have hstep : onKernel (do
        modify fun s => { s with mem := s.mem.unmapFrame d (pageOf va i) }
        if emptyTable (← get).mem d (pageOf va i) then delPageTable (pageOf va i) : KM Unit) s =
        .ok () { s with kernel := { s.kernel with mem := s.kernel.mem.unmapFrame d (pageOf va i) } } := by
      apply onKernel_of_ok
      rw [modify_bind, get_bind]
      split
      · exact delPageTable_user hk' hva
      · rfl
    have hnext : va + (i + 1 + n) * 4096 ≤ userTop := by
      rw [show i + 1 + n = i + (n + 1) by omega]
      exact hrange
    obtain ⟨k, hrest, hready, hdyn⟩ :=
        ih (s := { s with kernel := { s.kernel with mem := s.kernel.mem.unmapFrame d (pageOf va i) } })
      hk' hnext
    refine ⟨k, ?_, hready, hdyn⟩
    unfold deletePages
    exact (bind_of_ok hstep).trans hrest

theorem allPages_returns {va : Nat} (hd : d ≠ 0) (hk : KernelReady s.kernel) (hrange : va + n * 4096 ≤ userTop) :
    ∃ k, deletePages d va 0 n s = .ok () { s with kernel := k } ∧ KernelReady k ∧ k.dyn = s.kernel.dyn := by
  apply deletePages_returns hd hk
  rw [Nat.zero_add]
  exact hrange

end Loops

/-! ## What the calls leave -/

/-- What a call can change of an object only by counting. -/
def Share.entry (shr : Share) : Nat × Int × Nat × Int := (shr.addr, shr.ID, shr.references, shr.size)

section Calls

variable {s t : Shares} {d va size w : Nat} {o r : Int} {name : List UInt8}

theorem setShare_map {α : Type} (φ : Share → α) (s : Shares) (addr : Nat) {g : Share → Share}
    (hg : ∀ shr, φ (g shr) = φ shr) :
    (s.setShare addr g).sharesList.map φ = s.sharesList.map φ := by
  rw [Shares.setShare, List.map_map]
  apply List.map_congr_left
  intro shr _
  show φ (if shr.addr = addr then g shr else shr) = φ shr
  split
  · exact hg shr
  · rfl

theorem createPages_entries {addr : Nat} : ∀ {n i : Nat} {s t : Shares}, createPages d addr va i n s = .ok () t →
    t.sharesList.map Share.entry = s.sharesList.map Share.entry
  | 0, _, _, _, h => by
    cases h
    rfl
  | n + 1, i, s, t, h => by
    obtain ⟨f, _, k, -, -, h⟩ := createPages_round h
    exact (createPages_entries h).trans (setShare_map Share.entry { s with kernel := k } addr fun _ => rfl)

/-- A new object is in a block of its own. -/
theorem allocShare_live {a : Option Share} {n : Nat} {live : List LiveBlock} (hk : KernelReady s.kernel)
    (hok : s.kernel.dyn.Ok n live) (h : allocShare o name size w s = .ok a t) :
    KernelReady t.kernel ∧ ∃ new, t.kernel.dyn.Ok n (a.toList.map shareBlock ++ (new ++ live)) := by
  unfold allocShare at h
  obtain ⟨addr, u, h1, h⟩ := ok_of_bind h
  obtain ⟨k, hk1, rfl⟩ := onKernel_ok h1
  obtain ⟨hr1, -⟩ := hk.kmalloc hk1
  have hok1 := kmalloc_block_live hok (by decide) (by decide) hk1
  by_cases ha : addr = 0
  · rw [if_pos ha] at h
    cases h
    exact ⟨hr1, [⟨addr, sizeofShare⟩], hok1⟩
  rw [if_neg ha] at h
  obtain ⟨framesStorage, u, h2, h⟩ := ok_of_bind h
  obtain ⟨k', hk2, rfl⟩ := onKernel_ok h2
  obtain ⟨hr2, -⟩ := hr1.kmalloc hk2
  obtain ⟨new, hok2⟩ := kmalloc_live hok1 hk2
  have hfront : k'.dyn.Ok n (⟨addr, sizeofShare⟩ :: (new ++ live)) := hok2.perm List.perm_middle
  by_cases hf : framesStorage = 0
  · rw [if_pos hf] at h
    obtain ⟨_, u, h3, h⟩ := ok_of_bind h
    obtain ⟨k'', hk3, rfl⟩ := onKernel_ok h3
    cases h
    exact ⟨(hr2.kfree hk3).1, new, kfree_block_live (c := ⟨addr, sizeofShare⟩) hfront hk3⟩
  · rw [if_neg hf] at h
    cases h
    exact ⟨hr2, new, hfront⟩

/-- Another state with the same objects. -/
theorem SharesReady.of_entries {l : List (Nat × Int × Nat × Int)} (hl : s.sharesList.map Share.entry = l)
    (hlock : s.shareslock = false)
    (hk : KernelReady s.kernel) (hb : ∃ n others, s.kernel.dyn.Ok n (l.map (fun e => ⟨e.1, sizeofShare⟩) ++ others))
    (hid : ∀ e ∈ l, e.2.1 = ((e.1 % 2147483648 : Nat) : Int)) : SharesReady s := by
  subst hl
  refine ⟨hlock, hk, ?_, fun shr hm => hid _ (List.mem_map_of_mem hm)⟩
  rw [List.map_map] at hb
  exact hb

theorem SharesReady.entries (h : SharesReady s) : ∀ e ∈ s.sharesList.map Share.entry,
    e.2.1 = ((e.1 % 2147483648 : Nat) : Int) := by
  intro e he
  obtain ⟨shr, hm, rfl⟩ := List.mem_map.1 he
  exact h.ids shr hm

theorem SharesReady.entryBlocks (h : SharesReady s) :
    ∃ n others, s.kernel.dyn.Ok n ((s.sharesList.map Share.entry).map (fun e => ⟨e.1, sizeofShare⟩) ++ others) := by
  rw [List.map_map]
  exact h.blocks

theorem allocShare_entry {shr : Share} (h : allocShare o name size w s = .ok (some shr) t) :
    shr.entry = (shr.addr, ((shr.addr % 2147483648 : Nat) : Int), 1, toInt32 size) := by
  obtain ⟨-, hsome⟩ := allocShare_ok h
  obtain ⟨k, framesStorage, -, -, -, -, hshr⟩ := hsome shr rfl
  conv_lhs => rw [hshr]
  rfl

/-- What `create_shared_object` did to the objects: nothing, or there is a new one with one reference. At an address
that is no page boundary there is a new one, and an error. -/
theorem create_ready (h : SharesReady s) (hd : d ≠ 0)
    (hrange : va % pageSize = 0 → va / 4096 + numberOfFrames size ≤ userPages)
    (hr : createSharedObject d o name size w va s = .ok r t) : SharesReady t ∧
      ((r < 0 ∧ t.sharesList.map Share.entry = s.sharesList.map Share.entry) ∨
        ∃ addr, t.sharesList.map Share.entry =
            (addr, ((addr % 2147483648 : Nat) : Int), 1, toInt32 size) :: s.sharesList.map Share.entry ∧
          if va % pageSize = 0 then r = ((addr % 2147483648 : Nat) : Int) else r < 0) := by
  obtain ⟨-, hc⟩ := create_ok hr
  obtain ⟨n, others, hok⟩ := h.entryBlocks
  have hlive : ∀ {a : Option Share} {k : Kernel}, allocShare o name size w s.locked =
      .ok a { s.locked with kernel := k } →
      KernelReady k ∧ ∃ new, k.dyn.Ok n (a.toList.map shareBlock ++
        (new ++ ((s.sharesList.map Share.entry).map (fun e => ⟨e.1, sizeofShare⟩) ++ others))) := fun ha =>
    allocShare_live (s := s.locked) h.kernel hok ha
  -- the state with the new object
  have hinsert : ∀ {shr : Share} {k : Kernel} {u : Shares},
      allocShare o name size w s.locked = .ok (some shr) { s.locked with kernel := k } →
      u.shareslock = false → KernelReady u.kernel → u.kernel.dyn = k.dyn →
      u.sharesList.map Share.entry = shr.entry :: s.sharesList.map Share.entry →
      SharesReady u ∧ u.sharesList.map Share.entry =
        (shr.addr, ((shr.addr % 2147483648 : Nat) : Int), 1, toInt32 size) :: s.sharesList.map Share.entry := by
    intro shr k u ha hlock hk hdyn hlist
    obtain ⟨-, new, hok'⟩ := hlive ha
    rw [allocShare_entry ha] at hlist
    refine ⟨.of_entries hlist hlock hk ⟨n, new ++ others, ?_⟩ fun e he => ?_, hlist⟩
    · rw [hdyn, List.map_cons, List.cons_append]
      apply hok'.perm
      apply List.Perm.cons _
      rw [← List.append_assoc, ← List.append_assoc]
      exact List.perm_append_comm.append_right _
    · rcases List.mem_cons.1 he with rfl | he
      · rfl
      · exact h.entries e he
  cases hc with
  | found hl => exact ⟨h, .inl ⟨by decide, rfl⟩⟩
  | @noMemory k hl ha =>
    obtain ⟨hk, new, hok'⟩ := hlive ha
    refine ⟨.of_entries rfl h.lock hk ⟨n, new ++ others, ?_⟩ h.entries, .inl ⟨by decide, rfl⟩⟩
    apply hok'.perm
    show (new ++ (_ ++ others)).Perm (_ ++ (new ++ others))
    rw [← List.append_assoc, ← List.append_assoc]
    exact List.perm_append_comm.append_right _
  | @misaligned k shr hl ha hva =>
    obtain ⟨hready, hlist⟩ := hinsert (u := { s with kernel := k }.insert shr) ha h.lock (hlive ha).1 rfl rfl
    exact ⟨hready, .inr ⟨shr.addr, hlist, by rw [if_neg hva]; decide⟩⟩
  | @mapped k shr u hl ha hva hp =>
    have hal : va = va / 4096 * 4096 := by
      simp only [pageSize] at hva
      omega
    have hentries := createPages_entries hp
    rw [hal] at hp
    have hkept := createPages_kept hd (s := { s.locked with kernel := k }.insert shr) (hlive ha).1
      (by rw [Nat.add_zero]; exact hrange hva) hp
    obtain ⟨hready, hlist⟩ := hinsert (u := u.unlocked) ha rfl hkept.ready hkept.dyn hentries
    refine ⟨hready, .inr ⟨shr.addr, hlist, ?_⟩⟩
    rw [if_pos hva]
    exact congrArg (fun e => e.2.1) (allocShare_entry ha)

/-- The objects after the count of the one at `addr` was changed by `g`. -/
def recount (addr : Nat) (g : Nat → Nat) (l : List (Nat × Int × Nat × Int)) : List (Nat × Int × Nat × Int) :=
  l.map fun e => if e.1 = addr then (e.1, e.2.1, g e.2.2.1, e.2.2.2) else e

theorem setShare_recount (s : Shares) (addr : Nat) (g : Nat → Nat) :
    (s.setShare addr fun shr => { shr with references := g shr.references }).sharesList.map Share.entry =
      recount addr g (s.sharesList.map Share.entry) := by
  rw [Shares.setShare, recount, List.map_map, List.map_map]
  apply List.map_congr_left
  intro shr _
  by_cases ha : shr.addr = addr <;> simp [ha, Share.entry]

/-- Counting leaves the objects where they are. -/
theorem SharesReady.recounted (h : SharesReady s) {k : Kernel} (hk : KernelReady k) (hdyn : k.dyn = s.kernel.dyn)
    (addr : Nat)
    (g : Nat → Nat) : SharesReady ({ s with kernel := k }.setShare addr fun shr =>
      { shr with references := g shr.references }) := by
  refine .of_entries (setShare_recount { s with kernel := k } addr g) h.lock hk ?_ fun e he => ?_
  · obtain ⟨n, others, hok⟩ := h.entryBlocks
    refine ⟨n, others, ?_⟩
    show k.dyn.Ok n _
    rw [hdyn, recount, List.map_map]
    have hsame : (s.sharesList.map Share.entry).map ((fun e => (⟨e.1, sizeofShare⟩ : LiveBlock)) ∘
        fun e => if e.1 = addr then (e.1, e.2.1, g e.2.2.1, e.2.2.2) else e) =
        (s.sharesList.map Share.entry).map fun e => ⟨e.1, sizeofShare⟩ := by
      apply List.map_congr_left
      intro e _
      simp only [Function.comp_apply]
      split <;> rfl
    rw [hsame]
    exact hok
  · obtain ⟨e', he', rfl⟩ := List.mem_map.1 he
    have := h.entries e' he'
    split <;> exact this

/-- What `get_shared_object` did to the objects. -/
theorem get_ready (h : SharesReady s) (hd : d ≠ 0) (hal : va % pageSize = 0)
    (hrange : ∀ shr, s.lookup o name = some shr → va / 4096 + shr.numOfFrames ≤ userPages)
    (hr : getSharedObject d o name va s = .ok r t) : SharesReady t ∧
      ((s.lookup o name = none ∧ r < 0 ∧ t = s) ∨ ∃ shr, s.lookup o name = some shr ∧ shr ∈ s.sharesList ∧ r = shr.ID ∧
        t.sharesList.map Share.entry = recount shr.addr (add32 · 1) (s.sharesList.map Share.entry)) := by
  obtain ⟨-, ⟨hl, rfl, rfl⟩ | ⟨shr, k, hl, hp, rfl, rfl⟩⟩ := get_ok hr
  · exact ⟨h, .inl ⟨hl, by decide, rfl⟩⟩
  · have hva : va = va / 4096 * 4096 := by
      simp only [pageSize] at hal
      omega
    rw [hva] at hp
    have hkept := getPages_kept hd (s := s.locked) h.kernel (by rw [Nat.add_zero]; exact hrange shr hl) hp
    exact ⟨h.recounted (k := k) hkept.ready hkept.dyn shr.addr (add32 · 1),
      .inr ⟨shr, hl, List.mem_of_find?_eq_some hl, rfl, setShare_recount { s with kernel := k } shr.addr (add32 · 1)⟩⟩

/-- What `delete_shared_object` did to the objects when it returned. -/
theorem delete_ready (h : SharesReady s) (hd : d ≠ 0) {ID : Int}
    (hrange : ∀ shr ∈ s.sharesList, shr.ID = ID → va + shr.numOfFrames * 4096 ≤ userTop)
    (hr : deleteSharedObject d ID va s = .ok r t) : SharesReady t ∧
      (((∀ shr ∈ s.sharesList, shr.ID ≠ ID) ∧ r < 0 ∧ t = s) ∨ ∃ shr ∈ s.sharesList, shr.ID = ID ∧ r = 0 ∧
        sub32 shr.references 1 ≠ 0 ∧
        t.sharesList.map Share.entry = recount shr.addr (sub32 · 1) (s.sharesList.map Share.entry)) := by
  obtain ⟨-, ⟨hf, rfl, rfl⟩ | ⟨shr, k, hf, hz, hp, rfl, rfl⟩⟩ := delete_ok hr
  · exact ⟨h, .inl ⟨fun shr hm hid => List.find?_eq_none.1 hf shr hm (by simp [hid]), by decide, rfl⟩⟩
  · have hm := List.mem_of_find?_eq_some hf
    have hid := List.find?_some hf
    have hid : shr.ID = ID := of_decide_eq_true hid
    obtain ⟨k', hp', hk, hdyn⟩ := allPages_returns hd (s := s.locked) h.kernel (hrange shr hm hid)
    rw [hp'] at hp
    obtain rfl : k' = k := congrArg Shares.kernel (EStateM.Result.ok.inj hp).2
    exact ⟨h.recounted hk hdyn shr.addr (sub32 · 1), .inr ⟨shr, hm, hid, rfl, hz,
      setShare_recount { s with kernel := k' } shr.addr (sub32 · 1)⟩⟩

/-- A delete that is not of the last reference returns. -/
theorem delete_returns {shr : Share} (h : SharesReady s) (hd : d ≠ 0) (hm : shr ∈ s.sharesList)
    (hz : sub32 shr.references 1 ≠ 0)
    (hrange : va + shr.numOfFrames * 4096 ≤ userTop) : ∃ t, deleteSharedObject d shr.ID va s = .ok 0 t := by
  obtain ⟨k, hp, -, -⟩ := allPages_returns hd (s := s.locked) h.kernel hrange
  have hfind : s.locked.sharesList.find? (·.ID = shr.ID) = some shr := h.find hm
  refine ⟨(({ s.locked with kernel := k } : Shares).setShare shr.addr fun shr =>
    { shr with references := sub32 shr.references 1 }).unlocked, ?_⟩
  unfold deleteSharedObject
  rw [bind_of_ok (acquire_free h.lock), bind_of_ok (get_shares _), hfind]
  simp only
  rw [bind_of_ok hp, modifyShare, bind_of_ok (modify_shares _ _), if_neg hz]
  exact bind_of_ok (release_held rfl)

end Calls

end Fos.Shared
