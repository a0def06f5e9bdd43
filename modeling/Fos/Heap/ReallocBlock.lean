/-
`realloc_block` over the bytes of the blocks, and what any sequence of calls does to the blocks in
use: every byte of a block that is not the argument stays, and a block that is moved takes its
contents along.
-/
import Fos.Heap.BlockContents

namespace Fos.Heap

open Fos.Lib DynAlloc

variable {M : Type} {B : PagedMemory M}

/-! ## The call -/

/-- The blocks in use after `realloc_block` of the block `b`. -/
def AllocResult.regrant (r : AllocResult) (newSize : Nat) (b : LiveBlock) (live : List LiveBlock) : List LiveBlock :=
  match r with
  | .null => live
  | .block va => ⟨va, newSize⟩ :: live
  | .waits => b :: live

section Realloc

variable {n : Nat} {s : DynAlloc} {live : List LiveBlock} {d d' : LinkedAlloc} {m m' : M} {b : LiveBlock}
    {r : AllocResult}

/-- A block in use can be asked to hold anything that fits. -/
theorem DynAlloc.Ok.resize {k newSize : Nat} (h : Ok n s (b :: live)) (hB : s.Block n k b.va)
    (hle : newSize ≤ 8 * 2 ^ k) :
    Ok n s (⟨b.va, newSize⟩ :: live) := by
  have hI := h.inv
  refine ⟨{ hI with
    liveNodup := hI.liveNodup
    liveBlock := fun c hc => ?_
    count := fun p hp j hj hsz => ?_ }, h.used⟩
  · rcases List.mem_cons.1 hc with rfl | hc
    · obtain ⟨j, hBj, -, hnot⟩ := hI.liveBlock b List.mem_cons_self
      obtain rfl := hB.class_eq hBj
      exact ⟨k, hB, hle, hnot⟩
    · exact hI.liveBlock c (List.mem_cons_of_mem b hc)
  · rw [← hI.count p hp j hj hsz, List.countP_cons, List.countP_cons]

/-- The size that `get_block_size` finds for a block. -/
theorem getBlockSize_block {k va : Nat} (hI : Inv n s live) (hR : d.Rep B n m s) (hB : s.Block n k va) :
    d.getBlockSize va = 8 * 2 ^ k := by
  rw [LinkedAlloc.getBlockSize, hR.start, hR.info, (Block.index hI hB).1, hB.size]

theorem getBlockSize_live (hI : Inv n s live) (hR : d.Rep B n m s) (hb : b ∈ live) :
    d.getBlockSize b.va = (s.pageBlockInfoArr (s.page b.va)).blockSize := by
  obtain ⟨k, hB, -⟩ := hI.liveBlock b hb
  rw [getBlockSize_block hI hR hB, hB.size]

/-- The copy that `realloc_block` makes writes to the new block alone, and the links stay. -/
theorem memcpy_refines {b' : LiveBlock} {j k : Nat} (hI : Inv n s (b' :: b :: live)) (hR : d.Rep B n m s)
    (hB : s.Block n k b.va) (hB' : s.Block n j b'.va) (hle : 8 * 2 ^ k ≤ 8 * 2 ^ j) :
    d.Rep B n (B.memcpy m b'.va b.va (8 * 2 ^ k)) s ∧ B.Same (s.liveBytes live) m (B.memcpy m b'.va b.va (8 * 2 ^ k)) ∧
      ∀ i < 8 * 2 ^ k, B.load (B.memcpy m b'.va b.va (8 * 2 ^ k)) (b'.va + i) = B.load m (b.va + i) := by
  have hsub : s.liveBytes live ⊆ s.liveBytes (b' :: b :: live) := fun a ⟨c, hc, h1⟩ => ⟨c, by simp [hc], h1⟩
  have hnd := hI.liveNodup
  simp only [List.map_cons, List.nodup_cons, List.mem_cons, List.mem_map, not_or, not_exists, not_and] at hnd
  obtain ⟨⟨hne, hb'⟩, hb, -⟩ := hnd
  -- the bytes of both blocks can be written without a change of the others
  have hfree : ∀ {c : LiveBlock} {i l : Nat}, (∀ x ∈ live, x.va ≠ c.va) → s.Block n l c.va → i < 8 * 2 ^ l →
      (c.va + i) / 4096 ∈ s.splitPages n ∧ c.va + i ∉ s.liveBytes live := by
    intro c i l hc hC hi
    refine ⟨Block.split hI hC hi, ?_⟩
    rintro ⟨x, hx, hlo, hhi⟩
    obtain ⟨l', hX, -⟩ := hI.liveBlock x (by simp [hx])
    rw [hX.size] at hhi
    exact Block.disjoint hX hC (hc x hx) (c.va + i) ⟨⟨hlo, hhi⟩, Nat.le_add_right c.va i, Nat.add_lt_add_left hi c.va⟩
  have hapart : b.va + 8 * 2 ^ k ≤ b'.va ∨ b'.va + 8 * 2 ^ k ≤ b.va := by
    have h1 := class_pos k
    rcases Extent.apart_of_disjoint h1 (class_pos j) (Block.disjoint hB hB' (Ne.symm hne)) with h | h
    · exact .inl h
    · have h2 : b'.va + 8 * 2 ^ j ≤ b.va := h
      exact .inr (by omega)
  obtain ⟨hG, hcopy⟩ := ByteMemory.memcpy_spec (keeps_lawful B (A := s.liveBytes live) m
    fun a ha => liveBytes_split hI (hsub ha)) (PagedMemory.Keeps.refl hR.backed)
    (fun i hi => hfree hb' hB' (by omega)) (fun i hi => hfree hb hB hi) (hapart.imp_right (by omega))
  refine ⟨⟨hR.globals, fun l hl => (hR.lists l hl).congr fun y hy => links_congr fun i hi => ?_, hG.1, hR.area⟩, hG.2,
    fun i hi => ?_⟩
  · -- no link is in the new block
    have hnode := listed_node hI hl hy
    obtain ⟨hpage, hnot⟩ := hnode.bytes i hi
    rw [hcopy (y + i) ⟨hpage, fun hmem => hnot (hsub hmem)⟩, if_neg]
    rintro ⟨hlo, hhi⟩
    refine hnot ⟨b', by simp, hlo, ?_⟩
    rw [hB'.size]
    omega
  · rw [hcopy (b'.va + i) (hfree hb' hB' (by omega)), if_pos ⟨by omega, by omega⟩, Nat.add_sub_cancel_left]

/-- `alloc_block`, when it returns. -/
theorem allocBlock_ok {size : Nat} (h : Ok n s live) (hR : d.Rep B n m s)
    (hrun : d.allocBlock B m size = .ok (r, d', m')) : ∃ s', Ok n s' (r.grant size live) ∧ d'.Rep B n m' s' ∧
      B.Same (s.liveBytes live) m m' ∧ s.SameSizes s' := by
  have hs : size ≤ 2048 := by
    by_contra hs
    rw [LinkedAlloc.allocBlock, if_pos (show dynAllocMaxBlockSize < size from not_le.1 hs)] at hrun
    cases hrun
  rcases allocBlock_refines h.inv hR hs with ⟨e, _, -, he⟩ | ⟨r₁, s', d₁, m₁, hs', hrun', hR', hsame⟩
  · rw [he] at hrun
    cases hrun
  rw [hrun'] at hrun
  cases hrun
  rcases allocBlock_spec everyPage h () hs with ⟨e, _, he, -⟩ | ⟨r₂, s₂, u, hs₂, hok⟩
  · cases he
  rw [hs₂] at hs'
  cases hs'
  exact ⟨s', hok, hR', hsame, allocBlock_sizes hs₂⟩

/-- `free_block` of a block in use, when it returns. -/
theorem freeBlock_ok (h : Ok n s (b :: live)) (hR : d.Rep B n m s) (hrun : d.freeBlock B m b.va = .ok (d', m')) :
    ∃ s', Ok n s' live ∧ d'.Rep B n m' s' ∧ B.Same (s.liveBytes live) m m' := by
  rcases freeBlock_refines h hR with ⟨e, _, _, -, he⟩ | ⟨s', d₁, m₁, hs', hrun', hR', hsame⟩
  · rw [he] at hrun
    cases hrun
  rw [hrun'] at hrun
  cases hrun
  rcases freeBlock_spec everyPage h () with ⟨e, _, he, -⟩ | ⟨s₂, u, hs₂, hok⟩
  · cases he
  rw [hs₂] at hs'
  cases hs'
  exact ⟨s', hok, hR', hsame⟩

theorem takeFirst_block {i : Nat} (hrun : d.takeFirst B m i = .ok (r, d', m')) : ∃ p, r = .block p := by
  unfold LinkedAlloc.takeFirst at hrun
  dsimp only at hrun
  split at hrun
  · cases hrun
  · obtain ⟨p, -, hrun⟩ := bind_ok hrun
    cases hrun
    exact ⟨_, rfl⟩

/-- `alloc_block` returns `NULL` for the size `0` only. -/
theorem linkedAlloc_ne_null {size : Nat} (h0 : size ≠ 0) (hrun : d.allocBlock B m size = .ok (r, d', m')) :
    r ≠ .null := by
  rintro rfl
  have htake : ∀ {d : LinkedAlloc} {m : M} {i : Nat}, d.takeFirst B m i ≠ .ok (.null, d', m') := by
    intro d m i htake
    obtain ⟨p, hp⟩ := takeFirst_block htake
    cases hp
  have hmax : ¬ dynAllocMaxBlockSize < size := by
    intro hmax
    rw [LinkedAlloc.allocBlock, if_pos hmax] at hrun
    cases hrun
  rw [LinkedAlloc.allocBlock, if_neg hmax, if_neg h0] at hrun
  dsimp only at hrun
  split at hrun
  · exact htake hrun
  split at hrun
  · obtain ⟨pageVa, -, hrun⟩ := bind_ok hrun
    obtain ⟨m₁, -, hrun⟩ := bind_ok hrun
    exact htake hrun
  · split at hrun
    · exact htake hrun
    · cases hrun

/-- Between the two calls of `realloc_block` that move a block: the old contents are in the new one. -/
structure BlockMoved (B : PagedMemory M) (n : Nat) (s : DynAlloc) (live : List LiveBlock) (m : M) (b : LiveBlock)
    (p newSize size : Nat)
    (d₁ : LinkedAlloc) (m₁ : M) (s₁ : DynAlloc) : Prop where
  ok : Ok n s₁ (b :: ⟨p, newSize⟩ :: live)
  rep : d₁.Rep B n (B.memcpy m₁ p b.va size) s₁
  others : B.Same (s.liveBytes live) m (B.memcpy m₁ p b.va size)
  contents : ∀ i < size, B.load (B.memcpy m₁ p b.va size) (p + i) = B.load m (b.va + i)
  kept : s.liveBytes live ⊆ s₁.liveBytes (⟨p, newSize⟩ :: live)
  own : ∀ i < size, p + i ∈ s₁.liveBytes (⟨p, newSize⟩ :: live)

theorem allocBlock_moved {k newSize p : Nat} (h : Ok n s (b :: live)) (hR : d.Rep B n m s) (hB : s.Block n k b.va)
    (hlt : 8 * 2 ^ k < newSize) (halloc : d.allocBlock B m newSize = .ok (.block p, d', m')) :
    ∃ s₁, BlockMoved B n s live m b p newSize (8 * 2 ^ k) d' m' s₁ := by
  have hI := h.inv
  have hsub : s.liveBytes live ⊆ s.liveBytes (b :: live) := fun a ⟨c, hc, h1⟩ => ⟨c, List.mem_cons_of_mem b hc, h1⟩
  obtain ⟨s₁, hok₁, hR₁, hsame₁, hst, hsizes⟩ := allocBlock_ok h hR halloc
  have hlive : s₁.liveBytes live = s.liveBytes live := liveBytes_congr hst fun c hc => by
    obtain ⟨j, hC, -⟩ := hI.liveBlock c (List.mem_cons_of_mem b hc)
    exact hsizes _ (hI.not_free hC)
  have hI₁ := hok₁.inv
  have hB₁ : s₁.Block n k b.va := hB.congr hst (hsizes _ (hI.not_free hB))
  obtain ⟨j, hB', hlarge, -⟩ := hI₁.liveBlock ⟨p, newSize⟩ List.mem_cons_self
  have hfits : 8 * 2 ^ k ≤ 8 * 2 ^ j := hlt.le.trans hlarge
  obtain ⟨hR₂, hsame₂, hcopy⟩ := memcpy_refines hI₁ hR₁ hB₁ hB' hfits
  refine ⟨s₁, hok₁.perm (List.Perm.swap b ⟨p, newSize⟩ live), hR₂, fun a ha => ?_, fun i hi => ?_, fun a ha => ?_,
    fun i hi => ?_⟩
  · rw [hsame₂ a (hlive ▸ ha), hsame₁ a (hsub ha)]
  · rw [hcopy i hi, hsame₁]
    exact ⟨b, List.mem_cons_self, Nat.le_add_right b.va i, by rw [hB.size]; omega⟩
  · rw [← hlive] at ha
    obtain ⟨c, hc, h1⟩ := ha
    exact ⟨c, List.mem_cons_of_mem _ hc, h1⟩
  · exact ⟨⟨p, newSize⟩, List.mem_cons_self, Nat.le_add_right p i, by
      rw [hB'.size]; exact Nat.add_lt_add_left (by omega) p⟩

/-- No block in use is at address `0`. -/
theorem live_ne_zero (hI : Inv n s live) (hb : b ∈ live) : b.va ≠ 0 := by
  obtain ⟨k, hB, -⟩ := hI.liveBlock b hb
  have h1 := hB.lo
  have h2 := hI.startPos
  omega

/-- `realloc_block` of a block in use, when it returns: the invariant, the other blocks, and the contents. -/
theorem reallocBlock_ok {newSize : Nat} (h : Ok n s (b :: live)) (hR : d.Rep B n m s)
    (hrun : d.reallocBlock B m b.va newSize = .ok (r, d', m')) :
    (∃ s', Ok n s' (r.regrant newSize b live) ∧ d'.Rep B n m' s') ∧ B.Same (s.liveBytes live) m m' ∧
      ∀ p, r = .block p → ∀ i < min (d.getBlockSize b.va) newSize, B.load m' (p + i) = B.load m (b.va + i) := by
  have hI := h.inv
  obtain ⟨k, hB, -, -⟩ := hI.liveBlock b List.mem_cons_self
  have hsub : s.liveBytes live ⊆ s.liveBytes (b :: live) := fun a ⟨c, hc, h1⟩ => ⟨c, List.mem_cons_of_mem b hc, h1⟩
  simp only [LinkedAlloc.reallocBlock, if_neg (live_ne_zero hI List.mem_cons_self),
    getBlockSize_block hI hR hB] at hrun ⊢
  by_cases h0 : newSize = 0
  · -- the block is freed
    rw [if_pos h0] at hrun
    obtain ⟨⟨d₁, m₁⟩, hfree, hrun⟩ := bind_ok hrun
    cases hrun
    obtain ⟨s', hok, hR', hsame⟩ := freeBlock_ok h hR hfree
    exact ⟨⟨s', hok, hR'⟩, hsame, fun p hp => by cases hp⟩
  rw [if_neg h0] at hrun
  by_cases hle : newSize ≤ 8 * 2 ^ k
  · -- the block is large enough
    rw [if_pos hle] at hrun
    cases hrun
    exact ⟨⟨s, h.resize hB hle, hR⟩, fun _ _ => rfl, fun p hp i _ => by cases hp; rfl⟩
  rw [if_neg hle] at hrun
  obtain ⟨⟨r₁, d₁, m₁⟩, halloc, hrun⟩ := bind_ok hrun
  cases r₁ with
  | null => cases hrun
  | waits =>
    cases hrun
    obtain ⟨s₁, hok₁, hR₁, hsame₁, -⟩ := allocBlock_ok h hR halloc
    exact ⟨⟨s₁, hok₁, hR₁⟩, fun a ha => hsame₁ a (hsub ha), fun p hp => by cases hp⟩
  | block p =>
    -- the contents are copied to the new block, and the old one is freed
    obtain ⟨⟨d₂, m₂⟩, hfree, hrun⟩ := bind_ok hrun
    cases hrun
    obtain ⟨s₁, hm⟩ := allocBlock_moved h hR hB (not_le.1 hle) halloc
    obtain ⟨s₃, hok₃, hR₃, hsame₃⟩ := freeBlock_ok hm.ok hm.rep hfree
    refine ⟨⟨s₃, hok₃, hR₃⟩, fun a ha => ?_, fun q hq i hi => ?_⟩
    · rw [hsame₃ a (hm.kept ha), hm.others a ha]
    · cases hq
      have hik : i < 8 * 2 ^ k := lt_of_lt_of_le hi (min_le_left _ _)
      rw [hsame₃ _ (hm.own i hik), hm.contents i hik]

/-- What `realloc_block` answers for a size other than `0`: the block itself if the size fits, else what `alloc_block`
gives. -/
theorem reallocBlock_answer {newSize : Nat} (hb : b.va ≠ 0) (h0 : 0 < newSize)
    (hrun : d.reallocBlock B m b.va newSize = .ok (r, d', m')) :
    r ≠ .null ∧ (newSize ≤ d.getBlockSize b.va → r = .block b.va) ∧
      (d.getBlockSize b.va < newSize → ∃ d₁ m₁, d.allocBlock B m newSize = .ok (r, d₁, m₁)) := by
  rw [LinkedAlloc.reallocBlock, if_neg hb, if_neg h0.ne'] at hrun
  simp only [] at hrun
  by_cases hle : newSize ≤ d.getBlockSize b.va
  · rw [if_pos hle] at hrun
    cases hrun
    exact ⟨nofun, fun _ => rfl, fun hlt => absurd hle (not_le.2 hlt)⟩
  · rw [if_neg hle] at hrun
    obtain ⟨⟨r₁, d₁, m₁⟩, halloc, hrun⟩ := bind_ok hrun
    have hr : r₁ = r := by
      cases r₁ with
      | null => cases hrun
      | waits =>
        cases hrun
        rfl
      | block p =>
        obtain ⟨⟨d₂, m₂⟩, -, hrun⟩ := bind_ok hrun
        cases hrun
        rfl
    subst hr
    exact ⟨linkedAlloc_ne_null h0.ne' halloc, fun h => absurd h hle, fun _ => ⟨d₁, m₁, halloc⟩⟩

/-- `realloc_block` of a block in use returns, unless a page is neither handed out nor taken back. -/
theorem reallocBlock_returns {newSize : Nat} (h : Ok n s (b :: live)) (hR : d.Rep B n m s) (hs : newSize ≤ 2048) :
    (∃ r d' m', d.reallocBlock B m b.va newSize = .ok (r, d', m')) ∨
      ∃ e m' pageVa, (B.getPage m' pageVa = .error e ∨ B.returnPage m' pageVa = .error e) ∧
        d.reallocBlock B m b.va newSize = .error e := by
  have hI := h.inv
  obtain ⟨k, hB, -, -⟩ := hI.liveBlock b List.mem_cons_self
  simp only [LinkedAlloc.reallocBlock, if_neg (live_ne_zero hI List.mem_cons_self), getBlockSize_block hI hR hB]
  by_cases h0 : newSize = 0
  · rw [if_pos h0]
    rcases freeBlock_refines h hR with ⟨e, m', pageVa, hpage, he⟩ | ⟨s', d', m', -, hfree, -⟩
    · exact .inr ⟨e, m', pageVa, .inr hpage, by rw [he]; rfl⟩
    · exact .inl ⟨.null, d', m', by rw [hfree]; rfl⟩
  rw [if_neg h0]
  by_cases hle : newSize ≤ 8 * 2 ^ k
  · rw [if_pos hle]
    exact .inl ⟨_, _, _, rfl⟩
  rw [if_neg hle]
  rcases allocBlock_refines hI hR hs with ⟨e, pageVa, hpage, he⟩ | ⟨r, s₁, d₁, m₁, -, halloc, -⟩
  · exact .inr ⟨e, m, pageVa, .inl hpage, by rw [he]; rfl⟩
  cases r with
  | null => exact absurd rfl (linkedAlloc_ne_null h0 halloc)
  | waits => exact .inl ⟨.waits, d₁, m₁, by rw [halloc]; rfl⟩
  | block p =>
    obtain ⟨s₂, hm⟩ := allocBlock_moved h hR hB (not_le.1 hle) halloc
    rcases freeBlock_refines hm.ok hm.rep with ⟨e, m', pageVa, hpage, he⟩ | ⟨s', d₂, m₂, -, hfree, -⟩
    · refine .inr ⟨e, m', pageVa, .inr hpage, ?_⟩
      rw [halloc]
      show (LinkedAlloc.freeBlock B d₁ (B.memcpy m₁ p b.va (8 * 2 ^ k)) b.va >>= _) = _
      rw [he]
      rfl
    · refine .inl ⟨.block p, d₂, m₂, ?_⟩
      rw [halloc]
      show (LinkedAlloc.freeBlock B d₁ (B.memcpy m₁ p b.va (8 * 2 ^ k)) b.va >>= _) = _
      rw [hfree]
      rfl

end Realloc

/-! ## Any sequence of calls -/

/-- An allocator with its memory and the blocks in use. -/
structure LinkedRun (M : Type) where
  alloc : LinkedAlloc
  mem : M
  live : List LiveBlock

/-- A call, `realloc_block` with what it returned; or the program writes byte `i` of a block it has. -/
inductive LinkedCall where
  | allocBlock (size : Nat)
  | freeBlock (va : Nat)
  | reallocBlock (va newSize : Nat) (r : AllocResult)
  | write (va i : Nat) (v : UInt8)

/-- The block that a call is given. -/
def LinkedCall.argument : LinkedCall → Option Nat
  | .allocBlock _ => none
  | .freeBlock va => some va
  | .reallocBlock va _ _ => some va
  | .write va _ _ => some va

/-- One call that returns, on blocks in use; `realloc_block` also takes `NULL`. -/
inductive LinkedStep (B : PagedMemory M) : LinkedRun M → LinkedCall → LinkedRun M → Prop where
  | alloc {x : LinkedRun M} {size : Nat} {r : AllocResult} {d : LinkedAlloc} {m : M}
      (h : x.alloc.allocBlock B x.mem size = .ok (r, d, m)) :
      LinkedStep B x (.allocBlock size) ⟨d, m, r.grant size x.live⟩
  | free {x : LinkedRun M} {b : LiveBlock} {live : List LiveBlock} {d : LinkedAlloc} {m : M}
      (hb : x.live.Perm (b :: live))
      (h : x.alloc.freeBlock B x.mem b.va = .ok (d, m)) : LinkedStep B x (.freeBlock b.va) ⟨d, m, live⟩
  | reallocNull {x : LinkedRun M} {newSize : Nat} {r : AllocResult} {d : LinkedAlloc} {m : M}
      (h : x.alloc.reallocBlock B x.mem 0 newSize = .ok (r, d, m)) :
      LinkedStep B x (.reallocBlock 0 newSize r) ⟨d, m, r.grant newSize x.live⟩
  | realloc {x : LinkedRun M} {b : LiveBlock} {live : List LiveBlock} {newSize : Nat} {r : AllocResult}
      {d : LinkedAlloc}
      {m : M} (hb : x.live.Perm (b :: live)) (h : x.alloc.reallocBlock B x.mem b.va newSize = .ok (r, d, m)) :
      LinkedStep B x (.reallocBlock b.va newSize r) ⟨d, m, r.regrant newSize b live⟩
  | write {x : LinkedRun M} {b : LiveBlock} {i : Nat} {v : UInt8} (hb : b ∈ x.live)
      (hi : i < x.alloc.getBlockSize b.va) :
      LinkedStep B x (.write b.va i v) ⟨x.alloc, B.store x.mem (b.va + i) v, x.live⟩

/-- A call changes no byte of a block in use that is not its argument. `realloc_block` of a block in use answers the
block itself if the size fits, else what `alloc_block` gives, never `NULL` but for the size `0`; and what it returns
holds what the block held, up to the smaller of its size and the new one. -/
structure LinkedRun.Keeps (B : PagedMemory M) (x : LinkedRun M) (c : LinkedCall) (y : LinkedRun M) : Prop where
  others : ∀ b ∈ x.live, c.argument ≠ some b.va → ∀ i < x.alloc.getBlockSize b.va,
    B.load y.mem (b.va + i) = B.load x.mem (b.va + i)
  answers : ∀ b ∈ x.live, ∀ newSize r, c = .reallocBlock b.va newSize r → 0 < newSize →
    r ≠ .null ∧ (newSize ≤ x.alloc.getBlockSize b.va → r = .block b.va) ∧
      (x.alloc.getBlockSize b.va < newSize → ∃ d m, x.alloc.allocBlock B x.mem newSize = .ok (r, d, m))
  moved : ∀ b ∈ x.live, ∀ newSize p, c = .reallocBlock b.va newSize (.block p) →
    ∀ i < min (x.alloc.getBlockSize b.va) newSize, B.load y.mem (p + i) = B.load x.mem (b.va + i)

/-- `realloc_block` of a block in use returns, for every size that a block can have, unless a page is neither handed out
nor taken back. -/
def LinkedRun.Serves (B : PagedMemory M) (x : LinkedRun M) : Prop :=
  ∀ b ∈ x.live, ∀ newSize ≤ dynAllocMaxBlockSize, (∃ r y, LinkedStep B x (.reallocBlock b.va newSize r) y) ∨
    ∃ e m pageVa, (B.getPage m pageVa = .error e ∨ B.returnPage m pageVa = .error e) ∧
      x.alloc.reallocBlock B x.mem b.va newSize = .error e

/-- The bytes of the run stand for lists that meet the invariant. -/
def LinkedRun.Sound (B : PagedMemory M) (n : Nat) (x : LinkedRun M) : Prop :=
  ∃ s, Ok n s x.live ∧ x.alloc.Rep B n x.mem s

section Run

variable {n : Nat} {x y : LinkedRun M}

theorem live_byte {s : DynAlloc} {live live' : List LiveBlock} {d : LinkedAlloc} {m : M} {b : LiveBlock} {i : Nat}
    (hI : Inv n s live) (hR : d.Rep B n m s) (hb : b ∈ live) (hb' : b ∈ live') (hi : i < d.getBlockSize b.va) :
    b.va + i ∈ s.liveBytes live' :=
  ⟨b, hb', Nat.le_add_right b.va i, by rw [← getBlockSize_live hI hR hb]; omega⟩

theorem mem_of_perm {live rest : List LiveBlock} {b c : LiveBlock} (hp : live.Perm (b :: rest)) (hc : c ∈ live)
    (hne : c ≠ b) : c ∈ rest := (List.mem_cons.1 (hp.mem_iff.1 hc)).resolve_left hne

/-- A byte the program writes is in one block in use, and in no link. -/
theorem LinkedStep.write_ok {b : LiveBlock} {i : Nat} {v : UInt8} (h : x.Sound B n) (hb : b ∈ x.live)
    (hi : i < x.alloc.getBlockSize b.va) :
    x.Keeps B (.write b.va i v) ⟨x.alloc, B.store x.mem (b.va + i) v, x.live⟩ ∧
      LinkedRun.Sound B n ⟨x.alloc, B.store x.mem (b.va + i) v, x.live⟩ := by
  obtain ⟨s, hok, hR⟩ := h
  have hI := hok.inv
  have hbyte := live_byte hI hR hb hb hi
  obtain ⟨hback, hload⟩ := B.store_backed _ _ (b.va + i) v hR.backed (liveBytes_split hI hbyte)
  obtain ⟨k, hB, -⟩ := hI.liveBlock b hb
  rw [getBlockSize_block hI hR hB] at hi
  refine ⟨⟨fun c hc hne j hj => ?_, fun _ _ _ _ he => (by cases he), fun _ _ _ _ he => (by cases he)⟩, s, hok,
    hR.globals, fun k hk => ?_, hback, hR.area⟩
  · have hcb : c.va ≠ b.va := fun he => hne (congrArg some he.symm)
    obtain ⟨l, hC, -⟩ := hI.liveBlock c hc
    have hj' := hj
    rw [getBlockSize_block hI hR hC] at hj'
    have hout : c.va + j ≠ b.va + i := fun he => Block.disjoint hC hB hcb (c.va + j)
      ⟨⟨Nat.le_add_right c.va j, Nat.add_lt_add_left hj' c.va⟩,
        by rw [he]; exact Nat.le_add_right b.va i, by rw [he]; exact Nat.add_lt_add_left hi b.va⟩
    show B.load (B.store x.mem (b.va + i) v) (c.va + j) = B.load x.mem (c.va + j)
    rw [hload _ (liveBytes_split hI (live_byte hI hR hc hc hj)), if_neg hout]
  · refine (hR.lists k hk).congr fun y hy => links_congr fun j hj => ?_
    obtain ⟨hpage, hnot⟩ := (listed_node hI hk hy).bytes j hj
    rw [hload _ hpage, if_neg fun he : y + j = b.va + i => hnot (he ▸ hbyte)]

theorem LinkedStep.ok (x : LinkedRun M) (c : LinkedCall) (y : LinkedRun M) (h : x.Sound B n)
    (hstep : LinkedStep B x c y) :
    x.Keeps B c y ∧ y.Sound B n := by
  cases hstep with
  | alloc hrun =>
    obtain ⟨s, hok, hR⟩ := h
    obtain ⟨s', hok', hR', hsame, -⟩ := allocBlock_ok hok hR hrun
    exact ⟨⟨fun b hb _ i hi => hsame _ (live_byte hok.inv hR hb hb hi), fun _ _ _ _ he => (by cases he),
      fun _ _ _ _ he => (by cases he)⟩, s', hok', hR'⟩
  | @free b live d m hb hrun =>
    obtain ⟨s, hok, hR⟩ := h
    obtain ⟨s', hok', hR', hsame⟩ := freeBlock_ok (hok.perm hb) hR hrun
    refine ⟨⟨fun c hc hne i hi => ?_, fun _ _ _ _ he => (by cases he), fun _ _ _ _ he => (by cases he)⟩, s', hok', hR'⟩
    exact hsame _ (live_byte hok.inv hR hc (mem_of_perm hb hc fun he => hne (by rw [he]; rfl)) hi)
  | @reallocNull newSize r d m hrun =>
    obtain ⟨s, hok, hR⟩ := h
    rw [LinkedAlloc.reallocBlock, if_pos rfl] at hrun
    obtain ⟨s', hok', hR', hsame, -⟩ := allocBlock_ok hok hR hrun
    have hnone : ∀ b ∈ x.live, ∀ newSize' r', LinkedCall.reallocBlock 0 newSize r ≠ .reallocBlock b.va newSize' r' := by
      rintro b hb newSize' r' he
      exact live_ne_zero hok.inv hb (LinkedCall.reallocBlock.inj he).1.symm
    exact ⟨⟨fun b hb _ i hi => hsame _ (live_byte hok.inv hR hb hb hi), fun b hb _ _ he => absurd he (hnone b hb _ _),
      fun b hb _ _ he => absurd he (hnone b hb _ _)⟩, s', hok', hR'⟩
  | @realloc b live newSize r d m hb hrun =>
    obtain ⟨s, hok, hR⟩ := h
    obtain ⟨⟨s', hok', hR'⟩, hsame, hmoved⟩ := reallocBlock_ok (hok.perm hb) hR hrun
    refine ⟨⟨fun c hc hne i hi => ?_, fun c hc newSize' r' he h0 => ?_, fun c hc newSize' p he i hi => ?_⟩, s', hok',
      hR'⟩
    · exact hsame _ (live_byte hok.inv hR hc (mem_of_perm hb hc fun he => hne (by rw [he]; rfl)) hi)
    · obtain ⟨hva, hsize, hr⟩ := LinkedCall.reallocBlock.inj he
      rw [← hva, ← hsize, ← hr]
      exact reallocBlock_answer (live_ne_zero hok.inv (hb.mem_iff.2 List.mem_cons_self)) (hsize ▸ h0) hrun
    · obtain ⟨hva, hsize, hr⟩ := LinkedCall.reallocBlock.inj he
      rw [← hva, ← hsize] at hi
      rw [← hva]
      exact hmoved p hr i hi
  | write hb hi => exact LinkedStep.write_ok h hb hi

theorem LinkedRun.Sound.serves (h : x.Sound B n) : x.Serves B := by
  rintro b hb newSize hs
  obtain ⟨s, hok, hR⟩ := h
  have hperm : x.live.Perm (b :: x.live.erase b) := List.perm_cons_erase hb
  rcases reallocBlock_returns (hok.perm hperm) hR hs with ⟨r, d, m, hrun⟩ | hpage
  · exact .inl ⟨r, _, .realloc hperm hrun⟩
  · exact .inr hpage

/-- In a sound state and in every state after it, the calls keep the bytes of the blocks in use, and `realloc_block`
returns. -/
theorem LinkedRun.Sound.keeps {n : Nat} {x : LinkedRun M} (h : x.Sound B n) (cs : List LinkedCall) :
    Always (LinkedStep B) (fun x => (∀ c y, LinkedStep B x c y → x.Keeps B c y) ∧ x.Serves B) x cs :=
  Always.mono (fun x h => ⟨fun c y hstep => (LinkedStep.ok x c y h hstep).1, h.serves⟩)
    (always_of_step (fun x c y h hstep => (LinkedStep.ok x c y h hstep).2) h)

theorem initialize_sound {d₀ d : LinkedAlloc} {m : M} {daStart daEnd : Nat} (hpage : daStart % 4096 = 0)
    (hpos : 0 < daStart)
    (hle : daStart ≤ daEnd) (hend : daEnd < 4294967296) (hm : B.Backed m ∅)
    (harea : ∀ v, daStart / 4096 ≤ v → v < daEnd / 4096 → v ∈ B.area)
    (h : d₀.initializeDynamicAllocator daStart daEnd = .ok d) :
    LinkedRun.Sound B ((daEnd - daStart) / 4096) ⟨d, m, []⟩ := by
  obtain ⟨s, hs⟩ : ∃ s, initializeDynamicAllocator (d₀.withLists fun _ => []) daStart daEnd = .ok s := by
    simp only [initializeDynamicAllocator, LinkedAlloc.initializeDynamicAllocator] at h ⊢
    split at h
    · cases h
    · rename_i hassert
      exact ⟨_, if_neg hassert⟩
  have hok := initialize_ok hpage hpos hle hend hs
  refine ⟨s, hok, ?_⟩
  simp only [initializeDynamicAllocator, LinkedAlloc.initializeDynamicAllocator] at h hs
  split at h
  · cases h
  rename_i hassert
  rw [if_neg hassert] at hs
  cases h
  cases hs
  refine ⟨rfl, fun k hk => ?_, ?_, fun p hp => harea _ (Nat.le_add_right _ p) (by show _ < _; dsimp only; omega)⟩
  · simp only [if_pos (show k < 9 by omega)]
    exact Links.linked_nil m
  · convert hm
    apply Set.eq_empty_of_forall_notMem
    rintro v ⟨p, hp, hpf, -⟩
    refine hpf (List.mem_range.2 ?_)
    rwa [show sub32 daEnd daStart / pageSize = (daEnd - daStart) / 4096 by rw [sub32_of_le hle hend]; rfl]

end Run

/-- From `initialize_dynamic_allocator` on, in whatever order blocks are allocated, freed, reallocated and written to
and whoever provides the pages: no call changes a byte of a block in use other than its argument; `realloc_block`
returns while pages are handed out and taken back, and the block that it returns (the same one if the size fits, else a
new one) holds the old contents, up to the smaller of the two sizes. -/
theorem live_bytes_kept (B : PagedMemory M) (d₀ d : LinkedAlloc) (m : M) (daStart daEnd : Nat)
    (hpage : daStart % pageSize = 0) (hpos : 0 < daStart) (hle : daStart ≤ daEnd) (hend : daEnd < 4294967296)
    (hm : B.Backed m ∅) (harea : ∀ v, daStart / pageSize ≤ v → v < daEnd / pageSize → v ∈ B.area)
    (hinit : d₀.initializeDynamicAllocator daStart daEnd = .ok d) (cs : List LinkedCall) :
    Always (LinkedStep B) (fun x => (∀ c y, LinkedStep B x c y → x.Keeps B c y) ∧ x.Serves B) ⟨d, m, []⟩ cs :=
  (initialize_sound hpage hpos hle hend hm harea hinit).keeps cs

/-- An area at the start of the kernel heap, each of its pages full of ones when it is handed out. -/
theorem live_bytes_kept_flat : ∃ d, zeroedLinks.initializeDynamicAllocator kernelHeapStart
      (kernelHeapStart + dynAllocMaxSize) = .ok d ∧
    Always (LinkedStep (flatMemory fun _ => 255))
      (fun x => (∀ c y, LinkedStep (flatMemory fun _ => 255) x c y → x.Keeps (flatMemory fun _ => 255) c y) ∧
        x.Serves (flatMemory fun _ => 255))
      ⟨d, fun _ => 0, []⟩ [.allocBlock 8, .write kernelHeapStart 0 7,
        .reallocBlock kernelHeapStart 100 (.block 0xF6001000)] := by
  refine ⟨_, rfl, ?_⟩
  exact live_bytes_kept (flatMemory fun _ => 255) zeroedLinks _ _ kernelHeapStart (kernelHeapStart + dynAllocMaxSize)
    (by decide) (by decide) (by decide) (by decide) trivial (fun v _ _ => Set.mem_univ v) rfl _

end Fos.Heap
