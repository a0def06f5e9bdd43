/-
What the links of the free blocks do to the bytes of the blocks in use. The allocator over its bytes
runs as the one over lists does, and every byte it writes is in a block that is free or given to the
call.
-/
import Fos.Heap.BlockBytes

namespace Fos.Heap

open Fos.Lib DynAlloc

/-! ## What the bytes stand for -/

/-- Pages that can always be had: the lists alone. -/
def everyPage : PageSource Unit := ⟨fun m _ => .ok m, fun m _ => .ok m⟩

/-- The pages, by number, that are split into blocks. -/
def DynAlloc.splitPages (s : DynAlloc) (n : Nat) : Set Nat :=
  {v | ∃ p < n, p ∉ s.freePagesList ∧ v = s.dynAllocStart / 4096 + p}

/-- The bytes of the blocks in use. -/
def DynAlloc.liveBytes (s : DynAlloc) (live : List LiveBlock) : Set Nat :=
  {a | ∃ b ∈ live, b.va ≤ a ∧ a < b.va + (s.pageBlockInfoArr (s.page b.va)).blockSize}

/-- `m` and `m'` hold the same bytes at `A`. -/
def PagedMemory.Same {M : Type} (B : PagedMemory M) (A : Set Nat) (m m' : M) : Prop := ∀ a ∈ A, B.load m' a = B.load m a

/-- A place for the links of a free block: eight bytes of the pages `P` that are not in `A`. -/
structure Node (P A : Set Nat) (x : Nat) : Prop where
  aligned : x % 8 = 0
  notNull : x ≠ 0
  lt : x + 8 ≤ 4294967296
  bytes : ∀ i < 8, (x + i) / 4096 ∈ P ∧ x + i ∉ A

theorem Node.mono {P A A' : Set Nat} {x : Nat} (h : Node P A x) (hA : A' ⊆ A) : Node P A' x :=
  ⟨h.aligned, h.notNull, h.lt, fun i hi => ⟨(h.bytes i hi).1, fun hmem => (h.bytes i hi).2 (hA hmem)⟩⟩

variable {M : Type} {B : PagedMemory M}

/-- The heads and the links in the bytes stand for the lists. -/
structure LinkedAlloc.Rep (B : PagedMemory M) (n : Nat) (d : LinkedAlloc) (m : M) (s : DynAlloc) : Prop where
  globals : d.withLists s.freeBlockLists = s
  lists : ∀ k ≤ 8, B.links.Linked 0 m (d.freeBlockLists k) (s.freeBlockLists k)
  backed : B.Backed m (s.splitPages n)
  area : ∀ p < n, s.dynAllocStart / 4096 + p ∈ B.area

/-- The pages `P` are there, and `A` holds what it held in `m₀`. -/
def PagedMemory.Keeps (B : PagedMemory M) (P A : Set Nat) (m₀ m : M) : Prop := B.Backed m P ∧ B.Same A m₀ m

theorem PagedMemory.Keeps.refl {P A : Set Nat} {m : M} (h : B.Backed m P) : B.Keeps P A m m := ⟨h, fun _ _ => rfl⟩

/-- Bytes outside of `A` can be written without a change of `A`. -/
theorem keeps_lawful (B : PagedMemory M) {P A : Set Nat} (m₀ : M) (hA : ∀ a ∈ A, a / 4096 ∈ P) :
    B.Lawful (B.Keeps P A m₀) fun a => a / 4096 ∈ P ∧ a ∉ A := by
  refine ⟨fun m a v hm ha => ?_⟩
  obtain ⟨hb, hload⟩ := B.store_backed m P a v hm.1 ha.1
  refine ⟨⟨hb, fun c hc => ?_⟩, fun c hc => hload c hc.1⟩
  rw [hload c (hA c hc), if_neg fun he : c = a => ha.2 (he ▸ hc)]
  exact hm.2 c hc

theorem node_lawful (B : PagedMemory M) {P A : Set Nat} (m₀ : M) (hA : ∀ a ∈ A, a / 4096 ∈ P) :
    B.links.Lawful 0 (B.Keeps P A m₀) (Node P A) := by
  refine ByteMemory.links_lawful (keeps_lawful B m₀ hA) (fun h => h.notNull rfl) (fun x h => ?_) (fun x h => h.bytes)
    fun x y hx hy hne => ?_
  · have := h.lt
    omega
  · have h1 := hx.aligned
    have h2 := hy.aligned
    omega

section Blocks

variable {n k b : Nat} {s : DynAlloc} {live : List LiveBlock}

/-- The bytes of a block are on its page. -/
theorem Block.pageNumber (hI : Inv n s live) (h : s.Block n k b) {i : Nat} (hi : i < 8 * 2 ^ k) :
    (b + i) / 4096 = s.dynAllocStart / 4096 + s.page b := by
  have h1 := hI.startPage
  have h2 := h.lo
  have h3 := Block.lt h
  simp only [DynAlloc.page] at h3 ⊢
  omega

theorem Block.split (hI : Inv n s live) (h : s.Block n k b) {i : Nat} (hi : i < 8 * 2 ^ k) :
    (b + i) / 4096 ∈ s.splitPages n :=
  ⟨s.page b, h.page, hI.not_free h, Block.pageNumber hI h hi⟩

theorem liveBytes_split (hI : Inv n s live) {a : Nat} (ha : a ∈ s.liveBytes live) : a / 4096 ∈ s.splitPages n := by
  obtain ⟨b, hb, hlo, hhi⟩ := ha
  obtain ⟨k, hB, -⟩ := hI.liveBlock b hb
  rw [hB.size] at hhi
  have hsplit := Block.split hI hB (i := a - b.va) (by omega)
  rwa [Nat.add_sub_cancel' hlo] at hsplit

/-- A block that is none of `live` can hold links. -/
theorem Block.node (hI : Inv n s live) {live' : List LiveBlock} (hsub : ∀ c ∈ live', c ∈ live) (h : s.Block n k b)
    (hnot : ∀ c ∈ live', c.va ≠ b) : Node (s.splitPages n) (s.liveBytes live') b := by
  have hk : 8 ≤ 8 * 2 ^ k := Nat.le_mul_of_pos_right 8 (by positivity)
  refine ⟨?_, ?_, ?_, fun i hi => ⟨Block.split hI h (by omega), ?_⟩⟩
  · have h8 : 8 ∣ b - s.dynAllocStart := (Nat.dvd_mul_right 8 (2 ^ k)).trans h.aligned
    have h1 := h.lo
    have h2 := hI.startPage
    omega
  · have h1 := h.lo
    have h2 := hI.startPos
    omega
  · have h1 := Block.below hI h
    have h2 := hI.endLt
    omega
  · rintro ⟨c, hc, hlo, hhi⟩
    obtain ⟨j, hC, -⟩ := hI.liveBlock c (hsub c hc)
    rw [hC.size] at hhi
    have hdis := Block.disjoint hC h (hnot c hc)
    exact hdis (b + i) ⟨⟨hlo, hhi⟩, Nat.le_add_right b i, Nat.add_lt_add_left (hi.trans_le hk) b⟩

end Blocks

/-! ## Changes of the lists -/

section Rep

variable {n k b : Nat} {s : DynAlloc} {live : List LiveBlock} {d : LinkedAlloc} {m m' : M}

theorem links_congr {x : Nat} (h : ∀ i < 8, B.load m' (x + i) = B.load m (x + i)) :
    B.links.next m' x = B.links.next m x ∧ B.links.prev m' x = B.links.prev m x :=
  ⟨ByteMemory.load32_congr fun i hi => h i (by omega), ByteMemory.load32_congr fun i hi => by
    rw [Nat.add_assoc]
    exact h (4 + i) (by omega)⟩

theorem toPageInfo_congr {s s' : DynAlloc} (h : s.dynAllocStart = s'.dynAllocStart) (va : Nat) :
    Heap.toPageInfo s va = Heap.toPageInfo s' va := by
  simp only [Heap.toPageInfo, h]

theorem toPageVa_congr {s s' : DynAlloc} (h : s.dynAllocStart = s'.dynAllocStart) (p : Nat) :
    Heap.toPageVa s p = Heap.toPageVa s' p := by
  simp only [Heap.toPageVa, h]

/-- The address of a page of the area does not wrap. -/
theorem toPageVa_page (hI : Inv n s live) {p : Nat} (hp : p < n) :
    Heap.toPageVa s p = .ok (s.dynAllocStart + p * 4096) := by
  have h1 := hI.fits
  have h2 := hI.endLt
  have h3 := hI.pages
  have hmp : ¬ maxPages ≤ p := by
    have : maxPages = 8192 := rfl
    omega
  rw [Heap.toPageVa, if_neg hmp, pageSize, mul32_of_lt (by omega), add32_of_lt (by omega)]

theorem listed_node (hI : Inv n s live) (hk : k ≤ 8) (hb : b ∈ s.freeBlockLists k) :
    Node (s.splitPages n) (s.liveBytes live) b := by
  have hB := hI.listBlock k hk b hb
  apply Block.node hI (fun _ hc => hc) hB
  intro c hc he
  obtain ⟨j, hC, -, hnot⟩ := hI.liveBlock c hc
  rw [he] at hC hnot
  exact hnot (hC.class_eq hB ▸ hb)

/-- A free block is on one list. -/
theorem listed_class (hI : Inv n s live) {j : Nat} (hj : j ≤ 8) (hk : k ≤ 8) (hb : b ∈ s.freeBlockLists j)
    (hb' : b ∈ s.freeBlockLists k) : j = k :=
  (hI.listBlock j hj b hb).class_eq (hI.listBlock k hk b hb')

namespace LinkedAlloc.Rep

theorem start (hR : Rep B n d m s) : d.dynAllocStart = s.dynAllocStart := congrArg DynAlloc.dynAllocStart hR.globals

theorem fin (hR : Rep B n d m s) : d.dynAllocEnd = s.dynAllocEnd := congrArg DynAlloc.dynAllocEnd hR.globals

theorem info (hR : Rep B n d m s) : d.pageBlockInfoArr = s.pageBlockInfoArr :=
  congrArg DynAlloc.pageBlockInfoArr hR.globals

theorem pages (hR : Rep B n d m s) : d.freePagesList = s.freePagesList := congrArg DynAlloc.freePagesList hR.globals

theorem flag (hR : Rep B n d m s) : d.blockedVarDynallocAllocFunc = s.blockedVarDynallocAllocFunc :=
  congrArg DynAlloc.blockedVarDynallocAllocFunc hR.globals

/-- The address of a list's first block is `0` where the list is empty. -/
theorem first (hI : Inv n s live) (hR : Rep B n d m s) (hk : k ≤ 8) :
    (d.freeBlockLists k).first = 0 ↔ s.freeBlockLists k = [] :=
  (hR.lists k hk).first_eq_null_iff (node_lawful B m fun _ => liveBytes_split hI) fun _ => listed_node hI hk

theorem setInfo (hR : Rep B n d m s) (p : Nat) (i : PageInfoElement) : Rep B n (d.setInfo p i) m (s.setInfo p i) := by
  obtain ⟨hg, hl, hb, ha⟩ := hR
  refine ⟨?_, hl, hb, ha⟩
  rw [← hg]
  rfl

theorem setFlag (hR : Rep B n d m s) (v : Nat) :
    Rep B n { d with blockedVarDynallocAllocFunc := v } m { s with blockedVarDynallocAllocFunc := v } := by
  obtain ⟨hg, hl, hb, ha⟩ := hR
  refine ⟨?_, hl, hb, ha⟩
  rw [← hg]
  rfl

/-- One list changes, in memory too, and the others keep their links. -/
theorem setList (hR : Rep B n d m s) {h : ListHead Nat} {l : List Nat} (hb : B.Backed m' (s.splitPages n))
    (hl : B.links.Linked 0 m' h l) (hother : ∀ j ≤ 8, j ≠ k → ∀ y ∈ s.freeBlockLists j,
      B.links.next m' y = B.links.next m y ∧ B.links.prev m' y = B.links.prev m y) :
    Rep B n (d.setList k h) m' (s.setList k l) := by
  refine ⟨?_, fun j hj => ?_, hb, hR.area⟩
  · have hg := hR.globals
    simp only [LinkedAlloc.withLists, LinkedAlloc.setList, DynAlloc.setList] at hg ⊢
    rw [← hg]
  · simp only [LinkedAlloc.setList, DynAlloc.setList, Function.update_apply]
    by_cases hjk : j = k
    · rw [if_pos hjk, if_pos hjk]
      exact hl
    · rw [if_neg hjk, if_neg hjk]
      exact (hR.lists j hj).congr (hother j hj hjk)

end LinkedAlloc.Rep

/-- Taking the first block off a list. -/
theorem takeFirst_refines (hI : Inv n s live) (hR : d.Rep B n m s) (hk : k ≤ 8) {rest : List Nat}
    (hl : s.freeBlockLists k = b :: rest) {s' : DynAlloc} (hs : takeFirst s k = .ok (.block b, s')) :
    ∃ d' m', d.takeFirst B m k = .ok (.block b, d', m') ∧ d'.Rep B n m' s' ∧ B.Same (s.liveBytes live) m m' := by
  have hb : b ∈ s.freeBlockLists k := hl ▸ List.mem_cons_self
  have hB := hI.listBlock k hk b hb
  have hlaw := node_lawful B (A := s.liveBytes live) m fun _ => liveBytes_split hI
  have hlist := hR.lists k hk
  rw [hl] at hlist
  obtain ⟨hG, hlink, hother⟩ := Links.remove_linked (p := []) hlaw (PagedMemory.Keeps.refl hR.backed) hlist
    fun y hy => listed_node hI hk (hl ▸ hy)
  obtain ⟨m', h, hrun⟩ : ∃ m' h, B.links.remove 0 m (d.freeBlockLists k) b = (m', h) := ⟨_, _, rfl⟩
  simp only [hrun] at hG hlink hother
  have hfirst : (d.freeBlockLists k).first = b := hlist.first
  have hb0 : b ≠ 0 := (listed_node hI hk hb).notNull
  have hpage : (d.setList k h).toPageInfo b = .ok (s.page b) :=
    (toPageInfo_congr (show d.dynAllocStart = s.dynAllocStart from hR.start) b).trans (toPageInfo_block hI hB)
  have hR' : (d.setList k h).Rep B n m' (s.setList k rest) := hR.setList hG.1 hlink fun j hj hjk y hy =>
    hother y (listed_node hI hj hy) fun hmem => hjk (listed_class hI hj hk hy (hl ▸ hmem))
  have hinfo : (d.setList k h).pageBlockInfoArr (s.page b) = s.pageBlockInfoArr (s.page b) :=
    congrFun hR.info (s.page b)
  have hs' : s' = (s.setList k rest).setInfo (s.page b) { s.pageBlockInfoArr (s.page b) with
      numOfFreeBlocks := ((s.pageBlockInfoArr (s.page b)).numOfFreeBlocks + 65535) % 65536 } := by
    simp only [takeFirst, hl, toPageInfo_block hI hB, ok_bind] at hs
    cases hs
    rfl
  refine ⟨_, m', ?_, hs' ▸ hR'.setInfo (s.page b) _, hG.2⟩
  simp only [LinkedAlloc.takeFirst, hfirst, if_neg hb0, hrun, hpage, ok_bind, hinfo]
  rfl

/-- The loop that lists the blocks of a page. -/
theorem insertBlocks_spec {G : M → Prop} {N : Nat → Prop} (hL : B.links.Lawful 0 G N) {pageVa blockSize : Nat} :
    ∀ (cnt i : Nat) {m : M} {h : ListHead Nat} {l : List Nat}, G m → B.links.Linked 0 m h l →
      (l ++ (List.range' i cnt).map fun i => add32 pageVa (mul32 i blockSize)).Nodup →
      (∀ y ∈ l ++ (List.range' i cnt).map fun i => add32 pageVa (mul32 i blockSize), N y) →
      G (LinkedAlloc.insertBlocks B pageVa blockSize m h i cnt).1 ∧
        B.links.Linked 0 (LinkedAlloc.insertBlocks B pageVa blockSize m h i cnt).1
          (LinkedAlloc.insertBlocks B pageVa blockSize m h i cnt).2
          (l ++ (List.range' i cnt).map fun i => add32 pageVa (mul32 i blockSize)) ∧
        ∀ y, N y → y ∉ l ++ (List.range' i cnt).map (fun i => add32 pageVa (mul32 i blockSize)) →
          B.links.next (LinkedAlloc.insertBlocks B pageVa blockSize m h i cnt).1 y = B.links.next m y ∧
            B.links.prev (LinkedAlloc.insertBlocks B pageVa blockSize m h i cnt).1 y = B.links.prev m y
  | 0, i, m, h, l, hG, hl, _, _ => by
    rw [List.range'_zero, List.map_nil, List.append_nil]
    exact ⟨hG, hl, fun y _ _ => ⟨rfl, rfl⟩⟩
  | cnt + 1, i, m, h, l, hG, hl, hnd, hN => by
    rw [List.range'_succ, List.map_cons, List.append_cons] at hnd hN ⊢
    have hx : add32 pageVa (mul32 i blockSize) ∉ l := fun hmem =>
      (List.nodup_append.1 (List.nodup_append.1 hnd).1).2.2 _ hmem _ List.mem_cons_self rfl
    obtain ⟨hG₁, h₁, hk₁⟩ := Links.insertTail_linked hL hG hl (fun y hy => hN y (by simp [hy]))
      (hN (add32 pageVa (mul32 i blockSize)) (by simp)) hx
    obtain ⟨hG₂, h₂, hk₂⟩ := insertBlocks_spec hL cnt (i + 1) hG₁ h₁ hnd hN
    refine ⟨hG₂, h₂, fun y hy hyl => ?_⟩
    obtain ⟨h3, h4⟩ := hk₂ y hy hyl
    simp only [List.mem_append, List.mem_singleton, not_or] at hyl
    obtain ⟨h5, h6⟩ := hk₁ y hy hyl.1.1 hyl.1.2
    exact ⟨h3.trans h5, h4.trans h6⟩

theorem liveBytes_congr {s' : DynAlloc} (hst : s'.dynAllocStart = s.dynAllocStart)
    (hsize : ∀ c ∈ live, (s'.pageBlockInfoArr (s.page c.va)).blockSize = (s.pageBlockInfoArr (s.page c.va)).blockSize) :
    s'.liveBytes live = s.liveBytes live := by
  have hpage : ∀ c, s'.page c = s.page c := fun c => by simp only [DynAlloc.page, hst]
  ext a
  constructor
  · rintro ⟨c, hc, h1, h2⟩
    rw [hpage, hsize c hc] at h2
    exact ⟨c, hc, h1, h2⟩
  · rintro ⟨c, hc, h1, h2⟩
    rw [← hsize c hc, ← hpage] at h2
    exact ⟨c, hc, h1, h2⟩

theorem PagedMemory.Same.trans {A : Set Nat} {m₁ m₂ m₃ : M} (h₁ : B.Same A m₁ m₂) (h₂ : B.Same A m₂ m₃) :
    B.Same A m₁ m₃ :=
  fun a ha => (h₂ a ha).trans (h₁ a ha)

/-- A free page is had and split into blocks. -/
theorem splitPage_refines (hI : Inv n s live) (hR : d.Rep B n m s) (hk : k ≤ 8) {p : Nat} {rest : List Nat}
    (hp : s.freePagesList = p :: rest) (hget : B.getPage m (s.dynAllocStart + p * 4096) = .ok m') :
    ∃ d₁ m₁ s₁, d.splitPage B m' p (4096 / (8 * 2 ^ k)) (s.dynAllocStart + p * 4096) (8 * 2 ^ k) k rest = (d₁, m₁) ∧
      splitPage s p (4096 / (8 * 2 ^ k)) (s.dynAllocStart + p * 4096) (8 * 2 ^ k) k rest = s₁ ∧ d₁.Rep B n m₁ s₁ ∧
      B.Same (s.liveBytes live) m m₁ ∧ s₁.liveBytes live = s.liveBytes live := by
  obtain ⟨s₁, hs₁⟩ : ∃ s₁, splitPage s p (4096 / (8 * 2 ^ k)) (s.dynAllocStart + p * 4096) (8 * 2 ^ k) k rest = s₁ :=
    ⟨_, rfl⟩
  have hpf : p ∈ s.freePagesList := hp ▸ List.mem_cons_self
  have hpn := (hI.freePages p hpf).1
  have hnd := hI.freeNodup
  rw [hp, List.nodup_cons] at hnd
  have hI₁ : Inv n s₁ live := by
    have hsplit := hI.split hp hk
    rwa [← splitPage_eq hI hpn, hs₁] at hsplit
  -- the page that is had was not there before
  have hst := hI.startPage
  have hdiv : (s.dynAllocStart + p * 4096) / 4096 = s.dynAllocStart / 4096 + p := by omega
  have hnew : (s.dynAllocStart + p * 4096) / 4096 ∉ s.splitPages n := by
    rintro ⟨q, -, hqf, hq⟩
    exact hqf ((show q = p by omega) ▸ hpf)
  obtain ⟨hb, hload⟩ := B.getPage_backed m m' _ _ hR.backed (by omega) (hdiv ▸ hR.area p hpn) hnew hget
  let s₀ := { s with freePagesList := rest }.setInfo p ⟨8 * 2 ^ k, 4096 / (8 * 2 ^ k)⟩
  let d₀ := { d with freePagesList := rest }.setInfo p ⟨8 * 2 ^ k, 4096 / (8 * 2 ^ k)⟩
  let xs := (List.range' 0 (4096 / (8 * 2 ^ k))).map fun i => add32 (s.dynAllocStart + p * 4096) (mul32 i (8 * 2 ^ k))
  have hs₀ : s₁ = s₀.setList k (s.freeBlockLists k ++ xs) := by
    rw [← hs₁, show xs = _ from congrArg (List.map _) List.range_eq_range'.symm]
    rfl
  have hpages : insert ((s.dynAllocStart + p * 4096) / 4096) (s.splitPages n) = s₀.splitPages n := by
    ext v
    rw [Set.mem_insert_iff, hdiv]
    constructor
    · rintro (rfl | ⟨q, hq, hqf, rfl⟩)
      · exact ⟨p, hpn, hnd.1, rfl⟩
      · exact ⟨q, hq, fun hmem => hqf (hp ▸ List.mem_cons_of_mem p hmem), rfl⟩
    · rintro ⟨q, hq, hqf, rfl⟩
      by_cases hqp : q = p
      · exact .inl (by rw [hqp]; rfl)
      · refine .inr ⟨q, hq, fun hmem => hqf ?_, rfl⟩
        rw [hp] at hmem
        exact (List.mem_cons.1 hmem).resolve_left hqp
  rw [hpages] at hb
  have hlive : s₁.liveBytes live = s.liveBytes live := liveBytes_congr (by rw [hs₀]; rfl) fun c hc => by
    obtain ⟨j, hC, -⟩ := hI.liveBlock c hc
    have hne : s.page c.va ≠ p := fun he => hI.not_free hC (he ▸ hpf)
    simp [hs₀, s₀, hne]
  have hsame : B.Same (s.liveBytes live) m m' := fun a ha => hload a (liveBytes_split hI ha)
  -- the links of the other blocks are where they were
  have hold : ∀ j ≤ 8, ∀ y ∈ s.freeBlockLists j, B.links.next m' y = B.links.next m y ∧
      B.links.prev m' y = B.links.prev m y :=
    fun j hj y hy => links_congr fun i hi => hload (y + i) ((listed_node hI hj hy).bytes i hi).1
  have hR₀ : d₀.Rep B n m' s₀ := by
    refine ⟨?_, fun j hj => (hR.lists j hj).congr (hold j hj), hb, hR.area⟩
    have hg := hR.globals
    simp only [d₀, s₀, LinkedAlloc.withLists, LinkedAlloc.setInfo, DynAlloc.setInfo] at hg ⊢
    rw [← hg]
  have hlist : s₁.freeBlockLists k = s.freeBlockLists k ++ xs := by rw [hs₀, setList_lists, if_pos rfl]
  have hb₁ : B.Backed m' (s₁.splitPages n) := by rw [hs₀]; exact hb
  have hlaw := node_lawful B (A := s₁.liveBytes live) m' fun _ => liveBytes_split hI₁
  obtain ⟨hG, hlink, hother⟩ := insertBlocks_spec hlaw (4096 / (8 * 2 ^ k)) 0 (PagedMemory.Keeps.refl hb₁)
    (hR₀.lists k hk) (hlist ▸ hI₁.listNodup k hk) fun y hy => listed_node hI₁ hk (hlist ▸ hy)
  refine ⟨_, _, s₁, rfl, hs₁, ?_, hsame.trans (hlive ▸ hG.2), hlive⟩
  rw [hs₀]
  apply hR₀.setList (by rw [hs₀] at hG; exact hG.1) hlink
  intro j hj hjk y hy
  have hy₁ : y ∈ s₁.freeBlockLists j := by rw [hs₀, setList_lists, if_neg hjk]; exact hy
  exact hother y (listed_node hI₁ hj hy₁) fun hmem => hjk (listed_class hI₁ hj hk hy₁ (hlist ▸ hmem))

/-- The loop that takes the blocks of a page off a list. -/
theorem removeBlocks_spec {G : M → Prop} {N : Nat → Prop} (hL : B.links.Lawful 0 G N) (pageVa pageEnd : Nat) :
    ∀ {q p : List Nat} {fuel : Nat} {m : M} {h : ListHead Nat}, q.length < fuel → G m →
      B.links.Linked 0 m h (p ++ q) → (∀ y ∈ p ++ q, N y) →
      ∃ m' h', LinkedAlloc.removeBlocks B pageVa pageEnd fuel m h (q.headD 0) = .ok (m', h') ∧ G m' ∧
        B.links.Linked 0 m' h' (p ++ q.filter fun b => ¬ (pageVa ≤ b ∧ b < pageEnd)) ∧
        ∀ y, N y → y ∉ p ++ q → B.links.next m' y = B.links.next m y ∧ B.links.prev m' y = B.links.prev m y
  | [], p, fuel + 1, m, h, _, hG, hl, _ => ⟨m, h, if_pos rfl, hG, hl, fun y _ _ => ⟨rfl, rfl⟩⟩
  | x :: q, p, fuel + 1, m, h, hf, hG, hl, hN => by
    have hx : x ≠ 0 := fun he => hL.notNull (he ▸ hN x (by simp))
    have hnext : B.links.next m x = q.headD 0 := (Links.segment_append.1 hl.segment).2.2.1
    rw [List.headD_cons, LinkedAlloc.removeBlocks, if_neg hx, hnext]
    by_cases hin : pageVa ≤ x ∧ x < pageEnd
    · obtain ⟨hG₁, hl₁, hk₁⟩ := Links.remove_linked hL hG hl hN
      obtain ⟨m', h', hrun, hG', hl', hk'⟩ := removeBlocks_spec hL pageVa pageEnd (Nat.lt_of_succ_lt_succ hf) hG₁ hl₁
        fun y hy => hN y (by simp only [List.mem_append, List.mem_cons] at hy ⊢; tauto)
      simp only [if_pos hin]
      rw [List.filter_cons_of_neg (by simpa using hin)]
      refine ⟨m', h', hrun, hG', hl', fun y hy hyl => ?_⟩
      obtain ⟨h3, h4⟩ := hk' y hy fun hmem => hyl (by simp only [List.mem_append, List.mem_cons] at hmem ⊢; tauto)
      exact ⟨h3.trans (hk₁ y hy hyl).1, h4.trans (hk₁ y hy hyl).2⟩
    · rw [List.append_cons] at hl hN
      obtain ⟨m', h', hrun, hG', hl', hk'⟩ := removeBlocks_spec hL pageVa pageEnd (Nat.lt_of_succ_lt_succ hf) hG hl hN
      simp only [if_neg hin]
      rw [List.filter_cons_of_pos (by simp only [hin, not_false_eq_true, decide_true]), List.append_cons p x]
      exact ⟨m', h', hrun, hG', hl', fun y hy hyl => hk' y hy (by rwa [← List.append_cons])⟩

/-- A list of blocks is no longer than the loop goes on. -/
theorem listed_length (hI : Inv n s live) (hk : k ≤ 8) : (s.freeBlockLists k).length < LinkedAlloc.listRounds := by
  have hmap : ((s.freeBlockLists k).map fun b => (b - s.dynAllocStart) / 8).Nodup := by
    refine List.Nodup.map_on (fun a ha b hb he => ?_) (hI.listNodup k hk)
    have h1 := (listed_node hI hk ha).aligned
    have h2 := (listed_node hI hk hb).aligned
    have h3 := (hI.listBlock k hk a ha).lo
    have h4 := (hI.listBlock k hk b hb).lo
    have h5 := hI.startPage
    omega
  have hsub : ((s.freeBlockLists k).map fun b => (b - s.dynAllocStart) / 8) ⊆ List.range 4194304 := by
    intro i hi
    obtain ⟨b, hb, rfl⟩ := List.mem_map.1 hi
    have h1 := (hI.listBlock k hk b hb).page
    have h2 := hI.pages
    simp only [DynAlloc.page] at h1
    exact List.mem_range.2 (by omega)
  have hlen := (hmap.subperm hsub).length_le
  rw [List.length_map, List.length_range] at hlen
  have hrounds : LinkedAlloc.listRounds = 4194305 := rfl
  omega

end Rep

/-! ## The calls -/

section Sizes

variable {N : Type} {src : PageSource N} {s d : DynAlloc} {m m' : N} {size : Nat} {r : AllocResult}

/-- `d` splits the pages that `s` splits, in the same way. -/
def DynAlloc.SameSizes (s d : DynAlloc) : Prop :=
  d.dynAllocStart = s.dynAllocStart ∧
    ∀ p, p ∉ s.freePagesList → (d.pageBlockInfoArr p).blockSize = (s.pageBlockInfoArr p).blockSize

theorem takeFirst_sizes {i : Nat} (h : takeFirst s i = .ok (r, d)) : s.SameSizes d := by
  unfold takeFirst at h
  split at h
  · cases h
  · obtain ⟨p, -, h⟩ := bind_ok h
    cases h
    refine ⟨rfl, fun q _ => ?_⟩
    rw [setInfo_info, setList_info]
    by_cases hq : q = p
    · rw [if_pos hq, hq]
    · rw [if_neg hq]

theorem allocBlock_sizes (h : allocBlock src s m size = .ok (r, d, m')) : s.SameSizes d := by
  unfold allocBlock at h
  split at h
  · cases h
  split at h
  · cases h
    exact ⟨rfl, fun _ _ => rfl⟩
  dsimp only at h
  split at h
  · obtain ⟨⟨r', d'⟩, ht, h⟩ := bind_ok h
    cases h
    exact takeFirst_sizes ht
  split at h
  · -- only the page that is split gets a size
    rename_i p rest hpages
    obtain ⟨pageVa, -, h⟩ := bind_ok h
    obtain ⟨m₁, -, h⟩ := bind_ok h
    obtain ⟨⟨r', d'⟩, ht, h⟩ := bind_ok h
    cases h
    obtain ⟨hst, hsizes⟩ := takeFirst_sizes ht
    refine ⟨hst, fun q hq => ?_⟩
    have hqp : q ≠ p := fun he => hq (by rw [hpages, he]; exact List.mem_cons_self)
    rw [hsizes q fun hmem => hq (by rw [hpages]; exact List.mem_cons_of_mem p hmem)]
    simp [splitPage, hqp]
  · split at h
    · obtain ⟨⟨r', d'⟩, ht, h⟩ := bind_ok h
      cases h
      exact takeFirst_sizes ht
    · cases h
      exact ⟨rfl, fun _ _ => rfl⟩

end Sizes

section Calls

variable {n size : Nat} {s : DynAlloc} {live : List LiveBlock} {d : LinkedAlloc} {m : M}

/-- `alloc_block` over the bytes does what it does over the lists, and leaves every byte in use alone; it fails only
where `get_page` fails. -/
theorem allocBlock_refines (hI : Inv n s live) (hR : d.Rep B n m s) (hs : size ≤ 2048) :
    (∃ e pageVa, B.getPage m pageVa = .error e ∧ d.allocBlock B m size = .error e) ∨
    ∃ r s' d' m', allocBlock everyPage s () size = .ok (r, s', ()) ∧ d.allocBlock B m size = .ok (r, d', m') ∧
      d'.Rep B n m' s' ∧ B.Same (s.liveBytes live) m m' := by
  have hmax : ¬ dynAllocMaxBlockSize < size := not_lt.2 hs
  by_cases h0 : size = 0
  · exact .inr ⟨.null, s, d, m, by rw [allocBlock, if_neg hmax, if_pos h0],
      by rw [LinkedAlloc.allocBlock, if_neg hmax, if_pos h0], hR, fun _ _ => rfl⟩
  obtain ⟨k, hk, hcls, hle⟩ := sizeClass_spec hs
  have hmin : min size maxBlockSize = size := min_eq_left hs
  have hempty : ∀ j ≤ 8, (d.freeBlockLists j).first ≠ 0 ↔ s.freeBlockLists j ≠ [] :=
    fun j hj => not_congr (hR.first hI hj)
  simp only [allocBlock, LinkedAlloc.allocBlock, if_neg hmax, if_neg h0, hmin, hcls, hempty k hk]
  by_cases hlist : s.freeBlockLists k ≠ []
  · -- case 1: a free block of the class
    obtain ⟨b, rest, hl⟩ := List.exists_cons_of_ne_nil hlist
    obtain ⟨s', htake, -, -⟩ := hI.take hk hl hle
    obtain ⟨d', m', hrun, hR', hsame⟩ := takeFirst_refines hI hR hk hl htake
    refine .inr ⟨.block b, s', d', m', ?_, ?_, hR', hsame⟩
    · rw [if_pos hlist, htake]; rfl
    · rw [if_pos hlist, hrun]
  rw [if_neg hlist, if_neg hlist, hR.pages]
  cases hfp : s.freePagesList with
  | cons p rest =>
    -- case 2: split a free page
    have hpn := (hI.freePages p (by rw [hfp]; exact List.mem_cons_self)).1
    have hva : Heap.toPageVa s p = .ok (s.dynAllocStart + p * 4096) := toPageVa_page hI hpn
    have hva' : d.toPageVa p = .ok (s.dynAllocStart + p * 4096) :=
      (toPageVa_congr (show d.dynAllocStart = s.dynAllocStart from hR.start) p).trans hva
    cases hget : B.getPage m (s.dynAllocStart + p * 4096) with
    | error e => exact .inl ⟨e, _, hget, by simp only [hva', ok_bind, hget, error_bind]⟩
    | ok m₀ =>
      obtain ⟨d₁, m₁, s₁, hrun₁, hs₁, hR₁, hsame₁, hlive₁⟩ := splitPage_refines hI hR hk hfp hget
      have hI₁ : Inv n s₁ live := by
        have hsplit := hI.split hfp hk
        rwa [← splitPage_eq hI hpn, hs₁] at hsplit
      have hl : s₁.freeBlockLists k = s.pageBlocks p k := by
        rw [← hs₁, splitPage_eq hI hpn]
        simp [not_not.1 hlist]
      obtain ⟨b, bs, hb⟩ := List.exists_cons_of_ne_nil (pageBlocks_ne_nil (s := s) hk p)
      obtain ⟨s', htake, -, -⟩ := hI₁.take hk (hl.trans hb) hle
      obtain ⟨d', m', hrun, hR', hsame⟩ := takeFirst_refines hI₁ hR₁ hk (hl.trans hb) htake
      rw [hlive₁] at hsame
      refine .inr ⟨.block b, s', d', m', ?_, ?_, hR', hsame₁.trans hsame⟩
      · simp only [hva, ok_bind, everyPage, pageSize, hs₁, htake]; rfl
      · simp only [hva', ok_bind, hget, pageSize, hrun₁, hrun]
  | nil =>
    have hfind : (List.range' k (8 - k)).find? (fun i => (d.freeBlockLists i).first ≠ 0) =
        (List.range' k (8 - k)).find? (fun i => s.freeBlockLists i ≠ []) := by
      refine List.find?_congr fun i hi => ?_
      have := List.mem_range'_1.1 hi
      simp only [hempty i (by omega)]
    simp only [hfind]
    cases hfound : (List.range' k (8 - k)).find? (fun i => s.freeBlockLists i ≠ []) with
    | some i =>
      -- case 3: a free block of a larger class
      have hi := List.mem_range'_1.1 (List.mem_of_find?_eq_some hfound)
      have hne : s.freeBlockLists i ≠ [] := by simpa using List.find?_some hfound
      obtain ⟨b, rest, hl⟩ := List.exists_cons_of_ne_nil hne
      have hki : 8 * 2 ^ k ≤ 8 * 2 ^ i := Nat.mul_le_mul_left 8 (Nat.pow_le_pow_right (by decide) hi.1)
      obtain ⟨s', htake, -, -⟩ := hI.take (by omega) hl (le_trans hle hki)
      obtain ⟨d', m', hrun, hR', hsame⟩ := takeFirst_refines hI hR (by omega) hl htake
      exact .inr ⟨.block b, s', d', m', by simp only [htake, ok_bind]; rfl, hrun, hR', hsame⟩
    | none =>
      exact .inr ⟨.waits, { s with blockedVarDynallocAllocFunc := 1 }, { d with blockedVarDynallocAllocFunc := 1 }, m,
        by simp only [hfp], by simp only [hR.pages, hfp], hR.setFlag 1, fun _ _ => rfl⟩

/-- `free_block` of a block in use leaves the bytes of the other blocks in use alone; it fails only where `return_page`
fails. -/
theorem freeBlock_refines {va : Nat} (h : Ok n s (⟨va, size⟩ :: live)) (hR : d.Rep B n m s) :
    (∃ e m' pageVa, B.returnPage m' pageVa = .error e ∧ d.freeBlock B m va = .error e) ∨
    ∃ s' d' m', freeBlock everyPage s () va = .ok (s', ()) ∧ d.freeBlock B m va = .ok (d', m') ∧ d'.Rep B n m' s' ∧
      B.Same (s.liveBytes live) m m' := by
  have hI := h.inv
  obtain ⟨k, hB, -, hnot⟩ : ∃ k, s.Block n k va ∧ size ≤ 8 * 2 ^ k ∧ va ∉ s.freeBlockLists k :=
    hI.liveBlock ⟨va, size⟩ List.mem_cons_self
  have hk := hB.cls
  obtain ⟨hidx, hpva⟩ := Block.index hI hB
  have hin : ¬ (va < s.dynAllocStart ∨ s.dynAllocEnd ≤ va) := by
    have h1 := hB.lo
    have h2 := Block.below hI hB
    have h3 := class_pos k
    omega
  have hne : ¬ 8 * 2 ^ k = 0 := (class_pos k).ne'
  have hinc : ((s.pageBlockInfoArr (s.page va)).numOfFreeBlocks + 1) % 65536 =
      (s.pageBlockInfoArr (s.page va)).numOfFreeBlocks + 1 :=
    Nat.mod_eq_of_lt (by have := hI.num_le hB.page hk hB.size; omega)
  have hsub : s.liveBytes live ⊆ s.liveBytes (⟨va, size⟩ :: live) :=
    fun a ⟨c, hc, h1⟩ => ⟨c, List.mem_cons_of_mem _ hc, h1⟩
  have hlisted : ∀ j ≤ 8, ∀ y ∈ s.freeBlockLists j, Node (s.splitPages n) (s.liveBytes live) y := fun j hj y hy =>
    (listed_node hI hj hy).mono hsub
  have hlaw := node_lawful B (A := s.liveBytes live) m fun a ha => liveBytes_split hI (hsub ha)
  rcases freeBlock_spec everyPage h () with ⟨e, pageVa, he, -⟩ | ⟨s', u, hrun, hok⟩
  · cases he
  have hcase := hrun
  simp only [freeBlock, if_neg hin, hidx, hB.size, if_neg hne, sizeClass_class hk, hinc, hpva] at hcase
  simp only [LinkedAlloc.freeBlock, hR.start, hR.fin, hR.info, if_neg hin, hidx, hB.size, if_neg hne,
    sizeClass_class hk, hinc, hpva]
  by_cases hfull : pageSize / (8 * 2 ^ k) ≤ (s.pageBlockInfoArr (s.page va)).numOfFreeBlocks + 1
  · -- the blocks of the page leave the list, and the page goes
    simp only [if_pos hfull] at hcase ⊢
    cases hcase
    obtain ⟨m₁, h₁, hloop, hG, hlink, hother⟩ := removeBlocks_spec hlaw (s.dynAllocStart + s.page va * 4096)
      (add32 (s.dynAllocStart + s.page va * 4096) pageSize) (p := []) (listed_length hI hk)
      (PagedMemory.Keeps.refl hR.backed) (hR.lists k hk) (hlisted k hk)
    rw [← (hR.lists k hk).first] at hloop
    rw [hloop, ok_bind]
    cases hret : B.returnPage m₁ (s.dynAllocStart + s.page va * 4096) with
    | error e => exact .inl ⟨e, m₁, _, hret, rfl⟩
    | ok m' =>
      have hst := hI.startPage
      have hv : (s.dynAllocStart + s.page va * 4096) / 4096 = s.dynAllocStart / 4096 + s.page va := by omega
      obtain ⟨hb, hload⟩ := B.returnPage_backed m₁ m' _ _ hG.1 (by omega)
        (hv ▸ ⟨s.page va, hB.page, hI.not_free hB, rfl⟩) hret
      have hR₁ := hR.setList hG.1 hlink fun j hj hjk y hy =>
        hother y (hlisted j hj y hy) fun hmem => hjk (listed_class hI hj hk hy hmem)
      have hpages : s.splitPages n \ {(s.dynAllocStart + s.page va * 4096) / 4096} =
          {v | ∃ p < n, p ∉ s.page va :: s.freePagesList ∧ v = s.dynAllocStart / 4096 + p} := by
        ext v
        simp only [DynAlloc.splitPages, Set.mem_sdiff, Set.mem_ofPred_eq, Set.mem_singleton_iff, List.mem_cons, not_or,
          hv]
        constructor
        · rintro ⟨⟨p, hp, hpf, rfl⟩, hne⟩
          exact ⟨p, hp, ⟨fun he => hne (by rw [he]), hpf⟩, rfl⟩
        · rintro ⟨p, hp, ⟨hpv, hpf⟩, rfl⟩
          exact ⟨⟨p, hp, hpf, rfl⟩, by omega⟩
      rw [hpages] at hb hload
      -- no block in use is on the page
      have hlive : ∀ c ∈ live, s.page c.va ≠ s.page va := by
        intro c hc he
        obtain ⟨j, hC, -⟩ := hok.inv.liveBlock c hc
        apply hok.inv.not_free hC
        show s.page c.va ∈ s.page va :: s.freePagesList
        rw [he]
        exact List.mem_cons_self
      refine .inr ⟨_, _, m', hrun, rfl, ⟨?_, fun j hj => ?_, hb, hR.area⟩, fun a ha => ?_⟩
      · simp only [LinkedAlloc.withLists, LinkedAlloc.setInfo, LinkedAlloc.setList, DynAlloc.setInfo, DynAlloc.setList,
          hR.start, hR.fin, hR.info, hR.pages, hR.flag]
      · refine (hR₁.lists j hj).congr fun y hy => links_congr fun i hi => hload (y + i) ?_
        exact ((listed_node hok.inv hj hy).bytes i hi).1
      · obtain ⟨c, hc, hlo, hhi⟩ := ha
        obtain ⟨j, hC, -⟩ := hI.liveBlock c (List.mem_cons_of_mem _ hc)
        have hpage : a / 4096 = s.dynAllocStart / 4096 + s.page c.va := by
          have := Block.pageNumber hI hC (i := a - c.va) (by rw [hC.size] at hhi; omega)
          rwa [Nat.add_sub_cancel' hlo] at this
        have hnotMem : s.page c.va ∉ s.page va :: s.freePagesList := fun hmem =>
          (List.mem_cons.1 hmem).elim (hlive c hc) (hI.not_free hC)
        rw [hload a ⟨s.page c.va, hC.page, hnotMem, hpage⟩]
        exact hG.2 a ⟨c, hc, hlo, hhi⟩
  · simp only [if_neg hfull] at hcase ⊢
    cases hcase
    have hnode : Node (s.splitPages n) (s.liveBytes live) va :=
      Block.node hI (fun c hc => List.mem_cons_of_mem _ hc) hB fun c hc he =>
        (List.nodup_cons.1 hI.liveNodup).1 (List.mem_map.2 ⟨c, hc, he⟩)
    obtain ⟨hG, hlink, hother⟩ := Links.insertTail_linked hlaw (PagedMemory.Keeps.refl hR.backed) (hR.lists k hk)
      (hlisted k hk) hnode hnot
    refine .inr ⟨_, _, _, hrun, rfl, ?_, hG.2⟩
    refine ((hR.setInfo (s.page va) _).setList hG.1 hlink fun j hj hjk y hy => ?_).setFlag 0
    apply hother y (hlisted j hj y hy) (fun hmem => hjk (listed_class hI hj hk hy hmem))
    rintro rfl
    exact hnot ((hI.listBlock j hj y hy).class_eq hB ▸ hy)

end Calls

end Fos.Heap
