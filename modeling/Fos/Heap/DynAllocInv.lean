/-
The invariant of the block allocator and what one call does to it: taking a block, splitting a free
page, giving a block back and giving a page back.
-/
import Fos.Heap.DynAlloc
import Fos.Lib.Extent

namespace Fos.Heap

open Fos.Lib Fos.Lib.Extent

/-! ## Size classes -/

theorem sizeClass_doubles (size : Nat) : ∀ (fuel k : Nat), ∃ j, k ≤ j ∧
    sizeClass size fuel (8 * 2 ^ k) k = (8 * 2 ^ j, j) ∧ (size ≤ 8 * 2 ^ j ∨ j = k + fuel) ∧
      ∀ i, k ≤ i → i < j → 8 * 2 ^ i < size
  | 0, k => ⟨k, le_rfl, rfl, .inr rfl, fun i h1 h2 => by omega⟩
  | fuel + 1, k => by
    by_cases h : 8 * 2 ^ k < size
    · obtain ⟨j, hkj, hj, hd, hlt⟩ := sizeClass_doubles size fuel (k + 1)
      refine ⟨j, by omega, ?_, ?_, fun i h1 h2 => ?_⟩
      · rw [sizeClass, if_pos h, mul_assoc, ← pow_succ]; exact hj
      · rcases hd with hd | hd
        · exact .inl hd
        · exact .inr (by omega)
      · rcases Nat.eq_or_lt_of_le h1 with rfl | h1
        · exact h
        · exact hlt i h1 h2
    · exact ⟨k, le_rfl, by rw [sizeClass, if_neg h], .inl (by omega), fun i h1 h2 => by omega⟩

/-- The class found for a size up to the largest block size. -/
theorem sizeClass_spec {size : Nat} (h : size ≤ 2048) :
    ∃ k, k ≤ 8 ∧ sizeClass size 16 minBlockSize 0 = (8 * 2 ^ k, k) ∧ size ≤ 8 * 2 ^ k := by
  obtain ⟨k, -, hk, hd, hlt⟩ := sizeClass_doubles size 16 0
  have hk8 : k ≤ 8 := by
    by_contra hk8
    have := hlt 8 (by omega) (by omega)
    omega
  exact ⟨k, hk8, hk, by rcases hd with hd | hd <;> omega⟩

theorem class_inj {j k : Nat} (h : 8 * 2 ^ j = 8 * 2 ^ k) : j = k :=
  Nat.pow_right_injective le_rfl (Nat.eq_of_mul_eq_mul_left (by decide) h)

theorem class_pos (k : Nat) : 0 < 8 * 2 ^ k := by positivity

theorem class_dvd {k : Nat} (h : k ≤ 8) : 8 * 2 ^ k ∣ 4096 := by
  have : 8 * 2 ^ k ∣ 8 * 2 ^ 9 := Nat.mul_dvd_mul_left 8 (Nat.pow_dvd_pow 2 (by omega))
  exact this

theorem class_le {k : Nat} (h : k ≤ 8) : 8 * 2 ^ k ≤ 2048 := by
  have : 2 ^ k ≤ 2 ^ 8 := Nat.pow_le_pow_right (by decide) h
  omega

/-- The class of a block size is found again. -/
theorem sizeClass_class {k : Nat} (h : k ≤ 8) : (sizeClass (8 * 2 ^ k) 16 minBlockSize 0).2 = k := by
  obtain ⟨j, -, hj, hd, hlt⟩ := sizeClass_doubles (8 * 2 ^ k) 16 0
  have hjk : j ≤ k := by
    by_contra hjk
    exact absurd (hlt k (by omega) (by omega)) (lt_irrefl _)
  have hkj : k ≤ j := by
    rcases hd with hd | hd
    · exact (Nat.pow_le_pow_iff_right (by decide)).1 (Nat.le_of_mul_le_mul_left hd (by decide))
    · omega
  have : sizeClass (8 * 2 ^ k) 16 minBlockSize 0 = (8 * 2 ^ j, j) := hj
  rw [this]; exact le_antisymm hjk hkj

/-- A multiple below another one of the same number stays below it by that number. -/
theorem dvd_add_le {s a b : Nat} (ha : s ∣ a) (hb : s ∣ b) (h : a < b) : a + s ≤ b := by
  obtain ⟨x, rfl⟩ := ha
  obtain ⟨y, rfl⟩ := hb
  have hxy : x < y := lt_of_mul_lt_mul_left h (Nat.zero_le s)
  calc s * x + s = s * (x + 1) := by ring
    _ ≤ s * y := Nat.mul_le_mul_left s hxy

/-! ## The invariant -/

/-- A block in use and the size it was requested with. -/
structure LiveBlock where
  va : Nat
  size : Nat
  deriving DecidableEq, Repr

namespace DynAlloc

/-- The index of the page an address lies on. -/
def page (s : DynAlloc) (b : Nat) : Nat := (b - s.dynAllocStart) / 4096

/-- `b` is a block of class `k` of one of the first `n` pages. -/
structure Block (s : DynAlloc) (n k b : Nat) : Prop where
  cls : k ≤ 8
  lo : s.dynAllocStart ≤ b
  page : s.page b < n
  size : (s.pageBlockInfoArr (s.page b)).blockSize = 8 * 2 ^ k
  aligned : 8 * 2 ^ k ∣ b - s.dynAllocStart

/-- A page is on the list of free pages or has a size class; the lists hold blocks of their class;
the blocks in use are on no list; and each page's free blocks are counted, and with its blocks in
use make up the page. -/
structure Inv (n : Nat) (s : DynAlloc) (live : List LiveBlock) : Prop where
  startPage : s.dynAllocStart % 4096 = 0
  startPos : 0 < s.dynAllocStart
  pages : n ≤ 8192
  fits : s.dynAllocStart + n * 4096 ≤ s.dynAllocEnd
  area : n = (s.dynAllocEnd - s.dynAllocStart) / 4096
  endLt : s.dynAllocEnd < 4294967296
  freeNodup : s.freePagesList.Nodup
  freePages : ∀ p ∈ s.freePagesList, p < n ∧ s.pageBlockInfoArr p = ⟨0, 0⟩
  sized : ∀ p < n, p ∉ s.freePagesList → ∃ k ≤ 8, (s.pageBlockInfoArr p).blockSize = 8 * 2 ^ k
  listNodup : ∀ k ≤ 8, (s.freeBlockLists k).Nodup
  listBlock : ∀ k ≤ 8, ∀ b ∈ s.freeBlockLists k, s.Block n k b
  liveNodup : (live.map LiveBlock.va).Nodup
  liveBlock : ∀ b ∈ live, ∃ k, s.Block n k b.va ∧ b.size ≤ 8 * 2 ^ k ∧ b.va ∉ s.freeBlockLists k
  freeCount : ∀ p < n, ∀ k ≤ 8, (s.pageBlockInfoArr p).blockSize = 8 * 2 ^ k →
    (s.freeBlockLists k).countP (s.page · = p) = (s.pageBlockInfoArr p).numOfFreeBlocks
  count : ∀ p < n, ∀ k ≤ 8, (s.pageBlockInfoArr p).blockSize = 8 * 2 ^ k →
    (s.pageBlockInfoArr p).numOfFreeBlocks + live.countP (s.page ·.va = p) = 4096 / (8 * 2 ^ k)

/-- Page `p` is not wholly free while it has a size class. -/
def Used (s : DynAlloc) (p : Nat) : Prop := ∀ k ≤ 8, (s.pageBlockInfoArr p).blockSize = 8 * 2 ^ k →
  (s.pageBlockInfoArr p).numOfFreeBlocks < 4096 / (8 * 2 ^ k)

section Inv

variable {n k b : Nat} {s : DynAlloc} {live : List LiveBlock}

theorem Block.lt (h : s.Block n k b) : b + 8 * 2 ^ k ≤ s.dynAllocStart + (s.page b + 1) * 4096 := by
  have hlo := h.lo
  have hpg : b - s.dynAllocStart < (s.page b + 1) * 4096 := by
    simp only [DynAlloc.page]; omega
  have hd : 8 * 2 ^ k ∣ (s.page b + 1) * 4096 := Dvd.dvd.mul_left (class_dvd h.cls) _
  have := dvd_add_le h.aligned hd hpg
  omega

theorem Block.below (hI : Inv n s live) (h : s.Block n k b) : b + 8 * 2 ^ k ≤ s.dynAllocEnd := by
  have h1 := Block.lt h
  have h2 := h.page
  have h3 := hI.fits
  omega

/-- The page of a block has one class. -/
theorem Block.class_eq {j : Nat} (h : s.Block n k b) (h' : s.Block n j b) : k = j :=
  class_inj (h.size.symm.trans h'.size)

theorem Block.congr {s' : DynAlloc} (h : s.Block n k b) (hst : s'.dynAllocStart = s.dynAllocStart)
    (hi : (s'.pageBlockInfoArr (s.page b)).blockSize = (s.pageBlockInfoArr (s.page b)).blockSize) : s'.Block n k b := by
  have hp : s'.page b = s.page b := by simp only [DynAlloc.page, hst]
  exact ⟨h.cls, by rw [hst]; exact h.lo, by rw [hp]; exact h.page, by rw [hp, hi]; exact h.size,
    by rw [hst]; exact h.aligned⟩

theorem toPageInfo_block (hI : Inv n s live) (h : s.Block n k b) : toPageInfo s b = .ok (s.page b) := by
  have hlo := h.lo
  have hb := Block.below hI h
  have h1 := hI.endLt
  have h2 := h.page
  have h3 := hI.pages
  have hsub : sub32 b s.dynAllocStart = b - s.dynAllocStart := sub32_of_le hlo (by omega)
  have hpg : ¬ maxPages ≤ s.page b := by
    have : maxPages = 8192 := rfl
    omega
  have hidx : sub32 b s.dynAllocStart / pageSize = s.page b := by rw [hsub]; rfl
  simp only [toPageInfo, hidx, if_neg hpg]

/-- No block lies on a free page. -/
theorem Inv.not_free (hI : Inv n s live) (h : s.Block n k b) : s.page b ∉ s.freePagesList := by
  intro hf
  have hs := h.size
  rw [(hI.freePages _ hf).2] at hs
  exact absurd hs (class_pos k).ne

theorem Inv.num_le (hI : Inv n s live) {p : Nat} (hp : p < n) (hk : k ≤ 8)
    (hs : (s.pageBlockInfoArr p).blockSize = 8 * 2 ^ k) : (s.pageBlockInfoArr p).numOfFreeBlocks ≤ 512 := by
  have h1 := hI.count p hp k hk hs
  have h2 : 4096 / (8 * 2 ^ k) ≤ 4096 / 8 := Nat.div_le_div_left (Nat.le_mul_of_pos_right 8 (by positivity)) (by decide)
  omega

theorem Inv.perm {live' : List LiveBlock} (hI : Inv n s live) (hp : live.Perm live') : Inv n s live' :=
  { hI with
    liveNodup := (hp.map _).nodup_iff.1 hI.liveNodup
    liveBlock := fun b hb => hI.liveBlock b (hp.mem_iff.2 hb)
    count := fun p hp' k hk hs => by rw [← hp.countP_eq]; exact hI.count p hp' k hk hs }

/-- The flag of the waiting loop is no part of the invariant. -/
theorem Inv.setFlag (hI : Inv n s live) (v : Nat) : Inv n { s with blockedVarDynallocAllocFunc := v } live :=
  ⟨hI.startPage, hI.startPos, hI.pages, hI.fits, hI.area, hI.endLt, hI.freeNodup, hI.freePages, hI.sized, hI.listNodup,
    fun j hj c hc => (hI.listBlock j hj c hc).congr rfl rfl, hI.liveNodup,
    fun c hc => (hI.liveBlock c hc).imp fun _ hj => ⟨hj.1.congr rfl rfl, hj.2⟩, hI.freeCount, hI.count⟩

/-- Taking the first block of a list. -/
theorem Inv.take (hI : Inv n s live) {size : Nat} {rest : List Nat} (hk : k ≤ 8)
    (hl : s.freeBlockLists k = b :: rest) (hs : size ≤ 8 * 2 ^ k) :
    ∃ s', takeFirst s k = .ok (.block b, s') ∧ Inv n s' (⟨b, size⟩ :: live) ∧
      ((∀ p < n, p ≠ s.page b → s.Used p) → ∀ p < n, s'.Used p) := by
  have hb : b ∈ s.freeBlockLists k := by rw [hl]; exact List.mem_cons_self
  have hB := hI.listBlock k hk b hb
  have hnd := hI.listNodup k hk
  rw [hl, List.nodup_cons] at hnd
  have hcnt := hI.freeCount _ hB.page k hk hB.size
  have hle := hI.num_le hB.page hk hB.size
  rw [hl, List.countP_cons_of_pos (by simp)] at hcnt
  obtain ⟨num, hnum⟩ : ∃ num, (s.pageBlockInfoArr (s.page b)).numOfFreeBlocks = num + 1 := ⟨_, hcnt.symm⟩
  have hdec : ((s.pageBlockInfoArr (s.page b)).numOfFreeBlocks + 65535) % 65536 = num := by omega
  let s' := (s.setList k rest).setInfo (s.page b) ⟨8 * 2 ^ k, num⟩
  have hpage : ∀ c, s'.page c = s.page c := fun c => rfl
  have hsize : ∀ p, (s'.pageBlockInfoArr p).blockSize = (s.pageBlockInfoArr p).blockSize := by
    intro p
    by_cases hp : p = s.page b
    · subst hp; simp [s', hB.size]
    · simp [s', hp]
  have hnum' : ∀ p, p ≠ s.page b → s'.pageBlockInfoArr p = s.pageBlockInfoArr p := fun p hp => by simp [s', hp]
  have hnumb : (s'.pageBlockInfoArr (s.page b)).numOfFreeBlocks = num := by simp [s']
  have hcls : ∀ j, (s.pageBlockInfoArr (s.page b)).blockSize = 8 * 2 ^ j → j = k := fun j hj =>
    class_inj (hj.symm.trans hB.size)
  have hother : ∀ j, j ≠ k → s'.freeBlockLists j = s.freeBlockLists j := fun j hj => by simp [s', hj]
  have hlk : s'.freeBlockLists k = rest := by simp [s']
  have hsub : ∀ j, ∀ c ∈ s'.freeBlockLists j, c ∈ s.freeBlockLists j := by
    intro j c hc
    by_cases hj : j = k
    · subst hj; rw [hl]; rw [hlk] at hc; exact List.mem_cons_of_mem _ hc
    · rwa [hother j hj] at hc
  refine ⟨s', ?_, ?_, ?_⟩
  · simp only [takeFirst, hl, toPageInfo_block hI hB, ok_bind, hdec, hB.size]
    rfl
  · constructor
    · exact hI.startPage
    · exact hI.startPos
    · exact hI.pages
    · exact hI.fits
    · exact hI.area
    · exact hI.endLt
    · exact hI.freeNodup
    · intro p hp
      have hne : p ≠ s.page b := fun h => hI.not_free hB (h ▸ hp)
      rw [hnum' p hne]
      exact hI.freePages p hp
    · intro p hp hpf
      rw [hsize]
      exact hI.sized p hp hpf
    · intro j hj
      by_cases hjk : j = k
      · subst hjk; rw [hlk]; exact hnd.2
      · rw [hother j hjk]; exact hI.listNodup j hj
    · exact fun j hj c hc => (hI.listBlock j hj c (hsub j c hc)).congr rfl (hsize _)
    · rw [List.map_cons, List.nodup_cons]
      refine ⟨fun hmem => ?_, hI.liveNodup⟩
      obtain ⟨c, hc, hcb⟩ := List.mem_map.1 hmem
      obtain ⟨j, hj, -, hnot⟩ := hI.liveBlock c hc
      rw [hcb] at hj hnot
      rw [hj.class_eq hB] at hnot
      exact hnot hb
    · intro c hc
      rcases List.mem_cons.1 hc with rfl | hc
      · exact ⟨k, hB.congr rfl (hsize _), hs, by rw [hlk]; exact hnd.1⟩
      · obtain ⟨j, hj, hsz, hnot⟩ := hI.liveBlock c hc
        exact ⟨j, hj.congr rfl (hsize _), hsz, fun h => hnot (hsub j _ h)⟩
    · intro p hp j hj hsz
      rw [hsize] at hsz
      simp only [hpage]
      by_cases hpb : p = s.page b
      · subst hpb
        obtain rfl := hcls j hsz
        rw [hlk, hnumb]; omega
      · rw [hnum' p hpb, ← hI.freeCount p hp j hj hsz]
        by_cases hjk : j = k
        · subst hjk
          rw [hlk, hl, List.countP_cons_of_neg (by simpa using Ne.symm hpb)]
        · rw [hother j hjk]
    · intro p hp j hj hsz
      rw [hsize] at hsz
      simp only [hpage]
      have hc := hI.count p hp j hj hsz
      by_cases hpb : p = s.page b
      · subst hpb
        rw [hnumb, List.countP_cons_of_pos (by simp)]; omega
      · rw [hnum' p hpb, List.countP_cons_of_neg (by simpa using Ne.symm hpb), hc]
  · intro hused p hp j hj hsz
    rw [hsize] at hsz
    by_cases hpb : p = s.page b
    · subst hpb
      have hc := hI.count _ hp j hj hsz
      rw [hnumb]; omega
    · rw [hnum' p hpb]
      exact hused p hp hpb j hj hsz

/-! ## Splitting a page -/

/-- The blocks of class `k` of page `p`. -/
def pageBlocks (s : DynAlloc) (p k : Nat) : List Nat :=
  (List.range (4096 / (8 * 2 ^ k))).map fun i => s.dynAllocStart + p * 4096 + i * (8 * 2 ^ k)

theorem mem_pageBlocks {p c : Nat} (hk : k ≤ 8) (h : c ∈ s.pageBlocks p k) :
    s.dynAllocStart ≤ c ∧ s.page c = p ∧ 8 * 2 ^ k ∣ c - s.dynAllocStart := by
  obtain ⟨i, hi, rfl⟩ := List.mem_map.1 h
  have hlt : i * (8 * 2 ^ k) < 4096 := by
    have := List.mem_range.1 hi
    calc i * (8 * 2 ^ k) < 4096 / (8 * 2 ^ k) * (8 * 2 ^ k) := Nat.mul_lt_mul_of_pos_right this (class_pos k)
      _ ≤ 4096 := Nat.div_mul_le_self ..
  have hsub : s.dynAllocStart + p * 4096 + i * (8 * 2 ^ k) - s.dynAllocStart = p * 4096 + i * (8 * 2 ^ k) := by
    omega
  refine ⟨by omega, ?_, ?_⟩
  · simp only [DynAlloc.page, hsub]; omega
  · rw [hsub]
    exact Nat.dvd_add (Dvd.dvd.mul_left (class_dvd hk) p) (Nat.dvd_mul_left ..)

theorem pageBlocks_nodup (p : Nat) : (s.pageBlocks p k).Nodup := by
  refine List.Nodup.map (fun i j hij => ?_) List.nodup_range
  have := class_pos k
  exact Nat.eq_of_mul_eq_mul_right this (Nat.add_left_cancel hij)

theorem pageBlocks_ne_nil (hk : k ≤ 8) (p : Nat) : s.pageBlocks p k ≠ [] := by
  have : 0 < 4096 / (8 * 2 ^ k) := Nat.div_pos (by have := class_le hk; omega) (class_pos k)
  simp [pageBlocks, this.ne']

/-- The addresses `alloc_block` computes for the blocks of a page do not wrap. -/
theorem splitPage_eq (hI : Inv n s live) {p : Nat} {rest : List Nat} (hp : p < n) :
    splitPage s p (4096 / (8 * 2 ^ k)) (s.dynAllocStart + p * 4096) (8 * 2 ^ k) k rest =
      ({ s with freePagesList := rest }.setInfo p ⟨8 * 2 ^ k, 4096 / (8 * 2 ^ k)⟩).setList k
        (s.freeBlockLists k ++ s.pageBlocks p k) := by
  have hmap : ((List.range (4096 / (8 * 2 ^ k))).map fun i =>
      add32 (s.dynAllocStart + p * 4096) (mul32 i (8 * 2 ^ k))) = s.pageBlocks p k := by
    apply List.map_congr_left
    intro i hi
    have hlt : i * (8 * 2 ^ k) < 4096 := by
      have := List.mem_range.1 hi
      calc i * (8 * 2 ^ k) < 4096 / (8 * 2 ^ k) * (8 * 2 ^ k) := Nat.mul_lt_mul_of_pos_right this (class_pos k)
        _ ≤ 4096 := Nat.div_mul_le_self ..
    have h1 := hI.fits
    have h2 := hI.endLt
    rw [mul32_of_lt (by omega), add32_of_lt (by omega)]
  simp only [splitPage, hmap]

theorem Inv.split (hI : Inv n s live) {p : Nat} {rest : List Nat} (hp : s.freePagesList = p :: rest) (hk : k ≤ 8) :
    Inv n (({ s with freePagesList := rest }.setInfo p ⟨8 * 2 ^ k, 4096 / (8 * 2 ^ k)⟩).setList k
      (s.freeBlockLists k ++ s.pageBlocks p k)) live := by
  have hpf : p ∈ s.freePagesList := by rw [hp]; exact List.mem_cons_self
  obtain ⟨hpn, hpi⟩ := hI.freePages p hpf
  have hnd := hI.freeNodup
  rw [hp, List.nodup_cons] at hnd
  have hoff : ∀ j c, s.Block n j c → s.page c ≠ p := fun j c hc h => hI.not_free hc (h ▸ hpf)
  let s' := ({ s with freePagesList := rest }.setInfo p ⟨8 * 2 ^ k, 4096 / (8 * 2 ^ k)⟩).setList k
      (s.freeBlockLists k ++ s.pageBlocks p k)
  have hinfo : ∀ q, q ≠ p → s'.pageBlockInfoArr q = s.pageBlockInfoArr q := fun q hq => by simp [s', hq]
  have hinfop : s'.pageBlockInfoArr p = ⟨8 * 2 ^ k, 4096 / (8 * 2 ^ k)⟩ := by simp [s']
  have hlk : s'.freeBlockLists k = s.freeBlockLists k ++ s.pageBlocks p k := by simp [s']
  have hother : ∀ j, j ≠ k → s'.freeBlockLists j = s.freeBlockLists j := fun j hj => by simp [s', hj]
  have hkeep : ∀ j c, s.Block n j c → s'.Block n j c := fun j c hc =>
    hc.congr rfl (by rw [hinfo _ (hoff j c hc)])
  have hmem : ∀ j, ∀ c ∈ s'.freeBlockLists j, c ∈ s.freeBlockLists j ∨ (j = k ∧ c ∈ s.pageBlocks p k) := by
    intro j c hc
    by_cases hj : j = k
    · subst hj
      rw [hlk] at hc
      exact (List.mem_append.1 hc).imp_right fun h => ⟨rfl, h⟩
    · rw [hother j hj] at hc; exact .inl hc
  have hclsp : ∀ j, (s'.pageBlockInfoArr p).blockSize = 8 * 2 ^ j → j = k := by
    intro j hj
    rw [hinfop] at hj; exact (class_inj hj).symm
  constructor
  · exact hI.startPage
  · exact hI.startPos
  · exact hI.pages
  · exact hI.fits
  · exact hI.area
  · exact hI.endLt
  · exact hnd.2
  · intro q hq
    have hne : q ≠ p := fun h => hnd.1 (h ▸ hq)
    rw [hinfo q hne]
    exact hI.freePages q (by rw [hp]; exact List.mem_cons_of_mem _ hq)
  · intro q hq hqf
    by_cases hqp : q = p
    · subst hqp; exact ⟨k, hk, by rw [hinfop]⟩
    · rw [hinfo q hqp]
      refine hI.sized q hq fun h => hqf ?_
      rw [hp] at h
      exact (List.mem_cons.1 h).resolve_left hqp
  · intro j hj
    by_cases hjk : j = k
    · subst hjk
      rw [hlk]
      refine (hI.listNodup j hj).append (pageBlocks_nodup p) fun c hc hc' => ?_
      exact hoff j c (hI.listBlock j hj c hc) (mem_pageBlocks hk hc').2.1
    · rw [hother j hjk]; exact hI.listNodup j hj
  · intro j hj c hc
    rcases hmem j c hc with h | ⟨rfl, h⟩
    · exact hkeep j c (hI.listBlock j hj c h)
    · obtain ⟨h1, h2, h3⟩ := mem_pageBlocks hk h
      have hpg : s'.page c = p := h2
      exact ⟨hk, h1, by rw [hpg]; exact hpn, by rw [hpg, hinfop], h3⟩
  · exact hI.liveNodup
  · intro c hc
    obtain ⟨j, hj, hsz, hnot⟩ := hI.liveBlock c hc
    refine ⟨j, hkeep j _ hj, hsz, fun h => ?_⟩
    rcases hmem j _ h with h | ⟨rfl, h⟩
    · exact hnot h
    · exact hoff j _ hj (mem_pageBlocks hk h).2.1
  · intro q hq j hj hsz
    show (s'.freeBlockLists j).countP (s.page · = q) = _
    by_cases hqp : q = p
    · subst hqp
      obtain rfl := hclsp j hsz
      rw [hlk, List.countP_append, hinfop]
      have h1 : (s.freeBlockLists j).countP (s.page · = q) = 0 := by
        apply List.countP_eq_zero.2
        intro c hc
        simpa using hoff j c (hI.listBlock j hj c hc)
      have h2 : (s.pageBlocks q j).countP (s.page · = q) = (s.pageBlocks q j).length := by
        apply List.countP_eq_length.2
        intro c hc
        simpa using (mem_pageBlocks hk hc).2.1
      rw [h1, h2, pageBlocks, List.length_map, List.length_range, Nat.zero_add]
    · rw [hinfo q hqp] at hsz ⊢
      rw [← hI.freeCount q hq j hj hsz]
      by_cases hjk : j = k
      · subst hjk
        have h2 : (s.pageBlocks p j).countP (s.page · = q) = 0 := by
          apply List.countP_eq_zero.2
          intro c hc
          simpa [(mem_pageBlocks hk hc).2.1] using Ne.symm hqp
        rw [hlk, List.countP_append, h2, Nat.add_zero]
      · rw [hother j hjk]
  · intro q hq j hj hsz
    show _ + live.countP (s.page ·.va = q) = _
    by_cases hqp : q = p
    · subst hqp
      obtain rfl := hclsp j hsz
      have h1 : live.countP (s.page ·.va = q) = 0 := by
        apply List.countP_eq_zero.2
        intro c hc
        obtain ⟨i, hi, -⟩ := hI.liveBlock c hc
        simpa using hoff i _ hi
      rw [h1, hinfop, Nat.add_zero]
    · rw [hinfo q hqp] at hsz ⊢
      exact hI.count q hq j hj hsz

/-! ## Giving a block back -/

/-- The page computed by `free_block`. -/
theorem Block.index (hI : Inv n s live) (h : s.Block n k b) :
    sub32 b s.dynAllocStart / pageSize = s.page b ∧
      add32 s.dynAllocStart (mul32 (s.page b) pageSize) = s.dynAllocStart + s.page b * 4096 := by
  have hlo := h.lo
  have hb := Block.below hI h
  have h1 := hI.endLt
  have h2 := h.page
  have h3 := hI.fits
  have hsub : sub32 b s.dynAllocStart = b - s.dynAllocStart := sub32_of_le hlo (by omega)
  refine ⟨by rw [hsub]; rfl, ?_⟩
  rw [mul32_of_lt (by simp only [pageSize]; omega), add32_of_lt (by simp only [pageSize]; omega)]
  rfl

/-- A block whose page keeps other blocks in use goes back to its list. -/
theorem Inv.giveBlock {size : Nat} (hI : Inv n s (⟨b, size⟩ :: live)) (hB : s.Block n k b)
    (hpart : (s.pageBlockInfoArr (s.page b)).numOfFreeBlocks + 1 < 4096 / (8 * 2 ^ k)) :
    Inv n ((s.setInfo (s.page b) ⟨8 * 2 ^ k, (s.pageBlockInfoArr (s.page b)).numOfFreeBlocks + 1⟩).setList k
      (s.freeBlockLists k ++ [b])) live := by
  have hk := hB.cls
  obtain ⟨hnd1, hnd2⟩ := List.nodup_cons.1 hI.liveNodup
  obtain ⟨i, hBi, -, hbl⟩ := hI.liveBlock ⟨b, size⟩ List.mem_cons_self
  obtain rfl := hBi.class_eq hB
  let s' := (s.setInfo (s.page b) ⟨8 * 2 ^ i, (s.pageBlockInfoArr (s.page b)).numOfFreeBlocks + 1⟩).setList i
      (s.freeBlockLists i ++ [b])
  have hsize : ∀ p, (s'.pageBlockInfoArr p).blockSize = (s.pageBlockInfoArr p).blockSize := by
    intro p
    by_cases hp : p = s.page b
    · subst hp; simp [s', hB.size]
    · simp [s', hp]
  have hinfo : ∀ p, p ≠ s.page b → s'.pageBlockInfoArr p = s.pageBlockInfoArr p := fun p hp => by simp [s', hp]
  have hnumb : (s'.pageBlockInfoArr (s.page b)).numOfFreeBlocks =
      (s.pageBlockInfoArr (s.page b)).numOfFreeBlocks + 1 := by simp [s']
  have hcls : ∀ j, (s.pageBlockInfoArr (s.page b)).blockSize = 8 * 2 ^ j → j = i := fun j hj =>
    class_inj (hj.symm.trans hB.size)
  have hother : ∀ j, j ≠ i → s'.freeBlockLists j = s.freeBlockLists j := fun j hj => by simp [s', hj]
  have hlk : s'.freeBlockLists i = s.freeBlockLists i ++ [b] := by simp [s']
  have hmem : ∀ j, ∀ c ∈ s'.freeBlockLists j, c ∈ s.freeBlockLists j ∨ (j = i ∧ c = b) := by
    intro j c hc
    by_cases hj : j = i
    · subst hj
      rw [hlk] at hc
      exact (List.mem_append.1 hc).imp_right fun h => ⟨rfl, List.mem_singleton.1 h⟩
    · rw [hother j hj] at hc; exact .inl hc
  constructor
  · exact hI.startPage
  · exact hI.startPos
  · exact hI.pages
  · exact hI.fits
  · exact hI.area
  · exact hI.endLt
  · exact hI.freeNodup
  · intro p hp
    rw [hinfo p fun h => hI.not_free hB (h ▸ hp)]
    exact hI.freePages p hp
  · intro p hp hpf
    rw [hsize]
    exact hI.sized p hp hpf
  · intro j hj
    by_cases hji : j = i
    · subst hji
      rw [hlk]
      exact (hI.listNodup j hj).append (List.nodup_singleton b) (by simpa using hbl)
    · rw [hother j hji]; exact hI.listNodup j hj
  · intro j hj c hc
    rcases hmem j c hc with h | ⟨rfl, rfl⟩
    · exact (hI.listBlock j hj c h).congr rfl (hsize _)
    · exact hB.congr rfl (hsize _)
  · exact hnd2
  · intro c hc
    obtain ⟨j, hj, hsz, hnot⟩ := hI.liveBlock c (List.mem_cons_of_mem _ hc)
    refine ⟨j, hj.congr rfl (hsize _), hsz, fun h => ?_⟩
    rcases hmem j _ h with h | ⟨-, he⟩
    · exact hnot h
    · exact hnd1 (List.mem_map.2 ⟨c, hc, he⟩)
  · intro p hp j hj hsz
    show (s'.freeBlockLists j).countP (s.page · = p) = (s'.pageBlockInfoArr p).numOfFreeBlocks
    have hsz' : (s.pageBlockInfoArr p).blockSize = 8 * 2 ^ j := by rw [← hsize]; exact hsz
    have hc := hI.freeCount p hp j hj hsz'
    by_cases hpb : p = s.page b
    · subst hpb
      obtain rfl := hcls j hsz'
      rw [hlk, hnumb, List.countP_append, hc, List.countP_singleton]
      simp
    · rw [hinfo p hpb, ← hc]
      by_cases hji : j = i
      · subst hji
        rw [hlk, List.countP_append, List.countP_singleton, if_neg (by simpa using Ne.symm hpb), Nat.add_zero]
      · rw [hother j hji]
  · intro p hp j hj hsz
    show (s'.pageBlockInfoArr p).numOfFreeBlocks + live.countP (s.page ·.va = p) = _
    have hsz' : (s.pageBlockInfoArr p).blockSize = 8 * 2 ^ j := by rw [← hsize]; exact hsz
    have hc := hI.count p hp j hj hsz'
    by_cases hpb : p = s.page b
    · subst hpb
      rw [List.countP_cons_of_pos (by simp)] at hc
      rw [hnumb]; omega
    · rw [List.countP_cons_of_neg (by simpa using Ne.symm hpb)] at hc
      rw [hinfo p hpb, hc]

/-- A page whose last block in use is given back becomes a free page. -/
theorem Inv.givePage {size : Nat} (hI : Inv n s (⟨b, size⟩ :: live)) (hB : s.Block n k b)
    (hfull : 4096 / (8 * 2 ^ k) ≤ (s.pageBlockInfoArr (s.page b)).numOfFreeBlocks + 1) :
    Inv n { (s.setList k ((s.freeBlockLists k).filter fun c => ¬ s.page c = s.page b)).setInfo (s.page b) ⟨0, 0⟩ with
      freePagesList := s.page b :: s.freePagesList } live := by
  have hk := hB.cls
  obtain ⟨hnd1, hnd2⟩ := List.nodup_cons.1 hI.liveNodup
  -- no other block of the page is in use
  have hnone : ∀ c ∈ live, s.page c.va ≠ s.page b := by
    have hc := hI.count _ hB.page k hk hB.size
    rw [List.countP_cons_of_pos (by simp)] at hc
    have : live.countP (s.page ·.va = s.page b) = 0 := by omega
    exact fun c hc => by simpa using List.countP_eq_zero.1 this c hc
  let s' : DynAlloc := { (s.setList k ((s.freeBlockLists k).filter fun c => ¬ s.page c = s.page b)).setInfo (s.page b)
      ⟨0, 0⟩ with
      freePagesList := s.page b :: s.freePagesList }
  have hinfo : ∀ p, p ≠ s.page b → s'.pageBlockInfoArr p = s.pageBlockInfoArr p := by
    intro p hp
    show Function.update _ _ _ _ = _
    rw [Function.update_of_ne hp]; rfl
  have hinfob : s'.pageBlockInfoArr (s.page b) = ⟨0, 0⟩ := by
    show Function.update _ _ _ _ = _
    rw [Function.update_self]
  have hlk : s'.freeBlockLists k = (s.freeBlockLists k).filter fun c => ¬ s.page c = s.page b := by
    show Function.update _ _ _ _ = _
    rw [Function.update_self]
  have hother : ∀ j, j ≠ k → s'.freeBlockLists j = s.freeBlockLists j := by
    intro j hj
    show Function.update _ _ _ _ = _
    rw [Function.update_of_ne hj]
  have hmem : ∀ j ≤ 8, ∀ c ∈ s'.freeBlockLists j, c ∈ s.freeBlockLists j ∧ s.page c ≠ s.page b := by
    intro j hj c hc
    by_cases hjk : j = k
    · subst hjk
      rw [hlk] at hc
      simpa using List.mem_filter.1 hc
    · rw [hother j hjk] at hc
      refine ⟨hc, fun h => hjk ?_⟩
      have := (hI.listBlock j hj c hc).size
      rw [h, hB.size] at this
      exact (class_inj this).symm
  have hszb : ∀ p j, (s'.pageBlockInfoArr p).blockSize = 8 * 2 ^ j → p ≠ s.page b := by
    rintro p j hsz rfl
    rw [hinfob] at hsz
    exact absurd hsz (class_pos j).ne
  constructor
  · exact hI.startPage
  · exact hI.startPos
  · exact hI.pages
  · exact hI.fits
  · exact hI.area
  · exact hI.endLt
  · exact List.nodup_cons.2 ⟨hI.not_free hB, hI.freeNodup⟩
  · intro p hp
    rcases List.mem_cons.1 hp with rfl | hp
    · exact ⟨hB.page, hinfob⟩
    · rw [hinfo p fun h => hI.not_free hB (h ▸ hp)]
      exact hI.freePages p hp
  · intro p hp hpf
    have hpb : p ≠ s.page b := fun h => hpf (h ▸ List.mem_cons_self)
    rw [hinfo p hpb]
    exact hI.sized p hp fun h => hpf (List.mem_cons_of_mem _ h)
  · intro j hj
    by_cases hjk : j = k
    · subst hjk; rw [hlk]; exact (hI.listNodup j hj).filter _
    · rw [hother j hjk]; exact hI.listNodup j hj
  · intro j hj c hc
    obtain ⟨hc, hne⟩ := hmem j hj c hc
    exact (hI.listBlock j hj c hc).congr rfl (by rw [hinfo _ hne])
  · exact hnd2
  · intro c hc
    obtain ⟨j, hj, hsz, hnot⟩ := hI.liveBlock c (List.mem_cons_of_mem _ hc)
    exact ⟨j, hj.congr rfl (by rw [hinfo _ (hnone c hc)]), hsz, fun h => hnot (hmem j hj.cls _ h).1⟩
  · intro p hp j hj hsz
    show (s'.freeBlockLists j).countP (s.page · = p) = (s'.pageBlockInfoArr p).numOfFreeBlocks
    have hpb := hszb p j hsz
    rw [hinfo p hpb] at hsz ⊢
    rw [← hI.freeCount p hp j hj hsz]
    by_cases hjk : j = k
    · subst hjk
      rw [hlk, List.countP_filter]
      apply List.countP_congr
      intro c _
      simp only [Bool.and_eq_true, decide_eq_true_eq]
      exact ⟨fun h => h.1, fun h => ⟨h, by rw [h]; exact hpb⟩⟩
    · rw [hother j hjk]
  · intro p hp j hj hsz
    show (s'.pageBlockInfoArr p).numOfFreeBlocks + live.countP (s.page ·.va = p) = _
    have hpb := hszb p j hsz
    rw [hinfo p hpb] at hsz ⊢
    have hc := hI.count p hp j hj hsz
    rw [List.countP_cons_of_neg (by simpa using Ne.symm hpb)] at hc
    exact hc

end Inv

end DynAlloc

end Fos.Heap
