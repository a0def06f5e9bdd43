/-
An object of more than `2147479552` bytes on a machine of 3 GB: creating it and getting it both succeed,
and the getter's range stays empty.
-/
import Fos.Heap.KernelProgress
import Fos.Shared.Pages

namespace Fos.Shared

open Fos.Lib Fos.Memory Fos.Heap

section Returns

variable {m m' : Mem} {s t : Kernel} {d f v n va size : Nat} {perm : Perm}

/-- The loop of `create_shared_object` where the page tables are there, with a frame for each page. -/
theorem createPages_returns (addr : Nat) : ∀ (n i : Nat) (s : Shares), v + i + n ≤ userPages →
    (∀ j, i ≤ j → j < i + n → (s.kernel.mem.table d ((v + j) / 1024)).isSome) → Vacant s.kernel.mem d v i n →
    n ≤ s.kernel.mem.freeFrameList.length → ∃ t, createPages d addr (v * 4096) i n s = .ok () t
  | 0, _, s, _, _, _, _ => ⟨s, rfl⟩
  | n + 1, i, s, hrange, htab, hvac, hfree => by
    have hi : v + i < userPages := by omega
    obtain ⟨hown, hslot⟩ := user_slot (d := d) hi
    obtain ⟨f, m₁, ha, ht₁, hl₁, hp₁⟩ := allocateFrame_returns (by omega : 0 < s.kernel.mem.freeFrameList.length)
    have hua : ∀ e w, userEntry m₁ e w = userEntry s.kernel.mem e w := (allocateFrame_user ha).2
    have hti : (m₁.table d ((v + i) / 1024)).isSome := by rw [ht₁]; exact htab i le_rfl (by omega)
    have hmap : mapFrame d f ((v + i) * 4096) createPerm { s.kernel with mem := m₁ } = .ok () { s.kernel with
        mem := (m₁.setFrameVa f ((v + i) * 4096)).enterFrame d f ((v + i) * 4096) createPerm } :=
      mapFrame_there (by rw [hown, pdx_page]; exact hti)
    obtain ⟨-, hother⟩ := enterFrame_user (m := m₁.setFrameVa f ((v + i) * 4096)) (f := f) createPerm hi hti
      ((congrArg (·.perm.present) (hua d (v + i))).trans (hvac i le_rfl (by omega)))
    have hlen := enterFrame_free (m₁.setFrameVa f ((v + i) * 4096)) d f ((v + i) * 4096) createPerm
    have htsame := (Mem.enterFrame_same (m₁.setFrameVa f ((v + i) * 4096)) d f ((v + i) * 4096) createPerm).1
    generalize (m₁.setFrameVa f ((v + i) * 4096)).enterFrame d f ((v + i) * 4096) createPerm =
      m₂ at hmap hother hlen htsame
    have hlen' : m₁.freeFrameList.length ≤ m₂.freeFrameList.length := hlen
    have h1 : onKernel (onMem Mem.allocateFrame) s = .ok f { s with kernel := { s.kernel with mem := m₁ } } :=
      onKernel_of_ok (by simp only [onMem, ha])
    have htab' : ∀ j, i + 1 ≤ j → j < i + 1 + n → (m₂.table d ((v + j) / 1024)).isSome := by
      intro j h1 h2
      rw [htsame, Mem.setFrameVa, Mem.setFrame_table, ht₁]
      exact htab j (by omega) (by omega)
    have hvac' : Vacant m₂ d v (i + 1) n := hvac.rest hrange fun e w hw hne => (hother e w hne).trans (hua e w)
    -- the state after the page
    let s₁ : Shares := ({ s with kernel := { s.kernel with mem := m₁ } } : Shares).setShare addr fun shr =>
      { shr with frames := Function.update shr.frames i (some f) }
    obtain ⟨t, ht⟩ := createPages_returns addr n (i + 1) { s₁ with kernel := { s.kernel with mem := m₂ } }
      (by omega) htab' hvac' (show n ≤ m₂.freeFrameList.length by omega)
    have h2 : onKernel (mapFrame d f ((v + i) * 4096) createPerm) s₁ =
        .ok () { s₁ with kernel := { s.kernel with mem := m₂ } } :=
      onKernel_of_ok hmap
    refine ⟨t, ?_⟩
    unfold createPages
    rw [bind_of_ok h1, modifyShare, bind_of_ok (modify_shares _ _), pageOf_eq hi]
    exact (bind_of_ok h2).trans ht

end Returns

/-! ## A machine of 3 GB -/

/-- Directory `1` has its 955 page tables, in the first pages of the page allocator. -/
def largeMemory : Mem where
  numberOfFrames := 786432
  framesInfo f :=
    if f < 1024 then { references := 1 }
    else if f < 1979 then { va := (1015809 + (f - 1024)) * 4096, references := 1, size := 4096 }
    else {}
  freeFrameList := List.range' 1979 784453
  dirs := {0, 1, 2}
  table d i :=
    if d = 0 then (if 960 ≤ i ∧ i < 1024 then some i else none)
    else if d = 1 ∧ i < 955 then some (1024 + i)
    else none
  pte a :=
    if a.1 = 0 ∧ 983040 ≤ a.2 ∧ a.2 < 984064 then ⟨a.2 - 983040, { present := true, writeable := true }⟩
    else if a.1 = 0 ∧ 1015809 ≤ a.2 ∧ a.2 < 1016764 then
      ⟨1024 + (a.2 - 1015809), { present := true, writeable := true }⟩
    else {}

def largeKernel : Kernel where
  mem := largeMemory
  dyn := { zeroedAlloc with
    dynAllocStart := kernelHeapStart
    dynAllocEnd := kernelHeapStart + dynAllocMaxSize
    freePagesList := List.range 8192 }
  kheapPageAllocStart := 1015809 * 4096
  kheapPageAllocBreak := 1016764 * 4096
  allocatedSize := ⟨fun i => if 1015809 ≤ i ∧ i < 1016764 then 4096 else 0, []⟩
  lock := false

theorem largeKernel_ready : HeapReady largeKernel := by
  refine ⟨⟨fun v hv => ?_, rfl, 1016764, rfl, by decide, by decide⟩, rfl⟩
  have h1 := hv.1
  have h2 := hv.2
  show (largeMemory.table 0 (v / 1024)).isSome
  simp only [largeMemory, if_true]
  rw [if_pos (by omega)]
  rfl

theorem largeMemory_vacant {d v n : Nat} (hd : d ≠ 0) : Vacant largeMemory d v 0 n := by
  intro j _ _
  have hp : largeMemory.pte (d, v + j) = {} := by simp [largeMemory, hd]
  unfold userEntry
  rw [hp, ite_self]

def largeSize : Nat := 2147479553

/-- The memory for the object and for its `framesStorage`. -/
theorem large_alloc (s : Shares) (hs : s.kernel = largeKernel) :
    ∃ shr k, allocShare 7 [97, 0] largeSize 1 s = .ok (some shr) { s with kernel := k } ∧
      Within largeMemory k.mem ∧ 524288 ≤ k.mem.freeFrameList.length ∧
      shr = newShare shr.addr shr.framesStorage 7 [97, 0] largeSize 1 := by
  obtain ⟨va, k₁, hk₁, hva⟩ : ∃ va k, kmalloc sizeofShare largeKernel = .ok va k ∧ va ≠ 0 := by
    have h : (EStateM.run' (kmalloc sizeofShare) largeKernel).any (· != 0) = true := by decide +kernel
    obtain ⟨va, k, hk, hva⟩ := ok_of_run h
    exact ⟨va, k, hk, by simpa using hva⟩
  obtain ⟨hready₁, hw₁⟩ := largeKernel_ready.kmalloc hk₁
  obtain ⟨hfree₁, hl₁, hbrk₁⟩ := kmalloc_block_free largeKernel_ready (by decide) hk₁
  have hlen : largeKernel.mem.freeFrameList.length = 784453 := List.length_range'
  have hpages : pagesOf (mul32 (numberOfFrames largeSize) 4) = 512 := by decide
  obtain ⟨fs, k₂, hk₂, hfs, hfree₂⟩ := kmalloc_returns (mul32 (numberOfFrames largeSize) 4) hready₁ hl₁ (by decide)
    (by rw [hpages]; unfold Kernel.Refuses; rw [hbrk₁]; decide) (by rw [hpages]; omega)
  obtain ⟨-, hw₂⟩ := hready₁.kmalloc hk₂
  rw [hpages] at hfree₂
  refine ⟨newShare va fs 7 [97, 0] largeSize 1, k₂, ?_, hw₁.trans hw₂, by omega, rfl⟩
  unfold allocShare
  rw [bind_of_ok (onKernel_of_ok (by rw [hs]; exact hk₁)), if_neg hva, bind_of_ok (onKernel_of_ok hk₂), if_neg hfs]
  rfl

/-- The object is created, and a getter maps none of its pages. -/
theorem large_object_not_shared : ∃ s t u r r', HeapReady s.kernel ∧ Vacant s.kernel.mem 1 1024 0 524288 ∧
    createSharedObject 1 7 [97, 0] largeSize 1 (1024 * 4096) s = .ok r t ∧ 0 ≤ r ∧ Vacant t.kernel.mem 2 1024 0 524288 ∧
    getSharedObject 2 7 [97, 0] (1024 * 4096) t = .ok r' u ∧ 0 ≤ r' ∧
      ¬ SharesPages s t t u r 524288 1 1 1024 2 1024 := by
  obtain ⟨shr, k, ha, hw, hfree, hnew⟩ := large_alloc (sharingInit largeKernel).locked rfl
  have hn : numberOfFrames largeSize = 524288 := by decide
  have hvac : Vacant k.mem 1 1024 0 524288 := by
    intro j h1 h2
    rw [userEntry_within hw (by simp only [userPages]; omega)]
    exact largeMemory_vacant (by decide) j h1 h2
  obtain ⟨v, hv⟩ := createPages_returns (d := 1) (v := 1024) shr.addr 524288 0
    ({ (sharingInit largeKernel).locked with kernel := k }.insert shr) (by decide)
    (fun j h1 h2 => by
      show (k.mem.table 1 _).isSome
      rw [hw.table]
      simp only [largeMemory]
      rw [if_neg (by decide), if_pos ⟨trivial, by omega⟩]
      rfl) hvac hfree
  have hc : createSharedObject 1 7 [97, 0] largeSize 1 (1024 * 4096) (sharingInit largeKernel) =
      .ok shr.ID v.unlocked :=
    create_returns rfl rfl ha (by decide) (by rw [hn]; exact hv)
  have hID : 0 ≤ shr.ID := by
    rw [hnew]
    exact Int.emod_nonneg _ (by decide)
  -- what the create did to the list and to the pages of directory 2
  obtain ⟨-, -, -, f, hM, hfound⟩ := create_pages largeKernel_ready (by decide) (by decide)
    (largeMemory_vacant (by decide)) hc hID
  have hvac' : Vacant v.unlocked.kernel.mem 2 1024 0 524288 := by
    intro j h1 h2
    rw [hM.other 2 (1024 + j) (by simp only [userPages]; omega) (fun h => absurd h.1 (by decide))]
    exact largeMemory_vacant (by decide) j h1 h2
  obtain ⟨shr', hl⟩ : ∃ shr', v.unlocked.lookup 7 [97, 0] = some shr' := by
    have hlabels := (createPages_same hv).labels
    rw [← Option.isSome_iff_exists, Shares.lookup, List.find?_isSome]
    obtain ⟨shr', hmem, hlab⟩ := (createPages_same hv).symm.mem (List.mem_cons_self (a := shr) (l := []))
    simp only [Share.label, Prod.mk.injEq] at hlab
    refine ⟨shr', hmem, ?_⟩
    rw [hlab.2.2.1, hlab.2.2.2, hnew]
    show decide ((7 : Int) = 7 ∧ strcmp [97, 0] (strncpy [97, 0] 63 ++ [0]) = 0) = true
    decide
  obtain ⟨hID', hsz, -⟩ := hfound shr' hl
  have hcount : shr'.numOfFrames = 0 := by
    rw [numOfFrames_eq _ hsz (by decide)]
    rfl
  have hg : getSharedObject 2 7 [97, 0] (1024 * 4096) v.unlocked = .ok shr'.ID _ :=
    get_returns (k := v.kernel) rfl hl (by rw [hcount]; rfl)
  exact ⟨_, _, _, _, _, largeKernel_ready, largeMemory_vacant (by decide), hc, hID, hvac', hg, by rw [hID']; exact hID,
    large_not_shared (k := v.kernel) shr' (by decide) hvac' rfl rfl⟩

end Fos.Shared
