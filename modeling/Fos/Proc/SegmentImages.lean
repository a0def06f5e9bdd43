/-
The two images of a segment, the one in memory and the one in the page file: when they agree and have the bytes of
the segment, and when the page file has what it had everywhere else.
-/
import Fos.Proc.WrittenPages
import Fos.Disk.PageFileRun

namespace Fos.Proc

open Fos.Memory Fos.Heap Fos.Disk Fos.Lib

/-! ## Bytes -/

/-- The byte that the page file has for a page of a process, with process `e` in state `s`. -/
def fileByte (env : Nat → Env) (e : Nat) (s : Machine) (x : Nat × Nat) (j : Nat) : Option UInt8 :=
  (diskCell (Function.update env e s.env) x).map fun f => s.pageFile.disk f j

/-- The byte at `va`, where an access finds a page. -/
def readByte (s : Machine) (va : Nat) : Option UInt8 :=
  if s.present va then some (s.frames (s.pte va).frame (va % 4096)) else none

/-- All that the page file has, as a map. -/
def exactMap (env : Nat → Env) (e : Nat) (s : Machine) : DiskMap := fun x =>
  (diskCell (Function.update env e s.env) x).map fun f => some (s.pageFile.disk f)

section Bytes

variable {env : Nat → Env} {e v i j n : Nat} {m : DiskMap} {φ : Nat → Nat} {p : Page} {x : Nat × Nat} {s t : Machine}

theorem exact_represents (h : Represents env e m s) : Represents env e (exactMap env e s) s := by
  refine ⟨h.tables, h.backed, fun x => Option.map_eq_none_iff, fun x f p hf hp => ?_⟩
  rw [exactMap, hf] at hp
  exact Option.some.inj (Option.some.inj hp)

theorem fileByte_stored (h : Represents env e m s) (hx : m x = some (some p)) :
    fileByte env e s x j = some (p j) := by
  cases hc : diskCell (Function.update env e s.env) x with
  | none =>
    rw [(h.stores.dom x).2 hc] at hx
    cases hx
  | some f =>
    rw [fileByte, hc, Option.map_some, h.stores.val x f p hc hx]

/-- A page whose entry in the exact map is kept has the bytes it had. -/
theorem fileByte_kept (h : Represents env e m t) (hx : m x = exactMap env e s x) :
    fileByte env e t x j = fileByte env e s x j := by
  cases hc : diskCell (Function.update env e s.env) x with
  | none =>
    rw [exactMap, hc, Option.map_none, h.stores.dom] at hx
    rw [fileByte, fileByte, hc, hx, Option.map_none, Option.map_none]
  | some f =>
    rw [exactMap, hc, Option.map_some] at hx
    rw [fileByte_stored h hx, fileByte, hc, Option.map_some]

theorem fileByte_cell {b : UInt8} (h : fileByte env e s (e, v) j = some b) : diskEntry s.env v ≠ 0 := by
  intro h0
  rw [fileByte, diskCell_self, if_pos h0] at h
  cases h

/-- Pages that the process finds where they are mapped. -/
theorem readByte_of_maps (hm : Maps s.env.envPageDirectory v n φ s.mem) (hi : i < n) (hv : v + i < userPages)
    (hj : j < 4096) :
    readByte s ((v + i) * 4096 + j) = some (s.frames (φ i) j) := by
  have hpage : ((v + i) * 4096 + j) / 4096 = v + i ∧ ((v + i) * 4096 + j) % 4096 = j := by omega
  have huser : (v + i) * 4096 + j < userTop := by
    simp only [userTop, userPages] at *
    omega
  obtain ⟨-, hown, hslot, hpdx⟩ := user_address huser s.env.envPageDirectory
  rw [hpage.1] at hslot hpdx
  obtain ⟨hframe, hpres⟩ := hm i hi
  have ht : (s.mem.table s.env.envPageDirectory ((v + i) / 1024)).isSome := by
    by_contra hno
    rw [userEntry, if_neg hno] at hpres
    cases hpres
  rw [userEntry, if_pos ht] at hframe hpres
  have hthere : s.present ((v + i) * 4096 + j) = true := by
    rw [Machine.present, Machine.hasTable, Machine.pte, hown, hslot, hpdx, ht, hpres]
    rfl
  rw [readByte, if_pos hthere, Machine.pte, hslot, hframe, hpage.2]

theorem Maps.within {d : Nat} {m m' : Mem} (h : Maps d v n φ m) (hw : Within m m') (hv : v + n ≤ userPages) :
    Maps d v n φ m' := by
  intro i hi
  rw [userEntry_within hw (by omega)]
  exact h i hi

end Bytes

/-! ## One segment -/

section Segment

variable {env : Nat → Env} {e v j k n : Nat} {m : DiskMap} {seg : ProgramSegment} {s t : Loading}

/-- What the page file has once a segment is written, and what is left of what it had. -/
structure SegmentWritten (env : Nat → Env) (e : Nat) (seg : ProgramSegment) (s t : Machine) : Prop where
  file : ∀ v ∈ writtenPages seg, ∀ j < 4096, fileByte env e t (e, v) j = some (writtenByte seg v j)
  other : ∀ x, ¬ (x.1 = e ∧ x.2 ∈ writtenPages seg) → ∀ j, fileByte env e t x j = fileByte env e s x j
  cell : ∀ x, ¬ (x.1 = e ∧ x.2 ∈ writtenPages seg) ∨ x.1 = e ∧ diskEntry s.env x.2 ≠ 0 →
    diskCell (Function.update env e t.env) x = diskCell (Function.update env e s.env) x

/-- The body of the loop over the segments. -/
theorem loadSegment_ok (hL : Loadable seg) (h : Represents env e m s.machine) (hd : s.machine.env.envPageDirectory ≠ 0)
    (hr : loadSegment seg n s = .ok k t) :
    k = min (maxLoaded s.progName (firstPage seg * 4096) n) (endPage seg - firstPage seg) ∧
      SegmentWritten env e seg s.machine t.machine ∧
      ∃ φ : Nat → Nat, (0 < k → s.machine.mem.freeFrameList.head? = some (φ 0)) ∧ ∀ i < k, ∀ j < 4096,
        readByte t.machine ((firstPage seg + i) * 4096 + j) =
          some (if seg.virtualAddress ≤ (firstPage seg + i) * 4096 + j then seg.byte ((firstPage seg + i) * 4096 + j)
            else s.machine.frames (φ i) j) := by
  unfold loadSegment at hr
  obtain ⟨k', u, h1, hr⟩ := ok_of_bind hr
  obtain ⟨_, w, h2, hr⟩ := ok_of_bind hr
  cases hr
  obtain ⟨a, ha, rfl⟩ := onProcess_ok h2
  obtain ⟨hk, φ, hS⟩ := programSegment_ok hL h.tables hd h1
  have hu : Represents env e (exactMap env e s.machine) u.machine :=
    (exact_represents h).congr hS.tables hS.pageFile hS.disk
  obtain ⟨hR, hA⟩ := writeSegment_ok hL hu ha
  refine ⟨hk, ⟨fun v hv j hj => ?_, fun x hx j => ?_, fun x hx => ?_⟩, φ, hS.first, fun i hi j hj => ?_⟩
  · obtain ⟨p, hp, hbytes⟩ := writtenMap_page (e := e) (m := exactMap env e s.machine) hL hv
    rw [fileByte_stored hR hp, hbytes j hj]
  · refine fileByte_kept hR (writtenMap_other hL (fun hc => hx ⟨hc.1, .inl hc.2⟩) ?_)
    rintro rfl
    exact hx ⟨rfl, .inr rfl⟩
  · unfold diskCell
    by_cases hxe : x.1 = e
    · rw [hxe, Function.update_self, Function.update_self, hA.entries, hS.disk]
      rw [hS.disk]
      exact hx.imp (fun hn hw => hn ⟨hxe, hw⟩) And.right
    · rw [Function.update_of_ne hxe, Function.update_of_ne hxe]
  · have hend := hL.endPage_lt
    have hmaps := hS.maps.within hA.user (by omega)
    rw [← hA.dir] at hmaps
    rw [readByte_of_maps hmaps hi (by omega) hj]
    show some (a.frames (φ i) j) = _
    rw [hA.frames]
    split
    · rename_i hb
      rw [hS.bytes i hi j hj hb]
    · rename_i hb
      rw [hS.before i hi j hj (not_le.1 hb)]

/-! ## When the images are right -/

/-- The images of a segment with `k` pages in memory: they agree and have the bytes of the segment, and the entries of
all other pages in the page file are as they were. -/
structure SegmentImages (env : Nat → Env) (e : Nat) (seg : ProgramSegment) (k : Nat) (s t : Machine) : Prop where
  agree : ∀ v, SegmentPage seg v → v < firstPage seg + k → ∀ j < 4096,
    readByte t (v * 4096 + j) = fileByte env e t (e, v) j
  bytes : ∀ v, SegmentPage seg v → ∀ j < 4096, fileByte env e t (e, v) j = some (seg.byte (v * 4096 + j))
  others : ∀ x, ¬ (x.1 = e ∧ SegmentPage seg x.2) →
    diskCell (Function.update env e t.env) x = diskCell (Function.update env e s.env) x ∧
      ∀ j < 4096, fileByte env e t x j = fileByte env e s x j

/-- A segment the loader gets right: nothing is before it in its first page, or zeros in the frame that page gets;
the bytes of the file do not end in the first page, or the file repeats them a page later; and they do not end with the
last page, or the page after it had zeros in the page file before. -/
structure SegmentFits (env : Nat → Env) (e : Nat) (seg : ProgramSegment) (n : Nat) (s : Loading) : Prop where
  start : seg.virtualAddress % 4096 = 0 ∨ maxLoaded s.progName (firstPage seg * 4096) n = 0 ∨
    ∀ f ∈ s.machine.mem.freeFrameList.head?, ∀ j < seg.virtualAddress % 4096, s.machine.frames f j = 0
  first : nextPage seg ≤ lastPage seg ∨ ∀ j < seg.virtualAddress % 4096 + seg.sizeInFile,
    seg.ptrStart (4096 - seg.virtualAddress % 4096 + j) = seg.byte (firstPage seg * 4096 + j)
  last : (seg.virtualAddress + seg.sizeInFile) % 4096 ≠ 0 ∨ seg.sizeInFile < seg.sizeInMemory ∨
    ∀ j < 4096, fileByte env e s.machine (e, lastPage seg) j = some 0

/-- The bytes of the file end in the first page. -/
theorem Loadable.inFirst (h : Loadable seg) (hin : lastPage seg < nextPage seg) :
    lastPage seg = firstPage seg ∧ SegmentPage seg (firstPage seg) ∧
      seg.virtualAddress % 4096 + seg.sizeInFile < 4096 := by
  have horder := h.order
  have hfile : firstPage seg * 4096 + seg.virtualAddress % 4096 = seg.virtualAddress ∧
      seg.virtualAddress + seg.sizeInFile < lastPage seg * 4096 + 4096 := by
    simp only [firstPage, lastPage]
    omega
  have hlast : lastPage seg = firstPage seg := by omega
  rw [hlast] at hfile
  exact ⟨hlast, ⟨le_rfl, by omega⟩, by omega⟩

/-- Where the bytes of the file end is a page of the segment, or the one after it. -/
theorem Loadable.outside (h : Loadable seg) :
    ¬ SegmentPage seg (lastPage seg) ↔ (seg.virtualAddress + seg.sizeInFile) % 4096 = 0 ∧
      ¬ seg.sizeInFile < seg.sizeInMemory := by
  have hf := h.fits
  simp only [SegmentPage, firstPage, lastPage, endPage]
  omega

theorem writtenByte_outside (h : Loadable seg) (hout : ¬ SegmentPage seg (lastPage seg)) (j : Nat) :
    writtenByte seg (lastPage seg) j = 0 := by
  obtain ⟨h0, hs⟩ := h.outside.1 hout
  have hnot : ¬ lastPage seg < nextPage seg := fun hin => hout ((h.inFirst hin).1 ▸ (h.inFirst hin).2.1)
  have hlast : lastPage seg * 4096 = seg.virtualAddress + seg.sizeInFile := by
    simp only [lastPage]
    omega
  rw [writtenByte, if_neg fun hc => hnot hc.1, ProgramSegment.byte, if_neg (by omega)]

/-- The first page has the bytes of the segment in the page file where the file repeats them, or is longer. -/
theorem writtenByte_iff (h : Loadable seg) :
    (∀ v, SegmentPage seg v → ∀ j < 4096, writtenByte seg v j = seg.byte (v * 4096 + j)) ↔
      (nextPage seg ≤ lastPage seg ∨ ∀ j < seg.virtualAddress % 4096 + seg.sizeInFile,
        seg.ptrStart (4096 - seg.virtualAddress % 4096 + j) = seg.byte (firstPage seg * 4096 + j)) := by
  constructor
  · rintro hw
    refine (Nat.lt_or_ge (lastPage seg) (nextPage seg)).symm.imp_right fun hin j hj => ?_
    obtain ⟨-, hpage, hlt⟩ := h.inFirst hin
    have hb := hw (firstPage seg) hpage j (by omega)
    rwa [writtenByte, if_pos ⟨hin, rfl⟩, if_pos hj] at hb
  · rintro hfits v hv j -
    by_cases hc : lastPage seg < nextPage seg ∧ v = firstPage seg
    · obtain ⟨hin, rfl⟩ := hc
      have hpage : firstPage seg * 4096 + seg.virtualAddress % 4096 = seg.virtualAddress := by
        simp only [firstPage]
        omega
      rw [writtenByte, if_pos ⟨hin, rfl⟩]
      split
      · rename_i hj
        exact hfits.resolve_left (not_le.2 hin) j hj
      · rename_i hj
        rw [ProgramSegment.byte, if_neg (by omega)]
    · rw [writtenByte, if_neg hc]

/-- The images that `env_create` makes of a segment, in memory and in the page file, agree on every page of the segment,
have its bytes and leave the other pages of the page file alone exactly when the segment fits the loader. -/
theorem segment_images_agree_iff (hL : Loadable seg) (h : Represents env e m s.machine)
    (hd : s.machine.env.envPageDirectory ≠ 0) (hr : loadSegment seg n s = .ok k t) :
    k = min (maxLoaded s.progName (firstPage seg * 4096) n) (endPage seg - firstPage seg) ∧
      (SegmentImages env e seg k s.machine t.machine ↔ SegmentFits env e seg n s) := by
  obtain ⟨hk, hW, φ, hfree, hread⟩ := loadSegment_ok hL h hd hr
  have hpage : firstPage seg * 4096 + seg.virtualAddress % 4096 = seg.virtualAddress := by
    simp only [firstPage]
    omega
  refine ⟨hk, fun hI => ⟨?_, ?_, ?_⟩, fun hF => ⟨?_, ?_, ?_⟩⟩
  · -- the first page in memory has what its frame had before the segment, and zeros in the page file
    by_cases h0 : seg.virtualAddress % 4096 = 0
    · exact .inl h0
    by_cases hmax : maxLoaded s.progName (firstPage seg * 4096) n = 0
    · exact .inr (.inl hmax)
    have horder := hL.order
    have hk0 : 0 < k := by
      rw [hk]
      exact lt_min (Nat.pos_of_ne_zero hmax) (by omega)
    refine .inr (.inr fun f hf j hj => ?_)
    rw [hfree hk0] at hf
    cases hf
    have hjb : j < 4096 := by omega
    have hv : SegmentPage seg (firstPage seg) := ⟨le_rfl, by omega⟩
    have hread := hread 0 hk0 j hjb
    rw [Nat.add_zero, if_neg (by omega), hI.agree _ hv (by omega) j hjb, hI.bytes _ hv j hjb, ProgramSegment.byte,
      if_neg (by omega)] at hread
    exact (Option.some.inj hread).symm
  · refine (writtenByte_iff hL).1 fun v hv j hj => ?_
    have hfile := hW.file v (.inl hv) j hj
    rw [hI.bytes v hv j hj] at hfile
    exact (Option.some.inj hfile).symm
  · by_cases hout : SegmentPage seg (lastPage seg)
    · have := mt hL.outside.2 (not_not.2 hout)
      by_cases h0 : (seg.virtualAddress + seg.sizeInFile) % 4096 = 0
      · exact .inr (.inl (by omega))
      · exact .inl h0
    · refine .inr (.inr fun j hj => ?_)
      rw [← (hI.others (e, lastPage seg) fun hc => hout hc.2).2 j hj, hW.file _ (.inr rfl) j hj,
        writtenByte_outside hL hout]
  · rintro v hv hvk j hj
    obtain ⟨i, rfl⟩ : ∃ i, v = firstPage seg + i := ⟨v - firstPage seg, by have := hv.1; omega⟩
    have hi : i < k := by omega
    rw [hread i hi j hj, hW.file _ (.inl hv) j hj, (writtenByte_iff hL).2 hF.first _ hv j hj]
    split
    · rfl
    · rename_i hb
      obtain rfl : i = 0 := by omega
      have hbefore : j < seg.virtualAddress % 4096 := by omega
      rw [ProgramSegment.byte, if_neg fun hc => hb hc.1]
      rcases hF.start with h0 | hmax | hzero
      · omega
      · rw [hmax, Nat.zero_min] at hk
        omega
      · rw [hzero _ (hfree hi) j hbefore]
  · intro v hv j hj
    rw [hW.file v (.inl hv) j hj, (writtenByte_iff hL).2 hF.first v hv j hj]
  · rintro ⟨e', v⟩ hx
    by_cases hlast : e' = e ∧ v = lastPage seg
    · obtain ⟨rfl, rfl⟩ := hlast
      have hout : ¬ SegmentPage seg (lastPage seg) := fun hc => hx ⟨rfl, hc⟩
      have hzero := (hF.last.resolve_left (not_not.2 (hL.outside.1 hout).1)).resolve_left (hL.outside.1 hout).2
      have hcell := fileByte_cell (hzero 0 (by decide))
      refine ⟨hW.cell _ (.inr ⟨rfl, hcell⟩), fun j hj => ?_⟩
      rw [hzero j hj, hW.file _ (.inr rfl) j hj, writtenByte_outside hL hout]
    · have hnot : ¬ (e' = e ∧ v ∈ writtenPages seg) := by
        rintro ⟨he, hv | hv⟩
        · exact hx ⟨he, hv⟩
        · exact hlast ⟨he, hv⟩
      exact ⟨hW.cell _ (.inl hnot), fun j _ => hW.other _ hnot j⟩

end Segment

/-! ## A process at boot -/

/-- The kernel once its heap is there. -/
def heapKernel : Kernel := (kheapInit (unusedKernel Heap.machine)).toOption.getD (unusedKernel Heap.machine)

theorem heapKernel_eq : kheapInit (unusedKernel Heap.machine) = .ok heapKernel := rfl

/-- The page file at boot, with its first free frames. -/
def newPageFile : PageFile := ⟨fun _ => zeroPage, 133119 :: 133118 :: 133117 :: (List.range' 1 133116).reverse⟩

theorem newPageFile_eq : newPageFile = initializeDiskPageFile fun _ => zeroPage := by
  have hlast : ∀ n, (List.range' 1 (n + 3)).reverse = (n + 3) :: (n + 2) :: (n + 1) :: (List.range' 1 n).reverse :=
      fun n => by
    rw [List.range'_1_concat, List.range'_1_concat, List.range'_1_concat]
    simp only [List.reverse_append, List.reverse_singleton, List.singleton_append, Nat.add_comm 1]
  rw [initializeDiskPageFile, show pagesPerFile - 1 = 133116 + 3 from rfl, hlast]
  rfl

/-- Process 7 when its first segment is loaded. -/
def newLoading : Loading where
  machine := ⟨heapKernel, { envPageDirectory := 1, pageWsMaxSize := 10 }, fun _ => zeroPage, newPageFile⟩
  progName := "fact"
  lruLists := false

theorem newLoading_machine : newLoading.machine = (unusedPageFile heapKernel).machine 7 := by
  rw [newLoading, newPageFile_eq]
  rfl

/-- A segment of bytes `1, 0, 0, ...` that starts four bytes before the end of a page. -/
def shortSegment (sizeInFile sizeInMemory : Nat) : ProgramSegment :=
  ⟨fun i => if i = 0 then 1 else 0, sizeInFile, sizeInMemory, 0x800FFC⟩

theorem newLoading_represents :
    Represents (unusedPageFile heapKernel).env 7 (unusedPageFile heapKernel).contents newLoading.machine :=
  newLoading_machine ▸ (unusedPageFile_fresh heapKernel_eq).inv.represents 7

theorem newLoading_run (seg : ProgramSegment) (n : Nat)
    (h : (EStateM.run' (loadSegment seg n) newLoading).any (fun _ => true) = true) :
    ∃ k t, loadSegment seg n newLoading = .ok k t := by
  obtain ⟨k, t, hr, -⟩ := ok_of_run h
  exact ⟨k, t, hr⟩

/-- Four bytes of the file, and four more in the next page. -/
theorem segment_images_agree_iff_boot : ∃ k t, loadSegment (shortSegment 4 8) 1 newLoading = .ok k t ∧
    k = min (maxLoaded newLoading.progName (firstPage (shortSegment 4 8) * 4096) 1)
      (endPage (shortSegment 4 8) - firstPage (shortSegment 4 8)) ∧
    (SegmentImages (unusedPageFile heapKernel).env 7 (shortSegment 4 8) k newLoading.machine t.machine ↔
      SegmentFits (unusedPageFile heapKernel).env 7 (shortSegment 4 8) 1 newLoading) := by
  obtain ⟨k, t, hr⟩ := newLoading_run (shortSegment 4 8) 1 (by decide +kernel)
  exact ⟨k, t, hr, segment_images_agree_iff ⟨by decide, by decide⟩ newLoading_represents (by decide) hr⟩

/-- Two bytes of the file in the first page: the page file gets the bytes that follow them. -/
theorem segment_images_differ : ∃ k t, Loadable (shortSegment 2 4) ∧
    loadSegment (shortSegment 2 4) 1 newLoading = .ok k t ∧
    ¬ SegmentImages (unusedPageFile heapKernel).env 7 (shortSegment 2 4) k newLoading.machine t.machine := by
  have hL : Loadable (shortSegment 2 4) := ⟨by decide, by decide⟩
  obtain ⟨k, t, hr⟩ := newLoading_run (shortSegment 2 4) 1 (by decide +kernel)
  refine ⟨k, t, hL, hr, fun hI => ?_⟩
  obtain ⟨-, hW, -⟩ := loadSegment_ok hL newLoading_represents (by decide) hr
  have hpage : SegmentPage (shortSegment 2 4) 0x800 := ⟨by decide, by decide⟩
  have hbytes := hI.bytes 0x800 hpage 0xFFC (by decide)
  rw [hW.file 0x800 (.inl hpage) 0xFFC (by decide)] at hbytes
  have hne : writtenByte (shortSegment 2 4) 0x800 0xFFC ≠ (shortSegment 2 4).byte (0x800 * 4096 + 0xFFC) := by decide
  exact hne (Option.some.inj hbytes)

end Fos.Proc
