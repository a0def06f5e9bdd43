/-
`PROGRAM_SEGMENT_FIRST`, `PROGRAM_SEGMENT_NEXT` and `PROGRAM_SEGMENT_FOREACH` of `kern/proc/user_environment.c`: the
program headers of an ELF image are gone through for those that are loaded. The indices of the headers that are read are
recorded. The loops look at the type of a header before they ask whether there is one.
-/
import Fos.Proc.Loader

namespace Fos.Proc

/-! ## The code -/

/-- What is read of `struct Proghdr`. -/
structure Proghdr where
  pType : Nat
  pOffset : Nat
  pVa : Nat
  pFilesz : Nat
  pMemsz : Nat
  deriving DecidableEq, Repr

/-- The image of a program: its bytes, and what the memory at `e_phoff` holds as an array of headers, of which the first
`e_phnum` are the table. -/
structure ElfImage where
  eMagic : Nat
  ePhnum : UInt16
  ph : Nat → Proghdr
  bytes : Nat → UInt8

def elfMagic : Nat := 0x464C457F

def elfProgLoad : Nat := 1

/-- A segment and `segment_id`, its place in the table. -/
structure SegmentCursor extends ProgramSegment where
  segmentId : Nat

/-- The loop of both functions: the place where it stops and the headers it reads. -/
def findLoad (elf : ElfImage) : Nat → Nat → Option (Nat × List Nat)
  | 0, _ => none
  | fuel + 1, segmentId =>
    if (elf.ph segmentId).pType ≠ elfProgLoad ∧ segmentId < elf.ePhnum.toNat then
      (findLoad elf fuel (segmentId + 1)).map fun r => (r.1, segmentId :: r.2)
    else some (segmentId, [segmentId])

/-- The segment of a header. -/
def segmentAt (elf : ElfImage) (index : Nat) : SegmentCursor where
  ptrStart k := elf.bytes ((elf.ph index).pOffset + k)
  sizeInFile := (elf.ph index).pFilesz
  sizeInMemory := (elf.ph index).pMemsz
  virtualAddress := (elf.ph index).pVa
  segmentId := index

/-- What both functions do from `segmentId` on: the segment, if there is one, and the headers that are read. -/
def segmentFrom (elf : ElfImage) (fuel segmentId : Nat) : Option (Res (Option SegmentCursor × List Nat)) :=
  if elf.eMagic ≠ elfMagic then some (.error (.panic "Matafa2nash 3ala Keda"))
  else
    match findLoad elf fuel segmentId with
    | none => none
    | some (index, reads) =>
      if index < elf.ePhnum.toNat then some (.ok (some (segmentAt elf index), reads ++ [index]))
      else some (.ok (none, reads))

/-- The `segment_id` `-1`. -/
def noSegment : Nat := 4294967295

/-- `PROGRAM_SEGMENT_FIRST`; where there is none the rest of `seg` is what its memory held. -/
def programSegmentFirst (elf : ElfImage) (fuel : Nat) (seg : SegmentCursor) : Option (Res (SegmentCursor × List Nat)) :=
  (segmentFrom elf fuel 0).map fun r => r.map fun t => (t.1.getD { seg with segmentId := noSegment }, t.2)

/-- `PROGRAM_SEGMENT_NEXT`; where there is none it returns a null pointer. -/
def programSegmentNext (elf : ElfImage) (fuel : Nat) (seg : SegmentCursor) :
    Option (Res (Option SegmentCursor × List Nat)) :=
  segmentFrom elf fuel (seg.segmentId + 1)

/-- The rounds of `PROGRAM_SEGMENT_FOREACH` from a segment on, or from where there is none: the segments and the headers
that are read. -/
def segmentRounds (elf : ElfImage) (limit : Nat) :
    Nat → Option SegmentCursor → Option (Res (List SegmentCursor × List Nat))
  | 0, _ => none
  | _ + 1, none => some (.ok ([], []))
  | fuel + 1, some seg =>
    match programSegmentNext elf limit seg with
    | none => none
    | some (.error e) => some (.error e)
    | some (.ok (next, reads)) =>
      (segmentRounds elf limit fuel next).map fun r => r.map fun t => (seg :: t.1, reads ++ t.2)

/-- `PROGRAM_SEGMENT_FOREACH`, with a bound on the rounds of each loop. -/
def programSegmentForeach (elf : ElfImage) (fuel : Nat) (tmp : SegmentCursor) :
    Option (Res (List SegmentCursor × List Nat)) :=
  match programSegmentFirst elf fuel tmp with
  | none => none
  | some (.error e) => some (.error e)
  | some (.ok (seg, reads)) =>
    let first := if seg.segmentId = noSegment then none else some seg
    (segmentRounds elf fuel fuel first).map fun r => r.map fun t => (t.1, reads ++ t.2)

/-! ## The headers that are found and those that are read -/

/-- The loaded headers from `i` on, in order. -/
def loadsFrom (elf : ElfImage) (i : Nat) : List Nat :=
  (List.range' i (elf.ePhnum.toNat - i)).filter fun k => (elf.ph k).pType == elfProgLoad

section Headers

variable {elf : ElfImage} {c f fuel i j k : Nat}

theorem loadsFrom_end (h : elf.ePhnum.toNat ≤ i) : loadsFrom elf i = [] := by
  rw [loadsFrom, Nat.sub_eq_zero_of_le h]
  rfl

theorem loadsFrom_succ (h : i < elf.ePhnum.toNat) :
    loadsFrom elf i = if (elf.ph i).pType = elfProgLoad then i :: loadsFrom elf (i + 1) else loadsFrom elf (i + 1) := by
  obtain ⟨n, hn⟩ := Nat.exists_eq_add_of_lt h
  have hlen : elf.ePhnum.toNat - i = (elf.ePhnum.toNat - (i + 1)) + 1 := by omega
  rw [loadsFrom, hlen, List.range'_succ, List.filter_cons]
  simp only [beq_iff_eq]
  rfl

/-- The loop stops at the next loaded header, or behind the table; it has read all headers up to there. -/
theorem findLoad_spec : ∀ {f i : Nat}, i ≤ elf.ePhnum.toNat → elf.ePhnum.toNat - i < f →
    ∃ j reads, i ≤ j ∧ j ≤ elf.ePhnum.toNat ∧ findLoad elf f i = some (j, reads) ∧ j ∈ reads ∧
      (∀ k ∈ reads, k ≤ j) ∧ (j < elf.ePhnum.toNat → (elf.ph j).pType = elfProgLoad) ∧ loadsFrom elf i = loadsFrom elf j
  | 0, i, _, h => absurd h (by omega)
  | f + 1, i, hi, hfuel => by
    rw [findLoad]
    by_cases hgo : (elf.ph i).pType ≠ elfProgLoad ∧ i < elf.ePhnum.toNat
    · obtain ⟨j, reads, hij, hj, hrun, hmem, hle, hload, hsame⟩ := findLoad_spec (f := f) (i := i + 1) hgo.2 (by omega)
      refine ⟨j, i :: reads, by omega, hj, ?_, List.mem_cons_of_mem i hmem, List.forall_mem_cons.2 ⟨by
        omega, hle⟩, hload, ?_⟩
      · rw [if_pos hgo, hrun]
        rfl
      · rw [loadsFrom_succ hgo.2, if_neg hgo.1, hsame]
    · refine ⟨i, [i], le_rfl, hi, if_neg hgo, List.mem_singleton_self i, by simp, fun hlt => ?_, rfl⟩
      by_contra hne
      exact hgo ⟨hne, hlt⟩

/-- From a place of the table on there is no more segment and the header behind the table was read, or the segment of
the next loaded header. -/
theorem segmentFrom_spec (hmagic : elf.eMagic = elfMagic) (hi : i ≤ elf.ePhnum.toNat)
    (hfuel : elf.ePhnum.toNat - i < f) :
    ∃ reads, (∀ k ∈ reads, k ≤ elf.ePhnum.toNat) ∧
      ((loadsFrom elf i = [] ∧ segmentFrom elf f i = some (.ok (none, reads)) ∧ elf.ePhnum.toNat ∈ reads) ∨
        ∃ j, i ≤ j ∧ j < elf.ePhnum.toNat ∧ loadsFrom elf i = j :: loadsFrom elf (j + 1) ∧
          segmentFrom elf f i = some (.ok (some (segmentAt elf j), reads))) := by
  obtain ⟨j, reads, hij, hj, hrun, hmem, hle, hload, hsame⟩ := findLoad_spec hi hfuel
  unfold segmentFrom
  rw [if_neg (not_not.2 hmagic), hrun]
  by_cases hlt : j < elf.ePhnum.toNat
  · refine ⟨reads ++ [j], fun k hk => ?_, .inr ⟨j, hij, hlt, ?_, if_pos hlt⟩⟩
    · rcases List.mem_append.1 hk with hk | hk
      · exact (hle k hk).trans hj
      · rw [List.mem_singleton.1 hk]
        exact hj
    · rw [hsame, loadsFrom_succ hlt, if_pos (hload hlt)]
  · obtain rfl : j = elf.ePhnum.toNat := by omega
    refine ⟨reads, hle, .inl ⟨?_, if_neg hlt, hmem⟩⟩
    rw [hsame, loadsFrom_end le_rfl]

/-- The rounds from the segment of a header on: it and the later ones, and at the end the header behind the table. -/
theorem segmentRounds_spec (hmagic : elf.eMagic = elfMagic) (hlimit : elf.ePhnum.toNat < c) :
    ∀ {f i : Nat}, i < elf.ePhnum.toNat → elf.ePhnum.toNat - i < f →
      ∃ reads, segmentRounds elf c f (some (segmentAt elf i)) =
          some (.ok ((i :: loadsFrom elf (i + 1)).map (segmentAt elf), reads)) ∧
        elf.ePhnum.toNat ∈ reads ∧ ∀ k ∈ reads, k ≤ elf.ePhnum.toNat
  | 0, i, _, h => absurd h (by omega)
  | f + 1, i, hi, hfuel => by
    have hnext : programSegmentNext elf c (segmentAt elf i) = segmentFrom elf c (i + 1) := rfl
    obtain ⟨reads, hle, ⟨hnone, hrun, hmem⟩ | ⟨j, hij, hj, hloads, hrun⟩⟩ := segmentFrom_spec (i := i + 1) (f := c)
      hmagic hi (by omega)
    · obtain ⟨f, rfl⟩ : ∃ g, f = g + 1 := ⟨f - 1, by omega⟩
      refine ⟨reads, ?_, hmem, hle⟩
      simp only [segmentRounds, hnext, hrun, hnone, Option.map_some, Except.map, List.append_nil, List.map_cons,
        List.map_nil]
    · obtain ⟨reads', hrest, hmem, hle'⟩ := segmentRounds_spec hmagic hlimit (f := f) hj (by omega)
      refine ⟨reads ++ reads', ?_, List.mem_append_right reads hmem, fun k hk => ?_⟩
      · simp only [segmentRounds, hnext, hrun, hrest, hloads, Option.map_some, Except.map, List.map_cons]
      · exact (List.mem_append.1 hk).elim (hle k) (hle' k)

/-- Whatever the table, the loop goes through the loaded headers in order; and it reads the header behind the table, and
none further on. -/
theorem program_segments (hmagic : elf.eMagic = elfMagic) (hfuel : elf.ePhnum.toNat < fuel) (tmp : SegmentCursor) :
    ∃ reads, programSegmentForeach elf fuel tmp = some (.ok ((loadsFrom elf 0).map (segmentAt elf), reads)) ∧
      (∀ k ∈ reads, k ≤ elf.ePhnum.toNat) ∧ ¬ ∀ k ∈ reads, k < elf.ePhnum.toNat := by
  have hlt : elf.ePhnum.toNat < 65536 := elf.ePhnum.toNat_lt
  have hbad : ∀ {reads : List Nat}, elf.ePhnum.toNat ∈ reads → ¬ ∀ k ∈ reads, k < elf.ePhnum.toNat :=
    fun hmem hall => absurd (hall _ hmem) (lt_irrefl _)
  unfold programSegmentForeach programSegmentFirst
  obtain ⟨reads, hle, ⟨hnone, hrun, hmem⟩ | ⟨j, -, hj, hloads, hrun⟩⟩ := segmentFrom_spec (i := 0) (f := fuel) hmagic
    (Nat.zero_le _) (by omega)
  · obtain ⟨fuel, rfl⟩ : ∃ f, fuel = f + 1 := ⟨fuel - 1, by omega⟩
    refine ⟨reads, ?_, hle, hbad hmem⟩
    simp only [hrun, hnone, Option.map_some, Except.map, Option.getD_none, if_true, segmentRounds, List.append_nil,
      List.map_nil]
  · obtain ⟨reads', hrest, hmem, hle'⟩ := segmentRounds_spec (f := fuel) hmagic hfuel hj (by omega)
    have hid : ¬ (segmentAt elf j).segmentId = noSegment := by
      have hseg : (segmentAt elf j).segmentId = j := rfl
      rw [hseg, noSegment]
      omega
    refine ⟨reads ++ reads', ?_, fun k hk => (List.mem_append.1 hk).elim (hle k) (hle' k),
      hbad (List.mem_append_right reads hmem)⟩
    simp only [hrun, hloads, Option.map_some, Except.map, Option.getD_some, if_neg hid, hrest]

end Headers

/-- Two headers, the second one loaded. -/
def twoHeaders : ElfImage where
  eMagic := elfMagic
  ePhnum := 2
  ph k := ⟨if k = 1 then 1 else 0, 4096, 8388608, 512, 512⟩
  bytes _ := 0

/-- The segment before it is set. -/
def blankSegment : SegmentCursor := ⟨⟨fun _ => 0, 0, 0, 0⟩, 0⟩

theorem program_segments_two : ∃ reads,
    programSegmentForeach twoHeaders 3 blankSegment = some
      (.ok ((loadsFrom twoHeaders 0).map (segmentAt twoHeaders), reads)) ∧
      (∀ k ∈ reads, k ≤ twoHeaders.ePhnum.toNat) ∧ ¬ ∀ k ∈ reads, k < twoHeaders.ePhnum.toNat :=
  program_segments rfl (by decide) blankSegment

/-- The header with index 2 is read of a table of two headers. -/
theorem program_segments_beyond :
    ∃ segs, programSegmentForeach twoHeaders 3 blankSegment = some (.ok (segs, [0, 1, 1, 2])) ∧
      ¬ ∀ k ∈ [0, 1, 1, 2], k < twoHeaders.ePhnum.toNat :=
  ⟨_, rfl, by decide⟩

end Fos.Proc
