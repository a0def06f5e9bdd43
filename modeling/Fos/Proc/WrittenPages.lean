/-
What the loader leaves in the page file: the map from pages to contents after it wrote a segment, and the contents
it gives each page.
-/
import Fos.Proc.LoadedPages

namespace Fos.Proc

open Fos.Memory Fos.Heap Fos.Disk Fos.Lib

/-! ## Pages one after the other -/

/-- The map with `n` pages of process `e` from page `v` on stored. -/
def storeRange (m : DiskMap) (e v n : Nat) (g : Nat → Page) : DiskMap := fun y =>
  if y.1 = e ∧ v ≤ y.2 ∧ y.2 < v + n then some (some (g y.2)) else m y

theorem storeRange_in {m : DiskMap} {e v n w : Nat} {g : Nat → Page} (h : v ≤ w ∧ w < v + n) :
    storeRange m e v n g (e, w) = some (some (g w)) := if_pos ⟨rfl, h⟩

theorem storeRange_other {m : DiskMap} {e v n : Nat} {g : Nat → Page} {y : Nat × Nat}
    (h : y.1 = e → ¬ (v ≤ y.2 ∧ y.2 < v + n)) : storeRange m e v n g y = m y := if_neg fun hc => h hc.1 hc.2

theorem storeRange_zero (m : DiskMap) (e v : Nat) (g : Nat → Page) : storeRange m e v 0 g = m := by
  funext y
  exact if_neg (by omega)

theorem storeRange_succ (m : DiskMap) (e v n : Nat) (g : Nat → Page) :
    storeRange (m.store (e, v) (g v)) e (v + 1) n g = storeRange m e v (n + 1) g := by
  funext y
  simp only [storeRange, DiskMap.store, Function.update_apply]
  by_cases hy : y = (e, v)
  · subst hy
    rw [if_neg (by dsimp only; omega), if_pos rfl, if_pos ⟨rfl, le_rfl, by dsimp only; omega⟩]
  · rw [if_neg hy]
    have hne : y.1 = e → y.2 ≠ v := fun h1 h2 => hy (Prod.ext h1 h2)
    by_cases hc : y.1 = e ∧ v + 1 ≤ y.2 ∧ y.2 < v + 1 + n
    · rw [if_pos hc, if_pos ⟨hc.1, by omega, by omega⟩]
    · rw [if_neg hc, if_neg fun hc' => hc ⟨hc'.1, by have := hne hc'.1; omega, by omega⟩]

theorem copyToTemp_byte (bytes : Nat → UInt8) : ∀ (n src dst : Nat) (p : Page) (j : Nat),
    copyToTemp bytes src dst p n j = copied bytes src dst n (p j) j
  | 0, src, dst, p, j => by rw [copied, if_neg (by omega)]; rfl
  | n + 1, src, dst, p, j => by
    rw [copyToTemp, copyToTemp_byte bytes n, copied, copied, Function.update_apply]
    by_cases hj : j = dst
    · rw [if_neg (by omega), if_pos hj, if_pos (by omega), hj, Nat.sub_self, Nat.add_zero]
    · rw [if_neg hj]
      by_cases hin : dst + 1 ≤ j ∧ j < dst + 1 + n
      · rw [if_pos hin, if_pos (by omega)]
        congr 1
        omega
      · rw [if_neg hin, if_neg (by omega)]

/-! ## Writing the page file -/

/-- Pages of `P` were written to the page file. The memory of the process is as it was, and so is the entry of every
other page, and of every page that had one. -/
structure Added (P : Set Nat) (s t : Machine) : Prop where
  frames : t.frames = s.frames
  dir : t.env.envPageDirectory = s.env.envPageDirectory
  user : Within s.mem t.mem
  entries : ∀ w, w ∉ P ∨ diskEntry s.env w ≠ 0 → diskEntry t.env w = diskEntry s.env w

section Write

variable {env : Nat → Env} {e va v w n : Nat} {m : DiskMap} {P Q : Set Nat} {s t u : Machine}

theorem Added.refl (P : Set Nat) (s : Machine) : Added P s s := ⟨rfl, rfl, .refl _, fun _ _ => rfl⟩

theorem Added.trans (h : Added P s t) (h' : Added P t u) : Added P s u := by
  refine ⟨h'.frames.trans h.frames, h'.dir.trans h.dir, h.user.trans h'.user, fun w hw => ?_⟩
  have hsame := h.entries w hw
  rw [← hsame] at hw ⊢
  exact h'.entries w hw

theorem Added.mono (h : Added P s t) (hPQ : P ⊆ Q) : Added Q s t :=
  ⟨h.frames, h.dir, h.user, fun w hw => h.entries w (hw.imp_left fun hn hP => hn (hPQ hP))⟩

/-- A page, and those after it. -/
theorem Added.next (h : Added {v} s t) (h' : Added {w | v + 1 ≤ w ∧ w < v + 1 + n} t u) :
    Added {w | v ≤ w ∧ w < v + (n + 1)} s u := by
  refine (h.mono ?_).trans (h'.mono ?_)
  · rintro w rfl
    exact ⟨le_rfl, by omega⟩
  · rintro w ⟨hlo, hhi⟩
    exact ⟨by omega, by omega⟩

theorem pfAddEnvPage_added {p : Page} {r : Bool} (h : Represents env e m s) (hv : va < userTop)
    (hr : pfAddEnvPage va p s = .ok r t) : Added {va / 4096} s t := by
  unfold pfAddEnvPage at hr
  obtain ⟨a, u, h1, hr⟩ := ok_of_bind hr
  obtain ⟨-, hS, -, hF⟩ := diskFrameFor_ok h.tables hv h1
  cases a <;>
  · cases hr
    exact ⟨hS.frames, hS.dir, hS.user, fun w hw => hF.entries hw⟩

theorem addPage_ok {p : Page} (h : Represents env e m s) (hv : v < userPages) (hr : addPage (v * 4096) p s = .ok () t) :
    Represents env e (m.store (e, v) p) t ∧ Added {v} s t := by
  have hva : v * 4096 < userTop := (Nat.mul_lt_mul_of_pos_right hv (by decide)).trans_le (by decide)
  unfold addPage at hr
  obtain ⟨b, u, h1, hr⟩ := ok_of_bind hr
  have hR := (pfAddEnvPage_represents h hva h1).1
  have hA := pfAddEnvPage_added h hva h1
  rw [Nat.mul_div_cancel _ (show 0 < 4096 by decide)] at hR hA
  cases b with
  | true =>
    cases hr
    exact ⟨hR, hA⟩
  | false => cases hr

/-- The loop over the pages between the first and the last one. -/
theorem addPages_ok {bytes : Nat → UInt8} {src : Nat} (h : Represents env e m s) (hv : v + n ≤ userPages)
    (hr : addPages bytes src (v * 4096) n s = .ok () t) :
    Represents env e (storeRange m e v n fun w j => bytes (src + (w - v) * 4096 + j)) t ∧
      Added {w | v ≤ w ∧ w < v + n} s t := by
  induction n generalizing m v s src with
  | zero =>
    cases hr
    rw [storeRange_zero]
    exact ⟨h, .refl _ _⟩
  | succ n ih =>
    unfold addPages at hr
    obtain ⟨_, u, h1, hr⟩ := ok_of_bind hr
    obtain ⟨hR, hS⟩ := addPage_ok h (by omega) h1
    have hnext : v * 4096 + pageSize = (v + 1) * 4096 := by
      rw [pageSize]
      omega
    rw [hnext] at hr
    obtain ⟨hR', hS'⟩ := ih hR (by omega) hr
    refine ⟨?_, hS.next hS'⟩
    have hmap : storeRange (m.store (e, v) fun j => bytes (src + j)) e (v + 1) n
        (fun w j => bytes (src + pageSize + (w - (v + 1)) * 4096 + j)) =
        storeRange m e v (n + 1) fun w j => bytes (src + (w - v) * 4096 + j) := by
      rw [← storeRange_succ]
      simp only [Nat.sub_self, Nat.zero_mul, Nat.add_zero]
      funext y
      unfold storeRange
      by_cases hc : y.1 = e ∧ v + 1 ≤ y.2 ∧ y.2 < v + 1 + n
      · have hsrc : src + pageSize + (y.2 - (v + 1)) * 4096 = src + (y.2 - v) * 4096 := by
          rw [pageSize]
          omega
        rw [if_pos hc, if_pos hc]
        simp only [hsrc]
      · rw [if_neg hc, if_neg hc]
    rwa [hmap] at hR'

theorem addEmptyPages_ok (h : Represents env e m s) (hv : v + n ≤ userPages)
    (hr : addEmptyPages (v * 4096) n s = .ok () t) :
    Represents env e (storeRange m e v n fun _ => zeroPage) t ∧ Added {w | v ≤ w ∧ w < v + n} s t := by
  induction n generalizing m v s with
  | zero =>
    cases hr
    rw [storeRange_zero]
    exact ⟨h, .refl _ _⟩
  | succ n ih =>
    unfold addEmptyPages at hr
    obtain ⟨b, u, h1, hr⟩ := ok_of_bind hr
    have hpage : addPage (v * 4096) zeroPage s = (if b then .ok () u else addPage (v * 4096) zeroPage s) := by
      cases b with
      | true => exact bind_of_ok h1
      | false => rfl
    cases b with
    | false => cases hr
    | true =>
      obtain ⟨hR, hS⟩ := addPage_ok h (by omega) hpage
      have hnext : v * 4096 + pageSize = (v + 1) * 4096 := by
        rw [pageSize]
        omega
      replace hr : addEmptyPages (v * 4096 + pageSize) n u = .ok () t := hr
      rw [hnext] at hr
      obtain ⟨hR', hS'⟩ := ih hR (by omega) hr
      rw [storeRange_succ m e v n fun _ => zeroPage] at hR'
      exact ⟨hR', hS.next hS'⟩

/-! ## A segment -/

/-- The first page that starts in the segment. -/
def nextPage (seg : ProgramSegment) : Nat := (seg.virtualAddress + 4095) / 4096

/-- The page where the bytes of the file end. -/
def lastPage (seg : ProgramSegment) : Nat := (seg.virtualAddress + seg.sizeInFile) / 4096

/-- The first page without bytes of the file. -/
def restPage (seg : ProgramSegment) : Nat := (seg.virtualAddress + seg.sizeInFile + 4095) / 4096

/-- Where the source pointer is once the first page is written. -/
def srcFirst (seg : ProgramSegment) : Nat :=
  if seg.virtualAddress % 4096 ≠ 0 then nextPage seg * 4096 - seg.virtualAddress else 0

def firstContents (seg : ProgramSegment) : Page :=
  copyToTemp seg.ptrStart 0 (seg.virtualAddress % 4096) zeroPage (nextPage seg * 4096 - seg.virtualAddress)

def lastContents (seg : ProgramSegment) : Page :=
  copyToTemp seg.ptrStart (srcFirst seg + (lastPage seg - nextPage seg) * 4096) 0 zeroPage
    (seg.virtualAddress + seg.sizeInFile - lastPage seg * 4096)

/-- The map once the segment of process `e` is written. -/
def writtenMap (seg : ProgramSegment) (e : Nat) (m : DiskMap) : DiskMap :=
  let m := if seg.virtualAddress % 4096 ≠ 0 then m.store (e, firstPage seg) (firstContents seg) else m
  let m := storeRange m e (nextPage seg) (lastPage seg - nextPage seg)
    fun w j => seg.ptrStart (srcFirst seg + (w - nextPage seg) * 4096 + j)
  let m := m.store (e, lastPage seg) (lastContents seg)
  storeRange m e (restPage seg) (endPage seg - restPage seg) fun _ => zeroPage

theorem Loadable.writeAddresses {seg : ProgramSegment} (h : Loadable seg) :
    roundUp seg.virtualAddress pageSize = nextPage seg * 4096 ∧
      sub32 seg.virtualAddress (firstPage seg * 4096) = seg.virtualAddress % 4096 ∧
      roundDown (seg.virtualAddress + seg.sizeInFile) pageSize = lastPage seg * 4096 ∧
      (lastPage seg * 4096 - nextPage seg * 4096) / pageSize = lastPage seg - nextPage seg ∧
      roundUp (seg.virtualAddress + seg.sizeInFile) pageSize = restPage seg * 4096 := by
  have hb := h.bound
  have hf := h.fits
  refine ⟨?_, ?_, ?_, ?_, ?_⟩ <;>
    simp only [roundUp, roundDown, sub32, pageSize, firstPage, nextPage, lastPage, restPage] <;> omega

/-- The pages that have no bytes in the file: none, also where the length wraps. -/
theorem Loadable.remaining {seg : ProgramSegment} (h : Loadable seg) :
    roundUp (sub32 (add32 seg.virtualAddress seg.sizeInMemory) (restPage seg * 4096)) pageSize / pageSize =
      endPage seg - restPage seg := by
  have hb := h.bound
  have hf := h.fits
  rw [add32_of_lt (by omega)]
  simp only [pageSize]
  by_cases hle : restPage seg * 4096 ≤ seg.virtualAddress + seg.sizeInMemory
  · rw [sub32_of_le hle (by omega), roundUp_div _ (by omega)]
    simp only [endPage]
    omega
  · have hlast : restPage seg * 4096 < seg.virtualAddress + seg.sizeInMemory + 4096 := by
      simp only [restPage]
      omega
    have hwraps : 4294963200 < sub32 (seg.virtualAddress + seg.sizeInMemory) (restPage seg * 4096) := by
      unfold sub32
      omega
    rw [roundUp_wraps hwraps (Nat.mod_lt _ (by decide))]
    simp only [endPage]
    omega

/-- Where the pages that the loader tells apart lie. -/
theorem Loadable.order {seg : ProgramSegment} (h : Loadable seg) :
    (firstPage seg = nextPage seg ∧ seg.virtualAddress % 4096 = 0 ∨
      firstPage seg + 1 = nextPage seg ∧ seg.virtualAddress % 4096 ≠ 0) ∧
      firstPage seg ≤ lastPage seg ∧ lastPage seg ≤ restPage seg ∧ restPage seg ≤ lastPage seg + 1 ∧
      restPage seg ≤ endPage seg ∧ nextPage seg ≤ restPage seg := by
  have hf := h.fits
  simp only [firstPage, nextPage, lastPage, restPage, endPage]
  omega

/-- The pages that are written: those of the segment, and the one where the bytes of the file end. -/
def writtenPages (seg : ProgramSegment) : Set Nat := {v | SegmentPage seg v ∨ v = lastPage seg}

/-- Steps 7.3 to 7.5. -/
theorem writeRest_ok {seg : ProgramSegment} (hL : Loadable seg) (h : Represents env e m s)
    (hr : (do
      addPages seg.ptrStart (srcFirst seg) (nextPage seg * 4096) (lastPage seg - nextPage seg)
      addPage (lastPage seg * 4096) (lastContents seg)
      addEmptyPages (restPage seg * 4096) (endPage seg - restPage seg) : PM Unit) s = .ok () t) :
    Represents env e (storeRange ((storeRange m e (nextPage seg) (lastPage seg - nextPage seg)
      fun w j => seg.ptrStart (srcFirst seg + (w - nextPage seg) * 4096 + j)).store (e, lastPage seg)
        (lastContents seg))
      e (restPage seg) (endPage seg - restPage seg) fun _ => zeroPage) t ∧ Added (writtenPages seg) s t := by
  have hend := hL.endPage_lt
  have hfits := hL.fits
  have hbound := hL.bound
  have hpages : nextPage seg + (lastPage seg - nextPage seg) ≤ userPages ∧ lastPage seg < userPages ∧
      restPage seg + (endPage seg - restPage seg) ≤ userPages := by
    simp only [nextPage, lastPage, restPage, endPage, userPages] at *
    omega
  obtain ⟨_, u, h1, hr⟩ := ok_of_bind hr
  obtain ⟨hR, hS⟩ := addPages_ok h hpages.1 h1
  obtain ⟨_, w, h2, hr⟩ := ok_of_bind hr
  obtain ⟨hR', hS'⟩ := addPage_ok hR hpages.2.1 h2
  obtain ⟨hR'', hS''⟩ := addEmptyPages_ok hR' hpages.2.2 hr
  have horder := hL.order
  refine ⟨hR'', ((hS.mono ?_).trans (hS'.mono ?_)).trans (hS''.mono ?_)⟩
  · rintro w ⟨hlo, hhi⟩
    exact .inl ⟨by omega, by omega⟩
  · rintro w rfl
    exact .inr rfl
  · rintro w ⟨hlo, hhi⟩
    exact .inl ⟨by omega, by omega⟩

theorem writeSegment_ok {seg : ProgramSegment} (hL : Loadable seg) (h : Represents env e m s)
    (hr : writeSegment seg s = .ok () t) : Represents env e (writtenMap seg e m) t ∧ Added (writtenPages seg) s t := by
  obtain ⟨hfirst, -, hfile⟩ := hL.addresses
  obtain ⟨hnext, hoff, hlast, hbetween, hrest⟩ := hL.writeAddresses
  unfold writeSegment at hr
  dsimp only at hr
  rw [hfile, hfirst, hoff, hnext, hlast, hbetween, hrest, hL.remaining] at hr
  rw [show (if seg.virtualAddress % 4096 ≠ 0 then nextPage seg * 4096 - seg.virtualAddress else 0) =
    srcFirst seg from rfl] at hr
  unfold writtenMap
  split at hr
  · rename_i h0
    obtain ⟨_, u, h1, hr⟩ := ok_of_bind hr
    have hpage : firstPage seg < userPages := (firstPage_le seg).trans_lt hL.endPage_lt
    obtain ⟨hR, hS⟩ := addPage_ok h hpage h1
    obtain ⟨hR', hS'⟩ := writeRest_ok hL hR hr
    rw [if_pos h0]
    refine ⟨hR', (hS.mono ?_).trans hS'⟩
    rintro w rfl
    have horder := hL.order
    exact .inl ⟨le_rfl, by omega⟩
  · rename_i h0
    rw [if_neg h0]
    exact writeRest_ok hL h hr

end Write

/-! ## The contents -/

/-- The byte at `j` of page `v` once the segment is written. Where the bytes of the file end in the first page, that
page is written again as the last one, with the bytes that follow in the file. -/
def writtenByte (seg : ProgramSegment) (v j : Nat) : UInt8 :=
  if lastPage seg < nextPage seg ∧ v = firstPage seg then
    if j < seg.virtualAddress % 4096 + seg.sizeInFile then seg.ptrStart (4096 - seg.virtualAddress % 4096 + j) else 0
  else seg.byte (v * 4096 + j)

section Contents

variable {seg : ProgramSegment} {e v j : Nat} {m : DiskMap} {x : Nat × Nat}

theorem copyToTemp_zero (bytes : Nat → UInt8) (src dst n j : Nat) :
    copyToTemp bytes src dst zeroPage n j = if dst ≤ j ∧ j < dst + n then bytes (src + (j - dst)) else 0 :=
  copyToTemp_byte bytes n src dst zeroPage j

/-- Outside the first page the source pointer and the address move together. -/
theorem srcFirst_eq (seg : ProgramSegment) :
    srcFirst seg = nextPage seg * 4096 - seg.virtualAddress ∧ seg.virtualAddress ≤ nextPage seg * 4096 := by
  unfold srcFirst nextPage
  by_cases h0 : seg.virtualAddress % 4096 = 0
  · rw [if_neg (not_not.2 h0)]
    omega
  · rw [if_pos h0]
    omega

theorem lastContents_byte (h : Loadable seg) (j : Nat) : lastContents seg j = writtenByte seg (lastPage seg) j := by
  have hlast : lastPage seg * 4096 ≤ seg.virtualAddress + seg.sizeInFile := Nat.div_mul_le_self _ _
  obtain ⟨hsrc, hnext⟩ := srcFirst_eq seg
  rw [lastContents, copyToTemp_zero]
  by_cases hin : lastPage seg < nextPage seg
  · -- the bytes of the file end in the first page: the pointer is a page ahead
    have hfirst : lastPage seg = firstPage seg ∧ nextPage seg = firstPage seg + 1 := by
      have := h.order
      omega
    have hpage : firstPage seg * 4096 + seg.virtualAddress % 4096 = seg.virtualAddress := by
      simp only [firstPage]
      omega
    have hw : writtenByte seg (lastPage seg) j = if j < seg.virtualAddress % 4096 + seg.sizeInFile then
        seg.ptrStart (4096 - seg.virtualAddress % 4096 + j) else 0 := if_pos ⟨hin, hfirst.1⟩
    have hsrc' : srcFirst seg + (lastPage seg - nextPage seg) * 4096 + (j - 0) = 4096 - seg.virtualAddress % 4096 +
        j := by
      rw [Nat.sub_eq_zero_of_le hin.le]
      omega
    rw [hw, hsrc']
    refine if_congr ?_ rfl rfl
    omega
  · have hle : nextPage seg * 4096 ≤ lastPage seg * 4096 := Nat.mul_le_mul_right _ (not_lt.1 hin)
    have hw : writtenByte seg (lastPage seg) j = seg.byte (lastPage seg * 4096 + j) := if_neg fun hc => hin hc.1
    have hsrc' : srcFirst seg + (lastPage seg - nextPage seg) * 4096 + (j - 0) = lastPage seg * 4096 + j -
        seg.virtualAddress := by
      omega
    rw [hw, ProgramSegment.byte, hsrc']
    refine if_congr ?_ rfl rfl
    omega

theorem firstContents_byte (h0 : seg.virtualAddress % 4096 ≠ 0) (hin : nextPage seg ≤ lastPage seg) (hj : j < 4096) :
    firstContents seg j = writtenByte seg (firstPage seg) j := by
  have hfile : nextPage seg * 4096 ≤ seg.virtualAddress + seg.sizeInFile :=
    (Nat.mul_le_mul_right _ hin).trans (Nat.div_mul_le_self _ _)
  have hpage : firstPage seg * 4096 + seg.virtualAddress % 4096 = seg.virtualAddress ∧
      nextPage seg * 4096 = firstPage seg * 4096 + 4096 := by
    simp only [firstPage, nextPage]
    omega
  have hw : writtenByte seg (firstPage seg) j = seg.byte (firstPage seg * 4096 + j) :=
    if_neg fun hc => absurd hc.1 (not_lt.2 hin)
  have hsrc : 0 + (j - seg.virtualAddress % 4096) = firstPage seg * 4096 + j - seg.virtualAddress := by omega
  rw [firstContents, copyToTemp_zero, hw, ProgramSegment.byte, hsrc]
  refine if_congr ?_ rfl rfl
  omega

/-- What the page file has for the pages of the segment, and for the page where the bytes of the file end. -/
theorem writtenMap_page (h : Loadable seg) (hv : SegmentPage seg v ∨ v = lastPage seg) :
    ∃ p, writtenMap seg e m (e, v) = some (some p) ∧ ∀ j < 4096, p j = writtenByte seg v j := by
  have horder := h.order
  have hfile : seg.virtualAddress + seg.sizeInFile ≤ restPage seg * 4096 := by
    simp only [restPage]
    omega
  unfold writtenMap
  by_cases hrest : restPage seg ≤ v ∧ v < endPage seg
  · rw [storeRange_in (by omega)]
    refine ⟨_, rfl, fun j _ => ?_⟩
    have hout : ¬ (lastPage seg < nextPage seg ∧ v = firstPage seg) := by omega
    have hle := Nat.mul_le_mul_right 4096 hrest.1
    rw [writtenByte, if_neg hout, ProgramSegment.byte, if_neg (by omega), zeroPage]
  rw [storeRange_other fun _ => by dsimp only; omega]
  by_cases hlast : v = lastPage seg
  · subst hlast
    rw [DiskMap.store, Function.update_self]
    exact ⟨_, rfl, fun j _ => lastContents_byte h j⟩
  rw [DiskMap.store_other fun hc => hlast (congrArg Prod.snd hc)]
  by_cases hmid : nextPage seg ≤ v ∧ v < lastPage seg
  · rw [storeRange_in (by omega)]
    refine ⟨_, rfl, fun j hj => ?_⟩
    have hout : ¬ (lastPage seg < nextPage seg ∧ v = firstPage seg) := by omega
    have h1 := Nat.mul_le_mul_right 4096 hmid.1
    have h2 : (v + 1) * 4096 ≤ seg.virtualAddress + seg.sizeInFile :=
      (Nat.mul_le_mul_right 4096 hmid.2).trans (Nat.div_mul_le_self _ _)
    obtain ⟨hs, hnext⟩ := srcFirst_eq seg
    rw [writtenByte, if_neg hout, ProgramSegment.byte, if_pos (by omega)]
    congr 1
    omega
  · -- the first page, which the segment does not start with
    rw [storeRange_other fun _ => by dsimp only; omega]
    have hfirst : v = firstPage seg ∧ seg.virtualAddress % 4096 ≠ 0 ∧ nextPage seg ≤ lastPage seg := by
      rcases hv with hv | hv
      · have h1 := hv.1
        have h2 := hv.2
        omega
      · exact absurd hv hlast
    obtain ⟨rfl, h0, hin⟩ := hfirst
    rw [if_pos h0, DiskMap.store, Function.update_self]
    exact ⟨_, rfl, fun j hj => firstContents_byte h0 hin hj⟩

/-- No other page is written. -/
theorem writtenMap_other (h : Loadable seg) (hx : ¬ (x.1 = e ∧ SegmentPage seg x.2)) (hl : x ≠ (e, lastPage seg)) :
    writtenMap seg e m x = m x := by
  have horder := h.order
  have hout : x.1 = e → ¬ SegmentPage seg x.2 := fun h1 h2 => hx ⟨h1, h2⟩
  unfold writtenMap
  rw [storeRange_other fun h1 hc => hout h1 ⟨by omega, by omega⟩, DiskMap.store_other hl,
    storeRange_other fun h1 hc => hout h1 ⟨by omega, by omega⟩]
  split
  · rename_i h0
    refine DiskMap.store_other (fun hc => ?_) _
    subst hc
    exact hout rfl ⟨le_rfl, by dsimp only; omega⟩
  · rfl

end Contents

end Fos.Proc
