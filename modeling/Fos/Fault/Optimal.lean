/-
`get_optimal_num_faults` of `kern/trap/fault_handler.c`: the count of page faults under optimal
replacement, on lists of elements in memory, and that it is the least number of faults of any
demand-paging schedule. An element is its address; `kmalloc i` is the address the `i`-th call of
`kmalloc` returns.
-/
import Fos.Base
import Fos.Lib.Replacement

namespace Fos.Fault

open Fos.Lib

/-! ## The function -/

/-- The `virtual_address` of the element at each address. -/
abbrev VaOf := Nat → Nat

def pageOf (m : VaOf) (e : Nat) : Nat := roundDown (m e) pageSize

structure OptState where
  eltempWset : List Nat
  calls : Nat
  mem : VaOf
  elfaults : Nat

/-- The copy of the initial working set. -/
def copyWset (kmalloc : Nat → Nat) : List Nat → OptState → OptState
  | [], s => s
  | e :: l, s =>
    let new := kmalloc s.calls
    copyWset kmalloc l { s with eltempWset := s.eltempWset ++ [new], calls := s.calls + 1,
                                mem := Function.update s.mem new (s.mem e) }

/-- The search for the next reference of page `p` in the references ahead. -/
def nextUse (m : VaOf) (p : Nat) : List Nat → Nat → Option Nat
  | [], _ => none
  | r :: ahead, distance => if pageOf m r = p then some (distance + 1) else nextUse m p ahead (distance + 1)

/-- The choice of `el_evicted`: the first element that is not used again, else the first one of the
largest distance. -/
def elEvicted (m : VaOf) (ahead : List Nat) : List Nat → Option Nat → Int → Option Nat
  | [], best, _ => best
  | e :: l, best, distanceMaximum =>
    match nextUse m (pageOf m e) ahead 0 with
    | none => some e
    | some distance =>
      if distanceMaximum < (distance : Int) then elEvicted m ahead l (some e) distance
      else elEvicted m ahead l best distanceMaximum

/-- The loop over the references. -/
def refLoop (kmalloc : Nat → Nat) (maxWSSize : Nat) : List Nat → OptState → OptState
  | [], s => s
  | r :: ahead, s =>
    if s.eltempWset.any (fun e => pageOf s.mem e = pageOf s.mem r) then refLoop kmalloc maxWSSize ahead s
    else if s.eltempWset.length < maxWSSize then
      let new := kmalloc s.calls
      refLoop kmalloc maxWSSize ahead
        ⟨s.eltempWset ++ [new], s.calls + 1, Function.update s.mem new (s.mem r), s.elfaults + 1⟩
    else
      match elEvicted s.mem ahead s.eltempWset none (-1) with
      | none => refLoop kmalloc maxWSSize ahead { s with elfaults := s.elfaults + 1 }
      | some e =>
        refLoop kmalloc maxWSSize ahead
          { s with mem := Function.update s.mem e (s.mem r), elfaults := s.elfaults + 1 }

/-- `get_optimal_num_faults`: the number of faults, and the elements in memory when it returns. The
copies are freed; the others are those the given lists are made of. -/
def getOptimalNumFaults (kmalloc : Nat → Nat) (m : VaOf) (initWorkingSet : List Nat) (maxWSSize : Nat)
    (pageReferences : List Nat) : Nat × VaOf :=
  let s := refLoop kmalloc maxWSSize pageReferences (copyWset kmalloc initWorkingSet ⟨[], 0, m, 0⟩)
  (s.elfaults, s.mem)

/-! ## The next use -/

theorem nextUse_gt {m : VaOf} {p : Nat} : ∀ {ahead : List Nat} {d a : Nat}, nextUse m p ahead d = some a → d < a
  | [], _, _, h => by cases h
  | r :: ahead, d, a, h => by
    simp only [nextUse] at h
    split at h
    · cases h; omega
    · have := nextUse_gt h
      omega

theorem nextUse_none {m : VaOf} {p : Nat} : ∀ {ahead : List Nat} {d : Nat}, nextUse m p ahead d = none →
    p ∉ ahead.map (pageOf m)
  | [], _, _ => List.not_mem_nil
  | r :: ahead, d, h => by
    simp only [nextUse] at h
    split at h
    · cases h
    · rename_i hne
      rw [List.map_cons, List.mem_cons, not_or]
      exact ⟨Ne.symm hne, nextUse_none h⟩

/-- A shorter distance is an earlier use. -/
theorem noLater_of_nextUse {m : VaOf} {v x : Nat} (hvx : v ≠ x) : ∀ {ahead : List Nat} {d a b : Nat},
    nextUse m v ahead d = some a → nextUse m x ahead d = some b → a ≤ b → NoLater v x (ahead.map (pageOf m))
  | [], _, _, _, h, _, _ => by cases h
  | r :: ahead, d, a, b, ha, hb, hab => by
    simp only [nextUse] at ha hb
    by_cases hv : pageOf m r = v
    · exact .inl hv
    · rw [if_neg hv] at ha
      by_cases hx : pageOf m r = x
      · rw [if_pos hx] at hb
        cases hb
        have := nextUse_gt ha
        omega
      · rw [if_neg hx] at hb
        exact .inr ⟨hx, noLater_of_nextUse hvx ha hb hab⟩

/-- What the scan for the victim has seen so far: the best element and its distance. -/
def Seen (m : VaOf) (ahead : List Nat) (best : Option Nat) (distanceMaximum : Int) : Prop :=
  (best = none ∧ distanceMaximum = -1) ∨
    ∃ e d, best = some e ∧ nextUse m (pageOf m e) ahead 0 = some d ∧ distanceMaximum = (d : Int)

/-- The victim is not used again, or every element scanned is used no later than it. -/
theorem elEvicted_spec {m : VaOf} {ahead : List Nat} : ∀ {l : List Nat} {best : Option Nat} {dmax : Int},
    Seen m ahead best dmax → l ≠ [] ∨ best ≠ none →
    ∃ e, elEvicted m ahead l best dmax = some e ∧ (e ∈ l ∨ best = some e) ∧
      (nextUse m (pageOf m e) ahead 0 = none ∨ ∃ d : Nat, nextUse m (pageOf m e) ahead 0 = some d ∧ dmax ≤ d ∧
        ∀ f ∈ l, ∃ d', nextUse m (pageOf m f) ahead 0 = some d' ∧ d' ≤ d)
  | [], best, dmax, hseen, hne => by
    rcases hseen with ⟨rfl, -⟩ | ⟨e, d, rfl, hd, rfl⟩
    · exact absurd hne (by simp)
    · exact ⟨e, rfl, .inr rfl, .inr ⟨d, hd, le_rfl, by simp⟩⟩
  | e :: l, best, dmax, hseen, _ => by
    simp only [elEvicted]
    cases hu : nextUse m (pageOf m e) ahead 0 with
    | none => exact ⟨e, rfl, .inl List.mem_cons_self, .inl hu⟩
    | some d =>
      simp only
      by_cases hlt : dmax < (d : Int)
      · rw [if_pos hlt]
        obtain ⟨v, hv, hmem, hd⟩ := elEvicted_spec (l := l) (.inr ⟨e, d, rfl, hu, rfl⟩) (.inr (by simp))
        refine ⟨v, hv, .inl ?_, hd.imp_right ?_⟩
        · rcases hmem with hmem | hmem
          · exact List.mem_cons_of_mem _ hmem
          · cases hmem; exact List.mem_cons_self
        · rintro ⟨dv, hdv, hle, hall⟩
          refine ⟨dv, hdv, by omega, fun f hf => ?_⟩
          rcases List.mem_cons.1 hf with rfl | hf
          · exact ⟨d, hu, by omega⟩
          · exact hall f hf
      · rw [if_neg hlt]
        have hbest : best ≠ none := by
          rcases hseen with ⟨-, rfl⟩ | ⟨b, _, rfl, -⟩
          · omega
          · simp
        obtain ⟨v, hv, hmem, hd⟩ := elEvicted_spec (l := l) hseen (.inr hbest)
        refine ⟨v, hv, hmem.imp_left (List.mem_cons_of_mem _), hd.imp_right ?_⟩
        rintro ⟨dv, hdv, hle, hall⟩
        refine ⟨dv, hdv, hle, fun f hf => ?_⟩
        rcases List.mem_cons.1 hf with rfl | hf
        · exact ⟨d, hu, by omega⟩
        · exact hall f hf

/-! ## The loops -/

/-- The copy of the working set: distinct new elements, of distinct pages, within the maximum. -/
structure OptInv (kmalloc : Nat → Nat) (maxWSSize : Nat) (s : OptState) : Prop where
  size : s.eltempWset.length ≤ maxWSSize
  new : ∀ e ∈ s.eltempWset, ∃ i < s.calls, e = kmalloc i
  pages : (s.eltempWset.map (pageOf s.mem)).Nodup

def OptState.held (s : OptState) : Finset Nat := (s.eltempWset.map (pageOf s.mem)).toFinset

theorem mem_held {s : OptState} {p : Nat} : p ∈ s.held ↔ ∃ e ∈ s.eltempWset, pageOf s.mem e = p := by
  simp [OptState.held]

theorem card_held {kmalloc : Nat → Nat} {k : Nat} {s : OptState} (h : OptInv kmalloc k s) :
    s.held.card = s.eltempWset.length := by
  rw [OptState.held, List.toFinset_card_of_nodup h.pages, List.length_map]

theorem pageOf_update_ne {m : VaOf} {e f v : Nat} (h : f ≠ e) : pageOf (Function.update m e v) f = pageOf m f := by
  unfold pageOf; rw [Function.update_of_ne h]

theorem pageOf_update_self {m : VaOf} {e r : Nat} : pageOf (Function.update m e (m r)) e = pageOf m r := by
  unfold pageOf; rw [Function.update_self]

section Loops

variable {kmalloc : Nat → Nat} (hinj : Function.Injective kmalloc)

include hinj

/-- A new element of the page of `r` at the end of the copy. -/
theorem OptInv.push {k : Nat} {s : OptState} (h : OptInv kmalloc k s) (r n : Nat) (hroom : s.eltempWset.length < k)
    (hr : pageOf s.mem r ∉ s.held) :
    OptInv kmalloc k ⟨s.eltempWset ++ [kmalloc s.calls], s.calls + 1,
        Function.update s.mem (kmalloc s.calls) (s.mem r), n⟩ ∧
      OptState.held ⟨s.eltempWset ++ [kmalloc s.calls], s.calls + 1,
        Function.update s.mem (kmalloc s.calls) (s.mem r), n⟩ = insert (pageOf s.mem r) s.held := by
  have hne : ∀ e ∈ s.eltempWset, e ≠ kmalloc s.calls := by
    intro e he
    obtain ⟨i, hi, rfl⟩ := h.new e he
    exact fun he => by have := hinj he; omega
  have hmap : (s.eltempWset ++ [kmalloc s.calls]).map (pageOf (Function.update s.mem (kmalloc s.calls) (s.mem r))) =
      s.eltempWset.map (pageOf s.mem) ++ [pageOf s.mem r] := by
    rw [List.map_append, List.map_singleton, pageOf_update_self]
    congr 1
    exact List.map_congr_left fun e he => pageOf_update_ne (hne e he)
  refine ⟨⟨by simp; omega, fun e he => ?_, ?_⟩, ?_⟩
  · rcases List.mem_append.1 he with he | he
    · obtain ⟨i, hi, rfl⟩ := h.new e he
      exact ⟨i, Nat.lt_succ_of_lt hi, rfl⟩
    · exact ⟨s.calls, Nat.lt_succ_self _, List.mem_singleton.1 he⟩
  · rw [hmap]
    apply h.pages.append (List.nodup_singleton _)
    intro p hp hp'
    obtain rfl := List.mem_singleton.1 hp'
    exact hr (List.mem_toFinset.2 hp)
  · simp only [OptState.held, hmap]
    ext p
    simp

omit hinj in
/-- The element `x` is given the page of `r`. -/
theorem OptInv.set {k : Nat} {s : OptState} (h : OptInv kmalloc k s) {x : Nat} (r n : Nat) (hx : x ∈ s.eltempWset)
    (hr : pageOf s.mem r ∉ s.held) :
    OptInv kmalloc k { s with mem := Function.update s.mem x (s.mem r), elfaults := n } ∧
      OptState.held { s with mem := Function.update s.mem x (s.mem r), elfaults := n } =
        insert (pageOf s.mem r) (s.held.erase (pageOf s.mem x)) := by
  have hpage : ∀ e ∈ s.eltempWset, pageOf s.mem e = pageOf s.mem x → e = x := fun e he heq =>
    List.inj_on_of_nodup_map h.pages he hx heq
  refine ⟨⟨h.size, h.new, ?_⟩, ?_⟩
  · refine List.Nodup.map_on (fun e he f hf hef => ?_) (List.Nodup.of_map _ h.pages)
    have hnot : ∀ g ∈ s.eltempWset, pageOf s.mem g ≠ pageOf s.mem r := fun g hg hgr =>
      hr (mem_held.2 ⟨g, hg, hgr⟩)
    by_cases hex : e = x
    · by_cases hfx : f = x
      · rw [hex, hfx]
      · subst hex
        rw [pageOf_update_self, pageOf_update_ne hfx] at hef
        exact absurd hef.symm (hnot f hf)
    · by_cases hfx : f = x
      · subst hfx
        rw [pageOf_update_self, pageOf_update_ne hex] at hef
        exact absurd hef (hnot e he)
      · rw [pageOf_update_ne hex, pageOf_update_ne hfx] at hef
        exact List.inj_on_of_nodup_map h.pages he hf hef
  · ext p
    rw [mem_held, Finset.mem_insert, Finset.mem_erase, mem_held]
    constructor
    · rintro ⟨e, he, rfl⟩
      by_cases hex : e = x
      · subst hex; exact .inl pageOf_update_self
      · simp only [pageOf_update_ne hex]
        exact .inr ⟨fun heq => hex (hpage e he heq), e, he, rfl⟩
    · rintro (rfl | ⟨hne, e, he, rfl⟩)
      · exact ⟨x, hx, pageOf_update_self⟩
      · exact ⟨e, he, pageOf_update_ne fun hex => hne (hex ▸ rfl)⟩

/-- The copy holds the pages of the initial working set, and no other element changes. -/
theorem copyWset_spec {k : Nat} : ∀ {l : List Nat} {s : OptState}, OptInv kmalloc k s →
    s.eltempWset.length + l.length ≤ k → (l.map (pageOf s.mem)).Nodup → (∀ e ∈ l, pageOf s.mem e ∉ s.held) →
    (∀ i, kmalloc i ∉ l) →
    OptInv kmalloc k (copyWset kmalloc l s) ∧
      (copyWset kmalloc l s).held = s.held ∪ (l.map (pageOf s.mem)).toFinset ∧
      (copyWset kmalloc l s).elfaults = s.elfaults ∧
      ∀ e, (∀ i, e ≠ kmalloc i) → (copyWset kmalloc l s).mem e = s.mem e
  | [], s, h, _, _, _, _ => ⟨h, by simp [copyWset], rfl, fun _ _ => rfl⟩
  | e :: l, s, h, hlen, hnd, hnot, hfresh => by
    rw [List.map_cons, List.nodup_cons] at hnd
    simp only [List.length_cons] at hlen
    obtain ⟨hI, hheld⟩ := h.push hinj e s.elfaults (by omega) (hnot e List.mem_cons_self)
    have hl : ∀ f ∈ l, ∀ v, pageOf (Function.update s.mem (kmalloc s.calls) v) f = pageOf s.mem f := fun f hf v =>
      pageOf_update_ne fun he => hfresh s.calls (he ▸ List.mem_cons_of_mem _ hf)
    have hmap : l.map (pageOf (Function.update s.mem (kmalloc s.calls) (s.mem e))) = l.map (pageOf s.mem) :=
      List.map_congr_left fun f hf => hl f hf _
    obtain ⟨g1, g2, g3, g4⟩ := copyWset_spec (l := l) hI (by simp; omega) (by rw [hmap]; exact hnd.2)
      (fun f hf => by
        rw [hheld, hl f hf, Finset.mem_insert, not_or]
        exact ⟨fun he => hnd.1 (he ▸ List.mem_map_of_mem hf), hnot f (List.mem_cons_of_mem _ hf)⟩)
      (fun i hi => hfresh i (List.mem_cons_of_mem _ hi))
    refine ⟨g1, ?_, g3, fun f hf => ?_⟩
    · rw [copyWset, g2, hheld, hmap]
      ext p
      simp
    · rw [copyWset, g4 f hf]
      exact Function.update_of_ne (hf _) ..

/-- The loop counts the least number of faults, and no element but the copies changes. -/
theorem refLoop_spec (early : Prop) {k : Nat} (hk : 1 ≤ k) : ∀ {refs : List Nat} {s : OptState}, OptInv kmalloc k s →
    (∀ i, kmalloc i ∉ refs) →
    ∃ n, (refLoop kmalloc k refs s).elfaults = s.elfaults + n ∧ Fewest early k s.held (refs.map (pageOf s.mem)) n ∧
      ∀ e, (∀ i, e ≠ kmalloc i) → (refLoop kmalloc k refs s).mem e = s.mem e
  | [], s, _, _ => ⟨0, rfl, fewest_nil, fun _ _ => rfl⟩
  | r :: ahead, s, h, hfresh => by
    have hahead : ∀ i, kmalloc i ∉ ahead := fun i hi => hfresh i (List.mem_cons_of_mem _ hi)
    have hmap : ∀ i v, ahead.map (pageOf (Function.update s.mem (kmalloc i) v)) = ahead.map (pageOf s.mem) :=
      fun i v => List.map_congr_left fun f hf => pageOf_update_ne fun he => hahead i (he ▸ hf)
    simp only [refLoop, List.map_cons]
    by_cases hfound : s.eltempWset.any (fun e => pageOf s.mem e = pageOf s.mem r)
    · rw [if_pos hfound]
      obtain ⟨n, hn, hmin, hmem⟩ := refLoop_spec early hk h hahead
      refine ⟨n, hn, hmin.hit (mem_held.2 ?_), hmem⟩
      simpa using hfound
    · rw [if_neg hfound]
      have hr : pageOf s.mem r ∉ s.held := fun hr => hfound (by simpa using mem_held.1 hr)
      by_cases hroom : s.eltempWset.length < k
      · rw [if_pos hroom]
        obtain ⟨hI, hheld⟩ := h.push hinj r (s.elfaults + 1) hroom hr
        obtain ⟨n, hn, hmin, hmem⟩ := refLoop_spec early hk hI hahead
        rw [hheld, hmap] at hmin
        refine ⟨n + 1, by rw [hn]; simp only; omega, hmin.place hr (by rw [card_held h]; exact hroom), fun e he => ?_⟩
        rw [hmem e he]
        exact Function.update_of_ne (he _) ..
      · rw [if_neg hroom]
        have hfull : s.eltempWset.length = k := le_antisymm h.size (by omega)
        have hne : s.eltempWset ≠ [] := fun hnil => by rw [hnil] at hfull; simp at hfull; omega
        have hseen : Seen s.mem ahead none (-1) := .inl ⟨rfl, rfl⟩
        obtain ⟨x, hx, hxmem, hlast⟩ := elEvicted_spec hseen (.inl hne)
        have hxmem := hxmem.resolve_right (by simp)
        obtain ⟨i, -, rfl⟩ := h.new x hxmem
        obtain ⟨hI, hheld⟩ := h.set r (s.elfaults + 1) hxmem hr
        rw [hx]
        obtain ⟨n, hn, hmin, hmem⟩ := refLoop_spec early hk hI hahead
        rw [hheld, hmap] at hmin
        refine ⟨n + 1, by rw [hn]; simp only; omega, ?_, fun e he => ?_⟩
        · apply hmin.replace hr (by rw [card_held h]; exact hfull) (mem_held.2 ⟨_, hxmem, rfl⟩)
          intro v hv hvx
          rcases hlast with hnone | ⟨d, hd, -, hall⟩
          · exact noLater_of_not_mem (nextUse_none hnone)
          · obtain ⟨f, hf, rfl⟩ := mem_held.1 hv
            obtain ⟨d', hd', hle⟩ := hall f hf
            exact noLater_of_nextUse hvx hd' hd hle
        · rw [hmem e he]
          exact Function.update_of_ne (he _) ..

end Loops

/-- `get_optimal_num_faults` on a working set within the maximum. -/
theorem getOptimalNumFaults_spec (early : Prop) {kmalloc : Nat → Nat} {m : VaOf}
    {initWorkingSet pageReferences : List Nat}
    {maxWSSize : Nat} (hmax : 1 ≤ maxWSSize) (hsize : initWorkingSet.length ≤ maxWSSize)
    (hdistinct : (initWorkingSet.map (pageOf m)).Nodup) (hinj : Function.Injective kmalloc)
    (hnew : ∀ i, kmalloc i ∉ initWorkingSet ++ pageReferences) :
    Fewest early maxWSSize (initWorkingSet.map (pageOf m)).toFinset (pageReferences.map (pageOf m))
        (getOptimalNumFaults kmalloc m initWorkingSet maxWSSize pageReferences).1 ∧
      ∀ e ∈ initWorkingSet ++ pageReferences,
        (getOptimalNumFaults kmalloc m initWorkingSet maxWSSize pageReferences).2 e = m e := by
  have hws : ∀ i, kmalloc i ∉ initWorkingSet := fun i hi => hnew i (List.mem_append_left _ hi)
  have hrefs : ∀ i, kmalloc i ∉ pageReferences := fun i hi => hnew i (List.mem_append_right _ hi)
  obtain ⟨hI, hheld, hfaults, hmem⟩ := copyWset_spec hinj (k := maxWSSize) (l := initWorkingSet) (s := ⟨[], 0, m, 0⟩)
    ⟨Nat.zero_le _, by simp, .nil⟩ (by simpa using hsize) hdistinct (by simp [OptState.held]) hws
  obtain ⟨n, hn, hmin, hmem'⟩ := refLoop_spec hinj early hmax hI hrefs
  have hpages : pageReferences.map (pageOf (copyWset kmalloc initWorkingSet ⟨[], 0, m, 0⟩).mem) =
      pageReferences.map (pageOf m) := by
    apply List.map_congr_left
    intro r hr
    unfold pageOf
    rw [hmem r fun i hi => hrefs i (hi ▸ hr)]
  constructor
  · simp only [getOptimalNumFaults, hn, hfaults, Nat.zero_add]
    rw [hheld, hpages] at hmin
    simpa [OptState.held] using hmin
  · intro e he
    have hne : ∀ i, e ≠ kmalloc i := fun i hi => hnew i (hi ▸ he)
    simp only [getOptimalNumFaults]
    rw [hmem' e hne, hmem e hne]

/-- For an initial working set of distinct pages within a maximum of at least one, and elements of
`kmalloc` that are no elements of the given lists, `get_optimal_num_faults` returns the least number
of faults over all demand-paging schedules, whether or not they may replace early, and leaves the
elements of both lists as they were. -/
theorem get_optimal_num_faults_least (early : Prop) (kmalloc : Nat → Nat) (m : VaOf) (initWorkingSet : List Nat)
    (maxWSSize : Nat) (pageReferences : List Nat) (hmax : 1 ≤ maxWSSize) (hsize : initWorkingSet.length ≤ maxWSSize)
    (hdistinct : (initWorkingSet.map (pageOf m)).Nodup) (hinj : Function.Injective kmalloc)
    (hnew : ∀ i, kmalloc i ∉ initWorkingSet ++ pageReferences) :
    Fewest early maxWSSize (initWorkingSet.map (pageOf m)).toFinset (pageReferences.map (pageOf m))
        (getOptimalNumFaults kmalloc m initWorkingSet maxWSSize pageReferences).1 ∧
      ∀ e ∈ initWorkingSet ++ pageReferences,
        (getOptimalNumFaults kmalloc m initWorkingSet maxWSSize pageReferences).2 e = m e :=
  getOptimalNumFaults_spec early hmax hsize hdistinct hinj hnew

/-- A working set of one page of two frames, and five references. -/
theorem get_optimal_num_faults_least_five :
    Fewest False 2 {0x800000} [0x800000, 0x801000, 0x802000, 0x800000, 0x801000] 3 := by
  have h := (get_optimal_num_faults_least False (fun i => i + 6)
    (fun e => [0x800000, 0x800004, 0x801008, 0x802000, 0x80000c, 0x801000].getD e 0) [0] 2 [1, 2, 3, 4, 5]
    (by decide) (by decide) (by decide) (fun i j h => Nat.add_right_cancel h)
    (fun i => by simp)).1
  exact h

end Fos.Fault
