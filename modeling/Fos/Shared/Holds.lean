/-
Holds on shared objects: each successful create or get is one, and a delete gives one back. Over runs of the three calls
by any environments an object is referenced as often as it is held, and so are its frames, which stay off the free list.
Giving back the last hold does not come to an end.
-/
import Fos.Memory.LooseFrames
import Fos.Shared.Names
import Fos.Shared.Objects

namespace Fos.Shared

open Fos.Lib Fos.Memory Fos.Heap

/-! ## The loops and the frames -/

/-- The frames that were loose are. -/
def KeepsLoose (m m' : Mem) : Prop := ∀ g r, Loose m g r → Loose m' g r

/-- Frames `φ`, all new and different, are referenced once. -/
structure NewFrames (i n : Nat) (φ : Nat → Nat) (m m' : Mem) : Prop where
  keeps : KeepsLoose m m'
  loose : ∀ j, i ≤ j → j < i + n → Loose m' (φ j) 1
  fresh : ∀ j, i ≤ j → j < i + n → ∀ r, ¬ Loose m (φ j) r
  inj : ∀ j k, i ≤ j → j < i + n → i ≤ k → k < i + n → φ j = φ k → j = k

/-- Frames `f`, all different, have `r'` references and had `r`; the other loose frames are as they were. -/
structure Recounted (i n : Nat) (f : Nat → Nat) (r' : Nat) (m m' : Mem) : Prop where
  loose : ∀ j, i ≤ j → j < i + n → Loose m' (f j) r'
  others : ∀ g r, (∀ j, i ≤ j → j < i + n → g ≠ f j) → Loose m g r → Loose m' g r

section Loops

variable {d v addr r : Nat} {f : Nat → Nat}

theorem createPages_loose (hd : d ≠ 0) : ∀ (n i : Nat) (s t : Shares), MapOk s.kernel → v + i + n ≤ userPages →
    Vacant s.kernel.mem d v i n → createPages d addr (v * 4096) i n s = .ok () t →
    ∃ φ, MapOk t.kernel ∧ NewFrames i n φ s.kernel.mem t.kernel.mem ∧
    MapsRange d v i n φ createPerm s.kernel.mem t.kernel.mem ∧
      t = { s with kernel := t.kernel }.setShare addr fun shr => shr.withFrames i n φ
  | 0, i, s, t, h, _, _, hr => by
    cases hr
    refine ⟨fun _ => 0, h, ⟨fun _ _ h => h, by omega, by omega, by omega⟩, .empty _, ?_⟩
    simp only [Share.withFrames_zero]
    exact (setShare_id s).symm
  | n + 1, i, s, t, h, hrange, hvac, hr => by
    obtain ⟨g, m, k, ha, hmap, hr⟩ := createPages_round hr
    have hi : v + i < userPages := by omega
    rw [pageOf_eq hi] at hmap
    -- the frame is new, and is mapped where nothing was
    obtain ⟨hkeep, hl, hnew⟩ := mapOk_allocate h ha
    obtain ⟨-, hua⟩ := allocateFrame_user ha
    have hp : (userEntry m d (v + i)).perm.present = false := by
      rw [hua]
      exact hvac i le_rfl (by omega)
    obtain ⟨hsp, hlk⟩ := mapFrame_loose (s := { s.kernel with mem := m }) hkeep.ok hd hi hp hl (by decide) hmap
    obtain ⟨-, hself, hother⟩ := mapFrame_user (s := { s.kernel with mem := m }) hi
      (mapOk_ready hkeep.ok).heap hp hmap
    have hself : userEntry k.mem d (v + i) = (userEntry s.kernel.mem d (v + i)).linked g createPerm := by
      rw [← hua]
      exact hself
    have hother' : ∀ e w, w < userPages → (e, w) ≠ (d, v + i) → userEntry k.mem e w = userEntry s.kernel.mem e w :=
      fun e w hw hne => (hother e w hw hne).trans (hua e w)
    have hkeeps : KeepsLoose s.kernel.mem k.mem := fun x r hx =>
      hsp.loose x r (fun hc => hnew r (hc ▸ hx)) (hkeep.evolves.loose x r hx)
    -- the rest of the loop
    obtain ⟨φ, ht, hN, hM, htl⟩ := createPages_loose hd n (i + 1) _ t hsp.ok (by omega) (hvac.rest hrange hother') hr
    have hne : ∀ j, i + 1 ≤ j → j < i + 1 + n → φ j ≠ g := fun j h1 h2 hc => hN.fresh j h1 h2 1 (hc ▸ hlk)
    refine ⟨Function.update φ i g, ht, ⟨fun x r hx => hN.keeps x r (hkeeps x r hx), fun j h1 h2 => ?_,
      fun j h1 h2 r hx => ?_,
      fun j j' h1 h2 h3 h4 he => ?_⟩, hM.cons hrange hself hother', ?_⟩
    · rw [Function.update_apply]
      split
      · exact hN.keeps g 1 hlk
      · exact hN.loose j (by omega) (by omega)
    · rw [Function.update_apply] at hx
      split at hx
      · exact hnew r hx
      · exact hN.fresh j (by omega) (by omega) r (hkeeps _ r hx)
    · rw [Function.update_apply, Function.update_apply] at he
      split at he <;> split at he
      · omega
      · exact absurd he.symm (hne j' (by omega) (by omega))
      · exact absurd he (hne j (by omega) (by omega))
      · exact hN.inj j j' (by omega) (by omega) (by omega) (by omega) he
    · have htwice := setShare_twice { s with kernel := t.kernel } addr
        (fun shr => { shr with frames := Function.update shr.frames i (some g) })
        (fun shr => shr.withFrames (i + 1) n φ) fun _ => rfl
      simp only [Share.withFrames_cons] at htwice
      exact htl.trans htwice

theorem getPages_loose (hd : d ≠ 0) (shr : Share) (hr1 : r + 1 < 65536) : ∀ (n i : Nat) (s t : Shares), MapOk s.kernel →
    v + i + n ≤ userPages → Vacant s.kernel.mem d v i n → (∀ j, i ≤ j → j < i + n → shr.frames j = some (f j)) →
    (∀ j k, i ≤ j → j < i + n → i ≤ k → k < i + n → f j = f k → j = k) →
    (∀ j, i ≤ j → j < i + n → Loose s.kernel.mem (f j) r) →
    getPages d shr (v * 4096) i n s = .ok () t → MapOk t.kernel ∧ Recounted i n f (r + 1) s.kernel.mem t.kernel.mem
  | 0, i, s, t, h, _, _, _, _, _, hr => by
    cases hr
    exact ⟨h, by omega, fun _ _ _ h => h⟩
  | n + 1, i, s, t, h, hrange, hvac, hf, hinj, hl, hr => by
    obtain ⟨g, k, hg, hmap, hr⟩ := getPages_round hr
    obtain rfl : g = f i := Option.some.inj (hg.symm.trans (hf i le_rfl (by omega)))
    have hi : v + i < userPages := by omega
    rw [pageOf_eq hi] at hmap
    have hp := hvac i le_rfl (by omega)
    obtain ⟨hsp, hlk⟩ := mapFrame_loose h hd hi hp (hl i le_rfl (by omega)) hr1 hmap
    obtain ⟨-, -, hother⟩ := mapFrame_user hi (mapOk_ready h).heap hp hmap
    have hne : ∀ j, i + 1 ≤ j → j < i + 1 + n → f j ≠ f i := by
      intro j h1 h2 hc
      have := hinj j i (by omega) (by omega) le_rfl (by omega) hc
      omega
    obtain ⟨ht, hR⟩ := getPages_loose hd shr hr1 n (i + 1) { s with kernel := k } t hsp.ok (by omega)
      (hvac.rest hrange hother) (fun j h1 h2 => hf j (by omega) (by omega))
      (fun j j' h1 h2 h3 h4 => hinj j j' (by omega) (by omega) (by omega) (by omega))
      (fun j h1 h2 => hsp.loose _ _ (hne j h1 h2) (hl j (by omega) (by omega))) hr
    refine ⟨ht, fun j h1 h2 => ?_, fun g r' hg hx => ?_⟩
    · by_cases hj : j = i
      · subst hj
        exact hR.others _ _ (fun j' h3 h4 => (hne j' h3 h4).symm) hlk
      · exact hR.loose j (by omega) (by omega)
    · exact hR.others g r' (fun j h1 h2 => hg j (by omega) (by omega)) (hsp.loose g r' (hg i le_rfl (by omega)) hx)

theorem deletePages_loose (hd : d ≠ 0) (h2 : 2 ≤ r) (hr : r < 65536) : ∀ (n i : Nat) (s : Shares), MapOk s.kernel →
    v + i + n ≤ userPages → (∀ j, i ≤ j → j < i + n → (userEntry s.kernel.mem d (v + j)).held = some (f j)) →
    (∀ j k, i ≤ j → j < i + n → i ≤ k → k < i + n → f j = f k → j = k) →
    (∀ j, i ≤ j → j < i + n → Loose s.kernel.mem (f j) r) →
    ∃ k, deletePages d (v * 4096) i n s = .ok () { s with kernel := k } ∧ MapOk k ∧
    Recounted i n f (r - 1) s.kernel.mem k.mem ∧
      ∀ e w, w < userPages → ¬(e = d ∧ v + i ≤ w ∧ w < v + i + n) → userEntry k.mem e w = userEntry s.kernel.mem e w
  | 0, i, s, h, _, _, _, _ => ⟨s.kernel, rfl, h, ⟨by omega, fun _ _ _ h => h⟩, fun _ _ _ _ => rfl⟩
  | n + 1, i, s, h, hrange, hm, hinj, hl => by
    have hi : v + i < userPages := by omega
    obtain ⟨hsp, hlk⟩ := unmapFrame_loose h hd hi (hm i le_rfl (by omega)) (hl i le_rfl (by omega)) h2 hr
    have hne : ∀ j, i + 1 ≤ j → j < i + 1 + n → f j ≠ f i := by
      intro j h1 h2 hc
      have := hinj j i (by omega) (by omega) le_rfl (by omega) hc
      omega
    have hsame : ∀ e w, (e, w) ≠ (d, v + i) →
        userEntry (s.kernel.mem.unmapFrame d ((v + i) * 4096)) e w = userEntry s.kernel.mem e w := fun e w hc =>
      unmapFrame_user hi hc
    have hstep : onKernel (do
        modify fun s => { s with mem := s.mem.unmapFrame d (pageOf (v * 4096) i) }
        if emptyTable (← get).mem d (pageOf (v * 4096) i) then delPageTable (pageOf (v * 4096) i) : KM Unit) s =
        .ok () { s with kernel := { s.kernel with mem := s.kernel.mem.unmapFrame d ((v + i) * 4096) } } := by
      have hva : (v + i) * 4096 < userTop := by
        simp only [userPages] at hi
        simp only [userTop]
        omega
      apply onKernel_of_ok
      rw [pageOf_eq hi, modify_bind, get_bind]
      split
      · exact delPageTable_user (mapOk_ready hsp.ok) hva
      · rfl
    obtain ⟨k, hrest, hk, hR, hu⟩ := deletePages_loose hd h2 hr n (i + 1)
      { s with kernel := { s.kernel with mem := s.kernel.mem.unmapFrame d ((v + i) * 4096) } } hsp.ok (by omega)
      (fun j h1 h2 => by
        rw [hsame d (v + j) (by simp; omega)]
        exact hm j (by omega) (by omega))
      (fun j j' h1 h2 h3 h4 => hinj j j' (by omega) (by omega) (by omega) (by omega))
      (fun j h1 h2 => hsp.loose _ _ (hne j h1 h2) (hl j (by omega) (by omega)))
    refine ⟨k, ?_, hk, ⟨fun j h1 h2 => ?_, fun g r' hg hx => ?_⟩, fun e w hw hout => ?_⟩
    · unfold deletePages
      exact (bind_of_ok hstep).trans hrest
    · by_cases hj : j = i
      · subst hj
        exact hR.others _ _ (fun j' h3 h4 => (hne j' h3 h4).symm) hlk
      · exact hR.loose j (by omega) (by omega)
    · exact hR.others g r' (fun j h1 h2 => hg j (by omega) (by omega)) (hsp.loose g r' (hg i le_rfl (by omega)) hx)
    · rw [hu e w hw (by omega)]
      exact hsame e w fun hc => hout (by
        obtain ⟨rfl, rfl⟩ := Prod.mk.inj hc
        omega)

end Loops

/-! ## Runs -/

/-- The objects and the holds on them: by the environment with a directory, on the object with an ID, at an address. -/
structure ShareHolds where
  shares : Shares
  holds : List (Nat × Int × Nat)

namespace ShareHolds

abbrev mem (w : ShareHolds) : Mem := w.shares.kernel.mem

/-- How often an object is held. -/
def holdsOn (w : ShareHolds) (ID : Int) : Nat := w.holds.countP (·.2.1 = ID)

/-- A call that returned `r` and left `t`. -/
def after (w : ShareHolds) (t : Shares) (r : Int) : ShareCall → ShareHolds
  | .create d _ _ _ _ va => ⟨t, if 0 ≤ r then (d, r, va) :: w.holds else w.holds⟩
  | .get d _ _ va => ⟨t, if 0 ≤ r then (d, r, va) :: w.holds else w.holds⟩
  | .delete d ID va => ⟨t, if 0 ≤ r then w.holds.erase (d, ID, va) else w.holds⟩

/-- A create or get for an environment has its pages below `USER_TOP`; a delete gives back a hold. -/
def Legal (w : ShareHolds) : ShareCall → Prop
  | .create d _ _ size _ va => d ≠ 0 ∧ size < 4294967296 ∧ va / 4096 + numberOfFrames size ≤ userPages
  | .get d o name va => d ≠ 0 ∧ va % pageSize = 0 ∧
    ∀ shr, w.shares.lookup o name.chars = some shr → va / 4096 + shr.numOfFrames ≤ userPages
  | .delete d ID va => (d, ID, va) ∈ w.holds

/-- A call that returns. -/
def Step (w : ShareHolds) (c : ShareCall) (w' : ShareHolds) : Prop :=
  w.Legal c ∧ ∃ r t, c.code w.shares = .ok r t ∧ w' = w.after t r c

/-- An object is referenced as often as it is held, and none of its frames is free while it is mapped. -/
structure Agrees (w : ShareHolds) : Prop where
  references : ∀ shr ∈ w.shares.sharesList, shr.references = w.holdsOn shr.ID
  frames : ∀ shr ∈ w.shares.sharesList, ∀ i f, shr.frames i = some f → ∀ d v, v < userPages → Maps w.mem d v f →
    f ∉ w.mem.freeFrameList

/-- The delete of a hold runs to its end; with the last one the object goes, and each of its frames is free, once. -/
def GivesBack (w : ShareHolds) (d : Nat) (ID : Int) (va : Nat) : Prop :=
  ∃ t, deleteSharedObject d ID va w.shares = .ok 0 t ∧ (w.holdsOn ID = 1 → (∀ shr ∈ t.sharesList, shr.ID ≠ ID) ∧
    ∀ shr ∈ w.shares.sharesList, shr.ID = ID → ∀ i f, shr.frames i = some f → t.kernel.mem.freeFrameList.count f = 1)

/-- What is mapped is mapped at page boundaries where nothing is mapped, an object that is got has fewer than `65535`
holds, and no last hold is given back. -/
def Fits (w : ShareHolds) : ShareCall → Prop
  | .create d _ _ size _ va => va % pageSize = 0 ∧ Vacant w.mem d (va / 4096) 0 (numberOfFrames size)
  | .get d o name va => ∀ shr, w.shares.lookup o name.chars = some shr →
    Vacant w.mem d (va / 4096) 0 shr.numOfFrames ∧ w.holdsOn shr.ID < 65535
  | .delete _ ID _ => w.holdsOn ID ≠ 1

/-! ## The invariant -/

/-- A hold has all pages of its object mapped. -/
def MapsHold (l : List Share) (m : Mem) (h : Nat × Int × Nat) : Prop :=
  h.1 ≠ 0 ∧ h.2.2 % 4096 = 0 ∧ ∃ shr ∈ l, shr.ID = h.2.1 ∧ h.2.2 / 4096 + shr.numOfFrames ≤ userPages ∧
    ∀ i < shr.numOfFrames, ∃ f, shr.frames i = some f ∧ Maps m h.1 (h.2.2 / 4096 + i) f

/-- The frames that the pages of an object count have its references, the others of a large object one; no frame is
twice in an object or in two; and a hold with pages is there once. -/
structure Inv (w : ShareHolds) : Prop where
  ready : SharesReady w.shares
  heap : MapOk w.shares.kernel
  loose : ∀ shr ∈ w.shares.sharesList, ∀ i f, shr.frames i = some f →
    Loose w.mem f (if i < shr.numOfFrames then shr.references else 1)
  inj : ∀ shr ∈ w.shares.sharesList, ∀ shr' ∈ w.shares.sharesList, ∀ i j f, shr.frames i = some f →
    shr'.frames j = some f →
    shr.ID = shr'.ID ∧ i = j
  counts : ∀ shr ∈ w.shares.sharesList, shr.references = w.holdsOn shr.ID ∧ 0 < shr.references ∧
    shr.references < 65536
  mapped : ∀ h ∈ w.holds, MapsHold w.shares.sharesList w.mem h
  once : ∀ h ∈ w.holds, ∀ shr ∈ w.shares.sharesList, shr.ID = h.2.1 → 0 < shr.numOfFrames → w.holds.count h = 1

section Inv

variable {w : ShareHolds} {s t : Shares} {k : Kernel} {shr : Share} {d va size wr : Nat} {o r ID : Int}
    {name : CString}

theorem Inv.agrees (h : w.Inv) : w.Agrees :=
  ⟨fun shr hm => (h.counts shr hm).1, fun shr hm i f hf _ _ _ _ => (h.loose shr hm i f hf).notFree⟩

/-- The frames of an object. -/
theorem Inv.frames (h : w.Inv) (hm : shr ∈ w.shares.sharesList) {g : Nat × Int × Nat} (hg : g ∈ w.holds)
    (hid : g.2.1 = shr.ID) :
    ∃ φ : Nat → Nat, (∀ i < shr.numOfFrames, shr.frames i = some (φ i) ∧ Loose w.mem (φ i) shr.references) ∧
      ∀ i j, i < shr.numOfFrames → j < shr.numOfFrames → φ i = φ j → i = j := by
  obtain ⟨-, -, shr', hm', hid', -, hpages⟩ := h.mapped g hg
  obtain rfl := h.ready.same hm' hm (hid'.trans hid)
  choose! φ hφ using hpages
  refine ⟨φ, fun i hi => ⟨(hφ i hi).1, ?_⟩, fun i j hi hj he => ?_⟩
  · have := h.loose shr' hm i _ (hφ i hi).1
    rwa [if_pos hi] at this
  · exact (h.inj shr' hm shr' hm i j _ (hφ i hi).1 (he ▸ (hφ j hj).1)).2

/-- A page of a hold. -/
theorem Inv.page (h : w.Inv) {g : Nat × Int × Nat} (hg : g ∈ w.holds) (hm : shr ∈ w.shares.sharesList)
    (hid : shr.ID = g.2.1) {i : Nat}
    (hi : i < shr.numOfFrames) :
    g.2.2 / 4096 + i < userPages ∧ ∃ f, shr.frames i = some f ∧ Maps w.mem g.1 (g.2.2 / 4096 + i) f := by
  obtain ⟨-, -, shr', hm', hid', hrange, hpages⟩ := h.mapped g hg
  obtain rfl := h.ready.same hm' hm (hid'.trans hid.symm)
  exact ⟨by omega, hpages i hi⟩

/-- A change of the kernel that keeps the entries of the pages. -/
theorem MapsHold.congr {l : List Share} {m m' : Mem} {g : Nat × Int × Nat} (h : MapsHold l m g)
    (hu : ∀ shr ∈ l, shr.ID = g.2.1 → ∀ i < shr.numOfFrames,
    userEntry m' g.1 (g.2.2 / 4096 + i) = userEntry m g.1 (g.2.2 / 4096 + i)) :
    MapsHold l m' g := by
  obtain ⟨hd, hal, shr, hm, hid, hrange, hpages⟩ := h
  refine ⟨hd, hal, shr, hm, hid, hrange, fun i hi => ?_⟩
  obtain ⟨f, hf, hmap⟩ := hpages i hi
  refine ⟨f, hf, ?_⟩
  rw [Maps, hu shr hm hid i hi]
  exact hmap

/-- Another count, of the references and of the holds. -/
theorem Inv.recount (h : w.Inv) (hm : shr ∈ w.shares.sharesList) {k : Kernel}
    {c : Nat → Nat} {holds : List (Nat × Int × Nat)}
    {φ : Nat → Nat} (hready : SharesReady t) (hk : MapOk k)
    (ht : t = { w.shares with kernel := k }.setShare shr.addr fun x => { x with references := c x.references })
    (hφ : ∀ i < shr.numOfFrames, shr.frames i = some (φ i))
    (hR : Recounted 0 shr.numOfFrames φ (c shr.references) w.mem k.mem)
    (hcount : ∀ x ∈ w.shares.sharesList, holds.countP (·.2.1 = x.ID) =
      if x.ID = shr.ID then c shr.references else w.holdsOn x.ID)
    (hpos : 0 < c shr.references ∧ c shr.references < 65536)
    (hmapped : ∀ g ∈ holds, MapsHold w.shares.sharesList k.mem g)
    (honce : ∀ g ∈ holds, ∀ x ∈ w.shares.sharesList, x.ID = g.2.1 → 0 < x.numOfFrames → holds.count g = 1) :
    Inv ⟨t, holds⟩ := by
  obtain ⟨ψ, hψ⟩ : ∃ ψ : Share → Share, ψ = fun x =>
    if x.addr = shr.addr then { x with references := c x.references } else x :=
    ⟨_, rfl⟩
  have hlist : t.sharesList = w.shares.sharesList.map ψ := by
    rw [ht, hψ]
    rfl
  have hkernel : t.kernel = k := by
    rw [ht]
    rfl
  have hsame : ∀ x, (ψ x).ID = x.ID ∧ (ψ x).frames = x.frames ∧ (ψ x).numOfFrames = x.numOfFrames := by
    intro x
    rw [hψ]
    by_cases ha : x.addr = shr.addr
    · simp [ha, Share.numOfFrames]
    · simp [ha]
  have hrefs : ∀ x ∈ w.shares.sharesList, (ψ x).references =
      if x.ID = shr.ID then c shr.references else x.references := by
    intro x hx
    rw [hψ]
    by_cases ha : x.addr = shr.addr
    · obtain rfl := List.inj_on_of_nodup_map h.ready.addrs hx hm ha
      simp only [if_true]
    · have hid : x.ID ≠ shr.ID := fun hid => ha (h.ready.same hx hm hid ▸ rfl)
      simp only [if_neg ha, if_neg hid]
  refine ⟨hready, hkernel ▸ hk, ?_, ?_, ?_, ?_, ?_⟩
  · -- the frames of the pages of the object were counted, no other
    intro y hy i f hf
    change y ∈ t.sharesList at hy
    rw [hlist] at hy
    obtain ⟨x, hx, rfl⟩ := List.mem_map.1 hy
    obtain ⟨hid, hfr, hn⟩ := hsame x
    rw [hfr] at hf
    show Loose t.kernel.mem f _
    rw [hkernel, hn, hrefs x hx]
    by_cases hxs : x.ID = shr.ID
    · obtain rfl := h.ready.same hx hm hxs
      by_cases hi : i < x.numOfFrames
      · rw [if_pos hi, if_pos rfl]
        obtain rfl : φ i = f := Option.some.inj ((hφ i hi).symm.trans hf)
        exact hR.loose i (Nat.zero_le _) (by omega)
      · rw [if_neg hi]
        have hl := h.loose x hx i f hf
        rw [if_neg hi] at hl
        refine hR.others f 1 (fun j _ hj he => hi ?_) hl
        have hij := (h.inj x hx x hx i j f hf (he ▸ hφ j (by omega))).2
        omega
    · rw [if_neg hxs]
      exact hR.others f _ (fun j _ hj he => hxs (h.inj x hx shr hm i j f hf (he ▸ hφ j (by omega))).1)
        (h.loose x hx i f hf)
  · intro y hy y' hy' i j f hf hf'
    change y ∈ t.sharesList at hy
    change y' ∈ t.sharesList at hy'
    rw [hlist] at hy hy'
    obtain ⟨x, hx, rfl⟩ := List.mem_map.1 hy
    obtain ⟨x', hx', rfl⟩ := List.mem_map.1 hy'
    rw [(hsame x).2.1] at hf
    rw [(hsame x').2.1] at hf'
    rw [(hsame x).1, (hsame x').1]
    exact h.inj x hx x' hx' i j f hf hf'
  · intro y hy
    change y ∈ t.sharesList at hy
    rw [hlist] at hy
    obtain ⟨x, hx, rfl⟩ := List.mem_map.1 hy
    show (ψ x).references = holds.countP (·.2.1 = (ψ x).ID) ∧ _
    rw [(hsame x).1, hcount x hx, hrefs x hx]
    split
    · exact ⟨rfl, hpos⟩
    · exact h.counts x hx
  · intro g hg
    obtain ⟨hd, hal, x, hx, hid, hrange, hpages⟩ := hmapped g hg
    show MapsHold t.sharesList t.kernel.mem g
    rw [hkernel, hlist]
    refine ⟨hd, hal, ψ x, List.mem_map_of_mem hx, (hsame x).1.trans hid, ?_, fun i hi => ?_⟩
    · rw [(hsame x).2.2]
      exact hrange
    · rw [(hsame x).2.2] at hi
      rw [(hsame x).2.1]
      exact hpages i hi
  · intro g hg y hy hid hn
    change y ∈ t.sharesList at hy
    rw [hlist] at hy
    obtain ⟨x, hx, rfl⟩ := List.mem_map.1 hy
    rw [(hsame x).2.2] at hn
    exact honce g hg x hx ((hsame x).1.symm.trans hid) hn

/-! ## Creating -/

theorem numOfFrames_le (h : shr.size = toInt32 size)
    (hs : size < 4294967296) : shr.numOfFrames ≤ numberOfFrames size := by
  have hof : ofInt32 (toInt32 size) = size := by
    unfold ofInt32 toInt32
    split <;> omega
  rw [Share.numOfFrames, h, hof, numberOfFrames]
  obtain ⟨x, hx⟩ : ∃ x, x = add32 size (pageSize - 1) := ⟨_, rfl⟩
  have hlt : x < 4294967296 := by
    rw [hx, add32]
    omega
  rw [← hx, pageSize]
  unfold toInt32
  split
  · rw [Int.tdiv_eq_ediv_of_nonneg (by omega)]
    omega
  · have hneg : ((x : Nat) : Int) - 4294967296 = -(4294967296 - ((x : Nat) : Int)) := by omega
    have hpos : 0 ≤ (4294967296 - ((x : Nat) : Int)).tdiv (4096 : Nat) := Int.tdiv_nonneg (by omega) (by omega)
    rw [hneg, Int.neg_tdiv]
    omega

theorem allocShare_keeps {a : Option Share} {name : List UInt8} (h : MapOk s.kernel)
    (ha : allocShare o name size wr s = .ok a t) :
    Keeps s.kernel t.kernel := by
  unfold allocShare at ha
  obtain ⟨addr, u, h1, ha⟩ := ok_of_bind ha
  obtain ⟨k, hk, rfl⟩ := onKernel_ok h1
  have hkeep := h.kmalloc hk
  by_cases hz : addr = 0
  · rw [if_pos hz] at ha
    cases ha
    exact hkeep
  rw [if_neg hz] at ha
  obtain ⟨framesStorage, u, h2, ha⟩ := ok_of_bind ha
  obtain ⟨k', hk', rfl⟩ := onKernel_ok h2
  have hkeep' := keeps_trans hkeep (hkeep.ok.kmalloc hk')
  by_cases hf : framesStorage = 0
  · rw [if_pos hf] at ha
    obtain ⟨_, u, h3, ha⟩ := ok_of_bind ha
    obtain ⟨k'', hk'', rfl⟩ := onKernel_ok h3
    cases ha
    exact keeps_trans hkeep' (hkeep'.ok.kfree hk'')
  · rw [if_neg hf] at ha
    cases ha
    exact hkeep'

/-- The heap's calls are no concern of the objects. -/
theorem Inv.keeps (h : w.Inv) (hk : Keeps w.shares.kernel k) (hready : SharesReady { w.shares with kernel := k }) :
    Inv ⟨{ w.shares with kernel := k }, w.holds⟩ :=
  ⟨hready, hk.ok, fun shr hm i f hf => hk.evolves.loose _ _ (h.loose shr hm i f hf), h.inj, h.counts,
    fun g hg => (h.mapped g hg).congr fun _ hm hid _ hi => keeps_user hk (h.page hg hm hid hi).1,
    h.once⟩

/-- A new object, with a hold by the creator. -/
theorem Inv.insert (h : w.Inv) {n : Nat} {φ : Nat → Nat}
    (hready : SharesReady ⟨k, shr :: w.shares.sharesList, false⟩) (hk : MapOk k) (hd : d ≠ 0) (hal : va % 4096 = 0)
    (hN : NewFrames 0 n φ w.mem k.mem) (hframes : ∀ i f, shr.frames i = some f ↔ i < n ∧ f = φ i)
    (hrefs : shr.references = 1)
    (hrange : va / 4096 + n ≤ userPages) (hle : shr.numOfFrames ≤ n)
    (hmaps : ∀ i < n, Maps k.mem d (va / 4096 + i) (φ i))
    (hother : ∀ g ∈ w.holds, MapsHold w.shares.sharesList k.mem g) :
    Inv ⟨⟨k, shr :: w.shares.sharesList, false⟩, (d, shr.ID, va) :: w.holds⟩ := by
  -- the ID is new
  have hnew : ∀ x ∈ w.shares.sharesList, x.ID ≠ shr.ID := by
    intro x hx hid
    obtain rfl := hready.same (List.mem_cons_of_mem _ hx) List.mem_cons_self hid
    have := hready.addrs
    simp only [List.map_cons, List.nodup_cons, List.mem_map, not_exists, not_and] at this
    exact this.1 x hx rfl
  have hnone : ∀ g ∈ w.holds, g.2.1 ≠ shr.ID := by
    intro g hg hid
    obtain ⟨-, -, x, hx, hid', -⟩ := h.mapped g hg
    exact hnew x hx (hid'.trans hid)
  have hfresh : ∀ i < n, ∀ x ∈ w.shares.sharesList, ∀ j, x.frames j ≠ some (φ i) := fun i hi x hx j hc =>
    hN.fresh i (Nat.zero_le i) (by omega) _ (h.loose x hx j _ hc)
  have hzero : w.holds.countP (·.2.1 = shr.ID) = 0 :=
    List.countP_eq_zero.2 fun g hg => by simpa using hnone g hg
  refine ⟨hready, hk, ?_, ?_, ?_, ?_, ?_⟩
  · intro x hx i f hf
    rcases List.mem_cons.1 hx with rfl | hx
    · obtain ⟨hi, rfl⟩ := (hframes i f).1 hf
      rw [hrefs, ite_self]
      exact hN.loose i (Nat.zero_le i) (by omega)
    · exact hN.keeps f _ (h.loose x hx i f hf)
  · intro x hx x' hx' i j f hf hf'
    rcases List.mem_cons.1 hx with rfl | hold <;> rcases List.mem_cons.1 hx' with rfl | hold'
    · obtain ⟨hi, rfl⟩ := (hframes i f).1 hf
      obtain ⟨hj, he⟩ := (hframes j _).1 hf'
      exact ⟨rfl, hN.inj i j (Nat.zero_le i) (by omega) (Nat.zero_le j) (by omega) he⟩
    · obtain ⟨hi, rfl⟩ := (hframes i f).1 hf
      exact absurd hf' (hfresh i hi x' hold' j)
    · obtain ⟨hj, rfl⟩ := (hframes j f).1 hf'
      exact absurd hf (hfresh j hj x hold i)
    · exact h.inj x hold x' hold' i j f hf hf'
  · intro x hx
    show x.references = ((d, shr.ID, va) :: w.holds).countP (·.2.1 = x.ID) ∧ _
    rcases List.mem_cons.1 hx with rfl | hx
    · rw [List.countP_cons_of_pos (by simp), hzero, hrefs]
      decide
    · rw [List.countP_cons_of_neg (by simpa using (hnew x hx).symm)]
      exact h.counts x hx
  · intro g hg
    rcases List.mem_cons.1 hg with rfl | hg
    · exact ⟨hd, hal, shr, List.mem_cons_self, rfl, by show va / 4096 + _ ≤ _; omega,
        fun i hi => ⟨φ i, (hframes i _).2 ⟨by omega, rfl⟩, hmaps i (by omega)⟩⟩
    · obtain ⟨hd', hal', x, hx, hid, hr, hp⟩ := hother g hg
      exact ⟨hd', hal', x, List.mem_cons_of_mem _ hx, hid, hr, hp⟩
  · intro g hg x hx hid hpos
    rcases List.mem_cons.1 hg with rfl | hold
    · rw [List.count_cons_self, List.count_eq_zero.2 fun hc => hnone _ hc rfl]
    · have hne : g ≠ (d, shr.ID, va) := fun hc => hnone g hold (congrArg (·.2.1) hc)
      rw [List.count_cons_of_ne hne.symm]
      rcases List.mem_cons.1 hx with rfl | hx
      · exact absurd hid.symm (hnone g hold)
      · exact h.once g hold x hx hid hpos

theorem Inv.create (h : w.Inv) {name : CString} (hl : w.Legal (.create d o name size wr va))
    (hfit : w.Fits (.create d o name size wr va))
    (hr : createSharedObject d o name.chars size wr va w.shares = .ok r t) :
    (w.after t r (.create d o name size wr va)).Inv := by
  obtain ⟨hd, hsize, hrange⟩ := hl
  obtain ⟨hal, hvac⟩ := hfit
  obtain ⟨hready, -⟩ := create_ready h.ready hd (fun _ => hrange) hr
  have hneg : ∀ {t' : Shares} {r' : Int}, r' < 0 → w.after t' r' (.create d o name size wr va) = ⟨t', w.holds⟩ := by
    intro t' r' hr'
    simp only [after, if_neg (Int.not_le.2 hr')]
  cases (create_ok hr).2 with
  | found hf =>
    rw [hneg (by decide)]
    exact h
  | @noMemory k hf ha =>
    rw [hneg (by decide)]
    exact h.keeps (allocShare_keeps (s := w.shares.locked) h.heap ha) hready
  | misaligned hf ha hva => exact absurd hal hva
  | @mapped k shr u hf ha hva hp =>
    have hkeep := allocShare_keeps (s := w.shares.locked) h.heap ha
    obtain ⟨-, hsome⟩ := allocShare_ok ha
    obtain ⟨k₁, fs, -, -, -, -, hnew⟩ := hsome shr rfl
    have hva : va = va / 4096 * 4096 := by
      simp only [pageSize] at hal
      omega
    have hvac' : Vacant k.mem d (va / 4096) 0 (numberOfFrames size) := by
      intro j h1 h2
      rw [keeps_user hkeep (by omega)]
      exact hvac j h1 h2
    have hrange' : va / 4096 + 0 + numberOfFrames size ≤ userPages := hrange
    rw [hva] at hp
    obtain ⟨φ, hok, hN, hM, hu⟩ := createPages_loose hd (numberOfFrames size) 0
      ({ w.shares.locked with kernel := k }.insert shr) u
      hkeep.ok hrange' hvac' hp
    -- only the new object is at the address
    have haddrs : u.sharesList.map (·.addr) = shr.addr :: w.shares.sharesList.map (·.addr) := by
      rw [hu]
      exact setShare_map (·.addr) _ _ fun _ => rfl
    have haddr : ∀ x ∈ w.shares.sharesList, x.addr ≠ shr.addr := by
      intro x hx hc
      have hnodup : (u.sharesList.map (·.addr)).Nodup := hready.addrs
      rw [haddrs] at hnodup
      exact (List.nodup_cons.1 hnodup).1 (hc ▸ List.mem_map_of_mem (f := (·.addr)) hx)
    have hID : shr.ID = (shr.addr % 2147483648 : Nat) := by
      rw [hnew]
      rfl
    have hlist : u.unlocked = ⟨u.kernel, shr.withFrames 0 (numberOfFrames size) φ :: w.shares.sharesList, false⟩ := by
      have hl : u.sharesList = shr.withFrames 0 (numberOfFrames size) φ :: w.shares.sharesList := by
        rw [hu, Shares.setShare]
        simp only [insert_list, List.map_cons, if_true]
        refine congrArg _ ((List.map_congr_left fun x hx => ?_).trans (List.map_id _))
        rw [if_neg (haddr x hx)]
        rfl
      show (⟨u.kernel, u.sharesList, false⟩ : Shares) = _
      rw [hl]
    have hafter : w.after u.unlocked shr.ID (.create d o name size wr va) =
        ⟨u.unlocked, (d, shr.ID, va) :: w.holds⟩ := by
      simp only [after, if_pos (show 0 ≤ shr.ID by omega)]
    rw [hafter, hlist]
    rw [hlist] at hready
    have hN' : NewFrames 0 (numberOfFrames size) φ w.mem u.kernel.mem :=
      ⟨fun f r hl => hN.keeps f r (hkeep.evolves.loose f r hl), hN.loose,
        fun j h1 h2 r hl => hN.fresh j h1 h2 r (hkeep.evolves.loose _ r hl), hN.inj⟩
    refine h.insert hready hok hd hal hN' ?_ ?_ hrange ?_ ?_ ?_
    · intro i f
      show (if 0 ≤ i ∧ i < 0 + numberOfFrames size then some (φ i) else shr.frames i) = some f ↔ _
      have hnone : shr.frames i = none := by
        rw [hnew]
        rfl
      rw [hnone, Nat.zero_add]
      by_cases hi : i < numberOfFrames size
      · rw [if_pos ⟨Nat.zero_le i, hi⟩, Option.some.injEq]
        constructor
        · exact fun he => ⟨hi, he.symm⟩
        · exact fun he => he.2.symm
      · rw [if_neg fun hc => hi hc.2]
        constructor
        · intro he
          cases he
        · exact fun he => absurd he.1 hi
    · rw [hnew]
      rfl
    · refine numOfFrames_le ?_ hsize
      rw [hnew]
      rfl
    · exact fun i hi => maps_linked (hM.mapped i (Nat.zero_le i) (by omega))
    · refine fun g hg => (h.mapped g hg).congr fun x hx hid i hi => ?_
      -- the page of the hold is present, so it is none of the new ones
      obtain ⟨hv, f, hf, hpres, -⟩ := h.page hg hx hid hi
      refine (hM.other _ _ hv ?_).trans (keeps_user hkeep hv)
      rintro ⟨he, h1, h2⟩
      have := hvac (g.2.2 / 4096 + i - va / 4096) (Nat.zero_le _) (by omega)
      rw [← he, Nat.add_sub_cancel' (by omega)] at this
      exact absurd (this.symm.trans hpres) (by decide)

/-! ## Getting and giving back -/

/-- An object has a hold. -/
theorem Inv.held (h : w.Inv) (hm : shr ∈ w.shares.sharesList) : ∃ g ∈ w.holds, g.2.1 = shr.ID := by
  obtain ⟨hc, hpos, -⟩ := h.counts shr hm
  rw [hc, holdsOn, List.countP_pos_iff] at hpos
  obtain ⟨g, hg, hid⟩ := hpos
  exact ⟨g, hg, of_decide_eq_true hid⟩

theorem Inv.get (h : w.Inv) {name : CString} (hl : w.Legal (.get d o name va)) (hfit : w.Fits (.get d o name va))
    (hr : getSharedObject d o name.chars va w.shares = .ok r t) : (w.after t r (.get d o name va)).Inv := by
  obtain ⟨hd, hal, hrange⟩ := hl
  obtain ⟨hready, -⟩ := get_ready h.ready hd hal hrange hr
  rcases (get_ok hr).2 with ⟨-, rfl, rfl⟩ | ⟨shr, k, hlook, hp, rfl, ht⟩
  · rw [after, if_neg (by decide)]
    exact h
  have hm : shr ∈ w.shares.sharesList := List.mem_of_find?_eq_some hlook
  have hva : va = va / 4096 * 4096 := by
    simp only [pageSize] at hal
    omega
  have hrange' : va / 4096 + 0 + shr.numOfFrames ≤ userPages := hrange shr hlook
  obtain ⟨hvac, hfew⟩ := hfit shr hlook
  obtain ⟨hc, -, -⟩ := h.counts shr hm
  rw [← hc] at hfew
  have hone : add32 shr.references 1 = shr.references + 1 := add32_of_lt (by omega)
  obtain ⟨g₀, hg₀, hid₀⟩ := h.held hm
  obtain ⟨φ, hφ, hinj⟩ := h.frames hm hg₀ hid₀
  rw [hva] at hp
  obtain ⟨-, hM⟩ := getPages_spec (v := va / 4096) (f := φ) shr _ 0 w.shares.locked _ h.ready.kernel.heap hrange' hvac
    (fun j _ hj => (hφ j (by omega)).1) hp
  obtain ⟨hk, hR⟩ := getPages_loose (v := va / 4096) (f := φ) (r := shr.references) hd shr
    (by omega) _ 0 w.shares.locked _ h.heap hrange' hvac
    (fun j _ hj => (hφ j (by omega)).1) (fun i j _ hi _ hj => hinj i j (by omega) (by omega))
    (fun j _ hj => (hφ j (by omega)).2) hp
  have hID : 0 ≤ shr.ID := by
    rw [h.ready.ids shr hm]
    omega
  rw [after, if_pos hID]
  -- a page that was not present is none of a hold
  have hvacant : ∀ {e v : Nat} {f : Nat}, e = d → va / 4096 ≤ v → v < va / 4096 + shr.numOfFrames →
    ¬ Maps w.mem e v f :=
    fun {e v f} he h1 h2 hmaps => by
      have := hvac (v - va / 4096) (Nat.zero_le _) (by omega)
      rw [← he, Nat.add_sub_cancel' h1] at this
      exact absurd (this.symm.trans hmaps.1) (by decide)
  have hmapped : ∀ g ∈ w.holds, MapsHold w.shares.sharesList k.mem g := fun g hg =>
    (h.mapped g hg).congr fun x hx hid i hi => by
      obtain ⟨hv, f, -, hmaps⟩ := h.page hg hx hid hi
      exact hM.other _ _ hv fun hc => hvacant hc.1 (by omega) (by omega) hmaps
  refine h.recount (c := (add32 · 1)) hm hready hk ht (fun i hi => (hφ i hi).1) (hone ▸ hR) (fun x hx => ?_) ?_
    (fun g hg => ?_)
    fun g hg x hx hid hpos => ?_
  · rw [List.countP_cons, hone]
    by_cases hid : x.ID = shr.ID
    · obtain rfl := h.ready.same hx hm hid
      rw [if_pos rfl, hc, holdsOn, if_pos (by simp)]
    · rw [if_neg hid, holdsOn, if_neg (by simpa using Ne.symm hid)]
      rfl
  · rw [hone]
    omega
  · rcases List.mem_cons.1 hg with rfl | hg
    · exact ⟨hd, hal, shr, hm, rfl, hrange shr hlook,
        fun i hi => ⟨φ i, (hφ i hi).1, maps_linked (hM.mapped i (Nat.zero_le i) (by omega))⟩⟩
    · exact hmapped g hg
  · by_cases hnew : g = (d, shr.ID, va)
    · subst hnew
      obtain rfl := h.ready.same hx hm hid
      have hno : (d, x.ID, va) ∉ w.holds := by
        intro hold
        obtain ⟨-, f, -, hmaps⟩ := h.page hold hx hid hpos
        dsimp only at hmaps
        exact hvacant rfl (Nat.le_add_right _ _) (Nat.add_lt_add_left hpos _) hmaps
      rw [List.count_cons_self, List.count_eq_zero.2 hno]
    · rw [List.count_cons_of_ne (Ne.symm hnew)]
      exact h.once g ((List.mem_cons.1 hg).resolve_left hnew) x hx hid hpos

theorem Inv.delete (h : w.Inv) (hl : w.Legal (.delete d ID va)) (hfit : w.Fits (.delete d ID va))
    (hr : deleteSharedObject d ID va w.shares = .ok r t) : (w.after t r (.delete d ID va)).Inv := by
  have hl : (d, ID, va) ∈ w.holds := hl
  have hfit : w.holdsOn ID ≠ 1 := hfit
  obtain ⟨hd, hal, shr₀, hm₀, hid₀, hrange, -⟩ := h.mapped _ hl
  have hal : va % 4096 = 0 := hal
  have hva : va = va / 4096 * 4096 := by omega
  have hrange : va / 4096 + shr₀.numOfFrames ≤ userPages := hrange
  obtain ⟨hready, -⟩ := delete_ready h.ready hd (fun shr hm hid => by
    obtain rfl := h.ready.same hm hm₀ (hid.trans hid₀.symm)
    simp only [userPages] at hrange
    simp only [userTop]
    omega) hr
  rcases (delete_ok hr).2 with ⟨-, rfl, rfl⟩ | ⟨shr, k, hf, -, hp, rfl, ht⟩
  · rw [after, if_neg (by decide)]
    exact h
  have hm : shr ∈ w.shares.sharesList := List.mem_of_find?_eq_some hf
  have hid := List.find?_some hf
  have hid : shr.ID = ID := of_decide_eq_true hid
  obtain rfl := h.ready.same hm hm₀ (hid.trans hid₀.symm)
  obtain ⟨φ, hφ, hinj⟩ := h.frames hm hl hid.symm
  obtain ⟨hc, hpos, hlt⟩ := h.counts shr hm
  have h2 : 2 ≤ shr.references := by
    rw [← hid, ← hc] at hfit
    omega
  have hone : sub32 shr.references 1 = shr.references - 1 := sub32_of_le (by omega) (by omega)
  have hpage : ∀ i < shr.numOfFrames, Maps w.mem d (va / 4096 + i) (φ i) := by
    intro i hi
    obtain ⟨-, f, hf, hmaps⟩ := h.page hl hm hid hi
    obtain rfl : φ i = f := Option.some.inj ((hφ i hi).1.symm.trans hf)
    exact hmaps
  have hheld : ∀ i < shr.numOfFrames, (userEntry w.mem d (va / 4096 + i)).held = some (φ i) := by
    intro i hi
    rw [held_of_present (hpage i hi).1, (hpage i hi).2]
  rw [hva] at hp
  obtain ⟨k', hp', hk, hR, hother⟩ := deletePages_loose (v := va / 4096) (f := φ) hd h2 hlt shr.numOfFrames 0
    w.shares.locked h.heap hrange (fun j _ hj => hheld j (by omega))
    (fun i j _ hi _ hj => hinj i j (by omega) (by omega)) fun j _ hj => (hφ j (by omega)).2
  rw [hp'] at hp
  obtain rfl : k' = k := congrArg Shares.kernel (EStateM.Result.ok.inj hp).2
  rw [after, if_pos le_rfl]
  -- a hold with a page in the range is the one that is given back, and is there once
  have hout : ∀ g ∈ w.holds.erase (d, ID, va), ∀ x ∈ w.shares.sharesList, x.ID = g.2.1 → ∀ i < x.numOfFrames,
      ¬(g.1 = d ∧ va / 4096 ≤ g.2.2 / 4096 + i ∧ g.2.2 / 4096 + i < va / 4096 + shr.numOfFrames) := by
    rintro g hg x hx hxid i hi ⟨hgd, h1, h2⟩
    have hold := List.mem_of_mem_erase hg
    obtain ⟨-, f, hf, hmaps⟩ := h.page hold hx hxid hi
    have hpg := hpage (g.2.2 / 4096 + i - va / 4096) (by omega)
    rw [← hgd, Nat.add_sub_cancel' h1] at hpg
    obtain rfl : φ (g.2.2 / 4096 + i - va / 4096) = f := hpg.2.symm.trans hmaps.2
    obtain ⟨hsame, hij⟩ := h.inj x hx shr hm i _ _ hf (hφ _ (by omega)).1
    have hij : i = g.2.2 / 4096 + i - va / 4096 := hij
    obtain ⟨-, hgal, -⟩ := h.mapped g hold
    have hgva : g.2.2 = va := by omega
    have heq : g = (d, ID, va) := Prod.ext hgd (Prod.ext (hxid.symm.trans (hsame.trans hid)) hgva)
    have honce := h.once _ hl shr hm hid (by omega)
    have hgone : (w.holds.erase (d, ID, va)).count (d, ID, va) = 0 := by
      rw [List.count_erase_self, honce]
    exact List.count_eq_zero.1 hgone (heq ▸ hg)
  refine h.recount (c := (sub32 · 1)) hm hready hk ht (fun i hi => (hφ i hi).1) (hone ▸ hR) (fun x hx => ?_) ?_
    (fun g hg => ?_)
    fun g hg x hx hxid hpos => ?_
  · rw [List.countP_erase, hone]
    by_cases hxid : x.ID = shr.ID
    · obtain rfl := h.ready.same hx hm hxid
      rw [if_pos rfl, if_pos ⟨hl, by simp [hid]⟩, hc, holdsOn]
    · have hne : ID ≠ x.ID := fun hc => hxid (hc.symm.trans hid.symm)
      rw [if_neg hxid, holdsOn, if_neg fun hc => hne (by simpa using hc.2), Nat.sub_zero]
  · rw [hone]
    omega
  · exact (h.mapped g (List.mem_of_mem_erase hg)).congr fun x hx hxid i hi =>
      hother _ _ (h.page (List.mem_of_mem_erase hg) hx hxid hi).1 (hout g hg x hx hxid i hi)
  · have honce := h.once g (List.mem_of_mem_erase hg) x hx hxid hpos
    have hle := (List.erase_sublist (a := (d, ID, va)) (l := w.holds)).count_le g
    have hge := List.count_pos_iff.2 hg
    omega

theorem Inv.step (w : ShareHolds) (c : ShareCall) (w' : ShareHolds) (h : w.Inv) (hfit : w.Fits c)
    (hs : w.Step c w') : w'.Inv := by
  obtain ⟨hl, r, t, hr, rfl⟩ := hs
  cases c with
  | create d o name size wr va => exact h.create hl hfit hr
  | get d o name va => exact h.get hl hfit hr
  | delete d ID va => exact h.delete hl hfit hr

/-- The delete of a hold comes to an end exactly when there is another: with the last one, `free_share` takes the lock
again. -/
theorem Inv.givesBack_iff (h : w.Inv) (hg : (d, ID, va) ∈ w.holds) : w.GivesBack d ID va ↔ w.holdsOn ID ≠ 1 := by
  obtain ⟨hd, hal, shr, hm, rfl, hrange, -⟩ := h.mapped _ hg
  have hal : va % 4096 = 0 := hal
  have hrange : va / 4096 + shr.numOfFrames ≤ userPages := hrange
  obtain ⟨hc, hpos, hlt⟩ := h.counts shr hm
  show _ ↔ w.holdsOn shr.ID ≠ 1
  rw [← hc]
  have hone : sub32 shr.references 1 = shr.references - 1 := sub32_of_le (by omega) (by omega)
  constructor
  · rintro ⟨t, hr, -⟩
    rcases (delete_ok hr).2 with ⟨-, hneg, -⟩ | ⟨shr', k, hf, hz, -, -, -⟩
    · exact absurd hneg (by decide)
    · obtain rfl : shr' = shr := Option.some.inj (hf.symm.trans (h.ready.find hm))
      rw [hone] at hz
      omega
  · intro hne
    have htop : va + shr.numOfFrames * 4096 ≤ userTop := by
      simp only [userPages] at hrange
      simp only [userTop]
      omega
    obtain ⟨t, hr⟩ := delete_returns h.ready hd hm (by omega) htop
    exact ⟨t, hr, fun hlast => absurd (hc.trans hlast) hne⟩

end Inv

/-! ## The runs -/

/-- The counts and the frames agree with the holds, and a hold is given back exactly when it is not the last. -/
structure AllButLast (w : ShareHolds) : Prop where
  agrees : w.Agrees
  deletes : ∀ d ID va, (d, ID, va) ∈ w.holds → (w.GivesBack d ID va ↔ w.holdsOn ID ≠ 1)

theorem inv_init {s₀ k : Kernel} (hboot : Booted s₀.mem) (hinit : kheapInit s₀ = .ok k)
    (hsize : ∀ i, s₀.allocatedSize.val i = 0) : Inv ⟨sharingInit k, []⟩ := by
  refine ⟨sharingInit_ready hboot hinit hsize, (kheapInit_mapOk hboot hinit hsize).ok, ?_, ?_, ?_, ?_, ?_⟩
  all_goals exact fun _ hm => absurd hm List.not_mem_nil

end ShareHolds

open ShareHolds in
/-- From boot on, in every run of calls that fit: every object has as many references as holds, its frames are off the
free list, and the delete of a hold comes to an end exactly when it is not the last. -/
theorem holds_counted (s₀ k : Kernel) (hboot : Booted s₀.mem) (hinit : kheapInit s₀ = .ok k)
    (hsize : ∀ i, s₀.allocatedSize.val i = 0) (cs : List ShareCall)
    (h : Each ShareHolds.Step Fits ⟨sharingInit k, []⟩ cs) :
    Always ShareHolds.Step AllButLast ⟨sharingInit k, []⟩ cs :=
  Always.mono (fun _ hI => ⟨hI.agrees, fun _ _ _ hg => hI.givesBack_iff hg⟩)
    (h.always Inv.step (inv_init hboot hinit hsize))

/-- An object of one page, created at `USER_HEAP_START`. -/
def createShared : ShareCall := .create 1 7 shortName 1 1 (524288 * 4096)

open ShareHolds in
theorem createShared_fits {k : Kernel} (hinit : kheapInit (unusedKernel machine) = .ok k) :
    Fits ⟨sharingInit k, []⟩ createShared := by
  have hmem : k.mem = machine := (kheapInit_same hinit).1
  refine ⟨by decide, fun j _ hj => ?_⟩
  obtain rfl : j = 0 := by
    have : numberOfFrames 1 = 1 := by decide
    omega
  show (userEntry k.mem 1 524288).perm.present = false
  rw [hmem]
  rfl

namespace ShareHolds

instance (m : Mem) (d v n : Nat) : Decidable (Vacant m d v 0 n) :=
  decidable_of_iff (∀ j < n, (userEntry m d (v + j)).perm.present = false) (by simp [Vacant])

instance (w : ShareHolds) (c : ShareCall) : Decidable (w.Legal c) :=
  match c with
  | .create _ _ _ _ _ _ => inferInstanceAs (Decidable (_ ∧ _ ∧ _))
  | .get d o name va => decidable_of_iff (d ≠ 0 ∧ va % pageSize = 0 ∧
      (w.shares.lookup o name.chars).all (fun shr => va / 4096 + shr.numOfFrames ≤ userPages) = true)
      (by simp [Legal, Option.all_eq_true])
  | .delete _ _ _ => inferInstanceAs (Decidable (_ ∈ _))

instance (w : ShareHolds) (c : ShareCall) : Decidable (w.Fits c) :=
  match c with
  | .create _ _ _ _ _ _ => inferInstanceAs (Decidable (_ ∧ _))
  | .get d o name va => decidable_of_iff ((w.shares.lookup o name.chars).all (fun shr =>
      Vacant w.mem d (va / 4096) 0 shr.numOfFrames ∧ w.holdsOn shr.ID < 65535) = true)
      (by simp [Fits, Option.all_eq_true])
  | .delete _ _ _ => inferInstanceAs (Decidable (_ ≠ _))

/-- The step of a call. -/
def next (w : ShareHolds) (c : ShareCall) : Option ShareHolds :=
  if w.Legal c then
    match c.code w.shares with
    | .ok r t => some (w.after t r c)
    | .error _ _ => none
  else none

theorem next_iff (w : ShareHolds) (c : ShareCall) (w' : ShareHolds) : w.next c = some w' ↔ w.Step c w' := by
  unfold next Step
  by_cases hl : w.Legal c
  · rw [if_pos hl]
    cases hr : c.code w.shares with
    | ok r t =>
      constructor
      · intro h
        exact ⟨hl, r, t, rfl, (Option.some.inj h).symm⟩
      · rintro ⟨-, r', t', hr', rfl⟩
        cases hr'
        rfl
    | error e t =>
      constructor
      · rintro ⟨⟩
      · rintro ⟨-, r', t', hr', -⟩
        cases hr'
  · rw [if_neg hl]
    constructor
    · rintro ⟨⟩
    · rintro ⟨h, -⟩
      exact absurd h hl

end ShareHolds

open ShareHolds in
/-- Two environments hold the object until the second one gives it back. -/
theorem holds_counted_two : ∃ k ID w, kheapInit (unusedKernel machine) = .ok k ∧
    (sharedByTwo ID).foldlM ShareHolds.next ⟨sharingInit k, []⟩ = some w ∧ w.holds = [(1, ID, 0x80000000)] ∧
    AllButLast w := by
  obtain ⟨k, hk, hfits, hends⟩ : ∃ k, kheapInit (unusedKernel machine) = .ok k ∧
      eachNext ShareHolds.next Fits ⟨sharingInit k, []⟩ (sharedByTwo 1979711488) = true ∧
      ((sharedByTwo 1979711488).foldlM ShareHolds.next ⟨sharingInit k, []⟩).any
        (fun w => decide (w.holds = [(1, 1979711488, 0x80000000)])) = true :=
    ⟨_, rfl, by decide +kernel, by decide +kernel⟩
  obtain ⟨w, hw, hholds⟩ := (Option.any_eq_true _ _).1 hends
  have hall := holds_counted (unusedKernel machine) k machine_booted hk (fun _ => rfl) (sharedByTwo 1979711488)
    (Each.of_next (fun w c w' hs => (next_iff w c w').2 hs) hfits)
  exact ⟨k, 1979711488, w, hk, hw, of_decide_eq_true hholds, hall.of_foldlM (fun w c w' h => (next_iff w c w').1 h) hw⟩

/-- The create succeeds. -/
def createsShared (s : Shares) : Bool :=
  match createShared.code s with
  | .ok r _ => 0 ≤ r
  | .error _ _ => false

/-- The creator cannot give its object back. -/
theorem last_hold_kept : ∃ k, kheapInit (unusedKernel machine) = .ok k ∧
    ¬ Always ShareHolds.Step (fun w => w.Agrees ∧ ∀ d ID va, (d, ID, va) ∈ w.holds → w.GivesBack d ID va)
      ⟨sharingInit k, []⟩
      [createShared] := by
  obtain ⟨k, hk, hcreates⟩ : ∃ k, kheapInit (unusedKernel machine) = .ok k ∧ createsShared (sharingInit k) = true :=
    ⟨_, rfl, by decide +kernel⟩
  refine ⟨k, hk, fun h => ?_⟩
  unfold createsShared at hcreates
  split at hcreates
  · rename_i r t hr
    have hpos : 0 ≤ r := by simpa using hcreates
    have hstep : ShareHolds.Step ⟨sharingInit k, []⟩ createShared ⟨t, [(1, r, 524288 * 4096)]⟩ := by
      refine ⟨⟨by decide, by decide, by decide⟩, r, t, hr, ?_⟩
      simp [ShareHolds.after, createShared, hpos]
    have hI := ShareHolds.Inv.step _ _ _ (ShareHolds.inv_init machine_booted hk fun _ => rfl)
      (createShared_fits hk) hstep
    have hgives := (h.2 _ hstep).head.2 1 r (524288 * 4096) List.mem_cons_self
    exact (hI.givesBack_iff List.mem_cons_self).1 hgives (by simp [ShareHolds.holdsOn])
  · cases hcreates

end Fos.Shared
