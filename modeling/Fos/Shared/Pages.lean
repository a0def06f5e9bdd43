/-
The pages of a shared object: the creator's range and a getter's range map the same frames, page by
page, and no other user page changes. An object of more than `2147479552` bytes has a negative page count
for its getters, who map nothing and return its ID all the same.
-/
import Fos.Shared.Calls
import Fos.Memory.UserPages

namespace Fos.Shared

open Fos.Lib Fos.Memory Fos.Heap

/-! ## Ranges of pages -/

/-- From page `i` of a range on, `n` pages were linked to the frames `f`; no other user page changed. -/
structure MapsRange (d v i n : Nat) (f : Nat → Nat) (perm : Perm) (m m' : Mem) : Prop where
  mapped : ∀ j, i ≤ j → j < i + n → userEntry m' d (v + j) = (userEntry m d (v + j)).linked (f j) perm
  other : ∀ e w, w < userPages → ¬(e = d ∧ v + i ≤ w ∧ w < v + i + n) → userEntry m' e w = userEntry m e w

/-- The pages of a range are not present. -/
def Vacant (m : Mem) (d v i n : Nat) : Prop := ∀ j, i ≤ j → j < i + n → (userEntry m d (v + j)).perm.present = false

section Ranges

variable {d v i n g : Nat} {f : Nat → Nat} {perm : Perm} {m m₁ m' : Mem}

theorem MapsRange.empty (m : Mem) : MapsRange d v i 0 f perm m m :=
  ⟨fun j h1 h2 => by omega, fun _ _ _ _ => rfl⟩

/-- The first page, and the rest of the loop. -/
theorem MapsRange.cons (hrange : v + i + (n + 1) ≤ userPages)
    (hself : userEntry m₁ d (v + i) = (userEntry m d (v + i)).linked g perm)
    (hother : ∀ e w, w < userPages → (e, w) ≠ (d, v + i) → userEntry m₁ e w = userEntry m e w)
    (h : MapsRange d v (i + 1) n f perm m₁ m') : MapsRange d v i (n + 1) (Function.update f i g) perm m m' := by
  constructor
  · intro j h1 h2
    rw [Function.update_apply]
    by_cases hj : j = i
    · rw [if_pos hj, hj, h.other d (v + i) (by omega) (by omega), hself]
    · rw [if_neg hj, h.mapped j (by omega) (by omega), hother d (v + j) (by omega) (by simp; omega)]
  · intro e w hw hout
    rw [h.other e w hw (by omega)]
    refine hother e w hw fun he => hout ?_
    obtain ⟨rfl, rfl⟩ := Prod.mk.inj he
    omega

theorem Vacant.rest (h : Vacant m d v i (n + 1)) (hrange : v + i + (n + 1) ≤ userPages)
    (hother : ∀ e w, w < userPages → (e, w) ≠ (d, v + i) → userEntry m₁ e w = userEntry m e w) :
    Vacant m₁ d v (i + 1) n := by
  intro j h1 h2
  rw [hother d (v + j) (by omega) (by simp; omega)]
  exact h j (by omega) (by omega)

theorem pageOf_eq (h : v + i < userPages) : pageOf (v * 4096) i = (v + i) * 4096 := by
  simp only [userPages] at h
  have h1 : mul32 i pageSize = i * 4096 := mul32_of_lt (by simp only [pageSize]; omega)
  rw [pageOf, h1, add32_of_lt (by omega)]
  omega

end Ranges

/-! ## The loops -/

section Loops

variable {d v addr : Nat}

def createPerm : Perm := { user := true, writeable := true, present := true }

/-- What the loop of `create_shared_object` records in the object. -/
def Share.withFrames (shr : Share) (i n : Nat) (f : Nat → Nat) : Share :=
  { shr with frames := fun j => if i ≤ j ∧ j < i + n then some (f j) else shr.frames j }

theorem Share.withFrames_zero (shr : Share) (i : Nat) (f : Nat → Nat) : shr.withFrames i 0 f = shr := by
  have : ∀ j, ¬(i ≤ j ∧ j < i) := fun j => by omega
  simp only [Share.withFrames, Nat.add_zero, this, if_false]

theorem Share.withFrames_cons (shr : Share) (i n g : Nat) (f : Nat → Nat) :
    Share.withFrames { shr with frames := Function.update shr.frames i (some g) } (i + 1) n f =
      shr.withFrames i (n + 1) (Function.update f i g) := by
  simp only [Share.withFrames, Share.mk.injEq, true_and]
  funext j
  simp only [Function.update_apply]
  by_cases hj : j = i
  · subst hj
    rw [if_neg (by omega), if_pos rfl, if_pos (by omega), if_pos rfl]
  · by_cases hin : i + 1 ≤ j ∧ j < i + 1 + n
    · rw [if_pos hin, if_pos (by omega), if_neg hj]
    · rw [if_neg hin, if_neg hj, if_neg (by omega)]

theorem setShare_twice (s : Shares) (addr : Nat) (g g' : Share → Share) (hg : ∀ shr, (g shr).addr = shr.addr) :
    (s.setShare addr g).setShare addr g' = s.setShare addr fun shr => g' (g shr) := by
  simp only [Shares.setShare, List.map_map, Shares.mk.injEq, true_and, and_true]
  apply List.map_congr_left
  intro shr _
  by_cases h : shr.addr = addr
  · simp [h, hg]
  · simp [h]

theorem setShare_id (s : Shares) : s.setShare addr (fun shr => shr) = s := by
  simp only [Shares.setShare, ite_self, List.map_id']

theorem createPages_spec : ∀ (n i : Nat) (s t : Shares), HeapReady s.kernel → v + i + n ≤ userPages →
    Vacant s.kernel.mem d v i n → createPages d addr (v * 4096) i n s = .ok () t →
    ∃ f, HeapReady t.kernel ∧ MapsRange d v i n f createPerm s.kernel.mem t.kernel.mem ∧
      t = { s with kernel := t.kernel }.setShare addr fun shr => shr.withFrames i n f
  | 0, i, s, t, h, _, _, hr => by
    cases hr
    refine ⟨fun _ => 0, h, .empty _, ?_⟩
    simp only [Share.withFrames_zero]
    exact (setShare_id s).symm
  | n + 1, i, s, t, h, hrange, hvac, hr => by
    obtain ⟨g, m, k, ha, hmap, hr⟩ := createPages_round hr
    obtain ⟨hta, hua⟩ := allocateFrame_user ha
    have hi : v + i < userPages := by omega
    rw [pageOf_eq hi] at hmap
    have hready : HeapReady { s.kernel with mem := m } := h.mem hta
    obtain ⟨hk', hself, hother⟩ := mapFrame_user (s := { s.kernel with mem := m }) hi hready
      ((congrArg (·.perm.present) (hua d (v + i))).trans (hvac i le_rfl (by omega))) hmap
    have hother' : ∀ e w, w < userPages → (e, w) ≠ (d, v + i) → userEntry k.mem e w = userEntry s.kernel.mem e w :=
      fun e w hw hne => (hother e w hw hne).trans (hua e w)
    rw [show userEntry ({ s.kernel with mem := m } : Kernel).mem d (v + i) = _ from hua d (v + i)] at hself
    obtain ⟨f, ht, hM, htl⟩ := createPages_spec n (i + 1) _ t hk' (by omega) (hvac.rest hrange hother') hr
    refine ⟨Function.update f i g, ht, hM.cons hrange hself hother', ?_⟩
    have htwice := setShare_twice { s with kernel := t.kernel } addr
      (fun shr => { shr with frames := Function.update shr.frames i (some g) })
      (fun shr => shr.withFrames (i + 1) n f) fun _ => rfl
    simp only [Share.withFrames_cons] at htwice
    exact htl.trans htwice

theorem getPages_spec (shr : Share) {f : Nat → Nat} : ∀ (n i : Nat) (s t : Shares), HeapReady s.kernel →
    v + i + n ≤ userPages → Vacant s.kernel.mem d v i n → (∀ j, i ≤ j → j < i + n → shr.frames j = some (f j)) →
    getPages d shr (v * 4096) i n s = .ok () t →
    HeapReady t.kernel ∧ MapsRange d v i n f shr.perm s.kernel.mem t.kernel.mem
  | 0, i, s, t, h, _, _, _, hr => by
    cases hr
    exact ⟨h, .empty _⟩
  | n + 1, i, s, t, h, hrange, hvac, hf, hr => by
    obtain ⟨g, k, hg, hmap, hr⟩ := getPages_round hr
    obtain rfl : g = f i := Option.some.inj (hg.symm.trans (hf i le_rfl (by omega)))
    have hi : v + i < userPages := by omega
    rw [pageOf_eq hi] at hmap
    obtain ⟨hk, hself, hother⟩ := mapFrame_user hi h (hvac i le_rfl (by omega)) hmap
    obtain ⟨ht, hM⟩ := getPages_spec shr n (i + 1) _ t hk (by omega) (hvac.rest hrange hother)
      (fun j h1 h2 => hf j (by omega) (by omega)) hr
    refine ⟨ht, ?_⟩
    have := hM.cons hrange hself hother
    rwa [Function.update_eq_self] at this

end Loops

/-! ## Page counts -/

section Counts

variable {size : Nat}

/-- An object that could be allocated has `ceil(size / PAGE_SIZE)` pages, and at least one. -/
theorem numberOfFrames_eq (h : numberOfFrames size ≠ 0) (hs : size < 4294967296) :
    numberOfFrames size = (size + 4095) / 4096 ∧ 0 < (size + 4095) / 4096 ∧ size ≤ 4294963200 := by
  simp only [numberOfFrames, add32, pageSize] at *
  omega

/-- The count of a getter: as an `int`, the size of a large object is negative or its sum wraps. -/
theorem numOfFrames_eq (shr : Share) (h : shr.size = toInt32 size) (hs : size ≤ 4294963200) :
    shr.numOfFrames = if size ≤ 2147479552 then (size + 4095) / 4096 else 0 := by
  rw [Share.numOfFrames, h]
  have hof : ofInt32 (toInt32 size) = size := by
    unfold ofInt32 toInt32
    split <;> omega
  rw [hof, pageSize]
  unfold toInt32 add32
  have hmod : (size + (4096 - 1)) % 4294967296 = size + 4095 := by omega
  rw [hmod]
  by_cases hle : size ≤ 2147479552
  · rw [if_pos hle, if_pos (by omega), Int.tdiv_eq_ediv_of_nonneg (by omega)]
    omega
  · rw [if_neg hle, if_neg (by omega)]
    have hpos : 0 ≤ (4294967296 - ((size + 4095 : Nat) : Int)).tdiv (4096 : Nat) :=
      Int.tdiv_nonneg (by omega) (by omega)
    have hneg : ((size + 4095 : Nat) : Int) - 4294967296 = -(4294967296 - ((size + 4095 : Nat) : Int)) := by omega
    rw [hneg, Int.neg_tdiv]
    omega

end Counts

/-! ## Creating and getting -/

/-- Page `v` of directory `d` maps frame `f`. -/
def Maps (m : Mem) (d v f : Nat) : Prop := (userEntry m d v).perm.present = true ∧ (userEntry m d v).frame = f

/-- Between the create and the get, what the name finds and the creator's `n` pages from `v` on were left
alone, but for references. -/
structure Untouched (t t' : Shares) (o : Int) (name : List UInt8) (d v n : Nat) : Prop where
  ready : HeapReady t'.kernel
  object : ∀ shr', t'.lookup o name = some shr' →
    ∃ shr references, t.lookup o name = some shr ∧ shr' = { shr with references }
  pages : ∀ i < n, userEntry t'.kernel.mem d (v + i) = userEntry t.kernel.mem d (v + i)

/-- After a create from `s` to `t` and a get from `t'` to `u`: the two ranges of `n` pages map the frames of
the object, the getter's as `isWritable` says, and neither call changed another user page. -/
structure SharesPages (s t t' u : Shares) (ID : Int) (n isWritable dA vA dB vB : Nat) : Prop where
  frames : ∃ shr ∈ u.sharesList, shr.ID = ID ∧
    ∀ i < n, ∃ f, shr.frames i = some f ∧ Maps u.kernel.mem dA (vA + i) f ∧ Maps u.kernel.mem dB (vB + i) f
  writeable : ∀ i < n, (userEntry u.kernel.mem dB (vB + i)).perm.writeable = true ↔ isWritable ≠ 0
  created : ∀ d v, v < userPages → ¬(d = dA ∧ vA ≤ v ∧ v < vA + n) →
    userEntry t.kernel.mem d v = userEntry s.kernel.mem d v
  got : ∀ d v, v < userPages → ¬(d = dB ∧ vB ≤ v ∧ v < vB + n) →
    userEntry u.kernel.mem d v = userEntry t'.kernel.mem d v

section CreateGet

variable {s t t' u : Shares} {dA vA dB vB size w : Nat} {o r r' : Int} {name : List UInt8}

theorem maps_linked {m m₀ : Mem} {d v f : Nat} {perm : Perm} (h : userEntry m d v = (userEntry m₀ d v).linked f perm) :
    Maps m d v f := by
  unfold Maps
  rw [h]
  exact ⟨by simp [Pte.linked, Perm.permPresent], rfl⟩

/-- A create that succeeds: its object is the one the name finds, with the frames of the range. -/
theorem create_pages (hk : HeapReady s.kernel) (hsize : size < 4294967296)
    (hrange : vA + (size + 4095) / 4096 ≤ userPages) (hvac : Vacant s.kernel.mem dA vA 0 ((size + 4095) / 4096))
    (hc : createSharedObject dA o name size w (vA * 4096) s = .ok r t) (hr : 0 ≤ r) :
    0 < (size + 4095) / 4096 ∧ size ≤ 4294963200 ∧ HeapReady t.kernel ∧ ∃ f,
      MapsRange dA vA 0 ((size + 4095) / 4096) f createPerm s.kernel.mem t.kernel.mem ∧
      ∀ shr, t.lookup o name = some shr → shr.ID = r ∧ shr.size = toInt32 size ∧ shr.isWritable = w ∧
        ∀ i < (size + 4095) / 4096, shr.frames i = some (f i) := by
  cases (create_ok hc).2 with
  | found hl => exact absurd hr (by decide)
  | noMemory hl ha => exact absurd hr (by decide)
  | misaligned hl ha hva => exact absurd hr (by decide)
  | @mapped k shr t₁ hl ha hva hp =>
    obtain ⟨k₁, fs, hk₁, -, hk₂, hfs, hnew⟩ := (allocShare_ok ha).2 shr rfl
    obtain ⟨hready₁, hw₁⟩ := hk.kmalloc hk₁
    obtain ⟨hready₂, hw₂⟩ := hready₁.kmalloc hk₂
    have hne : numberOfFrames size ≠ 0 := by
      intro hz
      rw [hz] at hk₂
      have hk₂' : kmalloc 0 k₁ = .ok fs _ := hk₂
      rw [kmalloc_empty (lock_free hk₂')] at hk₂'
      exact hfs (EStateM.Result.ok.inj hk₂').1.symm
    obtain ⟨hn, hpos, hle⟩ := numberOfFrames_eq hne hsize
    rw [hn] at hp
    have hw : ∀ e v, v < userPages → userEntry k.mem e v = userEntry s.kernel.mem e v := fun e v hv =>
      (userEntry_within hw₂ hv).trans (userEntry_within hw₁ hv)
    have hvac' : Vacant k.mem dA vA 0 ((size + 4095) / 4096) := by
      intro j h1 h2
      rw [hw dA (vA + j) (by omega)]
      exact hvac j h1 h2
    have hready : HeapReady ({ s.locked with kernel := k }.insert shr : Shares).kernel := hready₂
    obtain ⟨f, hready', hM, ht⟩ := createPages_spec _ 0 _ t₁ hready (by omega) hvac' hp
    refine ⟨hpos, hle, hready', f, ⟨fun j h1 h2 => ?_, fun e v hv hout => ?_⟩, fun shr' hl' => ?_⟩
    · rw [← hw dA (vA + j) (by omega)]
      exact hM.mapped j h1 h2
    · exact (hM.other e v hv hout).trans (hw e v hv)
    · -- the name found nothing before, so it finds the new object
      have hlist : t₁.sharesList = (shr :: s.sharesList).map fun a =>
          if a.addr = shr.addr then a.withFrames 0 ((size + 4095) / 4096) f else a := by
        rw [ht]
        rfl
      have hfound : shr' = shr.withFrames 0 ((size + 4095) / 4096) f := by
        have hl₁ : t₁.sharesList.find? (fun a => a.ownerID = o ∧ strcmp name a.name = 0) = some shr' := hl'
        rw [hlist, List.map_cons, if_pos rfl, List.find?_cons] at hl₁
        split at hl₁
        · exact (Option.some.inj hl₁).symm
        · have hmem := List.mem_of_find?_eq_some hl₁
          have hp' := List.find?_some hl₁
          obtain ⟨a, ha, rfl⟩ := List.mem_map.1 hmem
          have hnone := List.find?_eq_none.1 hl a ha
          refine absurd ?_ hnone
          split at hp' <;> exact hp'
      rw [hfound]
      refine ⟨rfl, by rw [hnew]; rfl, by rw [hnew]; rfl, fun i hi => ?_⟩
      show (if 0 ≤ i ∧ i < 0 + (size + 4095) / 4096 then some (f i) else _) = _
      rw [if_pos (by omega)]

/-- A getter of an object whose size is too large for an `int` maps nothing. -/
theorem large_not_shared {n : Nat} (shr : Share) (hn : 0 < n) (hvac : Vacant t'.kernel.mem dB vB 0 n)
    {k : Kernel} (hp : getPages dB shr (vB * 4096) 0 0 t'.locked = .ok () { t'.locked with kernel := k })
    (hu : u.kernel = k) : ¬ SharesPages s t t' u r n w dA vA dB vB := by
  intro h
  cases hp
  obtain ⟨shr₁, -, -, hmaps⟩ := h.frames
  obtain ⟨g, -, -, hpres, -⟩ := hmaps 0 hn
  rw [hu] at hpres
  exact absurd ((hvac 0 le_rfl (by omega)).symm.trans hpres) (by decide)

/-- The creator's and a getter's pages agree exactly when the size, as an `int`, can be rounded up. -/
theorem shared_pages_agree (hk : HeapReady s.kernel) (hsize : size < 4294967296)
    (hrangeA : vA + (size + 4095) / 4096 ≤ userPages) (hrangeB : vB + (size + 4095) / 4096 ≤ userPages)
    (hvacA : Vacant s.kernel.mem dA vA 0 ((size + 4095) / 4096))
    (hvacB : Vacant t'.kernel.mem dB vB 0 ((size + 4095) / 4096))
    (hc : createSharedObject dA o name size w (vA * 4096) s = .ok r t) (hr : 0 ≤ r)
    (hkept : Untouched t t' o name dA vA ((size + 4095) / 4096))
    (hg : getSharedObject dB o name (vB * 4096) t' = .ok r' u) (hr' : 0 ≤ r') :
    SharesPages s t t' u r ((size + 4095) / 4096) w dA vA dB vB ↔ size ≤ 2147479552 := by
  obtain ⟨hpos, hle, -, f, hM, hfound⟩ := create_pages hk hsize hrangeA hvacA hc hr
  rcases (get_ok hg).2 with ⟨-, rfl, -⟩ | ⟨shr', k, hl, hp, -, rfl⟩
  · exact absurd hr' (by decide)
  obtain ⟨shr, references, hl₀, rfl⟩ := hkept.object shr' hl
  obtain ⟨hID, hsz, hw, hframes⟩ := hfound shr hl₀
  have hcount := numOfFrames_eq { shr with references } hsz hle
  rw [hcount] at hp
  have hready : HeapReady t'.locked.kernel := hkept.ready
  constructor
  · intro h
    by_contra hbig
    rw [if_neg hbig] at hp
    exact large_not_shared _ hpos hvacB hp rfl h
  · intro hsmall
    rw [if_pos hsmall] at hp
    obtain ⟨-, hM'⟩ := getPages_spec (f := f) { shr with references } _ 0 _ _ hready (by omega) hvacB
      (fun j h1 h2 => hframes j (by omega)) hp
    have hB : ∀ i < (size + 4095) / 4096, userEntry k.mem dB (vB + i) =
        (userEntry t'.kernel.mem dB (vB + i)).linked (f i) (Share.perm { shr with references }) := fun i hi =>
      hM'.mapped i (Nat.zero_le i) (by omega)
    have hA : ∀ i < (size + 4095) / 4096, Maps t'.kernel.mem dA (vA + i) (f i) := by
      intro i hi
      have hm := maps_linked (hM.mapped i (Nat.zero_le i) (by omega))
      unfold Maps at hm ⊢
      rwa [hkept.pages i hi]
    refine ⟨⟨_, List.mem_map_of_mem (List.mem_of_find?_eq_some hl), ?_,
      fun i hi => ⟨f i, ?_, ?_, maps_linked (hB i hi)⟩⟩,
      fun i hi => ?_, fun d v hv hout => hM.other d v hv (by omega), fun d v hv hout => hM'.other d v hv (by omega)⟩
    · rw [if_pos rfl]
      exact hID
    · rw [if_pos rfl]
      exact hframes i hi
    · -- the creator's page is present, so it is not in the getter's range
      have hpage := hA i hi
      have hsame : userEntry k.mem dA (vA + i) = userEntry t'.kernel.mem dA (vA + i) := by
        apply hM'.other dA (vA + i) (by omega)
        rintro ⟨hd, h1, h2⟩
        have hv := hvacB (vA + i - vB) (Nat.zero_le _) (by omega)
        rw [← hd, show vB + (vA + i - vB) = vA + i by omega] at hv
        exact absurd (hv.symm.trans hpage.1) (by decide)
      unfold Maps at hpage ⊢
      rwa [← hsame] at hpage
    · show (userEntry k.mem dB (vB + i)).perm.writeable = true ↔ w ≠ 0
      rw [hB i hi, ← hw]
      by_cases hz : shr.isWritable = 0
      · simp [Pte.linked, Share.perm, hz, Perm.union, Perm.available, Perm.permPresent]
      · simp [Pte.linked, Share.perm, hz, Perm.union, Perm.available, Perm.permPresent]

theorem Untouched.refl {d v n : Nat} (h : HeapReady t.kernel) : Untouched t t o name d v n :=
  ⟨h, fun shr hl => ⟨shr, shr.references, hl, rfl⟩, fun _ _ => rfl⟩

/-- A create and a get of the same object, by directories `1` and `2`. -/
def createThenGet (s : Shares) : Bool :=
  match createSharedObject 1 7 [97, 0] 1 1 (524288 * 4096) s with
  | .ok r t => 0 ≤ r && !(userEntry t.kernel.mem 2 524288).perm.present &&
    match getSharedObject 2 7 [97, 0] (524288 * 4096) t with
    | .ok r' _ => 0 ≤ r'
    | .error _ _ => false
  | .error _ _ => false

theorem shared_pages_agree_machine : ∃ s t u r r', createSharedObject 1 7 [97, 0] 1 1 (524288 * 4096) s = .ok r t ∧
    getSharedObject 2 7 [97, 0] (524288 * 4096) t = .ok r' u ∧ SharesPages s t t u r 1 1 1 524288 2 524288 := by
  obtain ⟨k, hk, hboth⟩ : ∃ k, kheapInit (unusedKernel machine) = .ok k ∧ createThenGet (sharingInit k) = true :=
    ⟨_, rfl, by decide +kernel⟩
  have hready : HeapReady (sharingInit k).kernel := kheapInit_ready machine_booted hk
  have hmem : k.mem = machine := (kheapInit_same hk).1
  have hvac : Vacant (sharingInit k).kernel.mem 1 524288 0 1 := by
    intro j _ hj
    obtain rfl : j = 0 := by omega
    show (userEntry k.mem 1 524288).perm.present = false
    rw [hmem]
    rfl
  unfold createThenGet at hboth
  split at hboth
  · rename_i r t hc
    simp only [Bool.and_eq_true, decide_eq_true_eq, Bool.not_eq_true'] at hboth
    obtain ⟨⟨hr, hv⟩, hboth⟩ := hboth
    split at hboth
    · rename_i r' u hg
      have hvac' : Vacant t.kernel.mem 2 524288 0 1 := by
        intro j _ hj
        obtain rfl : j = 0 := by omega
        exact hv
      obtain ⟨-, -, ht, -⟩ := create_pages hready (by decide) (by decide) hvac hc hr
      exact ⟨_, t, u, r, r', hc, hg, (shared_pages_agree hready (by decide) (by decide) (by decide) hvac hvac' hc hr
        (.refl ht) hg (by simpa using hboth)).2 (by decide)⟩
    · cases hboth
  · cases hboth

end CreateGet

end Fos.Shared
