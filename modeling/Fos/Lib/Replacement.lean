/-
Demand paging with `k` frames: the numbers of faults a reference string can be served with, the
comparison of two starting sets, and the exchange of one held page for another that is used no
later. From these, evicting a page that no held page is used later than is best.
-/
import Mathlib.Data.Finset.Card
import Mathlib.Tactic

namespace Fos.Lib

section Paging

variable {α : Type*} [DecidableEq α] {early : Prop} {k n : Nat} {C D S : Finset α} {ps : List α} {p v x : α}

/-- `Serves early k C ps n`: with `k` frames, holding the pages `C`, the references `ps` can be served
with `n` faults. A page comes in only when it is referenced and not held, into a free frame or in
place of another page; with `early` a page may be replaced also while a frame is free. -/
inductive Serves (early : Prop) (k : Nat) : Finset α → List α → Nat → Prop where
  | done {C : Finset α} : Serves early k C [] 0
  | hit {C : Finset α} {p : α} {ps : List α} {n : Nat} (hp : p ∈ C) (h : Serves early k C ps n) :
      Serves early k C (p :: ps) n
  | place {C : Finset α} {p : α} {ps : List α} {n : Nat} (hp : p ∉ C) (hroom : C.card < k)
      (h : Serves early k (insert p C) ps n) : Serves early k C (p :: ps) (n + 1)
  | replace {C : Finset α} {p v : α} {ps : List α} {n : Nat} (hp : p ∉ C) (hfull : C.card < k → early)
      (hv : v ∈ C) (h : Serves early k (insert p (C.erase v)) ps n) : Serves early k C (p :: ps) (n + 1)

/-- `v` is used no later than `x`: every use of `x` comes after one of `v`. -/
def NoLater (v x : α) : List α → Prop
  | [] => True
  | q :: ps => q = v ∨ (q ≠ x ∧ NoLater v x ps)

omit [DecidableEq α] in
theorem noLater_of_not_mem : ∀ {ps : List α}, x ∉ ps → NoLater v x ps
  | [], _ => trivial
  | _ :: _, h => .inr ⟨fun he => h (he ▸ List.mem_cons_self), noLater_of_not_mem fun hx =>
    h (List.mem_cons_of_mem _ hx)⟩

/-! ## Comparing starting sets -/

theorem card_replace (hp : p ∉ C) (hv : v ∈ C) : (insert p (C.erase v)).card = C.card := by
  rw [Finset.card_insert_of_notMem fun h => hp (Finset.mem_of_mem_erase h), Finset.card_erase_of_mem hv]
  have := Finset.card_pos.2 ⟨v, hv⟩
  omega

/-- A full set that misses a page of `C` holds one outside `C`. -/
theorem exists_outside (hC : C.card ≤ k) (hfull : ¬ D.card < k) (hne : C ≠ D) : ∃ w ∈ D, w ∉ C := by
  by_contra hn
  push Not at hn
  exact hne (Finset.eq_of_subset_of_card_le hn (by omega)).symm

/-- When `C` faults on `p` and goes on with `E`, then `D` can go on with a set that misses no more of
`E` than `D` misses of `C`, unless the two are equal and full. -/
theorem missing_fault {E : Finset α} (hC : C.card ≤ k) (hD : D.card ≤ k) (hsub : E ⊆ insert p C)
    (ih : ∀ {D : Finset α}, D.card ≤ k → ∃ m ≤ n + (E \ D).card, Serves early k D ps m)
    (hsame : D = C → ¬ C.card < k → Serves early k D (p :: ps) (n + 1)) :
    ∃ m ≤ n + 1 + (C \ D).card, Serves early k D (p :: ps) m := by
  have hmem : ∀ y ∈ E, y ≠ p → y ∈ C := fun y hy hne => (Finset.mem_insert.1 (hsub hy)).resolve_left hne
  by_cases hpD : p ∈ D
  · obtain ⟨m, hm, hs⟩ := ih hD
    have hle : (E \ D).card ≤ (C \ D).card := by
      apply Finset.card_le_card
      intro y hy
      obtain ⟨hy, hyD⟩ := Finset.mem_sdiff.1 hy
      exact Finset.mem_sdiff.2 ⟨hmem y hy fun he => hyD (he ▸ hpD), hyD⟩
    exact ⟨m, by omega, .hit hpD hs⟩
  · by_cases hroom : D.card < k
    · obtain ⟨m, hm, hs⟩ := ih (D := insert p D) (by rw [Finset.card_insert_of_notMem hpD]; omega)
      have hle : (E \ insert p D).card ≤ (C \ D).card := by
        apply Finset.card_le_card
        intro y hy
        simp only [Finset.mem_sdiff, Finset.mem_insert, not_or] at hy ⊢
        exact ⟨hmem y hy.1 hy.2.1, hy.2.2⟩
      exact ⟨m + 1, by omega, .place hpD hroom hs⟩
    · by_cases hCD : C = D
      · exact ⟨n + 1, by omega, hsame hCD.symm (by rw [hCD]; exact hroom)⟩
      · obtain ⟨w, hwD, hwC⟩ := exists_outside hC hroom hCD
        obtain ⟨m, hm, hs⟩ := ih (D := insert p (D.erase w)) (by rw [card_replace hpD hwD]; exact hD)
        have hle : (E \ insert p (D.erase w)).card ≤ (C \ D).card := by
          apply Finset.card_le_card
          intro y hy
          simp only [Finset.mem_sdiff, Finset.mem_insert, Finset.mem_erase, not_or, not_and] at hy ⊢
          have hyC := hmem y hy.1 hy.2.1
          exact ⟨hyC, hy.2.2 fun hyw => hwC (hyw ▸ hyC)⟩
        exact ⟨m + 1, by omega, .replace hpD (fun hlt => absurd hlt hroom) hwD hs⟩

/-- Missing pages cost at most one fault each. -/
theorem Serves.of_missing (h : Serves early k C ps n) : C.card ≤ k →
    ∀ {D : Finset α}, D.card ≤ k → ∃ m ≤ n + (C \ D).card, Serves early k D ps m := by
  induction h with
  | done => exact fun _ _ _ => ⟨0, Nat.zero_le _, .done⟩
  | @hit C p ps n hp h ih =>
    intro hC D hD
    by_cases hpD : p ∈ D
    · obtain ⟨m, hm, hs⟩ := ih hC hD
      exact ⟨m, hm, .hit hpD hs⟩
    · -- `D` faults where `C` does not, and misses one page less afterwards
      have hmem : p ∈ C \ D := Finset.mem_sdiff.2 ⟨hp, hpD⟩
      have hpos := Finset.card_pos.2 ⟨p, hmem⟩
      have herase := Finset.card_erase_of_mem hmem
      by_cases hroom : D.card < k
      · obtain ⟨m, hm, hs⟩ := ih hC (D := insert p D) (by rw [Finset.card_insert_of_notMem hpD]; omega)
        have hle : (C \ insert p D).card ≤ ((C \ D).erase p).card := by
          apply Finset.card_le_card
          intro y hy
          simp only [Finset.mem_sdiff, Finset.mem_insert, not_or, Finset.mem_erase] at hy ⊢
          exact ⟨hy.2.1, hy.1, hy.2.2⟩
        exact ⟨m + 1, by omega, .place hpD hroom hs⟩
      · obtain ⟨w, hwD, hwC⟩ := exists_outside hC hroom fun he => hpD (he ▸ hp)
        obtain ⟨m, hm, hs⟩ := ih hC (D := insert p (D.erase w)) (by rw [card_replace hpD hwD]; exact hD)
        have hle : (C \ insert p (D.erase w)).card ≤ ((C \ D).erase p).card := by
          apply Finset.card_le_card
          intro y hy
          simp only [Finset.mem_sdiff, Finset.mem_insert, Finset.mem_erase, not_or, not_and] at hy ⊢
          exact ⟨hy.2.1, hy.1, hy.2.2 fun hyw => hwC (hyw ▸ hy.1)⟩
        exact ⟨m + 1, by omega, .replace hpD (fun hlt => absurd hlt hroom) hwD hs⟩
  | @place C p ps n hp hroom h ih =>
    intro hC D hD
    have hins : (insert p C).card ≤ k := by rw [Finset.card_insert_of_notMem hp]; omega
    exact missing_fault hC hD (fun _ hy => hy) (ih hins) fun _ hfull => absurd hroom hfull
  | @replace C p v ps n hp hearly hv h ih =>
    intro hC D hD
    refine missing_fault hC hD (Finset.insert_subset_insert p (Finset.erase_subset v C))
      (ih (by rw [card_replace hp hv]; exact hC)) ?_
    rintro rfl -
    exact .replace hp hearly hv h

/-- A larger set needs no more faults. -/
theorem Serves.mono (h : Serves early k C ps n) (hC : C.card ≤ k) (hD : D.card ≤ k) (hCD : C ⊆ D) :
    ∃ m ≤ n, Serves early k D ps m := by
  obtain ⟨m, hm, hs⟩ := h.of_missing hC hD
  rw [Finset.sdiff_eq_empty_iff_subset.2 hCD, Finset.card_empty] at hm
  exact ⟨m, hm, hs⟩

/-! ## Fewer references -/

/-- What serves a sequence serves it without its first reference. -/
theorem Serves.rest (h : Serves early k C (p :: ps) n) (hC : C.card ≤ k) : ∃ m ≤ n, Serves early k C ps m := by
  have hone : ∀ {E : Finset α}, E ⊆ insert p C → (E \ C).card ≤ 1 := fun {E} hE => by
    refine (Finset.card_le_card fun y hy => ?_).trans (Finset.card_singleton p).le
    obtain ⟨hy, hyC⟩ := Finset.mem_sdiff.1 hy
    exact Finset.mem_singleton.2 ((Finset.mem_insert.1 (hE hy)).resolve_right hyC)
  cases h with
  | hit _ h => exact ⟨n, le_rfl, h⟩
  | place hp hroom h =>
    have hins : (insert p C).card ≤ k := by
      rw [Finset.card_insert_of_notMem hp]
      omega
    obtain ⟨m, hm, hs⟩ := h.of_missing hins hC
    have := hone (subset_refl (insert p C))
    exact ⟨m, by omega, hs⟩
  | @replace _ _ v _ _ hp _ hv h =>
    obtain ⟨m, hm, hs⟩ := h.of_missing (by rw [card_replace hp hv]; exact hC) hC
    have := hone (Finset.insert_subset_insert p (Finset.erase_subset v C))
    exact ⟨m, by omega, hs⟩

/-- With more pages held than there are frames, no page is placed: each fault replaces one. -/
theorem serves_full (hC : k ≤ C.card) : Serves early k C ps n ↔ Serves early C.card C ps n := by
  constructor
  · intro h
    generalize hc : C.card = c at hC ⊢
    induction h with
    | done => exact .done
    | hit hp _ ih => exact .hit hp (ih hc)
    | place _ hroom _ => omega
    | replace hp _ hv _ ih => exact .replace hp (fun hlt => by omega) hv (ih ((card_replace hp hv).trans hc))
  · intro h
    generalize hc : C.card = c at hC h
    induction h with
    | done => exact .done
    | hit hp _ ih => exact .hit hp (ih hc)
    | place _ hroom _ => omega
    | replace hp _ hv _ ih => exact .replace hp (fun hlt => by omega) hv (ih ((card_replace hp hv).trans hc))

theorem Serves.sublist_of_card {qs : List α} (hqs : qs.Sublist ps) (h : Serves early k C ps n) (hC : C.card ≤ k) :
    ∃ m ≤ n, Serves early k C qs m := by
  induction hqs generalizing C n with
  | slnil => exact ⟨n, le_rfl, h⟩
  | cons p _ ih =>
    obtain ⟨m, hm, hs⟩ := h.rest hC
    obtain ⟨l, hl, hs⟩ := ih hs hC
    exact ⟨l, by omega, hs⟩
  | cons_cons p _ ih =>
    cases h with
    | hit hp h =>
      obtain ⟨m, hm, hs⟩ := ih h hC
      exact ⟨m, hm, .hit hp hs⟩
    | place hp hroom h =>
      obtain ⟨m, hm, hs⟩ := ih h (by rw [Finset.card_insert_of_notMem hp]; omega)
      exact ⟨m + 1, by omega, .place hp hroom hs⟩
    | replace hp hfull hv h =>
      obtain ⟨m, hm, hs⟩ := ih h (by rw [card_replace hp hv]; exact hC)
      exact ⟨m + 1, by omega, .replace hp hfull hv hs⟩

/-- Leaving references out makes no more faults. -/
theorem Serves.sublist {qs : List α} (hqs : qs.Sublist ps) (h : Serves early k C ps n) :
    ∃ m ≤ n, Serves early k C qs m := by
  rcases le_total C.card k with hC | hC
  · exact Serves.sublist_of_card hqs h hC
  · obtain ⟨m, hm, hs⟩ := Serves.sublist_of_card hqs ((serves_full hC).1 h) le_rfl
    exact ⟨m, hm, (serves_full hC).2 hs⟩

/-! ## Exchanging a page for one used no later -/

/-- The side that holds the referenced page may miss one page of the other side afterwards. -/
theorem exchange_hit (hv : (insert v S).card ≤ k) (hD : D.card ≤ k) (hsub : D ⊆ insert v (insert x S))
    (h : Serves early k D ps n) : ∃ m ≤ n + 1, Serves early k (insert v S) (v :: ps) m := by
  obtain ⟨m, hm, hs⟩ := h.of_missing hD hv
  have hle : (D \ insert v S).card ≤ ({x} : Finset α).card := by
    apply Finset.card_le_card
    intro y hy
    obtain ⟨hy, hyn⟩ := Finset.mem_sdiff.1 hy
    have := hsub hy
    simp only [Finset.mem_insert, not_or, Finset.mem_singleton] at this hyn ⊢
    tauto
  rw [Finset.card_singleton] at hle
  exact ⟨m, by omega, .hit (Finset.mem_insert_self v S) hs⟩

/-- Holding `v` instead of `x` is no worse when `v` is used no later than `x`. -/
theorem Serves.exchange : ∀ {ps : List α} {S : Finset α} {n : Nat}, v ∉ S → x ∉ S → v ≠ x → (insert x S).card ≤ k →
    NoLater v x ps → Serves early k (insert x S) ps n → ∃ m ≤ n, Serves early k (insert v S) ps m
  | [], _, _, _, _, _, _, _, .done => ⟨0, le_rfl, .done⟩
  | p :: ps, S, n, hvS, hxS, hvx, hcard, hlater, h => by
    have hcard' : (insert v S).card = (insert x S).card := by
      rw [Finset.card_insert_of_notMem hvS, Finset.card_insert_of_notMem hxS]
    by_cases hpv : p = v
    · subst hpv
      cases h with
      | hit hp => exact absurd hp (by simp [hvx, hvS])
      | place hp hroom h =>
        exact exchange_hit (by omega) (by rw [Finset.card_insert_of_notMem hp]; omega) (fun _ hy => hy) h
      | replace hp _ hv h =>
        exact exchange_hit (by omega) (by rw [card_replace hp hv]; exact hcard)
          (Finset.insert_subset_insert p (Finset.erase_subset _ _)) h
    · obtain ⟨hpx, hlater⟩ := hlater.resolve_left hpv
      cases h with
      | hit hp h =>
        have hpS : p ∈ S := (Finset.mem_insert.1 hp).resolve_left hpx
        obtain ⟨m, hm, hs⟩ := Serves.exchange hvS hxS hvx hcard hlater h
        exact ⟨m, hm, .hit (Finset.mem_insert_of_mem hpS) hs⟩
      | @place _ _ _ n hp hroom h =>
        have hpS : p ∉ S := fun hpS => hp (Finset.mem_insert_of_mem hpS)
        rw [Finset.insert_comm] at h
        obtain ⟨m, hm, hs⟩ := Serves.exchange (S := insert p S) (by simp [hvS, Ne.symm hpv])
          (by simp [hxS, Ne.symm hpx]) hvx (by rw [Finset.insert_comm, Finset.card_insert_of_notMem hp]; omega) hlater h
        rw [Finset.insert_comm] at hs
        exact ⟨m + 1, by omega, .place (by simp [hpS, hpv]) (by omega) hs⟩
      | @replace _ _ w _ n hp hearly hw h =>
        have hpS : p ∉ S := fun hpS => hp (Finset.mem_insert_of_mem hpS)
        have hpv' : p ∉ insert v S := by simp [hpS, hpv]
        rcases Finset.mem_insert.1 hw with rfl | hwS
        · -- the other side replaces `x`, this one replaces `v`: both hold the same
          rw [Finset.erase_insert hxS] at h
          refine ⟨n + 1, le_rfl, .replace hpv' (by rw [hcard']; exact hearly) (Finset.mem_insert_self v S) ?_⟩
          rw [Finset.erase_insert hvS]; exact h
        · have hxw : x ≠ w := fun he => hxS (he ▸ hwS)
          have hvw : v ≠ w := fun he => hvS (he ▸ hwS)
          have hcr := card_replace hp hw
          rw [Finset.erase_insert_of_ne hxw, Finset.insert_comm] at h hcr
          obtain ⟨m, hm, hs⟩ := Serves.exchange (S := insert p (S.erase w)) (by simp [hvS, Ne.symm hpv])
            (by simp [hxS, Ne.symm hpx]) hvx (by omega) hlater h
          refine ⟨m + 1, by omega, .replace hpv' (by rw [hcard']; exact hearly) (Finset.mem_insert_of_mem hwS) ?_⟩
          rw [Finset.erase_insert_of_ne hvw, Finset.insert_comm]
          exact hs

/-- Furthest in the future: replacing a page that no held page is used later than is no worse than
replacing any other. -/
theorem Serves.replace_furthest (hp : p ∉ C) (hx : x ∈ C) (hv : v ∈ C) (hC : C.card ≤ k)
    (hlater : v ≠ x → NoLater v x ps) (h : Serves early k (insert p (C.erase v)) ps n) :
    ∃ m ≤ n, Serves early k (insert p (C.erase x)) ps m := by
  by_cases hvx : v = x
  · subst hvx; exact ⟨n, le_rfl, h⟩
  · have hpx : p ≠ x := fun he => hp (he ▸ hx)
    have hpv : p ≠ v := fun he => hp (he ▸ hv)
    let S := insert p ((C.erase x).erase v)
    have hxS : insert x S = insert p (C.erase v) := by
      rw [Finset.insert_comm, Finset.erase_right_comm,
        Finset.insert_erase (Finset.mem_erase.2 ⟨Ne.symm hvx, hx⟩)]
    have hvS : insert v S = insert p (C.erase x) := by
      rw [Finset.insert_comm, Finset.insert_erase (Finset.mem_erase.2 ⟨hvx, hv⟩)]
    rw [← hvS]
    refine Serves.exchange ?_ ?_ hvx ?_ (hlater hvx) (by rw [hxS]; exact h)
    · simp [S, Ne.symm hpv]
    · simp [S, Ne.symm hpx]
    · rw [hxS, card_replace hp hv]; exact hC

/-! ## The least number of faults -/

/-- `n` is the least number of faults. -/
def Fewest (early : Prop) (k : Nat) (C : Finset α) (ps : List α) (n : Nat) : Prop :=
  IsLeast {m | Serves early k C ps m} n

theorem fewest_nil : Fewest early k C [] 0 := ⟨.done, fun _ _ => Nat.zero_le _⟩

theorem Fewest.hit (hp : p ∈ C) (h : Fewest early k C ps n) : Fewest early k C (p :: ps) n := by
  refine ⟨.hit hp h.1, fun m hm => ?_⟩
  cases hm with
  | hit _ hm => exact h.2 hm
  | place hp' => exact absurd hp hp'
  | replace hp' => exact absurd hp hp'

/-- With a free frame the page is placed there. -/
theorem Fewest.place (hp : p ∉ C) (hroom : C.card < k) (h : Fewest early k (insert p C) ps n) :
    Fewest early k C (p :: ps) (n + 1) := by
  refine ⟨.place hp hroom h.1, fun m hm => ?_⟩
  cases hm with
  | hit hp' => exact absurd hp' hp
  | place _ _ hm => exact Nat.succ_le_succ (h.2 hm)
  | replace _ _ hv hm =>
    obtain ⟨m', hle, hs⟩ := hm.mono (by rw [card_replace hp hv]; omega)
      (by rw [Finset.card_insert_of_notMem hp]; omega) (Finset.insert_subset_insert p (Finset.erase_subset _ C))
    exact Nat.succ_le_succ (le_trans (h.2 hs) hle)

/-- With all frames in use a page is replaced that no held page is used later than. -/
theorem Fewest.replace (hp : p ∉ C) (hfull : C.card = k) (hx : x ∈ C) (hlater : ∀ v ∈ C, v ≠ x → NoLater v x ps)
    (h : Fewest early k (insert p (C.erase x)) ps n) : Fewest early k C (p :: ps) (n + 1) := by
  refine ⟨.replace hp (fun hlt => by omega) hx h.1, fun m hm => ?_⟩
  cases hm with
  | hit hp' => exact absurd hp' hp
  | place _ hroom => omega
  | @replace _ _ v _ m _ _ hv hm =>
    obtain ⟨m', hle, hs⟩ := hm.replace_furthest hp hx hv (le_of_eq hfull) (hlater v hv)
    exact Nat.succ_le_succ (le_trans (h.2 hs) hle)

end Paging

end Fos.Lib
