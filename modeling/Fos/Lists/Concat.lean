/-
`LIST_CONCAT` of `inc/queue.h`. The links are always those of the two lists in a row. The counter and the second list
are right only when there was nothing to add: a second list with elements is counted after it was emptied, and it is not
emptied at all where the first list has none.
-/
import Fos.Lists.Macros

namespace Fos.Lists

open Fos.Lib Fos.Lib.Links

/-- `LIST_CONCAT(list1, list2)`. -/
def listConcat (m : Elements) (list1 list2 : Head) : Elements × Head × Head :=
  let (m, list1, list2) :=
    if list1.first = null then (m, { list1 with first := list2.first, last := list2.last }, list2)
    else if list2.first ≠ null then
      let m := entryLinks.setNext m list1.last list2.first
      let m := entryLinks.setPrev m list2.first list1.last
      (m, { list1 with last := list2.last }, listInit list2)
    else (m, list1, list2)
  (m, { list1 with size := list1.size + list2.size }, list2)

section Concat

variable {m : Elements} {list1 list2 : Head} {l₁ l₂ : List Ptr}

theorem Represents.first_eq_null_iff (h : Represents ⟨m, list1⟩ l₁) : list1.first = null ↔ l₁ = [] :=
  h.linked.first_eq_null_iff entryLinks_lawful h.notNull

/-- The first list leads through the elements of both, forwards and backwards. -/
theorem listConcat_linked (h₁ : Represents ⟨m, list1⟩ l₁) (h₂ : Represents ⟨m, list2⟩ l₂) (hdis : ∀ x ∈ l₁, x ∉ l₂) :
    entryLinks.Linked null (listConcat m list1 list2).1 (listConcat m list1 list2).2.1.toListHead (l₁ ++ l₂) := by
  have hN : ∀ x ∈ l₁ ++ l₂, x ≠ null := fun x hx => (List.mem_append.1 hx).elim (h₁.notNull x) (h₂.notNull x)
  have hnd : (l₁ ++ l₂).Nodup :=
    List.nodup_append.2 ⟨h₁.linked.nodup, h₂.linked.nodup, fun a ha b hb he => hdis a ha (he ▸ hb)⟩
  have hjoin := (join_linked entryLinks_lawful trivial h₁.linked h₂.linked hN hnd).2
  have hrun : ((listConcat m list1 list2).1, (listConcat m list1 list2).2.1.toListHead) =
      entryLinks.join null m list1.toListHead list2.toListHead := by
    unfold listConcat join
    by_cases hnull₁ : list1.first = null
    · simp only [if_pos hnull₁]
    · by_cases hnull₂ : list2.first = null
      · simp only [if_neg hnull₁, hnull₂, ne_eq, not_true_eq_false, if_false]
      · simp only [if_neg hnull₁, ne_eq, hnull₂, not_false_eq_true, if_true]
  rw [← hrun] at hjoin
  exact hjoin

/-- Both lists are as they should be exactly when the second one was empty. -/
theorem list_concat_iff (h₁ : Represents ⟨m, list1⟩ l₁) (h₂ : Represents ⟨m, list2⟩ l₂) (hdis : ∀ x ∈ l₁, x ∉ l₂) :
    (Represents ⟨(listConcat m list1 list2).1, (listConcat m list1 list2).2.1⟩ (l₁ ++ l₂) ∧
      Represents ⟨(listConcat m list1 list2).1, (listConcat m list1 list2).2.2⟩ []) ↔ l₂ = [] := by
  have hlinked := listConcat_linked h₁ h₂ hdis
  have hfirst₁ := h₁.first_eq_null_iff
  have hfirst₂ := h₂.first_eq_null_iff
  have hsize₁ := h₁.size
  have hsize₂ := h₂.size
  have hadd : list1.size + 0 = list1.size := BitVec.add_zero _
  constructor
  · rintro ⟨hall, hnone⟩
    by_contra hl₂
    have hne : list2.first ≠ null := fun hc => hl₂ (hfirst₂.1 hc)
    by_cases hl₁ : list1.first = null
    · -- the second head is as it was
      have hrun : (listConcat m list1 list2).2.2 = list2 := by
        simp only [listConcat, if_pos hl₁]
      rw [hrun] at hnone
      exact hne hnone.linked.first
    · -- the second counter is `0` when it is added
      have hrun : (listConcat m list1 list2).2.1.size = list1.size + 0 := by
        simp only [listConcat, if_neg hl₁, if_pos hne]
        rfl
      have hsize : (listConcat m list1 list2).2.1.size.toNat = (l₁ ++ l₂).length := hall.size
      rw [hrun, hadd, hsize₁, List.length_append] at hsize
      have hpos := List.length_pos_of_ne_nil hl₂
      omega
  · rintro rfl
    have hnull : list2.first = null := hfirst₂.2 rfl
    have hlast : list2.last = null := h₂.linked.last
    have hzero : list2.size = 0 := BitVec.eq_of_toNat_eq hsize₂
    have hrun : (listConcat m list1 list2).2.2 = list2 ∧ (listConcat m list1 list2).2.1.size = list1.size +
        list2.size := by
      by_cases hl₁ : list1.first = null
      · simp only [listConcat, if_pos hl₁, and_self]
      · simp only [listConcat, if_neg hl₁, hnull, ne_eq, not_true_eq_false, if_false, and_self]
    refine ⟨⟨hlinked, by simpa using h₁.notNull, ?_⟩, ?_, by simp, ?_⟩
    · show (listConcat m list1 list2).2.1.size.toNat = _
      rw [hrun.2, hzero, hadd, hsize₁, List.append_nil]
    · show entryLinks.Linked null _ (listConcat m list1 list2).2.2.toListHead []
      rw [hrun.1]
      exact ⟨List.nodup_nil, hnull, hlast, trivial⟩
    · show (listConcat m list1 list2).2.2.size.toNat = _
      rw [hrun.1]
      exact hsize₂

end Concat

/-- The elements of `[8]` and `[16]`. -/
def twoElements : Elements := fun _ => ⟨null, null⟩

theorem singleton_represents (x : Ptr) (hx : x ≠ null) : Represents ⟨twoElements, ⟨⟨x, x⟩, null, 1⟩⟩ [x] :=
  ⟨⟨List.nodup_singleton x, rfl, rfl, rfl, rfl, trivial⟩, by simpa using hx, rfl⟩

/-- Two lists of one element each: the result has two elements and the counter says one. -/
theorem list_concat_uncounted :
    Represents ⟨twoElements, ⟨⟨8, 8⟩, null, 1⟩⟩ [8] ∧ Represents ⟨twoElements, ⟨⟨16, 16⟩, null, 1⟩⟩ [16] ∧
      ¬ (Represents ⟨(listConcat twoElements ⟨⟨8, 8⟩, null, 1⟩ ⟨⟨16, 16⟩, null, 1⟩).1,
            (listConcat twoElements ⟨⟨8, 8⟩, null, 1⟩ ⟨⟨16, 16⟩, null, 1⟩).2.1⟩ [8, 16] ∧
          Represents ⟨(listConcat twoElements ⟨⟨8, 8⟩, null, 1⟩ ⟨⟨16, 16⟩, null, 1⟩).1,
            (listConcat twoElements ⟨⟨8, 8⟩, null, 1⟩ ⟨⟨16, 16⟩, null, 1⟩).2.2⟩ []) := by
  refine ⟨singleton_represents 8 (by decide), singleton_represents 16 (by decide), ?_⟩
  rintro ⟨h, -⟩
  have hsize : (1 : BitVec 32).toNat = 2 := h.size
  revert hsize
  decide

theorem list_concat_iff_one :
    (Represents ⟨(listConcat twoElements ⟨⟨8, 8⟩, null, 1⟩ ⟨⟨16, 16⟩, null, 1⟩).1,
          (listConcat twoElements ⟨⟨8, 8⟩, null, 1⟩ ⟨⟨16, 16⟩, null, 1⟩).2.1⟩ ([8] ++ [16]) ∧
        Represents ⟨(listConcat twoElements ⟨⟨8, 8⟩, null, 1⟩ ⟨⟨16, 16⟩, null, 1⟩).1,
          (listConcat twoElements ⟨⟨8, 8⟩, null, 1⟩ ⟨⟨16, 16⟩, null, 1⟩).2.2⟩ []) ↔ ([16] : List Ptr) = [] :=
  list_concat_iff (singleton_represents 8 (by decide)) (singleton_represents 16 (by decide)) (by simp)

end Fos.Lists
