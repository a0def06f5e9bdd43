/-
Which free range the page allocator of the user heap takes a request from, told from the free list alone, and what
the search leaves there; the pages of a free list, and that merging changes none of them.
-/
import Fos.Heap.UserHeapLists

namespace Fos.Heap

open Fos.Lib

/-! ## The range a request is taken from -/

/-- `WORSTTT` looks at the free ranges that start in the page allocator's part of the heap. -/
def inWindow (lo : Nat) (d : FreeBlockNode) : Bool := lo ≤ d.startVa && d.startVa < userHeapMax

/-- The first of the largest free ranges that `WORSTTT` looks at. -/
def largestRange (lo : Nat) : List FreeBlockNode → Option FreeBlockNode
  | [] => none
  | d :: l =>
    match largestRange lo l with
    | none => if inWindow lo d then some d else none
    | some e => if inWindow lo d && e.numPages ≤ d.numPages then some d else some e

def exactRange (page : Nat) (l : List FreeBlockNode) : Option FreeBlockNode := l.find? (·.numPages == page)

/-- The ranges left when the first of exactly `page` pages is taken. -/
def withoutExact (page : Nat) (l : List FreeBlockNode) : List FreeBlockNode := l.eraseP (·.numPages == page)

def worstRange (lo page : Nat) (l : List FreeBlockNode) : Option FreeBlockNode :=
  (largestRange lo l).filter fun d => page ≤ d.numPages && 0 < d.numPages

/-- The free range a request for `page` pages is taken from: the first of exactly as many pages, or else the first of
the largest. A range at address `0` is taken for none. -/
def UHeap.rangeFor (s : UHeap) (page : Nat) : Option FreeBlockNode :=
  match (exactRange page s.freeHead).filter (·.startVa ≠ 0) with
  | some d => some d
  | none => worstRange s.uheapPageAllocStart page (withoutExact page s.freeHead)

/-- What is left of a range when its first pages are taken. -/
def FreeBlockNode.rest (d : FreeBlockNode) (page : Nat) : List FreeBlockNode :=
  if page < d.numPages then [⟨add32 d.startVa (mul32 page pageSize), d.numPages - page⟩] else []

section Search

variable {lo page : Nat}

theorem exacttt_split (page : Nat) : ∀ l : List FreeBlockNode,
    (exactRange page l = none ∧ exacttt page l = (0, l) ∧ withoutExact page l = l) ∨
    ∃ d pre post, exactRange page l = some d ∧ d.numPages = page ∧ l = pre ++ d :: post ∧
      exacttt page l = (roundDown d.startVa pageSize, pre ++ post) ∧ withoutExact page l = pre ++ post
  | [] => .inl ⟨rfl, rfl, rfl⟩
  | d :: l => by
    unfold exactRange withoutExact
    by_cases hd : d.numPages = page
    · exact .inr ⟨d, [], l, by simp [hd], hd, rfl, by simp [exacttt, hd], by simp [hd]⟩
    · rcases exacttt_split page l with ⟨h1, h2, h3⟩ | ⟨e, pre, post, h1, h2, rfl, h4, h5⟩
      · refine .inl ⟨?_, ?_, ?_⟩
        · rw [List.find?_cons_of_neg (by simpa using hd)]; exact h1
        · simp only [exacttt, if_neg hd, h2]
        · rw [List.eraseP_cons_of_neg (by simpa using hd)]; exact congrArg _ h3
      · refine .inr ⟨e, d :: pre, post, ?_, h2, rfl, ?_, ?_⟩
        · rw [List.find?_cons_of_neg (by simpa using hd)]; exact h1
        · simp only [exacttt, if_neg hd, h4, List.cons_append]
        · rw [List.eraseP_cons_of_neg (by simpa using hd)]; exact congrArg _ h5

theorem largestRange_none : ∀ {l : List FreeBlockNode}, largestRange lo l = none → ∀ d ∈ l, inWindow lo d = false
  | [], _ => by simp
  | d :: l, h => by
    simp only [largestRange] at h
    cases hl : largestRange lo l with
    | some e => rw [hl] at h; simp only at h; split at h <;> cases h
    | none =>
      rw [hl] at h
      simp only at h
      intro e he
      rcases List.mem_cons.1 he with rfl | he
      · cases hw : inWindow lo e with
        | false => rfl
        | true => rw [if_pos hw] at h; cases h
      · exact largestRange_none hl e he

theorem largestRange_some : ∀ {l : List FreeBlockNode} {d : FreeBlockNode}, largestRange lo l = some d →
    inWindow lo d = true ∧ ∀ e ∈ l, inWindow lo e = true → e.numPages ≤ d.numPages
  | [], _, h => by cases h
  | c :: l, d, h => by
    simp only [largestRange] at h
    cases hl : largestRange lo l with
    | none =>
      rw [hl] at h
      simp only at h
      split at h
      · rename_i hw
        cases h
        refine ⟨hw, fun e he hew => ?_⟩
        rcases List.mem_cons.1 he with rfl | he
        · exact le_rfl
        · rw [largestRange_none hl e he] at hew; cases hew
      · cases h
    | some m =>
      rw [hl] at h
      obtain ⟨hmw, hmax⟩ := largestRange_some hl
      simp only at h
      split at h
      · rename_i hw
        cases h
        simp only [Bool.and_eq_true, decide_eq_true_eq] at hw
        refine ⟨hw.1, fun e he hew => ?_⟩
        rcases List.mem_cons.1 he with rfl | he
        · exact le_rfl
        · exact le_trans (hmax e he hew) hw.2
      · rename_i hw
        cases h
        refine ⟨hmw, fun e he hew => ?_⟩
        rcases List.mem_cons.1 he with rfl | he
        · simp only [hew, Bool.true_and, decide_eq_true_eq, not_le] at hw
          omega
        · exact hmax e he hew

/-- The scan stays with the best range so far, or ends at the first of the largest ones. -/
theorem worstScan_split : ∀ (l : List FreeBlockNode) (i m : Nat) (best : Option Nat),
    ((∀ d, largestRange lo l = some d → page ≤ d.numPages → d.numPages ≤ m) ∧ worstScan lo page l i best m = best) ∨
    ∃ d pre post, largestRange lo l = some d ∧ page ≤ d.numPages ∧ m < d.numPages ∧ l = pre ++ d :: post ∧
      worstScan lo page l i best m = some (i + pre.length)
  | [], _, _, _ => .inl ⟨fun d h => absurd h (Option.some_ne_none d).symm, rfl⟩
  | c :: l, i, m, best => by
    simp only [worstScan]
    split
    · -- the first range is the best so far
      rename_i hc
      obtain ⟨h1, h2, h3, h4⟩ := hc
      have hw : inWindow lo c = true := by simp only [inWindow, Bool.and_eq_true, decide_eq_true_eq]; exact ⟨h1, h2⟩
      rcases worstScan_split l (i + 1) c.numPages (some i) with
        ⟨hno, hs⟩ | ⟨d, pre, post, hl, hp, hm, rfl, hs⟩
      · refine .inr ⟨c, [], l, ?_, h3, h4, rfl, hs⟩
        simp only [largestRange]
        cases hl : largestRange lo l with
        | none => simp only [if_pos hw]
        | some e =>
          have he : e.numPages ≤ c.numPages := by
            by_cases hpe : page ≤ e.numPages
            · exact hno e hl hpe
            · omega
          simp only [hw, he, decide_true, Bool.and_self, if_true]
      · refine .inr ⟨d, c :: pre, post, ?_, hp, by omega, rfl, ?_⟩
        · simp only [largestRange, hl, hw, Bool.true_and, decide_eq_true_eq,
            if_neg (show ¬ d.numPages ≤ c.numPages by omega)]
        · rw [hs, List.length_cons, Nat.add_right_comm, Nat.add_assoc]
    · rename_i hc
      rcases worstScan_split l (i + 1) m best with
        ⟨hno, hs⟩ | ⟨d, pre, post, hl, hp, hm, rfl, hs⟩
      · refine .inl ⟨fun d hd hpd => ?_, hs⟩
        have hcm : inWindow lo c = true → page ≤ c.numPages → c.numPages ≤ m := by
          intro hw hp
          simp only [inWindow, Bool.and_eq_true, decide_eq_true_eq] at hw
          by_contra hlt
          exact hc ⟨hw.1, hw.2, hp, by omega⟩
        simp only [largestRange] at hd
        cases hl : largestRange lo l with
        | none =>
          rw [hl] at hd
          simp only at hd
          split at hd
          · rename_i hw; cases hd; exact hcm hw hpd
          · cases hd
        | some e =>
          rw [hl] at hd
          simp only at hd
          split at hd
          · rename_i hw; cases hd; exact hcm (by simp only [Bool.and_eq_true] at hw; exact hw.1) hpd
          · cases hd; exact hno _ hl hpd
      · refine .inr ⟨d, c :: pre, post, ?_, hp, hm, rfl, ?_⟩
        · simp only [largestRange, hl]
          rw [if_neg]
          simp only [inWindow, Bool.and_eq_true, decide_eq_true_eq, not_and]
          intro hw hle
          exact hc ⟨hw.1, hw.2, by omega, by omega⟩
        · rw [hs, List.length_cons, Nat.add_right_comm, Nat.add_assoc]

theorem worsttt_split (lo page : Nat) (l : List FreeBlockNode) :
    (worstRange lo page l = none ∧ worsttt lo page l = (0, l)) ∨
    ∃ d pre post, worstRange lo page l = some d ∧ inWindow lo d = true ∧ page ≤ d.numPages ∧ l = pre ++ d :: post ∧
      worsttt lo page l = (d.startVa, pre ++ d.rest page ++ post) := by
  unfold worstRange worsttt
  rcases worstScan_split l 0 0 none with
    ⟨hno, hs⟩ | ⟨d, pre, post, hl, hp, hm, rfl, hs⟩
  · refine .inl ⟨?_, by rw [hs]⟩
    cases hl : largestRange lo l with
    | none => rfl
    | some d =>
      rw [Option.filter_some, if_neg]
      simp only [Bool.and_eq_true, decide_eq_true_eq, not_and, not_lt]
      exact fun hp => by have := hno d hl hp; omega
  · refine .inr ⟨d, pre, post, ?_, (largestRange_some hl).1, hp, rfl, ?_⟩
    · rw [hl, Option.filter_some, if_pos]
      simp only [Bool.and_eq_true, decide_eq_true_eq]
      exact ⟨hp, hm⟩
    · rw [hs]
      simp only [Nat.zero_add, List.getElem?_append_right le_rfl, Nat.sub_self, List.getElem?_cons_zero]
      unfold FreeBlockNode.rest
      by_cases hlt : page < d.numPages
      · rw [if_pos (by omega), if_pos hlt, List.set_append_right _ _ le_rfl, Nat.sub_self, List.set_cons_zero,
          List.append_assoc, List.singleton_append]
      · rw [if_neg (by omega), if_neg hlt, List.eraseIdx_append_of_length_le le_rfl, Nat.sub_self,
          List.eraseIdx_cons_zero, List.append_nil]

end Search

/-- What the custom fit takes off the free list: the range for the request, of which the rest stays, and a range at
address `0`, which is lost. -/
theorem customFit_split {s : UHeap} (page : Nat) (halign : ∀ d ∈ s.freeHead, d.startVa % 4096 = 0)
    (hst : 0 < s.uheapPageAllocStart) :
    ∃ lost : List FreeBlockNode, (∀ d ∈ lost, d.startVa = 0) ∧
      ((s.rangeFor page = none ∧ (customFit s page).1 = 0 ∧
          s.freeHead.Perm (lost ++ (customFit s page).2.freeHead)) ∨
        ∃ d left, s.rangeFor page = some d ∧ d.startVa ≠ 0 ∧ page ≤ d.numPages ∧ (customFit s page).1 = d.startVa ∧
          s.freeHead.Perm (d :: (lost ++ left)) ∧ (customFit s page).2.freeHead.Perm (d.rest page ++ left)) := by
  -- the worst fit on what the exact fit has left
  have hworst : ∀ l : List FreeBlockNode,
      (worstRange s.uheapPageAllocStart page l = none ∧ worsttt s.uheapPageAllocStart page l = (0, l)) ∨
      ∃ d left, worstRange s.uheapPageAllocStart page l = some d ∧ d.startVa ≠ 0 ∧ page ≤ d.numPages ∧
        (worsttt s.uheapPageAllocStart page l).1 = d.startVa ∧ l.Perm (d :: left) ∧
        (worsttt s.uheapPageAllocStart page l).2.Perm (d.rest page ++ left) := by
    intro l
    rcases worsttt_split s.uheapPageAllocStart page l with h | ⟨d, pre, post, h1, h2, h3, rfl, h5⟩
    · exact .inl h
    · refine .inr ⟨d, pre ++ post, h1, ?_, h3, by rw [h5], List.perm_middle, ?_⟩
      · simp only [inWindow, Bool.and_eq_true, decide_eq_true_eq] at h2
        omega
      · rw [h5, ← List.append_assoc]
        exact List.perm_append_comm.append_right post
  unfold customFit UHeap.rangeFor
  rcases exacttt_split page s.freeHead with ⟨h1, h2, h3⟩ | ⟨d, pre, post, h1, h2, h3, h4, h5⟩
  · refine ⟨[], by simp, ?_⟩
    simp only [h1, h2, h3, Option.filter_none, if_true, List.nil_append]
    rcases hworst s.freeHead with ⟨g1, g2⟩ | ⟨e, left, g1, g2, g3, g4, g5, g6⟩
    · exact .inl ⟨g1, by rw [g2], by rw [g2]⟩
    · exact .inr ⟨e, left, g1, g2, g3, g4, g5, g6⟩
  · have hd : d ∈ s.freeHead := by rw [h3]; exact List.mem_append_right _ List.mem_cons_self
    have hr : roundDown d.startVa pageSize = d.startVa := roundDown_of_dvd (halign d hd)
    simp only [h1, h4, h5, hr, Option.filter_some]
    by_cases hz : d.startVa = 0
    · -- an exact range at address `0` is lost
      refine ⟨[d], by simpa using hz, ?_⟩
      have hperm : s.freeHead.Perm (d :: (pre ++ post)) := h3 ▸ List.perm_middle
      simp only [hz, ne_eq, not_true_eq_false, decide_false, Bool.false_eq_true, if_false, if_true]
      rcases hworst (pre ++ post) with ⟨g1, g2⟩ | ⟨e, left, g1, g2, g3, g4, g5, g6⟩
      · exact .inl ⟨g1, by rw [g2], by rw [g2]; exact hperm⟩
      · exact .inr ⟨e, left, g1, g2, g3, g4, hperm.trans ((g5.cons d).trans (.swap ..)), g6⟩
    · refine ⟨[], by simp, .inr ⟨d, pre ++ post, ?_, hz, h2.ge, ?_, h3 ▸ List.perm_middle, ?_⟩⟩
      · simp [hz]
      · simp only [if_neg hz]
      · simp only [if_neg hz, FreeBlockNode.rest, h2, lt_irrefl, if_false, List.nil_append]
        exact .refl _

/-! ## The pages of a free list -/

/-- The addresses of the free ranges. -/
def freeSpace (l : List FreeBlockNode) : Set Nat := {x | ∃ d ∈ l, d.extent.Has x}

/-- A range of whole pages between the page allocator's start and the end of the heap; it may be empty. -/
structure FreeBlockNode.Inside (d : FreeBlockNode) : Prop where
  lo : 2181042176 ≤ d.startVa
  start : d.startVa % 4096 = 0
  hi : d.startVa + d.numPages * 4096 ≤ userHeapMax

variable {l m : List FreeBlockNode} {d : FreeBlockNode} {page : Nat}

theorem mem_freeSpace {x : Nat} : x ∈ freeSpace l ↔ ∃ d ∈ l, d.startVa ≤ x ∧ x < d.startVa + d.numPages * 4096 := .rfl

theorem freeSpace_perm (h : l.Perm m) : freeSpace l = freeSpace m := by
  ext x
  simp only [mem_freeSpace, h.mem_iff]

theorem mem_freeSpace_cons {x : Nat} : x ∈ freeSpace (d :: l) ↔
    (d.startVa ≤ x ∧ x < d.startVa + d.numPages * 4096) ∨ x ∈ freeSpace l := by
  simp only [mem_freeSpace, List.exists_mem_cons_iff]

theorem mem_freeSpace_append {x : Nat} : x ∈ freeSpace (l ++ m) ↔ x ∈ freeSpace l ∨ x ∈ freeSpace m := by
  simp only [mem_freeSpace, List.mem_append, or_and_right, exists_or]

theorem freeSpace_nil : freeSpace [] = ∅ := by
  ext x
  simp [mem_freeSpace]

/-- A range is its first pages and the rest of it. -/
theorem FreeBlockNode.Inside.split (h : d.Inside) (hp : page ≤ d.numPages) :
    freeSpace (⟨d.startVa, page⟩ :: d.rest page) = freeSpace [d] ∧
      ∀ e ∈ d.rest page, e.Inside ∧ e.startVa = d.startVa + page * 4096 := by
  have hlo := h.lo
  have hst := h.start
  have hhi := h.hi
  simp only [userHeapMax] at hhi
  unfold FreeBlockNode.rest
  by_cases hlt : page < d.numPages
  · have hend : add32 d.startVa (mul32 page pageSize) = d.startVa + page * 4096 := by
      rw [pageSize, mul32_of_lt (by omega), add32_of_lt (by omega)]
    rw [if_pos hlt, hend]
    constructor
    · ext x
      simp only [mem_freeSpace_cons, freeSpace_nil, Set.mem_empty_iff_false, or_false]
      omega
    · intro e he
      rw [List.mem_singleton] at he
      subst he
      exact ⟨⟨by simp only; omega, by simp only; omega, by simp only [userHeapMax]; omega⟩, rfl⟩
  · obtain rfl : page = d.numPages := by omega
    rw [if_neg hlt]
    exact ⟨rfl, by simp⟩

/-- The first pages of a range. -/
theorem FreeBlockNode.Inside.first (h : d.Inside) (hp : page ≤ d.numPages) : FreeBlockNode.Inside ⟨d.startVa, page⟩ :=
  ⟨h.lo, h.start, (Nat.add_le_add_left (Nat.mul_le_mul_right 4096 hp) d.startVa).trans h.hi⟩

theorem coalesce_space : ∀ {l : List FreeBlockNode} {d : FreeBlockNode}, (∀ e ∈ d :: l, e.Inside) →
    freeSpace (coalesce d l) = freeSpace (d :: l) ∧ ∀ e ∈ coalesce d l, e.Inside
  | [], _, h => ⟨rfl, h⟩
  | n :: l, d, h => by
    have hd := h d List.mem_cons_self
    have hn := h n (List.mem_cons_of_mem _ List.mem_cons_self)
    have h1 := hd.lo
    have h2 := hd.hi
    have h3 := hn.hi
    have h4 := hn.lo
    simp only [userHeapMax] at h2 h3
    have hend : add32 d.startVa (mul32 d.numPages pageSize) = d.startVa + d.numPages * 4096 := by
      rw [pageSize, mul32_of_lt (by omega), add32_of_lt (by omega)]
    have hsum : add32 d.numPages n.numPages = d.numPages + n.numPages := add32_of_lt (by omega)
    simp only [coalesce, hend, hsum]
    split
    · rename_i htouch
      obtain ⟨g1, g2⟩ := coalesce_space (l := l) (d := ⟨d.startVa, d.numPages + n.numPages⟩) fun e he => by
        rcases List.mem_cons.1 he with rfl | he
        · have hlast : d.startVa + (d.numPages + n.numPages) * 4096 = n.startVa + n.numPages * 4096 := by
            rw [← htouch, Nat.add_mul, Nat.add_assoc]
          exact ⟨h1, hd.start, hlast.trans_le hn.hi⟩
        · exact h e (List.mem_cons_of_mem _ (List.mem_cons_of_mem _ he))
      refine ⟨?_, g2⟩
      rw [g1]
      ext x
      simp only [mem_freeSpace_cons, ← or_assoc]
      apply or_congr_left
      omega
    · obtain ⟨g1, g2⟩ := coalesce_space fun e he => h e (List.mem_cons_of_mem d he)
      constructor
      · ext x
        rw [mem_freeSpace_cons, g1, mem_freeSpace_cons (d := d)]
      · intro e he
        rcases List.mem_cons.1 he with rfl | he
        · exact hd
        · exact g2 e he

/-- Merging changes no page. -/
theorem mergee_space (h : ∀ e ∈ l, e.Inside) : freeSpace (mergee l) = freeSpace l ∧ ∀ e ∈ mergee l, e.Inside := by
  unfold mergee
  split
  · exact ⟨rfl, h⟩
  · exact ⟨rfl, h⟩
  · have hp := foldl_insertSorted_perm l []
    rw [List.append_nil] at hp
    split
    · rename_i hnil
      rw [hnil] at hp
      exact ⟨freeSpace_perm hp, by simp⟩
    · rename_i d rest hc
      rw [hc] at hp
      obtain ⟨g1, g2⟩ := coalesce_space fun e he => h e (hp.mem_iff.1 he)
      exact ⟨g1.trans (freeSpace_perm hp), g2⟩

end Fos.Heap
