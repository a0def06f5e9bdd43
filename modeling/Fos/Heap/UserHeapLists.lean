/-
The free list of the user heap as a set of extents: taking a range off the list (`exacttt`,
`worsttt`), giving one back (`freeBlockk`, the insertion of `sfree`) and `mergee` keep it packed
together with whatever else is packed beside it.
-/
import Fos.Heap.UserHeap
import Fos.Lib.Extent

namespace Fos.Heap

open Fos.Lib Fos.Lib.Extent

def FreeBlockNode.extent (n : FreeBlockNode) : Extent := ⟨n.startVa, n.numPages * 4096⟩

def OurAllocationNode.extent (a : OurAllocationNode) : Extent := ⟨a.bedayetEladd, a.size⟩

/-- The packing the user heap maintains: page ranges between the page allocator's start and the
end of the heap. -/
abbrev UPacked (L : List Extent) : Prop := Packed 2181042176 userHeapMax 4096 L

variable {l : List FreeBlockNode} {L : List Extent}

/-! ## Exact fit -/

theorem exacttt_zero {page : Nat} : ∀ {l : List FreeBlockNode}, (∀ n ∈ l, 4096 ≤ n.startVa) →
    (exacttt page l).1 = 0 → (exacttt page l).2 = l
  | [], _, _ => rfl
  | d :: l, hl, h => by
    have hd := hl d List.mem_cons_self
    simp only [exacttt] at h ⊢
    split at h
    · simp only [roundDown, pageSize] at h; omega
    · rename_i hne
      rw [if_neg hne]
      simp only at h ⊢
      rw [exacttt_zero (fun n hn => hl n (List.mem_cons_of_mem _ hn)) h]

theorem exacttt_perm {page : Nat} : ∀ {l : List FreeBlockNode}, (∀ n ∈ l, n.startVa % 4096 = 0) →
    (exacttt page l).1 ≠ 0 →
    (l.map FreeBlockNode.extent).Perm (⟨(exacttt page l).1, page * 4096⟩ :: (exacttt page l).2.map FreeBlockNode.extent)
  | [], _, h => absurd rfl h
  | d :: l, hl, h => by
    simp only [exacttt] at h ⊢
    split at h
    · rename_i he
      have hr : roundDown d.startVa pageSize = d.startVa := roundDown_of_dvd (hl d List.mem_cons_self)
      simp only [hr, ← he]
      exact .refl _
    · rename_i hne
      rw [if_neg hne]
      have ih := exacttt_perm (fun n hn => hl n (List.mem_cons_of_mem _ hn)) h
      exact (ih.cons d.extent).trans (List.Perm.swap ..)

theorem exacttt_mem {page : Nat} : ∀ {l : List FreeBlockNode}, (∀ n ∈ l, n.startVa % 4096 = 0) →
    (exacttt page l).1 ≠ 0 → ∃ d ∈ l, (exacttt page l).1 = d.startVa
  | [], _, h => absurd rfl h
  | d :: l, hl, h => by
    simp only [exacttt] at h ⊢
    split at h
    · rename_i he
      exact ⟨d, List.mem_cons_self, by rw [if_pos he]; exact roundDown_of_dvd (hl d List.mem_cons_self)⟩
    · rename_i hne
      obtain ⟨e, he, heq⟩ := exacttt_mem (fun n hn => hl n (List.mem_cons_of_mem _ hn)) h
      exact ⟨e, List.mem_cons_of_mem _ he, by rw [if_neg hne]; exact heq⟩

/-! ## Worst fit -/

theorem worstScan_some {lo page : Nat} : ∀ {l : List FreeBlockNode} {i m : Nat} {best : Option Nat} {j : Nat},
    worstScan lo page l i best m = some j →
    best = some j ∨ ∃ k d, l[k]? = some d ∧ j = i + k ∧ page ≤ d.numPages
  | [], _, _, _, _, h => .inl h
  | d :: l, i, m, best, j, h => by
    simp only [worstScan] at h
    split at h
    · rename_i hc
      rcases worstScan_some h with hb | ⟨k, e, he, hj, hp⟩
      · exact .inr ⟨0, d, rfl, by simpa using hb.symm, hc.2.2.1⟩
      · exact .inr ⟨k + 1, e, by simpa using he, by omega, hp⟩
    · rcases worstScan_some h with hb | ⟨k, e, he, hj, hp⟩
      · exact .inl hb
      · exact .inr ⟨k + 1, e, by simpa using he, by omega, hp⟩

/-- The carved or removed range of `worsttt` and the rest stay packed. -/
theorem worsttt_packed {lo page : Nat} (hp : 0 < page) (h : UPacked (l.map FreeBlockNode.extent ++ L))
    (hne : (worsttt lo page l).1 ≠ 0) :
    UPacked (⟨(worsttt lo page l).1, page * 4096⟩ :: ((worsttt lo page l).2.map FreeBlockNode.extent ++ L)) := by
  unfold worsttt at hne ⊢
  cases hs : worstScan lo page l 0 none 0 with
  | none => simp only [hs] at hne; exact absurd rfl hne
  | some i =>
    simp only [hs] at hne ⊢
    obtain hb | ⟨k, d, hd, hi, hpd⟩ := worstScan_some hs
    · cases hb
    · obtain rfl : i = k := by omega
      simp only [hd] at hne ⊢
      obtain ⟨hk, rfl⟩ := List.getElem?_eq_some_iff.1 hd
      -- the list is the chosen node and the others
      have hperm : (l.map FreeBlockNode.extent ++ L).Perm
          (l[i].extent :: ((l.eraseIdx i).map FreeBlockNode.extent ++ L)) := by
        have := (List.getElem_cons_eraseIdx_perm hk).symm
        exact (this.map FreeBlockNode.extent).append_right L
      have hP := h.perm hperm
      have hf := (packed_cons.1 hP).2.1
      by_cases hr : 0 < l[i].numPages - page
      · simp only [hr, if_true]
        have hsum : l[i].startVa + page * 4096 < 4294967296 := by
          have := hf.hi; simp only [FreeBlockNode.extent, fin, userHeapMax] at this; omega
        have hset : ((l.set i ⟨add32 l[i].startVa (mul32 page pageSize), l[i].numPages - page⟩).map
            FreeBlockNode.extent).Perm (⟨l[i].startVa + page * 4096, (l[i].numPages - page) * 4096⟩ ::
              (l.eraseIdx i).map FreeBlockNode.extent) := by
          have h1 := (List.set_perm_cons_eraseIdx hk
            (⟨add32 l[i].startVa (mul32 page pageSize), l[i].numPages - page⟩ : FreeBlockNode)).map FreeBlockNode.extent
          apply h1.trans
          rw [List.map_cons, FreeBlockNode.extent]
          simp only [pageSize]
          rw [mul32_of_lt (by omega), add32_of_lt hsum]
        have hc := Packed.carve hP (n := page * 4096) (by omega)
          (by simp only [FreeBlockNode.extent]; omega) (by omega)
        simp only [FreeBlockNode.extent] at hc
        rw [← Nat.sub_mul] at hc
        exact hc.perm (List.Perm.cons _ ((hset.append_right L).symm))
      · simp only [hr, if_false]
        have he : l[i].numPages = page := by omega
        have : l[i].extent = ⟨l[i].startVa, page * 4096⟩ := by rw [FreeBlockNode.extent, he]
        rwa [this] at hP

theorem worsttt_zero {lo page : Nat} (hl : ∀ n ∈ l, 0 < n.startVa) (h : (worsttt lo page l).1 = 0) :
    (worsttt lo page l).2 = l := by
  unfold worsttt at h ⊢
  split
  · rfl
  · rename_i i hs
    simp only [hs] at h
    split
    · rfl
    · rename_i d hd
      have := hl d (List.mem_of_getElem? hd)
      simp only [hd] at h
      split at h <;> simp only at h <;> omega

theorem worsttt_mem {lo page : Nat} (h : (worsttt lo page l).1 ≠ 0) :
    ∃ d ∈ l, (worsttt lo page l).1 = d.startVa := by
  unfold worsttt at h ⊢
  split
  · rename_i hs
    simp only [hs] at h
    exact absurd rfl h
  · rename_i i hs
    simp only [hs] at h
    cases hd : l[i]? with
    | none => simp only [hd] at h; exact absurd rfl h
    | some d =>
      refine ⟨d, List.mem_of_getElem? hd, ?_⟩
      simp only
      split <;> rfl

/-! ## Giving a range back -/

theorem insertNode_perm (n : FreeBlockNode) : ∀ l : List FreeBlockNode, (insertNode n l).Perm (n :: l)
  | [] => .refl _
  | d :: l => by
    simp only [insertNode]
    split
    · exact ((insertNode_perm n l).cons d).trans (.swap ..)
    · exact .refl _

theorem freeBlockk_packed {start numPages : Nat} (hn : 0 < numPages)
    (h : UPacked (⟨start, numPages * 4096⟩ :: (l.map FreeBlockNode.extent ++ L))) :
    UPacked ((freeBlockk l start numPages).map FreeBlockNode.extent ++ L) := by
  unfold freeBlockk
  rw [if_neg (by omega)]
  split
  · exact (packed_cons.1 h).2.2
  · exact h.perm (((insertNode_perm ⟨start, numPages⟩ l).map FreeBlockNode.extent).symm.append_right L)

theorem insertNode_packed {start numPages : Nat}
    (h : UPacked (⟨start, numPages * 4096⟩ :: (l.map FreeBlockNode.extent ++ L))) :
    UPacked ((insertNode ⟨start, numPages⟩ l).map FreeBlockNode.extent ++ L) :=
  h.perm (((insertNode_perm ⟨start, numPages⟩ l).map FreeBlockNode.extent).symm.append_right L)

/-! ## Merging -/

theorem insertSorted_perm (d : FreeBlockNode) (l : List FreeBlockNode) : (insertSorted d l).Perm (d :: l) := by
  cases l with
  | nil => exact .refl _
  | cons m l =>
    simp only [insertSorted]
    split
    · exact .refl _
    · exact ((insertNode_perm d l).cons m).trans (.swap ..)

theorem foldl_insertSorted_perm : ∀ (l m : List FreeBlockNode),
    (l.foldl (fun m d => insertSorted d m) m).Perm (l ++ m)
  | [], m => .refl _
  | d :: l, m => by
    refine (foldl_insertSorted_perm l (insertSorted d m)).trans ?_
    exact ((insertSorted_perm d m).append_left l).trans List.perm_middle

theorem coalesce_packed : ∀ {l : List FreeBlockNode} {d : FreeBlockNode} {L : List Extent},
    UPacked ((d :: l).map FreeBlockNode.extent ++ L) → UPacked ((coalesce d l).map FreeBlockNode.extent ++ L)
  | [], _, _, h => h
  | n :: l, d, L, h => by
    simp only [List.map_cons, List.cons_append] at h
    obtain ⟨hd, hdf, hrest⟩ := packed_cons.1 h
    obtain ⟨-, hnf, -⟩ := packed_cons.1 hrest
    have h1 := hdf.hi
    have h2 := hnf.hi
    simp only [FreeBlockNode.extent, fin, userHeapMax] at h1 h2
    have hend : add32 d.startVa (mul32 d.numPages pageSize) = d.startVa + d.numPages * 4096 := by
      rw [pageSize, mul32_of_lt (by omega), add32_of_lt (by omega)]
    have hsum : add32 d.numPages n.numPages = d.numPages + n.numPages := add32_of_lt (by omega)
    simp only [coalesce, hend, hsum]
    split
    · rename_i he
      apply coalesce_packed
      have hj := Packed.join h (by simpa only [FreeBlockNode.extent, fin] using he)
      simp only [FreeBlockNode.extent] at hj
      rw [← Nat.add_mul] at hj
      exact hj
    · have hswap : UPacked ((n :: l).map FreeBlockNode.extent ++ d.extent :: L) :=
        Packed.perm (L := d.extent :: ((n :: l).map FreeBlockNode.extent ++ L)) h List.perm_middle.symm
      have hrec := coalesce_packed hswap
      exact hrec.perm List.perm_middle

theorem mergee_packed (h : UPacked (l.map FreeBlockNode.extent ++ L)) :
    UPacked ((mergee l).map FreeBlockNode.extent ++ L) := by
  unfold mergee
  split
  · exact h
  · exact h
  · have hp := foldl_insertSorted_perm l []
    rw [List.append_nil] at hp
    have hs := h.perm ((hp.map FreeBlockNode.extent).symm.append_right L)
    split
    · rename_i hnil
      rw [hnil] at hs
      exact hs
    · rename_i d rest hc
      rw [hc] at hs
      exact coalesce_packed hs

end Fos.Heap
