/-
`FREEblockk`, `EXACTTT` and `WORSTTT` of `lib/uheap.c` on the cells of the free list: the searches with a trailing
pointer, with a bound on their rounds, and the links that are written. With as many rounds as there are nodes each does
what its list function says, and on a free list in order each takes or adds the pages it is asked for and no others.
-/
import Fos.Heap.MergedRanges

namespace Fos.Heap

open Fos.Lib

/-! ## The code -/

/-- The first loop of `FREEblockk`: whether some node starts at `start` already. -/
def startsAt (m : FreeCells) (start : Nat) : Nat → Nat → Option Bool
  | 0, _ => none
  | fuel + 1, delwa2ty =>
    if delwa2ty = 0 then some false
    else if (m delwa2ty).val.startVa = start then some true
    else startsAt m start fuel (m delwa2ty).next

/-- The second loop of `FREEblockk`: the last node below `start` and the one after it. -/
def placeFor (m : FreeCells) (start : Nat) : Nat → Nat → Nat → Option (Nat × Nat)
  | 0, _, _ => none
  | fuel + 1, elly2bly, delwa2ty =>
    if delwa2ty ≠ 0 ∧ (m delwa2ty).val.startVa < start then placeFor m start fuel delwa2ty (m delwa2ty).next
    else some (elly2bly, delwa2ty)

/-- `FREEblockk`, where `malloc` answers `newNode`. -/
def freeBlockkCells (fuel : Nat) (m : FreeCells) (freeHead start numPages newNode : Nat) :
    Option (Res (FreeCells × Nat)) :=
  if numPages = 0 then some (.ok (m, freeHead))
  else
    match startsAt m start fuel freeHead with
    | none => none
    | some true => some (.ok (m, freeHead))
    | some false =>
      if newNode = 0 then some (.error (.panic "malloc failed for free block"))
      else
        match placeFor m start fuel 0 freeHead with
        | none => none
        | some (elly2bly, delwa2ty) =>
          some (.ok (relink (Function.update m newNode ⟨⟨start, numPages⟩, delwa2ty⟩) freeHead elly2bly newNode))

/-- The loop of `EXACTTT`. A node that is freed holds what the block allocator writes there. -/
def exactLoop (freed m : FreeCells) (freeHead page : Nat) : Nat → Nat → Nat → Option (Nat × FreeCells × Nat)
  | 0, _, _ => none
  | fuel + 1, elly2bly, delwa2ty =>
    if delwa2ty = 0 then some (0, m, freeHead)
    else if (m delwa2ty).val.numPages = page then
      let addr := roundDown (m delwa2ty).val.startVa pageSize
      let (r, head) := relink m freeHead elly2bly (m delwa2ty).next
      some (addr, Function.update r delwa2ty (freed delwa2ty), head)
    else exactLoop freed m freeHead page fuel delwa2ty (m delwa2ty).next

def exactttCells (freed : FreeCells) (fuel : Nat) (m : FreeCells) (freeHead page : Nat) :
    Option (Nat × FreeCells × Nat) :=
  exactLoop freed m freeHead page fuel 0 freeHead

/-- The loop of `WORSTTT`, with the best node so far (`afdalwa7da`) and the one before it (`afdal2bly`). -/
def worstLoop (m : FreeCells) (lo page : Nat) : Nat → Nat → Nat → Nat → Nat → Nat → Option (Nat × Nat)
  | 0, _, _, _, _, _ => none
  | fuel + 1, elly2bly, delwa2ty, afdal2bly, afdalwa7da, maxPages =>
    if delwa2ty = 0 then some (afdal2bly, afdalwa7da)
    else
      let d := (m delwa2ty).val
      if lo ≤ d.startVa ∧ d.startVa < userHeapMax ∧ page ≤ d.numPages ∧ maxPages < d.numPages then
        worstLoop m lo page fuel delwa2ty (m delwa2ty).next elly2bly delwa2ty d.numPages
      else worstLoop m lo page fuel delwa2ty (m delwa2ty).next afdal2bly afdalwa7da maxPages

/-- `WORSTTT`, where the page allocator's part of the heap starts at `lo`. -/
def worstttCells (freed : FreeCells) (fuel : Nat) (m : FreeCells) (freeHead lo page : Nat) :
    Option (Nat × FreeCells × Nat) :=
  match worstLoop m lo page fuel 0 freeHead 0 0 0 with
  | none => none
  | some (afdal2bly, afdalwa7da) =>
    if afdalwa7da = 0 then some (0, m, freeHead)
    else
      let d := (m afdalwa7da).val
      let remaining := d.numPages - page
      if 0 < remaining then
        let left : FreeBlockNode := ⟨add32 d.startVa (mul32 page pageSize), remaining⟩
        some (d.startVa, Function.update m afdalwa7da ⟨left, (m afdalwa7da).next⟩, freeHead)
      else
        let (r, head) := relink m freeHead afdal2bly (m afdalwa7da).next
        some (d.startVa, Function.update r afdalwa7da (freed afdalwa7da), head)

/-! ## The cells hold the list -/

section Cells

variable {m freed : FreeCells} {lo page start n p d k a : Nat} {as pre rest : List Nat}

theorem vals_append (as bs : List Nat) : vals m (as ++ bs) = vals m as ++ vals m bs := List.map_append

theorem startsAt_spec : ∀ {rest : List Nat} {d k : Nat}, Chain m d rest 0 → rest.length < k →
    startsAt m start k d = some ((vals m rest).any (·.startVa == start))
  | [], d, k + 1, h, _ => by
    have hnull : d = 0 := h
    rw [startsAt, if_pos hnull]
    rfl
  | b :: rest, d, k + 1, h, hfuel => by
    obtain ⟨rfl, hd, h⟩ := h
    rw [startsAt, if_neg hd]
    by_cases heq : (m d).val.startVa = start
    · rw [if_pos heq]
      simp [vals, heq]
    · rw [if_neg heq, startsAt_spec h (by simpa using hfuel)]
      simp [vals, heq]

/-- The place is behind the nodes that start below. -/
theorem placeFor_spec (m : FreeCells) (start n : Nat) :
    ∀ (rest : List Nat) (e d k : Nat), Chain m d rest 0 → rest.length < k →
    ∃ pre post, rest = pre ++ post ∧ placeFor m start k e d = some (pre.getLastD e, post.headD 0) ∧
      insertNode ⟨start, n⟩ (vals m rest) = vals m pre ++ ⟨start, n⟩ :: vals m post
  | [], e, d, k + 1, h, _ => by
    have hnull : d = 0 := h
    refine ⟨[], [], rfl, ?_, rfl⟩
    rw [placeFor, if_neg (fun hc => hc.1 hnull), hnull]
    rfl
  | b :: rest, e, d, k + 1, h, hfuel => by
    obtain ⟨rfl, hd, h⟩ := h
    by_cases hlt : (m d).val.startVa < start
    · obtain ⟨pre, post, rfl, hplace, hvals⟩ := placeFor_spec m start n rest d _ k h (by simpa using hfuel)
      refine ⟨d :: pre, post, rfl, ?_, ?_⟩
      · rw [placeFor, if_pos ⟨hd, hlt⟩, hplace, List.getLastD_cons]
      · show insertNode _ ((m d).val :: vals m (pre ++ post)) = _
        rw [insertNode, if_pos hlt, hvals]
        rfl
    · refine ⟨[], d :: rest, rfl, ?_, ?_⟩
      · rw [placeFor, if_neg (fun hc => hlt hc.2)]
        rfl
      · show insertNode _ ((m d).val :: vals m rest) = _
        rw [insertNode, if_neg hlt]
        rfl

/-- A node with the range is linked in where the list function puts it. -/
theorem freeBlockkCells_spec (start n : Nat) (h : IsList m p as) (hfuel : as.length < k) (hnew : a ≠ 0)
    (hout : a ∉ as) :
    ∃ m' head cs, freeBlockkCells k m p start n a = some (.ok (m', head)) ∧ IsList m' head cs ∧
      cs ⊆ a :: as ∧ vals m' cs = freeBlockk (vals m as) start n ∧ ∀ b ∉ a :: as, m' b = m b := by
  have hsame : ∀ b ∉ a :: as, m b = m b := fun _ _ => rfl
  unfold freeBlockkCells freeBlockk
  by_cases hn : n = 0
  · rw [if_pos hn, if_pos hn]
    exact ⟨m, p, as, rfl, h, List.subset_cons_self a as, rfl, hsame⟩
  · rw [if_neg hn, if_neg hn, startsAt_spec h.chain hfuel]
    cases hany : (vals m as).any (·.startVa == start) with
    | true => exact ⟨m, p, as, rfl, h, List.subset_cons_self a as, rfl, hsame⟩
    | false =>
      obtain ⟨pre, post, rfl, hplace, hvals⟩ := placeFor_spec m start n as 0 p k h.chain hfuel
      obtain ⟨r, hr⟩ : ∃ r, r = Function.update m a ⟨⟨start, n⟩, post.headD 0⟩ := ⟨_, rfl⟩
      have hra : r a = ⟨⟨start, n⟩, post.headD 0⟩ := by rw [hr, Function.update_self]
      have hrb : ∀ b, b ≠ a → r b = m b := fun b hb => by rw [hr, Function.update_of_ne hb]
      have hold : ∀ b ∈ pre ++ post, r b = m b := fun b hb => hrb b fun hc => hout (hc ▸ hb)
      have hlist : IsList r p (pre ++ post) := h.congr fun b hb => by rw [hold b hb]
      have hlink := hlist.link hnew hout (by rw [hra])
      refine ⟨_, _, pre ++ a :: post, ?_, hlink, fun b hb => ?_, ?_, fun b hb => ?_⟩
      · simp only [if_neg hnew, hplace, ← hr]
      · simpa [or_left_comm] using hb
      · rw [if_neg Bool.false_ne_true, hvals, vals_congr fun b _ => relink_val b, vals_append]
        show _ ++ (r a).val :: vals r post = _
        have hafter : vals r post = vals m post :=
          vals_congr fun b hb => congrArg Cell.val (hold b (List.mem_append_right pre hb))
        rw [hra, vals_congr fun b hb => congrArg Cell.val (hold b (List.mem_append_left post hb)),
          hafter]
      · have hba : b ≠ a := fun hc => hb (by simp [hc])
        rw [relink_of_notMem (fun hc => hb (by simp [hc])), hrb b hba]

/-- A node that is taken out and freed. -/
theorem unlink_freed {pre post : List Nat} (freed : FreeCells) (h : IsList m p (pre ++ a :: post)) :
    ∃ m' head, relink m p (pre.getLastD 0) (m a).next = (m', head) ∧
      IsList (Function.update m' a (freed a)) head (pre ++ post) ∧
      vals (Function.update m' a (freed a)) (pre ++ post) = vals m pre ++ vals m post ∧
      ∀ b ∉ pre ++ a :: post, Function.update m' a (freed a) b = m b := by
  have hout : a ∉ pre ++ post := (List.nodup_cons.1 (List.perm_middle.nodup_iff.1 h.nodup)).1
  refine ⟨(relink m p (pre.getLastD 0) (m a).next).1, (relink m p (pre.getLastD 0) (m a).next).2, rfl,
    h.unlink.update hout, ?_, fun b hb => ?_⟩
  · rw [vals_update hout, vals_congr fun b _ => relink_val b, vals_append]
  · have hba : b ≠ a := fun hc => hb (by simp [hc])
    rw [Function.update_of_ne hba, relink_of_notMem fun hc => hb (by simp [hc])]

theorem exactLoop_spec (freed : FreeCells) (page : Nat) :
    ∀ (rest pre : List Nat) (d k : Nat), IsList m p (pre ++ rest) → Chain m d rest 0 →
    rest.length < k → ∃ m' head cs,
      exactLoop freed m p page k (pre.getLastD 0) d = some ((exacttt page (vals m rest)).1, m', head) ∧
      IsList m' head cs ∧ cs ⊆ pre ++ rest ∧ vals m' cs = vals m pre ++ (exacttt page (vals m rest)).2 ∧
      ∀ b ∉ pre ++ rest, m' b = m b
  | [], pre, d, k + 1, h, hd, _ => by
    have hnull : d = 0 := hd
    refine ⟨m, p, pre ++ [], ?_, h, List.Subset.refl _, vals_append pre [], fun _ _ => rfl⟩
    rw [exactLoop, if_pos hnull]
    rfl
  | b :: rest, pre, d, k + 1, h, hd, hfuel => by
    obtain ⟨rfl, hd, hrest⟩ := hd
    have hvals : vals m (d :: rest) = (m d).val :: vals m rest := rfl
    rw [exactLoop, if_neg hd, hvals, exacttt]
    by_cases heq : (m d).val.numPages = page
    · obtain ⟨m', head, hr, hl, hv, hkeep⟩ := unlink_freed freed h
      rw [if_pos heq, if_pos heq]
      refine ⟨_, head, pre ++ rest, ?_, hl, ?_, hv, hkeep⟩
      · simp only [hr]
      · exact ((List.sublist_cons_self d rest).append_left pre).subset
    · have happ : pre ++ d :: rest = pre ++ [d] ++ rest := by simp
      obtain ⟨m', head, cs, hr, hl, hsub, hv, hkeep⟩ := exactLoop_spec freed page rest (pre ++ [d]) _ k (happ ▸ h) hrest
        (by simpa using hfuel)
      rw [if_neg heq, if_neg heq]
      rw [List.getLastD_concat] at hr
      rw [← happ] at hsub hkeep
      refine ⟨m', head, cs, hr, hl, hsub, ?_, hkeep⟩
      rw [hv, vals_append, List.append_assoc]
      rfl

theorem exactttCells_spec (freed : FreeCells) (page : Nat) (h : IsList m p as) (hfuel : as.length < k) :
    ∃ m' head cs, exactttCells freed k m p page = some ((exacttt page (vals m as)).1, m', head) ∧ IsList m' head cs ∧
      cs ⊆ as ∧ vals m' cs = (exacttt page (vals m as)).2 ∧ ∀ b ∉ as, m' b = m b :=
  exactLoop_spec freed page as [] p k h h.chain hfuel

/-- The two pointers of `WORSTTT` are at the given place of the list: the node before it and the node there. -/
def PointsAt (as : List Nat) (q : Nat × Nat) : Option Nat → Prop
  | none => q.2 = 0
  | some i => ∃ pre a post, as = pre ++ a :: post ∧ pre.length = i ∧ q = (pre.getLastD 0, a)

theorem worstLoop_spec (m : FreeCells) (lo page : Nat) :
    ∀ (rest pre : List Nat) (d k best2 best maxPages : Nat) (i : Option Nat),
    Chain m d rest 0 → rest.length < k → PointsAt (pre ++ rest) (best2, best) i →
      ∃ q, worstLoop m lo page k (pre.getLastD 0) d best2 best maxPages = some q ∧
        PointsAt (pre ++ rest) q (worstScan lo page (vals m rest) pre.length i maxPages)
  | [], pre, d, k + 1, best2, best, maxPages, i, hd, _, hq => by
    have hnull : d = 0 := hd
    refine ⟨(best2, best), ?_, hq⟩
    rw [worstLoop, if_pos hnull]
  | b :: rest, pre, d, k + 1, best2, best, maxPages, i, hd, hfuel, hq => by
    obtain ⟨rfl, hd, hrest⟩ := hd
    have happ : pre ++ d :: rest = pre ++ [d] ++ rest := by simp
    have hvals : vals m (d :: rest) = (m d).val :: vals m rest := rfl
    have hlen : (pre ++ [d]).length = pre.length + 1 := by simp
    have hlast : (pre ++ [d]).getLastD 0 = d := List.getLastD_concat
    rw [List.length_cons] at hfuel
    rw [worstLoop, if_neg hd, hvals, worstScan]
    by_cases hbest : lo ≤ (m d).val.startVa ∧ (m d).val.startVa < userHeapMax ∧ page ≤ (m d).val.numPages ∧
        maxPages < (m d).val.numPages
    · -- the node at `d` is the best so far
      have hhere : PointsAt (pre ++ [d] ++ rest) (pre.getLastD 0, d) (some pre.length) :=
        ⟨pre, d, rest, happ.symm, rfl, rfl⟩
      obtain ⟨q, hr, hp⟩ := worstLoop_spec m lo page rest (pre ++ [d]) _ k (pre.getLastD 0) d (m d).val.numPages
        (some pre.length) hrest (by omega) hhere
      rw [hlast] at hr
      rw [← happ, hlen] at hp
      refine ⟨q, ?_, ?_⟩
      · simp only [if_pos hbest]
        exact hr
      · rw [if_pos hbest]
        exact hp
    · obtain ⟨q, hr, hp⟩ := worstLoop_spec m lo page rest (pre ++ [d]) _ k best2 best maxPages i hrest (by omega)
        (happ ▸ hq)
      rw [hlast] at hr
      rw [← happ, hlen] at hp
      refine ⟨q, ?_, ?_⟩
      · simp only [if_neg hbest]
        exact hr
      · rw [if_neg hbest]
        exact hp

theorem worstttCells_spec (freed : FreeCells) (lo page : Nat) (h : IsList m p as) (hfuel : as.length < k) :
    ∃ m' head cs, worstttCells freed k m p lo page = some ((worsttt lo page (vals m as)).1, m', head) ∧
      IsList m' head cs ∧ cs ⊆ as ∧ vals m' cs = (worsttt lo page (vals m as)).2 ∧ ∀ b ∉ as, m' b = m b := by
  have hstart : PointsAt ([] ++ as) (0, 0) none := rfl
  obtain ⟨q, hr, hp⟩ := worstLoop_spec m lo page as [] p k 0 0 0 none h.chain hfuel hstart
  have hzero : ([] : List Nat).getLastD 0 = 0 := rfl
  have hlen : ([] : List Nat).length = 0 := rfl
  rw [hzero] at hr
  rw [hlen, List.nil_append] at hp
  unfold worstttCells worsttt
  cases hs : worstScan lo page (vals m as) 0 none 0 with
  | none =>
    rw [hs] at hp
    have hnull : q.2 = 0 := hp
    refine ⟨m, p, as, ?_, h, List.Subset.refl _, rfl, fun _ _ => rfl⟩
    simp only [hr, if_pos hnull]
  | some i =>
    rw [hs] at hp
    obtain ⟨pre, a, post, rfl, rfl, rfl⟩ := hp
    have ha : a ≠ 0 := h.chain.ne_zero a (by simp)
    have hvlen : (vals m pre).length = pre.length := List.length_map _
    have hvals : vals m (pre ++ a :: post) = vals m pre ++ (m a).val :: vals m post := vals_append pre (a :: post)
    have hget : (vals m (pre ++ a :: post))[pre.length]? = some (m a).val := by
      rw [hvals, ← hvlen, List.getElem?_append_right le_rfl, Nat.sub_self]
      rfl
    simp only [hr, if_neg ha, hget]
    by_cases hleft : 0 < (m a).val.numPages - page
    · have hsame : ∀ b, b ≠ a → Function.update m a
          ⟨⟨add32 (m a).val.startVa (mul32 page pageSize), (m a).val.numPages - page⟩, (m a).next⟩ b = m b :=
        fun b hb => Function.update_of_ne hb _ _
      have hout : a ∉ pre ++ post := (List.nodup_cons.1 (List.perm_middle.nodup_iff.1 h.nodup)).1
      rw [if_pos hleft, if_pos hleft]
      refine ⟨_, p, pre ++ a :: post, rfl, h.congr fun b hb => ?_, List.Subset.refl _, ?_, fun b hb => ?_⟩
      · by_cases hba : b = a
        · rw [hba, Function.update_self]
        · rw [hsame b hba]
      · rw [vals_append]
        show vals _ pre ++ (Function.update m a _ a).val :: vals _ post = _
        rw [vals_update (fun hc => hout (List.mem_append_left post hc)), Function.update_self,
          vals_update (fun hc => hout (List.mem_append_right pre hc)), hvals, ← hvlen,
          List.set_append_right _ _ le_rfl, Nat.sub_self, List.set_cons_zero]
      · exact hsame b fun hc => hb (by simp [hc])
    · obtain ⟨m', head, hu, hl, hv, hkeep⟩ := unlink_freed freed h
      rw [if_neg hleft, if_neg hleft]
      refine ⟨_, head, pre ++ post, ?_, hl, ?_, ?_, hkeep⟩
      · simp only [hu]
      · exact ((List.sublist_cons_self a post).append_left pre).subset
      · rw [hv, hvals, ← hvlen, List.eraseIdx_append_of_length_le le_rfl, Nat.sub_self, List.eraseIdx_cons_zero]

end Cells

/-! ## Order and pages -/

/-- Whole pages, at least one, between `lo` and the end of the heap. -/
structure FreeBlockNode.PagesFrom (lo : Nat) (d : FreeBlockNode) : Prop where
  lo : lo ≤ d.startVa
  start : d.startVa % 4096 = 0
  pages : 0 < d.numPages
  hi : d.extent.fin ≤ userHeapMax

/-- A list of disjoint free ranges in the order of their addresses. -/
structure FreeList (lo : Nat) (l : List FreeBlockNode) : Prop where
  ranges : ∀ d ∈ l, d.PagesFrom lo
  sorted : l.Pairwise fun a b => a.startVa ≤ b.startVa
  disjoint : l.Pairwise fun a b => a.extent.Disjoint b.extent

/-- The addresses of `n` pages from `start` on. -/
def pagesAt (start n : Nat) : Set Nat := {x | start ≤ x ∧ x < start + n * 4096}

section Order

variable {lo n : Nat} {d e : FreeBlockNode} {l pre post : List FreeBlockNode}

theorem FreeBlockNode.PagesFrom.isRange (h : d.PagesFrom lo) : d.IsRange := by
  refine ⟨h.pages, h.hi.trans ?_⟩
  decide

theorem FreeBlockNode.PagesFrom.inWindow (h : d.PagesFrom lo) : inWindow lo d = true := by
  have hlo := h.lo
  have hpages := h.pages
  have hhi := h.hi
  rw [fin_extent] at hhi
  simp only [Fos.Heap.inWindow, Bool.and_eq_true, decide_eq_true_eq]
  omega

/-- Each range ends where the next one starts or before. -/
theorem FreeList.order (h : FreeList lo l) : l.Pairwise fun a b => a.extent.fin ≤ b.startVa :=
  ends_before h.sorted (fun d hd => (h.ranges d hd).isRange) h.disjoint

theorem freeList_of_order (hr : ∀ d ∈ l, d.PagesFrom lo) (ho : l.Pairwise fun a b => a.extent.fin ≤ b.startVa) :
    FreeList lo l := by
  refine ⟨hr, ho.imp fun {a b} hab => ?_, ho.imp fun {a b} hab => ?_⟩
  · rw [fin_extent] at hab
    omega
  · exact Extent.Apart.disjoint (.inl hab)

/-- The first pages of a range are taken: the rest of it stays in its place. -/
theorem FreeList.take (h : FreeList lo (pre ++ d :: post)) (hn : 0 < n) (hle : n ≤ d.numPages) :
    FreeList lo (pre ++ d.rest n ++ post) ∧
      freeSpace (pre ++ d.rest n ++ post) = freeSpace (pre ++ d :: post) \ pagesAt d.startVa n := by
  obtain ⟨hpre, hdpost, hcross⟩ := List.pairwise_append.1 h.order
  obtain ⟨hd, hpost⟩ := List.pairwise_cons.1 hdpost
  obtain ⟨hdlo, hdst, hdpos, hdhi⟩ := h.ranges d (by simp)
  rw [fin_extent] at hdhi
  have hmax : userHeapMax < 4294967296 := by decide
  -- what is left starts higher and ends where the range does
  have hrest : ∀ e ∈ d.rest n, e.startVa = d.startVa + n * 4096 ∧ e.numPages = d.numPages - n ∧ n < d.numPages := by
    rintro e he
    unfold FreeBlockNode.rest at he
    split at he
    · next hlt =>
      rw [List.mem_singleton] at he
      subst he
      refine ⟨?_, rfl, hlt⟩
      show add32 d.startVa (mul32 n pageSize) = _
      rw [pageSize, mul32_of_lt (by omega), add32_of_lt (by omega)]
    · cases he
  have hfin : ∀ e ∈ d.rest n, e.extent.fin = d.extent.fin := by
    rintro e he
    obtain ⟨h1, h2, h3⟩ := hrest e he
    rw [fin_extent, fin_extent, h1, h2]
    omega
  have hone : (d.rest n).Pairwise fun a b => a.extent.fin ≤ b.startVa := by
    unfold FreeBlockNode.rest
    split
    · exact List.pairwise_singleton _ _
    · exact .nil
  constructor
  · refine freeList_of_order (fun e he => ?_) ?_
    · simp only [List.mem_append] at he
      rcases he with (he | he) | he
      · exact h.ranges e (by simp [he])
      · obtain ⟨h1, h2, h3⟩ := hrest e he
        refine ⟨by omega, by omega, by omega, ?_⟩
        rw [hfin e he]
        exact hdhi
      · exact h.ranges e (by simp [he])
    · rw [List.append_assoc]
      refine List.pairwise_append.2 ⟨hpre, List.pairwise_append.2 ⟨hone, hpost, fun a ha b hb => ?_⟩,
        fun a ha b hb => ?_⟩
      · rw [hfin a ha]
        exact hd b hb
      · rcases List.mem_append.1 hb with hb | hb
        · have := hcross a ha d List.mem_cons_self
          have := (hrest b hb).1
          omega
        · exact hcross a ha b (List.mem_cons_of_mem d hb)
  · have hspace : ∀ x, x ∈ freeSpace (d.rest n) ↔ d.startVa + n * 4096 ≤ x ∧ x < d.startVa + d.numPages * 4096 := by
      rintro x
      unfold FreeBlockNode.rest
      split
      · rw [pageSize, mul32_of_lt (by omega), add32_of_lt (by omega), mem_freeSpace_cons, freeSpace_nil]
        simp only [Set.mem_empty_iff_false, or_false]
        omega
      · rw [freeSpace_nil, Set.mem_empty_iff_false, false_iff]
        omega
    have hlow : ∀ x, x ∈ freeSpace pre → x < d.startVa := by
      rintro x ⟨e, he, -, hx⟩
      exact lt_of_lt_of_le hx (hcross e he d List.mem_cons_self)
    have hhigh : ∀ x, x ∈ freeSpace post → d.startVa + d.numPages * 4096 ≤ x := by
      rintro x ⟨e, he, hx, -⟩
      exact le_trans (hd e he) hx
    ext x
    simp only [Set.mem_sdiff, mem_freeSpace_append, mem_freeSpace_cons, hspace, pagesAt, Set.mem_ofPred_eq]
    have hl := hlow x
    have hh := hhigh x
    constructor
    · rintro ((hx | hx) | hx)
      · exact ⟨.inl hx, fun hc => absurd (hl hx) (by omega)⟩
      · exact ⟨.inr (.inl ⟨by omega, hx.2⟩), by omega⟩
      · have := hh hx
        exact ⟨.inr (.inr hx), fun hc => by have := Nat.mul_le_mul_right 4096 hle; omega⟩
    · rintro ⟨hx | hx | hx, hout⟩
      · exact .inl (.inl hx)
      · have hge : d.startVa + n * 4096 ≤ x := by
          by_contra hlt
          exact hout ⟨hx.1, not_le.1 hlt⟩
        exact .inl (.inr ⟨hge, hx.2⟩)
      · exact .inr hx

/-- Before the first of the largest ranges all are smaller. -/
theorem largestRange_first : ∀ {l pre post : List FreeBlockNode}, largestRange lo l = some d → l = pre ++ d :: post →
    d ∉ pre → ∀ e ∈ pre, inWindow lo e = true → e.numPages < d.numPages
  | l, [], post, _, _, _ => by simp
  | l, c :: pre, post, hl, hsplit, hout => by
    subst hsplit
    rw [List.mem_cons, not_or] at hout
    rw [List.cons_append, largestRange] at hl
    cases hrest : largestRange lo (pre ++ d :: post) with
    | none =>
      rw [hrest] at hl
      simp only at hl
      split at hl
      · exact absurd (Option.some.inj hl).symm hout.1
      · cases hl
    | some f =>
      rw [hrest] at hl
      simp only at hl
      split at hl
      · exact absurd (Option.some.inj hl).symm hout.1
      · next hsmall =>
        rw [Option.some.inj hl] at hrest hsmall
        rintro e he hw
        rcases List.mem_cons.1 he with rfl | he
        · rw [hw, Bool.true_and, decide_eq_true_eq, not_le] at hsmall
          exact hsmall
        · exact largestRange_first hrest rfl hout.2 e he hw

theorem worsttt_first (h : FreeList lo l) (hne : (worsttt lo n l).1 ≠ 0) :
    ∃ d pre post, l = pre ++ d :: post ∧ n ≤ d.numPages ∧ (∀ e ∈ pre, e.numPages < d.numPages) ∧
      (∀ e ∈ post, e.numPages ≤ d.numPages) ∧ worsttt lo n l = (d.startVa, pre ++ d.rest n ++ post) := by
  rcases worsttt_split lo n l with ⟨-, hz⟩ | ⟨d, pre, post, hrange, -, hle, rfl, hr⟩
  · rw [hz] at hne
    exact absurd rfl hne
  · have hlargest : largestRange lo (pre ++ d :: post) = some d := (Option.filter_eq_some_iff.1 hrange).1
    have hout : d ∉ pre := by
      intro hc
      have hself := (List.pairwise_append.1 h.order).2.2 d hc d List.mem_cons_self
      have hpos := (h.ranges d (by simp)).pages
      rw [fin_extent] at hself
      omega
    refine ⟨d, pre, post, rfl, hle, fun e he => ?_, fun e he => ?_, hr⟩
    · exact largestRange_first hlargest rfl hout e he (h.ranges e (by simp [he])).inWindow
    · exact (largestRange_some hlargest).2 e (by simp [he]) (h.ranges e (by simp [he])).inWindow

theorem exacttt_first (h : FreeList lo l) (hne : (exacttt n l).1 ≠ 0) :
    ∃ d pre post, l = pre ++ d :: post ∧ d.numPages = n ∧ (∀ e ∈ pre, e.numPages ≠ n) ∧
      exacttt n l = (d.startVa, pre ++ d.rest n ++ post) := by
  induction l with
  | nil => exact absurd rfl hne
  | cons c l ih =>
    by_cases hc : c.numPages = n
    · have hr : roundDown c.startVa pageSize = c.startVa := roundDown_of_dvd (h.ranges c List.mem_cons_self).start
      have hrest : c.rest n = [] := if_neg (by omega)
      refine ⟨c, [], l, rfl, hc, by simp, ?_⟩
      rw [exacttt, if_pos hc, hr, hrest]
      rfl
    · have hl : FreeList lo l := ⟨fun d hd => h.ranges d (List.mem_cons_of_mem c hd), (List.pairwise_cons.1 h.sorted).2,
        (List.pairwise_cons.1 h.disjoint).2⟩
      rw [exacttt, if_neg hc] at hne ⊢
      obtain ⟨d, pre, post, rfl, hd, hpre, hr⟩ := ih hl hne
      refine ⟨d, c :: pre, post, rfl, hd, List.forall_mem_cons.2 ⟨hc, hpre⟩, ?_⟩
      rw [hr]
      rfl

/-- No range of the list starts where a disjoint one does. -/
theorem FreeList.start_new (h : FreeList lo l) (hd : d.PagesFrom lo) (hout : ∀ e ∈ l, d.extent.Disjoint e.extent) :
    l.any (·.startVa == d.startVa) = false := by
  rw [List.any_eq_false]
  rintro e he heq
  have hes : e.startVa = d.startVa := by simpa using heq
  have hepos := (h.ranges e he).pages
  have hdpos := hd.pages
  refine hout e he d.startVa ⟨⟨le_rfl, ?_⟩, hes.le, ?_⟩
  · rw [fin_extent]
    omega
  · rw [fin_extent]
    omega

/-- A disjoint range is put in its place. -/
theorem FreeList.add (h : FreeList lo l) (hd : d.PagesFrom lo) (hout : ∀ e ∈ l, d.extent.Disjoint e.extent) :
    FreeList lo (freeBlockk l d.startVa d.numPages) ∧ (freeBlockk l d.startVa d.numPages).Perm (d :: l) := by
  have hnew := h.start_new hd hout
  have hrun : freeBlockk l d.startVa d.numPages = insertNode d l := by
    have hpos : d.numPages ≠ 0 := by
      have := hd.pages
      omega
    rw [freeBlockk, if_neg hpos, hnew]
    rfl
  have hperm := insertNode_perm d l
  rw [hrun]
  refine ⟨⟨fun e he => ?_, insertNode_sorted h.sorted, ?_⟩, hperm⟩
  · rcases List.mem_cons.1 (hperm.mem_iff.1 he) with rfl | he
    · exact hd
    · exact h.ranges e he
  · exact (hperm.pairwise_iff fun hab => hab.symm).2 (List.pairwise_cons.2 ⟨hout, h.disjoint⟩)

end Order

/-! ## The three functions -/

/-- Of the range `d`, between `pre` and `post`, the first `n` pages are taken; they start at `addr`. -/
structure Taken (lo : Nat) (l l' pre : List FreeBlockNode) (d : FreeBlockNode) (post : List FreeBlockNode)
    (addr n : Nat) : Prop where
  range : l = pre ++ d :: post
  start : d.startVa = addr
  left : l' = pre ++ d.rest n ++ post
  had : pagesAt addr n ⊆ freeSpace l
  pages : freeSpace l' = freeSpace l \ pagesAt addr n
  list : FreeList lo l'

/-- The first range of exactly `n` pages is taken. -/
def TakenExact (lo : Nat) (l l' : List FreeBlockNode) (addr n : Nat) : Prop :=
  ∃ pre d post, Taken lo l l' pre d post addr n ∧ d.numPages = n ∧ ∀ e ∈ pre, e.numPages ≠ n

/-- The first of the largest ranges, which has at least `n` pages, is taken from. -/
def TakenWorst (lo : Nat) (l l' : List FreeBlockNode) (addr n : Nat) : Prop :=
  ∃ pre d post, Taken lo l l' pre d post addr n ∧ n ≤ d.numPages ∧ (∀ e ∈ pre, e.numPages < d.numPages) ∧
    ∀ e ∈ post, e.numPages ≤ d.numPages

/-- The range is added and nothing else changes. -/
structure Added (lo : Nat) (l l' : List FreeBlockNode) (d : FreeBlockNode) : Prop where
  ranges : l'.Perm (d :: l)
  pages : freeSpace l' = freeSpace l ∪ pagesAt d.startVa d.numPages
  list : FreeList lo l'

section Functions

variable {lo n : Nat} {d : FreeBlockNode} {l pre post : List FreeBlockNode}

theorem FreeList.taken (h : FreeList lo (pre ++ d :: post)) (hn : 0 < n) (hle : n ≤ d.numPages) :
    Taken lo (pre ++ d :: post) (pre ++ d.rest n ++ post) pre d post d.startVa n := by
  obtain ⟨hlist, hspace⟩ := h.take hn hle
  refine ⟨rfl, rfl, rfl, ?_, hspace, hlist⟩
  rintro x ⟨hx, hlt⟩
  refine ⟨d, by simp, hx, lt_of_lt_of_le hlt ?_⟩
  exact Nat.add_le_add_left (Nat.mul_le_mul_right 4096 hle) d.startVa

theorem FreeList.added (h : FreeList lo l) (hd : d.PagesFrom lo) (hout : ∀ e ∈ l, d.extent.Disjoint e.extent) :
    Added lo l (freeBlockk l d.startVa d.numPages) d := by
  obtain ⟨hlist, hperm⟩ := h.add hd hout
  refine ⟨hperm, ?_, hlist⟩
  rw [freeSpace_perm hperm]
  ext x
  rw [mem_freeSpace_cons, Set.mem_union, or_comm]
  rfl

/-- On a free list in order each of the three functions ends. `EXACTTT` and `WORSTTT` take the pages they return the
address of and no others, the one from the first range of that size, the other from the first of the largest ranges;
`FREEblockk` adds a range that is disjoint from the others, unless `malloc` has no memory for the node. -/
theorem free_list_taken {m : FreeCells} {freeHead fuel : Nat} {nodes : List Nat} (freed : FreeCells)
    (hlist : IsList m freeHead nodes) (hfree : FreeList lo (vals m nodes)) (hn : 0 < n) (hfuel : nodes.length < fuel) :
    (∃ addr m' head nodes', exactttCells freed fuel m freeHead n = some (addr, m', head) ∧ IsList m' head nodes' ∧
      (addr ≠ 0 → TakenExact lo (vals m nodes) (vals m' nodes') addr n)) ∧
    (∃ addr m' head nodes', worstttCells freed fuel m freeHead lo n = some (addr, m', head) ∧ IsList m' head nodes' ∧
      (addr ≠ 0 → TakenWorst lo (vals m nodes) (vals m' nodes') addr n)) ∧
    ∀ start, FreeBlockNode.PagesFrom lo ⟨start, n⟩ →
      (∀ e ∈ vals m nodes, (FreeBlockNode.extent ⟨start, n⟩).Disjoint e.extent) →
        freeBlockkCells fuel m freeHead start n 0 = some (.error (.panic "malloc failed for free block")) ∧
        ∀ newNode, newNode ≠ 0 → newNode ∉ nodes → ∃ m' head nodes',
          freeBlockkCells fuel m freeHead start n newNode = some (.ok (m', head)) ∧ IsList m' head nodes' ∧
            Added lo (vals m nodes) (vals m' nodes') ⟨start, n⟩ := by
  refine ⟨?_, ?_, fun start hpages hout => ⟨?_, fun newNode hnew hnout => ?_⟩⟩
  · obtain ⟨m', head, nodes', hr, hl, -, hv, -⟩ := exactttCells_spec freed n hlist hfuel
    refine ⟨_, m', head, nodes', hr, hl, fun hne => ?_⟩
    obtain ⟨d, pre, post, hsplit, hd, hpre, hres⟩ := exacttt_first hfree hne
    rw [hv, hres, hsplit]
    exact ⟨pre, d, post, (hsplit ▸ hfree).taken hn hd.ge, hd, hpre⟩
  · obtain ⟨m', head, nodes', hr, hl, -, hv, -⟩ := worstttCells_spec freed lo n hlist hfuel
    refine ⟨_, m', head, nodes', hr, hl, fun hne => ?_⟩
    obtain ⟨d, pre, post, hsplit, hd, hpre, hpost, hres⟩ := worsttt_first hfree hne
    rw [hv, hres, hsplit]
    exact ⟨pre, d, post, (hsplit ▸ hfree).taken hn hd, hd, hpre, hpost⟩
  · have hnew := hfree.start_new hpages hout
    rw [freeBlockkCells, if_neg (by omega), startsAt_spec hlist.chain hfuel, hnew]
    rfl
  · obtain ⟨m', head, nodes', hr, hl, -, hv, -⟩ := freeBlockkCells_spec start n hlist hfuel hnew hnout
    refine ⟨m', head, nodes', hr, hl, ?_⟩
    rw [hv]
    exact hfree.added hpages hout

/-- Two pages and twice three in order. -/
def orderedRanges : FreeCells := fun a =>
  if a = 8 then ⟨⟨16384, 2⟩, 24⟩ else if a = 24 then ⟨⟨32768, 3⟩, 16⟩ else ⟨⟨65536, 3⟩, 0⟩

def zeroedCells : FreeCells := fun _ => ⟨⟨0, 0⟩, 0⟩

theorem free_list_taken_two :
    (∃ m' head nodes', exactttCells zeroedCells 4 orderedRanges 8 2 = some (16384, m', head) ∧ IsList m' head nodes' ∧
      TakenExact 16384 (vals orderedRanges [8, 24, 16]) (vals m' nodes') 16384 2) ∧
    (∃ m' head nodes', worstttCells zeroedCells 4 orderedRanges 8 16384 2 = some (32768, m', head) ∧
      IsList m' head nodes' ∧ TakenWorst 16384 (vals orderedRanges [8, 24, 16]) (vals m' nodes') 32768 2) ∧
    ∃ m' head nodes', freeBlockkCells 4 orderedRanges 8 49152 2 32 = some (.ok (m', head)) ∧ IsList m' head nodes' ∧
      Added 16384 (vals orderedRanges [8, 24, 16]) (vals m' nodes') ⟨49152, 2⟩ := by
  have hvals : vals orderedRanges [8, 24, 16] = [⟨16384, 2⟩, ⟨32768, 3⟩, ⟨65536, 3⟩] := rfl
  have hchain : Chain orderedRanges 8 [8, 24, 16] 0 := ⟨rfl, by decide, rfl, by decide, rfl, by decide, rfl⟩
  have hfree : FreeList 16384 (vals orderedRanges [8, 24, 16]) := by
    rw [hvals]
    refine freeList_of_order (fun d hd => ?_) (by decide)
    fin_cases hd <;> exact ⟨by decide, by decide, by decide, by decide⟩
  have htwo : 0 < 2 := by decide
  have hrounds : [8, 24, 16].length < 4 := by decide
  obtain ⟨⟨addr, m₁, head₁, nodes₁, hr₁, hl₁, ht₁⟩, ⟨addr', m₂, head₂, nodes₂, hr₂, hl₂, ht₂⟩, hadd⟩ :=
    free_list_taken zeroedCells ⟨hchain, by decide⟩ hfree htwo hrounds
  have haddr : addr = 16384 := (congrArg Prod.fst (Option.some.inj hr₁)).symm
  have haddr' : addr' = 32768 := (congrArg Prod.fst (Option.some.inj hr₂)).symm
  rw [haddr] at hr₁ ht₁
  rw [haddr'] at hr₂ ht₂
  refine ⟨⟨m₁, head₁, nodes₁, hr₁, hl₁, ht₁ (by decide)⟩, ⟨m₂, head₂, nodes₂, hr₂, hl₂, ht₂ (by decide)⟩, ?_⟩
  refine (hadd 49152 ⟨by decide, by decide, by decide, by decide⟩ fun e he => ?_).2 32 (by decide) (by decide)
  rw [hvals] at he
  fin_cases he <;> exact Extent.Apart.disjoint (by decide)

end Functions

end Fos.Heap
