/-
`MERGEE` of `lib/uheap.c` on the cells of the free list: the links that its two loops write, with a bound on the rounds.
With as many rounds as there are nodes it ends, with the list that `mergee` says, and that is the list of the same pages
in order with no two ranges that touch.
-/
import Fos.Heap.FreeRanges
import Fos.Lib.Chain

namespace Fos.Heap

open Fos.Lib

/-! ## The code -/

abbrev FreeCells := Nat → Cell FreeBlockNode

/-- The loop of the sort that looks for the node to insert behind. -/
def insertPlace (m : FreeCells) (startVa : Nat) : Nat → Nat → Option Nat
  | 0, _ => none
  | fuel + 1, s =>
    if (m s).next ≠ 0 ∧ (m (m s).next).val.startVa < startVa then insertPlace m startVa fuel (m s).next else some s

/-- The first loop of `MERGEE`, with the list sorted so far and the node that is next. -/
def sortLoop (limit : Nat) : Nat → FreeCells → Nat → Nat → Option (FreeCells × Nat)
  | 0, _, _, _ => none
  | fuel + 1, m, metrateba, delwa2ty =>
    if delwa2ty = 0 then some (m, metrateba)
    else
      let elgaya := (m delwa2ty).next
      if metrateba = 0 ∨ (m delwa2ty).val.startVa < (m metrateba).val.startVa then
        sortLoop limit fuel (setNext m delwa2ty metrateba) delwa2ty elgaya
      else
        match insertPlace m (m delwa2ty).val.startVa limit metrateba with
        | none => none
        | some s => sortLoop limit fuel (setNext (setNext m delwa2ty (m s).next) s delwa2ty) metrateba elgaya

/-- The second loop of `MERGEE`. A node that is freed holds what the block allocator writes there. -/
def joinLoop (freed : FreeCells) : Nat → FreeCells → Nat → Option FreeCells
  | 0, _, _ => none
  | fuel + 1, m, delwa2ty =>
    if delwa2ty ≠ 0 ∧ (m delwa2ty).next ≠ 0 then
      let haytmes7 := (m delwa2ty).next
      let d := (m delwa2ty).val
      if add32 d.startVa (mul32 d.numPages pageSize) = (m haytmes7).val.startVa then
        let joined := { d with numPages := add32 d.numPages (m haytmes7).val.numPages }
        let m' := Function.update m delwa2ty ⟨joined, (m haytmes7).next⟩
        joinLoop freed fuel (Function.update m' haytmes7 (freed haytmes7)) delwa2ty
      else joinLoop freed fuel m haytmes7
    else some m

/-- `MERGEE`, with at most `fuel` rounds of each loop. -/
def mergeeCells (freed : FreeCells) (fuel : Nat) (m : FreeCells) (freeHead : Nat) : Option (FreeCells × Nat) :=
  if freeHead = 0 ∨ (m freeHead).next = 0 then some (m, freeHead)
  else
    match sortLoop fuel fuel m 0 freeHead with
    | none => none
    | some (m, head) => (joinLoop freed fuel m head).map fun m => (m, head)

/-! ## The cells hold the list -/

section Cells

variable {m : FreeCells} {d : FreeBlockNode} {s t p a k n : Nat} {as bs rest : List Nat}

/-- The search ends, behind the last node that starts below. -/
theorem insertPlace_spec : ∀ {rest : List Nat} {s k : Nat}, Chain m (m s).next rest 0 → rest.length < k →
    ∃ pre t post, s :: rest = pre ++ t :: post ∧ insertPlace m d.startVa k s = some t ∧
      (m s).val :: insertNode d (vals m rest) = vals m pre ++ (m t).val :: d :: vals m post
  | [], s, k + 1, h, _ => by
    have hnull : (m s).next = 0 := h
    refine ⟨[], s, [], rfl, ?_, rfl⟩
    rw [insertPlace, if_neg (fun hc => hc.1 hnull)]
  | b :: rest, s, k + 1, h, hfuel => by
    obtain ⟨hb, hb0, h⟩ := h
    by_cases hlt : (m b).val.startVa < d.startVa
    · obtain ⟨pre, t, post, hsplit, hplace, hvals⟩ := insertPlace_spec (k := k) h (by simpa using hfuel)
      refine ⟨s :: pre, t, post, by rw [hsplit]; rfl, ?_, ?_⟩
      · rw [insertPlace, hb, if_pos ⟨hb0, hlt⟩, hplace]
      · show _ :: insertNode d ((m b).val :: vals m rest) = _
        rw [insertNode, if_pos hlt, hvals]
        rfl
    · refine ⟨[], s, b :: rest, rfl, ?_, ?_⟩
      · rw [insertPlace, hb, if_neg (fun hc => hlt hc.2)]
      · show _ :: insertNode d ((m b).val :: vals m rest) = _
        rw [insertNode, if_neg hlt]
        rfl

/-- The sort of a list of nodes into a sorted one. -/
theorem sortLoop_spec : ∀ {bs : List Nat} {m : FreeCells} {p d k : Nat} {as : List Nat}, IsList m p as →
    Chain m d bs 0 → (as ++ bs).Nodup → as.length + bs.length ≤ n → bs.length < k →
      ∃ m' head cs, sortLoop n k m p d = some (m', head) ∧ IsList m' head cs ∧ cs.Perm (as ++ bs) ∧
        vals m' cs = (vals m bs).foldl (fun l d => insertSorted d l) (vals m as)
  | [], m, p, d, k + 1, as, h, hd, _, _, _ => by
    have hnull : d = 0 := hd
    refine ⟨m, p, as, ?_, h, by rw [List.append_nil], rfl⟩
    rw [sortLoop, if_pos hnull]
  | b :: bs, m, p, d, k + 1, as, h, hd, hnd, hlimit, hfuel => by
    obtain ⟨rfl, hd0, hrest⟩ := hd
    have hperm : (as ++ d :: bs).Perm ((d :: as) ++ bs) := List.perm_middle
    have hnd' := hperm.nodup_iff.1 hnd
    have hout := (List.nodup_cons.1 hnd').1
    have hda : d ∉ as := fun hc => hout (by simp [hc])
    have hdb : d ∉ bs := fun hc => hout (by simp [hc])
    rw [List.length_cons] at hlimit hfuel
    by_cases hfront : p = 0 ∨ (m d).val.startVa < (m p).val.startVa
    · have hchain : Chain (setNext m d p) (m d).next bs 0 := hrest.congr fun b hb => by
        have hne : b ≠ d := fun hc => hdb (hc ▸ hb)
        rw [setNext_of_ne hne]
      obtain ⟨m', head, cs, hr, hl, hp, hv⟩ := sortLoop_spec (k := k) (h.push hd0 hda) hchain hnd'
        (by rw [List.length_cons]; omega) (by omega)
      refine ⟨m', head, cs, ?_, hl, hp.trans hperm.symm, ?_⟩
      · rw [sortLoop, if_neg hd0]
        simp only [if_pos hfront]
        exact hr
      · have hins : insertSorted (m d).val (vals m as) = vals m (d :: as) := by
          rcases hfront with rfl | hlt
          · rw [h.chain.eq_nil]
            rfl
          · by_cases hp0 : p = 0
            · have := h.chain
              rw [hp0] at this
              rw [this.eq_nil]
              rfl
            · obtain ⟨rest, rfl, -⟩ := h.chain.eq_cons hp0
              exact if_pos hlt
        rw [hv, vals_setNext, vals_setNext, ← hins]
        rfl
    · rw [not_or] at hfront
      obtain ⟨rest, rfl, hchain⟩ := h.chain.eq_cons hfront.1
      obtain ⟨pre, t, post, hsplit, hplace, hvals⟩ := insertPlace_spec (d := (m d).val) (k := n) hchain
        (by rw [List.length_cons] at hlimit; omega)
      have hins : insertSorted (m d).val (vals m (p :: rest)) = vals m (pre ++ t :: d :: post) := by
        have hmid : vals m (pre ++ t :: d :: post) = vals m pre ++ (m t).val :: (m d).val :: vals m post := by
          simp only [vals, List.map_append, List.map_cons]
        rw [hmid, ← hvals]
        exact if_neg hfront.2
      rw [hsplit] at h hda hnd hperm hlimit
      have hperm' : (pre ++ t :: post ++ d :: bs).Perm (pre ++ t :: d :: post ++ bs) := by
        simp only [List.append_assoc, List.cons_append]
        exact (List.perm_middle.cons t).append_left pre
      have hbs : ∀ b ∈ bs, b ≠ d ∧ b ≠ t := by
        rintro b hb
        refine ⟨fun hc => hdb (hc ▸ hb), fun hc => ?_⟩
        exact (List.nodup_append.1 hnd).2.2 t (by simp) b (List.mem_cons_of_mem _ hb) hc.symm
      have hchain' : Chain (setNext (setNext m d (m t).next) t d) (m d).next bs 0 := hrest.congr fun b hb => by
        rw [setNext_of_ne (hbs b hb).2, setNext_of_ne (hbs b hb).1]
      obtain ⟨m', head, cs, hr, hl, hp, hv⟩ := sortLoop_spec (k := k) (h.insert hd0 hda) hchain'
        (hperm'.nodup_iff.1 hnd) (by simp only [List.length_append, List.length_cons] at hlimit ⊢; omega) (by omega)
      refine ⟨m', head, cs, ?_, hl, ?_, ?_⟩
      · rw [sortLoop, if_neg hd0]
        simp only [if_neg (not_or.2 hfront), hplace]
        exact hr
      · rw [hsplit]
        exact hp.trans hperm'.symm
      · rw [hv, vals_setNext, vals_setNext, vals_setNext, vals_setNext, ← hins]
        rfl

/-- The second loop frees the nodes whose ranges it joins to the ones before. -/
theorem joinLoop_spec (freed : FreeCells) : ∀ {rest : List Nat} {m : FreeCells} {d k : Nat}, IsList m d (d :: rest) →
    rest.length < k → ∃ m' cs, joinLoop freed k m d = some m' ∧ IsList m' d (d :: cs) ∧ cs.Sublist rest ∧
      vals m' (d :: cs) = coalesce (m d).val (vals m rest) ∧ ∀ a ∉ d :: rest, m' a = m a
  | [], m, d, k + 1, h, _ => by
    have hnull : (m d).next = 0 := h.chain.2.2
    refine ⟨m, [], ?_, h, .slnil, rfl, fun _ _ => rfl⟩
    rw [joinLoop, if_neg fun hc => hc.2 hnull]
  | n :: rest, m, d, k + 1, h, hfuel => by
    obtain ⟨-, hd0, hn, hn0, hchain⟩ := h.chain
    obtain ⟨hdout, hnd⟩ := List.nodup_cons.1 h.nodup
    obtain ⟨hnout, hnd'⟩ := List.nodup_cons.1 hnd
    have hne : n ≠ d := fun hc => hdout (by simp [hc])
    have hdrest : d ∉ rest := fun hc => hdout (by simp [hc])
    rw [List.length_cons] at hfuel
    by_cases htouch : add32 (m d).val.startVa (mul32 (m d).val.numPages pageSize) = (m n).val.startVa
    · obtain ⟨r, hr⟩ : ∃ r, r = Function.update (Function.update m d
        ⟨{ (m d).val with numPages := add32 (m d).val.numPages (m n).val.numPages }, (m n).next⟩) n
          (freed n) := ⟨_, rfl⟩
      have hrd : r d = ⟨{ (m d).val with numPages := add32 (m d).val.numPages (m n).val.numPages }, (m n).next⟩ := by
        rw [hr, Function.update_of_ne (Ne.symm hne), Function.update_self]
      have hsame : ∀ b, b ≠ d → b ≠ n → r b = m b := by
        rintro b hbd hbn
        rw [hr, Function.update_of_ne hbn, Function.update_of_ne hbd]
      have hrest : ∀ b ∈ rest, r b = m b := fun b hb =>
        hsame b (fun hc => hdrest (hc ▸ hb)) fun hc => hnout (hc ▸ hb)
      have hl : IsList r d (d :: rest) := by
        refine ⟨⟨rfl, hd0, ?_⟩, List.nodup_cons.2 ⟨hdrest, hnd'⟩⟩
        rw [hrd]
        exact hchain.congr fun b hb => by rw [hrest b hb]
      obtain ⟨m', cs, hj, hl', hsub, hv, hkeep⟩ := joinLoop_spec freed (k := k) hl (by omega)
      refine ⟨m', cs, ?_, hl', hsub.cons n, ?_, fun a ha => ?_⟩
      · rw [joinLoop, hn, if_pos ⟨hd0, hn0⟩]
        simp only [if_pos htouch]
        rw [← hr]
        exact hj
      · rw [hv, hrd, vals_congr fun b hb => by rw [hrest b hb]]
        show _ = coalesce (m d).val ((m n).val :: vals m rest)
        rw [coalesce, if_pos htouch]
      · simp only [List.mem_cons, not_or] at ha
        rw [hkeep a (by simp only [List.mem_cons, not_or]; exact ⟨ha.1, ha.2.2⟩), hsame a ha.1 ha.2.1]
    · have hl : IsList m n (n :: rest) := ⟨⟨rfl, hn0, hchain⟩, hnd⟩
      obtain ⟨m', cs, hj, hl', hsub, hv, hkeep⟩ := joinLoop_spec freed (k := k) hl (by omega)
      have hmd := hkeep d hdout
      refine ⟨m', n :: cs, ?_, ⟨⟨rfl, hd0, ?_⟩, ?_⟩, hsub.cons_cons n, ?_, fun a ha => ?_⟩
      · rw [joinLoop, hn, if_pos ⟨hd0, hn0⟩]
        simp only [if_neg htouch]
        exact hj
      · rw [hmd, hn]
        exact hl'.chain
      · exact List.nodup_cons.2 ⟨fun hc => hdout ((hsub.cons_cons n).subset hc), hl'.nodup⟩
      · show (m' d).val :: vals m' (n :: cs) = coalesce (m d).val ((m n).val :: vals m rest)
        rw [hv, hmd, coalesce, if_neg htouch]
      · exact hkeep a fun hc => ha (List.mem_cons_of_mem d hc)

theorem mergee_of_sorted {a b c : FreeBlockNode} {l l' : List FreeBlockNode}
    (h : (a :: b :: l).foldl (fun l d => insertSorted d l) [] = c :: l') : mergee (a :: b :: l) = coalesce c l' := by
  unfold mergee
  simp only [h]

/-- With as many rounds as there are nodes, the cells hold the list that `mergee` says, in some of the nodes. -/
theorem mergeeCells_spec (freed : FreeCells) (h : IsList m p as) (hfuel : as.length < k) :
    ∃ m' head cs, mergeeCells freed k m p = some (m', head) ∧ IsList m' head cs ∧ cs ⊆ as ∧
      vals m' cs = mergee (vals m as) := by
  cases as with
  | nil =>
    have hnull : p = 0 := h.chain
    refine ⟨m, p, [], ?_, h, List.Subset.refl _, rfl⟩
    rw [mergeeCells, if_pos (.inl hnull)]
  | cons a as =>
    obtain ⟨rfl, hp, hrest⟩ := h.chain
    cases as with
    | nil =>
      have hnull : (m p).next = 0 := hrest
      refine ⟨m, p, [p], ?_, h, List.Subset.refl _, rfl⟩
      rw [mergeeCells, if_pos (.inr hnull)]
    | cons b as =>
      have hnext : (m p).next ≠ 0 := hrest.1 ▸ hrest.2.1
      obtain ⟨r, head, cs, hr, hl, hperm, hv⟩ := sortLoop_spec (n := k) (k := k)
        (show IsList m 0 [] from ⟨rfl, .nil⟩) h.chain h.nodup (by simp only [List.length_nil]; omega) hfuel
      cases cs with
      | nil => exact absurd hperm.length_eq (by simp)
      | cons c cs =>
        obtain rfl : head = c := hl.chain.1
        have hlen : cs.length < k := by
          have := hperm.length_eq
          simp only [List.nil_append, List.length_cons] at this hfuel
          omega
        obtain ⟨m', cs', hj, hl', hsub, hv', -⟩ := joinLoop_spec freed hl hlen
        refine ⟨m', head, head :: cs', ?_, hl', fun x hx => ?_, ?_⟩
        · rw [mergeeCells, if_neg (not_or.2 ⟨hp, hnext⟩)]
          simp only [hr, hj, Option.map_some]
        · exact hperm.mem_iff.1 ((hsub.cons_cons head).subset hx)
        · have hfold : (vals m (p :: b :: as)).foldl (fun l d => insertSorted d l) [] = (r head).val :: vals r cs :=
              hv.symm
          rw [hv']
          exact (mergee_of_sorted hfold).symm

end Cells

/-! ## Order, gaps and pages -/

/-- At least one page, and no address beyond the last one. -/
structure FreeBlockNode.IsRange (d : FreeBlockNode) : Prop where
  pages : 0 < d.numPages
  fits : d.extent.fin ≤ 4294967296

section Ranges

variable {d e : FreeBlockNode} {l m : List FreeBlockNode}

theorem fin_extent (d : FreeBlockNode) : d.extent.fin = d.startVa + d.numPages * 4096 := rfl

theorem insertNode_sorted (h : l.Pairwise fun a b => a.startVa ≤ b.startVa) :
    (insertNode d l).Pairwise fun a b => a.startVa ≤ b.startVa := by
  induction l with
  | nil => exact List.pairwise_singleton _ _
  | cons a l ih =>
    obtain ⟨ha, hl⟩ := List.pairwise_cons.1 h
    rw [insertNode]
    split
    · next hlt =>
      refine List.pairwise_cons.2 ⟨fun b hb => ?_, ih hl⟩
      rcases List.mem_cons.1 ((insertNode_perm d l).mem_iff.1 hb) with rfl | hb
      · omega
      · exact ha b hb
    · next hle =>
      refine List.pairwise_cons.2 ⟨List.forall_mem_cons.2 ⟨by omega, fun b hb => ?_⟩, h⟩
      have := ha b hb
      omega

theorem insertSorted_sorted (h : l.Pairwise fun a b => a.startVa ≤ b.startVa) :
    (insertSorted d l).Pairwise fun a b => a.startVa ≤ b.startVa := by
  cases l with
  | nil => exact List.pairwise_singleton _ _
  | cons a l =>
    obtain ⟨ha, hl⟩ := List.pairwise_cons.1 h
    rw [insertSorted]
    split
    · next hlt =>
      refine List.pairwise_cons.2 ⟨List.forall_mem_cons.2 ⟨by omega, fun b hb => ?_⟩, h⟩
      have := ha b hb
      omega
    · next hle =>
      refine List.pairwise_cons.2 ⟨fun b hb => ?_, insertNode_sorted hl⟩
      rcases List.mem_cons.1 ((insertNode_perm d l).mem_iff.1 hb) with rfl | hb
      · omega
      · exact ha b hb

theorem foldl_insertSorted_sorted : ∀ {l m : List FreeBlockNode}, (m.Pairwise fun a b => a.startVa ≤ b.startVa) →
    (l.foldl (fun m d => insertSorted d m) m).Pairwise fun a b => a.startVa ≤ b.startVa
  | [], _, h => h
  | _ :: l, _, h => foldl_insertSorted_sorted (l := l) (insertSorted_sorted h)

/-- Disjoint ranges in order each end where the next one starts or before. -/
theorem ends_before (hs : l.Pairwise fun a b => a.startVa ≤ b.startVa) (hr : ∀ d ∈ l, d.IsRange)
    (hd : l.Pairwise fun a b => a.extent.Disjoint b.extent) : l.Pairwise fun a b => a.extent.fin ≤ b.startVa := by
  refine (List.Pairwise.and_mem.1 (hs.and hd)).imp ?_
  rintro a b ⟨-, hb, hle, hdis⟩
  by_contra hlt
  have hpages := (hr b hb).pages
  refine hdis b.startVa ⟨⟨hle, by omega⟩, le_rfl, ?_⟩
  rw [fin_extent]
  omega

/-- Ranges that touch are joined, and those that are left do not touch. -/
theorem coalesce_gaps : ∀ {l : List FreeBlockNode} {d : FreeBlockNode}, (∀ e ∈ d :: l, e.IsRange) →
    ((d :: l).Pairwise fun a b => a.extent.fin ≤ b.startVa) →
      ((coalesce d l).Pairwise fun a b => a.extent.fin < b.startVa) ∧ freeSpace (coalesce d l) = freeSpace (d :: l) ∧
        ∀ e ∈ coalesce d l, d.startVa ≤ e.startVa ∧ e.IsRange
  | [], d, hr, _ => by
    refine ⟨List.pairwise_singleton _ _, rfl, fun e he => ?_⟩
    obtain rfl := List.mem_singleton.1 he
    exact ⟨le_rfl, hr e he⟩
  | n :: l, d, hr, hp => by
    obtain ⟨hd, hrest⟩ := List.pairwise_cons.1 hp
    obtain ⟨hn, hl⟩ := List.pairwise_cons.1 hrest
    have hdn : d.startVa + d.numPages * 4096 ≤ n.startVa := hd n List.mem_cons_self
    have hrd := hr d List.mem_cons_self
    have hrn := hr n (List.mem_cons_of_mem _ List.mem_cons_self)
    have hfit : n.startVa + n.numPages * 4096 ≤ 4294967296 := hrn.fits
    have hpd := hrd.pages
    have hpn := hrn.pages
    have hend : add32 d.startVa (mul32 d.numPages pageSize) = d.startVa + d.numPages * 4096 := by
      rw [pageSize, mul32_of_lt (by omega), add32_of_lt (by omega)]
    have hsum : add32 d.numPages n.numPages = d.numPages + n.numPages := add32_of_lt (by omega)
    simp only [coalesce, hend, hsum]
    split
    · next htouch =>
      obtain ⟨j, hj⟩ : ∃ j : FreeBlockNode, j = ⟨d.startVa, d.numPages + n.numPages⟩ := ⟨_, rfl⟩
      have hstart : j.startVa = d.startVa := by rw [hj]
      have hfin : j.extent.fin = n.extent.fin := by
        rw [fin_extent, fin_extent, hj, ← htouch]
        ring
      have hrj : j.IsRange := ⟨by rw [hj]; exact Nat.add_pos_left hpd _, hfin.trans_le hrn.fits⟩
      rw [← hj]
      obtain ⟨h1, h2, h3⟩ := coalesce_gaps (d := j) (l := l)
        (List.forall_mem_cons.2 ⟨hrj, fun e he => hr e (List.mem_cons_of_mem _ (List.mem_cons_of_mem _ he))⟩)
        (List.pairwise_cons.2 ⟨fun e he => hfin ▸ hn e he, hl⟩)
      refine ⟨h1, ?_, fun e he => hstart ▸ h3 e he⟩
      rw [h2]
      ext x
      simp only [mem_freeSpace_cons, ← or_assoc, hj]
      apply or_congr_left
      omega
    · next happart =>
      obtain ⟨h1, h2, h3⟩ := coalesce_gaps (fun e he => hr e (List.mem_cons_of_mem _ he)) hrest
      refine ⟨List.pairwise_cons.2 ⟨fun e he => ?_, h1⟩, ?_, List.forall_mem_cons.2 ⟨⟨le_rfl, hrd⟩, fun e he => ?_⟩⟩
      · have hle := (h3 e he).1
        rw [fin_extent]
        omega
      · ext x
        rw [mem_freeSpace_cons, h2, mem_freeSpace_cons (d := d)]
      · obtain ⟨hle, hre⟩ := h3 e he
        exact ⟨by omega, hre⟩

/-- What `mergee` makes of disjoint ranges in any order. -/
theorem mergee_gaps (hr : ∀ d ∈ l, d.IsRange) (hd : l.Pairwise fun a b => a.extent.Disjoint b.extent) :
    ((mergee l).Pairwise fun a b => a.extent.fin < b.startVa) ∧ freeSpace (mergee l) = freeSpace l ∧
      ∀ e ∈ mergee l, e.IsRange := by
  cases l with
  | nil => exact ⟨.nil, rfl, hr⟩
  | cons a l =>
    cases l with
    | nil => exact ⟨List.pairwise_singleton _ _, rfl, hr⟩
    | cons b l =>
      have hperm := foldl_insertSorted_perm (a :: b :: l) []
      have hsorted := foldl_insertSorted_sorted (l := a :: b :: l) (m := []) .nil
      rw [List.append_nil] at hperm
      obtain ⟨c, l', hfold⟩ : ∃ c l', (a :: b :: l).foldl (fun m d => insertSorted d m) [] = c :: l' := by
        rw [← List.ne_nil_iff_exists_cons]
        rintro hnil
        rw [hnil] at hperm
        exact absurd hperm.length_eq (by simp)
      rw [hfold] at hperm hsorted
      have hr' : ∀ e ∈ c :: l', e.IsRange := fun e he => hr e (hperm.mem_iff.1 he)
      have hd' := (hperm.pairwise_iff fun h => h.symm).2 hd
      obtain ⟨h1, h2, h3⟩ := coalesce_gaps hr' (ends_before hsorted hr' hd')
      rw [mergee_of_sorted hfold]
      exact ⟨h1, h2.trans (freeSpace_perm hperm), fun e he => (h3 e he).2⟩

end Ranges

/-- On a free list of disjoint ranges in any order `MERGEE` ends, with a list in the order of the addresses of the same
pages in which no range ends where another one starts. -/
theorem free_list_merged {m : FreeCells} {freeHead : Nat} {nodes : List Nat} (freed : FreeCells)
    (hlist : IsList m freeHead nodes) (hranges : ∀ d ∈ vals m nodes, d.IsRange)
    (hdisjoint : (vals m nodes).Pairwise fun a b => a.extent.Disjoint b.extent) {fuel : Nat}
    (hfuel : nodes.length < fuel) :
    ∃ m' freeHead' nodes', mergeeCells freed fuel m freeHead = some (m', freeHead') ∧ IsList m' freeHead' nodes' ∧
      ((vals m' nodes').Pairwise fun a b => a.startVa < b.startVa) ∧
        freeSpace (vals m' nodes') = freeSpace (vals m nodes) ∧
      (vals m' nodes').Pairwise fun a b => a.extent.fin ≠ b.startVa ∧ b.extent.fin ≠ a.startVa := by
  obtain ⟨m', head, cs, hr, hl, -, hv⟩ := mergeeCells_spec freed hlist hfuel
  obtain ⟨h1, h2, h3⟩ := mergee_gaps hranges hdisjoint
  refine ⟨m', head, cs, hr, hl, ?_, ?_, ?_⟩
  · rw [hv]
    exact h1.imp fun {a b} h => lt_of_le_of_lt (Nat.le_add_right _ _) h
  · rw [hv, h2]
  · rw [hv]
    refine h1.imp fun {a b} h => ⟨h.ne, ?_⟩
    rw [fin_extent] at h ⊢
    omega

/-- Six pages in three ranges, the highest first. -/
def threeRanges : FreeCells := fun a =>
  if a = 8 then ⟨⟨32768, 2⟩, 24⟩ else if a = 24 then ⟨⟨20480, 3⟩, 16⟩ else ⟨⟨16384, 1⟩, 0⟩

theorem free_list_merged_three : ∃ m' freeHead' nodes',
    mergeeCells (fun _ => ⟨⟨0, 0⟩, 0⟩) 4 threeRanges 8 = some (m', freeHead') ∧ IsList m' freeHead' nodes' ∧
      ((vals m' nodes').Pairwise fun a b => a.startVa < b.startVa) ∧
      freeSpace (vals m' nodes') = freeSpace (vals threeRanges [8, 24, 16]) ∧
      (vals m' nodes').Pairwise fun a b => a.extent.fin ≠ b.startVa ∧ b.extent.fin ≠ a.startVa := by
  have hvals : vals threeRanges [8, 24, 16] = [⟨32768, 2⟩, ⟨20480, 3⟩, ⟨16384, 1⟩] := rfl
  have hchain : Chain threeRanges 8 [8, 24, 16] 0 := ⟨rfl, by decide, rfl, by decide, rfl, by decide, rfl⟩
  refine free_list_merged _ ⟨hchain, by decide⟩ ?_ ?_ (by decide)
  · rw [hvals]
    rintro d hd
    fin_cases hd <;> exact ⟨by decide, by decide⟩
  · have hapart : (vals threeRanges [8, 24, 16]).Pairwise fun a b => a.extent.Apart b.extent := by
      rw [hvals]
      decide
    exact hapart.imp Extent.Apart.disjoint

end Fos.Heap
