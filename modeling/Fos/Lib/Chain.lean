/-
Singly linked lists in a memory of cells: the nodes that are passed on the way from one address to another, and what a
write to a cell does to them.
-/
import Mathlib.Data.List.Nodup
import Mathlib.Tactic

namespace Fos.Lib

/-- A node of a list whose link is an address; 0 is no address. -/
structure Cell (β : Type) where
  val : β
  next : Nat

section Chain

variable {β : Type} {m m' : Nat → Cell β} {p q r a : Nat} {as bs : List Nat}

/-- The links lead from `p` over the nodes `as` to `q`. -/
def Chain (m : Nat → Cell β) : Nat → List Nat → Nat → Prop
  | p, [], q => p = q
  | p, a :: as, q => p = a ∧ a ≠ 0 ∧ Chain m (m a).next as q

/-- A list that ends at 0. -/
structure IsList (m : Nat → Cell β) (p : Nat) (as : List Nat) : Prop where
  chain : Chain m p as 0
  nodup : as.Nodup

def vals (m : Nat → Cell β) (as : List Nat) : List β := as.map fun a => (m a).val

theorem chain_append : Chain m p (as ++ bs) q ↔ ∃ r, Chain m p as r ∧ Chain m r bs q := by
  induction as generalizing p with
  | nil => exact ⟨fun h => ⟨p, rfl, h⟩, fun ⟨r, hp, h⟩ => by rw [show p = r from hp]; exact h⟩
  | cons a as ih =>
    constructor
    · rintro ⟨hp, ha, h⟩
      obtain ⟨r, h1, h2⟩ := ih.1 h
      exact ⟨r, ⟨hp, ha, h1⟩, h2⟩
    · rintro ⟨r, ⟨hp, ha, h1⟩, h2⟩
      exact ⟨hp, ha, ih.2 ⟨r, h1, h2⟩⟩

/-- Only the links of the nodes passed count. -/
theorem Chain.congr (hm : ∀ a ∈ as, (m' a).next = (m a).next) (h : Chain m p as q) : Chain m' p as q := by
  induction as generalizing p with
  | nil => exact h
  | cons a as ih =>
    obtain ⟨hp, ha, h⟩ := h
    refine ⟨hp, ha, ?_⟩
    rw [hm a List.mem_cons_self]
    exact ih (fun b hb => hm b (List.mem_cons_of_mem a hb)) h

theorem Chain.ne_zero (h : Chain m p as q) : ∀ a ∈ as, a ≠ 0 := by
  induction as generalizing p with
  | nil => nofun
  | cons a as ih =>
    obtain ⟨-, ha, h⟩ := h
    exact List.forall_mem_cons.2 ⟨ha, ih h⟩

theorem Chain.eq_nil (h : Chain m 0 as q) : as = [] := by
  cases as with
  | nil => rfl
  | cons a as => exact absurd h.1.symm h.2.1

theorem Chain.eq_cons (hp : p ≠ 0) (h : Chain m p as 0) : ∃ bs, as = p :: bs ∧ Chain m (m p).next bs 0 := by
  cases as with
  | nil => exact absurd h hp
  | cons a as =>
    obtain ⟨rfl, -, h⟩ := h
    exact ⟨as, rfl, h⟩

theorem vals_congr (hm : ∀ a ∈ as, (m' a).val = (m a).val) : vals m' as = vals m as := List.map_congr_left hm

/-! ## Links written -/

def setNext (m : Nat → Cell β) (a next : Nat) : Nat → Cell β := Function.update m a { m a with next := next }

theorem setNext_of_ne (h : q ≠ a) : setNext m a p q = m q := Function.update_of_ne h _ _

theorem setNext_next : (setNext m a p a).next = p := by rw [setNext, Function.update_self]

theorem setNext_val (b : Nat) : (setNext m a p b).val = (m b).val := by
  by_cases hb : b = a
  · rw [hb, setNext, Function.update_self]
  · rw [setNext_of_ne hb]

theorem vals_setNext : vals (setNext m a p) as = vals m as := vals_congr fun b _ => setNext_val b

/-- A node is put before a list. -/
theorem IsList.push (h : IsList m p as) (ha : a ≠ 0) (hout : a ∉ as) : IsList (setNext m a p) a (a :: as) := by
  refine ⟨⟨rfl, ha, ?_⟩, List.nodup_cons.2 ⟨hout, h.nodup⟩⟩
  rw [setNext_next]
  apply h.chain.congr
  intro b hb
  have hne : b ≠ a := fun hc => hout (hc ▸ hb)
  rw [setNext_of_ne hne]

/-- A node is put behind `t`: its own link first, then the one to it. -/
theorem IsList.insert {t : Nat} {pre post : List Nat} (h : IsList m p (pre ++ t :: post)) (ha : a ≠ 0)
    (hout : a ∉ pre ++ t :: post) : IsList (setNext (setNext m a (m t).next) t a) p (pre ++ t :: a :: post) := by
  have hnd := h.nodup
  rw [List.nodup_append] at hnd
  obtain ⟨-, hnd, hdis⟩ := hnd
  obtain ⟨r, h1, rfl, ht, h2⟩ := chain_append.1 h.chain
  have hra : r ≠ a := fun hc => hout (by simp [hc])
  have hsame : ∀ b, b ≠ a → b ≠ r → setNext (setNext m a (m r).next) r a b = m b := by
    rintro b hba hbr
    rw [setNext_of_ne hbr, setNext_of_ne hba]
  constructor
  · refine chain_append.2 ⟨r, h1.congr fun b hb => ?_, rfl, ht, ?_⟩
    · rw [hsame b (fun hc => hout (by simp [← hc, hb])) fun hc => hdis b hb r List.mem_cons_self hc]
    · rw [setNext_next]
      refine ⟨rfl, ha, ?_⟩
      rw [setNext_of_ne (Ne.symm hra), setNext_next]
      apply h2.congr
      intro b hb
      rw [hsame b (fun hc => hout (by simp [← hc, hb])) fun hc => (List.nodup_cons.1 hnd).1 (hc ▸ hb)]
  · have hperm : (pre ++ [r] ++ a :: post).Perm (a :: (pre ++ [r] ++ post)) := List.perm_middle
    rw [List.append_assoc, List.append_assoc] at hperm
    exact hperm.nodup_iff.2 (List.nodup_cons.2 ⟨hout, h.nodup⟩)

/-! ## A trailing pointer -/

/-- `next` is put behind the node `before`, or first in the list where there is none. -/
def relink (m : Nat → Cell β) (head before next : Nat) : (Nat → Cell β) × Nat :=
  if before ≠ 0 then (setNext m before next, head) else (m, next)

theorem chain_head (h : Chain m p as 0) : p = as.headD 0 := by
  cases as with
  | nil => exact h
  | cons a as => exact h.1

theorem relink_val (b : Nat) : ((relink m p q r).1 b).val = (m b).val := by
  unfold relink
  split
  · exact setNext_val b
  · rfl

/-- Only the last node passed is written. -/
theorem relink_of_notMem (h : a ∉ as) : (relink m p (as.getLastD 0) q).1 a = m a := by
  rcases List.eq_nil_or_concat' as with rfl | ⟨as, t, rfl⟩
  · exact congrFun (congrArg Prod.fst (if_neg (by simp))) a
  · have hat : a ≠ t := fun hc => h (by simp [hc])
    rw [List.getLastD_concat]
    unfold relink
    split
    · exact setNext_of_ne hat
    · rfl

/-- Behind the nodes passed so far goes the rest of some other list. -/
theorem IsList.rejoin {post : List Nat} (h : IsList m p (as ++ bs)) (hpost : Chain m q post 0)
    (hnd : (as ++ post).Nodup) :
    IsList (relink m p (as.getLastD 0) q).1 (relink m p (as.getLastD 0) q).2 (as ++ post) := by
  rcases List.eq_nil_or_concat' as with rfl | ⟨as, t, rfl⟩
  · have hrun : relink m p ([].getLastD 0) q = (m, q) := if_neg (by simp)
    rw [hrun]
    exact ⟨hpost, hnd⟩
  · obtain ⟨r, hall, -⟩ := chain_append.1 h.chain
    obtain ⟨s, hpre, hs, ht, -⟩ := chain_append.1 hall
    have hrun : relink m p ((as ++ [t]).getLastD 0) q = (setNext m t q, p) := by
      rw [List.getLastD_concat]
      exact if_pos ht
    have hnd' := List.nodup_append.1 hnd
    have htas : t ∉ as := fun hc => (List.nodup_append.1 hnd'.1).2.2 t hc t List.mem_cons_self rfl
    have htpost : t ∉ post := fun hc => hnd'.2.2 t (by simp) t hc rfl
    rw [hrun]
    refine ⟨chain_append.2 ⟨q, chain_append.2 ⟨s, hpre.congr fun b hb => ?_, hs, ht, ?_⟩, hpost.congr fun b hb => ?_⟩,
      hnd⟩
    · have hbt : b ≠ t := fun hc => htas (hc ▸ hb)
      exact congrArg Cell.next (setNext_of_ne hbt)
    · exact setNext_next
    · have hbt : b ≠ t := fun hc => htpost (hc ▸ hb)
      exact congrArg Cell.next (setNext_of_ne hbt)

/-- The node behind a trailing pointer is taken out. -/
theorem IsList.unlink {pre post : List Nat} (h : IsList m p (pre ++ a :: post)) :
    IsList (relink m p (pre.getLastD 0) (m a).next).1 (relink m p (pre.getLastD 0) (m a).next).2 (pre ++ post) := by
  obtain ⟨r, -, -, -, hpost⟩ := chain_append.1 h.chain
  exact h.rejoin hpost (h.nodup.sublist ((List.sublist_cons_self a post).append_left pre))

/-- A node that already leads on to the rest is put behind a trailing pointer. -/
theorem IsList.link {pre post : List Nat} (h : IsList m p (pre ++ post)) (ha : a ≠ 0) (hout : a ∉ pre ++ post)
    (hnext : (m a).next = post.headD 0) :
    IsList (relink m p (pre.getLastD 0) a).1 (relink m p (pre.getLastD 0) a).2 (pre ++ a :: post) := by
  obtain ⟨r, -, hpost⟩ := chain_append.1 h.chain
  have hnd : (pre ++ a :: post).Nodup := List.perm_middle.nodup_iff.2 (List.nodup_cons.2 ⟨hout, h.nodup⟩)
  refine h.rejoin ⟨rfl, ha, ?_⟩ hnd
  rw [hnext, ← chain_head hpost]
  exact hpost

theorem IsList.congr (h : IsList m p as) (hm : ∀ a ∈ as, (m' a).next = (m a).next) : IsList m' p as :=
  ⟨h.chain.congr hm, h.nodup⟩

/-- A node that is not on the list may be written over. -/
theorem IsList.update {c : Cell β} (h : IsList m p as) (hout : a ∉ as) : IsList (Function.update m a c) p as := by
  apply h.congr
  intro b hb
  have hba : b ≠ a := fun hc => hout (hc ▸ hb)
  rw [Function.update_of_ne hba]

theorem vals_update {c : Cell β} (hout : a ∉ as) : vals (Function.update m a c) as = vals m as := by
  apply vals_congr
  intro b hb
  have hba : b ≠ a := fun hc => hout (hc ▸ hb)
  rw [Function.update_of_ne hba]

end Chain

end Fos.Lib
