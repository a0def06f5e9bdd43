/-
Reference counts. A ledger has slots that may hold an item, a count for each item and a list of free
items. It is balanced on a finite set of slots when each count is the number of slots that hold the
item, and the free items are those that no slot and nobody else holds. Taking an item, giving it back,
putting it in a slot and dropping it from a slot keep the balance; overwriting a slot does not. What all
of them keep is the half that makes freeing safe: no count is too small and nothing free is in a slot.
-/
import Mathlib.Tactic
import Mathlib.Data.Finset.Card

namespace Fos.Lib

structure Ledger (ι α : Type*) where
  entries : ι → Option α
  references : α → Nat
  free : List α

section Holders

variable {ι α : Type*} [DecidableEq α] {S : Finset ι} {h h' : ι → Option α} {a : ι}

/-- The number of slots of `S` that hold `x`. -/
def holders (S : Finset ι) (h : ι → Option α) (x : α) : Nat := (S.filter fun a => h a = some x).card

theorem holders_congr (hh : ∀ a ∈ S, h a = h' a) (x : α) : holders S h x = holders S h' x := by
  refine congrArg Finset.card (Finset.filter_congr fun a ha => ?_)
  rw [hh a ha]

/-- Changing one slot: one less of what it held, one more of what it holds now. -/
theorem holders_update [DecidableEq ι] (ha : a ∈ S) (o : Option α) (x : α) :
    holders S (Function.update h a o) x + (if h a = some x then 1 else 0) =
      holders S h x + (if o = some x then 1 else 0) := by
  have hsplit : ∀ g : ι → Option α, holders S g x = holders (S.erase a) g x + (if g a = some x then 1 else 0) := by
    intro g
    have hna : a ∉ (S.erase a).filter fun b => g b = some x := by simp
    unfold holders
    conv_lhs => rw [← Finset.insert_erase ha, Finset.filter_insert]
    split
    · rw [Finset.card_insert_of_notMem hna]
    · rfl
  have hrest : holders (S.erase a) (Function.update h a o) x = holders (S.erase a) h x :=
    holders_congr (fun b hb => Function.update_of_ne (Finset.ne_of_mem_erase hb) ..) x
  rw [hsplit (Function.update h a o), hsplit h, hrest, Function.update_self]
  omega

theorem holders_pos (ha : a ∈ S) {x : α} (hx : h a = some x) : 0 < holders S h x :=
  Finset.card_pos.2 ⟨a, Finset.mem_filter.2 ⟨ha, hx⟩⟩

end Holders

/-- No count is smaller than the number of slots of `S` that hold the item, and nothing free is in a slot;
`held` are the items that somebody holds outside the slots. -/
structure Guarded {ι α : Type*} [DecidableEq α] (S : Finset ι) (pool : Finset α) (held : List α)
    (l : Ledger ι α) : Prop where
  references : ∀ x ∈ pool, holders S l.entries x ≤ l.references x
  free : ∀ x ∈ l.free, holders S l.entries x = 0 ∧ x ∉ held
  inside : ∀ a ∈ S, ∀ x, l.entries a = some x → x ∈ pool
  freeNodup : l.free.Nodup
  freeIn : ∀ x ∈ l.free, x ∈ pool
  heldNodup : held.Nodup
  heldIn : ∀ x ∈ held, x ∈ pool
  idle : ∀ x ∈ held, holders S l.entries x = 0

section Guarded

variable {ι α : Type*} [DecidableEq α] {S : Finset ι} {pool : Finset α} {held : List α}
  {l l' : Ledger ι α} {a : ι} {x : α}

/-- Only the slots of `S`, the counts of the pool and the free list matter. -/
theorem Guarded.congr (h : Guarded S pool held l) (he : ∀ a ∈ S, l'.entries a = l.entries a)
    (hr : ∀ x ∈ pool, l'.references x = l.references x) (hf : l'.free = l.free) : Guarded S pool held l' := by
  have hh : ∀ x, holders S l'.entries x = holders S l.entries x := holders_congr he
  refine ⟨fun x hx => ?_, fun x hx => ?_, fun a ha x hx => ?_, ?_, ?_, h.heldNodup, h.heldIn, fun x hx => ?_⟩
  · rw [hr x hx, hh]
    exact h.references x hx
  · rw [hf] at hx
    rw [hh]
    exact h.free x hx
  · rw [he a ha] at hx
    exact h.inside a ha x hx
  · rw [hf]; exact h.freeNodup
  · rw [hf]; exact h.freeIn
  · rw [hh, h.idle x hx]

/-- What a slot holds is referenced, not free and held by nobody else. -/
theorem Guarded.of_slot (h : Guarded S pool held l) (ha : a ∈ S) (hx : l.entries a = some x) :
    0 < l.references x ∧ x ∉ l.free ∧ x ∉ held := by
  have hpos : 0 < holders S l.entries x := holders_pos ha hx
  refine ⟨hpos.trans_le (h.references x (h.inside a ha x hx)), fun hf => ?_, fun hh => ?_⟩
  · exact hpos.ne' (h.free x hf).1
  · exact hpos.ne' (h.idle x hh)

/-- Taking the first free item. -/
theorem Guarded.take {rest : List α} (h : Guarded S pool held l) (hf : l.free = x :: rest) :
    Guarded S pool (x :: held) ⟨l.entries, Function.update l.references x 0, rest⟩ := by
  have hmem : x ∈ l.free := by rw [hf]; exact List.mem_cons_self
  have hrest : ∀ y ∈ rest, y ∈ l.free := fun y hy => by rw [hf]; exact List.mem_cons_of_mem _ hy
  obtain ⟨hzero, hnot⟩ := h.free x hmem
  have hnd := h.freeNodup
  rw [hf, List.nodup_cons] at hnd
  refine ⟨fun y hy => ?_, fun y hy => ?_, h.inside, hnd.2, fun y hy => h.freeIn y (hrest y hy),
    List.nodup_cons.2 ⟨hnot, h.heldNodup⟩, ?_, ?_⟩
  · simp only [Function.update_apply]
    split
    · rename_i he
      rw [he, hzero]
    · exact h.references y hy
  · obtain ⟨h1, h2⟩ := h.free y (hrest y hy)
    refine ⟨h1, fun hc => ?_⟩
    rcases List.mem_cons.1 hc with rfl | hc
    · exact hnd.1 hy
    · exact h2 hc
  · intro y hy
    rcases List.mem_cons.1 hy with rfl | hy
    · exact h.freeIn y hmem
    · exact h.heldIn y hy
  · intro y hy
    rcases List.mem_cons.1 hy with rfl | hy
    · exact hzero
    · exact h.idle y hy

/-- Giving an item back. -/
theorem Guarded.give (h : Guarded S pool held l) (hx : x ∈ held) :
    Guarded S pool (held.erase x) ⟨l.entries, Function.update l.references x 0, x :: l.free⟩ := by
  have hzero := h.idle x hx
  refine ⟨fun y hy => ?_, fun y hy => ?_, h.inside, List.nodup_cons.2 ⟨fun hf => (h.free x hf).2 hx, h.freeNodup⟩, ?_,
    h.heldNodup.erase x, fun y hy => h.heldIn y (List.mem_of_mem_erase hy),
      fun y hy => h.idle y (List.mem_of_mem_erase hy)⟩
  · simp only [Function.update_apply]
    split
    · rename_i he
      rw [he, hzero]
    · exact h.references y hy
  · rw [h.heldNodup.mem_erase_iff, not_and]
    rcases List.mem_cons.1 hy with rfl | hf
    · exact ⟨hzero, fun hne => absurd rfl hne⟩
    · exact ⟨(h.free y hf).1, fun _ => (h.free y hf).2⟩
  · intro y hy
    rcases List.mem_cons.1 hy with rfl | hy
    · exact h.heldIn y hx
    · exact h.freeIn y hy

variable [DecidableEq ι]

/-- Dropping what a slot holds: one holder less. -/
theorem holders_drop (ha : a ∈ S) (hx : l.entries a = some x) (y : α) :
    holders S (Function.update l.entries a none) y + (if y = x then 1 else 0) = holders S l.entries y := by
  have := holders_update (h := l.entries) ha none y
  simpa [hx, eq_comm] using this

/-- Dropping what a slot holds; an item whose count is `0` then is free. -/
theorem Guarded.drop (h : Guarded S pool held l) (ha : a ∈ S) (hx : l.entries a = some x) :
    Guarded S pool held ⟨Function.update l.entries a none, Function.update l.references x (l.references x - 1),
      if l.references x - 1 = 0 then x :: l.free else l.free⟩ := by
  have hpool := h.inside a ha x hx
  have href := h.references x hpool
  obtain ⟨-, hnf, hnh⟩ := h.of_slot ha hx
  have hcount := holders_drop ha hx
  have hle : ∀ y, holders S (Function.update l.entries a none) y ≤ holders S l.entries y := fun y =>
    (Nat.le_add_right _ _).trans (hcount y).le
  have hself := hcount x
  rw [if_pos rfl] at hself
  refine ⟨fun y hy => ?_, fun y hy => ?_, fun b hb y hy => ?_, ?_, ?_, h.heldNodup, h.heldIn, fun y hy => ?_⟩
  · simp only [Function.update_apply]
    split
    · rename_i he
      rw [he]
      omega
    · exact (hle y).trans (h.references y hy)
  · have hold : y ∈ l.free → holders S (Function.update l.entries a none) y = 0 ∧ y ∉ held := fun hf =>
      ⟨Nat.le_zero.1 ((hle y).trans (h.free y hf).1.le), (h.free y hf).2⟩
    simp only at hy
    split at hy
    · rename_i hlast
      rcases List.mem_cons.1 hy with rfl | hf
      · have hzero : holders S (Function.update l.entries a none) y = 0 := by omega
        exact ⟨hzero, hnh⟩
      · exact hold hf
    · exact hold hy
  · simp only [Function.update_apply] at hy
    split at hy
    · cases hy
    · exact h.inside b hb y hy
  · simp only
    split
    · exact List.nodup_cons.2 ⟨hnf, h.freeNodup⟩
    · exact h.freeNodup
  · intro y hy
    simp only at hy
    split at hy
    · rcases List.mem_cons.1 hy with rfl | hy
      · exact hpool
      · exact h.freeIn y hy
    · exact h.freeIn y hy
  · exact Nat.le_zero.1 ((hle y).trans (h.idle y hy).le)

/-- Putting an item that is not free in a slot, over whatever the slot holds. -/
theorem Guarded.put (h : Guarded S pool held l) (ha : a ∈ S) (hx : x ∈ pool) (hnf : x ∉ l.free) :
    Guarded S pool (held.erase x) ⟨Function.update l.entries a (some x),
      Function.update l.references x (l.references x + 1), l.free⟩ := by
  have hcount := holders_update (h := l.entries) ha (some x)
  have hother : ∀ y, y ≠ x → holders S (Function.update l.entries a (some x)) y ≤ holders S l.entries y :=
      fun y hy => by
    have := hcount y
    rw [if_neg fun hc => hy (Option.some.inj hc).symm] at this
    omega
  refine ⟨fun y hy => ?_, fun y hy => ?_, fun b hb y hy => ?_, h.freeNodup, h.freeIn, h.heldNodup.erase x, ?_, ?_⟩
  · simp only [Function.update_apply]
    split
    · rename_i he
      subst he
      have h1 := hcount y
      have h2 := h.references y hy
      rw [if_pos rfl] at h1
      omega
    · rename_i hne
      exact (hother y hne).trans (h.references y hy)
  · have hyx : y ≠ x := fun he => hnf (he ▸ hy)
    exact ⟨Nat.le_zero.1 ((hother y hyx).trans (h.free y hy).1.le),
      fun hc => (h.free y hy).2 (List.mem_of_mem_erase hc)⟩
  · simp only [Function.update_apply] at hy
    split at hy
    · obtain rfl := Option.some.inj hy
      exact hx
    · exact h.inside b hb y hy
  · exact fun y hy => h.heldIn y (List.mem_of_mem_erase hy)
  · intro y hy
    obtain ⟨hyx, hy⟩ := (h.heldNodup.mem_erase_iff).1 hy
    exact Nat.le_zero.1 ((hother y hyx).trans (h.idle y hy).le)

end Guarded

/-- The counts and the free list agree with the slots of `S`; `held` are the items that somebody holds
outside the slots. -/
structure Balanced {ι α : Type*} [DecidableEq α] (S : Finset ι) (pool : Finset α) (held : List α)
    (l : Ledger ι α) : Prop where
  references : ∀ x ∈ pool, l.references x = holders S l.entries x
  free : ∀ x ∈ pool, x ∈ l.free ↔ holders S l.entries x = 0 ∧ x ∉ held
  inside : ∀ a ∈ S, ∀ x, l.entries a = some x → x ∈ pool
  freeNodup : l.free.Nodup
  freeIn : ∀ x ∈ l.free, x ∈ pool
  heldNodup : held.Nodup
  heldIn : ∀ x ∈ held, x ∈ pool
  idle : ∀ x ∈ held, holders S l.entries x = 0

section Balanced

variable {ι α : Type*} [DecidableEq α] {S : Finset ι} {pool : Finset α} {held : List α}
  {l l' : Ledger ι α} {a : ι} {x : α}

theorem Balanced.guarded (h : Balanced S pool held l) : Guarded S pool held l :=
  ⟨fun x hx => (h.references x hx).ge, fun x hx => (h.free x (h.freeIn x hx)).1 hx, h.inside, h.freeNodup, h.freeIn,
    h.heldNodup, h.heldIn, h.idle⟩

/-- Counts that are not too large either, and a free list that misses nothing. -/
theorem Guarded.balanced (h : Guarded S pool held l) (hr : ∀ x ∈ pool, l.references x = holders S l.entries x)
    (hf : ∀ x ∈ pool, holders S l.entries x = 0 → x ∉ held → x ∈ l.free) : Balanced S pool held l :=
  ⟨hr, fun x hx => ⟨h.free x, fun hc => hf x hx hc.1 hc.2⟩, h.inside, h.freeNodup, h.freeIn, h.heldNodup, h.heldIn,
    h.idle⟩

/-- Only the slots of `S`, the counts of the pool and the free list matter. -/
theorem Balanced.congr (h : Balanced S pool held l) (he : ∀ a ∈ S, l'.entries a = l.entries a)
    (hr : ∀ x ∈ pool, l'.references x = l.references x) (hf : l'.free = l.free) : Balanced S pool held l' := by
  have hh : ∀ x, holders S l'.entries x = holders S l.entries x := holders_congr he
  refine (h.guarded.congr he hr hf).balanced (fun x hx => ?_) fun x hx => ?_
  · rw [hr x hx, hh, h.references x hx]
  · rw [hf, hh]
    exact fun hzero hnh => (h.free x hx).2 ⟨hzero, hnh⟩

/-- Taking the first free item. -/
theorem Balanced.take {rest : List α} (h : Balanced S pool held l) (hf : l.free = x :: rest) :
    Balanced S pool (x :: held) ⟨l.entries, Function.update l.references x 0, rest⟩ := by
  refine (h.guarded.take hf).balanced (fun y hy => ?_) fun y hy hzero hnh => ?_
  · simp only [Function.update_apply]
    split
    · rename_i he
      rw [he, ((h.free x (h.freeIn x (by rw [hf]; exact List.mem_cons_self))).1
        (by rw [hf]; exact List.mem_cons_self)).1]
    · exact h.references y hy
  · rw [List.mem_cons, not_or] at hnh
    have hfree : y ∈ l.free := (h.free y hy).2 ⟨hzero, hnh.2⟩
    rw [hf] at hfree
    exact (List.mem_cons.1 hfree).resolve_left hnh.1

/-- Giving an item back. -/
theorem Balanced.give (h : Balanced S pool held l) (hx : x ∈ held) :
    Balanced S pool (held.erase x) ⟨l.entries, Function.update l.references x 0, x :: l.free⟩ := by
  refine (h.guarded.give hx).balanced (fun y hy => ?_) fun y hy hzero hnh => ?_
  · simp only [Function.update_apply]
    split
    · rename_i he
      rw [he, h.idle x hx]
    · exact h.references y hy
  · rw [h.heldNodup.mem_erase_iff, not_and] at hnh
    by_cases hyx : y = x
    · exact List.mem_cons.2 (.inl hyx)
    · exact List.mem_cons.2 (.inr ((h.free y hy).2 ⟨hzero, hnh hyx⟩))

variable [DecidableEq ι]

/-- Dropping what a slot holds; an item that no slot holds any more is free. -/
theorem Balanced.drop (h : Balanced S pool held l) (ha : a ∈ S) (hx : l.entries a = some x) :
    Balanced S pool held ⟨Function.update l.entries a none, Function.update l.references x (l.references x - 1),
      if l.references x - 1 = 0 then x :: l.free else l.free⟩ := by
  have href := h.references x (h.inside a ha x hx)
  have hcount := holders_drop ha hx
  refine (h.guarded.drop ha hx).balanced (fun y hy => ?_) fun y hy hzero hnh => ?_
  · have := hcount y
    simp only [Function.update_apply]
    split
    · rename_i he
      subst he
      rw [if_pos rfl] at this
      omega
    · rename_i hne
      rw [if_neg hne] at this
      rw [h.references y hy]
      exact this.symm
  · have := hcount y
    simp only at hzero ⊢
    by_cases hyx : y = x
    · subst hyx
      rw [if_pos rfl] at this
      rw [if_pos (by omega)]
      exact List.mem_cons_self
    · rw [if_neg hyx] at this
      have hfree : y ∈ l.free := (h.free y hy).2 ⟨by omega, hnh⟩
      split
      · exact List.mem_cons_of_mem _ hfree
      · exact hfree

/-- Putting an item that is not free in an empty slot. -/
theorem Balanced.put (h : Balanced S pool held l) (ha : a ∈ S) (hnone : l.entries a = none) (hx : x ∈ pool)
    (hnf : x ∉ l.free) :
    Balanced S pool (held.erase x) ⟨Function.update l.entries a (some x),
      Function.update l.references x (l.references x + 1), l.free⟩ := by
  have hcount : ∀ y, holders S (Function.update l.entries a (some x)) y = holders S l.entries y +
      if y = x then 1 else 0 := by
    intro y
    have := holders_update (h := l.entries) ha (some x) y
    simpa [hnone, eq_comm] using this
  refine (h.guarded.put ha hx hnf).balanced (fun y hy => ?_) fun y hy hzero hnh => ?_
  · rw [hcount y]
    simp only [Function.update_apply]
    split
    · rename_i he
      rw [he, h.references x hx]
    · exact h.references y hy
  · rw [hcount y] at hzero
    by_cases hyx : y = x
    · rw [if_pos hyx] at hzero
      omega
    · rw [h.heldNodup.mem_erase_iff, not_and] at hnh
      rw [if_neg hyx] at hzero
      exact (h.free y hy).2 ⟨hzero, hnh hyx⟩

end Balanced

end Fos.Lib
