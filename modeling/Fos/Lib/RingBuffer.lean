/-
A buffer of `n` places with a position to read and a position to write and no count: what waits in it is what the two
positions enclose, at most `n - 1` elements, and one more empties it.
-/
import Mathlib.Tactic

namespace Fos.Lib

structure RingBuffer (α : Type) where
  buf : Nat → α
  rpos : Nat
  wpos : Nat

namespace RingBuffer

variable {α : Type} {n : Nat} {b : RingBuffer α} {c : α}

/-- How many elements wait in a buffer of `n` places. -/
def used (n : Nat) (b : RingBuffer α) : Nat := (b.wpos + n - b.rpos) % n

/-- What waits in a buffer of `n` places, the oldest first. -/
def contents (n : Nat) (b : RingBuffer α) : List α := (List.range (used n b)).map fun i => b.buf ((b.rpos + i) % n)

def write (b : RingBuffer α) (c : α) : RingBuffer α :=
  { b with buf := Function.update b.buf b.wpos c, wpos := b.wpos + 1 }

def wrapWrite (n : Nat) (b : RingBuffer α) : RingBuffer α := if b.wpos = n then { b with wpos := 0 } else b

def advance (b : RingBuffer α) : RingBuffer α := { b with rpos := b.rpos + 1 }

def wrapRead (n : Nat) (b : RingBuffer α) : RingBuffer α := if b.rpos = n then { b with rpos := 0 } else b

/-- The reading position may be the end of the buffer while it is moved. -/
structure InRange (n : Nat) (b : RingBuffer α) : Prop where
  read : b.rpos ≤ n
  write : b.wpos < n

theorem length_contents : (contents n b).length = used n b := by
  rw [contents, List.length_map, List.length_range]

theorem InRange.wrapRead (h : b.InRange n) : (b.wrapRead n).InRange n ∧ (b.wrapRead n).rpos < n := by
  have hr := h.read
  have hw := h.write
  unfold RingBuffer.wrapRead
  split
  · exact ⟨⟨Nat.zero_le n, hw⟩, show 0 < n by omega⟩
  · exact ⟨h, by omega⟩

theorem contents_wrapRead (h : b.InRange n) : contents n (b.wrapRead n) = contents n b := by
  have hw := h.write
  unfold RingBuffer.wrapRead
  split
  · next hr =>
    unfold contents used
    simp [hr]
  · rfl

theorem used_eq_zero_iff (h : b.InRange n) (hr : b.rpos < n) : used n b = 0 ↔ b.rpos = b.wpos := by
  have hw := h.write
  unfold used
  by_cases hle : b.rpos ≤ b.wpos
  · rw [Nat.sub_add_comm hle, Nat.add_mod_right, Nat.mod_eq_of_lt (by omega)]
    omega
  · rw [Nat.mod_eq_of_lt (by omega)]
    omega

theorem contents_eq_nil_iff (h : b.InRange n) (hr : b.rpos < n) : contents n b = [] ↔ b.rpos = b.wpos := by
  rw [← used_eq_zero_iff h hr, ← length_contents, List.length_eq_zero_iff]

/-- The oldest element is taken. -/
theorem contents_advance (h : b.InRange n) (hr : b.rpos < n) (hne : b.rpos ≠ b.wpos) :
    contents n b = b.buf b.rpos :: contents n b.advance := by
  have hw := h.write
  have hused : used n b = used n b.advance + 1 := by
    show (b.wpos + n - b.rpos) % n = (b.wpos + n - (b.rpos + 1)) % n + 1
    by_cases hle : b.rpos ≤ b.wpos
    · rw [Nat.sub_add_comm hle, Nat.add_mod_right, Nat.mod_eq_of_lt (by omega), Nat.sub_add_comm (by omega),
        Nat.add_mod_right, Nat.mod_eq_of_lt (by omega)]
      omega
    · rw [Nat.mod_eq_of_lt (by omega), Nat.mod_eq_of_lt (by omega)]
      omega
  unfold contents
  rw [hused, List.range_succ_eq_map, List.map_cons, List.map_map, Nat.add_zero, Nat.mod_eq_of_lt hr]
  congr 1
  apply List.map_congr_left
  rintro i hi
  show b.buf ((b.rpos + (i + 1)) % n) = b.buf ((b.rpos + 1 + i) % n)
  rw [Nat.add_assoc, Nat.add_comm 1 i]

theorem used_write (h : b.InRange n) : used n ((b.write c).wrapWrite n) = (used n b + 1) % n := by
  have hr := h.read
  unfold used RingBuffer.wrapWrite RingBuffer.write
  rw [Nat.mod_add_mod]
  by_cases hwrap : b.wpos + 1 = n
  · simp only [hwrap, if_true, Nat.zero_add]
    rw [show b.wpos + n - b.rpos + 1 = n - b.rpos + n by omega, Nat.add_mod_right]
  · simp only [hwrap, if_false]
    rw [show b.wpos + 1 + n - b.rpos = b.wpos + n - b.rpos + 1 by omega]

theorem write_buf : ((b.write c).wrapWrite n).buf = Function.update b.buf b.wpos c ∧
    ((b.write c).wrapWrite n).rpos = b.rpos := by
  unfold RingBuffer.wrapWrite
  split
  · exact ⟨rfl, rfl⟩
  · exact ⟨rfl, rfl⟩

theorem InRange.write_wrapWrite (h : b.InRange n) : ((b.write c).wrapWrite n).InRange n := by
  have hw := h.write
  refine ⟨by rw [write_buf.2]; exact h.read, ?_⟩
  unfold RingBuffer.wrapWrite
  split
  · show 0 < n
    omega
  · next hne =>
    have : b.wpos + 1 ≠ n := hne
    show b.wpos + 1 < n
    omega

/-- An element is written behind the others. -/
theorem contents_write (h : b.InRange n) (hroom : used n b + 1 < n) :
    contents n ((b.write c).wrapWrite n) = contents n b ++ [c] := by
  have hw := h.write
  have hr := h.read
  -- the place written is the one after those that wait
  have hplace : (b.rpos + used n b) % n = b.wpos := by
    unfold used
    rw [Nat.add_mod_mod, Nat.add_sub_cancel' (by omega), Nat.add_mod_right, Nat.mod_eq_of_lt hw]
  have hsame : ∀ i < used n b, (b.rpos + i) % n ≠ b.wpos := by
    rintro i hi hc
    rw [← hplace] at hc
    have hd := (Nat.modEq_iff_dvd' (by omega)).1 (show (b.rpos + i) ≡ (b.rpos + used n b) [MOD n] from hc)
    have := Nat.le_of_dvd (by omega) hd
    omega
  unfold contents
  rw [used_write h, Nat.mod_eq_of_lt hroom, List.range_succ, List.map_append, List.map_singleton, write_buf.1,
    write_buf.2, hplace, Function.update_self]
  congr 1
  apply List.map_congr_left
  rintro i hi
  rw [Function.update_of_ne (hsame i (List.mem_range.1 hi))]

/-- One element more than there is room for makes the buffer look empty. -/
theorem contents_write_full (h : b.InRange n) (hfull : used n b + 1 = n) :
    contents n ((b.write c).wrapWrite n) = [] := by
  rw [← List.length_eq_zero_iff, length_contents, used_write h, hfull, Nat.mod_self]

theorem used_lt (h : b.InRange n) : used n b < n := Nat.mod_lt _ (by have := h.write; omega)

end RingBuffer

end Fos.Lib
