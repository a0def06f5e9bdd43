/-
Bit histories kept in a shift register: the register halves itself and takes the new bit at its top. It
holds the last `n` bits, latest at the top, and registers compare as these bits do in lexicographic order.
The first of the smallest registers of a list is found by one scan.
-/
import Mathlib.Tactic

namespace Fos.Lib

/-! ## Bits and numbers -/

/-- The number of a list of bits, most significant bit first. -/
def bitsValue : List Bool → Nat
  | [] => 0
  | b :: l => b.toNat * 2 ^ l.length + bitsValue l

/-- The last `n` bits of a history that lists the latest bit first; what was before it is `false`. -/
def recent (n : Nat) (history : List Bool) : List Bool := (history ++ List.replicate n false).take n

section Bits

variable {n : Nat} {a b l : List Bool}

@[simp] theorem recent_length (n : Nat) (l : List Bool) : (recent n l).length = n := by
  simp [recent]

theorem bitsValue_lt : ∀ l : List Bool, bitsValue l < 2 ^ l.length
  | [] => Nat.one_pos
  | b :: l => by
    have hl := bitsValue_lt l
    have hb : b.toNat * 2 ^ l.length ≤ 1 * 2 ^ l.length := Nat.mul_le_mul_right _ (Bool.toNat_le b)
    rw [bitsValue, List.length_cons, pow_succ]
    omega

theorem bitsValue_append : ∀ (l : List Bool) (c : Bool), bitsValue (l ++ [c]) = 2 * bitsValue l + c.toNat
  | [], c => by simp [bitsValue]
  | b :: l, c => by
    rw [List.cons_append, bitsValue, bitsValue, bitsValue_append l c, List.length_append, List.length_singleton,
      pow_succ]
    ring

/-- Numbers of as many bits compare as the lists do. -/
theorem bitsValue_lt_iff : ∀ {a b : List Bool}, a.length = b.length → (bitsValue a < bitsValue b ↔ a < b)
  | [], [], _ => by simp
  | x :: a, y :: b, h => by
    have hlen : a.length = b.length := Nat.succ.inj h
    have ih := bitsValue_lt_iff hlen
    have ha := bitsValue_lt a
    have hb := bitsValue_lt b
    rw [List.cons_lt_cons_iff, bitsValue, bitsValue, ← ih, hlen]
    rw [hlen] at ha
    have hno : ¬ true < false := by decide
    cases x <;> cases y <;> simp [hno] <;> omega

/-! ## The register -/

/-- The register of `n` bits after a history. -/
def register (n : Nat) (history : List Bool) : Nat := bitsValue (recent n history)

theorem register_lt (n : Nat) (l : List Bool) : register n l < 2 ^ n := by
  have := bitsValue_lt (recent n l)
  rwa [recent_length] at this

theorem register_nil (n : Nat) : register n [] = 0 := by
  have hzero : ∀ n : Nat, bitsValue (List.replicate n false) = 0 := by
    intro n
    induction n with
    | zero => rfl
    | succ n ih => rw [List.replicate_succ, bitsValue, ih]; simp
  rw [register, recent, List.nil_append, List.take_of_length_le (by simp), hzero]

/-- One bit more of the past. -/
theorem recent_succ (n : Nat) (l : List Bool) : ∃ c, recent (n + 1) l = recent n l ++ [c] := by
  have hlen : n < (l ++ List.replicate (n + 1) false).length := by
    rw [List.length_append, List.length_replicate]
    omega
  have htake : (l ++ List.replicate (n + 1) false).take n = recent n l := by
    unfold recent
    rw [List.replicate_succ', ← List.append_assoc, List.take_append_of_le_length]
    rw [List.length_append, List.length_replicate]
    omega
  refine ⟨(l ++ List.replicate (n + 1) false)[n], ?_⟩
  rw [← htake, recent, List.take_succ_eq_append_getElem hlen]

theorem recent_cons (n : Nat) (b : Bool) (l : List Bool) : recent (n + 1) (b :: l) = b :: recent n l := by
  unfold recent
  rw [List.cons_append, List.take_succ_cons, List.replicate_succ', ← List.append_assoc, List.take_append_of_le_length]
  rw [List.length_append, List.length_replicate]
  omega

/-- Shifting a bit in at the top. -/
theorem register_cons (n : Nat) (b : Bool) (l : List Bool) :
    register (n + 1) (b :: l) = b.toNat * 2 ^ n + register (n + 1) l / 2 := by
  obtain ⟨c, hc⟩ := recent_succ n l
  have hhalf : bitsValue (recent (n + 1) l) / 2 = bitsValue (recent n l) := by
    have := Bool.toNat_le c
    rw [hc, bitsValue_append]
    omega
  rw [register, recent_cons, bitsValue, recent_length, register, hhalf]

theorem register_lt_iff : register n a < register n b ↔ recent n a < recent n b :=
  bitsValue_lt_iff (by rw [recent_length, recent_length])

theorem register_le_iff : register n a ≤ register n b ↔ ¬ recent n b < recent n a := by
  rw [← register_lt_iff, not_lt]

end Bits

/-! ## The first of the smallest -/

/-- `x` is the first element of `l` with the least key. -/
def FirstLeast {α : Type*} (key : α → Nat) (l : List α) (x : α) : Prop :=
  ∃ p q, l = p ++ x :: q ∧ (∀ y ∈ p, key x < key y) ∧ ∀ y ∈ q, key x ≤ key y

section FirstLeast

variable {α : Type*} {key : α → Nat} {l : List α} {x y : α}

theorem FirstLeast.le (h : FirstLeast key l x) : ∀ y ∈ l, key x ≤ key y := by
  obtain ⟨p, q, rfl, hp, hq⟩ := h
  intro y hy
  rcases List.mem_append.1 hy with hy | hy
  · exact (hp y hy).le
  rcases List.mem_cons.1 hy with rfl | hy
  · exact le_rfl
  · exact hq y hy

theorem FirstLeast.mem (h : FirstLeast key l x) : x ∈ l := by
  obtain ⟨p, q, rfl, -, -⟩ := h
  simp

/-- An element with a smaller key than all before it. -/
theorem firstLeast_last (h : ∀ y ∈ l, key x < key y) : FirstLeast key (l ++ [x]) x :=
  ⟨l, [], rfl, h, by simp⟩

/-- The first of elements of one key. -/
theorem firstLeast_head {l : List α} (h : ∀ y ∈ l, key x ≤ key y) : FirstLeast key (x :: l) x :=
  ⟨[], l, rfl, by simp, h⟩

/-- There is only one. -/
theorem firstLeast_unique {p q p' q' : List α} {x' : α} (h : p ++ x :: q = p' ++ x' :: q') (hp : ∀ y ∈ p, key x < key y)
    (hq : ∀ y ∈ q, key x ≤ key y) (hp' : ∀ y ∈ p', key x' < key y) (hq' : ∀ y ∈ q', key x' ≤ key y) :
    p = p' ∧ x = x' ∧ q = q' := by
  have hx : x' ∈ p ++ x :: q := by
    rw [h]
    simp
  have hx' : x ∈ p' ++ x' :: q' := by
    rw [← h]
    simp
  have hle : key x ≤ key x' := FirstLeast.le ⟨p, q, rfl, hp, hq⟩ x' hx
  have hle' : key x' ≤ key x := FirstLeast.le ⟨p', q', rfl, hp', hq'⟩ x hx'
  rcases List.append_eq_append_iff.1 h with ⟨r, rfl, hr⟩ | ⟨r, rfl, hr⟩
  · -- `p'` is not longer than `p`: else `x` were in it
    cases r with
    | nil =>
      rw [List.nil_append, List.cons.injEq] at hr
      exact ⟨(List.append_nil p).symm, hr.1, hr.2⟩
    | cons z r =>
      obtain ⟨rfl, -⟩ := List.cons.inj hr
      exact absurd (hp' x (by simp)) (not_lt.2 hle)
  · cases r with
    | nil =>
      rw [List.nil_append, List.cons.injEq] at hr
      exact ⟨List.append_nil p', hr.1.symm, hr.2.symm⟩
    | cons z r =>
      obtain ⟨rfl, -⟩ := List.cons.inj hr
      exact absurd (hp x' (by simp)) (not_lt.2 hle')

theorem FirstLeast.keep (h : FirstLeast key l x) (hy : key x ≤ key y) : FirstLeast key (l ++ [y]) x := by
  obtain ⟨p, q, rfl, hp, hq⟩ := h
  refine ⟨p, q ++ [y], by simp, hp, fun z hz => ?_⟩
  rcases List.mem_append.1 hz with hz | hz
  · exact hq z hz
  · rw [List.mem_singleton.1 hz]
    exact hy

theorem exists_firstLeast (hl : l ≠ []) : ∃ x, FirstLeast key l x := by
  induction l using List.reverseRecOn with
  | nil => exact absurd rfl hl
  | append_singleton l y ih =>
    by_cases hnil : l = []
    · subst hnil
      exact ⟨y, firstLeast_last (by simp)⟩
    · obtain ⟨x, hx⟩ := ih hnil
      by_cases hle : key x ≤ key y
      · exact ⟨x, FirstLeast.keep hx hle⟩
      · exact ⟨y, firstLeast_last fun z hz => (not_le.1 hle).trans_le (FirstLeast.le hx z hz)⟩

end FirstLeast

end Fos.Lib
