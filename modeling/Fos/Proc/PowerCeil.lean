/-
`nearest_pow2_ceil` and `log2_ceil` of `kern/tests/utilities.c` on the whole range of the first. Both loops halve the
same number as often; the second starts its count at 2, where a power of two would start its exponent at 1, so
`1 << log2_ceil(x)` is never the power: it is twice as large, or no longer fits a word.
-/
import Fos.Proc.EnvIds

namespace Fos.Proc

/-- `1 << count` on the machine, which takes the count modulo 32. -/
def oneShl (count : Nat) : Nat := 2 ^ (count % 32)

/-- `n` is the least power of two that is at least `x`. -/
def LeastPower (x n : Nat) : Prop := ∃ k, n = 2 ^ k ∧ x ≤ n ∧ ∀ j, x ≤ 2 ^ j → n ≤ 2 ^ j

section Loops

variable {x fuel : Nat}

theorem log_of_half_ne_zero (h : x / 2 ≠ 0) : Nat.log 2 x = Nat.log 2 (x / 2) + 1 := by
  have hx : 2 ≤ x := by omega
  exact Nat.log_of_one_lt_of_le (by decide) hx

theorem log_of_half_eq_zero (h : x / 2 = 0) : Nat.log 2 x = 0 := by
  have hx : x < 2 := by omega
  exact Nat.log_of_lt hx

theorem doublePower_eq : ∀ {fuel x power : Nat}, x < 2 ^ fuel → power < 2 ^ 32 →
    doublePower fuel x power = power * 2 ^ Nat.log 2 x % 2 ^ 32
  | 0, x, power, h, hp => by
    have hx : x = 0 := by omega
    rw [doublePower, hx, Nat.log_zero_right, pow_zero, mul_one, Nat.mod_eq_of_lt hp]
  | fuel + 1, x, power, h, hp => by
    rw [doublePower]
    split
    · next hz => rw [log_of_half_eq_zero hz, pow_zero, mul_one, Nat.mod_eq_of_lt hp]
    · next hnz =>
      have hlt : x / 2 < 2 ^ fuel := by
        rw [pow_succ] at h
        omega
      have hmove : 2 * power * 2 ^ Nat.log 2 (x / 2) = power * 2 ^ (Nat.log 2 (x / 2) + 1) := by ring
      rw [doublePower_eq hlt (Nat.mod_lt _ (by decide)), Nat.mod_mul_mod, hmove, log_of_half_ne_zero hnz]

theorem countBits_eq : ∀ {fuel x bits : Nat}, x < 2 ^ fuel → countBits fuel x bits = bits + Nat.log 2 x
  | 0, x, bits, h => by
    have hx : x = 0 := by omega
    rw [countBits, hx, Nat.log_zero_right, add_zero]
  | fuel + 1, x, bits, h => by
    rw [countBits]
    split
    · next hz => rw [log_of_half_eq_zero hz, add_zero]
    · next hnz =>
      have hlt : x / 2 < 2 ^ fuel := by
        rw [pow_succ] at h
        omega
      rw [countBits_eq hlt, log_of_half_ne_zero hnz]
      omega

end Loops

section Ceil

variable {x : Nat}

/-- The exponent of the power that is looked for. -/
def ceilExponent (x : Nat) : Nat := if x ≤ 1 then 0 else Nat.log 2 (x - 1) + 1

theorem nearestPow2Ceil_eq (hx : x ≤ 2 ^ 31) : nearestPow2Ceil x = 2 ^ ceilExponent x := by
  unfold nearestPow2Ceil ceilExponent
  split
  · rfl
  · have hlog : Nat.log 2 (x - 1) < 31 := Nat.log_lt_of_lt_pow (by omega) (by omega)
    have hfits : 2 * 2 ^ Nat.log 2 (x - 1) < 2 ^ 32 := by
      rw [← pow_succ']
      exact Nat.pow_lt_pow_right (by decide) (by omega)
    rw [doublePower_eq (by omega) (by decide), Nat.mod_eq_of_lt hfits, pow_succ']

theorem log2Ceil_eq (hx : x ≤ 2 ^ 31) : log2Ceil x = ceilExponent x + 1 := by
  unfold log2Ceil ceilExponent
  split
  · rfl
  · rw [countBits_eq (by omega)]
    omega

theorem le_pow_iff (hx : 1 ≤ x) (j : Nat) : x ≤ 2 ^ j ↔ ceilExponent x ≤ j := by
  unfold ceilExponent
  split
  · next h1 =>
    have hpos := Nat.two_pow_pos j
    exact ⟨fun _ => Nat.zero_le j, fun _ => by omega⟩
  · next h2 =>
    have hlog : Nat.log 2 (x - 1) < j ↔ x - 1 < 2 ^ j := Nat.log_lt_iff_lt_pow (by decide) (by omega)
    rw [Nat.add_one_le_iff, hlog]
    omega

theorem ceilExponent_le (hx : 1 ≤ x) (hle : x ≤ 2 ^ 31) : ceilExponent x ≤ 31 := (le_pow_iff hx 31).1 hle

theorem nearestPow2Ceil_least (hx : 1 ≤ x) (hle : x ≤ 2 ^ 31) : LeastPower x (nearestPow2Ceil x) := by
  rw [nearestPow2Ceil_eq hle]
  refine ⟨ceilExponent x, rfl, (le_pow_iff hx _).2 le_rfl, fun j hj => ?_⟩
  exact Nat.pow_le_pow_right (by decide) ((le_pow_iff hx j).1 hj)

/-- The power is the least one, and the shift by `log2_ceil` never gives it: `1` shifted so far is twice the power,
which a word does not hold when the power is the largest one. -/
theorem nearest_pow_shift (hx : 1 ≤ x) (hle : x ≤ 2 ^ 31) :
    LeastPower x (nearestPow2Ceil x) ∧ 2 ^ log2Ceil x = 2 * nearestPow2Ceil x ∧
      oneShl (log2Ceil x) ≠ nearestPow2Ceil x := by
  have hexp := ceilExponent_le hx hle
  refine ⟨nearestPow2Ceil_least hx hle, ?_, ?_⟩
  · rw [nearestPow2Ceil_eq hle, log2Ceil_eq hle, pow_succ, mul_comm]
  · rw [nearestPow2Ceil_eq hle, log2Ceil_eq hle]
    unfold oneShl
    intro heq
    have hsame := Nat.pow_right_injective (le_refl 2) heq
    omega

end Ceil

/-- For `5` the power is `8` and the shift gives `16`. -/
theorem nearest_pow_shift_five :
    LeastPower 5 (nearestPow2Ceil 5) ∧ 2 ^ log2Ceil 5 = 2 * nearestPow2Ceil 5 ∧
      oneShl (log2Ceil 5) ≠ nearestPow2Ceil 5 :=
  nearest_pow_shift (by decide) (by decide)

theorem log_ceil_off : nearestPow2Ceil 1024 = 1024 ∧ ¬ oneShl (log2Ceil 1024) = nearestPow2Ceil 1024 := by decide

end Fos.Proc
