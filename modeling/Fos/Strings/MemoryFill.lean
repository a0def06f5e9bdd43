/-
`memset` and `memcpy` of `lib/string.c`, against the byte loops they replaced. `memcpy` is the forward copy wherever
that is a copy. The block that `memset` builds has in each byte the bits of all the lower bytes of its argument.
-/
import Fos.Lib.ByteMemory

namespace Fos.Strings

open Fos.Lib ByteMemory

/-! ## The code -/

/-- Memory as it is. -/
def flat : ByteMemory (Nat → UInt8) where
  load m a := m a
  store m a v := Function.update m a v

/-- `(uint8)c`. -/
def lowByte (c : BitVec 32) : UInt8 := UInt8.ofNat c.toNat

/-- The `data_block` of `memset`. The `int` is converted with its sign. -/
def dataBlock (c : BitVec 32) : BitVec 64 :=
  let d₀ := c.signExtend 64
  let d₁ := d₀ ||| d₀ <<< 8
  let d₂ := d₁ ||| d₁ <<< 16
  d₂ ||| d₂ <<< 32

def memset (m : Nat → UInt8) (v : Nat) (c : BitVec 32) (n : Nat) : Nat → UInt8 :=
  flat.fillBytes (flat.fillBlocks m v (toBytes (dataBlock c).toNat 8) (n / 8)) (v + n / 8 * 8) (lowByte c) (n % 8)

/-! ## The block -/

section Block

variable {c : BitVec 32} {d x : BitVec 64} {k p : Nat}

/-- The bits of `d` from `k` bytes are gathered: those of the place itself and of the `k - 1` bytes below. -/
def Gathers (d x : BitVec 64) (k : Nat) : Prop :=
  ∀ p < 64, x.getLsbD p = true ↔ ∃ i < k, 8 * i ≤ p ∧ d.getLsbD (p - 8 * i) = true

theorem gathers_self (d : BitVec 64) : Gathers d d 1 := by
  rintro p hp
  simp

/-- A shift by what is gathered doubles it. -/
theorem Gathers.double (h : Gathers d x k) : Gathers d (x ||| x <<< (8 * k)) (2 * k) := by
  rintro p hp
  rw [BitVec.getLsbD_or, BitVec.getLsbD_shiftLeft, Bool.or_eq_true, h p hp]
  constructor
  · rintro (⟨i, hi, hle, hd⟩ | hs)
    · exact ⟨i, by omega, hle, hd⟩
    · simp only [Bool.and_eq_true, Bool.not_eq_true', decide_eq_true_eq, decide_eq_false_iff_not, not_lt] at hs
      obtain ⟨⟨-, hle⟩, hx⟩ := hs
      obtain ⟨i, hi, hle', hd⟩ := (h _ (by omega)).1 hx
      exact ⟨k + i, by omega, by omega, by rwa [Nat.mul_add, Nat.sub_add_eq]⟩
  · rintro ⟨i, hi, hle, hd⟩
    by_cases hik : i < k
    · exact .inl ⟨i, hik, hle, hd⟩
    · right
      simp only [Bool.and_eq_true, Bool.not_eq_true', decide_eq_true_eq, decide_eq_false_iff_not, not_lt]
      refine ⟨⟨hp, by omega⟩, (h _ (by omega)).2 ⟨i - k, by omega, by omega, ?_⟩⟩
      rwa [← Nat.sub_add_eq, ← Nat.mul_add, Nat.add_sub_cancel' (by omega)]

theorem dataBlock_gathers (c : BitVec 32) : Gathers (c.signExtend 64) (dataBlock c) 8 :=
  (gathers_self _).double.double.double

theorem ofNat_eq_iff (n m : Nat) : UInt8.ofNat n = UInt8.ofNat m ↔ ∀ k < 8, n.testBit k = m.testBit k := by
  rw [← UInt8.toNat_inj, UInt8.toNat_ofNat', UInt8.toNat_ofNat']
  constructor
  · rintro h k hk
    have hbit : (n % 2 ^ 8).testBit k = (m % 2 ^ 8).testBit k := by rw [h]
    rw [Nat.testBit_mod_two_pow, Nat.testBit_mod_two_pow] at hbit
    simpa only [hk, decide_true, Bool.true_and] using hbit
  · rintro h
    apply Nat.eq_of_testBit_eq
    rintro k
    rw [Nat.testBit_mod_two_pow, Nat.testBit_mod_two_pow]
    by_cases hk : k < 8
    · rw [h k hk]
    · simp [hk]

/-- A byte of the block is the argument's lowest byte when all bytes up to its place add nothing to that one. -/
theorem byte_eq_lowByte_iff {j : Nat} (hj : j < 8) :
    (toBytes (dataBlock c).toNat 8).getD j 0 = lowByte c ↔
      ∀ i ≤ j, ∀ k < 8, (c.signExtend 64).getLsbD (8 * i + k) = true → c.getLsbD k = true := by
  have hlow : ∀ k < 8, (c.signExtend 64).getLsbD k = c.getLsbD k := by
    rintro k hk
    rw [BitVec.getLsbD_signExtend]
    simp [show k < 64 by omega, show k < 32 by omega]
  have hbit : ∀ k, ((dataBlock c).toNat / 256 ^ j).testBit k = (dataBlock c).getLsbD (8 * j + k) := by
    rintro k
    rw [show 256 ^ j = 2 ^ (8 * j) by rw [pow_mul]; rfl, Nat.testBit_div_two_pow, Nat.add_comm, BitVec.testBit_toNat]
  rw [getD_toBytes hj, lowByte, ofNat_eq_iff]
  constructor
  · rintro h i hi k hk hd
    have hblock : (dataBlock c).getLsbD (8 * j + k) = true :=
      (dataBlock_gathers c _ (by omega)).2
        ⟨j - i, by omega, by omega, by rwa [show 8 * j + k - 8 * (j - i) = 8 * i + k by omega]⟩
    rw [← hbit, h k hk] at hblock
    exact hblock
  · rintro h k hk
    rw [hbit, Bool.eq_iff_iff, dataBlock_gathers c _ (by omega)]
    constructor
    · rintro ⟨i, hi, hle, hd⟩
      apply h (j - i) (by omega) k hk
      rwa [show 8 * (j - i) + k = 8 * j + k - 8 * i by omega]
    · rintro hc
      refine ⟨j, hj, by omega, ?_⟩
      rw [Nat.add_sub_cancel_left, hlow k hk]
      exact hc

end Block

/-! ## The byte loops -/

theorem flat_lawful : flat.Lawful (fun _ => True) (fun _ => True) := by
  constructor
  rintro m a v - -
  refine ⟨trivial, fun c _ => ?_⟩
  simp [flat, Function.update_apply]

/-- The `n` bytes from `v` on are `(uint8)c`, and the others are as before. -/
def SetsBytes (m : Nat → UInt8) (v : Nat) (c : BitVec 32) (n : Nat) : Prop :=
  ∀ a, memset m v c n a = if v ≤ a ∧ a < v + n then lowByte c else m a

/-- No set bit of a byte of the argument, as it is widened to eight bytes, is missing in the lowest one. -/
def Covers (c : BitVec 32) : Prop := ∀ p < 64, (c.signExtend 64).getLsbD p = true → c.getLsbD (p % 8) = true

section Loops

variable {m : Nat → UInt8} {v : Nat} {c : BitVec 32} {n a : Nat}

theorem memset_apply : memset m v c n a =
    if v ≤ a ∧ a < v + n / 8 * 8 then (toBytes (dataBlock c).toNat 8).getD ((a - v) % 8) 0
    else if v ≤ a ∧ a < v + n then lowByte c else m a := by
  have hlen : (toBytes (dataBlock c).toNat 8).length = 8 := length_toBytes 8 _
  have hblocks := (fillBlocks_spec flat_lawful (toBytes (dataBlock c).toNat 8) (n / 8) (m := m) v trivial
    fun _ _ => trivial).2 a trivial
  have htail := (fillBytes_spec flat_lawful (b := lowByte c) (n % 8)
    (m := flat.fillBlocks m v (toBytes (dataBlock c).toNat 8) (n / 8)) (v + n / 8 * 8) trivial fun _ _ =>
      trivial).2 a trivial
  rw [hlen] at hblocks
  have hn : n / 8 * 8 + n % 8 = n := Nat.div_add_mod' n 8
  show flat.load (memset m v c n) a = _
  rw [memset, htail, hblocks]
  by_cases hblock : v ≤ a ∧ a < v + n / 8 * 8
  · rw [if_neg (by omega), if_pos hblock, if_pos hblock]
  · rw [if_neg hblock, if_neg hblock]
    by_cases hall : v ≤ a ∧ a < v + n
    · rw [if_pos (by omega), if_pos hall]
    · rw [if_neg (by omega), if_neg hall]
      rfl

theorem setsBytes_iff : SetsBytes m v c n ↔ n < 8 ∨ Covers c := by
  constructor
  · rintro h
    by_contra hc
    push Not at hc
    obtain ⟨hn, hcover⟩ := hc
    apply hcover
    intro p hp hd
    have hbyte := h (v + p / 8)
    rw [memset_apply, if_pos (by omega), if_pos (by omega), Nat.add_sub_cancel_left, Nat.mod_eq_of_lt (by omega),
      byte_eq_lowByte_iff (by omega)] at hbyte
    apply hbyte (p / 8) le_rfl (p % 8) (by omega)
    rwa [Nat.div_add_mod]
  · rintro h a
    rw [memset_apply]
    by_cases hblock : v ≤ a ∧ a < v + n / 8 * 8
    · rw [if_pos hblock, if_pos (by omega), byte_eq_lowByte_iff (by omega)]
      rintro i hi k hk hd
      have hcover := h.resolve_left (by omega) (8 * i + k) (by omega) hd
      rwa [show (8 * i + k) % 8 = k by omega] at hcover
    · rw [if_neg hblock]

theorem memcpy_eq_copyBytes {dst src k : Nat} (h : src + k ≤ dst ∨ dst ≤ src) :
    flat.memcpy m dst src k = flat.copyBytes m dst src k := by
  have hwords := (memcpy_spec flat_lawful (m := m) trivial (fun _ _ => trivial) (fun _ _ => trivial) h).2
  have hbytes := (copyBytes_spec flat_lawful k (m := m) dst src trivial (fun _ _ => trivial) (fun _ _ => trivial) h).2
  funext a
  exact (hwords a trivial).trans (hbytes a trivial).symm

end Loops

/-- `memset` sets exactly the bytes it is asked for when it has less than a block to set or the block is `(uint8)c` in
every byte; `memcpy` is always the forward copy of its bytes. -/
theorem memory_functions_iff (m : Nat → UInt8) (v : Nat) (c : BitVec 32) (n dst src k : Nat) :
    (SetsBytes m v c n ∧ (src + k ≤ dst ∨ dst + k ≤ src ∨ dst ≤ src → flat.memcpy m dst src k =
      flat.copyBytes m dst src k)) ↔
      n < 8 ∨ Covers c := by
  rw [and_iff_left fun h => memcpy_eq_copyBytes (by omega)]
  exact setsBytes_iff

/-- `memset(v, -2, 8)` leaves `0xFE` in the first byte only. -/
theorem memset_negative : ¬ SetsBytes (fun _ => 0) 0 (-2) 8 := by
  intro h
  have h1 := h 1
  revert h1
  decide +kernel

end Fos.Strings
