/-
`ltostr` and `strtol` of `lib/string.c`: the text of a number, written backwards and reversed in place, and the number
that a text stands for. They are inverse but for the number that has no negative.
-/
import Mathlib.Data.List.GetD
import Mathlib.Data.Nat.Digits.Defs
import Mathlib.Tactic

namespace Fos.Strings

/-! ## The code -/

abbrev Buffer := Nat → UInt8

/-- A `long` has 32 bits. -/
def wrapLong (x : Int) : Int := Int.bmod x 4294967296

/-- `mod + '0'` in a `char`. -/
def remainderChar (mod : Int) : UInt8 := UInt8.ofInt (mod + 48)

theorem tdiv_smaller {value : Int} (h : value.tdiv 10 ≠ 0) : (value.tdiv 10).natAbs < value.natAbs := by
  rw [Int.natAbs_tdiv]
  have hv : value.natAbs ≠ 0 := fun h0 => h (by rw [Int.natAbs_eq_zero.1 h0]; rfl)
  exact Nat.div_lt_self (Nat.pos_of_ne_zero hv) (by decide)

/-- The loop of `ltostr` over the remainders, the last digit first. -/
def writeDigits (value : Int) (str : Buffer) (s : Nat) : Buffer × Nat :=
  let str := Function.update str s (remainderChar (value.tmod 10))
  if value.tdiv 10 ≠ 0 then writeDigits (value.tdiv 10) str (s + 1) else (str, s + 1)
termination_by value.natAbs
decreasing_by exact tdiv_smaller ‹_›

/-- The loop of `ltostr` that reverses the digits. -/
def reverseDigits (str : Buffer) (start last : Nat) : Buffer :=
  if start < last then
    reverseDigits (Function.update (Function.update str start (str last)) last (str start)) (start + 1) (last - 1)
  else str
termination_by last - start

/-- `ltostr`, with the place of the terminating zero. -/
def ltostr (value : Int) (str : Buffer) : Buffer × Nat :=
  if value < 0 then
    let (str, s) := writeDigits (wrapLong (value * -1)) (Function.update str 0 '-'.toUInt8) 1
    (Function.update (reverseDigits str 1 (s - 1)) s 0, s)
  else
    let (str, s) := writeDigits value str 0
    (Function.update (reverseDigits str 0 (s - 1)) s 0, s)

/-- The string at the start of a buffer, of which it has at most `n` bytes. -/
def cString (str : Buffer) (n : Nat) : List UInt8 := ((List.range n).map str).takeWhile (· ≠ 0)

def isBlank (c : UInt8) : Bool := c = ' '.toUInt8 ∨ c = '\t'.toUInt8

/-- Whether there is a minus sign, and what follows the sign. -/
def strtolSign : List UInt8 → Bool × List UInt8
  | [] => (false, [])
  | c :: s => if c = '+'.toUInt8 then (false, s) else if c = '-'.toUInt8 then (true, s) else (false, c :: s)

def strtolBase (base : Int) (s : List UInt8) : Int × List UInt8 :=
  if (base = 0 ∨ base = 16) ∧ s.take 2 = ['0'.toUInt8, 'x'.toUInt8] then (16, s.drop 2)
  else if base = 0 ∧ s.take 1 = ['0'.toUInt8] then (8, s.drop 1)
  else if base = 0 then (10, s)
  else (base, s)

def strtolDigit (c : UInt8) : Option Int :=
  if '0'.toUInt8 ≤ c ∧ c ≤ '9'.toUInt8 then some (c.toNat - 48)
  else if 'a'.toUInt8 ≤ c ∧ c ≤ 'z'.toUInt8 then some (c.toNat - 97 + 10)
  else if 'A'.toUInt8 ≤ c ∧ c ≤ 'Z'.toUInt8 then some (c.toNat - 65 + 10)
  else none

def strtolDigits (base val : Int) : List UInt8 → Int × List UInt8
  | [] => (val, [])
  | c :: s =>
    match strtolDigit c with
    | none => (val, c :: s)
    | some dig => if dig ≥ base then (val, c :: s) else strtolDigits base (wrapLong (val * base + dig)) s

/-- `strtol`, with the rest of the string that `endptr` gets. -/
def strtol (s : List UInt8) (base : Int) : Int × List UInt8 :=
  let (neg, s) := strtolSign (s.dropWhile isBlank)
  let (base, s) := strtolBase base s
  let (val, s) := strtolDigits base 0 s
  (if neg then wrapLong (-val) else val, s)

/-! ## The text -/

/-- The bytes `bs` from `s` on. -/
def overlay (str : Buffer) (s : Nat) (bs : List UInt8) : Buffer :=
  fun a => if s ≤ a ∧ a < s + bs.length then bs.getD (a - s) 0 else str a

/-- The remainders of a number, the last one first. -/
def remainders (value : Int) : List Int :=
  value.tmod 10 :: if value.tdiv 10 ≠ 0 then remainders (value.tdiv 10) else []
termination_by value.natAbs
decreasing_by exact tdiv_smaller ‹_›

section Text

variable {str : Buffer} {s : Nat} {b : UInt8} {bs : List UInt8} {value : Int}

theorem overlay_cons : overlay (Function.update str s b) (s + 1) bs = overlay str s (b :: bs) := by
  funext a
  unfold overlay
  rw [List.length_cons]
  by_cases hlate : s + 1 ≤ a ∧ a < s + 1 + bs.length
  · rw [if_pos hlate, if_pos (by omega), show a - s = a - (s + 1) + 1 by omega, List.getD_cons_succ]
  · rw [if_neg hlate]
    by_cases has : a = s
    · subst has
      rw [Function.update_self, if_pos (by omega), Nat.sub_self]
      rfl
    · rw [Function.update_of_ne has, if_neg (by omega)]

theorem overlay_nil : overlay str s [] = str := by
  funext a
  exact if_neg (by simp only [List.length_nil]; omega)

theorem remainders_more (h : value.tdiv 10 ≠ 0) : remainders value = value.tmod 10 :: remainders (value.tdiv 10) := by
  rw [remainders, if_pos h]

theorem remainders_last (h : ¬ value.tdiv 10 ≠ 0) : remainders value = [value.tmod 10] := by
  rw [remainders, if_neg h]

theorem writeDigits_eq (value : Int) (str : Buffer) (s : Nat) : writeDigits value str s =
    (overlay str s ((remainders value).map remainderChar), s + (remainders value).length) := by
  fun_induction writeDigits value str s with
  | case1 value str s str' h ih =>
    rw [ih, remainders_more h, List.map_cons, List.length_cons, ← overlay_cons, Nat.add_assoc, Nat.add_comm 1]
  | case2 value str s str' h =>
    rw [remainders_last h, List.map_cons, List.map_nil, ← overlay_cons, overlay_nil]
    rfl

theorem reverseDigits_apply (str : Buffer) (start last : Nat) (a : Nat) : reverseDigits str start last a =
    if start ≤ a ∧ a ≤ last then str (start + last - a) else str a := by
  fun_induction reverseDigits str start last with
  | case1 str start last h ih =>
    rw [ih]
    simp only [Function.update_apply]
    by_cases hin : start + 1 ≤ a ∧ a ≤ last - 1
    · rw [if_pos hin, if_neg (by omega), if_neg (by omega), if_pos (by omega)]
      congr 1
      omega
    · rw [if_neg hin]
      by_cases hl : a = last
      · rw [if_pos hl, if_pos (by omega)]
        congr 1
        omega
      · rw [if_neg hl]
        by_cases hs : a = start
        · rw [if_pos hs, if_pos (by omega)]
          congr 1
          omega
        · rw [if_neg hs, if_neg (by omega)]
  | case2 str start last h =>
    split
    · congr 1
      omega
    · rfl

theorem reverseDigits_overlay (str : Buffer) (s : Nat) (hbs : bs ≠ []) :
    reverseDigits (overlay str s bs) s (s + bs.length - 1) = overlay str s bs.reverse := by
  have hpos := List.length_pos_iff.2 hbs
  funext a
  rw [reverseDigits_apply]
  unfold overlay
  rw [List.length_reverse]
  by_cases ha : s ≤ a ∧ a < s + bs.length
  · rw [if_pos (by omega), if_pos (by omega), if_pos ha, List.getD_eq_getElem _ _ (by omega),
      List.getD_eq_getElem _ _ (by rw [List.length_reverse]; omega), List.getElem_reverse]
    congr 1
    omega
  · rw [if_neg (by omega), if_neg ha, if_neg ha]

/-- The string that ends before the zero. -/
theorem cString_overlay (h0 : (0 : UInt8) ∉ bs) :
    cString (Function.update (overlay str 0 bs) bs.length 0) (bs.length + 1) = bs := by
  have hmap : (List.range bs.length).map (Function.update (overlay str 0 bs) bs.length 0) = bs := by
    apply List.ext_getElem (by simp)
    rintro i hi hi'
    rw [List.getElem_map, List.getElem_range, Function.update_of_ne (by omega), overlay, if_pos (by omega),
      Nat.sub_zero, List.getD_eq_getElem _ _ hi']
  have hpass : ∀ b ∈ bs, decide (b ≠ 0) = true := by
    intro b hb
    rw [decide_eq_true_eq]
    rintro rfl
    exact h0 hb
  rw [cString, List.range_succ, List.map_append, hmap, List.takeWhile_append_of_pos hpass]
  simp

/-- The text of a number: its sign and the characters of its remainders, the first digit first. -/
def textOf (value : Int) : List UInt8 :=
  if value < 0 then '-'.toUInt8 :: ((remainders (wrapLong (value * -1))).map remainderChar).reverse
  else ((remainders value).map remainderChar).reverse

theorem remainders_ne_nil (value : Int) : (remainders value).map remainderChar ≠ [] := by
  rw [remainders]
  simp

theorem ltostr_eq (value : Int) (str : Buffer) : ltostr value str =
    (Function.update (overlay str 0 (textOf value)) (textOf value).length 0, (textOf value).length) := by
  unfold ltostr textOf
  by_cases hneg : value < 0
  · simp only [if_pos hneg, writeDigits_eq]
    have hr := reverseDigits_overlay (Function.update str 0 '-'.toUInt8) 1 (remainders_ne_nil (wrapLong (value * -1)))
    rw [List.length_map] at hr
    rw [hr, ← Nat.zero_add 1, overlay_cons]
    simp [Nat.add_comm]
  · simp only [if_neg hneg, writeDigits_eq]
    have hr := reverseDigits_overlay str 0 (remainders_ne_nil value)
    rw [List.length_map] at hr
    rw [hr]
    simp

end Text

/-! ## The number -/

section Number

variable {n d : Nat} {value : Int}

theorem strtolDigit_remainderChar (hd : d < 10) : strtolDigit (remainderChar d) = some (d : Int) := by
  revert d
  decide

/-- The remainders of a natural number are its digits. -/
theorem remainders_natCast (hn : 0 < n) : remainders n = (Nat.digits 10 n).map ((↑) : Nat → Int) := by
  induction n using Nat.strong_induction_on with
  | _ n ih =>
    have hmod : (n : Int).tmod 10 = ((n % 10 : Nat) : Int) := rfl
    have hdiv : (n : Int).tdiv 10 = ((n / 10 : Nat) : Int) := rfl
    rw [Nat.digits_def' (by decide) hn, List.map_cons]
    by_cases hq : n / 10 = 0
    · rw [remainders_last (by rw [hdiv, hq]; simp), hmod, hq]
      simp
    · rw [remainders_more (by rw [hdiv]; exact_mod_cast hq), hmod, hdiv, ih (n / 10) (by omega) (by omega)]

/-- The number that digits stand for after others, the first digit first. -/
def digitsFrom (acc : Nat) : List Nat → Nat := List.foldl (fun a d => a * 10 + d) acc

theorem le_digitsFrom : ∀ (ds : List Nat) (acc : Nat), acc ≤ digitsFrom acc ds
  | [], _ => le_rfl
  | d :: ds, acc => le_trans (by omega) (le_digitsFrom ds (acc * 10 + d))

theorem digitsFrom_digits (n : Nat) : digitsFrom 0 (Nat.digits 10 n).reverse = n := by
  have h := Nat.ofDigits_digits 10 n
  rw [Nat.ofDigits_eq_foldr] at h
  rw [digitsFrom, List.foldl_reverse]
  simpa [Nat.mul_comm, Nat.add_comm] using h

/-- Digits that stand for a `long`. -/
theorem strtolDigits_eq : ∀ (ds : List Nat) (acc : Nat), (∀ d ∈ ds, d < 10) → digitsFrom acc ds < 2147483648 →
    strtolDigits 10 acc (ds.map fun d : Nat => remainderChar d) = (((digitsFrom acc ds : Nat) : Int), [])
  | [], acc, _, _ => rfl
  | d :: ds, acc, hd, hlt => by
    have hlt' : digitsFrom (acc * 10 + d) ds < 2147483648 := hlt
    have hacc := le_digitsFrom ds (acc * 10 + d)
    have hwrap : wrapLong ((acc : Int) * 10 + d) = ((acc * 10 + d : Nat) : Int) := by
      unfold wrapLong
      rw [Int.bmod_eq_of_le_mul_two (by omega) (by omega)]
      omega
    have hd10 := hd d List.mem_cons_self
    rw [List.map_cons, strtolDigits, strtolDigit_remainderChar hd10]
    simp only [ge_iff_le, show ¬ (10 : Int) ≤ d by omega, if_false, hwrap]
    exact strtolDigits_eq ds (acc * 10 + d) (fun x hx => hd x (List.mem_cons_of_mem _ hx)) hlt'

/-- A character that is a digit of a text is no blank, no sign and not the end. -/
theorem remainderChar_plain (hd : d < 10) : isBlank (remainderChar d) = false ∧ remainderChar d ≠ '+'.toUInt8 ∧
    remainderChar d ≠ '-'.toUInt8 ∧ remainderChar d ≠ 0 := by
  revert d
  decide

/-- The digits of a number, the first one first. -/
def decimals (n : Nat) : List Nat := if n = 0 then [0] else (Nat.digits 10 n).reverse

theorem decimals_lt (n : Nat) : ∀ d ∈ decimals n, d < 10 := by
  intro d hd
  unfold decimals at hd
  split at hd
  · rw [List.mem_singleton.1 hd]
    decide
  · exact Nat.digits_lt_base (by decide) (List.mem_reverse.1 hd)

theorem digitsFrom_decimals (n : Nat) : digitsFrom 0 (decimals n) = n := by
  unfold decimals
  split
  · next h => exact h.symm
  · exact digitsFrom_digits n

theorem remainders_reverse (n : Nat) :
    ((remainders n).map remainderChar).reverse = (decimals n).map fun d : Nat => remainderChar d := by
  unfold decimals
  by_cases hn : n = 0
  · subst hn
    rw [remainders_last (by decide)]
    rfl
  · rw [if_neg hn, remainders_natCast (Nat.pos_of_ne_zero hn), List.map_map, List.map_reverse]
    rfl

theorem dropWhile_digits {ds : List Nat} (hd : ∀ d ∈ ds, d < 10) :
    (ds.map fun d : Nat => remainderChar d).dropWhile isBlank = ds.map fun d : Nat => remainderChar d := by
  cases ds with
  | nil => rfl
  | cons d ds =>
    obtain ⟨hb, -⟩ := remainderChar_plain (hd d List.mem_cons_self)
    rw [List.map_cons, List.dropWhile_cons_of_neg (by simp [hb])]

theorem strtolSign_digits {ds : List Nat} (hd : ∀ d ∈ ds, d < 10) :
    strtolSign (ds.map fun d : Nat => remainderChar d) = (false, ds.map fun d : Nat => remainderChar d) := by
  cases ds with
  | nil => rfl
  | cons d ds =>
    obtain ⟨-, hp, hm, -⟩ := remainderChar_plain (hd d List.mem_cons_self)
    rw [List.map_cons, strtolSign, if_neg hp, if_neg hm]

theorem strtolBase_ten (s : List UInt8) : strtolBase 10 s = (10, s) := by
  unfold strtolBase
  simp

theorem strtol_decimals (hn : n < 2147483648) :
    (strtol ((decimals n).map fun d : Nat => remainderChar d) 10).1 = n := by
  have hds := decimals_lt n
  have hval := strtolDigits_eq (decimals n) 0 hds (by rwa [digitsFrom_decimals])
  rw [digitsFrom_decimals] at hval
  unfold strtol
  simp only [dropWhile_digits hds, strtolSign_digits hds, strtolBase_ten]
  rw [show (0 : Int) = ((0 : Nat) : Int) from rfl, hval]
  rfl

theorem strtol_minus (hn : n < 2147483648) :
    (strtol ('-'.toUInt8 :: (decimals n).map fun d : Nat => remainderChar d) 10).1 = -n := by
  have hds := decimals_lt n
  have hval := strtolDigits_eq (decimals n) 0 hds (by rwa [digitsFrom_decimals])
  rw [digitsFrom_decimals] at hval
  have hsign : ∀ s : List UInt8, strtolSign (('-'.toUInt8 :: s).dropWhile isBlank) = (true, s) := by
    intro s
    rw [List.dropWhile_cons_of_neg (by decide), strtolSign, if_neg (by decide), if_pos rfl]
  unfold strtol
  simp only [hsign, strtolBase_ten]
  rw [show (0 : Int) = ((0 : Nat) : Int) from rfl, hval]
  simp only [if_true]
  unfold wrapLong
  rw [Int.bmod_eq_of_le_mul_two (by omega) (by omega)]

end Number

/-! ## The round trip -/

theorem textOf_natCast (n : Nat) : textOf n = (decimals n).map fun d : Nat => remainderChar d := by
  rw [textOf, if_neg (by omega), remainders_reverse]

theorem textOf_neg {n : Nat} (h0 : 0 < n) (hn : n < 2147483648) :
    textOf (-n) = '-'.toUInt8 :: (decimals n).map fun d : Nat => remainderChar d := by
  have hwrap : wrapLong (-(n : Int) * -1) = n := by
    unfold wrapLong
    rw [Int.bmod_eq_of_le_mul_two (by omega) (by omega)]
    omega
  rw [textOf, if_pos (by omega), hwrap, remainders_reverse]

theorem textOf_least : textOf (-2147483648) = [45, 46, 47, 44, 41, 44, 40, 45, 42, 44, 40] := by
  decide +kernel

theorem zero_notMem_decimals (n : Nat) : (0 : UInt8) ∉ (decimals n).map fun d : Nat => remainderChar d := by
  intro h
  obtain ⟨d, hd, h0⟩ := List.mem_map.1 h
  exact (remainderChar_plain (decimals_lt n d hd)).2.2.2 h0

theorem cString_ltostr {value : Int} {str : Buffer} (h0 : (0 : UInt8) ∉ textOf value) :
    cString (ltostr value str).1 ((ltostr value str).2 + 1) = textOf value := by
  rw [ltostr_eq]
  exact cString_overlay h0

/-- A `long` is parsed back from its text, unless it is the lowest one. -/
theorem long_round_trip_iff (v : BitVec 32) (str : Buffer) :
    (strtol (cString (ltostr v.toInt str).1 ((ltostr v.toInt str).2 + 1)) 10).1 = v.toInt ↔ v.toInt ≠ -2147483648 := by
  have hlt : v.toInt < 2147483648 := by
    have := BitVec.toInt_lt (x := v)
    omega
  have hle : -2147483648 ≤ v.toInt := by
    have := BitVec.le_toInt (x := v)
    omega
  generalize v.toInt = value at hlt hle
  by_cases hleast : value = -2147483648
  · subst hleast
    rw [cString_ltostr (by rw [textOf_least]; decide), textOf_least]
    decide
  refine iff_of_true ?_ hleast
  by_cases hneg : value < 0
  · obtain ⟨n, rfl⟩ : ∃ n : Nat, value = -n := ⟨value.natAbs, by omega⟩
    have htext := textOf_neg (n := n) (by omega) (by omega)
    rw [cString_ltostr ?_, htext, strtol_minus (by omega)]
    rw [htext, List.mem_cons, not_or]
    exact ⟨by decide, zero_notMem_decimals n⟩
  · obtain ⟨n, rfl⟩ := Int.eq_ofNat_of_zero_le (not_lt.1 hneg)
    rw [cString_ltostr ?_, textOf_natCast, strtol_decimals (by omega)]
    rw [textOf_natCast]
    exact zero_notMem_decimals n

/-- The text of -2147483648 is `-./,),(-*,(`, of which nothing but the sign is read. -/
theorem least_long_lost :
    (strtol (cString (ltostr (-2147483648) fun _ => 0).1 ((ltostr (-2147483648) fun _ => 0).2 + 1)) 10).1 ≠
      -2147483648 := by
  rw [cString_ltostr (by rw [textOf_least]; decide), textOf_least]
  decide

end Fos.Strings
