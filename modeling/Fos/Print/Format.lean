/-
`vprintfmt` of `lib/printfmt.c`, which the kernel and the user programs print with. What it calls for each character
is a parameter, and so is the global `printProgName` that two of its directives set. A format is the bytes before its
`NUL`, a `va_list` the words that it reads one after another, and a pointer to a string the string there, which does not
change while it is printed. An `int` is a word of 32 bits, and what overflows wraps around.
-/
import Fos.Shared.SharedMemory

namespace Fos.Print

open Fos.Shared

/-! ## Where the characters go -/

/-- `putch` with its `putdat`, and the assignments to `printProgName`. -/
structure Sink (σ : Type) where
  putch : Int → σ → σ
  setProgName : Bool → σ → σ

abbrev VaList := Nat → BitVec 32

def VaList.rest (ap : VaList) (n : Nat) : VaList := fun i => ap (n + i)

/-- The strings in memory. -/
abbrev Strings := BitVec 32 → CString

/-- A `char`, which is signed. -/
def signedChar (b : UInt8) : Int := b.toBitVec.toInt

/-- An `int`. -/
abbrev CInt := BitVec 32

/-! ## Numbers -/

/-- The base of a number to print. -/
abbrev Base := { b : Nat // 2 ≤ b ∧ b ≤ 16 }

def base10 : Base := ⟨10, by decide⟩

def base16 : Base := ⟨16, by decide⟩

/-- `"0123456789abcdef"[d]`. -/
def digitChar (d : Nat) : Int := if d < 10 then 48 + d else 87 + d

section Code

variable {σ : Type} (k : Sink σ)

/-- `printnum`. -/
def printnum (num : Nat) (base : Base) (width : CInt) (padc : Int) (s : σ) : σ :=
  let s := if h : base.val ≤ num then printnum (num / base.val) base (width - 1) padc s
    else (k.putch padc)^[(width - 1).toInt.toNat] s
  k.putch (digitChar (num % base.val)) s
termination_by num
decreasing_by exact Nat.div_lt_self (by have := base.2; omega) base.2.1

/-- `getuint`, with what is left of the `va_list`. -/
def getuint (ap : VaList) (lflag : CInt) : Nat × VaList :=
  if 2 ≤ lflag.toInt then ((ap 1 ++ ap 0).toNat, ap.rest 2) else ((ap 0).toNat, ap.rest 1)

/-- `getint`. -/
def getint (ap : VaList) (lflag : CInt) : Int × VaList :=
  if 2 ≤ lflag.toInt then ((ap 1 ++ ap 0).toInt, ap.rest 2) else ((ap 0).toInt, ap.rest 1)

/-- The case of `%d`. -/
def printSigned (num : Int) (width : CInt) (padc : Int) (s : σ) : σ :=
  if num < 0 then printnum k num.natAbs base10 width padc (k.putch 45 s)
  else printnum k num.natAbs base10 width padc s

/-! ## Strings -/

/-- The bytes of a string literal. -/
def bytes (s : String) : List UInt8 := s.toList.map Char.toUInt8

/-- `strnlen`, whose size is unsigned. -/
def strnlen (p : List UInt8) (size : BitVec 32) : CInt := BitVec.ofNat 32 (min p.length size.toNat)

/-- The loop of `%s` over the characters, with what is left of the width. -/
def putchars (altflag : Bool) : List UInt8 → CInt → CInt → σ → CInt × σ
  | [], _, width, s => (width, s)
  | b :: p, precision, width, s =>
    if precision.toInt < 0 ∨ 0 ≤ (precision - 1).toInt then
      -- a byte from 128 on is a negative character
      let ch := signedChar b
      let s := if altflag && (ch < 32 || 126 < ch) then k.putch 63 s else k.putch ch s
      putchars altflag p (if precision.toInt < 0 then precision else precision - 1) (width - 1) s
    else (width, s)

/-- The case of `%s`: the padding on the left, the characters, and the padding on the right. -/
def printString (p : List UInt8) (padc : Int) (width precision : CInt) (altflag : Bool) (s : σ) : σ :=
  let (width, s) := if 0 < width.toInt ∧ padc ≠ 45 then
      let width := width - strnlen p precision
      -- `for (width -= strnlen(p, precision); width > 0; width--)` leaves `0`, or what was not positive
      (if 0 < width.toInt then 0 else width, (k.putch padc)^[width.toInt.toNat] s)
    else (width, s)
  let (width, s) := putchars k altflag p precision width s
  (k.putch 32)^[width.toInt.toNat] s

def maxError : Int := 100

/-- `error_string[err]`, at `4 * err` bytes from the table; the entries up to `MAXERROR` are `NULL`. -/
def errorString (err : CInt) : Option (List UInt8) :=
  if maxError < err.toInt then none
  else [none, some "unspecified error", some "bad environment", some "invalid parameter", some "out of memory",
    some "out of environments", some "segmentation fault"].getD ((4 * err).toNat / 4) none |>.map bytes

/-- `err` without its sign; the least `int` stays as it is. -/
def errorCode (err : CInt) : CInt := if err.toInt < 0 then -err else err

/-- The case of `%e`, where `printfmt` is called with the format `error %d` or `%s`. -/
def printError (err : CInt) (s : σ) : σ :=
  match errorString (errorCode err) with
  | none => printSigned k (errorCode err).toInt (-1) 32
      ((bytes "error ").foldl (fun s b => k.putch (signedChar b) s) s)
  | some p => printString k p 32 (-1) (-1) false s

/-! ## Directives -/

structure Flags where
  padc : Int := 32
  width : CInt := -1
  precision : CInt := -1
  lflag : CInt := 0
  altflag : Bool := false

/-- `process_precision`. -/
def Flags.process (f : Flags) (precision : CInt) : Flags :=
  if f.width.toInt < 0 then { f with width := precision, precision := -1 } else { f with precision }

/-- The loop over the digits of a field, after the first one. -/
def readDigits (precision : CInt) : List UInt8 → CInt × List UInt8
  | [] => (precision, [])
  | c :: fmt =>
    if 48 ≤ c ∧ c ≤ 57 then readDigits (precision * 10 + BitVec.ofNat 32 c.toNat - 48) fmt else (precision, c :: fmt)

/-- The loop only goes forward in the format. -/
theorem readDigits_length (fmt : List UInt8) (precision : CInt) : (readDigits precision fmt).2.length ≤ fmt.length := by
  induction fmt generalizing precision with
  | nil => exact le_rfl
  | cons c fmt ih =>
    unfold readDigits
    split
    · exact (ih _).trans (Nat.le_succ _)
    · exact le_rfl

/-- The cases of the `switch` that lead back to it, with what is left of the format and of the `va_list`. -/
def modifier (ch : UInt8) (fmt : List UInt8) (f : Flags) (ap : VaList) : Option (List UInt8 × Flags × VaList) :=
  match Char.ofNat ch.toNat with
  | '-' => some (fmt, { f with padc := 45 }, ap)
  | '0' => some (fmt, { f with padc := 48 }, ap)
  | '1' | '2' | '3' | '4' | '5' | '6' | '7' | '8' | '9' =>
    let (precision, fmt) := readDigits (BitVec.ofNat 32 ch.toNat - 48) fmt
    some (fmt, f.process precision, ap)
  | '*' => some (fmt, f.process (ap 0), ap.rest 1)
  -- with a width the digits that come next are the precision
  | '.' => some (fmt, if f.width.toInt < 0 then { f with width := 0 } else f, ap)
  | '#' => some (fmt, { f with altflag := true }, ap)
  | 'l' => some (fmt, { f with lflag := f.lflag + 1 }, ap)
  | _ => none

variable (str : Strings)

/-- The cases that print, and those of `printProgName`. -/
def conversion (ch : UInt8) (f : Flags) (ap : VaList) (s : σ) : Option (VaList × σ) :=
  match Char.ofNat ch.toNat with
  | 'c' => some (ap.rest 1, k.putch (ap 0).toInt s)
  | 'e' => some (ap.rest 1, printError k (ap 0) s)
  | 's' =>
    -- a `NULL` pointer
    let p := if ap 0 = 0 then bytes "(null)" else (str (ap 0)).bytes
    some (ap.rest 1, printString k p f.padc f.width f.precision f.altflag s)
  | 'd' =>
    let (num, ap) := getint ap f.lflag
    some (ap, printSigned k num f.width f.padc s)
  | 'u' =>
    let (num, ap) := getuint ap f.lflag
    some (ap, printnum k num base10 f.width f.padc s)
  -- octal is not implemented: three `X`, and no argument is taken
  | 'o' => some (ap, k.putch 88 (k.putch 88 (k.putch 88 s)))
  | 'p' => some (ap.rest 1, printnum k (ap 0).toNat base16 f.width f.padc (k.putch 120 (k.putch 48 s)))
  | 'x' =>
    let (num, ap) := getuint ap f.lflag
    some (ap, printnum k num base16 f.width f.padc s)
  | '%' => some (ap, k.putch 37 s)
  | '~' => some (ap, k.setProgName false s)
  | '@' => some (ap, k.setProgName true s)
  | _ => none

/-- A modifier leaves no more of the format than there was. -/
theorem modifier_length {ch : UInt8} {fmt fmt' : List UInt8} {f f' : Flags} {ap ap' : VaList}
    (h : modifier ch fmt f ap = some (fmt', f', ap')) : fmt'.length ≤ fmt.length := by
  unfold modifier at h
  split at h
  all_goals cases h
  all_goals first | exact le_rfl | exact readDigits_length _ _

/-- The `switch` on the characters after a `%`, from `reswitch` on; `after` is where they begin. An escape that is not
recognized is printed from its `%` on. -/
def reswitch (after : List UInt8) (fmt : List UInt8) (f : Flags) (ap : VaList) (s : σ) : List UInt8 × VaList × σ :=
  match fmt with
  | [] => (after, ap, k.putch 37 s)
  | ch :: fmt =>
    match _ : modifier ch fmt f ap with
    | some (fmt, f, ap) => reswitch after fmt f ap s
    | none =>
      match conversion k str ch f ap s with
      | some (ap, s) => (fmt, ap, s)
      | none => (after, ap, k.putch 37 s)
termination_by fmt.length
decreasing_by exact Nat.lt_succ_of_le (modifier_length ‹_›)

section Reswitch

variable {after fmt fmt' : List UInt8} {ch : UInt8} {f f' : Flags} {ap ap' : VaList} {s s' : σ}

/-- A modifier leads back to the `switch`. -/
theorem reswitch_of_modifier (h : modifier ch fmt f ap = some (fmt', f', ap')) :
    reswitch k str after (ch :: fmt) f ap s = reswitch k str after fmt' f' ap' s := by
  rw [reswitch]
  split
  case h_1 h' =>
    rw [h] at h'
    cases h'
    rfl
  case h_2 h' =>
    rw [h] at h'
    cases h'

/-- Any other character ends the escape. -/
theorem reswitch_of_none (h : modifier ch fmt f ap = none) :
    reswitch k str after (ch :: fmt) f ap s =
      (conversion k str ch f ap s).elim (after, ap, k.putch 37 s) (Prod.mk fmt) := by
  rw [reswitch]
  split
  case h_1 h' =>
    rw [h] at h'
    cases h'
  case h_2 => cases conversion k str ch f ap s <;> rfl

theorem reswitch_of_conversion (h : modifier ch fmt f ap = none) (hc : conversion k str ch f ap s = some (ap', s')) :
    reswitch k str after (ch :: fmt) f ap s = (fmt, ap', s') := by
  rw [reswitch_of_none k str h, hc]
  rfl

theorem reswitch_of_unknown (h : modifier ch fmt f ap = none) (hc : conversion k str ch f ap s = none) :
    reswitch k str after (ch :: fmt) f ap s = (after, ap, k.putch 37 s) := by
  rw [reswitch_of_none k str h, hc]
  rfl

end Reswitch

/-- An escape ends no earlier than it began, so `vprintfmt` comes to the end of its format. -/
theorem reswitch_length {after fmt : List UInt8} (f : Flags) (ap : VaList) (s : σ) (h : fmt.length ≤ after.length) :
    (reswitch k str after fmt f ap s).1.length ≤ after.length := by
  fun_induction reswitch with
  | case1 => exact le_rfl
  | case2 _ _ _ _ _ _ _ hm ih => exact ih ((modifier_length hm).trans ((Nat.le_succ _).trans h))
  | case3 => exact (Nat.le_succ _).trans h
  | case4 => exact le_rfl

/-- `vprintfmt`. -/
def vprintfmt (fmt : List UInt8) (ap : VaList) (s : σ) : σ :=
  match fmt with
  | [] => s
  | ch :: fmt =>
    if ch = 37 then
      have := reswitch_length k str {} ap s (le_refl fmt.length)
      vprintfmt (reswitch k str fmt fmt {} ap s).1 (reswitch k str fmt fmt {} ap s).2.1
        (reswitch k str fmt fmt {} ap s).2.2
    else vprintfmt fmt ap (k.putch ch.toNat s)
termination_by fmt.length

theorem vprintfmt_nil (ap : VaList) (s : σ) : vprintfmt k str [] ap s = s := by rw [vprintfmt]

theorem vprintfmt_escape (fmt : List UInt8) (ap : VaList) (s : σ) :
    vprintfmt k str (37 :: fmt) ap s = vprintfmt k str (reswitch k str fmt fmt {} ap s).1
      (reswitch k str fmt fmt {} ap s).2.1 (reswitch k str fmt fmt {} ap s).2.2 := by
  rw [vprintfmt, if_pos rfl]

theorem vprintfmt_literal {ch : UInt8} (h : ch ≠ 37) (fmt : List UInt8) (ap : VaList) (s : σ) :
    vprintfmt k str (ch :: fmt) ap s = vprintfmt k str fmt ap (k.putch ch.toNat s) := by
  rw [vprintfmt, if_neg h]

end Code

end Fos.Print
