/-
What `vprintfmt` prints. Each conversion gives `putch` a list of characters that depends on the flags and on its
argument only, so a whole format gives a list of events, and what becomes of it is what the sink does with them.
-/
import Fos.Print.Format

namespace Fos.Print

open Fos.Shared

/-! ## Events -/

/-- A character for `putch`, or a new value of `printProgName`. -/
inductive Event where
  | putch (ch : Int)
  | progName (b : Bool)
  deriving DecidableEq

section Events

variable {σ : Type} (k : Sink σ) {es es' : List Event} {s : σ} {l l' : List Int} {n : Nat} {c : Int}

def Sink.step (s : σ) : Event → σ
  | .putch ch => k.putch ch s
  | .progName b => k.setProgName b s

/-- What a sink does with a list of events. -/
def Sink.all (es : List Event) (s : σ) : σ := es.foldl k.step s

@[simp] theorem Sink.all_nil : k.all [] s = s := rfl

@[simp] theorem Sink.all_append : k.all (es ++ es') s = k.all es' (k.all es s) := List.foldl_append

/-- The events of characters. -/
def chars (l : List Int) : List Event := l.map .putch

@[simp] theorem chars_nil : chars [] = [] := rfl

@[simp] theorem chars_append : chars (l ++ l') = chars l ++ chars l' := List.map_append

theorem Sink.all_chars_cons : k.all (chars (c :: l)) s = k.all (chars l) (k.putch c s) := rfl

theorem Sink.all_chars_singleton : k.all (chars [c]) s = k.putch c s := rfl

/-- The padding of a field. -/
theorem Sink.iterate_putch : (k.putch c)^[n] s = k.all (chars (List.replicate n c)) s := by
  induction n generalizing s with
  | zero => rfl
  | succ n ih => rw [Function.iterate_succ_apply, ih, List.replicate_succ, Sink.all_chars_cons]

end Events

/-! ## Numbers -/

/-- A number in its base, the most significant digit first. -/
def numeral (num : Nat) (base : Base) : List Int :=
  (if num = 0 then [0] else Nat.digits base.val num).reverse.map digitChar

/-- A number with its padding. -/
def number (num : Nat) (base : Base) (width : CInt) (padc : Int) : List Int :=
  List.replicate (width - BitVec.ofNat 32 (numeral num base).length).toInt.toNat padc ++ numeral num base

/-- A sign is before the padding and does not count for the width. -/
def signed (num : Int) (width : CInt) (padc : Int) : List Int :=
  (if num < 0 then [45] else []) ++ number num.natAbs base10 width padc

/-- A number below the base is one digit. -/
theorem numeral_of_lt {num : Nat} {base : Base} (h : num < base.val) : numeral num base = [digitChar num] := by
  unfold numeral
  split
  case isTrue h0 => rw [h0]; rfl
  case isFalse h0 => rw [Nat.digits_of_lt _ _ h0 h]; rfl

/-- Otherwise its digits are those of the quotient and the remainder. -/
theorem numeral_of_le {num : Nat} {base : Base} (h : base.val ≤ num) :
    numeral num base = numeral (num / base.val) base ++ [digitChar (num % base.val)] := by
  have hb := base.2.1
  have hq : num / base.val ≠ 0 := (Nat.div_pos h (by omega)).ne'
  unfold numeral
  rw [if_neg (by omega), if_neg hq, Nat.digits_def' hb (by omega), List.reverse_cons, List.map_append]
  rfl

section Code

variable {σ : Type} (k : Sink σ) {s : σ}

theorem sub_ofNat_succ (width : CInt) (n : Nat) :
    width - 1 - BitVec.ofNat 32 n = width - BitVec.ofNat 32 (n + 1) := by
  rw [← BitVec.ofNat_add_ofNat]
  bv_omega

/-- The recursion takes one from the width for each digit after the first one. -/
theorem printnum_eq (num : Nat) (base : Base) (width : CInt) (padc : Int) (s : σ) :
    printnum k num base width padc s = k.all (chars (number num base width padc)) s := by
  induction num using Nat.strong_induction_on generalizing width with
  | _ num ih =>
    rw [printnum]
    split
    case isTrue h =>
      have hb := base.2.1
      rw [ih _ (Nat.div_lt_self (by omega) hb), number, number, numeral_of_le h, List.length_append,
        List.length_singleton, sub_ofNat_succ]
      simp only [chars_append, Sink.all_append]
      rfl
    case isFalse h =>
      have h := Nat.lt_of_not_le h
      rw [number, numeral_of_lt h, Nat.mod_eq_of_lt h, chars_append, Sink.all_append, Sink.iterate_putch,
        Sink.all_chars_singleton]
      rfl

theorem printSigned_eq (num : Int) (width : CInt) (padc : Int) :
    printSigned k num width padc s = k.all (chars (signed num width padc)) s := by
  unfold printSigned signed
  split
  · rw [printnum_eq, chars_append, Sink.all_append, Sink.all_chars_singleton]
  · rw [printnum_eq, List.nil_append]

/-! ## Strings -/

/-- The characters of a string that a precision leaves, with `?` for those that cannot be printed. -/
def shown (p : List UInt8) (precision : CInt) (altflag : Bool) : List Int :=
  (if precision.toInt < 0 then p else p.take precision.toInt.toNat).map fun b =>
    if altflag && (signedChar b < 32 || 126 < signedChar b) then 63 else signedChar b

/-- What is left of the width after the padding on the left. -/
def widthLeft (p : List UInt8) (padc : Int) (width precision : CInt) : CInt :=
  if 0 < width.toInt ∧ padc ≠ 45 then
    if 0 < (width - strnlen p precision).toInt then 0 else width - strnlen p precision
  else width

/-- A string with its padding: on the left with `padc`, or on the right with blanks where `padc` is `-`. Only a text so
long that the width wraps around has both. -/
def string (p : List UInt8) (padc : Int) (width precision : CInt) (altflag : Bool) : List Int :=
  (if 0 < width.toInt ∧ padc ≠ 45 then List.replicate (width - strnlen p precision).toInt.toNat padc else []) ++
    (shown p precision altflag ++ List.replicate
      (widthLeft p padc width precision - BitVec.ofNat 32 (shown p precision altflag).length).toInt.toNat 32)

theorem toInt_ofNat_of_lt {n : Nat} (hn : n < 2147483648) : (BitVec.ofNat 32 n).toInt = n := by
  rw [BitVec.toInt_eq_toNat_of_lt, BitVec.toNat_ofNat, Nat.mod_eq_of_lt (by omega)]
  rw [BitVec.toNat_ofNat, Nat.mod_eq_of_lt (by omega)]
  omega

/-- A difference that is an `int`. -/
theorem toInt_sub_ofNat {x : CInt} {n : Nat} (hn : n < 2147483648) (h : -2147483648 ≤ x.toInt - n) :
    (x - BitVec.ofNat 32 n).toInt = x.toInt - n := by
  have hx : 2 * x.toInt < 4294967296 := BitVec.two_mul_toInt_lt
  rw [BitVec.toInt_sub, toInt_ofNat_of_lt hn]
  exact Int.bmod_eq_of_le (by omega) (by omega)

/-- The loop shows a character for each step that it takes. -/
theorem putchars_eq (p : List UInt8) (altflag : Bool) (precision width : CInt) (s : σ) :
    putchars k altflag p precision width s = (width - BitVec.ofNat 32 (shown p precision altflag).length,
      k.all (chars (shown p precision altflag)) s) := by
  induction p generalizing precision width s with
  | nil => simp [putchars, shown]
  | cons b p ih =>
    unfold putchars
    by_cases hneg : precision.toInt < 0
    · have hcons : shown (b :: p) precision altflag =
          (if altflag && (signedChar b < 32 || 126 < signedChar b) then 63 else signedChar b) ::
            shown p precision altflag := by
        simp only [shown, if_pos hneg, List.map_cons]
      rw [if_pos (Or.inl hneg), if_pos hneg, ih, hcons, Sink.all_chars_cons, List.length_cons]
      apply Prod.ext (sub_ofNat_succ width _)
      simp only
      split <;> rfl
    · have hone : (precision - 1).toInt = precision.toInt - 1 :=
        toInt_sub_ofNat (show 1 < 2147483648 by decide) (by rw [Nat.cast_one]; omega)
      by_cases hpos : 0 ≤ (precision - 1).toInt
      · have htake : precision.toInt.toNat = (precision - 1).toInt.toNat + 1 := by omega
        have hcons : shown (b :: p) precision altflag =
            (if altflag && (signedChar b < 32 || 126 < signedChar b) then 63 else signedChar b) ::
              shown p (precision - 1) altflag := by
          simp only [shown, if_neg hneg, if_neg (not_lt.2 hpos), htake, List.take_succ_cons, List.map_cons]
        rw [if_pos (Or.inr hpos), if_neg hneg, ih, hcons, Sink.all_chars_cons, List.length_cons]
        apply Prod.ext (sub_ofNat_succ width _)
        simp only
        split <;> rfl
      · have h0 : shown (b :: p) precision altflag = [] := by
          simp only [shown, if_neg hneg, show precision.toInt.toNat = 0 by omega, List.take_zero, List.map_nil]
        rw [if_neg (not_or.2 ⟨hneg, hpos⟩), h0]
        simp

theorem printString_eq (p : List UInt8) (padc : Int) (width precision : CInt) (altflag : Bool) :
    printString k p padc width precision altflag s = k.all (chars (string p padc width precision altflag)) s := by
  unfold printString string widthLeft
  by_cases h : 0 < width.toInt ∧ padc ≠ 45
  · simp only [if_pos h, putchars_eq, Sink.iterate_putch, chars_append, Sink.all_append]
  · simp only [if_neg h, putchars_eq, Sink.iterate_putch, chars_append, Sink.all_append, chars_nil, Sink.all_nil]

theorem length_shown_le (p : List UInt8) (precision : CInt) (altflag : Bool) :
    (shown p precision altflag).length ≤ p.length := by
  unfold shown
  rw [List.length_map]
  split
  · exact le_rfl
  · exact List.length_take_le' _ _

/-- A text of at most 2^30 characters that is padded on the left has nothing after it. -/
theorem string_left {p : List UInt8} {padc : Int} {width : CInt} (h : 0 < width.toInt ∧ padc ≠ 45)
    (hp : p.length ≤ 1073741824) (precision : CInt) (altflag : Bool) : string p padc width precision altflag =
      List.replicate (width - strnlen p precision).toInt.toNat padc ++ shown p precision altflag := by
  have hlen := length_shown_le p precision altflag
  have hstr : strnlen p precision = BitVec.ofNat 32 (min p.length precision.toNat) := rfl
  have hmin : min p.length precision.toNat ≤ p.length := Nat.min_le_left _ _
  have hrest : (width - strnlen p precision).toInt = width.toInt - (min p.length precision.toNat : Nat) := by
    rw [hstr, toInt_sub_ofNat (by omega) (by omega)]
  have hnone : (widthLeft p padc width precision - BitVec.ofNat 32 (shown p precision altflag).length).toInt.toNat =
      0 := by
    unfold widthLeft
    rw [if_pos h]
    split
    · have hzero : (0 : CInt).toInt = 0 := rfl
      rw [toInt_sub_ofNat (by omega) (by omega), hzero]
      omega
    · rw [toInt_sub_ofNat (by omega) (by omega)]
      omega
  unfold string
  rw [if_pos h, hnone, List.replicate_zero, List.append_nil]

/-- The text of an error code. -/
def errorText (err : CInt) : List Int :=
  match errorString (errorCode err) with
  | none => (bytes "error ").map signedChar ++ signed (errorCode err).toInt (-1) 32
  | some p => string p 32 (-1) (-1) false

theorem printError_eq (err : CInt) : printError k err s = k.all (chars (errorText err)) s := by
  unfold printError errorText
  cases errorString (errorCode err) with
  | none =>
    simp only
    rw [printSigned_eq, chars_append, Sink.all_append]
    congr 1
  | some p => exact printString_eq k p 32 (-1) (-1) false

end Code

/-! ## Conversions -/

inductive Conv where
  | c | e | s | d | u | o | p | x | percent | tilde | at
  deriving DecidableEq

/-- The character of a conversion. -/
def Conv.ch : Conv → UInt8
  | .c => 99 | .e => 101 | .s => 115 | .d => 100 | .u => 117 | .o => 111 | .p => 112 | .x => 120
  | .percent => 37 | .tilde => 126 | .at => 64

/-- The conversion of a character. -/
def conv? (ch : UInt8) : Option Conv :=
  match Char.ofNat ch.toNat with
  | 'c' => some .c
  | 'e' => some .e
  | 's' => some .s
  | 'd' => some .d
  | 'u' => some .u
  | 'o' => some .o
  | 'p' => some .p
  | 'x' => some .x
  | '%' => some .percent
  | '~' => some .tilde
  | '@' => some .at
  | _ => none

theorem Conv.conv?_ch (v : Conv) : conv? v.ch = some v := by cases v <;> rfl

/-- The string of `%s`. -/
def argString (str : Strings) (a : BitVec 32) : List UInt8 := if a = 0 then bytes "(null)" else (str a).bytes

/-- What a conversion prints. -/
def Conv.events (str : Strings) (f : Flags) (ap : VaList) : Conv → List Event
  | .c => chars [(ap 0).toInt]
  | .e => chars (errorText (ap 0))
  | .s => chars (string (argString str (ap 0)) f.padc f.width f.precision f.altflag)
  | .d => chars (signed (getint ap f.lflag).1 f.width f.padc)
  | .u => chars (number (getuint ap f.lflag).1 base10 f.width f.padc)
  | .o => chars [88, 88, 88]
  | .p => chars ([48, 120] ++ number (ap 0).toNat base16 f.width f.padc)
  | .x => chars (number (getuint ap f.lflag).1 base16 f.width f.padc)
  | .percent => chars [37]
  | .tilde => [.progName false]
  | .at => [.progName true]

/-- The number of words that a conversion takes. -/
def Conv.words (f : Flags) : Conv → Nat
  | .c | .e | .s | .p => 1
  | .d | .u | .x => if 2 ≤ f.lflag.toInt then 2 else 1
  | .o | .percent | .tilde | .at => 0

section Code

variable {σ : Type} (k : Sink σ)

theorem getuint_rest (ap : VaList) (lflag : CInt) :
    (getuint ap lflag).2 = ap.rest (if 2 ≤ lflag.toInt then 2 else 1) := by
  unfold getuint
  split <;> rfl

theorem getint_rest (ap : VaList) (lflag : CInt) :
    (getint ap lflag).2 = ap.rest (if 2 ≤ lflag.toInt then 2 else 1) := by
  unfold getint
  split <;> rfl

@[simp] theorem VaList.rest_zero (ap : VaList) : ap.rest 0 = ap := funext fun i => by rw [VaList.rest, Nat.zero_add]

/-- A conversion prints its events and takes its words. -/
theorem conversion_eq (str : Strings) (ch : UInt8) (f : Flags) (ap : VaList) (s : σ) :
    conversion k str ch f ap s = (conv? ch).map fun v => (ap.rest (v.words f), k.all (v.events str f ap) s) := by
  unfold conversion conv?
  generalize Char.ofNat ch.toNat = x
  split
  · rfl
  · simp only [Option.map_some, printError_eq]
    rfl
  · simp only [Option.map_some, printString_eq]
    rfl
  · simp only [Option.map_some, printSigned_eq, getint_rest]
    rfl
  · simp only [Option.map_some, printnum_eq, getuint_rest]
    rfl
  · simp only [Option.map_some, Conv.words, VaList.rest_zero]
    rfl
  · simp only [Option.map_some, printnum_eq, Conv.events, chars_append, Sink.all_append]
    rfl
  · simp only [Option.map_some, printnum_eq, getuint_rest]
    rfl
  · simp only [Option.map_some, Conv.words, VaList.rest_zero]
    rfl
  · simp only [Option.map_some, Conv.words, VaList.rest_zero]
    rfl
  · simp only [Option.map_some, Conv.words, VaList.rest_zero]
    rfl
  -- no conversion is named so
  · simp_all

/-! ## Formats -/

/-- A sink that keeps what it is given. -/
def recorder : Sink (List Event) where
  putch c es := es ++ [.putch c]
  setProgName b es := es ++ [.progName b]

/-- The events of a format. -/
def events (str : Strings) (fmt : List UInt8) (ap : VaList) : List Event := vprintfmt recorder str fmt ap []

/-- It keeps the events in their order. -/
theorem recorder_all (es es' : List Event) : recorder.all es es' = es' ++ es := by
  induction es generalizing es' with
  | nil => rw [Sink.all_nil, List.append_nil]
  | cons e es ih =>
    show recorder.all es (recorder.step es' e) = _
    rw [ih]
    cases e <;> rw [List.append_cons] <;> rfl

/-- An escape goes on at the same place of the format and of the `va_list` for whatever it prints with. -/
theorem reswitch_eq (str : Strings) (after fmt : List UInt8) (f : Flags) (ap : VaList) (s : σ) :
    reswitch k str after fmt f ap s = ((reswitch recorder str after fmt f ap []).1,
      (reswitch recorder str after fmt f ap []).2.1, k.all (reswitch recorder str after fmt f ap []).2.2 s) := by
  fun_induction reswitch k str after fmt f ap s with
  | case1 f ap =>
    rw [reswitch]
    rfl
  | case2 f ap ch fmt fmt' f' ap' hm ih => rw [ih, reswitch_of_modifier recorder str hm]
  | case3 f ap ch fmt hm ap' s' hc =>
    rw [conversion_eq] at hc
    obtain ⟨v, hv, he⟩ := Option.map_eq_some_iff.1 hc
    cases he
    have hrec : conversion recorder str ch f ap [] = some (ap.rest (v.words f), v.events str f ap) := by
      rw [conversion_eq, hv, Option.map_some, recorder_all, List.nil_append]
    rw [reswitch_of_conversion recorder str hm hrec]
  | case4 f ap ch fmt hm hc =>
    rw [conversion_eq] at hc
    have hrec : conversion recorder str ch f ap [] = none := by
      rw [conversion_eq, Option.map_eq_none_iff.1 hc, Option.map_none]
    rw [reswitch_of_unknown recorder str hm hrec]
    rfl

/-- By induction on the length of the format: an escape leaves less of it. -/
theorem exists_events (str : Strings) (fmt : List UInt8) (ap : VaList) :
    ∃ es, ∀ {σ : Type} (k : Sink σ) (s : σ), vprintfmt k str fmt ap s = k.all es s := by
  induction hn : fmt.length using Nat.strong_induction_on generalizing fmt ap with
  | _ n ih =>
    cases fmt with
    | nil => exact ⟨[], fun k s => vprintfmt_nil k str ap s⟩
    | cons ch fmt =>
      have hlt : fmt.length < n := hn ▸ Nat.lt_succ_self _
      by_cases hch : ch = 37
      · subst hch
        obtain ⟨es, hes⟩ := ih _ ((reswitch_length recorder str {} ap [] le_rfl).trans_lt hlt)
          (reswitch recorder str fmt fmt {} ap []).1 (reswitch recorder str fmt fmt {} ap []).2.1 rfl
        refine ⟨(reswitch recorder str fmt fmt {} ap []).2.2 ++ es, fun k s => ?_⟩
        rw [vprintfmt_escape, reswitch_eq, hes, Sink.all_append]
      · obtain ⟨es, hes⟩ := ih _ hlt fmt ap rfl
        refine ⟨.putch ch.toNat :: es, fun k s => ?_⟩
        rw [vprintfmt_literal k str hch, hes]
        rfl

/-- What `vprintfmt` does with a format is what its events do. -/
theorem vprintfmt_eq (str : Strings) (fmt : List UInt8) (ap : VaList) (s : σ) :
    vprintfmt k str fmt ap s = k.all (events str fmt ap) s := by
  obtain ⟨es, hes⟩ := exists_events str fmt ap
  rw [hes, events, hes, recorder_all, List.nil_append]

end Code

end Fos.Print
