/-
Formats that are spelled from directives: flags, width, precision, length and conversion. What `vprintfmt` does with
the text of such a format is what the directives mean one after another, each on the words that the ones before leave.
-/
import Fos.Print.Events

namespace Fos.Print

open Fos.Shared

/-! ## Directives -/

inductive Flag where
  | minus | zero | alt

/-- A width or a precision: a number, or the next word. -/
inductive Field where
  | number (n : Nat) (h : 0 < n)
  | star

/-- The characters that lead back to the `switch`. -/
def modifiers : List UInt8 := bytes "-0123456789*.#l"

/-- A directive; its last character need not be one of a conversion. -/
structure Directive where
  flags : List Flag
  width : Option Field
  precision : Option Field
  longs : Nat
  ch : UInt8
  last : ch ≠ 0 ∧ ch ∉ modifiers

/-- A character that stands for itself, or a directive. -/
inductive Piece where
  | literal (ch : UInt8) (h : ch ≠ 0 ∧ ch ≠ 37)
  | directive (d : Directive)

/-! ## Their text -/

def Flag.ch : Flag → UInt8
  | .minus => 45 | .zero => 48 | .alt => 35

/-- A decimal digit. -/
def decimalDigit (d : Nat) : UInt8 := UInt8.ofNat (48 + d)

/-- A number in decimal. -/
def decimal (n : Nat) : List UInt8 := (Nat.digits 10 n).reverse.map decimalDigit

def Field.spell : Field → List UInt8
  | .number n _ => decimal n
  | .star => [42]

/-- The characters of a directive after its `%`. -/
def Directive.body (d : Directive) : List UInt8 :=
  d.flags.map Flag.ch ++ d.width.elim [] Field.spell ++ d.precision.elim [] (fun p => 46 :: p.spell) ++
    List.replicate d.longs 108 ++ [d.ch]

def Piece.spell : Piece → List UInt8
  | .literal ch _ => [ch]
  | .directive d => 37 :: d.body

/-- The text of a format. -/
def spell (ps : List Piece) : List UInt8 := ps.flatMap Piece.spell

/-! ## Their meaning -/

/-- The value of a field, and the words that it takes. -/
def Field.value (ap : VaList) : Field → CInt
  | .number n _ => BitVec.ofNat 32 n
  | .star => ap 0

def Field.words : Field → Nat
  | .number _ _ => 0
  | .star => 1

def Flag.pad (padc : Int) : Flag → Int
  | .minus => 45 | .zero => 48 | .alt => padc

def Flag.isAlt : Flag → Bool
  | .alt => true | _ => false

namespace Directive

variable (d : Directive) (str : Strings) (ap : VaList)

/-- The words of the `va_list` after the width. -/
def afterWidth : VaList := ap.rest (d.width.elim 0 Field.words)

/-- The words of the `va_list` after the width and the precision. -/
def afterFields : VaList := (d.afterWidth ap).rest (d.precision.elim 0 Field.words)

/-- The flags of a directive. A width that is not given is `-1`, and a precision makes it at least `0`. -/
def meant : Flags where
  padc := d.flags.foldl Flag.pad 32
  width := d.precision.elim (d.width.elim (-1) (Field.value ap)) fun _ =>
    if (d.width.elim (-1) (Field.value ap)).toInt < 0 then 0 else d.width.elim (-1) (Field.value ap)
  precision := d.precision.elim (-1) (Field.value (d.afterWidth ap))
  lflag := BitVec.ofNat 32 d.longs
  altflag := d.flags.any Flag.isAlt

/-- What a directive prints; one whose last character is not a conversion prints itself. -/
def events : List Event :=
  match conv? d.ch with
  | some v => v.events str (d.meant ap) (d.afterFields ap)
  | none => chars ((37 :: d.body).map fun b => (b.toNat : Int))

/-- What a directive leaves of the `va_list`. -/
def rest : VaList :=
  match conv? d.ch with
  | some v => (d.afterFields ap).rest (v.words (d.meant ap))
  | none => d.afterFields ap

end Directive

/-- What a format prints: each directive on the words that the ones before leave. -/
def render (str : Strings) : List Piece → VaList → List Event
  | [], _ => []
  | .literal ch _ :: ps, ap => .putch ch.toNat :: render str ps ap
  | .directive d :: ps, ap => d.events str ap ++ render str ps (d.rest ap)

/-! ## Numbers in a format -/

/-- The number whose digits follow those of `a`. -/
def readDecimal (a : Nat) (ds : List Nat) : Nat := ds.foldl (fun a d => a * 10 + d) a

/-- The text of a number begins with a digit from `1` on, and reads as the number. -/
theorem decimal_eq {n : Nat} (h : 0 < n) : ∃ (d : Nat) (ds : List Nat), 0 < d ∧ d < 10 ∧ (∀ e ∈ ds, e < 10) ∧
    decimal n = decimalDigit d :: ds.map decimalDigit ∧ readDecimal d ds = n := by
  have hne : Nat.digits 10 n ≠ [] := Nat.digits_ne_nil_iff_ne_zero.2 h.ne'
  have hlt : ∀ e ∈ (Nat.digits 10 n).reverse, e < 10 := fun e he =>
    Nat.digits_lt_base (by decide) (List.mem_reverse.1 he)
  have hval : readDecimal 0 (Nat.digits 10 n).reverse = n := by
    unfold readDecimal
    rw [List.foldl_reverse]
    conv_rhs => rw [← Nat.ofDigits_digits 10 n, Nat.ofDigits_eq_foldr]
    congr 1
    funext x y
    rw [Nat.cast_id]
    omega
  have hhead : (Nat.digits 10 n).reverse.head (by simpa using hne) ≠ 0 := by
    rw [List.head_reverse]
    exact Nat.getLast_digit_ne_zero 10 h.ne'
  unfold decimal
  cases hr : (Nat.digits 10 n).reverse with
  | nil => exact absurd (List.reverse_eq_nil_iff.1 hr) hne
  | cons d ds =>
    simp only [hr] at hlt hval hhead
    refine ⟨d, ds, Nat.pos_of_ne_zero hhead, hlt d List.mem_cons_self, fun e he => hlt e (List.mem_cons_of_mem d he),
      rfl, ?_⟩
    simpa [readDecimal] using hval

/-- A digit. -/
abbrev IsDigit (c : UInt8) : Prop := 48 ≤ c ∧ c ≤ 57

/-- The text of a number is of digits. -/
theorem isDigit_decimalDigit {d : Nat} (h : d < 10) : IsDigit (decimalDigit d) := by
  unfold IsDigit
  interval_cases d <;> decide

theorem readDigits_of_not {a : CInt} {fmt : List UInt8} (h : ∀ c ∈ fmt.head?, ¬IsDigit c) :
    readDigits a fmt = (a, fmt) := by
  cases fmt with
  | nil => rfl
  | cons c fmt => rw [readDigits, if_neg (h c rfl)]

theorem ofNat_readDigit (a : Nat) {d : Nat} (hd : d < 10) :
    BitVec.ofNat 32 a * 10 + BitVec.ofNat 32 (decimalDigit d).toNat - 48 = BitVec.ofNat 32 (a * 10 + d) := by
  have hnat : (decimalDigit d).toNat = 48 + d := by interval_cases d <;> rfl
  have hten : (10 : CInt).toNat = 10 := rfl
  have hzero : (48 : CInt).toNat = 48 := rfl
  rw [hnat]
  apply BitVec.eq_of_toNat_eq
  rw [BitVec.toNat_sub, BitVec.toNat_add, BitVec.toNat_mul, hten, hzero]
  simp only [BitVec.toNat_ofNat]
  omega

/-- The loop over the digits computes the number that they spell, as an `int`. -/
theorem readDigits_decimal {ds : List Nat} (hds : ∀ d ∈ ds, d < 10) {a : Nat} {fmt : List UInt8} :
    readDigits (BitVec.ofNat 32 a) (ds.map decimalDigit ++ fmt) =
      readDigits (BitVec.ofNat 32 (readDecimal a ds)) fmt := by
  induction ds generalizing a with
  | nil => rfl
  | cons d ds ih =>
    have hd : d < 10 := hds d List.mem_cons_self
    rw [List.map_cons, List.cons_append, readDigits, if_pos (isDigit_decimalDigit hd), ofNat_readDigit a hd]
    exact ih fun e he => hds e (List.mem_cons_of_mem d he)

/-! ## The modifiers of a directive -/

theorem toUInt8_ofNat (ch : UInt8) : (Char.ofNat ch.toNat).toUInt8 = ch := by
  have h : ch.toNat.isValidChar := Or.inl (ch.toNat_lt.trans (by decide))
  rw [← UInt8.toNat_inj, Char.ofNat, dif_pos h]
  show ch.toNat % 256 = ch.toNat
  exact Nat.mod_eq_of_lt ch.toNat_lt

/-- A character that is not one of the modifiers is none. -/
theorem modifier_of_notMem {ch : UInt8} (h : ch ∉ modifiers) (fmt : List UInt8) (f : Flags) (ap : VaList) :
    modifier ch fmt f ap = none := by
  have hch := toUInt8_ofNat ch
  unfold modifier
  split
  rotate_right
  · rfl
  all_goals
    rename_i h'
    rw [h'] at hch
    subst hch
    exact absurd (by decide) h

theorem notDigit_of_notMem {ch : UInt8} (h : ch ∉ modifiers) : ¬IsDigit ch := by
  rintro ⟨hlo, hhi⟩
  have hch : UInt8.ofNat ch.toNat = ch := UInt8.ofNat_toNat
  have hlo : 48 ≤ ch.toNat := hlo
  have hhi : ch.toNat ≤ 57 := hhi
  interval_cases ch.toNat <;> exact h (hch ▸ by decide)

theorem modifier_decimalDigit {d : Nat} (h0 : 0 < d) (h : d < 10) (fmt : List UInt8) (f : Flags) (ap : VaList) :
    modifier (decimalDigit d) fmt f ap =
      some ((readDigits (BitVec.ofNat 32 d) fmt).2, f.process (readDigits (BitVec.ofNat 32 d) fmt).1, ap) := by
  interval_cases d <;> rfl

def Flag.set (f : Flags) : Flag → Flags
  | .minus => { f with padc := 45 }
  | .zero => { f with padc := 48 }
  | .alt => { f with altflag := true }

/-- The last `-` or `0` gives the padding. -/
theorem foldl_set (flags : List Flag) (f : Flags) : flags.foldl Flag.set f =
    { f with padc := flags.foldl Flag.pad f.padc, altflag := f.altflag || flags.any Flag.isAlt } := by
  induction flags generalizing f with
  | nil => simp
  | cons flag flags ih =>
    rw [List.foldl_cons, ih]
    cases flag <;> simp [Flag.set, Flag.pad, Flag.isAlt]

section Code

variable {σ : Type} (k : Sink σ) (str : Strings) {after fmt : List UInt8} {f : Flags} {ap : VaList} {s : σ}

theorem reswitch_flags (flags : List Flag) :
    reswitch k str after (flags.map Flag.ch ++ fmt) f ap s =
      reswitch k str after fmt (flags.foldl Flag.set f) ap s := by
  induction flags generalizing f with
  | nil => rfl
  | cons flag flags ih =>
    have hm : modifier flag.ch (flags.map Flag.ch ++ fmt) f ap = some (flags.map Flag.ch ++ fmt, flag.set f, ap) := by
      cases flag <;> rfl
    rw [List.map_cons, List.cons_append, reswitch_of_modifier k str hm, ih, List.foldl_cons]

/-- A field is read to its end, and goes where there is a place for it. -/
theorem reswitch_field (p : Field) (h : ∀ c ∈ fmt.head?, ¬IsDigit c) :
    reswitch k str after (p.spell ++ fmt) f ap s =
      reswitch k str after fmt (f.process (p.value ap)) (ap.rest p.words) s := by
  cases p with
  | number n hn =>
    obtain ⟨d, ds, h0, hd, hds, hspell, hval⟩ := decimal_eq hn
    have hread : readDigits (BitVec.ofNat 32 d) (ds.map decimalDigit ++ fmt) = (BitVec.ofNat 32 n, fmt) := by
      rw [readDigits_decimal hds, hval, readDigits_of_not h]
    have hm := modifier_decimalDigit h0 hd (ds.map decimalDigit ++ fmt) f ap
    rw [hread] at hm
    rw [Field.spell, hspell, List.cons_append, reswitch_of_modifier k str hm, Field.words, VaList.rest_zero]
    rfl
  | star =>
    have hm : modifier 42 fmt f ap = some (fmt, f.process (ap 0), ap.rest 1) := rfl
    exact reswitch_of_modifier k str hm

theorem reswitch_dot : reswitch k str after (46 :: fmt) f ap s =
    reswitch k str after fmt (if f.width.toInt < 0 then { f with width := 0 } else f) ap s := by
  have hm : modifier 46 fmt f ap = some (fmt, if f.width.toInt < 0 then { f with width := 0 } else f, ap) := rfl
  exact reswitch_of_modifier k str hm

/-- Each `l` counts. -/
theorem reswitch_longs (n : Nat) : reswitch k str after (List.replicate n 108 ++ fmt) f ap s =
    reswitch k str after fmt { f with lflag := f.lflag + BitVec.ofNat 32 n } ap s := by
  induction n generalizing f with
  | zero =>
    have hsum : f.lflag + BitVec.ofNat 32 0 = f.lflag := BitVec.add_zero _
    rw [hsum]
    rfl
  | succ n ih =>
    have hm : modifier 108 (List.replicate n 108 ++ fmt) f ap =
      some (List.replicate n 108 ++ fmt, { f with lflag := f.lflag + 1 }, ap) := rfl
    have hsum : f.lflag + 1 + BitVec.ofNat 32 n = f.lflag + BitVec.ofNat 32 (n + 1) := by
      rw [Nat.add_comm n 1, ← BitVec.ofNat_add_ofNat, ← BitVec.add_assoc]
      rfl
    rw [List.replicate_succ, List.cons_append, reswitch_of_modifier k str hm, ih]
    simp only [hsum]

/-! ## A whole directive -/

theorem Directive.head_longs (d : Directive) {c : UInt8} (h : c ∈ (List.replicate d.longs 108 ++ d.ch :: fmt).head?) :
    ¬IsDigit c := by
  cases hl : d.longs with
  | zero =>
    rw [hl] at h
    cases h
    exact notDigit_of_notMem d.last.2
  | succ n =>
    rw [hl] at h
    cases h
    decide

theorem Directive.head_fields (d : Directive) {c : UInt8}
    (h : c ∈ (d.precision.elim [] (fun p => 46 :: p.spell) ++ (List.replicate d.longs 108 ++ d.ch :: fmt)).head?) :
    ¬IsDigit c := by
  cases hp : d.precision with
  | none => exact d.head_longs (by rwa [hp] at h)
  | some p =>
    rw [hp] at h
    cases h
    decide

theorem reswitch_width (d : Directive) (hf : f.width = -1 ∧ f.precision = -1) {fmt : List UInt8}
    (h : ∀ c ∈ fmt.head?, ¬IsDigit c) :
    reswitch k str after (d.width.elim [] Field.spell ++ fmt) f ap s =
      reswitch k str after fmt { f with width := d.width.elim (-1) (Field.value ap) } (d.afterWidth ap) s := by
  unfold Directive.afterWidth
  cases d.width with
  | none =>
    show reswitch k str after fmt f ap s = _
    rw [Option.elim_none, Option.elim_none, VaList.rest_zero, ← hf.1]
  | some p =>
    show reswitch k str after (p.spell ++ fmt) f ap s = _
    rw [reswitch_field k str p h, Flags.process, if_pos (by rw [hf.1]; decide), ← hf.2]
    rfl

/-- After a `.` the width is no longer negative, so that the field that follows is the precision. -/
theorem reswitch_precision (d : Directive) (hf : f.precision = -1) {fmt : List UInt8}
    (h : ∀ c ∈ fmt.head?, ¬IsDigit c) :
    reswitch k str after (d.precision.elim [] (fun p => 46 :: p.spell) ++ fmt) f (d.afterWidth ap) s =
      reswitch k str after fmt
        { f with
          width := d.precision.elim f.width fun _ => if f.width.toInt < 0 then 0 else f.width
          precision := d.precision.elim (-1) (Field.value (d.afterWidth ap)) } (d.afterFields ap) s := by
  unfold Directive.afterFields
  cases d.precision with
  | none =>
    show reswitch k str after fmt f (d.afterWidth ap) s = _
    rw [Option.elim_none, Option.elim_none, Option.elim_none, VaList.rest_zero, ← hf]
  | some p =>
    show reswitch k str after (46 :: (p.spell ++ fmt)) f (d.afterWidth ap) s = _
    have hdot : (if f.width.toInt < 0 then { f with width := 0 } else f) =
        { f with width := if f.width.toInt < 0 then 0 else f.width } := by
      split <;> rfl
    have hnonneg : ¬ (if f.width.toInt < 0 then 0 else f.width : CInt).toInt < 0 := by
      split
      · decide
      · assumption
    rw [reswitch_dot, hdot, reswitch_field k str p h, Flags.process, if_neg hnonneg]
    rfl

/-- The modifiers of a directive, all at once. -/
theorem reswitch_body (d : Directive) : reswitch k str after (d.body ++ fmt) {} ap s =
    reswitch k str after (d.ch :: fmt) (d.meant ap) (d.afterFields ap) s := by
  have hbody : d.body ++ fmt = d.flags.map Flag.ch ++ (d.width.elim [] Field.spell ++
      (d.precision.elim [] (fun p => 46 :: p.spell) ++ (List.replicate d.longs 108 ++ d.ch :: fmt))) := by
    simp only [Directive.body, List.append_assoc, List.singleton_append]
  rw [hbody, reswitch_flags, foldl_set, reswitch_width k str d ⟨rfl, rfl⟩ (fun c hc => d.head_fields hc),
    reswitch_precision k str d rfl (fun c hc => d.head_longs hc), reswitch_longs]
  have hsum : (0 : CInt) + BitVec.ofNat 32 d.longs = BitVec.ofNat 32 d.longs := BitVec.zero_add _
  simp only [Bool.false_or, hsum]
  rfl

/-! ## A whole format -/

/-- There is no other `%` in a directive that is not recognized. -/
theorem Directive.body_ne (d : Directive) (h : conv? d.ch = none) : ∀ b ∈ d.body, b ≠ 37 := by
  have hfield : ∀ p : Field, ∀ b ∈ p.spell, b ≠ 37 := by
    rintro p b hb rfl
    cases p with
    | number n hn =>
      obtain ⟨e, he, hbe⟩ := List.mem_map.1 hb
      have he := Nat.digits_lt_base (by decide) (List.mem_reverse.1 he)
      exact absurd (hbe ▸ isDigit_decimalDigit he) (by decide)
    | star => cases List.mem_singleton.1 hb
  rintro b hb rfl
  simp only [Directive.body, List.mem_append, List.mem_map, List.mem_replicate, List.mem_singleton] at hb
  rcases hb with (((⟨flag, -, hflag⟩ | hb) | hb) | ⟨-, hb⟩) | hb
  · cases flag <;> cases hflag
  · cases hw : d.width with
    | none => simp [hw] at hb
    | some p => exact hfield p 37 (by simpa [hw] using hb) rfl
  · cases hp : d.precision with
    | none => simp [hp] at hb
    | some p => exact hfield p 37 (by simpa [hp] using hb) rfl
  · cases hb
  · rw [← hb] at h
    cases h

theorem vprintfmt_literals {l : List UInt8} (h : ∀ b ∈ l, b ≠ 37) :
    vprintfmt k str (l ++ fmt) ap s = vprintfmt k str fmt ap (k.all (chars (l.map fun b => (b.toNat : Int))) s) := by
  induction l generalizing s with
  | nil => rfl
  | cons b l ih =>
    rw [List.cons_append, vprintfmt_literal k str (h b List.mem_cons_self),
      ih fun c hc => h c (List.mem_cons_of_mem b hc)]
    rfl

/-- A directive does what it means, and leaves what it leaves. -/
theorem vprintfmt_directive (d : Directive) : vprintfmt k str (37 :: (d.body ++ fmt)) ap s =
    vprintfmt k str fmt (d.rest ap) (k.all (d.events str ap) s) := by
  have hm := modifier_of_notMem d.last.2 fmt (d.meant ap) (d.afterFields ap)
  unfold Directive.rest Directive.events
  cases hv : conv? d.ch with
  | some v =>
    have hc : conversion k str d.ch (d.meant ap) (d.afterFields ap) s =
        some ((d.afterFields ap).rest (v.words (d.meant ap)), k.all
          (v.events str (d.meant ap) (d.afterFields ap)) s) := by
      rw [conversion_eq, hv, Option.map_some]
    rw [vprintfmt_escape, reswitch_body, reswitch_of_conversion k str hm hc]
  | none =>
    have hc : conversion k str d.ch (d.meant ap) (d.afterFields ap) s = none := by
      rw [conversion_eq, hv, Option.map_none]
    rw [vprintfmt_escape, reswitch_body, reswitch_of_unknown k str hm hc, vprintfmt_literals k str (d.body_ne hv)]
    rfl

/-- `vprintfmt` on the text of a format does what the pieces of the format mean. -/
theorem vprintfmt_spell (ps : List Piece) (ap : VaList) (s : σ) :
    vprintfmt k str (spell ps) ap s = k.all (render str ps ap) s := by
  induction ps generalizing ap s with
  | nil => exact vprintfmt_nil k str ap s
  | cons p ps ih =>
    unfold spell at ih ⊢
    cases p with
    | literal ch h =>
      show vprintfmt k str (ch :: ps.flatMap Piece.spell) ap s = _
      rw [vprintfmt_literal k str h.2, ih]
      rfl
    | directive d =>
      show vprintfmt k str (37 :: (d.body ++ ps.flatMap Piece.spell)) ap s = _
      rw [vprintfmt_directive, ih, ← Sink.all_append]
      rfl

theorem events_spell (ps : List Piece) (ap : VaList) : events str (spell ps) ap = render str ps ap := by
  rw [events, vprintfmt_spell, recorder_all, List.nil_append]

/-! ## Numbers are printed so that they can be read -/

/-- The value of a digit. -/
def digitValue (c : Int) : Nat := if c < 58 then (c - 48).toNat else (c - 87).toNat

theorem digitValue_digitChar {d : Nat} (h : d < 16) : digitValue (digitChar d) = d := by
  interval_cases d <;> rfl

/-- The digits of a number are read as the number. -/
theorem ofDigits_numeral (num : Nat) (base : Base) :
    Nat.ofDigits base.val ((numeral num base).reverse.map digitValue) = num := by
  have hdigits : ∀ l : List Nat, (∀ d ∈ l, d < base.val) → (l.map digitChar).map digitValue = l := by
    intro l hl
    rw [List.map_map]
    exact (List.map_congr_left fun d hd => digitValue_digitChar ((hl d hd).trans_le base.2.2)).trans (List.map_id l)
  unfold numeral
  simp only [List.map_reverse, List.reverse_reverse]
  split
  case isTrue h =>
    subst h
    rfl
  case isFalse h =>
    rw [hdigits _ fun d hd => Nat.digits_lt_base base.2.1 hd, Nat.ofDigits_digits]

/-- What `vprintfmt` does with a format is the same list of events for whatever it is given to print with; on a format
that is spelled from directives they are what the directives mean, each on the words that the ones before leave, and the
digits of a number that is printed are those of the number. -/
theorem vprintfmt_meaning (fmt : List UInt8) (ps : List Piece) (ap : VaList) (s : σ) :
    vprintfmt k str fmt ap s = k.all (events str fmt ap) s ∧ events str (spell ps) ap = render str ps ap ∧
      ∀ (num : Nat) (base : Base), Nat.ofDigits base.val ((numeral num base).reverse.map digitValue) = num :=
  ⟨vprintfmt_eq k str fmt ap s, events_spell str ps ap, ofDigits_numeral⟩

end Code

end Fos.Print
