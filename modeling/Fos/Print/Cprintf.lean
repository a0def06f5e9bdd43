/-
`cprintf` in the kernel (`kern/cons/printf.c`) and in a user program (`lib/printf.c`). The kernel gives each character
to the console. A program collects them in a buffer on its stack and has the kernel print the buffer, by `sys_cputs` of
`kern/trap/syscall.c`, whenever there are 255 of them and at the end.
-/
import Mathlib.Data.List.TakeWhile
import Fos.Lib.Chunks
import Fos.Print.Directives

namespace Fos.Print

open Fos.Lib Fos.Shared

/-! ## The kernel -/

/-- The characters that the console was given, each with the text color at that time. -/
structure Kernel where
  currentTextColor : Int
  console : List (Int × Int)

def textDefaultClr : Int := 0x700

def cputchar (c : Int) (s : Kernel) : Kernel := { s with console := s.console ++ [(s.currentTextColor, c)] }

/-- `putch` with its count. Nothing in the kernel reads its `printProgName`. -/
def kernelSink : Sink (Kernel × CInt) where
  putch ch s := (cputchar ch s.1, s.2 + 1)
  setProgName _ s := s

def Kernel.vcprintf (mem : Strings) (fmt : List UInt8) (ap : VaList) (s : Kernel) : CInt × Kernel :=
  let (s, cnt) := vprintfmt kernelSink mem fmt ap (s, 0)
  (cnt, s)

/-- The words that a call pushes. -/
def args (l : List (BitVec 32)) : VaList := fun i => l.getD i 0

/-- `cprintf`; no interrupt comes between its characters. -/
def Kernel.cprintf (mem : Strings) (fmt : String) (ap : VaList) (s : Kernel) : CInt × Kernel :=
  s.vcprintf mem (bytes fmt) ap

def Kernel.cprintfColored (textClr : Int) (mem : Strings) (fmt : String) (ap : VaList) (s : Kernel) : CInt × Kernel :=
  let (cnt, s) := Kernel.vcprintf mem (bytes fmt) ap { s with currentTextColor := textClr * 256 }
  (cnt, { s with currentTextColor := textDefaultClr })

/-- `sys_cputs`, for an environment with the name at `prog_name` and the number `env_id`. -/
def sysCputs (mem : Strings) (progName envId s len : BitVec 32) (printProgName : Bool) (color : Int) (k : Kernel) :
    Kernel :=
  let k := { k with currentTextColor := color }
  let k := if printProgName then (k.cprintf mem "[%s %d] " (args [progName, envId])).2 else k
  let k := (k.cprintf mem "%.*s" (args [len, s])).2
  { k with currentTextColor := textDefaultClr }

/-! ## A user program -/

/-- The globals that `lib/printf.c` uses, and the kernel. -/
structure Program where
  printProgName : Bool
  curTextClr : Int
  kernel : Kernel

/-- The `char` of an `int`. -/
def toChar (ch : Int) : UInt8 := UInt8.ofNat (ch % 256).toNat

/-- The bytes before the first `NUL`. -/
def upToNul (l : List UInt8) : CString := ⟨l.takeWhile (· ≠ 0), fun h => by simpa using List.mem_takeWhile_imp h⟩

/-- A call of `vcprintf`: the strings in memory, the environment that makes it, and the place of `b.buf` on its stack,
with what is there before and what comes after it. -/
structure Call where
  mem : Strings
  progName : BitVec 32
  envId : BitVec 32
  buf : BitVec 32
  stale : List UInt8
  beyond : List UInt8
  progName_ne : progName ≠ 0
  buf_ne : buf ≠ 0
  apart : progName ≠ buf
  length_stale : stale.length = 256

/-- `struct printbuf`. -/
structure Printbuf where
  idx : Nat
  cnt : CInt
  buf : List UInt8

namespace Call

variable (c : Call)

/-- The strings in memory while the buffer holds some bytes. -/
def view (buf : List UInt8) : Strings := Function.update c.mem c.buf (upToNul (buf ++ c.beyond))

/-- The system call for the characters in the buffer. -/
def cputs (b : Printbuf) (s : Program) : Program :=
  { s with
    kernel := sysCputs (c.view b.buf) c.progName c.envId c.buf
      (BitVec.ofNat 32 b.idx) s.printProgName s.curTextClr s.kernel }

/-- `putch`. -/
def putch (ch : Int) (s : Printbuf × Program) : Printbuf × Program :=
  let b : Printbuf := { s.1 with buf := s.1.buf.set s.1.idx (toChar ch), idx := s.1.idx + 1 }
  -- the last of the 256 places stays free
  let (b, p) := if b.idx = 256 - 1 then ({ b with idx := 0 }, c.cputs b s.2) else (b, s.2)
  ({ b with cnt := b.cnt + 1 }, p)

def sink : Sink (Printbuf × Program) where
  putch := c.putch
  setProgName b s := (s.1, { s.2 with printProgName := b })

/-- The buffer when a call begins. -/
def start : Printbuf := { idx := 0, cnt := 0, buf := c.stale }

def vcprintf (fmt : List UInt8) (ap : VaList) (s : Program) : CInt × Program :=
  let (b, s) := vprintfmt c.sink c.mem fmt ap (c.start, s)
  -- what is left in the buffer, also if it is empty
  (b.cnt, { c.cputs b s with printProgName := false })

def cprintf (fmt : List UInt8) (ap : VaList) (s : Program) : CInt × Program :=
  c.vcprintf fmt ap { s with printProgName := true }

def cprintfColored (textClr : Int) (fmt : List UInt8) (ap : VaList) (s : Program) : CInt × Program :=
  let (cnt, s) := c.vcprintf fmt ap { s with printProgName := true, curTextClr := textClr * 256 }
  (cnt, { s with curTextClr := textDefaultClr })

end Call

/-! ## What the kernel prints -/

/-- An event as an element of the buffer or a label for it. -/
def Event.item : Event → Int ⊕ Bool
  | .putch ch => .inl ch
  | .progName b => .inr b

/-- The characters of a list of events. -/
def texts (es : List Event) : List Int := elements (es.map Event.item)

@[simp] theorem texts_append (es es' : List Event) : texts (es ++ es') = texts es ++ texts es' := by
  unfold texts elements
  rw [List.map_append, List.filterMap_append]

@[simp] theorem texts_chars (l : List Int) : texts (chars l) = l := by
  induction l with
  | nil => rfl
  | cons c l ih => exact congrArg (c :: ·) ih

theorem add_ofNat_succ (n : CInt) (m : Nat) : n + 1 + BitVec.ofNat 32 m = n + BitVec.ofNat 32 (m + 1) := by
  rw [Nat.add_comm m 1, ← BitVec.ofNat_add_ofNat, ← BitVec.add_assoc]
  rfl

/-- The kernel shows the characters and counts them. -/
theorem kernelSink_all (es : List Event) (s : Kernel) (n : CInt) : kernelSink.all es (s, n) =
    ({ s with console := s.console ++ (texts es).map (Prod.mk s.currentTextColor) },
      n + BitVec.ofNat 32 (texts es).length) := by
  induction es generalizing s n with
  | nil => simp [texts, elements]
  | cons e es ih =>
    cases e with
    | putch ch =>
      show kernelSink.all es (cputchar ch s, n + 1) = _
      have htexts : texts (.putch ch :: es) = ch :: texts es := rfl
      rw [ih, htexts, List.length_cons]
      refine Prod.ext ?_ (add_ofNat_succ n _)
      simp [cputchar]
    | progName b => exact ih s n

theorem Kernel.vcprintf_eq (mem : Strings) (fmt : List UInt8) (ap : VaList) (s : Kernel) : s.vcprintf mem fmt ap =
    (BitVec.ofNat 32 (texts (events mem fmt ap)).length,
      { s with console := s.console ++ (texts (events mem fmt ap)).map (Prod.mk s.currentTextColor) }) := by
  unfold Kernel.vcprintf
  rw [vprintfmt_eq, kernelSink_all]
  exact Prod.ext (BitVec.zero_add _) rfl

/-! ## What a system call prints -/

/-- A directive without flags, width and length. -/
def plain (v : Conv) (precision : Option Field) (h : v.ch ∉ modifiers) : Piece :=
  .directive ⟨[], none, precision, 0, v.ch, by cases v <;> decide, h⟩

section Plain

variable {str : Strings} {v : Conv} {h : v.ch ∉ modifiers} {ps : List Piece} {ap : VaList}

theorem render_plain :
    render str (plain v none h :: ps) ap = v.events str {} ap ++ render str ps (ap.rest (v.words {})) := by
  have hd : render str (plain v none h :: ps) ap = _ ++ _ := rfl
  rw [hd]
  simp only [Directive.events, Directive.rest, Conv.conv?_ch, Directive.meant, Directive.afterFields,
    Directive.afterWidth, Option.elim_none, VaList.rest_zero]
  rfl

theorem render_star : render str (plain v (some .star) h :: ps) ap =
    v.events str { width := 0, precision := ap 0 } (ap.rest 1) ++
      render str ps ((ap.rest 1).rest (v.words { width := 0, precision := ap 0 })) := by
  have hd : render str (plain v (some .star) h :: ps) ap = _ ++ _ := rfl
  rw [hd]
  simp only [Directive.events, Directive.rest, Conv.conv?_ch, Directive.meant, Directive.afterFields,
    Directive.afterWidth, Option.elim_none, Option.elim_some, VaList.rest_zero]
  rfl

end Plain

/-- The name and the number of the environment. -/
def progPrefix (name : CString) (envId : BitVec 32) : List Int :=
  [91] ++ string name.bytes 32 (-1) (-1) false ++ [32] ++ signed envId.toInt (-1) 32 ++ [93, 32]

/-- Without a width there is no padding, for less than 2^31 characters. -/
theorem string_plain (p : List UInt8) (precision width : CInt) (h : -1 ≤ width.toInt ∧ width.toInt ≤ 0)
    (hlen : (shown p precision false).length < 2147483648) : string p 32 width precision false =
      (if precision.toInt < 0 then p else p.take precision.toInt.toNat).map signedChar := by
  have hpad : (width - BitVec.ofNat 32 (shown p precision false).length).toInt.toNat = 0 := by
    rw [toInt_sub_ofNat hlen (by omega)]
    omega
  unfold string widthLeft
  rw [if_neg (by omega), if_neg (by omega), hpad, List.replicate_zero, List.append_nil, List.nil_append]
  simp [shown]

/-- The name as it is, for a name that `prog_name` has room for. -/
theorem progPrefix_eq {name : CString} (h : name.bytes.length < 64) (envId : BitVec 32) : progPrefix name envId =
    [91] ++ name.bytes.map signedChar ++ [32] ++ signed envId.toInt (-1) 32 ++ [93, 32] := by
  have hlen := length_shown_le name.bytes (-1) false
  unfold progPrefix
  rw [string_plain _ _ _ (by decide) (by omega)]
  rfl

/-- What `sys_cputs` prints of the environment. -/
theorem events_prefix (mem : Strings) {progName : BitVec 32} (h : progName ≠ 0) (envId : BitVec 32) :
    events mem (bytes "[%s %d] ") (args [progName, envId]) = chars (progPrefix (mem progName) envId) := by
  have hspell : bytes "[%s %d] " = spell [.literal 91 (by decide), plain .s none (by decide), .literal 32 (by decide),
    plain .d none (by decide), .literal 93 (by decide), .literal 32 (by decide)] := by decide
  have hname : argString mem progName = (mem progName).bytes := if_neg h
  rw [hspell, events_spell]
  simp only [render, render_plain]
  show Event.putch 91 :: (chars (string (argString mem progName) 32 (-1) (-1) false) ++
    Event.putch 32 :: (chars (signed envId.toInt (-1) 32) ++ _)) = _
  rw [hname, progPrefix]
  simp only [chars_append, List.append_assoc]
  rfl

/-- A text with its length as the precision. -/
theorem events_text (mem : Strings) {s : BitVec 32} (h : s ≠ 0) {len : Nat} (hlen : len < 2147483648) :
    events mem (bytes "%.*s") (args [BitVec.ofNat 32 len, s]) = chars (((mem s).bytes.take len).map signedChar) := by
  have hspell : bytes "%.*s" = spell [plain .s (some .star) (by decide)] := by decide
  have hint : (BitVec.ofNat 32 len).toInt = len := toInt_ofNat_of_lt hlen
  have hshown : (shown (argString mem s) (BitVec.ofNat 32 len) false).length < 2147483648 := by
    unfold shown
    rw [hint, if_neg (by omega), List.length_map, Int.toNat_natCast]
    exact (List.length_take_le _ _).trans_lt hlen
  rw [hspell, events_spell, render_star]
  show chars (string (argString mem s) 32 0 (BitVec.ofNat 32 len) false) ++ [] = _
  rw [string_plain _ _ _ (by decide) hshown, hint, if_neg (by omega), argString, if_neg h, Int.toNat_natCast,
    List.append_nil]

/-- The kernel shows the name if it is asked for, and the text up to its `NUL` or its length. -/
theorem sysCputs_eq (mem : Strings) {progName s : BitVec 32} (hp : progName ≠ 0) (hs : s ≠ 0) (envId : BitVec 32)
    {len : Nat} (hlen : len < 2147483648) (flag : Bool) (color : Int) (k : Kernel) :
    sysCputs mem progName envId s (BitVec.ofNat 32 len) flag color k =
      { currentTextColor := textDefaultClr
        console := k.console ++ ((if flag then progPrefix (mem progName) envId else []) ++
          ((mem s).bytes.take len).map signedChar).map (Prod.mk color) } := by
  unfold sysCputs Kernel.cprintf
  cases flag <;>
    simp [Kernel.vcprintf_eq, events_prefix mem hp, events_text mem hs hlen]

/-! ## What a program prints -/

/-- The buffer holds some characters, and there is a place for one more before it is full. -/
structure Printbuf.Holds (b : Printbuf) (l : List Int) : Prop where
  length : b.buf.length = 256
  idx : b.idx = l.length
  room : l.length < 255
  take : b.buf.take l.length = l.map toChar

namespace Call

variable (c : Call) {b : Printbuf} {l : List Int} {s : Program}

/-- What the console shows of a system call with some characters. -/
def shown (text : List Int) (printProgName : Bool) : List Int :=
  (if printProgName then progPrefix (c.mem c.progName) c.envId else []) ++
    (upToNul (text.map toChar)).bytes.map signedChar

/-- A system call shows what the buffer holds. -/
theorem cputs_eq (hlen : b.buf.length = 256) (hidx : b.idx = l.length) (hl : l.length < 256)
    (htake : b.buf.take l.length = l.map toChar) : c.cputs b s =
      { s with
        kernel :=
          { currentTextColor := textDefaultClr
            console := s.kernel.console ++ (c.shown l s.printProgName).map (Prod.mk s.curTextClr) } } := by
  have hname : c.view b.buf c.progName = c.mem c.progName := Function.update_of_ne c.apart _ _
  have hbuf : c.view b.buf c.buf = upToNul (b.buf ++ c.beyond) := Function.update_self _ _ _
  have htext : (upToNul (b.buf ++ c.beyond)).bytes.take l.length = (upToNul (l.map toChar)).bytes := by
    show ((b.buf ++ c.beyond).takeWhile _).take l.length = (l.map toChar).takeWhile _
    rw [List.take_takeWhile, List.take_append_of_le_length (by omega), htake]
  unfold cputs
  rw [hidx, sysCputs_eq _ c.progName_ne c.buf_ne _ (by omega), hname, hbuf, htext]
  rfl

theorem holds_start : c.start.Holds [] := ⟨c.length_stale, rfl, by decide, rfl⟩

theorem take_set (h : b.Holds l) (ch : Int) :
    (b.buf.set b.idx (toChar ch)).take (l ++ [ch]).length = (l ++ [ch]).map toChar := by
  have hlt : l.length < b.buf.length := by have := h.length; have := h.room; omega
  rw [h.idx, List.length_append, List.length_singleton, List.take_add_one, List.take_set_of_le le_rfl, h.take,
    List.getElem?_set_self hlt, List.map_append]
  rfl

/-- A character for which there is room goes into the buffer. -/
theorem putch_of_room (h : b.Holds l) (hl : l.length + 1 ≠ 255) (ch : Int) :
    ∃ b', c.putch ch (b, s) = (b', s) ∧ b'.Holds (l ++ [ch]) ∧ b'.cnt = b.cnt + 1 := by
  have hidx := h.idx
  have hroom := h.room
  unfold putch
  simp only
  rw [if_neg (by omega)]
  refine ⟨_, rfl, ⟨?_, ?_, ?_, take_set h ch⟩, rfl⟩
  · show (b.buf.set _ _).length = 256
    rw [List.length_set, h.length]
  · show b.idx + 1 = _
    rw [hidx, List.length_append, List.length_singleton]
  · rw [List.length_append, List.length_singleton]
    omega

/-- The 255th character is handed over with those before it. -/
theorem putch_of_full (h : b.Holds l) (hl : l.length + 1 = 255) (ch : Int) :
    ∃ b', c.putch ch (b, s) = (b', { s with
        kernel :=
          { currentTextColor := textDefaultClr
            console := s.kernel.console ++ (c.shown (l ++ [ch]) s.printProgName).map (Prod.mk s.curTextClr) } }) ∧
      b'.Holds [] ∧ b'.cnt = b.cnt + 1 := by
  have hidx := h.idx
  have hlen : (b.buf.set b.idx (toChar ch)).length = 256 := by rw [List.length_set, h.length]
  unfold putch
  simp only
  rw [if_pos (by omega)]
  have hcputs := c.cputs_eq (s := s) (b := ⟨b.idx + 1, b.cnt, b.buf.set b.idx (toChar ch)⟩) (l := l ++ [ch]) hlen
    (by rw [List.length_append, List.length_singleton, hidx]) (by rw [List.length_append, List.length_singleton]; omega)
    (take_set h ch)
  refine ⟨_, Prod.ext rfl hcputs, ⟨hlen, rfl, by decide, rfl⟩, rfl⟩

/-- A run of `putch` and the system call at the end, from a buffer that holds some characters. -/
theorem sink_all (es : List Event) (h : b.Holds l) : ∃ b' s' l', c.sink.all es (b, s) = (b', s') ∧ b'.Holds l' ∧
    b'.cnt = b.cnt + BitVec.ofNat 32 (texts es).length ∧
    c.cputs b' s' =
      { printProgName := label s.printProgName (es.map Event.item)
        curTextClr := s.curTextClr
        kernel :=
          { currentTextColor := textDefaultClr
            console := s.kernel.console ++ ((chunks 255 s.printProgName l (es.map Event.item)).flatMap fun t =>
              c.shown t.1 t.2).map (Prod.mk s.curTextClr) } } := by
  induction es generalizing b s l with
  | nil =>
    refine ⟨b, s, l, rfl, h, (BitVec.add_zero _).symm, ?_⟩
    rw [c.cputs_eq h.length h.idx (by have := h.room; omega) h.take]
    simp [chunks, label]
  | cons e es ih =>
    cases e with
    | putch ch =>
      have htexts : texts (.putch ch :: es) = ch :: texts es := rfl
      have hstep : ∀ b' s', c.putch ch (b, s) = (b', s') →
          c.sink.all (.putch ch :: es) (b, s) = c.sink.all es (b', s') := fun b' s' h => by rw [← h]; rfl
      by_cases hl : l.length + 1 = 255
      · obtain ⟨b₁, hput, hholds, hcnt⟩ := c.putch_of_full (s := s) h hl ch
        obtain ⟨b', s', l', hall, hholds', hcnt', hcputs⟩ := ih (s := _) hholds
        refine ⟨b', s', l', by rw [hstep _ _ hput, hall], hholds', ?_, ?_⟩
        · rw [hcnt', hcnt, htexts, List.length_cons, add_ofNat_succ]
        · rw [hcputs, List.map_cons, Event.item, chunks, if_pos hl]
          simp [label]
      · obtain ⟨b₁, hput, hholds, hcnt⟩ := c.putch_of_room (s := s) h hl ch
        obtain ⟨b', s', l', hall, hholds', hcnt', hcputs⟩ := ih (s := s) hholds
        refine ⟨b', s', l', by rw [hstep _ _ hput, hall], hholds', ?_, ?_⟩
        · rw [hcnt', hcnt, htexts, List.length_cons, add_ofNat_succ]
        · rw [hcputs, List.map_cons, Event.item, chunks, if_neg hl]
          simp [label]
    | progName f =>
      obtain ⟨b', s', l', hall, hholds', hcnt, hcputs⟩ := ih (s := { s with printProgName := f }) h
      exact ⟨b', s', l', hall, hholds', hcnt, hcputs⟩

theorem vcprintf_eq (fmt : List UInt8) (ap : VaList) (s : Program) : c.vcprintf fmt ap s =
    (BitVec.ofNat 32 (texts (events c.mem fmt ap)).length,
      { printProgName := false
        curTextClr := s.curTextClr
        kernel :=
          { currentTextColor := textDefaultClr
            console := s.kernel.console ++
              ((chunks 255 s.printProgName [] ((events c.mem fmt ap).map Event.item)).flatMap fun t =>
                c.shown t.1 t.2).map (Prod.mk s.curTextClr) } }) := by
  obtain ⟨b', s', l', hall, -, hcnt, hcputs⟩ := c.sink_all (s := s) (events c.mem fmt ap) c.holds_start
  unfold vcprintf
  rw [vprintfmt_eq, hall]
  simp only [hcputs, hcnt]
  exact Prod.ext (BitVec.zero_add _) rfl

/-- What a program's `vcprintf` has the kernel print. The characters of the format are handed over in their order, by
system calls for 255 of them each and one for the rest, so that a text that is shorter is printed by one call. Each call
shows the name of the environment before its characters if the last `%~`, `%@` or caller asked for it, up to the
character that filled the buffer or, for the last call, to the end of the format; and then the characters before the
first `NUL` among them. The result is the number of characters, and the buffer always has a place for the next one. -/
theorem vcprintf_prints (fmt : List UInt8) (ap : VaList) (s : Program) :
    ∃ calls : List (List Int × Bool),
      (c.vcprintf fmt ap s).2.kernel.console =
        s.kernel.console ++ (calls.flatMap fun t => c.shown t.1 t.2).map (Prod.mk s.curTextClr) ∧
      calls.flatMap Prod.fst = texts (events c.mem fmt ap) ∧
      (∃ full last, calls = full ++ [last] ∧ (∀ t ∈ full, t.1.length = 255) ∧ last.1.length < 255) ∧
      (∀ before t after, calls = before ++ t :: after → ∃ es es', events c.mem fmt ap = es ++ es' ∧
        (before ++ [t]).flatMap Prod.fst = texts es ∧ t.2 = label s.printProgName (es.map Event.item) ∧
        (after = [] → es' = []) ∧ (after ≠ [] → ∃ es₀ ch, es = es₀ ++ [.putch ch])) ∧
      ((texts (events c.mem fmt ap)).length < 255 →
        calls = [(texts (events c.mem fmt ap), label s.printProgName ((events c.mem fmt ap).map Event.item))]) ∧
      (c.vcprintf fmt ap s).1 = BitVec.ofNat 32 (texts (events c.mem fmt ap)).length ∧
      (c.vcprintf fmt ap s).2.printProgName = false ∧
      ∀ es, es <+: events c.mem fmt ap → (c.sink.all es (c.start, s)).1.idx < 255 ∧
        (c.sink.all es (c.start, s)).1.buf.length = 256 := by
  refine ⟨chunks 255 s.printProgName [] ((events c.mem fmt ap).map Event.item), ?_, ?_, ?_, ?_, ?_, ?_, ?_, ?_⟩
  · rw [vcprintf_eq]
  · rw [flatMap_chunks, List.nil_append, texts]
  · exact chunks_eq_append (by decide)
  · rintro before t after h
    obtain ⟨is, is', hsplit, hflat, hlabel, hlast, hfull⟩ := label_of_chunks h
    obtain ⟨es, es', hes, rfl, rfl⟩ := List.map_eq_append_iff.1 hsplit
    refine ⟨es, es', hes, hflat.symm, hlabel, fun hnil => List.map_eq_nil_iff.1 (hlast hnil), fun hne => ?_⟩
    obtain ⟨is₀, ch, hend⟩ := hfull hne
    obtain ⟨es₀, es₁, rfl, -, hone⟩ := List.map_eq_append_iff.1 hend
    obtain ⟨e, rfl, he⟩ := List.map_eq_singleton_iff.1 hone
    cases e with
    | putch ch' => exact ⟨es₀, ch', rfl⟩
    | progName f => cases he
  · rintro h
    rw [chunks_of_lt (by simpa [texts] using h), List.nil_append, texts]
  · rw [vcprintf_eq]
  · rw [vcprintf_eq]
  · rintro es -
    obtain ⟨b', s', l', hall, hholds, -, -⟩ := c.sink_all (s := s) es c.holds_start
    rw [hall]
    exact ⟨hholds.idx ▸ hholds.room, hholds.length⟩

end Call

/-! ## The same text in the kernel and in a program -/

/-- The characters that `putch` of a program and `cputchar` take alike. -/
def Ascii (l : List Int) : Prop := ∀ ch ∈ l, 0 < ch ∧ ch < 128

theorem toChar_ascii {ch : Int} (h : 0 < ch ∧ ch < 128) : toChar ch ≠ 0 ∧ signedChar (toChar ch) = ch := by
  obtain ⟨n, rfl⟩ := Int.eq_ofNat_of_zero_le h.1.le
  have h0 : 0 < n := by have := h.1; omega
  have h1 : n < 128 := by have := h.2; omega
  interval_cases n <;> decide

/-- The characters of ASCII are not changed on their way through the buffer. -/
theorem upToNul_ascii {l : List Int} (h : Ascii l) : (upToNul (l.map toChar)).bytes.map signedChar = l := by
  have hall : (l.map toChar).takeWhile (· ≠ 0) = l.map toChar :=
    List.takeWhile_eq_self_iff.2 fun b hb => by
      obtain ⟨ch, hch, rfl⟩ := List.mem_map.1 hb
      exact decide_eq_true (toChar_ascii (h ch hch)).1
  show ((l.map toChar).takeWhile (· ≠ 0)).map signedChar = l
  rw [hall, List.map_map]
  exact (List.map_congr_left fun ch hch => (toChar_ascii (h ch hch)).2).trans (List.map_id l)

/-- A `%~` at the beginning turns the name off. -/
theorem events_tilde (mem : Strings) (fmt : List UInt8) (ap : VaList) :
    events mem (37 :: 126 :: fmt) ap = .progName false :: events mem fmt ap := by
  have hspell : (37 :: 126 :: fmt : List UInt8) =
    37 :: ((⟨[], none, none, 0, 126, by decide⟩ : Directive).body ++ fmt) := rfl
  have hconv : conv? 126 = some .tilde := rfl
  rw [events, hspell, vprintfmt_directive, vprintfmt_eq, recorder_all]
  simp only [Directive.rest, Directive.afterFields, Directive.afterWidth, Option.elim_none, VaList.rest_zero, hconv,
    Conv.words]
  rfl

namespace Call

variable (c : Call)

/-- Without the name of the environment, the characters of ASCII come to the console as they are. -/
theorem cprintf_quiet (fmt : List UInt8) (ap : VaList) (s : Program) (hquiet : .progName true ∉ events c.mem fmt ap)
    (hascii : Ascii (texts (events c.mem fmt ap))) :
    (c.cprintf (37 :: 126 :: fmt) ap s).2.kernel.console =
      s.kernel.console ++ (texts (events c.mem fmt ap)).map (Prod.mk s.curTextClr) := by
  have hshown : ∀ t ∈ chunks 255 false [] ((events c.mem fmt ap).map Event.item), c.shown t.1 t.2 = t.1 := by
    rintro t ht
    have hoff : t.2 = false := by
      rcases label_of_mem_chunks ht with h | h
      · exact h
      · obtain ⟨e, he, hitem⟩ := List.mem_map.1 h
        cases e with
        | putch ch => cases hitem
        | progName f =>
          cases hitem
          cases hf : t.2 with
          | false => rfl
          | true => exact absurd (hf ▸ he) hquiet
    have hmem : Ascii t.1 := by
      intro ch hch
      apply hascii ch
      have hflat : (chunks 255 false [] ((events c.mem fmt ap).map Event.item)).flatMap Prod.fst =
        [] ++ texts (events c.mem fmt ap) := flatMap_chunks
      rw [List.nil_append] at hflat
      rw [← hflat]
      exact List.mem_flatMap.2 ⟨t, ht, hch⟩
    unfold shown
    rw [hoff, upToNul_ascii hmem]
    rfl
  unfold cprintf
  rw [vcprintf_eq, events_tilde]
  show s.kernel.console ++ ((chunks 255 false [] ((events c.mem fmt ap).map Event.item)).flatMap fun t =>
    c.shown t.1 t.2).map (Prod.mk s.curTextClr) = _
  rw [List.flatMap_congr hshown, flatMap_chunks, List.nil_append]
  rfl

/-- A program's `cprintf` with a format that begins with `%~`, and that prints no other characters than those of ASCII
and does not ask for the name again, gives the console what the kernel's `cprintf` does with the rest of the format. -/
theorem cprintf_eq_kernel (fmt : List UInt8) (ap : VaList) (s : Program)
    (hquiet : .progName true ∉ events c.mem fmt ap) (hascii : Ascii (texts (events c.mem fmt ap))) :
    (c.cprintf (37 :: 126 :: fmt) ap s).2.kernel.console =
        (Kernel.vcprintf c.mem fmt ap { s.kernel with currentTextColor := s.curTextClr }).2.console ∧
      (c.cprintf (37 :: 126 :: fmt) ap s).1 =
        (Kernel.vcprintf c.mem fmt ap { s.kernel with currentTextColor := s.curTextClr }).1 := by
  have htexts : texts (.progName false :: events c.mem fmt ap) = texts (events c.mem fmt ap) := rfl
  rw [c.cprintf_quiet fmt ap s hquiet hascii, Kernel.vcprintf_eq]
  refine ⟨rfl, ?_⟩
  unfold cprintf
  rw [vcprintf_eq, events_tilde, htexts]

/-- A call of the environment `7`, whose name is `init`. -/
def initCall : Call where
  mem a := if a = 1 then ⟨bytes "init", by decide⟩ else ⟨[], by decide⟩
  progName := 1
  envId := 7
  buf := 2
  stale := List.replicate 256 0
  beyond := []
  progName_ne := by decide
  buf_ne := by decide
  apart := by decide
  length_stale := List.length_replicate

theorem events_pid :
    events initCall.mem (bytes "pid %d") (args [42]) = chars [112, 105, 100, 32, 52, 50] := by
  have hspell : bytes "pid %d" = spell [.literal 112 (by decide), .literal 105 (by decide), .literal 100 (by decide),
    .literal 32 (by decide), plain .d none (by decide)] := by decide
  have hnum : signed 42 (-1) 32 = [52, 50] := by
    simp [signed, number, numeral, digitChar, base10]
  rw [hspell, events_spell]
  simp only [render, render_plain]
  show Event.putch 112 :: .putch 105 :: .putch 100 :: .putch 32 :: (chars (signed 42 (-1) 32) ++ []) = _
  rw [hnum]
  rfl

theorem quiet_pid : .progName true ∉ events initCall.mem (bytes "pid %d") (args [42]) := by
  rw [events_pid]
  decide

theorem ascii_pid : Ascii (texts (events initCall.mem (bytes "pid %d") (args [42]))) := by
  rw [events_pid, texts_chars]
  unfold Ascii
  decide

theorem cprintf_eq_kernel_pid :
    (initCall.cprintf (37 :: 126 :: bytes "pid %d") (args [42]) ⟨false, 0, ⟨textDefaultClr, []⟩⟩).2.kernel.console =
        (Kernel.vcprintf initCall.mem (bytes "pid %d") (args [42]) ⟨0, []⟩).2.console ∧
      (initCall.cprintf (37 :: 126 :: bytes "pid %d") (args [42]) ⟨false, 0, ⟨textDefaultClr, []⟩⟩).1 =
        (Kernel.vcprintf initCall.mem (bytes "pid %d") (args [42]) ⟨0, []⟩).1 :=
  cprintf_eq_kernel initCall (bytes "pid %d") (args [42]) ⟨false, 0, ⟨textDefaultClr, []⟩⟩ quiet_pid ascii_pid

end Call

end Fos.Print
