/-
The text screen of `kern/cons/console.c`: `cga_putc` and the scrolling. What stands on the screen is a window of 25 rows
on a roll of paper without end, which is typed on and moved up by a row whenever the typing leaves the window.
-/
import Fos.Print.Cprintf

namespace Fos.Console

open Fos.Print

/-! ## The code -/

def crtCols : Nat := 80
def crtSize : Nat := 2000

abbrev Cells := Nat → BitVec 16

structure Crt where
  crtBuf : Cells
  crtPos : Nat
  textLength : Nat

/-- One word of `memcpy`, which copies four cells at once. -/
def copyWord (dst src : Nat) (cells : Cells) : Cells := fun i =>
  if dst ≤ i ∧ i < dst + 4 then cells (src + (i - dst)) else cells i

/-- `memcpy` of a number of words. -/
def memcpyWords (dst src n : Nat) (cells : Cells) : Cells :=
  (List.range n).foldl (fun cells j => copyWord (dst + 4 * j) (src + 4 * j) cells) cells

/-- `0x0700 | ' '`. -/
def blank : BitVec 16 := 0x0720

/-- The end of `cga_putc`: the screen moves up by a row when the position has left it. -/
def scroll (s : Crt) : Crt :=
  if crtSize ≤ s.crtPos then
    { s with
      crtBuf := (List.range' (crtSize - crtCols) crtCols).foldl (fun cells i => Function.update cells i blank)
        (memcpyWords 0 crtCols ((crtSize - crtCols) / 4) s.crtBuf)
      crtPos := s.crtPos - crtCols }
  else s

/-- A character with its attribute; one that has none takes the text color. -/
def attributed (color c : BitVec 32) : BitVec 32 :=
  if c &&& ~~~0xFF = 0 then c ||| (if color = 0 then 0x700 else color) else c

def keyLf : BitVec 32 := 0xE4
def keyRt : BitVec 32 := 0xE5

/-- `cga_putc`, where `tab` is what a tab does. -/
def cgaPutcWith (tab : Crt → Crt) (color ch : BitVec 32) (s : Crt) : Crt :=
  let c := attributed color ch
  scroll <| match (c &&& 0xFF).toNat with
    | 8 =>
      if 0 < s.crtPos then
        { s with
          crtPos := s.crtPos - 1
          crtBuf := Function.update s.crtBuf (s.crtPos - 1) ((c &&& ~~~0xFF) ||| 32).toNat }
      else s
    | 10 =>
      let crtPos := (s.crtPos + crtCols) % 65536
      { s with crtPos := crtPos - crtPos % crtCols, textLength := 0 }
    | 13 => { s with crtPos := s.crtPos - s.crtPos % crtCols }
    | 9 => tab s
    | 0xE4 => if 0 < s.crtPos then { s with crtPos := s.crtPos - 1 } else s
    | 0xE5 => if s.crtPos < crtSize then { s with crtPos := s.crtPos + 1 } else s
    | _ =>
      if c ≠ keyLf ∧ c ≠ keyRt then
        { s with
          crtBuf := Function.update s.crtBuf s.crtPos c.toNat
          crtPos := (s.crtPos + 1) % 65536
          textLength := if 1920 + s.textLength < (s.crtPos + 1) % 65536 then s.textLength + 1 else s.textLength }
      else s

/-- `cga_putc`; a tab is five blanks, through `cons_putc`. -/
def cgaPutc (color ch : BitVec 32) (s : Crt) : Crt :=
  cgaPutcWith (cgaPutcWith id color 32)^[5] color ch s

/-- The screen after the characters that the console was given. -/
def display (console : List (Int × Int)) (s : Crt) : Crt :=
  console.foldl (fun s e => cgaPutc (BitVec.ofInt 32 e.1) (BitVec.ofInt 32 e.2) s) s

/-! ## The roll -/

/-- A roll of paper, the place where the next character goes, and the first row of the window. -/
structure Roll where
  cells : Cells
  pos : Nat
  top : Nat

/-- The window moves when the place has left it. -/
def Roll.feed (r : Roll) : Roll := if 80 * (r.top + 25) ≤ r.pos then { r with top := r.top + 1 } else r

/-- A character is typed; nothing goes back behind the window. -/
def Roll.typeWith (tab : Roll → Roll) (color ch : BitVec 32) (r : Roll) : Roll :=
  let c := attributed color ch
  Roll.feed <| match (c &&& 0xFF).toNat with
    | 8 =>
      if 80 * r.top < r.pos then
        { r with pos := r.pos - 1, cells := Function.update r.cells (r.pos - 1) ((c &&& ~~~0xFF) ||| 32).toNat }
      else r
    | 10 => { r with pos := 80 * (r.pos / 80 + 1) }
    | 13 => { r with pos := 80 * (r.pos / 80) }
    | 9 => tab r
    | 0xE4 => if 80 * r.top < r.pos then { r with pos := r.pos - 1 } else r
    | 0xE5 => { r with pos := r.pos + 1 }
    | _ => { r with pos := r.pos + 1, cells := Function.update r.cells r.pos c.toNat }

/-- A character is typed; a tab is five blanks. -/
def Roll.type (color ch : BitVec 32) (r : Roll) : Roll :=
  r.typeWith (Roll.typeWith id color 32)^[5] color ch

/-- A text is typed. -/
def Roll.typeAll (console : List (Int × Int)) (r : Roll) : Roll :=
  console.foldl (fun r e => r.type (BitVec.ofInt 32 e.1) (BitVec.ofInt 32 e.2)) r

/-! ## Copies -/

theorem memcpyWords_eq {dst src : Nat} (h : dst + 4 ≤ src) (n : Nat) (cells : Cells) : memcpyWords dst src n cells =
    fun i => if dst ≤ i ∧ i < dst + 4 * n then cells (src + (i - dst)) else cells i := by
  induction n with
  | zero =>
    funext i
    rw [if_neg (by omega)]
    rfl
  | succ n ih =>
    have hstep : memcpyWords dst src (n + 1) cells = copyWord (dst + 4 * n) (src + 4 * n)
        (memcpyWords dst src n cells) := by
      unfold memcpyWords
      rw [List.range_succ, List.foldl_append]
      rfl
    rw [hstep, ih]
    funext i
    unfold copyWord
    simp only
    -- the words that are read are behind those that are written
    by_cases hi : dst + 4 * n ≤ i ∧ i < dst + 4 * n + 4
    · rw [if_pos hi, if_neg (by omega), if_pos (by omega)]
      congr 1
      omega
    · rw [if_neg hi]
      by_cases hlo : dst ≤ i ∧ i < dst + 4 * n
      · rw [if_pos hlo, if_pos (by omega)]
      · rw [if_neg hlo, if_neg (by omega)]

theorem foldl_update (v : BitVec 16) (a n : Nat) (cells : Cells) :
    (List.range' a n).foldl (fun cells i => Function.update cells i v) cells =
      fun i => if a ≤ i ∧ i < a + n then v else cells i := by
  induction n generalizing a cells with
  | zero =>
    funext i
    rw [if_neg (by omega)]
    rfl
  | succ n ih =>
    rw [List.range'_succ, List.foldl_cons, ih]
    funext i
    by_cases hi : i = a
    · subst hi
      rw [if_neg (by omega), Function.update_self, if_pos (by omega)]
    · rw [Function.update_of_ne hi]
      by_cases hin : a + 1 ≤ i ∧ i < a + 1 + n
      · rw [if_pos hin, if_pos (by omega)]
      · rw [if_neg hin, if_neg (by omega)]

/-! ## The screen shows the roll -/

/-- The screen is the window on a roll with nothing typed behind it, up to the scrolling; the memory behind the screen
is as it was. -/
structure Placed (beyond : Cells) (s : Crt) (r : Roll) : Prop where
  pos : r.pos = 80 * r.top + s.crtPos
  le : s.crtPos ≤ 2000
  window : ∀ i < 2000, s.crtBuf i = r.cells (80 * r.top + i)
  behind : ∀ j, 80 * (r.top + 25) ≤ j → r.cells j = blank
  beyond : ∀ i, 2000 ≤ i → s.crtBuf i = beyond i
  textLength : s.textLength ≤ 80

/-- The screen is the window on a roll, and the position is on the screen. -/
structure Shows (beyond : Cells) (s : Crt) (r : Roll) : Prop extends Placed beyond s r where
  lt : s.crtPos < 2000

theorem Placed.scroll {beyond : Cells} {s : Crt} {r : Roll} (h : Placed beyond s r) :
    Shows beyond (scroll s) r.feed := by
  have hpos := h.pos
  unfold Console.scroll Roll.feed crtSize crtCols
  by_cases hfull : 2000 ≤ s.crtPos
  · rw [if_pos hfull, if_pos (by omega), memcpyWords_eq (by decide), foldl_update]
    have hle := h.le
    refine ⟨⟨?_, ?_, ?_, ?_, ?_, h.textLength⟩, ?_⟩
    · show r.pos = 80 * (r.top + 1) + (s.crtPos - 80)
      omega
    · show s.crtPos - 80 ≤ 2000
      omega
    · rintro i hi
      simp only
      by_cases hlast : 2000 - 80 ≤ i
      · rw [if_pos ⟨hlast, by omega⟩, h.behind _ (by omega)]
      · rw [if_neg (by omega), if_pos (by omega), h.window _ (by omega)]
        congr 1
        omega
    · rintro j hj
      have hj : 80 * (r.top + 1 + 25) ≤ j := hj
      exact h.behind j (by omega)
    · rintro i hi
      simp only
      rw [if_neg (by omega), if_neg (by omega), h.beyond i hi]
    · show s.crtPos - 80 < 2000
      omega
  · rw [if_neg hfull, if_neg (by omega)]
    exact ⟨h, by omega⟩

theorem Placed.write {beyond : Cells} {s : Crt} {r : Roll} (h : Placed beyond s r) {i : Nat} (hi : i < 2000)
    (v : BitVec 16) : Placed beyond { s with crtBuf := Function.update s.crtBuf i v }
      { r with cells := Function.update r.cells (80 * r.top + i) v } where
  pos := h.pos
  le := h.le
  window j hj := by
    by_cases hji : j = i
    · subst hji
      simp only [Function.update_self]
    · simp only [Function.update_of_ne hji, Function.update_of_ne (show 80 * r.top + j ≠ 80 * r.top + i by omega)]
      exact h.window j hj
  behind j hj := by
    have hj : 80 * (r.top + 25) ≤ j := hj
    simp only [Function.update_of_ne (show j ≠ 80 * r.top + i by omega)]
    exact h.behind j hj
  beyond j hj := by
    simp only [Function.update_of_ne (show j ≠ i by omega)]
    exact h.beyond j hj
  textLength := h.textLength

theorem Placed.move {beyond : Cells} {s : Crt} {r : Roll} (h : Placed beyond s r) {p q n : Nat}
    (hp : q = 80 * r.top + p) (hle : p ≤ 2000) (hn : n ≤ 80) :
    Placed beyond { s with crtPos := p, textLength := n } { r with pos := q } :=
  { h with pos := hp, le := hle, textLength := hn }

/-- A character keeps the window on the roll, if what a tab does keeps it. -/
theorem Shows.putcWith {beyond : Cells} {s : Crt} {r : Roll} (h : Shows beyond s r) {tab : Crt → Crt}
    {tab' : Roll → Roll} (htab : Shows beyond (tab s) (tab' r)) (color ch : BitVec 32) :
    Shows beyond (cgaPutcWith tab color ch s) (r.typeWith tab' color ch) := by
  have hpos := h.pos
  have hlt := h.lt
  unfold cgaPutcWith Roll.typeWith
  simp only
  apply Placed.scroll
  generalize hc : attributed color ch = c
  split
  case h_1 =>
    by_cases h0 : 0 < s.crtPos
    · rw [if_pos h0, if_pos (by omega)]
      have hq : r.pos - 1 = 80 * r.top + (s.crtPos - 1) := by omega
      rw [hq]
      exact (h.write (by omega) _).move rfl (by omega) h.textLength
    · rw [if_neg h0, if_neg (by omega)]
      exact h.toPlaced
  case h_2 =>
    unfold crtCols
    exact h.move (by omega) (by omega) (by omega)
  case h_3 =>
    unfold crtCols
    exact h.move (by omega) (by omega) h.textLength
  case h_4 => exact htab.toPlaced
  case h_5 =>
    by_cases h0 : 0 < s.crtPos
    · rw [if_pos h0, if_pos (by omega)]
      exact h.move (by omega) (by omega) h.textLength
    · rw [if_neg h0, if_neg (by omega)]
      exact h.toPlaced
  case h_6 =>
    rw [if_pos (show s.crtPos < crtSize from hlt)]
    exact h.move (by omega) (by omega) h.textLength
  case h_7 _ hne5 hne6 =>
    have hkeys : c ≠ keyLf ∧ c ≠ keyRt := by
      constructor
      · rintro rfl
        exact hne5 rfl
      · rintro rfl
        exact hne6 rfl
    have htext := h.textLength
    rw [if_pos hkeys, Nat.mod_eq_of_lt (by omega), hpos]
    refine (h.write hlt _).move (Nat.add_assoc _ _ _) (by omega) ?_
    split <;> omega

theorem Shows.putc {beyond : Cells} {s : Crt} {r : Roll} (h : Shows beyond s r) (color ch : BitVec 32) :
    Shows beyond (cgaPutc color ch s) (r.type color ch) := by
  have hblanks : ∀ n, Shows beyond ((cgaPutcWith id color 32)^[n] s) ((Roll.typeWith id color 32)^[n] r) := by
    intro n
    induction n with
    | zero => exact h
    | succ n ih =>
      rw [Function.iterate_succ_apply', Function.iterate_succ_apply']
      exact ih.putcWith ih color 32
  exact h.putcWith (hblanks 5) color ch

/-- The invariant of a run. -/
theorem Shows.display {beyond : Cells} (console : List (Int × Int)) {s : Crt} {r : Roll} (h : Shows beyond s r) :
    Shows beyond (display console s) (r.typeAll console) := by
  induction console generalizing s r with
  | nil => exact h
  | cons e console ih => exact ih (h.putc _ _)

/-! ## Plain text on the roll -/

/-- A character, with its color, that is none of those which only move the place. -/
def Plain (e : Int × Int) : Prop :=
  (attributed (BitVec.ofInt 32 e.1) (BitVec.ofInt 32 e.2) &&& 0xFF).toNat ∉ [8, 9, 10, 13, 0xE4, 0xE5]

/-- What a character with its color leaves in a cell. -/
def cellOf (e : Int × Int) : BitVec 16 := (attributed (BitVec.ofInt 32 e.1) (BitVec.ofInt 32 e.2)).toNat

@[simp] theorem Roll.feed_pos (r : Roll) : r.feed.pos = r.pos := by
  unfold Roll.feed
  split <;> rfl

@[simp] theorem Roll.feed_cells (r : Roll) : r.feed.cells = r.cells := by
  unfold Roll.feed
  split <;> rfl

theorem Roll.type_plain {e : Int × Int} (h : Plain e) (r : Roll) :
    (r.type (BitVec.ofInt 32 e.1) (BitVec.ofInt 32 e.2)).pos = r.pos + 1 ∧
      (r.type (BitVec.ofInt 32 e.1) (BitVec.ofInt 32 e.2)).cells = Function.update r.cells r.pos (cellOf e) := by
  unfold Plain at h
  unfold Roll.type Roll.typeWith
  simp only [Roll.feed_pos, Roll.feed_cells]
  split
  case h_7 => exact ⟨rfl, rfl⟩
  all_goals
    rename_i hc
    rw [hc] at h
    exact absurd (by decide) h

theorem Roll.typeAll_plain {text : List (Int × Int)} (h : ∀ e ∈ text, Plain e) (r : Roll) :
    (r.typeAll text).pos = r.pos + text.length ∧
      ∀ j, (r.typeAll text).cells j =
        if r.pos ≤ j then (text[j - r.pos]?.map cellOf).getD (r.cells j) else r.cells j := by
  induction text generalizing r with
  | nil => exact ⟨rfl, fun j => by simp [Roll.typeAll]⟩
  | cons e text ih =>
    obtain ⟨hpos, hcells⟩ := Roll.type_plain (h e List.mem_cons_self) r
    obtain ⟨hpos', hcells'⟩ := ih (fun e he => h e (List.mem_cons_of_mem _ he))
      (r.type (BitVec.ofInt 32 e.1) (BitVec.ofInt 32 e.2))
    have hall : r.typeAll (e :: text) = (r.type (BitVec.ofInt 32 e.1) (BitVec.ofInt 32 e.2)).typeAll text := rfl
    refine ⟨by rw [hall, hpos', hpos, List.length_cons]; omega, fun j => ?_⟩
    rw [hall, hcells', hpos, hcells]
    rcases lt_trichotomy j r.pos with hj | rfl | hj
    · rw [if_neg (by omega), if_neg (by omega), Function.update_of_ne (by omega)]
    · rw [if_neg (by omega), if_pos le_rfl, Function.update_self, Nat.sub_self]
      rfl
    · obtain ⟨d, rfl⟩ : ∃ d, j = r.pos + 1 + d := ⟨j - (r.pos + 1), by omega⟩
      rw [if_pos (by omega), if_pos (by omega), Function.update_of_ne (by omega), Nat.add_sub_cancel_left,
        show r.pos + 1 + d - r.pos = d + 1 by omega, List.getElem?_cons_succ]

/-- The roll on which what stands on a screen has been typed. -/
def Roll.of (s : Crt) : Roll where
  cells := fun j => if j < 2000 then s.crtBuf j else blank
  pos := s.crtPos
  top := 0

theorem shows_of {s : Crt} (hpos : s.crtPos < 2000) (htext : s.textLength ≤ 80) :
    Shows s.crtBuf s (Roll.of s) where
  pos := by
    show s.crtPos = 80 * 0 + s.crtPos
    omega
  le := hpos.le
  window i hi := by
    show s.crtBuf i = if 80 * 0 + i < 2000 then s.crtBuf (80 * 0 + i) else blank
    rw [Nat.mul_zero, Nat.zero_add, if_pos hi]
  behind j hj := if_neg (by have : 80 * (0 + 25) ≤ j := hj; omega)
  beyond _ _ := rfl
  textLength := htext
  lt := hpos

/-- Whatever is printed, the screen is the window of 25 rows on the roll on which everything was typed, the position
stays on it, and the memory behind it is not written. -/
theorem display_window {s : Crt} (hpos : s.crtPos < 2000) (htext : s.textLength ≤ 80) (console : List (Int × Int)) :
    Shows s.crtBuf (display console s) ((Roll.of s).typeAll console) :=
  (shows_of hpos htext).display console

theorem display_window_corner : Shows (fun _ => blank)
    (display [(0, 65), (0, 10), (0, 66)] ⟨fun _ => blank, 1999, 0⟩)
    ((Roll.of ⟨fun _ => blank, 1999, 0⟩).typeAll [(0, 65), (0, 10), (0, 66)]) :=
  @display_window ⟨fun _ => blank, 1999, 0⟩ (by decide) (by decide) [(0, 65), (0, 10), (0, 66)]

/-- A text that a program prints without the name of its environment: on the roll it is after what was typed before, in
the color of the program, nothing else on the roll changes, and the screen is the window on the roll. -/
theorem cprintf_on_screen {boot : Crt} (hpos : boot.crtPos < 2000) (htext : boot.textLength ≤ 80) (c : Call)
    (fmt : List UInt8) (ap : VaList) (s : Program) (hquiet : .progName true ∉ events c.mem fmt ap)
    (hascii : Ascii (texts (events c.mem fmt ap)))
    (hplain : ∀ ch ∈ texts (events c.mem fmt ap), Plain (s.curTextClr, ch)) :
    ∃ r r' : Roll, r = (Roll.of boot).typeAll s.kernel.console ∧
      r' = (Roll.of boot).typeAll (c.cprintf (37 :: 126 :: fmt) ap s).2.kernel.console ∧
      Shows boot.crtBuf (display (c.cprintf (37 :: 126 :: fmt) ap s).2.kernel.console boot) r' ∧
      r'.pos = r.pos + (texts (events c.mem fmt ap)).length ∧
      (∀ k ch, (texts (events c.mem fmt ap))[k]? = some ch → r'.cells (r.pos + k) = cellOf (s.curTextClr, ch)) ∧
      ∀ j, j < r.pos ∨ r.pos + (texts (events c.mem fmt ap)).length ≤ j → r'.cells j = r.cells j := by
  have happ : ∀ r : Roll, ∀ l l' : List (Int × Int), r.typeAll (l ++ l') = (r.typeAll l).typeAll l' := fun r l l' =>
    List.foldl_append
  have htyped := @Roll.typeAll_plain ((texts (events c.mem fmt ap)).map (Prod.mk s.curTextClr)) (fun e he => by
    obtain ⟨ch, hch, rfl⟩ := List.mem_map.1 he
    exact hplain ch hch) ((Roll.of boot).typeAll s.kernel.console)
  rw [List.length_map, ← happ, ← c.cprintf_quiet fmt ap s hquiet hascii] at htyped
  refine ⟨_, _, rfl, rfl, (shows_of hpos htext).display _, htyped.1, ?_, ?_⟩
  · rintro k ch hk
    rw [htyped.2, if_pos (by omega), Nat.add_sub_cancel_left, List.getElem?_map, hk]
    rfl
  · rintro j (hj | hj)
    · rw [htyped.2, if_neg (by omega)]
    · rw [htyped.2, List.getElem?_eq_none (by rw [List.length_map]; omega)]
      split <;> rfl

theorem cprintf_on_screen_pid : ∃ r r' : Roll, r = (Roll.of ⟨fun _ => blank, 0, 0⟩).typeAll [] ∧
    r' = (Roll.of ⟨fun _ => blank, 0, 0⟩).typeAll
      (Call.initCall.cprintf (37 :: 126 :: bytes "pid %d") (args [42])
        ⟨false, 0, ⟨textDefaultClr, []⟩⟩).2.kernel.console ∧
    Shows (fun _ => blank) (display
      (Call.initCall.cprintf (37 :: 126 :: bytes "pid %d") (args [42])
        ⟨false, 0, ⟨textDefaultClr, []⟩⟩).2.kernel.console
      ⟨fun _ => blank, 0, 0⟩) r' ∧
    r'.pos = r.pos + (texts (events Call.initCall.mem (bytes "pid %d") (args [42]))).length ∧
    (∀ k ch, (texts (events Call.initCall.mem (bytes "pid %d") (args [42])))[k]? = some ch →
      r'.cells (r.pos + k) = cellOf (0, ch)) ∧
    ∀ j, j < r.pos ∨ r.pos + (texts (events Call.initCall.mem (bytes "pid %d") (args [42]))).length ≤ j →
      r'.cells j = r.cells j :=
  @cprintf_on_screen ⟨fun _ => blank, 0, 0⟩ (by decide) (by decide) Call.initCall (bytes "pid %d") (args [42])
    ⟨false, 0, ⟨textDefaultClr, []⟩⟩ Call.quiet_pid Call.ascii_pid (by
      rw [Call.events_pid, texts_chars]
      unfold Plain
      decide)

end Fos.Console
