/-
The keyboard driver of `kern/cons/console.c`: `kbd_proc_data` takes the bytes of the keyboard one by one, keeps in
`shift` which modifiers are held and which locks are on, and gives the characters that `cons_intr` puts into the input
buffer. The bytes stand for keys that are pressed and released: what the driver knows after any bytes is what their
history says.
-/
import Fos.Console.InputBuffer
import Fos.Console.Screen

namespace Fos.Console

open Fos.Lib

/-! ## The code -/

def shiftBit : BitVec 32 := 1 <<< 0
def ctlBit : BitVec 32 := 1 <<< 1
def altBit : BitVec 32 := 1 <<< 2
def capsLock : BitVec 32 := 1 <<< 3
def numLock : BitVec 32 := 1 <<< 4
def scrollLock : BitVec 32 := 1 <<< 5
def e0Esc : BitVec 32 := 1 <<< 6

def shiftcode (k : UInt8) : BitVec 32 :=
  if k = 0x1D then ctlBit
  else if k = 0x2A then shiftBit
  else if k = 0x36 then shiftBit
  else if k = 0x38 then altBit
  else if k = 0x9D then ctlBit
  else if k = 0xB8 then altBit
  else 0

def togglecode (k : UInt8) : BitVec 32 :=
  if k = 0x3A then capsLock else if k = 0x45 then numLock else if k = 0x46 then scrollLock else 0

def keyDel : UInt8 := 0xE9

/-- The keys of the tables from 0x80 on: with the escape byte. -/
def escapedKeys : List (UInt8 × UInt8) :=
  [(0x97, 0xE0), (0xC8, 0xE2), (0xC9, 0xE6), (0xCB, 0xE4), (0xCD, 0xE5), (0xCF, 0xE1), (0xD0, 0xE3), (0xD1, 0xE7),
    (0xD2, 0xE8), (0xD3, keyDel)]

/-- A table from its first characters and its other keys; `NO` is 0. -/
def tableOf (chars : List Char) (others : List (UInt8 × UInt8)) (k : UInt8) : UInt8 :=
  match chars[k.toNat]? with
  | some c => c.toNat.toUInt8
  | none => (others.lookup k).getD 0

/-- The keypad, from 0x47 on. -/
def keypad : List Char := ['7', '8', '9', '-', '4', '5', '6', '+', '1', '2', '3', '0', '.']

def normalmap : UInt8 → UInt8 :=
  tableOf (['\x00', '\x1b', '1', '2', '3', '4', '5', '6', '7', '8', '9', '0', '-', '=', '\x08', '\t',
    'q', 'w', 'e', 'r', 't', 'y', 'u', 'i', 'o', 'p', '[', ']', '\n', '\x00', 'a', 's',
    'd', 'f', 'g', 'h', 'j', 'k', 'l', ';', '\x27', '\x60', '\x00', '\x5c', 'z', 'x', 'c', 'v',
    'b', 'n', 'm', ',', '.', '/', '\x00', '*', '\x00', ' '] ++ List.replicate 13 '\x00' ++ keypad)
    ([(0x9C, 10), (0xB5, 47)] ++ escapedKeys)

def shiftmap : UInt8 → UInt8 :=
  tableOf (['\x00', '\x1b', '!', '@', '#', '$', '%', '^', '&', '*', '(', ')', '_', '+', '\x08', '\t',
    'Q', 'W', 'E', 'R', 'T', 'Y', 'U', 'I', 'O', 'P', '\x7b', '\x7d', '\n', '\x00', 'A', 'S',
    'D', 'F', 'G', 'H', 'J', 'K', 'L', ':', '\x22', '~', '\x00', '|', 'Z', 'X', 'C', 'V',
    'B', 'N', 'M', '<', '>', '?', '\x00', '*', '\x00', ' '] ++ List.replicate 13 '\x00' ++ keypad)
    ([(0x9C, 10), (0xB5, 47)] ++ escapedKeys)

/-- `C(x)`. -/
def ctlChar (c : Char) : UInt8 := c.toNat.toUInt8 - 64

def ctlmap (k : UInt8) : UInt8 :=
  let letters : List Char := ['Q', 'W', 'E', 'R', 'T', 'Y', 'U', 'I', 'O', 'P']
  let home : List Char := ['A', 'S', 'D', 'F', 'G', 'H', 'J', 'K', 'L']
  let bottom : List Char := ['\x5c', 'Z', 'X', 'C', 'V', 'B', 'N', 'M']
  let chars : List UInt8 := List.replicate 16 0 ++ letters.map ctlChar ++ [0, 0, 13, 0] ++ home.map ctlChar ++
    List.replicate 4 0 ++ bottom.map ctlChar ++ [0, 0, ctlChar '/', 0, 0]
  match chars[k.toNat]? with
  | some c => c
  | none => (([(0x39, 0xFF), (0xB5, ctlChar '/')] ++ escapedKeys).lookup k).getD 0

/-- The table `charcode`. -/
def charcode (i : BitVec 32) : UInt8 → UInt8 :=
  match i.toNat with
  | 0 => normalmap
  | 1 => shiftmap
  | _ => ctlmap

/-- The variable `shift`, the screen, and whether the machine was told to reboot. -/
structure Keyboard where
  shift : BitVec 32
  crt : Crt
  rebooted : Bool

/-- What DEL does to the screen: the rest of the line moves to the left, up to five cells beyond its length. -/
def deleteCell (s : Crt) : Crt :=
  let textLength := s.textLength - 1
  let rounds := ((textLength : Int) - (s.crtPos - 1925) + 1).toNat
  { s with
    textLength := textLength
    crtBuf := (List.range' s.crtPos rounds).foldl (fun cells i => Function.update cells i (cells (i + 1))) s.crtBuf }

/-- `kbd_proc_data` from the tables on, for a key that is pressed. -/
def keyPressed (data : UInt8) (s : Keyboard) : UInt8 × Keyboard :=
  let shift := (s.shift ||| shiftcode data) ^^^ togglecode data
  let s := { s with shift := shift }
  let c := charcode (shift &&& (ctlBit ||| shiftBit)) data
  if c = keyDel then
    if 0 < s.crt.textLength then
      if s.crt.crtPos = 1920 + s.crt.textLength then (0, s) else (c, { s with crt := deleteCell s.crt })
    else (0, s)
  else
    let c :=
      if shift &&& capsLock ≠ 0 then
        if 97 ≤ c ∧ c ≤ 122 then c - 32 else if 65 ≤ c ∧ c ≤ 90 then c + 32 else c
      else c
    if shift = numLock ∧ 48 ≤ c ∧ c ≤ 57 then (0, s)
    else if c = 255 then (0, s)
    else if ~~~shift &&& (ctlBit ||| altBit) = 0 ∧ c = keyDel then (c, { s with rebooted := true })
    else (c, s)

/-- `kbd_proc_data` for a byte of the keyboard. Without one it gives -1. -/
def kbdProcData (data : UInt8) (s : Keyboard) : UInt8 × Keyboard :=
  if data = 0xE0 then (0, { s with shift := s.shift ||| e0Esc })
  else if data &&& 0x80 ≠ 0 then
    let data := if s.shift &&& e0Esc ≠ 0 then data else data &&& 0x7F
    (0, { s with shift := s.shift &&& ~~~(shiftcode data ||| e0Esc) })
  else if s.shift &&& e0Esc ≠ 0 then keyPressed (data ||| 0x80) { s with shift := s.shift &&& ~~~e0Esc }
  else keyPressed data s

/-- `kbd_intr`: `cons_intr` until the keyboard has no byte left. -/
def kbdIntr : List UInt8 → Keyboard → Cons → Keyboard × Cons
  | [], s, cons => (s, cons)
  | data :: bytes, s, cons =>
    let (c, s) := kbdProcData data s
    kbdIntr bytes s (consPut c cons)

/-! ## The history of the keys -/

/-- A key is numbered as in the tables. -/
inductive KeyEvent where
  | press (k : UInt8)
  | release (k : UInt8)
  deriving DecidableEq

/-- The bytes that the keyboard sends. -/
def KeyEvent.bytes : KeyEvent → List UInt8
  | .press k => if k < 0x80 then [k] else [0xE0, k &&& 0x7F]
  | .release k => if k < 0x80 then [k ||| 0x80] else [0xE0, k]

/-- No key has the number that would be sent as the escape byte. -/
def KeyEvent.Real : KeyEvent → Prop
  | .press _ => True
  | .release k => k ≠ 0x60 ∧ k ≠ 0xE0

/-- The event that a byte ends, after the escape byte or not. -/
def eventOf (escaped : Bool) (data : UInt8) : Option KeyEvent :=
  if data = 0xE0 then none
  else if data &&& 0x80 ≠ 0 then some (.release (if escaped then data else data &&& 0x7F))
  else some (.press (if escaped then data ||| 0x80 else data))

/-- What the keyboard has sent, the last byte first, each with the screen at the time. -/
abbrev Sent := List (UInt8 × Crt)

def Sent.escaped : Sent → Bool
  | [] => false
  | (data, _) :: _ => data = 0xE0

/-- The keys pressed and released, the last one first. -/
def Sent.events : Sent → List (KeyEvent × Crt)
  | [] => []
  | (data, crt) :: sent =>
    match eventOf (Sent.escaped sent) data with
    | some e => (e, crt) :: Sent.events sent
    | none => Sent.events sent

/-- The last event of one of the keys is that it was pressed. -/
def held (keys : List UInt8) : List (KeyEvent × Crt) → Bool
  | [] => false
  | (.press k, _) :: h => if k ∈ keys then true else held keys h
  | (.release k, _) :: h => if k ∈ keys then false else held keys h

/-- The key was pressed an odd number of times. -/
def locked (key : UInt8) : List (KeyEvent × Crt) → Bool
  | [] => false
  | (.press k, _) :: h => if k = key then !locked key h else locked key h
  | (.release _, _) :: h => locked key h

/-- The modifiers that are held and the locks that are on. -/
structure Board where
  shift : Bool
  ctl : Bool
  alt : Bool
  caps : Bool
  num : Bool
  scroll : Bool
  deriving DecidableEq

def boardOf (h : List (KeyEvent × Crt)) : Board where
  shift := held [0x2A, 0x36] h
  ctl := held [0x1D, 0x9D] h
  alt := held [0x38, 0xB8] h
  caps := locked 0x3A h
  num := locked 0x45 h
  scroll := locked 0x46 h

def swapCase (c : UInt8) : UInt8 :=
  if 97 ≤ c ∧ c ≤ 122 then c - 32 else if 65 ≤ c ∧ c ≤ 90 then c + 32 else c

/-- The character of a key, 0 for none: by the table of the modifiers, with the letters of the caps lock. The digits are
lost while the num lock alone is on, and DEL has one only where it deletes. -/
def Board.charOf (b : Board) (crt : Crt) (k : UInt8) : UInt8 :=
  let c := if b.ctl then ctlmap k else if b.shift then shiftmap k else normalmap k
  if c = keyDel then
    if 0 < crt.textLength ∧ crt.crtPos ≠ 1920 + crt.textLength then keyDel else 0
  else
    let c := if b.caps then swapCase c else c
    if b = ⟨false, false, false, false, true, false⟩ ∧ 48 ≤ c ∧ c ≤ 57 then 0
    else if c = 255 then 0
    else c

/-- The characters of the keys, in the order in which they were pressed. -/
def typed : List (KeyEvent × Crt) → List UInt8
  | [] => []
  | (.press k, crt) :: h =>
    let c := (boardOf ((.press k, crt) :: h)).charOf crt k
    typed h ++ if c = 0 then [] else [c]
  | (.release _, _) :: h => typed h

/-! ## The word of the modifiers -/

def bitIf (b : Bool) (bit : BitVec 32) : BitVec 32 := if b then bit else 0

def Board.word (b : Board) (escaped : Bool) : BitVec 32 :=
  bitIf b.shift shiftBit ||| bitIf b.ctl ctlBit ||| bitIf b.alt altBit ||| bitIf b.caps capsLock |||
    bitIf b.num numLock ||| bitIf b.scroll scrollLock ||| bitIf escaped e0Esc

def Board.press (b : Board) (k : UInt8) : Board where
  shift := if k ∈ [0x2A, 0x36] then true else b.shift
  ctl := if k ∈ [0x1D, 0x9D] then true else b.ctl
  alt := if k ∈ [0x38, 0xB8] then true else b.alt
  caps := if k = 0x3A then !b.caps else b.caps
  num := if k = 0x45 then !b.num else b.num
  scroll := if k = 0x46 then !b.scroll else b.scroll

def Board.release (b : Board) (k : UInt8) : Board :=
  { b with
    shift := if k ∈ [0x2A, 0x36] then false else b.shift
    ctl := if k ∈ [0x1D, 0x9D] then false else b.ctl
    alt := if k ∈ [0x38, 0xB8] then false else b.alt }

section Word

variable (b : Board) {escaped : Bool} {k : UInt8}

/-- A key of the tables of modifiers and locks, or one that they do not have. -/
theorem key_cases (k : UInt8) : k ∈ [0x1D, 0x2A, 0x36, 0x38, 0x9D, 0xB8, 0x3A, 0x45, 0x46] ∨
    shiftcode k = 0 ∧ togglecode k = 0 ∧ (∀ b : Board, b.press k = b) ∧ ∀ b : Board, b.release k = b := by
  by_cases hk : k ∈ [0x1D, 0x2A, 0x36, 0x38, 0x9D, 0xB8, 0x3A, 0x45, 0x46]
  · exact .inl hk
  · right
    simp only [List.mem_cons, List.not_mem_nil, or_false, not_or] at hk
    obtain ⟨h1, h2, h3, h4, h5, h6, h7, h8, h9⟩ := hk
    refine ⟨?_, ?_, fun b => ?_, fun b => ?_⟩
    · simp [shiftcode, h1, h2, h3, h4, h5, h6]
    · simp [togglecode, h7, h8, h9]
    · simp [Board.press, h1, h2, h3, h4, h5, h6, h7, h8, h9]
    · simp [Board.release, h1, h2, h3, h4, h5, h6]

/-- What holds of all modifiers and locks can be tried out. -/
theorem Board.forall_of {P : Board → Prop}
    (h : ∀ shift ctl alt caps num scroll : Bool, P ⟨shift, ctl, alt, caps, num, scroll⟩)
    (b : Board) : P b := h b.shift b.ctl b.alt b.caps b.num b.scroll

theorem word_press : (b.word false ||| shiftcode k) ^^^ togglecode k = (b.press k).word false := by
  rcases key_cases k with hk | ⟨h1, h2, h3, -⟩
  · revert b
    fin_cases hk <;> exact Board.forall_of (by decide)
  · rw [h1, h2, h3]
    simp

theorem word_unescape : b.word escaped &&& ~~~e0Esc = b.word false := by
  revert b
  cases escaped <;> exact Board.forall_of (by decide)

theorem word_release : b.word escaped &&& ~~~(shiftcode k ||| e0Esc) = (b.release k).word false := by
  have hnot : ~~~(shiftcode k ||| e0Esc) = ~~~e0Esc &&& ~~~shiftcode k := by
    rw [BitVec.not_or, BitVec.and_comm]
  rw [hnot, ← BitVec.and_assoc, word_unescape]
  rcases key_cases k with hk | ⟨h1, -, -, h4⟩
  · revert b
    fin_cases hk <;> exact Board.forall_of (by decide)
  · rw [h1, h4]
    exact BitVec.and_allOnes

theorem word_escape : b.word escaped ||| e0Esc = b.word true := by
  unfold Board.word
  cases escaped <;> simp [bitIf, BitVec.or_assoc]

theorem word_escaped : b.word escaped &&& e0Esc ≠ 0 ↔ escaped = true := by
  revert b
  cases escaped <;> exact Board.forall_of (by decide)

theorem charcode_word : charcode (b.word false &&& (ctlBit ||| shiftBit)) k =
    if b.ctl then ctlmap k else if b.shift then shiftmap k else normalmap k := by
  have hindex : ∀ b : Board, (b.word false &&& (ctlBit ||| shiftBit)).toNat =
      (if b.ctl then 2 else 0) + if b.shift then 1 else 0 := Board.forall_of (by decide)
  unfold charcode
  rw [hindex]
  cases b.ctl <;> cases b.shift <;> rfl

theorem word_caps : b.word false &&& capsLock ≠ 0 ↔ b.caps = true := by
  revert b
  exact Board.forall_of (by decide)

theorem word_num : b.word false = numLock ↔ b = ⟨false, false, false, false, true, false⟩ := by
  revert b
  exact Board.forall_of (by decide)

end Word

/-! ## What a byte does -/

section Byte

variable {b : Board} {k data : UInt8} {s : Keyboard} {sent : Sent} {h : List (KeyEvent × Crt)} {crt : Crt}

/-- The driver knows the modifiers of the history, and the escape byte if it came last. -/
structure Keyboard.Tracks (s : Keyboard) (sent : Sent) : Prop where
  shift : s.shift = (boardOf sent.events).word sent.escaped
  running : s.rebooted = false

theorem swapCase_ne_keyDel {c : UInt8} (hc : c ≠ keyDel) : swapCase c ≠ keyDel := by
  unfold swapCase keyDel at *
  split
  · grind
  · split
    · grind
    · exact hc

theorem keyPressed_eq (hs : s.shift = b.word false) : (keyPressed k s).1 = (b.press k).charOf s.crt k ∧
    (keyPressed k s).2.shift = (b.press k).word false ∧ (keyPressed k s).2.rebooted = s.rebooted := by
  unfold keyPressed Board.charOf
  simp only [hs, word_press, charcode_word, word_caps, word_num]
  generalize (if (b.press k).ctl then ctlmap k else if (b.press k).shift then shiftmap k else normalmap k) = c
  by_cases hdel : c = keyDel
  · simp only [if_pos hdel]
    by_cases htext : 0 < s.crt.textLength
    · by_cases hend : s.crt.crtPos = 1920 + s.crt.textLength
      · simp [htext, hend]
      · simp [htext, hend, hdel]
    · simp [htext]
  · simp only [if_neg hdel]
    -- the letters of the caps lock are not DEL either, so the test for the reboot never holds
    have hswap : (if (b.press k).caps = true then
        if 97 ≤ c ∧ c ≤ 122 then c - 32 else if 65 ≤ c ∧ c ≤ 90 then c + 32 else c else c) ≠ keyDel := by
      split
      · exact swapCase_ne_keyDel hdel
      · exact hdel
    rw [show (if (b.press k).caps = true then swapCase c else c) = if (b.press k).caps = true then
        if 97 ≤ c ∧ c ≤ 122 then c - 32 else if 65 ≤ c ∧ c ≤ 90 then c + 32 else c else c from rfl]
    generalize (if (b.press k).caps = true then
        if 97 ≤ c ∧ c ≤ 122 then c - 32 else if 65 ≤ c ∧ c ≤ 90 then c + 32 else c else c) = c' at hswap ⊢
    simp only [hswap, and_false, if_false]
    split
    · exact ⟨rfl, rfl, rfl⟩
    · split
      · exact ⟨rfl, rfl, rfl⟩
      · exact ⟨rfl, rfl, rfl⟩

theorem boardOf_press : boardOf ((.press k, crt) :: h) = (boardOf h).press k := rfl

theorem boardOf_release : boardOf ((.release k, crt) :: h) = (boardOf h).release k := rfl

theorem events_cons_none (he : eventOf (Sent.escaped sent) data = none) :
    Sent.events ((data, crt) :: sent) = Sent.events sent := by
  rw [Sent.events, he]

theorem events_cons_some {e : KeyEvent} (he : eventOf (Sent.escaped sent) data = some e) :
    Sent.events ((data, crt) :: sent) = (e, crt) :: Sent.events sent := by
  rw [Sent.events, he]

/-- A key that is pressed while the escape bit is clear. -/
theorem keyPressed_tracks (hs : s.shift = (boardOf h).word false) (hr : s.rebooted = false) :
    (keyPressed k s).2.shift = (boardOf ((.press k, s.crt) :: h)).word false ∧ (keyPressed k s).2.rebooted = false ∧
      typed ((.press k, s.crt) :: h) = typed h ++ if (keyPressed k s).1 = 0 then [] else [(keyPressed k s).1] := by
  obtain ⟨hc, hshift, hreboot⟩ := keyPressed_eq (k := k) hs
  refine ⟨hshift, hreboot.trans hr, ?_⟩
  rw [hc]
  rfl

/-- A byte ends one event at most, and gives the character that the history types with it. -/
theorem Keyboard.Tracks.byte (hs : s.Tracks sent) : (kbdProcData data s).2.Tracks ((data, s.crt) :: sent) ∧
    typed (Sent.events ((data, s.crt) :: sent)) =
      typed (Sent.events sent) ++ if (kbdProcData data s).1 = 0 then [] else [(kbdProcData data s).1] := by
  obtain ⟨hs, hr⟩ := hs
  by_cases hE : data = 0xE0
  · subst hE
    have he : eventOf (Sent.escaped sent) 0xE0 = none := if_pos rfl
    have hk : kbdProcData 0xE0 s = (0, { s with shift := s.shift ||| e0Esc }) := if_pos rfl
    rw [hk, events_cons_none he]
    refine ⟨⟨?_, hr⟩, (List.append_nil _).symm⟩
    rw [events_cons_none he]
    show s.shift ||| e0Esc = _
    rw [hs, word_escape]
    rfl
  have hnot : Sent.escaped ((data, s.crt) :: sent) = false := decide_eq_false hE
  by_cases h80 : data &&& 0x80 ≠ 0
  · -- a key is released
    have he : eventOf (Sent.escaped sent) data =
        some (.release (if Sent.escaped sent then data else data &&& 0x7F)) := by
      rw [eventOf, if_neg hE, if_pos h80]
    have hk : kbdProcData data s = (0, { s with shift := s.shift &&&
        ~~~(shiftcode (if s.shift &&& e0Esc ≠ 0 then data else data &&& 0x7F) ||| e0Esc) }) := by
      unfold kbdProcData
      rw [if_neg hE, if_pos h80]
    rw [hk, events_cons_some he]
    refine ⟨⟨?_, hr⟩, (List.append_nil _).symm⟩
    rw [events_cons_some he, hnot, boardOf_release, hs]
    simp only [word_escaped]
    exact word_release _
  · -- a key is pressed, with the escape bit cleared before
    have hpressed : ∀ (k : UInt8) (s' : Keyboard), kbdProcData data s = keyPressed k s' → s'.crt = s.crt →
        s'.shift = (boardOf (Sent.events sent)).word false → s'.rebooted = false →
          eventOf (Sent.escaped sent) data = some (.press k) → (kbdProcData data s).2.Tracks ((data, s.crt) :: sent) ∧
            typed (Sent.events ((data, s.crt) :: sent)) =
              typed (Sent.events sent) ++ if (kbdProcData data s).1 = 0 then [] else [(kbdProcData data s).1] := by
      intro k s' hk hcrt hs' hr' he
      obtain ⟨hshift, hreboot, htyped⟩ := keyPressed_tracks (k := k) hs' hr'
      rw [hcrt] at hshift htyped
      rw [hk, events_cons_some he]
      refine ⟨⟨?_, hreboot⟩, htyped⟩
      rw [events_cons_some he, hnot]
      exact hshift
    have he : eventOf (Sent.escaped sent) data =
        some (.press (if Sent.escaped sent then data ||| 0x80 else data)) := by
      rw [eventOf, if_neg hE, if_neg h80]
    cases hesc : Sent.escaped sent with
    | true =>
      rw [hesc] at hs
      rw [hesc, if_pos rfl, ← hesc] at he
      refine hpressed (data ||| 0x80) { s with shift := s.shift &&& ~~~e0Esc } ?_ rfl ?_ hr he
      · unfold kbdProcData
        rw [if_neg hE, if_neg h80, if_pos (by rw [hs]; exact (word_escaped _).2 rfl)]
      · show s.shift &&& ~~~e0Esc = _
        rw [hs, word_unescape]
    | false =>
      rw [hesc] at hs
      rw [hesc, if_neg Bool.false_ne_true, ← hesc] at he
      refine hpressed data s ?_ rfl hs hr he
      unfold kbdProcData
      rw [if_neg hE, if_neg h80, if_neg (by rw [hs]; exact fun hc => Bool.false_ne_true ((word_escaped _).1 hc))]

end Byte

/-! ## The bytes of a key -/

section Decode

variable {e : KeyEvent} {sent : Sent}

theorem forall_byte {P : UInt8 → Prop} (h : ∀ n : Fin 256, P (UInt8.ofFin n)) (k : UInt8) : P k := h k.toFin

theorem plain_byte : ∀ k : UInt8, k < 0x80 → k ≠ 0xE0 ∧ k &&& 0x80 = 0 :=
  forall_byte (by decide +kernel)

theorem marked_byte : ∀ k : UInt8, k < 0x80 → k ≠ 0x60 →
    k ||| 0x80 ≠ 0xE0 ∧ (k ||| 0x80) &&& 0x80 ≠ 0 ∧ (k ||| 0x80) &&& 0x7F = k :=
  forall_byte (by decide +kernel)

theorem escaped_byte : ∀ k : UInt8, ¬ k < 0x80 →
    k &&& 0x7F ≠ 0xE0 ∧ k &&& 0x7F &&& 0x80 = 0 ∧ k &&& 0x7F ||| 0x80 = k ∧ k &&& 0x80 ≠ 0 :=
  forall_byte (by decide +kernel)

/-- The bytes of a real key, after those of other keys, are taken as that key. -/
theorem events_bytes (crt : Crt) (he : e.Real) (hsent : Sent.escaped sent = false) :
    Sent.events ((e.bytes.reverse.map fun b => (b, crt)) ++ sent) = (e, crt) :: Sent.events sent ∧
      Sent.escaped ((e.bytes.reverse.map fun b => (b, crt)) ++ sent) = false := by
  -- one byte, or the escape byte and one
  have hone : ∀ {data : UInt8}, data ≠ 0xE0 → eventOf false data = some e → e.bytes = [data] →
      Sent.events ((e.bytes.reverse.map fun b => (b, crt)) ++ sent) = (e, crt) :: Sent.events sent ∧
        Sent.escaped ((e.bytes.reverse.map fun b => (b, crt)) ++ sent) = false := by
    intro data hdata hev hb
    rw [hb]
    refine ⟨?_, decide_eq_false hdata⟩
    show Sent.events ((data, crt) :: sent) = _
    exact events_cons_some (by rw [hsent]; exact hev)
  have htwo : ∀ {data : UInt8}, data ≠ 0xE0 → eventOf true data = some e → e.bytes = [0xE0, data] →
      Sent.events ((e.bytes.reverse.map fun b => (b, crt)) ++ sent) = (e, crt) :: Sent.events sent ∧
        Sent.escaped ((e.bytes.reverse.map fun b => (b, crt)) ++ sent) = false := by
    intro data hdata hev hb
    rw [hb]
    refine ⟨?_, decide_eq_false hdata⟩
    show Sent.events ((data, crt) :: (0xE0, crt) :: sent) = _
    rw [events_cons_some (show eventOf (Sent.escaped ((0xE0, crt) :: sent)) data = some e from hev),
      events_cons_none (if_pos rfl)]
  cases e with
  | press k =>
    by_cases hk : k < 0x80
    · obtain ⟨hne, h80⟩ := plain_byte k hk
      exact hone hne (by rw [eventOf, if_neg hne, if_neg (not_not.2 h80)]; rfl) (if_pos hk)
    · obtain ⟨hne, h80, hor, -⟩ := escaped_byte k hk
      refine htwo hne ?_ (if_neg hk)
      rw [eventOf, if_neg hne, if_neg (not_not.2 h80), if_pos rfl, hor]
  | release k =>
    by_cases hk : k < 0x80
    · obtain ⟨hne, h80, hand⟩ := marked_byte k hk he.1
      refine hone hne ?_ (if_pos hk)
      rw [eventOf, if_neg hne, if_pos h80, if_neg Bool.false_ne_true, hand]
    · obtain ⟨-, -, -, h80⟩ := escaped_byte k hk
      refine htwo he.2 ?_ (if_neg hk)
      rw [eventOf, if_neg he.2, if_pos h80, if_pos rfl]

/-- The keys that are sent are the keys that are taken. -/
theorem events_flatMap (crt : Crt) (keys : List KeyEvent) (hreal : ∀ e ∈ keys, e.Real) :
    Sent.events ((keys.flatMap KeyEvent.bytes).reverse.map fun b => (b, crt)) = keys.reverse.map (fun e => (e, crt)) ∧
      Sent.escaped ((keys.flatMap KeyEvent.bytes).reverse.map fun b => (b, crt)) = false := by
  induction keys using List.reverseRecOn with
  | nil => exact ⟨rfl, rfl⟩
  | append_singleton keys e ih =>
    obtain ⟨ih, hesc⟩ := ih fun e' he' => hreal e' (List.mem_append_left _ he')
    have hsplit : ((keys ++ [e]).flatMap KeyEvent.bytes).reverse.map (fun b => (b, crt)) =
        (e.bytes.reverse.map fun b => (b, crt)) ++ (keys.flatMap KeyEvent.bytes).reverse.map fun b => (b, crt) := by
      rw [List.flatMap_append, List.flatMap_singleton, List.reverse_append, List.map_append]
    obtain ⟨hev, hnot⟩ := events_bytes crt (hreal e (by simp)) hesc
    rw [hsplit]
    refine ⟨?_, hnot⟩
    rw [hev, ih, List.reverse_append]
    rfl

end Decode

/-! ## Typing -/

/-- The keyboard, the input buffer with its readers, and what the keyboard has sent. -/
structure Typing where
  keyboard : Keyboard
  world : World
  sent : Sent

/-- A byte of the keyboard, another screen, and the steps of a reader of the buffer. -/
inductive TypingEvent where
  | byte (data : UInt8)
  | screen (crt : Crt)
  | reader (e : Event)

inductive TypingStep : Typing → TypingEvent → Typing → Prop
  | byte {w : Typing} {data : UInt8} : TypingStep w (.byte data)
      { keyboard := (kbdProcData data w.keyboard).2
        world := w.world.put (kbdProcData data w.keyboard).1
        sent := (data, w.keyboard.crt) :: w.sent }
  | screen {w : Typing} {crt : Crt} :
      TypingStep w (.screen crt) { w with keyboard := { w.keyboard with crt := crt } }
  | reader {w : Typing} {e : Event} {u : World} (hput : ∀ c, e ≠ .put c) (hs : Step w.world e u) :
      TypingStep w (.reader e) { w with world := u }

def bootTyping (crt : Crt) : Typing where
  keyboard := { shift := 0, crt := crt, rebooted := false }
  world := boot
  sent := []

/-- The readers have got, and the buffer holds, what was typed. -/
def Typing.Delivers (w : Typing) : Prop :=
  w.world.delivered ++ w.world.cons.contents consBufSize = typed (Sent.events w.sent)

/-- A byte that gives a character finds room for it. -/
def Typing.HasRoom (w : Typing) : TypingEvent → Prop
  | .byte data => w.world.HasRoom (.put (kbdProcData data w.keyboard).1)
  | _ => True

structure Typing.Inv (w : Typing) : Prop where
  tracks : w.keyboard.Tracks w.sent
  world : w.world.Inv
  accepted : w.world.accepted = typed (Sent.events w.sent)

section Typing

variable {w w' : Typing} {e : TypingEvent} {u v : World} {c : UInt8}

theorem bootTyping_tracks (crt : Crt) : (bootTyping crt).keyboard.Tracks (bootTyping crt).sent :=
  ⟨show (0 : BitVec 32) = (boardOf []).word false by decide, rfl⟩

theorem TypingStep.tracks (h : w.keyboard.Tracks w.sent) (hs : TypingStep w e w') : w'.keyboard.Tracks w'.sent := by
  cases hs with
  | byte => exact h.byte.1
  | screen => exact ⟨h.shift, h.running⟩
  | reader => exact h

/-- The steps of a reader take no character. -/
theorem Step.accepted {e : Event} (hput : ∀ c, e ≠ .put c) (hs : Step u e v) : v.accepted = u.accepted := by
  cases hs with
  | put => exact absurd rfl (hput _)
  | nothing | waits | take | wrap => rfl

theorem World.Inv.put_accepted (h : u.Inv) (hroom : u.HasRoom (.put c)) :
    (u.put c).accepted = u.accepted ++ if c = 0 then [] else [c] := by
  by_cases hc : c = 0
  · rw [if_pos hc, hc, World.put_zero, List.append_nil]
  · rw [if_neg hc]
    exact if_pos ⟨hc, by rw [h.waiting]; exact hroom hc⟩

theorem TypingStep.inv (h : w.Inv) (hroom : w.HasRoom e) (hs : TypingStep w e w') : w'.Inv := by
  have htracks := hs.tracks h.tracks
  cases hs with
  | byte =>
    refine ⟨htracks, h.world.put hroom, ?_⟩
    show (w.world.put _).accepted = _
    rw [h.world.put_accepted hroom, h.accepted, h.tracks.byte.2]
  | screen => exact ⟨htracks, h.world, h.accepted⟩
  | @reader e u hput hs =>
    have hroom : w.world.HasRoom e := by
      cases e with
      | put c => exact absurd rfl (hput c)
      | compare | take | wrap => trivial
    exact ⟨htracks, h.world.step hroom hs, (hs.accepted hput).trans h.accepted⟩

theorem Typing.Inv.delivers (h : w.Inv) : w.Delivers := h.world.order.trans h.accepted

/-- A full buffer loses more than the last character. -/
theorem TypingStep.hasRoom (h : w.Inv) (hs : TypingStep w e w') (hd : w'.Delivers) : w.HasRoom e := by
  cases hs with
  | @byte data =>
    intro hc
    by_contra hfull
    have hlt := RingBuffer.used_lt h.world.range
    have hnil : (w.world.put (kbdProcData data w.keyboard).1).cons.contents consBufSize = [] := by
      rw [World.put_cons hc, RingBuffer.contents_write_full h.world.range (by omega)]
    unfold Typing.Delivers at hd
    dsimp only at hd
    rw [hnil, h.tracks.byte.2, if_neg hc, List.append_nil, ← h.accepted, ← h.world.order] at hd
    have hlen := congrArg List.length hd
    rw [show (w.world.put (kbdProcData data w.keyboard).1).delivered = w.world.delivered from rfl] at hlen
    simp only [List.length_append, List.length_singleton] at hlen
    omega
  | screen | reader => trivial

/-- The bytes that one interrupt finds are steps one after another. -/
theorem always_kbdIntr {P : Typing → Prop} : ∀ (bytes : List UInt8) {w : Typing},
    Always TypingStep P w (bytes.map .byte) →
      ∃ w', P w' ∧ kbdIntr bytes w.keyboard w.world.cons = (w'.keyboard, w'.world.cons)
  | [], w, h => ⟨w, h, rfl⟩
  | _ :: bytes, _, h => always_kbdIntr bytes (h.2 _ .byte)

/-- Whatever bytes come, and whatever is read or shown between them, the driver knows which modifiers are held and which
locks are on, from the keys that were pressed and released, and it never reboots the machine; and the keys it takes are
the keys that the keyboard sends. -/
theorem keyboard_follows (crt : Crt) (es : List TypingEvent) :
    Always TypingStep (fun w => w.keyboard.Tracks w.sent) (bootTyping crt) es ∧
      ∀ keys : List KeyEvent, (∀ e ∈ keys, e.Real) →
        Sent.events ((keys.flatMap KeyEvent.bytes).reverse.map fun b => (b, crt)) =
          keys.reverse.map fun e => (e, crt) :=
  ⟨always_of_step (fun _ _ _ h hs => hs.tracks h) (bootTyping_tracks crt),
    fun keys hreal => (events_flatMap crt keys hreal).1⟩

/-- The characters of the keys reach the readers, each once and in the order in which the keys were pressed, in exactly
those runs where each of them finds room. -/
theorem keys_delivered_iff (crt : Crt) (es : List TypingEvent) :
    Always TypingStep Typing.Delivers (bootTyping crt) es ↔ Each TypingStep Typing.HasRoom (bootTyping crt) es :=
  always_iff_each (fun _ h => h.delivers) (fun _ _ _ h hC hs => hs.inv h hC) (fun _ _ _ h hs hP => hs.hasRoom h hP)
    ⟨bootTyping_tracks crt, boot_inv, rfl⟩

end Typing

end Fos.Console
