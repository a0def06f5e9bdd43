/-
`command_prompt_readline` of `kern/cmd/command_readline.c`, key by key over any number of lines. Every access to the
line and to the history is checked: an index outside them ends the run. Tab, which completes commands, is left out.
-/
import Fos.Lib.StateCode
import Fos.Lib.Trace

namespace Fos.Console

open Fos.Lib

/-! ## The code -/

def bufLen : Nat := 1024

def historyMax : Nat := 19

abbrev Row := Nat → UInt8

/-- The history, and the variables and the buffer of the line that is read. -/
structure Readline where
  lastCommandIdx : Int
  commandHistory : Int → Row
  buf : Row
  i : Int
  lastIndex : Int
  commandidx : Int

/-- An index outside the buffer or the history, or a string that does not end in its row. -/
inductive Outside where
  | buf (index : Int)
  | commandHistory (index : Int)
  | pastRow (index : Int)
  deriving DecidableEq

abbrev RM := EStateM Outside Readline

def getBuf (index : Int) : RM UInt8 := do
  if 0 ≤ index ∧ index < bufLen then return (← get).buf index.toNat
  else throw (.buf index)

def setBuf (index : Int) (c : UInt8) : RM Unit :=
  if 0 ≤ index ∧ index < bufLen then modify fun s => { s with buf := Function.update s.buf index.toNat c }
  else throw (.buf index)

def getRow (index : Int) : RM Row := do
  if 0 ≤ index ∧ index ≤ historyMax then return (← get).commandHistory index
  else throw (.commandHistory index)

def setRow (index : Int) (row : Row) : RM Unit :=
  if 0 ≤ index ∧ index ≤ historyMax then
    modify fun s => { s with commandHistory := Function.update s.commandHistory index row }
  else throw (.commandHistory index)

/-- `strlen` of a row. -/
def rowLength (row : Row) : Option Nat := (List.range bufLen).find? fun k => row k = 0

/-- `strcmp` of two rows from place `k` on, with `n` places left: whether it is not 0. -/
def rowsDiffer (p q : Row) : Nat → Nat → Option Bool
  | 0, _ => none
  | n + 1, k => if p k ≠ 0 ∧ p k = q k then rowsDiffer p q n (k + 1) else some (p k ≠ q k)

def clearandwritecommand (commandidx : Int) : RM Unit := do
  let row ← getRow commandidx
  match rowLength row with
  | none => throw (.pastRow commandidx)
  | some len =>
    modify ({ · with buf := fun _ => 0 })
    (List.range len).forM fun k => setBuf k (row k)
    modify ({ · with i := len, lastIndex := len })

/-- The loop of the DEL key. -/
def deleteAt (i lastIndex : Int) : RM Unit :=
  (List.range (lastIndex - i + 1).toNat).forM fun k => do setBuf (i + k) (← getBuf (i + k + 1))

/-- The loop that drops the oldest command. -/
def shiftRows : RM Unit := (List.range historyMax).forM fun idx => do setRow idx (← getRow (idx + 1))

/-- What the Enter key does to the history. -/
def keepCommand : RM Unit := do
  let last := (← get).lastCommandIdx
  if last = historyMax then
    shiftRows
    setRow historyMax (← get).buf
  else
    let row ← getRow last
    match rowsDiffer row (← get).buf bufLen 0 with
    | none => throw (.pastRow last)
    | some false => pure ()
    | some true =>
      modify ({ · with lastCommandIdx := last + 1 })
      setRow (last + 1) (← get).buf

def upArrow : RM Unit := do
  let s ← get
  let commandidx := if s.commandidx ≠ 0 then s.commandidx - 1 else s.commandidx
  modify ({ · with commandidx := commandidx })
  clearandwritecommand commandidx

def downArrow : RM Unit := do
  let s ← get
  let commandidx := if s.commandidx < s.lastCommandIdx then s.commandidx + 1 else s.commandidx
  modify ({ · with commandidx := commandidx })
  if s.lastCommandIdx ≥ 0 then clearandwritecommand commandidx

def leftArrow : RM Unit := modify fun s => if s.i > 0 then { s with i := s.i - 1 } else s

def rightArrow : RM Unit := modify fun s => if s.i < s.lastIndex then { s with i := s.i + 1 } else s

def deleteKey : RM Unit := do
  let s ← get
  deleteAt s.i s.lastIndex
  modify ({ · with lastIndex := s.lastIndex - 1 })

/-- A character that is written. `lastIndex` counts the keys and not the places, so it may pass the end of the line. -/
def writeKey (c : UInt8) : RM Unit := do
  let s ← get
  setBuf s.i c
  modify ({ · with i := s.i + 1, lastIndex := Int.bmod (s.lastIndex + 1) 4294967296 })

def backspace : RM Unit := do
  let s ← get
  setBuf (s.i - 1) (← getBuf s.i)
  modify ({ · with i := s.i - 1 })

def enterKey : RM Unit := do
  setBuf (← get).lastIndex 0
  keepCommand

/-- The branches of `command_prompt_readline`, and whether the line ends. -/
def handleKey (c : UInt8) : RM Bool := do
  let s ← get
  if c = 226 then do upArrow; return false
  else if c = 227 then do downArrow; return false
  else if c = 228 then do leftArrow; return false
  else if c = 229 then do rightArrow; return false
  else if c = 233 ∧ s.i > 0 then do deleteKey; return false
  else if c ≥ 32 ∧ s.i < bufLen - 1 then do writeKey c; return false
  else if c = 8 ∧ s.i > 0 then do backspace; return false
  else if c = 10 ∨ c = 13 then do enterKey; return true
  else return false

/-- The loop body of `command_prompt_readline`. -/
def readKey (c : UInt8) : RM Bool := do
  modify fun s => { s with lastIndex := max s.i s.lastIndex }
  handleKey c

/-- A call with a cleared buffer. -/
def newLine (s : Readline) : Readline :=
  { s with buf := fun _ => 0, i := 0, lastIndex := 0, commandidx := s.lastCommandIdx + 1 }

def pressKey (c : UInt8) : RM Unit := do
  if ← readKey c then modify newLine

/-- The first line after boot. -/
def firstLine : Readline :=
  newLine
    { lastCommandIdx := -1, commandHistory := fun _ _ => 0, buf := fun _ => 0, i := 0, lastIndex := 0, commandidx := 0 }

/-! ## Runs -/

/-- A key that `getchar` gives and that is not Tab. -/
structure Key where
  code : UInt8
  notTab : code ≠ 9

/-- A run ends at an index outside. -/
inductive KeyStep : Option Readline → Key → Option Readline → Prop
  | reads {s t : Readline} {k : Key} (h : pressKey k.code s = .ok () t) : KeyStep (some s) k (some t)
  | leaves {s t : Readline} {k : Key} {x : Outside} (h : pressKey k.code s = .error x t) : KeyStep (some s) k none

/-- No index was outside so far. -/
def Inside : Option Readline → Prop
  | some _ => True
  | none => False

/-- What a key needs. -/
structure Readline.Allows (s : Readline) (c : UInt8) : Prop where
  down : c = 227 → 0 ≤ s.lastCommandIdx → s.commandidx ≤ historyMax
  del : c = 233 → 0 < s.i → max s.i s.lastIndex + 1 < bufLen
  back : c = 8 → 0 < s.i → s.i < bufLen
  enter : c = 10 ∨ c = 13 → 0 ≤ s.lastCommandIdx ∧ max s.i s.lastIndex < bufLen

def Allowed : Option Readline → Key → Prop
  | some s, k => s.Allows k.code
  | none, _ => True

/-- A row with the end of a string in it. -/
def Ends (row : Row) : Prop := ∃ k < bufLen, row k = 0

/-- A history whose rows all end. -/
def RowsEnd (h : Int → Row) : Prop := ∀ r : Int, 0 ≤ r → r ≤ historyMax → Ends (h r)

/-- The history has its rows, each with the end of a string, and the counters of the line are where the code leaves
them. -/
structure Readline.WellFormed (s : Readline) : Prop where
  last : -1 ≤ s.lastCommandIdx ∧ s.lastCommandIdx ≤ historyMax
  chosen : 0 ≤ s.commandidx ∧ s.commandidx ≤ s.lastCommandIdx + 1
  cursor : 0 ≤ s.i
  rows : RowsEnd s.commandHistory

/-! ## Accesses -/

section Accesses

variable {s t : Readline} {index : Int} {row : Row} {c : UInt8}

theorem getBuf_ok (h : 0 ≤ index ∧ index < bufLen) : getBuf index s = .ok (s.buf index.toNat) s := by
  unfold getBuf
  rw [if_pos h]
  rfl

theorem getBuf_outside (h : ¬ (0 ≤ index ∧ index < bufLen)) : getBuf index s = .error (.buf index) s := by
  unfold getBuf
  rw [if_neg h]
  rfl

theorem setBuf_ok (h : 0 ≤ index ∧ index < bufLen) :
    setBuf index c s = .ok () { s with buf := Function.update s.buf index.toNat c } := by
  unfold setBuf
  rw [if_pos h]
  rfl

theorem setBuf_outside (h : ¬ (0 ≤ index ∧ index < bufLen)) : setBuf index c s = .error (.buf index) s := by
  unfold setBuf
  rw [if_neg h]
  rfl

theorem getRow_ok (h : 0 ≤ index ∧ index ≤ historyMax) : getRow index s = .ok (s.commandHistory index) s := by
  unfold getRow
  rw [if_pos h]
  rfl

theorem getRow_outside (h : ¬ (0 ≤ index ∧ index ≤ historyMax)) :
    getRow index s = .error (.commandHistory index) s := by
  unfold getRow
  rw [if_neg h]
  rfl

theorem setRow_ok (h : 0 ≤ index ∧ index ≤ historyMax) :
    setRow index row s = .ok () { s with commandHistory := Function.update s.commandHistory index row } := by
  unfold setRow
  rw [if_pos h]
  rfl

theorem rowLength_ends (h : Ends row) : ∃ len < bufLen, rowLength row = some len := by
  obtain ⟨k, hk, h0⟩ := h
  cases hr : rowLength row with
  | none =>
    rw [rowLength] at hr
    have := List.find?_eq_none.1 hr k (List.mem_range.2 hk)
    exact absurd h0 (by simpa using this)
  | some len =>
    rw [rowLength] at hr
    exact ⟨len, List.mem_range.1 (List.mem_of_find?_eq_some hr), rfl⟩

/-- The comparison stops at the end of the first string. -/
theorem rowsDiffer_ends {p q : Row} {j : Nat} (hp : p j = 0) : ∀ {n k : Nat}, k ≤ j → j < k + n →
    ∃ b, rowsDiffer p q n k = some b
  | 0, k, h1, h2 => by omega
  | n + 1, k, h1, h2 => by
    rw [rowsDiffer]
    split
    · next hc =>
      have hne : k ≠ j := fun hkj => hc.1 (hkj ▸ hp)
      exact rowsDiffer_ends hp (by omega) (by omega)
    · exact ⟨_, rfl⟩

/-- A loop that only writes the buffer. -/
theorem forM_buf {g : Nat → RM Unit} {l : List Nat}
    (h : ∀ k ∈ l, ∀ b, ∃ b', g k { s with buf := b } = .ok () { s with buf := b' }) :
    ∃ b, l.forM g s = .ok () { s with buf := b } := by
  obtain ⟨t, ht, b, rfl⟩ := forM_ok (P := fun t => ∃ b, t = { s with buf := b }) (fun k hk r hr => by
    obtain ⟨b, rfl⟩ := hr
    obtain ⟨b', hb'⟩ := h k hk b
    exact ⟨_, hb', b', rfl⟩) ⟨s.buf, rfl⟩
  exact ⟨b, ht⟩

theorem clearandwritecommand_ok (hi : 0 ≤ index ∧ index ≤ historyMax) (hrow : Ends (s.commandHistory index)) :
    ∃ b len, clearandwritecommand index s = .ok ()
      { s with buf := b, i := Int.ofNat len, lastIndex := Int.ofNat len } := by
  obtain ⟨len, hlen, hr⟩ := rowLength_ends hrow
  obtain ⟨b, hb⟩ := forM_buf (s := { s with buf := fun _ => 0 }) (l := List.range len)
    (g := fun k => setBuf k (s.commandHistory index k)) fun k hk b => by
      have hk := List.mem_range.1 hk
      exact ⟨_, setBuf_ok ⟨by omega, by omega⟩⟩
  refine ⟨b, len, ?_⟩
  unfold clearandwritecommand
  rw [bind_of_ok (getRow_ok hi)]
  simp only [hr]
  rw [modify_bind, bind_of_ok hb]
  rfl

theorem clearandwritecommand_outside (hi : ¬ (0 ≤ index ∧ index ≤ historyMax)) :
    ∃ x t, clearandwritecommand index s = .error x t := by
  unfold clearandwritecommand
  exact ⟨_, _, bind_of_error (getRow_outside hi)⟩

theorem deleteAt_ok {i lastIndex : Int} (hi : 0 ≤ i) (hl : lastIndex + 1 < bufLen) :
    ∃ b, deleteAt i lastIndex s = .ok () { s with buf := b } := by
  apply forM_buf
  rintro k hk b
  have hk := List.mem_range.1 hk
  rw [bind_of_ok (getBuf_ok ⟨by omega, by omega⟩)]
  exact ⟨_, setBuf_ok ⟨by omega, by omega⟩⟩

/-- The last round reads behind the last index. -/
theorem deleteAt_outside {i lastIndex : Int} (hil : i ≤ lastIndex) (hl : ¬ lastIndex + 1 < bufLen) :
    ∃ x t, deleteAt i lastIndex s = .error x t := by
  cases hr : deleteAt i lastIndex s with
  | error x t => exact ⟨x, t, rfl⟩
  | ok u t =>
    obtain ⟨r, r', hk⟩ := ok_of_forM hr (lastIndex - i).toNat (List.mem_range.2 (by omega))
    rw [bind_of_error (getBuf_outside (by omega))] at hk
    cases hk

theorem RowsEnd.update {h : Int → Row} (hh : RowsEnd h) (hrow : Ends row) (r : Int) :
    RowsEnd (Function.update h r row) := by
  rintro r' h0 hm
  rw [Function.update_apply]
  split
  · exact hrow
  · exact hh r' h0 hm

theorem shiftRows_ok (hh : RowsEnd s.commandHistory) :
    ∃ h, RowsEnd h ∧ shiftRows s = .ok () { s with commandHistory := h } := by
  have hstep : ∀ k ∈ List.range historyMax, ∀ r, (∃ h, RowsEnd h ∧ r = { s with commandHistory := h }) →
      ∃ t, (do setRow (k : Nat) (← getRow ((k : Nat) + 1)) : RM Unit) r = .ok () t ∧
        ∃ h, RowsEnd h ∧ t = { s with commandHistory := h } := by
    rintro k hk r ⟨h, hh, rfl⟩
    have hk := List.mem_range.1 hk
    refine ⟨_, ?_, _, hh.update (hh (k + 1) (by omega) (by omega)) k, rfl⟩
    rw [bind_of_ok (getRow_ok ⟨by omega, by omega⟩), setRow_ok ⟨by omega, by omega⟩]
  obtain ⟨t, ht, h, hh', rfl⟩ := forM_ok hstep ⟨_, hh, rfl⟩
  exact ⟨h, hh', ht⟩

theorem keepCommand_ok (hlast : 0 ≤ s.lastCommandIdx ∧ s.lastCommandIdx ≤ historyMax) (hh : RowsEnd s.commandHistory)
    (hbuf : Ends s.buf) : ∃ t, keepCommand s = .ok () t ∧ RowsEnd t.commandHistory ∧ 0 ≤ t.lastCommandIdx ∧
      t.lastCommandIdx ≤ historyMax := by
  unfold keepCommand
  rw [get_bind]
  by_cases hfull : s.lastCommandIdx = historyMax
  · obtain ⟨h, hh', hshift⟩ := shiftRows_ok hh
    simp only [if_pos hfull]
    rw [bind_of_ok hshift, get_bind, setRow_ok ⟨by omega, le_rfl⟩]
    exact ⟨_, rfl, hh'.update hbuf _, hlast⟩
  · obtain ⟨j, hj, h0⟩ := hh s.lastCommandIdx hlast.1 hlast.2
    obtain ⟨b, hb⟩ := rowsDiffer_ends (q := s.buf) h0 (n := bufLen) (Nat.zero_le j) (by omega)
    simp only [if_neg hfull]
    rw [bind_of_ok (getRow_ok hlast), get_bind]
    cases b with
    | false =>
      simp only [hb]
      exact ⟨s, rfl, hh, hlast⟩
    | true =>
      simp only [hb]
      rw [modify_bind, get_bind, setRow_ok ⟨by omega, by omega⟩]
      refine ⟨_, rfl, hh.update hbuf _, ?_, ?_⟩
      · show 0 ≤ s.lastCommandIdx + 1
        omega
      · show s.lastCommandIdx + 1 ≤ historyMax
        omega

theorem keepCommand_outside (hlast : s.lastCommandIdx < 0) : ∃ x t, keepCommand s = .error x t := by
  unfold keepCommand
  rw [get_bind]
  have hne : s.lastCommandIdx ≠ historyMax := by omega
  simp only [if_neg hne]
  exact ⟨_, _, bind_of_error (getRow_outside (by omega))⟩

end Accesses

/-! ## Keys -/

section Keys

variable {s t : Readline} {c : UInt8}

theorem Readline.WellFormed.newLine (h : t.WellFormed) : (newLine t).WellFormed := by
  have hlast := h.last
  exact ⟨hlast, ⟨show 0 ≤ t.lastCommandIdx + 1 by omega, le_rfl⟩, le_rfl, h.rows⟩

theorem Readline.WellFormed.seen (h : s.WellFormed) : Readline.WellFormed { s with lastIndex := max s.i s.lastIndex } :=
  ⟨h.last, h.chosen, h.cursor, h.rows⟩

theorem upArrow_ok (h : s.WellFormed) : ∃ t, upArrow s = .ok () t ∧ t.WellFormed := by
  have hlast := h.last
  have hchosen := h.chosen
  obtain ⟨k, hk⟩ : ∃ k, (if s.commandidx ≠ 0 then s.commandidx - 1 else s.commandidx) = k := ⟨_, rfl⟩
  have hbound : (0 ≤ k ∧ k ≤ historyMax) ∧ k ≤ s.lastCommandIdx + 1 := by
    split at hk <;> omega
  obtain ⟨b, len, hc⟩ := clearandwritecommand_ok (s := { s with commandidx := k }) hbound.1
    (h.rows k hbound.1.1 hbound.1.2)
  unfold upArrow
  rw [get_bind]
  simp only [hk]
  rw [modify_bind]
  exact ⟨_, hc, ⟨hlast, ⟨hbound.1.1, hbound.2⟩, Int.natCast_nonneg len, h.rows⟩⟩

theorem downArrow_ok (h : s.WellFormed) (ha : 0 ≤ s.lastCommandIdx → s.commandidx ≤ historyMax) :
    ∃ t, downArrow s = .ok () t ∧ t.WellFormed := by
  have hlast := h.last
  have hchosen := h.chosen
  obtain ⟨k, hk⟩ : ∃ k, (if s.commandidx < s.lastCommandIdx then s.commandidx + 1 else s.commandidx) = k := ⟨_, rfl⟩
  have hbound : 0 ≤ k ∧ k ≤ s.lastCommandIdx + 1 := by
    split at hk <;> omega
  unfold downArrow
  rw [get_bind]
  simp only [hk]
  rw [modify_bind]
  by_cases hany : s.lastCommandIdx ≥ 0
  · have hmax := ha hany
    have hk' : k ≤ historyMax := by
      split at hk <;> omega
    obtain ⟨b, len, hc⟩ := clearandwritecommand_ok (s := { s with commandidx := k }) ⟨hbound.1, hk'⟩
      (h.rows k hbound.1 hk')
    rw [if_pos hany]
    exact ⟨_, hc, ⟨hlast, hbound, Int.natCast_nonneg len, h.rows⟩⟩
  · rw [if_neg hany]
    exact ⟨_, rfl, ⟨hlast, hbound, h.cursor, h.rows⟩⟩

/-- With all commands kept and none chosen. -/
theorem downArrow_outside (h : s.WellFormed) (hany : 0 ≤ s.lastCommandIdx) (hk : ¬ s.commandidx ≤ historyMax) :
    ∃ x t, downArrow s = .error x t := by
  have hlast := h.last
  unfold downArrow
  rw [get_bind]
  simp only [if_neg (show ¬ s.commandidx < s.lastCommandIdx by omega)]
  rw [modify_bind, if_pos hany]
  exact clearandwritecommand_outside (by omega)

theorem leftArrow_ok (h : s.WellFormed) : ∃ t, leftArrow s = .ok () t ∧ t.WellFormed := by
  refine ⟨_, rfl, ?_⟩
  beta_reduce
  split
  · refine ⟨h.last, h.chosen, ?_, h.rows⟩
    show 0 ≤ s.i - 1
    omega
  · exact h

theorem rightArrow_ok (h : s.WellFormed) : ∃ t, rightArrow s = .ok () t ∧ t.WellFormed := by
  have hcursor := h.cursor
  refine ⟨_, rfl, ?_⟩
  beta_reduce
  split
  · refine ⟨h.last, h.chosen, ?_, h.rows⟩
    show 0 ≤ s.i + 1
    omega
  · exact h

theorem deleteKey_ok (h : s.WellFormed) (ha : s.lastIndex + 1 < bufLen) :
    ∃ t, deleteKey s = .ok () t ∧ t.WellFormed := by
  obtain ⟨b, hb⟩ := deleteAt_ok (s := s) h.cursor ha
  unfold deleteKey
  rw [get_bind, bind_of_ok hb]
  exact ⟨_, rfl, ⟨h.last, h.chosen, h.cursor, h.rows⟩⟩

theorem deleteKey_outside (hle : s.i ≤ s.lastIndex) (ha : ¬ s.lastIndex + 1 < bufLen) :
    ∃ x t, deleteKey s = .error x t := by
  obtain ⟨x, t, hx⟩ := deleteAt_outside (s := s) hle ha
  refine ⟨x, t, ?_⟩
  unfold deleteKey
  rw [get_bind, bind_of_error hx]

theorem writeKey_ok (h : s.WellFormed) (hi : s.i < bufLen - 1) : ∃ t, writeKey c s = .ok () t ∧ t.WellFormed := by
  have hcursor := h.cursor
  unfold writeKey
  rw [get_bind, bind_of_ok (setBuf_ok ⟨hcursor, by omega⟩)]
  refine ⟨_, rfl, ⟨h.last, h.chosen, ?_, h.rows⟩⟩
  show 0 ≤ s.i + 1
  omega

theorem backspace_ok (h : s.WellFormed) (hi : 0 < s.i) (ha : s.i < bufLen) :
    ∃ t, backspace s = .ok () t ∧ t.WellFormed := by
  unfold backspace
  rw [get_bind, bind_of_ok (getBuf_ok ⟨by omega, ha⟩), bind_of_ok (setBuf_ok ⟨by omega, by omega⟩)]
  refine ⟨_, rfl, ⟨h.last, h.chosen, ?_, h.rows⟩⟩
  show 0 ≤ s.i - 1
  omega

theorem backspace_outside (ha : ¬ s.i < bufLen) : ∃ x t, backspace s = .error x t := by
  unfold backspace
  rw [get_bind]
  exact ⟨_, _, bind_of_error (getBuf_outside (by omega))⟩

theorem enterKey_ok (h : s.WellFormed) (h0 : 0 ≤ s.lastIndex) (hlast : 0 ≤ s.lastCommandIdx)
    (ha : s.lastIndex < bufLen) :
    ∃ t, enterKey s = .ok () t ∧ (newLine t).WellFormed := by
  have hend : Ends (Function.update s.buf s.lastIndex.toNat 0) := ⟨s.lastIndex.toNat, by omega, Function.update_self ..⟩
  obtain ⟨t, ht, hrows, h1, h2⟩ := keepCommand_ok (s := { s with buf := Function.update s.buf s.lastIndex.toNat 0 })
    ⟨hlast, h.last.2⟩ h.rows hend
  refine ⟨t, ?_, ⟨⟨show -1 ≤ t.lastCommandIdx by omega, h2⟩, ⟨show 0 ≤ t.lastCommandIdx + 1 by omega, le_rfl⟩, le_rfl,
    hrows⟩⟩
  unfold enterKey
  rw [get_bind, bind_of_ok (setBuf_ok ⟨h0, ha⟩), ht]

theorem enterKey_outside (ha : ¬ (0 ≤ s.lastCommandIdx ∧ s.lastIndex < bufLen)) : ∃ x t, enterKey s = .error x t := by
  unfold enterKey
  rw [get_bind]
  by_cases hin : 0 ≤ s.lastIndex ∧ s.lastIndex < bufLen
  · rw [bind_of_ok (setBuf_ok hin)]
    exact keepCommand_outside (by
      show s.lastCommandIdx < 0
      omega)
  · exact ⟨_, _, bind_of_error (setBuf_outside hin)⟩

/-- A key that is allowed ends a line or not, and leaves what the next key or the next line needs. -/
theorem handleKey_ok (h : s.WellFormed) (hle : s.i ≤ s.lastIndex) (ha : s.Allows c) :
    ∃ b t, handleKey c s = .ok b t ∧ (newLine t).WellFormed ∧ (b = false → t.WellFormed) := by
  have hmax : max s.i s.lastIndex = s.lastIndex := max_eq_right hle
  have hcursor := h.cursor
  have hgoes : ∀ {x : RM Unit}, (∃ t, x s = .ok () t ∧ t.WellFormed) →
      ∃ b t, (do x; return false : RM Bool) s = .ok b t ∧ (newLine t).WellFormed ∧ (b = false → t.WellFormed) := by
    rintro x ⟨t, hx, ht⟩
    exact ⟨false, t, bind_of_ok hx, ht.newLine, fun _ => ht⟩
  unfold handleKey
  rw [get_bind]
  by_cases hup : c = 226
  · rw [if_pos hup]
    exact hgoes (upArrow_ok h)
  rw [if_neg hup]
  by_cases hdown : c = 227
  · rw [if_pos hdown]
    exact hgoes (downArrow_ok h (ha.down hdown))
  rw [if_neg hdown]
  by_cases hleft : c = 228
  · rw [if_pos hleft]
    exact hgoes (leftArrow_ok h)
  rw [if_neg hleft]
  by_cases hright : c = 229
  · rw [if_pos hright]
    exact hgoes (rightArrow_ok h)
  rw [if_neg hright]
  by_cases hdel : c = 233 ∧ s.i > 0
  · rw [if_pos hdel]
    exact hgoes (deleteKey_ok h (by rw [← hmax]; exact ha.del hdel.1 hdel.2))
  rw [if_neg hdel]
  by_cases hwrite : c ≥ 32 ∧ s.i < bufLen - 1
  · rw [if_pos hwrite]
    exact hgoes (writeKey_ok h hwrite.2)
  rw [if_neg hwrite]
  by_cases hback : c = 8 ∧ s.i > 0
  · rw [if_pos hback]
    exact hgoes (backspace_ok h hback.2 (ha.back hback.1 hback.2))
  rw [if_neg hback]
  by_cases henter : c = 10 ∨ c = 13
  · rw [if_pos henter]
    obtain ⟨hlast, hend⟩ := ha.enter henter
    obtain ⟨t, ht, hnew⟩ := enterKey_ok h (by omega) hlast (by rwa [hmax] at hend)
    exact ⟨true, t, bind_of_ok ht, hnew, nofun⟩
  · rw [if_neg henter]
    exact ⟨false, s, rfl, h.newLine, fun _ => h⟩

/-- A key that is not allowed reaches an index outside. -/
theorem handleKey_outside (h : s.WellFormed) (hle : s.i ≤ s.lastIndex) (ha : ¬ s.Allows c) :
    ∃ x t, handleKey c s = .error x t := by
  have hmax : max s.i s.lastIndex = s.lastIndex := max_eq_right hle
  have hfails : ∀ {y : RM Unit} {b : Bool}, (∃ x t, y s = .error x t) →
      ∃ x t, (do y; return b : RM Bool) s = .error x t := by
    rintro y b ⟨x, t, hy⟩
    exact ⟨x, t, bind_of_error hy⟩
  by_contra hno
  refine ha ⟨fun hc hany => ?_, fun hc hi => ?_, fun hc hi => ?_, fun hc => ?_⟩
  · by_contra hk
    apply hno
    rw [hc, handleKey, get_bind, if_neg (by decide), if_pos rfl]
    exact hfails (downArrow_outside h hany hk)
  · by_contra hk
    apply hno
    rw [hc, handleKey, get_bind, if_neg (by decide), if_neg (by decide), if_neg (by decide), if_neg (by decide),
      if_pos ⟨rfl, hi⟩]
    exact hfails (deleteKey_outside hle (by rwa [hmax] at hk))
  · by_contra hk
    apply hno
    rw [hc, handleKey, get_bind, if_neg (by decide), if_neg (by decide), if_neg (by decide), if_neg (by decide),
      if_neg (fun h' => absurd h'.1 (by decide)), if_neg (fun h' => absurd h'.1 (by decide)), if_pos ⟨rfl, hi⟩]
    exact hfails (backspace_outside hk)
  · by_contra hk
    rw [hmax] at hk
    apply hno
    have hne : c ≠ 226 ∧ c ≠ 227 ∧ c ≠ 228 ∧ c ≠ 229 ∧ c ≠ 233 ∧ ¬ c ≥ 32 ∧ c ≠ 8 := by
      rcases hc with rfl | rfl <;> decide
    obtain ⟨h1, h2, h3, h4, h5, h6, h7⟩ := hne
    rw [handleKey, get_bind, if_neg h1, if_neg h2, if_neg h3, if_neg h4, if_neg (fun h' => h5 h'.1),
      if_neg (fun h' => h6 h'.1), if_neg (fun h' => h7 h'.1), if_pos hc]
    exact hfails (enterKey_outside hk)

theorem allows_seen : Readline.Allows { s with lastIndex := max s.i s.lastIndex } c ↔ s.Allows c := by
  have hmax : max s.i (max s.i s.lastIndex) = max s.i s.lastIndex := max_eq_right (le_max_left _ _)
  constructor
  · rintro ⟨h1, h2, h3, h4⟩
    exact ⟨h1, by rwa [hmax] at h2, h3, by rwa [hmax] at h4⟩
  · rintro ⟨h1, h2, h3, h4⟩
    exact ⟨h1, by rwa [hmax], h3, by rwa [hmax]⟩

theorem pressKey_ok (h : s.WellFormed) (ha : s.Allows c) : ∃ t, pressKey c s = .ok () t ∧ t.WellFormed := by
  obtain ⟨b, t, ht, hnew, hsame⟩ := handleKey_ok h.seen (le_max_left _ _) (allows_seen.2 ha)
  have hread : readKey c s = .ok b t := by
    rw [readKey, modify_bind]
    exact ht
  unfold pressKey
  rw [bind_of_ok hread]
  cases b with
  | true => exact ⟨_, rfl, hnew⟩
  | false => exact ⟨_, rfl, hsame rfl⟩

theorem pressKey_outside (h : s.WellFormed) (ha : ¬ s.Allows c) : ∃ x t, pressKey c s = .error x t := by
  obtain ⟨x, t, ht⟩ := handleKey_outside h.seen (le_max_left _ _) (fun hs => ha (allows_seen.1 hs))
  refine ⟨x, t, ?_⟩
  unfold pressKey
  rw [bind_of_error]
  rw [readKey, modify_bind]
  exact ht

end Keys

/-! ## Runs -/

/-- A run that has not left the buffers is where it can go on. -/
def Sound : Option Readline → Prop
  | some s => s.WellFormed
  | none => False

theorem KeyStep.sound {w w' : Option Readline} {k : Key} (hI : Sound w) (hC : Allowed w k) (hs : KeyStep w k w') :
    Sound w' := by
  cases hs with
  | reads h =>
    obtain ⟨t, ht, hw⟩ := pressKey_ok hI hC
    rw [h] at ht
    cases ht
    exact hw
  | leaves h =>
    obtain ⟨t, ht, -⟩ := pressKey_ok hI hC
    rw [h] at ht
    cases ht

theorem KeyStep.allowed {w w' : Option Readline} {k : Key} (hI : Sound w) (hs : KeyStep w k w') (hin : Inside w') :
    Allowed w k := by
  cases hs with
  | reads h =>
    by_contra hC
    obtain ⟨x, t, ht⟩ := pressKey_outside hI hC
    rw [h] at ht
    cases ht
  | leaves => exact hin.elim

theorem Sound.inside {w : Option Readline} (hI : Sound w) : Inside w := by
  cases w with
  | none => exact hI
  | some s => trivial

/-- Over any keys and lines, the indices stay inside exactly as long as every key is allowed. -/
theorem indices_inside_iff {s : Readline} (h : s.WellFormed) (keys : List Key) :
    Always KeyStep Inside (some s) keys ↔ Each KeyStep Allowed (some s) keys :=
  always_iff_each (I := Sound) (fun _ hI => hI.inside) (fun _ _ _ hI hC hs => hs.sound hI hC)
    (fun _ _ _ hI hs hin => hs.allowed hI hin) h

theorem firstLine_wellFormed : firstLine.WellFormed := by
  have hend : Ends fun _ => 0 := ⟨0, by decide, rfl⟩
  exact ⟨by decide, by decide, by decide, fun _ _ _ => hend⟩

theorem indices_inside_iff_boot :
    Always KeyStep Inside (some firstLine) [⟨97, by decide⟩, ⟨228, by decide⟩, ⟨98, by decide⟩] ↔
    Each KeyStep Allowed (some firstLine) [⟨97, by decide⟩, ⟨228, by decide⟩, ⟨98, by decide⟩] :=
  indices_inside_iff firstLine_wellFormed _

/-- The first command is compared with the one before the first row. -/
theorem first_command_outside : ¬ Always KeyStep Inside (some firstLine) [⟨10, by decide⟩] := by
  intro h
  have hout : ¬ firstLine.Allows 10 := fun ha => absurd (ha.enter (.inl rfl)).1 (by decide)
  obtain ⟨x, t, ht⟩ := pressKey_outside firstLine_wellFormed hout
  exact (h.2 none (.leaves ht)).elim

end Fos.Console
