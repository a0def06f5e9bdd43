/-
`vsnprintf` of `lib/printfmt.c`, which prints into memory. Neither the format nor a string that it prints lies in the
buffer: what the text is made of does not change while it is written.
-/
import Fos.Print.Cprintf

namespace Fos.Print

open Fos.Shared

/-! ## The code -/

abbrev Bytes := BitVec 32 → UInt8

/-- `E_INVAL`. -/
def eInval : CInt := -3

/-- `struct sprintbuf`, and the memory. -/
structure Sprintbuf where
  buf : BitVec 32
  ebuf : BitVec 32
  cnt : CInt
  bytes : Bytes

def sprintputch (ch : Int) (b : Sprintbuf) : Sprintbuf :=
  let b := { b with cnt := b.cnt + 1 }
  if b.buf < b.ebuf then { b with bytes := Function.update b.bytes b.buf (toChar ch), buf := b.buf + 1 } else b

def sprintSink : Sink Sprintbuf where
  putch := sprintputch
  setProgName _ b := b

/-- `vsnprintf`; a `buf` or `n` that does not fit gives `3`, since `E_INVAL` is negative. -/
def vsnprintf (mem : Strings) (buf : BitVec 32) (n : CInt) (fmt : List UInt8) (ap : VaList) (m : Bytes) :
    CInt × Bytes :=
  -- the last byte is kept for the `NUL`
  let b : Sprintbuf := { buf, ebuf := buf + n - 1, cnt := 0, bytes := m }
  if buf = 0 ∨ n.toInt < 1 then (-eInval, m)
  else
    let b := vprintfmt sprintSink mem fmt ap b
    (b.cnt, Function.update b.bytes b.buf 0)

/-! ## What is written -/

/-- A text in memory, with nothing else changed. -/
structure Written (m m' : Bytes) (buf : BitVec 32) (text : List UInt8) : Prop where
  here : ∀ i, ∀ h : i < text.length, m' (buf + BitVec.ofNat 32 i) = text[i]
  elsewhere : ∀ a : BitVec 32, a.toNat < buf.toNat ∨ buf.toNat + text.length ≤ a.toNat → m' a = m a

theorem toNat_add_ofNat {a : BitVec 32} {i : Nat} (h : a.toNat + i < 4294967296) :
    (a + BitVec.ofNat 32 i).toNat = a.toNat + i := by
  rw [BitVec.toNat_add, BitVec.toNat_ofNat]
  omega

/-- One more byte after the text. -/
theorem Written.push {m m' : Bytes} {buf : BitVec 32} {text : List UInt8} (h : Written m m' buf text)
    (hfit : buf.toNat + text.length < 4294967296) (v : UInt8) :
    Written m (Function.update m' (buf + BitVec.ofNat 32 text.length) v) buf (text ++ [v]) where
  here i hi := by
    rw [List.length_append, List.length_singleton] at hi
    by_cases hlast : i = text.length
    · subst hlast
      rw [Function.update_self, List.getElem_concat_length rfl]
    · have hne : buf + BitVec.ofNat 32 i ≠ buf + BitVec.ofNat 32 text.length := by
        intro he
        have := congrArg BitVec.toNat he
        rw [toNat_add_ofNat (by omega), toNat_add_ofNat hfit] at this
        omega
      rw [Function.update_of_ne hne, h.here i (by omega), List.getElem_append_left]
  elsewhere a ha := by
    rw [List.length_append, List.length_singleton] at ha
    have hne : a ≠ buf + BitVec.ofNat 32 text.length := by
      intro he
      rw [he, toNat_add_ofNat hfit] at ha
      omega
    rw [Function.update_of_ne hne, h.elsewhere a (by omega)]

/-- The buffer after a text of which the first `room` characters have a place. -/
structure Sprintbuf.Holds (b : Sprintbuf) (m : Bytes) (start : BitVec 32) (room : Nat) (text : List UInt8) : Prop where
  buf : b.buf = start + BitVec.ofNat 32 (text.take room).length
  ebuf : b.ebuf.toNat = start.toNat + room
  cnt : b.cnt = BitVec.ofNat 32 text.length
  written : Written m b.bytes start (text.take room)

/-- A character is counted, and written if there is a place for it. -/
theorem Sprintbuf.Holds.putch {b : Sprintbuf} {m : Bytes} {start : BitVec 32} {room : Nat} {text : List UInt8}
    (h : b.Holds m start room text) (ch : Int) : (sprintputch ch b).Holds m start room (text ++ [toChar ch]) := by
  have hbound := b.ebuf.isLt
  have hebuf := h.ebuf
  have hlen : (text.take room).length = min room text.length := List.length_take
  have hbuf : b.buf.toNat = start.toNat + (text.take room).length := by
    rw [h.buf, toNat_add_ofNat (by omega)]
  -- the pointer is at the end exactly if the places are used up
  have hlt : b.buf < b.ebuf ↔ text.length < room := by
    rw [BitVec.lt_def]
    omega
  unfold sprintputch
  simp only
  split
  case isTrue hroom =>
    have hroom := hlt.1 hroom
    have htake : (text ++ [toChar ch]).take room = text.take room ++ [toChar ch] := by
      rw [List.take_append, List.take_of_length_le (show [toChar ch].length ≤ room - text.length by
        rw [List.length_singleton]; omega)]
    refine ⟨?_, hebuf, ?_, ?_⟩
    · rw [htake, List.length_append, List.length_singleton, ← BitVec.ofNat_add_ofNat]
      show b.buf + 1 = _
      rw [h.buf, BitVec.add_assoc]
      rfl
    · rw [List.length_append, List.length_singleton, ← BitVec.ofNat_add_ofNat, ← h.cnt]
      rfl
    · rw [htake, h.buf]
      exact h.written.push (by omega) (toChar ch)
  case isFalse hroom =>
    have hroom : ¬text.length < room := fun hr => hroom (hlt.2 hr)
    have htake : (text ++ [toChar ch]).take room = text.take room := List.take_append_of_le_length (by omega)
    refine ⟨by rw [htake]; exact h.buf, hebuf, ?_, by rw [htake]; exact h.written⟩
    rw [List.length_append, List.length_singleton, ← BitVec.ofNat_add_ofNat, ← h.cnt]
    rfl

theorem Sprintbuf.Holds.all {m : Bytes} {start : BitVec 32} {room : Nat} (es : List Event) {b : Sprintbuf}
    {text : List UInt8} (h : b.Holds m start room text) :
    (sprintSink.all es b).Holds m start room (text ++ (texts es).map toChar) := by
  -- `progName` events change nothing in memory
  induction es generalizing b text with
  | nil => simpa [texts, Fos.Lib.elements] using h
  | cons e es ih =>
    cases e with
    | putch ch =>
      have htexts : texts (.putch ch :: es) = ch :: texts es := rfl
      have := ih (h.putch ch)
      rwa [List.append_assoc, List.singleton_append, ← List.map_cons, ← htexts] at this
    | progName f => exact ih h

/-- `vsnprintf` into `n` bytes at `buf` writes as much of the text as has a place before a `NUL`, and the `NUL`, and
nothing else; the result is the length of the whole text. -/
theorem vsnprintf_writes (mem : Strings) {buf : BitVec 32} {n : CInt} (fmt : List UInt8) (ap : VaList) (m : Bytes)
    (hbuf : buf ≠ 0) (hn : 0 < n.toInt) (hfit : buf.toNat + n.toNat ≤ 4294967296) :
    (vsnprintf mem buf n fmt ap m).1 = BitVec.ofNat 32 (texts (events mem fmt ap)).length ∧
      Written m (vsnprintf mem buf n fmt ap m).2 buf
        (((texts (events mem fmt ap)).map toChar).take (n.toNat - 1) ++ [0]) := by
  have hpos : 0 < n.toNat := by
    rcases Nat.eq_zero_or_pos n.toNat with h0 | h0
    · rw [BitVec.eq_of_toNat_eq (h0.trans BitVec.toNat_zero.symm), BitVec.toInt_zero] at hn
      exact absurd hn (lt_irrefl 0)
    · exact h0
  have hebuf : (buf + n - 1).toNat = buf.toNat + (n.toNat - 1) := by bv_omega
  have hstart : Sprintbuf.Holds ⟨buf, buf + n - 1, 0, m⟩ m buf (n.toNat - 1) [] :=
    ⟨by simp, hebuf, rfl, ⟨fun i hi => absurd hi (by simp), fun _ _ => rfl⟩⟩
  have hall := hstart.all (events mem fmt ap)
  rw [List.nil_append] at hall
  unfold vsnprintf
  rw [if_neg (not_or.2 ⟨hbuf, by omega⟩), vprintfmt_eq]
  simp only
  constructor
  · rw [hall.cnt, List.length_map]
  · have hlen : (((texts (events mem fmt ap)).map toChar).take (n.toNat - 1)).length ≤ n.toNat - 1 :=
      List.length_take_le _ _
    rw [hall.buf]
    exact hall.written.push (by omega) 0

theorem vsnprintf_writes_pid :
    (vsnprintf Call.initCall.mem 4096 4 (bytes "pid %d") (args [42]) fun _ => 1).1 =
        BitVec.ofNat 32 (texts (events Call.initCall.mem (bytes "pid %d") (args [42]))).length ∧
      Written (fun _ => 1) (vsnprintf Call.initCall.mem 4096 4 (bytes "pid %d") (args [42]) fun _ => 1).2 4096
        (((texts (events Call.initCall.mem (bytes "pid %d") (args [42]))).map toChar).take 3 ++ [0]) :=
  @vsnprintf_writes Call.initCall.mem 4096 4 (bytes "pid %d") (args [42]) (fun _ => 1) (by decide) (by decide)
    (by decide)

end Fos.Print
