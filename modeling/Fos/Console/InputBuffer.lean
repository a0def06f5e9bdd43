/-
The console input buffer of `kern/cons/console.c`: interrupts put characters into it, one at a time, at any point of the
calls that take them. Nothing in `cons_intr` looks at the reading position.
-/
import Fos.Lib.RingBuffer
import Fos.Lib.Trace

namespace Fos.Console

open Fos.Lib

/-! ## The code -/

def consBufSize : Nat := 512

abbrev Cons := RingBuffer UInt8

/-- The loop body of `cons_intr`. -/
def consPut (c : UInt8) (s : Cons) : Cons := if c = 0 then s else (s.write c).wrapWrite consBufSize

/-- `cons_intr`, with what the device gives before -1. -/
def consIntr (data : List UInt8) (s : Cons) : Cons := data.foldl (fun s c => consPut c s) s

def consGetc2 (s : Cons) : UInt8 × Cons :=
  if s.rpos ≠ s.wpos then (s.buf s.rpos, s.advance.wrapRead consBufSize) else (0, s)

/-- `cons_getc`, which polls the serial port and the keyboard first. -/
def consGetc (serial kbd : List UInt8) (s : Cons) : UInt8 × Cons := consGetc2 (consIntr kbd (consIntr serial s))

/-! ## Runs -/

/-- How far a call that takes a character has come. -/
inductive Reader where
  | idle
  | waiting
  | taken
  deriving DecidableEq

/-- The characters that came while there was room, and those that were given to a reader. -/
structure World where
  cons : Cons
  reader : Reader
  accepted : List UInt8
  delivered : List UInt8

/-- A character of a batch, and the points of a `cons_getc` or `cons_getc2`: the comparison of the positions, the
character taken, and the position wrapped. -/
inductive Event where
  | put (c : UInt8)
  | compare
  | take
  | wrap

/-- A character comes. There is room for it if a place stays free, since equal positions mean that nothing waits. -/
def World.put (w : World) (c : UInt8) : World :=
  { w with
    cons := consPut c w.cons
    accepted := if c ≠ 0 ∧ w.accepted.length - w.delivered.length + 1 < consBufSize then
      w.accepted ++ [c] else w.accepted }

inductive Step : World → Event → World → Prop
  | put {w : World} {c : UInt8} : Step w (.put c) (w.put c)
  | nothing {w : World} (hr : w.reader = .idle) (hpos : w.cons.rpos = w.cons.wpos) : Step w .compare w
  | waits {w : World} (hr : w.reader = .idle) (hpos : w.cons.rpos ≠ w.cons.wpos) :
      Step w .compare { w with reader := .waiting }
  | take {w : World} (hr : w.reader = .waiting) :
      Step w .take { w with
        cons := w.cons.advance
        reader := .taken
        delivered := w.delivered ++ [w.cons.buf w.cons.rpos] }
  | wrap {w : World} (hr : w.reader = .taken) :
      Step w .wrap { w with cons := w.cons.wrapRead consBufSize, reader := .idle }

/-- The buffer at boot. -/
def boot : World where
  cons := { buf := fun _ => 0, rpos := 0, wpos := 0 }
  reader := .idle
  accepted := []
  delivered := []

/-- What was given to readers and what waits are the characters that were accepted, in their order. -/
def World.InOrder (w : World) : Prop := w.delivered ++ w.cons.contents consBufSize = w.accepted

/-- A character that is put finds fewer than 511 waiting. -/
def World.HasRoom (w : World) : Event → Prop
  | .put c => c ≠ 0 → w.cons.used consBufSize + 1 < consBufSize
  | _ => True

/-! ## Calls as events -/

/-- Events one after the other. -/
def Steps : World → List Event → World → Prop
  | w, [], w' => w' = w
  | w, e :: es, w' => ∃ u, Step w e u ∧ Steps u es w'

section Calls

variable {w u v : World}

theorem Steps.append {es' : List Event} : ∀ {es : List Event} {w : World}, Steps w es u → Steps u es' v →
    Steps w (es ++ es') v
  | [], _, h, h' => by
    obtain rfl : u = _ := h
    exact h'
  | _ :: _, _, ⟨r, hs, h⟩, h' => ⟨r, hs, Steps.append h h'⟩

theorem consIntr_steps (data : List UInt8) : ∀ {w : World}, ∃ w', Steps w (data.map .put) w' ∧
    w'.cons = consIntr data w.cons ∧ w'.reader = w.reader ∧ w'.delivered = w.delivered := by
  induction data with
  | nil => exact fun {w} => ⟨w, rfl, rfl, rfl, rfl⟩
  | cons c data ih =>
    rintro w
    obtain ⟨w', hs, hc, hr, hd⟩ := ih (w := w.put c)
    exact ⟨w', ⟨w.put c, .put, hs⟩, hc, hr, hd⟩

/-- A call that nothing interrupts. -/
theorem consGetc2_steps (hr : w.reader = .idle) : ∃ es w', Steps w es w' ∧ w'.reader = .idle ∧
    w'.cons = (consGetc2 w.cons).2 ∧
    w'.delivered = w.delivered ++ if w.cons.rpos = w.cons.wpos then [] else [(consGetc2 w.cons).1] := by
  by_cases hpos : w.cons.rpos = w.cons.wpos
  · refine ⟨[.compare], w, ⟨w, .nothing hr hpos, rfl⟩, hr, ?_, ?_⟩
    · rw [consGetc2, if_neg (not_not.2 hpos)]
    · rw [if_pos hpos, List.append_nil]
  · refine ⟨[.compare, .take, .wrap], _, ⟨_, .waits hr hpos, _, .take rfl, _, .wrap rfl, rfl⟩, rfl, ?_, ?_⟩
    · rw [consGetc2, if_pos hpos]
    · rw [if_neg hpos, consGetc2, if_pos hpos]

theorem consGetc_steps (serial kbd : List UInt8) (hr : w.reader = .idle) : ∃ es w', Steps w es w' ∧ w'.reader = .idle ∧
    w'.cons = (consGetc serial kbd w.cons).2 := by
  obtain ⟨w₁, hs₁, hc₁, hr₁, -⟩ := consIntr_steps serial (w := w)
  obtain ⟨w₂, hs₂, hc₂, hr₂, -⟩ := consIntr_steps kbd (w := w₁)
  obtain ⟨es, w₃, hs₃, hr₃, hc₃, -⟩ := consGetc2_steps (w := w₂) (by rw [hr₂, hr₁, hr])
  refine ⟨_, w₃, hs₁.append (hs₂.append hs₃), hr₃, ?_⟩
  rw [hc₃, hc₂, hc₁]
  rfl

end Calls

/-! ## Delivery -/

/-- What every step with room keeps. -/
structure World.Inv (w : World) : Prop where
  range : w.cons.InRange consBufSize
  order : w.InOrder
  wrapped : w.reader ≠ .taken → w.cons.rpos < consBufSize
  found : w.reader = .waiting → w.cons.rpos ≠ w.cons.wpos

section Delivery

variable {w w' : World} {e : Event} {c : UInt8}

theorem World.Inv.waiting (h : w.Inv) : w.accepted.length - w.delivered.length = w.cons.used consBufSize := by
  have hlen := congrArg List.length h.order
  rw [List.length_append, RingBuffer.length_contents] at hlen
  omega

theorem World.put_zero : w.put 0 = w := by
  unfold World.put consPut
  simp

theorem World.put_cons (hc : c ≠ 0) : (w.put c).cons = (w.cons.write c).wrapWrite consBufSize := if_neg hc

theorem World.Inv.put (h : w.Inv) (hroom : w.HasRoom (.put c)) : (w.put c).Inv := by
  by_cases hc : c = 0
  · rw [hc, World.put_zero]
    exact h
  have hcons := World.put_cons (w := w) hc
  have hrange : (w.put c).cons.InRange consBufSize := hcons ▸ h.range.write_wrapWrite
  have hlast : (w.put c).cons.rpos = w.cons.rpos := by rw [hcons, RingBuffer.write_buf.2]
  have hcontents : (w.put c).cons.contents consBufSize = w.cons.contents consBufSize ++ [c] := by
    rw [hcons, RingBuffer.contents_write h.range (hroom hc)]
  constructor
  · exact hrange
  · have hacc : (w.put c).accepted = w.accepted ++ [c] := if_pos ⟨hc, by rw [h.waiting]; exact hroom hc⟩
    unfold World.InOrder
    rw [hacc, hcontents, ← h.order, List.append_assoc]
    rfl
  · rw [hlast]
    exact h.wrapped
  · intro hr hpos
    have hlt : w.cons.rpos < consBufSize := h.wrapped (by rw [show w.reader = .waiting from hr]; nofun)
    have hnil := (RingBuffer.contents_eq_nil_iff hrange (hlast.trans_lt hlt)).2 hpos
    rw [hcontents] at hnil
    simp at hnil

/-- A full buffer loses what waits in it. -/
theorem World.Inv.put_full (h : w.Inv) (hc : c ≠ 0) (hfull : ¬ w.cons.used consBufSize + 1 < consBufSize) :
    ¬ (w.put c).InOrder := by
  have hlt := RingBuffer.used_lt h.range
  have hacc : (w.put c).accepted = w.accepted := if_neg fun hr => hfull (by rw [← h.waiting]; exact hr.2)
  have hcontents : (w.put c).cons.contents consBufSize = [] := by
    rw [World.put_cons hc, RingBuffer.contents_write_full h.range (by omega)]
  intro ho
  unfold World.InOrder at ho
  rw [hacc, hcontents, List.append_nil] at ho
  have hwait := h.waiting
  rw [← show w.delivered = w.accepted from ho, Nat.sub_self] at hwait
  rw [← hwait] at hfull
  exact hfull (by decide)

theorem World.Inv.step (h : w.Inv) (hroom : w.HasRoom e) (hs : Step w e w') : w'.Inv := by
  cases hs with
  | put => exact h.put hroom
  | nothing => exact h
  | waits hr hpos => exact ⟨h.range, h.order, fun _ => h.wrapped (by rw [hr]; nofun), fun _ => hpos⟩
  | take hr =>
    have hlt : w.cons.rpos < consBufSize := h.wrapped (by rw [hr]; nofun)
    refine ⟨⟨hlt, h.range.write⟩, ?_, fun hne => absurd rfl hne, nofun⟩
    have ho := h.order
    unfold World.InOrder at ho ⊢
    rw [RingBuffer.contents_advance h.range hlt (h.found hr)] at ho
    simpa using ho
  | wrap hr =>
    obtain ⟨hrange, hlt⟩ := h.range.wrapRead
    refine ⟨hrange, ?_, fun _ => hlt, nofun⟩
    unfold World.InOrder
    rw [RingBuffer.contents_wrapRead h.range]
    exact h.order

theorem World.Inv.exact (h : w.Inv) (hs : Step w e w') (ho : w'.InOrder) : w.HasRoom e := by
  cases hs with
  | put =>
    intro hc
    by_contra hfull
    exact h.put_full hc hfull ho
  | nothing | waits | take | wrap => trivial

theorem boot_inv : boot.Inv := by
  constructor
  · exact ⟨by decide, by decide⟩
  · rfl
  · exact fun _ => by decide
  · nofun

end Delivery

/-- Characters are given to readers in the order in which they came, each once, and none is lost but those that find 511
waiting, in exactly those runs where none finds 511 waiting. -/
theorem characters_in_order_iff (events : List Event) :
    Always Step World.InOrder boot events ↔ Each Step World.HasRoom boot events :=
  always_iff_each (fun _ h => h.order) (fun _ _ _ h hC hs => h.step hC hs) (fun _ _ _ h hs hP => h.exact hs hP) boot_inv

theorem always_puts {P : World → Prop} : ∀ (cs : List UInt8) {w : World}, Always Step P w (cs.map .put) →
    P (cs.foldl World.put w)
  | [], _, h => h
  | _ :: cs, _, h => always_puts cs (h.2 _ .put)

/-- The 512th character that waits. -/
theorem full_buffer_emptied : ¬ Always Step World.InOrder boot ((List.replicate 512 97).map .put) := by
  intro h
  have ho := always_puts _ h
  revert ho
  unfold World.InOrder
  decide +kernel

end Fos.Console
