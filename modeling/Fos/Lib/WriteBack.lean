/-
A write-back cell. A value may be held and may be kept behind; one that was changed since it was last kept is dirty.
What is seen is the value held, else the one behind, else a blank. Writing back, dropping a value that is saved and
bringing one in are not seen.
-/
import Mathlib.Logic.Basic

namespace Fos.Lib

structure WriteBack (α : Type*) where
  held : Option α
  dirty : Bool
  back : Option α

namespace WriteBack

section WriteBack

variable {α : Type*} {blank a : α} {c c' c'' : WriteBack α}

/-- What a reload brings. -/
def behind (blank : α) (c : WriteBack α) : α := c.back.getD blank

def seen (blank : α) (c : WriteBack α) : α := c.held.getD (c.behind blank)

/-- Dropping the value would not be seen. -/
def Saved (blank : α) (c : WriteBack α) : Prop := ∀ a, c.held = some a → c.behind blank = a

def Coherent (blank : α) (c : WriteBack α) : Prop := c.dirty = false → c.Saved blank

/-- A coherent cell stays one, and the same is seen. -/
def Keeps (blank : α) (c c' : WriteBack α) : Prop := c.Coherent blank → c'.Coherent blank ∧ c'.seen blank = c.seen blank

theorem Keeps.refl (blank : α) (c : WriteBack α) : c.Keeps blank c := fun h => ⟨h, rfl⟩

theorem Keeps.trans (h : c.Keeps blank c') (h' : c'.Keeps blank c'') : c.Keeps blank c'' := by
  intro hc
  obtain ⟨hc', hseen⟩ := h hc
  obtain ⟨hc'', hseen'⟩ := h' hc'
  exact ⟨hc'', hseen'.trans hseen⟩

theorem seen_held (h : c.held = some a) : c.seen blank = a := by
  rw [seen, h]
  rfl

theorem seen_none (h : c.held = none) : c.seen blank = c.behind blank := by
  rw [seen, h]
  rfl

theorem saved_store (h : c.held = some a) (hb : c.back = some a) : c.Saved blank := by
  intro b hheld
  obtain rfl := Option.some.inj (h.symm.trans hheld)
  rw [behind, hb]
  rfl

/-- Writing back. -/
theorem keeps_store (h : c.held = some a) (h' : c'.held = some a) (hb : c'.back = some a) : c.Keeps blank c' :=
    fun _ =>
  ⟨fun _ => saved_store h' hb, (seen_held h').trans (seen_held h).symm⟩

theorem keeps_drop (h : c.Saved blank) (h' : c'.held = none) (hb : c'.back = c.back) : c.Keeps blank c' := by
  have hbehind : c'.behind blank = c.behind blank := congrArg (·.getD blank) hb
  refine fun _ => ⟨fun _ a ha => ?_, ?_⟩
  · rw [h'] at ha
    cases ha
  · rw [seen_none h', hbehind]
    cases hheld : c.held with
    | none => exact (seen_none hheld).symm
    | some a => rw [seen_held hheld, h a hheld]

/-- Bringing in, whether marked or not. -/
theorem keeps_fetch (h : c.held = none) (h' : c'.held = some (c.behind blank)) (hb : c'.back = c.back) :
    c.Keeps blank c' := by
  refine fun _ => ⟨fun _ a ha => ?_, ?_⟩
  · obtain rfl := Option.some.inj (h'.symm.trans ha)
    exact congrArg (·.getD blank) hb
  · rw [seen_held h', seen_none h]

/-- A value that is written is marked. -/
theorem coherent_write (h : c.dirty = true) : c.Coherent blank := by
  intro hc
  rw [h] at hc
  cases hc

end WriteBack

end WriteBack

end Fos.Lib
