/-
Things that move between queues: each is on one queue, once, or on the CPU, or in the hand of
whoever moves it. Every move is a step from a place into the hand or from the hand to a place, and keeps
this.
-/
import Mathlib.Data.Finset.Basic
import Mathlib.Data.List.Perm.Basic
import Mathlib.Tactic

namespace Fos.Lib

section Placed

variable {Q α : Type*}

/-- The things of `all`, and no others, are each in exactly one place. -/
structure Placed (queues : Q → List α) (cpu hand : Option α) (all : Finset α) : Prop where
  nodup : ∀ q, (queues q).Nodup
  apart : ∀ q q' e, e ∈ queues q → e ∈ queues q' → q = q'
  known : ∀ q, ∀ e ∈ queues q, e ∈ all
  cpuKnown : ∀ e, cpu = some e → e ∈ all
  cpuFree : ∀ e, cpu = some e → ∀ q, e ∉ queues q
  handKnown : ∀ e, hand = some e → e ∈ all
  handFree : ∀ e, hand = some e → cpu ≠ some e ∧ ∀ q, e ∉ queues q
  placed : ∀ e ∈ all, cpu = some e ∨ hand = some e ∨ ∃ q, e ∈ queues q

variable {queues : Q → List α} {cpu : Option α} {all : Finset α} {e : α} {q : Q} {l : List α}

theorem placed_empty : Placed (fun _ : Q => ([] : List α)) none none ∅ :=
  ⟨fun _ => .nil, by simp, by simp, by simp, by simp, by simp, by simp, by simp⟩

/-- From the CPU into the hand. -/
theorem Placed.leave (h : Placed queues (some e) none all) : Placed queues none (some e) all := by
  refine ⟨h.nodup, h.apart, h.known, by simp, by simp, ?_, ?_, fun x hx => ?_⟩
  · rintro x hx
    exact h.cpuKnown x hx
  · rintro x hx
    exact ⟨by simp, h.cpuFree x hx⟩
  · rcases h.placed x hx with hc | hc | hc
    · exact .inr (.inl hc)
    · cases hc
    · exact .inr (.inr hc)

/-- From the hand to the CPU. -/
theorem Placed.run (h : Placed queues none (some e) all) : Placed queues (some e) none all := by
  refine ⟨h.nodup, h.apart, h.known, ?_, ?_, by simp, by simp, fun x hx => ?_⟩
  · rintro x hx
    exact h.handKnown x hx
  · rintro x hx
    exact (h.handFree x hx).2
  · rcases h.placed x hx with hc | hc | hc
    · cases hc
    · exact .inl hc
    · exact .inr (.inr hc)

/-- A new thing, in the hand. -/
theorem Placed.enter [DecidableEq α] (h : Placed queues cpu none all) (he : e ∉ all) :
    Placed queues cpu (some e) (insert e all) := by
  refine ⟨h.nodup, h.apart, fun q x hx => Finset.mem_insert_of_mem (h.known q x hx),
    fun x hx => Finset.mem_insert_of_mem (h.cpuKnown x hx), h.cpuFree, ?_, ?_, fun x hx => ?_⟩
  · rintro x hx
    cases hx
    exact Finset.mem_insert_self e all
  · rintro x hx
    cases hx
    exact ⟨fun hc => he (h.cpuKnown e hc), fun q hq => he (h.known q e hq)⟩
  · rcases Finset.mem_insert.1 hx with rfl | hx
    · exact .inr (.inl rfl)
    · rcases h.placed x hx with hc | hc | hc
      · exact .inl hc
      · cases hc
      · exact .inr (.inr hc)

/-- The thing in the hand is given up. -/
theorem Placed.release [DecidableEq α] (h : Placed queues cpu (some e) all) : Placed queues cpu none (all.erase e) := by
  obtain ⟨hcpu, hq⟩ := h.handFree e rfl
  refine ⟨h.nodup, h.apart, fun q x hx => Finset.mem_erase.2 ⟨?_, h.known q x hx⟩,
    fun x hx => Finset.mem_erase.2 ⟨?_, h.cpuKnown x hx⟩, h.cpuFree, by simp, by simp, fun x hx => ?_⟩
  · rintro rfl
    exact hq q hx
  · rintro rfl
    exact hcpu hx
  · obtain ⟨hne, hx⟩ := Finset.mem_erase.1 hx
    rcases h.placed x hx with hc | hc | hc
    · exact .inl hc
    · exact absurd (Option.some.inj hc).symm hne
    · exact .inr (.inr hc)

section Update

variable [DecidableEq Q]

theorem mem_update {queues : Q → List α} {q q' : Q} {l : List α} {x : α} :
    x ∈ Function.update queues q l q' ↔ q' = q ∧ x ∈ l ∨ q' ≠ q ∧ x ∈ queues q' := by
  rw [Function.update_apply]
  by_cases hq : q' = q
  · simp [hq]
  · simp [hq]

/-- From a queue into the hand. -/
theorem Placed.take (h : Placed queues cpu none all) (hl : (queues q).Perm (e :: l)) :
    Placed (Function.update queues q l) cpu (some e) all := by
  have hmem : e ∈ queues q := hl.mem_iff.2 List.mem_cons_self
  have hnd := (hl.nodup_iff).1 (h.nodup q)
  rw [List.nodup_cons] at hnd
  have hsub : ∀ {q' x}, x ∈ Function.update queues q l q' → x ∈ queues q' := by
    rintro q' x hx
    rcases mem_update.1 hx with ⟨rfl, hxl⟩ | ⟨-, hxq⟩
    · exact hl.mem_iff.2 (List.mem_cons_of_mem _ hxl)
    · exact hxq
  refine ⟨fun q' => ?_, fun q₁ q₂ x h1 h2 => h.apart q₁ q₂ x (hsub h1) (hsub h2), fun q' x hx => h.known q' x (hsub hx),
    h.cpuKnown, fun x hx q' hq' => h.cpuFree x hx q' (hsub hq'), ?_, ?_, fun x hx => ?_⟩
  · rw [Function.update_apply]
    split
    · exact hnd.2
    · exact h.nodup q'
  · rintro x hx
    cases hx
    exact h.known q e hmem
  · rintro x hx
    cases hx
    refine ⟨fun hc => h.cpuFree e hc q hmem, fun q' hq' => ?_⟩
    rcases mem_update.1 hq' with ⟨-, hx⟩ | ⟨hne, hx⟩
    · exact hnd.1 hx
    · exact hne (h.apart q' q e hx hmem)
  · rcases h.placed x hx with hc | hc | ⟨q', hc⟩
    · exact .inl hc
    · cases hc
    · by_cases hxe : x = e
      · exact .inr (.inl (by rw [hxe]))
      · refine .inr (.inr ⟨q', mem_update.2 ?_⟩)
        by_cases hq : q' = q
        · subst hq
          exact .inl ⟨rfl, (List.mem_cons.1 (hl.mem_iff.1 hc)).resolve_left hxe⟩
        · exact .inr ⟨hq, hc⟩

/-- From the hand to a queue. -/
theorem Placed.put (h : Placed queues cpu (some e) all) (hl : l.Perm (e :: queues q)) :
    Placed (Function.update queues q l) cpu none all := by
  obtain ⟨hcpu, hq⟩ := h.handFree e rfl
  have hsub : ∀ {q' x}, x ∈ Function.update queues q l q' → q' = q ∧ x = e ∨ x ∈ queues q' := by
    rintro q' x hx
    rcases mem_update.1 hx with ⟨rfl, hxl⟩ | ⟨-, hxq⟩
    · exact (List.mem_cons.1 (hl.mem_iff.1 hxl)).imp_left fun hxe => ⟨rfl, hxe⟩
    · exact .inr hxq
  refine ⟨fun q' => ?_, fun q₁ q₂ x h1 h2 => ?_, fun q' x hx => ?_, h.cpuKnown, fun x hx q' hq' => ?_, by simp, by simp,
    fun x hx => ?_⟩
  · rw [Function.update_apply]
    split
    · exact hl.nodup_iff.2 (List.nodup_cons.2 ⟨hq q, h.nodup q⟩)
    · exact h.nodup q'
  · rcases hsub h1 with ⟨rfl, rfl⟩ | h1'
    · rcases hsub h2 with ⟨rfl, -⟩ | h2'
      · rfl
      · exact absurd h2' (hq q₂)
    · rcases hsub h2 with ⟨rfl, rfl⟩ | h2'
      · exact absurd h1' (hq q₁)
      · exact h.apart q₁ q₂ x h1' h2'
  · rcases hsub hx with ⟨-, rfl⟩ | hx
    · exact h.handKnown x rfl
    · exact h.known q' x hx
  · rcases hsub hq' with ⟨-, rfl⟩ | hq'
    · exact hcpu hx
    · exact h.cpuFree x hx q' hq'
  · rcases h.placed x hx with hc | hc | ⟨q', hc⟩
    · exact .inl hc
    · cases hc
      exact .inr (.inr ⟨q, mem_update.2 (.inl ⟨rfl, hl.mem_iff.2 List.mem_cons_self⟩)⟩)
    · refine .inr (.inr ⟨q', mem_update.2 ?_⟩)
      by_cases hqq : q' = q
      · subst hqq
        exact .inl ⟨rfl, hl.mem_iff.2 (List.mem_cons_of_mem _ hc)⟩
      · exact .inr ⟨hqq, hc⟩

end Update

end Placed

end Fos.Lib
