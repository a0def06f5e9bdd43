/-
A buffer of fixed size that is handed over whenever it is full, and once more at the end. What is handed over carries
the label that holds at that time; between the elements the label may be set.
-/
import Mathlib.Tactic

namespace Fos.Lib

variable {α β : Type} {n : Nat}

/-- The elements of a sequence of elements and labels. -/
def elements (es : List (α ⊕ β)) : List α := es.filterMap Sum.getLeft?

/-- The label after a sequence. -/
def label (b : β) (es : List (α ⊕ β)) : β := es.foldl (fun b e => e.elim (fun _ => b) id) b

/-- What is handed over, where `pending` is in the buffer. -/
def chunks (n : Nat) (b : β) (pending : List α) : List (α ⊕ β) → List (List α × β)
  | [] => [(pending, b)]
  | .inl a :: es =>
    if pending.length + 1 = n then (pending ++ [a], b) :: chunks n b [] es else chunks n b (pending ++ [a]) es
  | .inr b :: es => chunks n b pending es

variable {b : β} {pending : List α} {es : List (α ⊕ β)}

/-- Nothing is lost, and everything keeps its order. -/
theorem flatMap_chunks : (chunks n b pending es).flatMap Prod.fst = pending ++ elements es := by
  induction es generalizing b pending with
  | nil => simp [chunks, elements]
  | cons e es ih =>
    rcases e with a | b'
    · unfold chunks
      split
      · rw [List.flatMap_cons, ih, List.nil_append, List.append_assoc]
        rfl
      · rw [ih, List.append_assoc]
        rfl
    · exact ih

/-- The buffer is full each time but the last, and then it is not. -/
theorem chunks_eq_append (h : pending.length < n) : ∃ full last, chunks n b pending es = full ++ [last] ∧
    (∀ c ∈ full, c.1.length = n) ∧ last.1.length < n := by
  induction es generalizing b pending with
  | nil => exact ⟨[], (pending, b), rfl, nofun, h⟩
  | cons e es ih =>
    rcases e with a | b'
    · unfold chunks
      split
      case isTrue hn =>
        obtain ⟨full, last, heq, hfull, hlast⟩ := @ih b [] (by simp only [List.length_nil]; omega)
        refine ⟨_ :: full, last, by rw [heq, List.cons_append], ?_, hlast⟩
        exact List.forall_mem_cons.2 ⟨by rw [List.length_append, List.length_singleton, hn], hfull⟩
      case isFalse hn =>
        apply ih
        rw [List.length_append, List.length_singleton]
        omega
    · exact ih h

/-- What does not fill the buffer is handed over at once, with the last label. -/
theorem chunks_of_lt (h : pending.length + (elements es).length < n) :
    chunks n b pending es = [(pending ++ elements es, label b es)] := by
  induction es generalizing b pending with
  | nil => simp [chunks, elements, label]
  | cons e es ih =>
    rcases e with a | b'
    · have hel : elements (.inl a :: es : List (α ⊕ β)) = a :: elements es := rfl
      rw [hel, List.length_cons] at h
      rw [chunks, if_neg (by omega), ih (by rw [List.length_append, List.length_singleton]; omega), hel,
        List.append_assoc]
      rfl
    · exact ih h

/-- Something is handed over at the end. -/
theorem chunks_ne_nil : chunks n b pending es ≠ [] := by
  induction es generalizing b pending with
  | nil => exact List.cons_ne_nil _ _
  | cons e es ih =>
    rcases e with a | b'
    · unfold chunks
      split
      · exact List.cons_ne_nil _ _
      · exact ih
    · exact ih

/-- What is handed over carries the label at that time: of the elements up to its last one, or of all where it is the
last. -/
theorem label_of_chunks {before after : List (List α × β)} {c : List α × β}
    (h : chunks n b pending es = before ++ c :: after) : ∃ es₁ es₂, es = es₁ ++ es₂ ∧
      pending ++ elements es₁ = (before ++ [c]).flatMap Prod.fst ∧ c.2 = label b es₁ ∧ (after = [] → es₂ = []) ∧
      (after ≠ [] → ∃ es₀ a, es₁ = es₀ ++ [.inl a]) := by
  induction es generalizing b pending before with
  | nil =>
    obtain ⟨rfl, hc⟩ | ⟨_, -, hnil⟩ := List.append_eq_cons_iff.1 h.symm
    · obtain ⟨rfl, rfl⟩ := List.cons.inj hc
      exact ⟨[], [], rfl, by simp [elements], rfl, fun _ => rfl, fun hne => absurd rfl hne⟩
    · cases (List.append_eq_nil_iff.1 hnil.symm).2
  | cons e es ih =>
    -- one more element before those of the rest of the sequence
    have hcons : ∀ {b' : β} {pending' : List α} {before' : List (List α × β)},
        chunks n b' pending' es = before' ++ c :: after →
        (∀ es₁, pending' ++ elements es₁ = (before' ++ [c]).flatMap Prod.fst →
          pending ++ elements (e :: es₁) = (before ++ [c]).flatMap Prod.fst) →
        (∀ es₁, label b' es₁ = label b (e :: es₁)) →
        ∃ es₁ es₂, e :: es = es₁ ++ es₂ ∧ pending ++ elements es₁ = (before ++ [c]).flatMap Prod.fst ∧
          c.2 = label b es₁ ∧ (after = [] → es₂ = []) ∧ (after ≠ [] → ∃ es₀ a, es₁ = es₀ ++ [.inl a]) := by
      intro b' pending' before' h' hel hlab
      obtain ⟨es₁, es₂, rfl, h1, h2, h3, h4⟩ := ih h'
      refine ⟨e :: es₁, es₂, rfl, hel es₁ h1, h2.trans (hlab es₁), h3, fun hne => ?_⟩
      obtain ⟨es₀, a, rfl⟩ := h4 hne
      exact ⟨e :: es₀, a, rfl⟩
    rcases e with a | b'
    · unfold chunks at h
      split at h
      · rcases List.append_eq_cons_iff.1 h.symm with ⟨rfl, hc⟩ | ⟨before', rfl, hrest⟩
        · obtain ⟨rfl, rfl⟩ := List.cons.inj hc
          exact ⟨[.inl a], es, rfl, by simp [elements], rfl, fun hnil => absurd hnil chunks_ne_nil,
            fun _ => ⟨[], a, rfl⟩⟩
        · refine hcons hrest (fun es₁ h1 => ?_) fun es₁ => rfl
          have hel : elements (.inl a :: es₁ : List (α ⊕ β)) = a :: elements es₁ := rfl
          rw [List.nil_append] at h1
          rw [hel, h1, List.cons_append, List.flatMap_cons, List.append_assoc]
          rfl
      · refine hcons h (fun es₁ h1 => ?_) fun es₁ => rfl
        have hel : elements (.inl a :: es₁ : List (α ⊕ β)) = a :: elements es₁ := rfl
        rw [hel, ← h1, List.append_assoc]
        rfl
    · exact hcons h (fun es₁ h1 => h1) fun es₁ => rfl

theorem label_mem (b : β) (es : List (α ⊕ β)) : label b es = b ∨ .inr (label b es) ∈ es := by
  induction es generalizing b with
  | nil => exact Or.inl rfl
  | cons e es ih =>
    cases e with
    | inl a => exact (ih b).imp_right (List.mem_cons_of_mem _)
    | inr b' =>
      rcases ih b' with h | h
      · exact Or.inr (List.mem_cons.2 (Or.inl (congrArg Sum.inr h)))
      · exact Or.inr (List.mem_cons_of_mem _ h)

theorem label_of_mem_chunks {c : List α × β} (h : c ∈ chunks n b pending es) : c.2 = b ∨ .inr c.2 ∈ es := by
  obtain ⟨before, after, heq⟩ := List.append_of_mem h
  obtain ⟨es₁, es₂, rfl, -, hc, -⟩ := label_of_chunks heq
  rw [hc]
  exact (label_mem b es₁).imp_right (List.mem_append_left _)

end Fos.Lib
