/-
Code with a state and errors (`EStateM`): what a sequence of two pieces of code does from what each
does.
-/
import Mathlib.Tactic

namespace Fos.Lib

section StateCode

variable {ε σ α β : Type} {x : EStateM ε σ α} {f : α → EStateM ε σ β} {s t : σ}

theorem bind_of_ok {a : α} (h : x s = .ok a t) : (x >>= f) s = f a t := by
  simp only [bind, EStateM.bind, h]

theorem bind_of_error {e : ε} (h : x s = .error e t) : (x >>= f) s = .error e t := by
  simp only [bind, EStateM.bind, h]

theorem ok_of_bind {b : β} (h : (x >>= f) s = .ok b t) : ∃ a r, x s = .ok a r ∧ f a r = .ok b t := by
  cases hx : x s with
  | ok a r => exact ⟨a, r, rfl, by rwa [bind_of_ok hx] at h⟩
  | error e r => rw [bind_of_error hx] at h; cases h

theorem get_bind (g : σ → EStateM ε σ β) (s : σ) : ((get : EStateM ε σ σ) >>= g) s = g s s := rfl

theorem modify_bind (g : σ → σ) (k : Unit → EStateM ε σ β) (s : σ) :
    ((modify g : EStateM ε σ Unit) >>= k) s = k () (g s) := rfl

/-- A result that was computed, as a fact about the code. -/
theorem ok_of_run {p : α → Bool} (h : (EStateM.run' x s).any p = true) : ∃ a t, x s = .ok a t ∧ p a = true := by
  unfold EStateM.run' EStateM.run at h
  cases hx : x s with
  | ok a t =>
    rw [hx] at h
    exact ⟨a, t, rfl, h⟩
  | error e t =>
    rw [hx] at h
    cases h

/-! Loops over a list. -/

theorem forM_ok {ι : Type} {P : σ → Prop} {g : ι → EStateM ε σ Unit} : ∀ {l : List ι} {s : σ},
    (∀ k ∈ l, ∀ s, P s → ∃ t, g k s = .ok () t ∧ P t) → P s → ∃ t, l.forM g s = .ok () t ∧ P t
  | [], s, _, hs => ⟨s, rfl, hs⟩
  | k :: l, s, h, hs => by
    obtain ⟨r, hr, hP⟩ := h k List.mem_cons_self s hs
    obtain ⟨t, ht, hPt⟩ := forM_ok (fun j hj => h j (List.mem_cons_of_mem k hj)) hP
    refine ⟨t, ?_, hPt⟩
    show (g k >>= fun _ => l.forM g) s = _
    rw [bind_of_ok hr, ht]

/-- A loop that counts: what holds of the count before a round holds of the next one after it. -/
theorem forM_range'_ok {P : Nat → σ → Prop} {g : Nat → EStateM ε σ Unit} : ∀ {n a : Nat} {s : σ},
    (∀ k, a ≤ k → k < a + n → ∀ s, P k s → ∃ t, g k s = .ok () t ∧ P (k + 1) t) → P a s →
    ∃ t, (List.range' a n).forM g s = .ok () t ∧ P (a + n) t
  | 0, _, s, _, hs => ⟨s, rfl, hs⟩
  | n + 1, a, s, h, hs => by
    obtain ⟨r, hr, hP⟩ := h a le_rfl (by omega) s hs
    have hrest : ∀ k, a + 1 ≤ k → k < a + 1 + n → ∀ s, P k s → ∃ t, g k s = .ok () t ∧ P (k + 1) t := fun k hk hlt =>
      h k (by omega) (by omega)
    obtain ⟨t, ht, hPt⟩ := forM_range'_ok hrest hP
    refine ⟨t, ?_, by rwa [Nat.add_assoc, Nat.add_comm 1] at hPt⟩
    show (g a >>= fun _ => (List.range' (a + 1) n).forM g) s = _
    rw [bind_of_ok hr, ht]

theorem forM_range_ok {P : Nat → σ → Prop} {g : Nat → EStateM ε σ Unit} {n : Nat}
    (h : ∀ k < n, ∀ s, P k s → ∃ t, g k s = .ok () t ∧ P (k + 1) t) (hs : P 0 s) :
    ∃ t, (List.range n).forM g s = .ok () t ∧ P n t := by
  obtain ⟨t, ht, hP⟩ := forM_range'_ok (n := n) (fun k _ hk => h k (by omega)) hs
  rw [List.range_eq_range']
  exact ⟨t, ht, by rwa [Nat.zero_add] at hP⟩

/-- A loop that ends has made each of its rounds. -/
theorem ok_of_forM {ι : Type} {g : ι → EStateM ε σ Unit} : ∀ {l : List ι} {s t : σ}, l.forM g s = .ok () t →
    ∀ k ∈ l, ∃ r r', g k r = .ok () r'
  | [], _, _, _ => nofun
  | k :: l, s, t, h => by
    obtain ⟨u, r, hr, hrest⟩ := ok_of_bind (show (g k >>= fun _ => l.forM g) s = .ok () t from h)
    exact List.forall_mem_cons.2 ⟨⟨s, r, hr⟩, ok_of_forM hrest⟩

end StateCode

/-! ## What code does to the state -/

/-- Where `x` returns, it goes from a state to one that `R` relates it to. -/
def Does {ε σ α : Type} (R : σ → σ → Prop) (x : EStateM ε σ α) : Prop := ∀ s a t, x s = .ok a t → R s t

section Does

variable {ε σ α β : Type} {R : σ → σ → Prop} {x y : EStateM ε σ α} {f : α → EStateM ε σ β} {s t : σ}

theorem Does.pure (hrefl : ∀ s, R s s) (a : α) : Does R (Pure.pure a : EStateM ε σ α) := by
  intro s b t h
  cases h
  exact hrefl s

theorem Does.throw (e : ε) : Does R (MonadExcept.throw e : EStateM ε σ α) := by
  intro s b t h
  cases h

theorem Does.get (hrefl : ∀ s, R s s) : Does R (MonadState.get : EStateM ε σ σ) := by
  intro s b t h
  cases h
  exact hrefl s

theorem Does.modify {g : σ → σ} (hg : ∀ s, R s (g s)) : Does R (modify g : EStateM ε σ Unit) := by
  intro s b t h
  cases h
  exact hg s

theorem Does.bind (htrans : ∀ {s t u}, R s t → R t u → R s u) (hx : Does R x) (hf : ∀ a, Does R (f a)) :
    Does R (x >>= f) := by
  intro s b t h
  obtain ⟨a, u, h1, h2⟩ := ok_of_bind h
  exact htrans (hx s a u h1) (hf a u b t h2)

theorem Does.ite {c : Prop} [Decidable c] (hx : Does R x) (hy : Does R y) : Does R (if c then x else y) := by
  split
  · exact hx
  · exact hy

/-- A branch that does something more and then goes on as the other one. -/
theorem Does.ite_rest {c : Prop} [Decidable c] (hy : Does R y) (hx : Does R y → Does R x) :
    Does R (if c then x else y) :=
  .ite (hx hy) hy

/-- A check that stops the code. -/
theorem Does.guard (htrans : ∀ {s t u}, R s t → R t u → R s u) {c : Prop} [Decidable c] {e : ε}
    {g : Unit → EStateM ε σ α}
    (hg : Does R (g ())) : Does R (if c then MonadExcept.throw e >>= g else g ()) :=
  .ite (.bind htrans (.throw e) fun _ => hg) hg

end Does

/-! ## Errors that code does not end in -/

/-- `x` never ends in the error `e`. -/
def Never {ε σ α : Type} (e : ε) (x : EStateM ε σ α) : Prop := ∀ s t, x s ≠ .error e t

section Never

variable {ε σ α β : Type} {e : ε} {x y : EStateM ε σ α} {f : α → EStateM ε σ β}

/-- From one state. -/
theorem Never.bind_from {s : σ} (hx : ∀ t, x s ≠ .error e t) (hf : ∀ a, Never e (f a)) (t : σ) :
    (x >>= f) s ≠ .error e t := by
  intro h
  cases hr : x s with
  | ok a u =>
    rw [bind_of_ok hr] at h
    exact hf a u t h
  | error e' u =>
    rw [bind_of_error hr] at h
    cases h
    exact hx _ hr

theorem Never.bind (hx : Never e x) (hf : ∀ a, Never e (f a)) : Never e (x >>= f) :=
  fun s => Never.bind_from (hx s) hf

theorem Never.returns (h : ∀ s, ∃ a t, x s = .ok a t) : Never e x := by
  intro s t hs
  obtain ⟨a, u, hr⟩ := h s
  rw [hr] at hs
  cases hs

theorem Never.pure (a : α) : Never e (Pure.pure a : EStateM ε σ α) := .returns fun s => ⟨a, s, rfl⟩

theorem Never.get : Never e (MonadState.get : EStateM ε σ σ) := .returns fun s => ⟨s, s, rfl⟩

theorem Never.modify (g : σ → σ) : Never e (modify g : EStateM ε σ Unit) := .returns fun s => ⟨(), g s, rfl⟩

theorem Never.throw {e' : ε} (hne : e' ≠ e) : Never e (MonadExcept.throw e' : EStateM ε σ α) := by
  intro s t h
  cases h
  exact hne rfl

theorem Never.ite {c : Prop} [Decidable c] (hx : Never e x) (hy : Never e y) : Never e (if c then x else y) := by
  split
  · exact hx
  · exact hy

end Never

end Fos.Lib
