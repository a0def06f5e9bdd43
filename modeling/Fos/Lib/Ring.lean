/-
Lists read as circles: a list of distinct keys from one of its elements on, the element after another one, the
loop that moves the head to the tail, and what a clock hand takes that goes round the circle.
-/
import Mathlib.Tactic

namespace Fos.Lib

section Ring

variable {α κ : Type*} [DecidableEq κ] (key : α → κ)

/-- The list from the element with key `a` on, then the elements before it. -/
def ringFrom (l : List α) (a : κ) : List α := l.dropWhile (key · ≠ a) ++ l.takeWhile (key · ≠ a)

/-- The element after the one with key `a`, the first one after the last. -/
def ringNext (l : List α) (a : κ) : Option α := (l.dropWhile (key · ≠ a)).tail.head?.or l.head?

/-- Move the head to the tail until the element with key `a` is the head; `none` if it takes more than `fuel` looks. -/
def moveHeads (a : κ) : Nat → List α → Option (List α)
  | 0, _ => none
  | fuel + 1, l => if l.head?.map key = some a then some l else moveHeads a fuel (l.tail ++ l.head?.toList)

variable {key} {l p q A B : List α} {x y : α}

/-! ## At an element -/

omit [DecidableEq κ] in
theorem passes_split (hd : ((p ++ x :: q).map key).Nodup) : ∀ z ∈ p, key z ≠ key x := by
  intro z hz he
  rw [List.map_append, List.map_cons] at hd
  exact (List.nodup_append.1 hd).2.2 _ (List.mem_map_of_mem hz) _ List.mem_cons_self he

theorem dropWhile_split (hd : ((p ++ x :: q).map key).Nodup) : (p ++ x :: q).dropWhile (key · ≠ key x) = x :: q := by
  have hp : ∀ z ∈ p, (decide (key z ≠ key x)) = true := fun z hz => decide_eq_true (passes_split hd z hz)
  rw [List.dropWhile_append_of_pos hp, List.dropWhile_cons_of_neg]
  simp only [ne_eq, not_true_eq_false, decide_false, Bool.false_eq_true, not_false_eq_true]

theorem takeWhile_split (hd : ((p ++ x :: q).map key).Nodup) : (p ++ x :: q).takeWhile (key · ≠ key x) = p := by
  have hp : ∀ z ∈ p, (decide (key z ≠ key x)) = true := fun z hz => decide_eq_true (passes_split hd z hz)
  rw [List.takeWhile_append_of_pos hp, List.takeWhile_cons_of_neg, List.append_nil]
  simp only [ne_eq, not_true_eq_false, decide_false, Bool.false_eq_true, not_false_eq_true]

theorem ringFrom_split (hd : ((p ++ x :: q).map key).Nodup) : ringFrom key (p ++ x :: q) (key x) = x :: q ++ p := by
  rw [ringFrom, dropWhile_split hd, takeWhile_split hd]

theorem ringNext_split (hd : ((p ++ x :: q).map key).Nodup) :
    ringNext key (p ++ x :: q) (key x) = (q ++ p ++ [x]).head? := by
  rw [ringNext, dropWhile_split hd, List.tail_cons]
  cases q with
  | cons y q => rfl
  | nil => cases p <;> rfl

/-! ## Round the circle -/

/-- The next element of the list is the next one of every list that starts elsewhere. -/
theorem ringNext_ring {a b : List α} (hd : ((a ++ b).map key).Nodup) (hr : b ++ a = A ++ x :: B) :
    ringNext key (a ++ b) (key x) = (B ++ A ++ [x]).head? := by
  rcases List.append_eq_append_iff.1 hr with ⟨c, rfl, rfl⟩ | ⟨c, rfl, hc⟩
  · -- the element is after the cut
    rw [List.append_assoc] at hd ⊢
    rw [List.cons_append] at hd ⊢
    rw [ringNext_split hd]
    simp only [List.append_assoc]
  · cases c with
    | nil =>
      -- the element is the first after the cut
      rw [List.nil_append] at hc
      subst hc
      have := ringNext_split (p := []) hd
      simpa using this
    | cons z c =>
      rw [List.cons_append] at hc
      obtain ⟨rfl, rfl⟩ := List.cons.inj hc
      rw [← List.append_assoc] at hd ⊢
      rw [ringNext_split hd]
      simp only [List.append_assoc]

/-- From the element after another one on, the other one is the last. -/
theorem ringFrom_next (hd : ((p ++ x :: q).map key).Nodup) (hy : ringNext key (p ++ x :: q) (key x) = some y) :
    ringFrom key (p ++ x :: q) (key y) = q ++ p ++ [x] := by
  rw [ringNext_split hd] at hy
  cases q with
  | cons z q =>
    obtain rfl : z = y := Option.some.inj hy
    have hsplit : p ++ x :: z :: q = (p ++ [x]) ++ z :: q := by simp only [List.append_assoc, List.singleton_append]
    rw [hsplit] at hd ⊢
    rw [ringFrom_split hd, ← List.append_assoc]
  | nil =>
    cases p with
    | nil =>
      obtain rfl : x = y := Option.some.inj hy
      exact ringFrom_split hd
    | cons z p =>
      obtain rfl : z = y := Option.some.inj hy
      have := ringFrom_split (p := []) (x := z) (q := p ++ [x]) hd
      simpa using this

/-- The loop ends once every element has been the head. -/
theorem moveHeads_split : ∀ (p : List α) (x : α) (q : List α) (fuel : Nat), (∀ z ∈ p, key z ≠ key x) →
    moveHeads key (key x) (p.length + fuel + 1) (p ++ x :: q) = some (x :: q ++ p)
  | [], x, q, fuel, _ => by
    unfold moveHeads
    simp
  | z :: p, x, q, fuel, h => by
    have hz : ¬ ((z :: p ++ x :: q).head?.map key = some (key x)) := fun he =>
      h z List.mem_cons_self (Option.some.inj he)
    have hlen : (z :: p).length + fuel + 1 = (p.length + fuel + 1) + 1 := by
      simp only [List.length_cons]
      omega
    rw [hlen]
    unfold moveHeads
    rw [if_neg hz]
    have hmoved : (z :: p ++ x :: q).tail ++ (z :: p ++ x :: q).head?.toList = p ++ x :: (q ++ [z]) := by
      simp only [List.cons_append, List.tail_cons, List.head?_cons, Option.toList_some, List.append_assoc]
    rw [hmoved, moveHeads_split p x (q ++ [z]) fuel fun w hw => h w (List.mem_cons_of_mem _ hw)]
    simp only [List.cons_append, List.append_assoc, List.nil_append]

theorem moveHeads_ringFrom (hd : (l.map key).Nodup) (hx : x ∈ l) :
    moveHeads key (key x) l.length l = some (ringFrom key l (key x)) := by
  obtain ⟨p, q, rfl⟩ := List.append_of_mem hx
  have hlen : (p ++ x :: q).length = p.length + q.length + 1 := by
    simp only [List.length_append, List.length_cons]
    omega
  rw [hlen, moveHeads_split p x q q.length (passes_split hd), ringFrom_split hd]

end Ring

/-! ## Clocks -/

section Clocks

variable {α : Type*} (used modified : α → Bool)

/-- From the hand, the first element that is not used, and the used ones that were passed over; the hand's own element
where all are used. -/
inductive ClockChoice : List α → List α → α → Prop
  | unused {passed rest : List α} {w : α} (hp : ∀ x ∈ passed, used x = true) (hw : used w = false) :
      ClockChoice (passed ++ w :: rest) passed w
  | all {rest : List α} {w : α} (h : ∀ x ∈ w :: rest, used x = true) : ClockChoice (w :: rest) (w :: rest) w

/-- From the hand, the first element neither used nor modified, with none passed over; where there is none the first
one not used; and where all are used the first one not modified, or the hand's own, with all passed over. -/
inductive ModifiedClockChoice : List α → List α → α → Prop
  | clean {before rest : List α} {w : α} (hb : ∀ x ∈ before, used x = true ∨ modified x = true)
      (hw : used w = false ∧ modified w = false) : ModifiedClockChoice (before ++ w :: rest) [] w
  | unused {passed rest : List α} {w : α} (hno : ∀ x ∈ passed ++ w :: rest, used x = true ∨ modified x = true)
      (hp : ∀ x ∈ passed, used x = true) (hw : used w = false) : ModifiedClockChoice (passed ++ w :: rest) passed w
  | unmodified {before rest : List α} {w : α} (hall : ∀ x ∈ before ++ w :: rest, used x = true)
      (hb : ∀ x ∈ before, modified x = true) (hw : modified w = false) :
      ModifiedClockChoice (before ++ w :: rest) (before ++ w :: rest) w
  | all {rest : List α} {w : α} (hall : ∀ x ∈ w :: rest, used x = true ∧ modified x = true) :
      ModifiedClockChoice (w :: rest) (w :: rest) w

variable {used modified}

theorem ClockChoice.mem {l passed : List α} {w : α} (h : ClockChoice used l passed w) :
    (∀ x ∈ passed, x ∈ l) ∧ w ∈ l := by
  cases h with
  | unused hp hw => exact ⟨fun x hx => List.mem_append_left _ hx, by simp⟩
  | all h => exact ⟨fun x hx => hx, List.mem_cons_self⟩

theorem ModifiedClockChoice.mem {l passed : List α} {w : α} (h : ModifiedClockChoice used modified l passed w) :
    (∀ x ∈ passed, x ∈ l) ∧ w ∈ l := by
  cases h with
  | clean hb hw => exact ⟨fun x hx => absurd hx List.not_mem_nil, by simp⟩
  | unused hno hp hw => exact ⟨fun x hx => List.mem_append_left _ hx, by simp⟩
  | unmodified hall hb hw => exact ⟨fun x hx => hx, by simp⟩
  | all hall => exact ⟨fun x hx => hx, List.mem_cons_self⟩

/-- A list meets `f`, or does up to its first element that does not. -/
theorem exists_first (f : α → Bool) (l : List α) :
    (∀ x ∈ l, f x = true) ∨ ∃ p w q, l = p ++ w :: q ∧ (∀ x ∈ p, f x = true) ∧ f w = false := by
  cases h : l.find? fun x => !f x with
  | none => exact .inl fun x hx => by simpa using List.find?_eq_none.1 h x hx
  | some w =>
    obtain ⟨hw, p, q, rfl, hp⟩ := List.find?_eq_some_iff_append.1 h
    exact .inr ⟨p, w, q, rfl, fun x hx => by simpa using hp x hx, by simpa using hw⟩

end Clocks

end Fos.Lib
