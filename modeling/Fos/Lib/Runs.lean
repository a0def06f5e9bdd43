/-
The maximal runs between separators of a text of `n` places, in order: what they are, and a scan from left to right that
lists them.
-/
import Mathlib.Tactic

namespace Fos.Lib

variable (sep : Nat → Bool)

/-- The places from `i` to before `j` are not separators, and the text or a separator ends on both sides. -/
structure IsRun (n i j : Nat) : Prop where
  lt : i < j
  le : j ≤ n
  inside : ∀ k, i ≤ k → k < j → sep k = false
  before : i = 0 ∨ sep (i - 1) = true
  after : j = n ∨ sep j = true

/-- `rs` has all the runs in order, each one as its start and its end. -/
structure AllRuns (n : Nat) (rs : List (Nat × Nat)) : Prop where
  mem : ∀ r, r ∈ rs ↔ IsRun sep n r.1 r.2
  order : rs.Pairwise fun a b => a.2 < b.1

/-- The scan of `k` places from `i` on; the run it is in has started at the place given, if it is in one. -/
def runsFrom : Option Nat → Nat → Nat → List (Nat × Nat)
  | none, _, 0 => []
  | some s, i, 0 => [(s, i)]
  | none, i, k + 1 => if sep i then runsFrom none (i + 1) k else runsFrom (some i) (i + 1) k
  | some s, i, k + 1 => if sep i then (s, i) :: runsFrom none (i + 1) k else runsFrom (some s) (i + 1) k

section Scan

variable {sep : Nat → Bool} {n i j k d s : Nat}

theorem runsFrom_skip (h : ∀ j, i ≤ j → j < i + d → sep j = true) :
    runsFrom sep none i (d + k) = runsFrom sep none (i + d) k := by
  induction d generalizing i with
  | zero => rw [Nat.zero_add, Nat.add_zero]
  | succ d ih =>
    have hi : sep i = true := h i le_rfl (by omega)
    have hnext : d + 1 + k = d + k + 1 := by omega
    rw [hnext, runsFrom, if_pos hi, ih fun j h1 h2 => h j (by omega) (by omega)]
    congr 1
    omega

theorem runsFrom_scan (h : ∀ j, i ≤ j → j < i + d → sep j = false) :
    runsFrom sep (some s) i (d + k) = runsFrom sep (some s) (i + d) k := by
  induction d generalizing i with
  | zero => rw [Nat.zero_add, Nat.add_zero]
  | succ d ih =>
    have hi : sep i = false := h i le_rfl (by omega)
    have hnext : d + 1 + k = d + k + 1 := by omega
    rw [hnext, runsFrom, hi, if_neg Bool.false_ne_true, ih fun j h1 h2 => h j (by omega) (by omega)]
    congr 1
    omega

/-- A run ends at the end of the text or at a separator. -/
theorem runsFrom_close (h : k = 0 ∨ sep i = true) : runsFrom sep (some s) i k = (s, i) :: runsFrom sep none i k := by
  cases k with
  | zero => rfl
  | succ k =>
    have hi : sep i = true := h.resolve_left (by omega)
    rw [runsFrom, runsFrom, if_pos hi, if_pos hi]

theorem runsFrom_open (h : sep i = false) : runsFrom sep none i (k + 1) = runsFrom sep (some i) i (k + 1) := by
  rw [runsFrom, runsFrom, h, if_neg Bool.false_ne_true, if_neg Bool.false_ne_true]

theorem IsRun.start_unique {e e' : Nat} (h : IsRun sep n s e) (h' : IsRun sep n s e') : e = e' := by
  have h1 := h.lt
  have h2 := h'.lt
  rcases lt_trichotomy e e' with hlt | heq | hgt
  · rcases h.after with rfl | hsep
    · have := h'.le
      omega
    · rw [h'.inside e (by omega) hlt] at hsep
      cases hsep
  · exact heq
  · rcases h'.after with rfl | hsep
    · have := h.le
      omega
    · rw [h.inside e' (by omega) hgt] at hsep
      cases hsep

/-- No run starts inside of a stretch without separators. -/
theorem IsRun.start_eq {e : Nat} (h : IsRun sep n j e) (hin : ∀ k, s ≤ k → k < i → sep k = false) (hsj : s ≤ j)
    (hji : j < i) : j = s := by
  by_contra hne
  rcases h.before with h0 | hsep
  · omega
  · rw [hin (j - 1) (by omega) (by omega)] at hsep
    cases hsep

/-- What the scan lists: from where it is not in a run the runs that start there or later, and inside of a run that one
and the later ones. -/
theorem runsFrom_spec (sep : Nat → Bool) (h : i + k = n) : ∀ o : Option Nat,
    (∀ s, o = some s → s < i ∧ (∀ j, s ≤ j → j < i → sep j = false) ∧ (s = 0 ∨ sep (s - 1) = true)) →
    (o = none → i = 0 ∨ sep (i - 1) = true) →
      (∀ r, r ∈ runsFrom sep o i k ↔ IsRun sep n r.1 r.2 ∧ o.getD i ≤ r.1) ∧
        (runsFrom sep o i k).Pairwise fun a b => a.2 < b.1 := by
  induction k generalizing i with
  | zero =>
    rintro (_ | s) hs hnone
    · refine ⟨fun r => ?_, .nil⟩
      simp only [runsFrom, List.not_mem_nil, Option.getD_none, false_iff, not_and, not_le]
      intro hr
      have h1 := hr.lt
      have h2 := hr.le
      omega
    · obtain ⟨hlt, hin, hbefore⟩ := hs s rfl
      have hrun : IsRun sep n s i := ⟨hlt, by omega, hin, hbefore, .inl (by omega)⟩
      refine ⟨fun r => ?_, List.pairwise_singleton _ _⟩
      simp only [runsFrom, List.mem_singleton, Option.getD_some]
      constructor
      · rintro rfl
        exact ⟨hrun, le_rfl⟩
      · rintro ⟨hr, hle⟩
        have hlast : r.1 < i := by
          have h1 := hr.lt
          have h2 := hr.le
          omega
        have hstart := hr.start_eq hin hle hlast
        have hend := IsRun.start_unique (hstart ▸ hr) hrun
        exact Prod.ext hstart hend
  | succ k ih =>
    rintro (_ | s) hs hnone
    · rw [runsFrom]
      cases hi : sep i with
      | true =>
        obtain ⟨hmem, horder⟩ := ih (i := i + 1) (by omega) none (fun s hs => by cases hs) fun _ => .inr hi
        rw [if_pos rfl]
        refine ⟨fun r => ?_, horder⟩
        rw [hmem r]
        simp only [Option.getD_none]
        constructor
        · rintro ⟨hr, hle⟩
          exact ⟨hr, by omega⟩
        · rintro ⟨hr, hle⟩
          refine ⟨hr, ?_⟩
          by_contra hlt
          obtain rfl : r.1 = i := by omega
          rw [hr.inside _ le_rfl hr.lt] at hi
          cases hi
      | false =>
        have hopen : ∀ s, some i = some s → s < i + 1 ∧ (∀ j, s ≤ j → j < i + 1 → sep j = false) ∧
            (s = 0 ∨ sep (s - 1) = true) := by
          rintro s hs
          obtain rfl := Option.some.inj hs
          refine ⟨by omega, fun j h1 h2 => ?_, hnone rfl⟩
          obtain rfl : j = i := by omega
          exact hi
        obtain ⟨hmem, horder⟩ := ih (i := i + 1) (by omega) (some i) hopen fun hc => by cases hc
        rw [if_neg Bool.false_ne_true]
        exact ⟨hmem, horder⟩
    · obtain ⟨hlt, hin, hbefore⟩ := hs s rfl
      rw [runsFrom]
      cases hi : sep i with
      | true =>
        obtain ⟨hmem, horder⟩ := ih (i := i + 1) (by omega) none (fun s hs => by cases hs) fun _ => .inr hi
        have hrun : IsRun sep n s i := ⟨hlt, by omega, hin, hbefore, .inr hi⟩
        rw [if_pos rfl]
        refine ⟨fun r => ?_, List.pairwise_cons.2 ⟨fun r hr => ?_, horder⟩⟩
        · rw [List.mem_cons, hmem r]
          simp only [Option.getD_none, Option.getD_some]
          constructor
          · rintro (rfl | ⟨hr, hle⟩)
            · exact ⟨hrun, le_rfl⟩
            · exact ⟨hr, by omega⟩
          · rintro ⟨hr, hle⟩
            by_cases hlater : i + 1 ≤ r.1
            · exact .inr ⟨hr, hlater⟩
            · left
              have hri : r.1 ≠ i := by
                intro hc
                rw [← hc, hr.inside _ le_rfl hr.lt] at hi
                cases hi
              have hstart := hr.start_eq hin hle (by omega)
              exact Prod.ext hstart (IsRun.start_unique (hstart ▸ hr) hrun)
        · have hle := ((hmem r).1 hr).2
          exact Nat.lt_of_succ_le hle
      | false =>
        have hstay : ∀ t, some s = some t → t < i + 1 ∧ (∀ j, t ≤ j → j < i + 1 → sep j = false) ∧
            (t = 0 ∨ sep (t - 1) = true) := by
          rintro t ht
          obtain rfl := Option.some.inj ht
          refine ⟨by omega, fun j h1 h2 => ?_, hbefore⟩
          by_cases hji : j = i
          · rw [hji]
            exact hi
          · exact hin j h1 (by omega)
        obtain ⟨hmem, horder⟩ := ih (i := i + 1) (by omega) (some s) hstay fun hc => by cases hc
        rw [if_neg Bool.false_ne_true]
        exact ⟨hmem, horder⟩

/-- The scan of the whole text lists all its runs. -/
theorem allRuns_runsFrom (sep : Nat → Bool) (n : Nat) : AllRuns sep n (runsFrom sep none 0 n) := by
  obtain ⟨hmem, horder⟩ := runsFrom_spec sep (Nat.zero_add n) none (fun s hs => by cases hs) fun _ => .inl rfl
  refine ⟨fun r => ?_, horder⟩
  rw [hmem r]
  simp

end Scan

end Fos.Lib
