/-
Runs of a labelled transition relation: what holds in every state of a run (`Always`), what every
step of a run meets before it is taken (`Each`), and the two rules that carry an invariant along a
run. A step that the relation does not admit ends the run there.
-/
import Mathlib.Logic.Basic

namespace Fos.Lib

section Trace

variable {σ ι : Type*} (R : σ → ι → σ → Prop)

/-- `P` holds in every state of every run from `s` over the labels `is`. -/
def Always (P : σ → Prop) : σ → List ι → Prop
  | s, [] => P s
  | s, i :: is => P s ∧ ∀ s', R s i s' → Always P s' is

/-- Every step taken on a run from `s` over the labels `is` meets `C` in the state before it. -/
def Each (C : σ → ι → Prop) : σ → List ι → Prop
  | _, [] => True
  | s, i :: is => ∀ s', R s i s' → C s i ∧ Each C s' is

variable {R}

theorem Always.head {P : σ → Prop} {s : σ} {is : List ι} (h : Always R P s is) : P s := by
  cases is with
  | nil => exact h
  | cons i is => exact h.1

/-- What holds along a run holds where it ends. -/
theorem Always.of_foldlM {P : σ → Prop} {next : σ → ι → Option σ} (hnext : ∀ s i s', next s i = some s' → R s i s') :
    ∀ {is : List ι} {s t : σ}, Always R P s is → is.foldlM next s = some t → P t
  | [], s, t, h, ht => by
    cases ht
    exact h
  | i :: is, s, t, h, ht => by
    rw [List.foldlM_cons] at ht
    obtain ⟨u, hu, ht⟩ := Option.bind_eq_some_iff.1 ht
    exact Always.of_foldlM hnext (h.2 u (hnext s i u hu)) ht

theorem Always.mono {P Q : σ → Prop} (hPQ : ∀ s, P s → Q s) :
    ∀ {s : σ} {is : List ι}, Always R P s is → Always R Q s is
  | _, [], h => hPQ _ h
  | _, _ :: _, h => ⟨hPQ _ h.1, fun s' hs => (h.2 s' hs).mono hPQ⟩

theorem Each.of_forall {C : σ → ι → Prop} :
    ∀ {s : σ} {is : List ι}, (∀ s, ∀ i ∈ is, C s i) → Each R C s is
  | _, [], _ => trivial
  | s, i :: _, h => fun _ _ => ⟨h s i List.mem_cons_self, Each.of_forall fun s j hj =>
    h s j (List.mem_cons_of_mem i hj)⟩

/-- Whether every step of the run meets `C`, where a state has at most one successor. -/
def eachNext (next : σ → ι → Option σ) (C : σ → ι → Prop) [∀ s i, Decidable (C s i)] : σ → List ι → Bool
  | _, [] => true
  | s, i :: is => (next s i).all fun s' => decide (C s i) && eachNext next C s' is

theorem Each.of_next {next : σ → ι → Option σ} {C : σ → ι → Prop} [∀ s i, Decidable (C s i)]
    (hnext : ∀ s i s', R s i s' → next s i = some s') :
    ∀ {s : σ} {is : List ι}, eachNext next C s is = true → Each R C s is
  | _, [], _ => trivial
  | s, i :: is, h => by
    intro s' hs
    have hall : (decide (C s i) && eachNext next C s' is) = true := by
      have h' : ((next s i).all fun s' => decide (C s i) && eachNext next C s' is) = true := h
      rwa [hnext s i s' hs] at h'
    obtain ⟨hC, hrest⟩ := Bool.and_eq_true_iff.1 hall
    exact ⟨of_decide_eq_true hC, Each.of_next hnext hrest⟩

/-- The invariant rule: what holds at the start and is kept by every step that meets `C` holds in
every state of a run whose steps all meet `C`. -/
theorem Each.always {C : σ → ι → Prop} {I : σ → Prop}
    (step : ∀ s i s', I s → C s i → R s i s' → I s') :
    ∀ {s : σ} {is : List ι}, I s → Each R C s is → Always R I s is
  | _, [], hI, _ => hI
  | s, i :: _, hI, h => ⟨hI, fun s' hs =>
      Each.always step (step s i s' hI (h s' hs).1 hs) (h s' hs).2⟩

/-- The invariant rule without a condition on the steps. -/
theorem always_of_step {I : σ → Prop} (step : ∀ s i s', I s → R s i s' → I s') :
    ∀ {s : σ} {is : List ι}, I s → Always R I s is
  | _, [], hI => hI
  | s, i :: _, hI => ⟨hI, fun s' hs => always_of_step step (step s i s' hI hs)⟩

/-- The invariant rule for what every step meets as well: a step that meets `C` meets `H`. -/
theorem Each.always_each {C H : σ → ι → Prop} {I P : σ → Prop} (hIP : ∀ s, I s → P s)
    (step : ∀ s i s', I s → C s i → R s i s' → H s i ∧ I s') :
    ∀ {s : σ} {is : List ι}, I s → Each R C s is → Always R P s is ∧ Each R H s is
  | s, [], hI, _ => ⟨hIP s hI, trivial⟩
  | s, i :: is, hI, h => by
    have hrest : ∀ s', R s i s' → H s i ∧ Always R P s' is ∧ Each R H s' is := by
      intro s' hs
      obtain ⟨hC, hr⟩ := h s' hs
      obtain ⟨hH, hI'⟩ := step s i s' hI hC hs
      exact ⟨hH, Each.always_each hIP step hI' hr⟩
    exact ⟨⟨hIP s hI, fun s' hs => (hrest s' hs).2.1⟩, fun s' hs => ⟨(hrest s' hs).1, (hrest s' hs).2.2⟩⟩

/-- The exactness rule: the invariant implies `P`, a step that meets `C` meets `H` and keeps the invariant,
and a step that meets `H` and ends in `P` meets `C`. Then a run stays in `P` with steps that meet `H` exactly
when its steps all meet `C`. -/
theorem always_each_iff {C H : σ → ι → Prop} {I P : σ → Prop} (hIP : ∀ s, I s → P s)
    (step : ∀ s i s', I s → C s i → R s i s' → H s i ∧ I s')
    (exact : ∀ s i s', I s → R s i s' → H s i → P s' → C s i) :
    ∀ {s : σ} {is : List ι}, I s → (Always R P s is ∧ Each R H s is ↔ Each R C s is)
  | s, [], hI => ⟨fun _ => trivial, fun _ => ⟨hIP s hI, trivial⟩⟩
  | s, i :: is, hI => by
    constructor
    · rintro ⟨hP, hH⟩ s' hs
      have hC : C s i := exact s i s' hI hs (hH s' hs).1 (hP.2 s' hs).head
      exact ⟨hC, (always_each_iff hIP step exact (step s i s' hI hC hs).2).1 ⟨hP.2 s' hs, (hH s' hs).2⟩⟩
    · exact Each.always_each hIP step hI

theorem Each.trivially : ∀ {s : σ} {is : List ι}, Each R (fun _ _ => True) s is
  | _, [] => trivial
  | _, _ :: _ => fun _ _ => ⟨trivial, Each.trivially⟩

/-- The exactness rule for what holds in every state. -/
theorem always_iff_each {C : σ → ι → Prop} {I P : σ → Prop} (hIP : ∀ s, I s → P s)
    (step : ∀ s i s', I s → C s i → R s i s' → I s')
    (exact : ∀ s i s', I s → R s i s' → P s' → C s i) {s : σ} {is : List ι} (hI : I s) :
    Always R P s is ↔ Each R C s is := by
  rw [← always_each_iff (H := fun _ _ => True) hIP (fun s i s' hI hC hs => ⟨trivial, step s i s' hI hC hs⟩)
    (fun s i s' hI hs _ hP => exact s i s' hI hs hP) hI]
  exact ⟨fun h => ⟨h, Each.trivially⟩, fun h => h.1⟩

end Trace

end Fos.Lib
