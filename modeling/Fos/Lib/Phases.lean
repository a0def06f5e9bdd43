/-
Phases of a sequence: a log that records an element when it is not among those held, and that holds at most
`k`; when one more comes in, all are dropped and a phase starts. The log records each phase's elements in the
order of first use, and the phases are the greedy ones.
-/
import Fos.Lib.Replacement

namespace Fos.Lib

section Phases

variable {α : Type*} [DecidableEq α]

/-! ## First uses -/

/-- The elements of `ps` in the order of first use, after those of `l`. -/
def firstUses (l : List α) : List α → List α
  | [] => l
  | p :: ps => firstUses (if p ∈ l then l else l ++ [p]) ps

section FirstUses

variable {l ps : List α} {p q : α}

theorem firstUses_concat : ∀ (ps l : List α), firstUses l (ps ++ [p]) =
    if p ∈ firstUses l ps then firstUses l ps else firstUses l ps ++ [p]
  | [], _ => rfl
  | q :: ps, l => firstUses_concat ps (if q ∈ l then l else l ++ [q])

theorem mem_firstUses : ∀ {ps l : List α}, q ∈ firstUses l ps ↔ q ∈ l ∨ q ∈ ps
  | [], l => by simp [firstUses]
  | p :: ps, l => by
    rw [firstUses, mem_firstUses]
    split
    · rename_i hp
      rw [List.mem_cons]
      constructor
      · exact fun h => h.imp_right .inr
      · rintro (h | rfl | h)
        · exact .inl h
        · exact .inl hp
        · exact .inr h
    · rw [List.mem_append, List.mem_singleton, List.mem_cons, or_assoc]

theorem firstUses_head : ∀ {ps l : List α}, (firstUses (p :: l) ps).head? = some p
  | [], _ => rfl
  | q :: ps, l => by
    rw [firstUses]
    split
    · exact firstUses_head
    · exact firstUses_head (l := l ++ [q])

theorem firstUses_nodup : ∀ {ps l : List α}, l.Nodup → (firstUses l ps).Nodup
  | [], _, h => h
  | p :: ps, l, h => by
    rw [firstUses]
    split
    · exact firstUses_nodup h
    · rename_i hp
      apply firstUses_nodup
      rw [List.nodup_append]
      refine ⟨h, List.nodup_singleton p, fun a ha b hb => ?_⟩
      rw [List.mem_singleton.1 hb]
      exact fun hab => hp (hab ▸ ha)

end FirstUses

/-! ## The log -/

structure PhaseLog (α : Type*) where
  held : List α
  log : List α

def PhaseLog.use (k : Nat) (r : PhaseLog α) (p : α) : PhaseLog α :=
  if p ∈ r.held then r
  else if k ≤ r.held.length then ⟨[p], r.log ++ [p]⟩
  else ⟨r.held ++ [p], r.log ++ [p]⟩

def PhaseLog.run (k : Nat) (r : PhaseLog α) (ps : List α) : PhaseLog α := ps.foldl (PhaseLog.use k) r

theorem PhaseLog.use_use (k : Nat) (r : PhaseLog α) (p : α) : (r.use k p).use k p = r.use k p := by
  have hmem : p ∈ (r.use k p).held := by
    unfold PhaseLog.use
    split
    · assumption
    · split
      · exact List.mem_cons_self
      · exact List.mem_append_right _ List.mem_cons_self
  rw [PhaseLog.use, if_pos hmem]

/-- The phases `L` hold at most `k` elements each (or the one they start with), and each but the last is followed
by an element that would be one too many. -/
structure Greedy (k : Nat) (L : List (List α)) : Prop where
  nonempty : ∀ l ∈ L, l ≠ []
  bounded : ∀ l ∈ L, (firstUses [] l).length ≤ max k 1
  full : L.IsChain fun l l' => k ≤ (firstUses [] l).length ∧ ∀ p, l'.head? = some p → p ∉ l

/-- The log of `ps`: `L` and `last` are the phases. -/
structure Phased (k : Nat) (ps : List α) (L : List (List α)) (last : List α) (r : PhaseLog α) : Prop where
  parts : (L ++ [last]).flatten = ps
  greedy : Greedy k (L ++ [last])
  held : r.held = firstUses [] last
  log : r.log = ((L ++ [last]).map (firstUses [])).flatten

section Log

variable {k : Nat} {r : PhaseLog α} {ps last : List α} {L : List (List α)} {p : α}

theorem phased_one (k : Nat) (p : α) : Phased k [p] [] [p] (PhaseLog.run k ⟨[], []⟩ [p]) := by
  have hrun : PhaseLog.run k ⟨[], []⟩ [p] = ⟨[p], [p]⟩ := by
    simp [PhaseLog.run, PhaseLog.use]
  rw [hrun]
  constructor
  · rfl
  · exact ⟨by simp, by simp [firstUses], .singleton _⟩
  · simp [firstUses]
  · simp [firstUses]

theorem Phased.use (h : Phased k ps L last r) (p : α) : ∃ L' last', Phased k (ps ++ [p]) L' last' (r.use k p) := by
  have hlast := h.greedy.nonempty last (List.mem_append_right _ List.mem_cons_self)
  have hmem : p ∈ r.held ↔ p ∈ last := by
    rw [h.held, mem_firstUses]
    simp
  have hold : ∀ l ∈ L, l ≠ [] ∧ (firstUses [] l).length ≤ max k 1 := fun l hl =>
    ⟨h.greedy.nonempty l (List.mem_append_left _ hl), h.greedy.bounded l (List.mem_append_left _ hl)⟩
  have hfull := List.isChain_append.1 h.greedy.full
  -- the phase goes on with `p`
  have hgoes : ∀ n, firstUses [] (last ++ [p]) = n → n.length ≤ max k 1 →
      r.use k p = ⟨n, r.log ++ (n.drop r.held.length)⟩ →
      n = r.held ++ n.drop r.held.length → Phased k (ps ++ [p]) L (last ++ [p]) (r.use k p) := by
    intro n hn hle hr happ
    rw [hr]
    constructor
    · rw [← h.parts]
      simp
    · constructor
      · intro l hl
        rcases List.mem_append.1 hl with hl | hl
        · exact (hold l hl).1
        · rw [List.mem_singleton.1 hl]
          simp
      · intro l hl
        rcases List.mem_append.1 hl with hl | hl
        · exact (hold l hl).2
        · rw [List.mem_singleton.1 hl, hn]
          exact hle
      · apply hfull.1.append (.singleton _)
        intro x hx y hy
        obtain rfl : last ++ [p] = y := by simpa using hy
        obtain ⟨h1, h2⟩ := hfull.2.2 x hx last rfl
        refine ⟨h1, fun q hq => h2 q ?_⟩
        rwa [List.head?_append_of_ne_nil _ hlast] at hq
    · exact hn.symm
    · rw [h.log]
      simp only [List.map_append, List.map_cons, List.map_nil, List.flatten_append, List.flatten_cons, List.flatten_nil,
        List.append_nil, List.append_assoc, hn]
      congr 1
      rw [← h.held]
      exact happ.symm
  by_cases hp : p ∈ last
  · refine ⟨L, last ++ [p], hgoes r.held ?_ ?_ ?_ ?_⟩
    · rw [firstUses_concat, ← h.held, if_pos (hmem.2 hp)]
    · rw [h.held]
      exact h.greedy.bounded last (List.mem_append_right _ List.mem_cons_self)
    · rw [PhaseLog.use, if_pos (hmem.2 hp), List.drop_length, List.append_nil]
    · simp
  have hnot : p ∉ r.held := fun hc => hp (hmem.1 hc)
  by_cases hk : k ≤ r.held.length
  · -- a new phase
    refine ⟨L ++ [last], [p], ?_⟩
    rw [PhaseLog.use, if_neg hnot, if_pos hk]
    constructor
    · rw [← h.parts]
      simp
    · constructor
      · intro l hl
        rcases List.mem_append.1 hl with hl | hl
        · exact h.greedy.nonempty l hl
        · rw [List.mem_singleton.1 hl]
          simp
      · intro l hl
        rcases List.mem_append.1 hl with hl | hl
        · exact h.greedy.bounded l hl
        · rw [List.mem_singleton.1 hl]
          simp [firstUses]
      · apply h.greedy.full.append (.singleton _)
        intro x hx y hy
        obtain rfl : last = x := by simpa using hx
        obtain rfl : [p] = y := by simpa using hy
        refine ⟨h.held ▸ hk, fun q hq => ?_⟩
        obtain rfl : p = q := by simpa using hq
        exact hp
    · simp [firstUses]
    · rw [h.log]
      simp [firstUses]
  · refine ⟨L, last ++ [p], hgoes (r.held ++ [p]) ?_ ?_ ?_ ?_⟩
    · rw [firstUses_concat, ← h.held, if_neg hnot]
    · rw [List.length_append, List.length_singleton]
      omega
    · rw [PhaseLog.use, if_neg hnot, if_neg hk, List.drop_left]
    · rw [List.drop_left]

/-- The log starts as the sequence does. -/
theorem Phased.head (h : Phased k ps L last r) : r.log.head? = ps.head? := by
  have hfirst : ∀ l : List α, l ≠ [] → ∃ p l' n, l = p :: l' ∧ firstUses [] l = p :: n := by
    intro l hl
    obtain ⟨p, l', rfl⟩ := List.exists_cons_of_ne_nil hl
    have hhead : (firstUses [] (p :: l')).head? = some p := firstUses_head (l := [])
    obtain ⟨n, hn⟩ := List.head?_eq_some_iff.1 hhead
    exact ⟨p, l', n, rfl, hn⟩
  have hne := h.greedy.nonempty
  rw [h.log, ← h.parts]
  cases L with
  | nil =>
    obtain ⟨p, l', n, rfl, hn⟩ := hfirst last (hne last List.mem_cons_self)
    simp [hn]
  | cons l L =>
    obtain ⟨p, l', n, rfl, hn⟩ := hfirst l (hne l List.mem_cons_self)
    simp [hn]

/-- The log of a sequence is that of its greedy phases. -/
theorem phased_run (k : Nat) (hne : ps ≠ []) : ∃ L last, Phased k ps L last (PhaseLog.run k ⟨[], []⟩ ps) := by
  induction ps using List.reverseRecOn with
  | nil => exact absurd rfl hne
  | append_singleton ps p ih =>
    rcases List.eq_nil_or_concat ps with rfl | ⟨qs, q, rfl⟩
    · exact ⟨[], [p], phased_one k p⟩
    · obtain ⟨L, last, h⟩ := ih (by simp)
      obtain ⟨L', last', h'⟩ := h.use p
      refine ⟨L', last', ?_⟩
      rwa [PhaseLog.run, List.foldl_append]

/-- The log is made of elements of the sequence, in its order. -/
theorem PhaseLog.run_sublist (k : Nat) : ∀ (ps : List α) (r : PhaseLog α), ∃ qs, (r.run k ps).log = r.log ++ qs ∧
    qs.Sublist ps
  | [], r => ⟨[], by simp [PhaseLog.run], .slnil⟩
  | p :: ps, r => by
    obtain ⟨qs, hqs, hsub⟩ := PhaseLog.run_sublist k ps (r.use k p)
    rw [show r.run k (p :: ps) = (r.use k p).run k ps from rfl, hqs]
    by_cases hp : p ∈ r.held
    · refine ⟨qs, ?_, hsub.cons p⟩
      rw [PhaseLog.use, if_pos hp]
    · refine ⟨p :: qs, ?_, hsub.cons_cons p⟩
      rw [PhaseLog.use, if_neg hp]
      split <;> simp

end Log

end Phases

end Fos.Lib
