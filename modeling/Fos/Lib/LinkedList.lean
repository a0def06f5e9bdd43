/-
Null-terminated doubly linked lists whose links are kept in some memory: insertion at both ends and
beside a node, removal and concatenation, each a sequence of single link writes, and what they do to
the list that is represented.
-/
import Mathlib.Data.List.Nodup

namespace Fos.Lib

/-! ## Links and heads -/

/-- Where the links of a node are read and written. -/
structure Links (σ κ : Type) where
  next : σ → κ → κ
  prev : σ → κ → κ
  setNext : σ → κ → κ → σ
  setPrev : σ → κ → κ → σ

structure ListHead (κ : Type) where
  first : κ
  last : κ
  deriving DecidableEq, Repr

variable {σ κ : Type}

namespace Links

section Operations

variable [DecidableEq κ] (L : Links σ κ) (null : κ)

/-- Insert `x` at the end. -/
def insertTail (m : σ) (h : ListHead κ) (x : κ) : σ × ListHead κ :=
  let m := L.setPrev m x h.last
  let (m, h) := if h.last ≠ null then (L.setNext m h.last x, h) else (m, { h with first := x })
  (L.setNext m x null, { h with last := x })

/-- Insert `x` at the front. -/
def insertHead (m : σ) (h : ListHead κ) (x : κ) : σ × ListHead κ :=
  let m := L.setNext m x h.first
  let (m, h) := if h.first ≠ null then (L.setPrev m h.first x, h) else (m, { h with last := x })
  (L.setPrev m x null, { h with first := x })

/-- Insert `x` behind the node `y`. -/
def insertAfter (m : σ) (h : ListHead κ) (y x : κ) : σ × ListHead κ :=
  let m := L.setNext m x (L.next m y)
  let m := if L.next m x ≠ null then L.setPrev m (L.next m y) x else m
  let m := L.setPrev (L.setNext m y x) x y
  (m, if L.next m x = null then { h with last := x } else h)

/-- Insert `x` before the node `y`. -/
def insertBefore (m : σ) (h : ListHead κ) (y x : κ) : σ × ListHead κ :=
  let m := L.setNext (L.setPrev m x (L.prev m y)) x y
  let (m, h) := if L.prev m y ≠ null then (L.setNext m (L.prev m y) x, h) else (m, { h with first := x })
  (L.setPrev m y x, h)

/-- Link the last node of the first list and the first one of the second. -/
def join (m : σ) (h₁ h₂ : ListHead κ) : σ × ListHead κ :=
  if h₁.first = null then (m, h₂)
  else if h₂.first ≠ null then
    (L.setPrev (L.setNext m h₁.last h₂.first) h₂.first h₁.last, { h₁ with last := h₂.last })
  else (m, h₁)

/-- What follows `x` gets what precedes it. -/
def bypassNext (m : σ) (h : ListHead κ) (x : κ) : σ × ListHead κ :=
  if L.next m x ≠ null then (L.setPrev m (L.next m x) (L.prev m x), h) else (m, { h with last := L.prev m x })

/-- What precedes `x` gets what follows it. -/
def bypassPrev (m : σ) (h : ListHead κ) (x : κ) : σ × ListHead κ :=
  if L.prev m x ≠ null then (L.setNext m (L.prev m x) (L.next m x), h) else (m, { h with first := L.next m x })

/-- Take `x` out, wherever it stands. -/
def remove (m : σ) (h : ListHead κ) (x : κ) : σ × ListHead κ :=
  let (m, h) := L.bypassNext null m h x
  let (m, h) := L.bypassPrev null m h x
  (L.setPrev (L.setNext m x null) x null, h)

end Operations

/-- On the nodes of `N` the links read what was last written, as long as `G` holds; and writing them keeps `G`. -/
structure Lawful [DecidableEq κ] (L : Links σ κ) (null : κ) (G : σ → Prop) (N : κ → Prop) : Prop where
  notNull : ¬ N null
  setNext : ∀ m x v, G m → N x → (v = null ∨ N v) → G (L.setNext m x v) ∧
    ∀ y, N y → L.next (L.setNext m x v) y = (if y = x then v else L.next m y) ∧ L.prev (L.setNext m x v) y = L.prev m y
  setPrev : ∀ m x v, G m → N x → (v = null ∨ N v) → G (L.setPrev m x v) ∧
    ∀ y, N y → L.prev (L.setPrev m x v) y = (if y = x then v else L.prev m y) ∧ L.next (L.setPrev m x v) y = L.next m y

/-- `l` as a segment of a list: its nodes are linked with each other, with `p` before and `n` after them. -/
def Segment (L : Links σ κ) (m : σ) : κ → List κ → κ → Prop
  | _, [], _ => True
  | p, x :: l, n => L.prev m x = p ∧ L.next m x = l.headD n ∧ L.Segment m x l n

/-- The list with the given head holds the nodes `l`. -/
structure Linked (L : Links σ κ) (null : κ) (m : σ) (h : ListHead κ) (l : List κ) : Prop where
  nodup : l.Nodup
  first : h.first = l.headD null
  last : h.last = l.getLastD null
  segment : L.Segment m null l null

/-! ## Segments -/

/-- The ends of a list beyond one of its nodes are those of the parts on its two sides. -/
theorem getLastD_middle (p q : List κ) (x a : κ) : (p ++ x :: q).getLastD a = q.getLastD x := by
  rcases List.eq_nil_or_concat' q with rfl | ⟨q, z, rfl⟩
  · exact List.getLastD_concat
  · rw [← List.cons_append, ← List.append_assoc, List.getLastD_concat, List.getLastD_concat]

theorem headD_middle (p q : List κ) (x a : κ) : (p ++ x :: q).headD a = p.headD x := by
  cases p <;> rfl

section Segment

variable {L : Links σ κ} {m m' : σ} {p n x : κ}

theorem segment_append : ∀ {l₁ l₂ : List κ} {p n : κ},
    L.Segment m p (l₁ ++ l₂) n ↔ L.Segment m p l₁ (l₂.headD n) ∧ L.Segment m (l₁.getLastD p) l₂ n
  | [], l₂, p, n => by simp [Segment]
  | x :: l₁, l₂, p, n => by
    have hhead : (l₁ ++ l₂).headD n = l₁.headD (l₂.headD n) := by cases l₁ <;> rfl
    have hlast : (x :: l₁).getLastD p = l₁.getLastD x := by cases l₁ <;> rfl
    rw [List.cons_append, Segment, Segment, segment_append, hhead, hlast]
    tauto

/-- A segment only reads the links of its nodes. -/
theorem Segment.congr : ∀ {l : List κ} {p : κ}, L.Segment m p l n →
    (∀ y ∈ l, L.next m' y = L.next m y ∧ L.prev m' y = L.prev m y) → L.Segment m' p l n
  | [], _, _, _ => trivial
  | x :: _, _, ⟨h1, h2, h3⟩, heq =>
    have hx := heq x List.mem_cons_self
    ⟨hx.2.trans h1, hx.1.trans h2, h3.congr fun y hy => heq y (List.mem_cons_of_mem x hy)⟩

/-- Another node put before a segment. -/
theorem Segment.setFirst {l : List κ} {p' : κ} (h : L.Segment m p (x :: l) n) (hp : L.prev m' x = p')
    (hn : L.next m' x = L.next m x) (heq : ∀ y ∈ l, L.next m' y = L.next m y ∧ L.prev m' y = L.prev m y) :
    L.Segment m' p' (x :: l) n :=
  ⟨hp, hn.trans h.2.1, h.2.2.congr heq⟩

/-- Another node put after a segment. -/
theorem Segment.setLast {l : List κ} {n' : κ} (h : L.Segment m p (l ++ [x]) n) (hn : L.next m' x = n')
    (hp : L.prev m' x = L.prev m x) (heq : ∀ y ∈ l, L.next m' y = L.next m y ∧ L.prev m' y = L.prev m y) :
    L.Segment m' p (l ++ [x]) n' := by
  rw [segment_append] at h ⊢
  obtain ⟨hl, hx, -⟩ := h
  exact ⟨hl.congr heq, hp.trans hx, hn, trivial⟩

end Segment

/-! ## The operations -/

section Representation

variable {L : Links σ κ} {null : κ} {m : σ} {h : ListHead κ} {l : List κ}

theorem Linked.congr {m' : σ} (hl : L.Linked null m h l)
    (heq : ∀ y ∈ l, L.next m' y = L.next m y ∧ L.prev m' y = L.prev m y) : L.Linked null m' h l :=
  ⟨hl.nodup, hl.first, hl.last, hl.segment.congr heq⟩

theorem headD_node {N : κ → Prop} (hN : ∀ y ∈ l, N y) : l.headD null = null ∨ N (l.headD null) := by
  cases l with
  | nil => exact .inl rfl
  | cons y l => exact .inr (hN y List.mem_cons_self)

theorem getLastD_node {N : κ → Prop} (hN : ∀ y ∈ l, N y) : l.getLastD null = null ∨ N (l.getLastD null) := by
  rcases List.eq_nil_or_concat' l with rfl | ⟨l, z, rfl⟩
  · exact .inl rfl
  · exact .inr (by simpa using hN z (by simp))

theorem linked_nil (m : σ) : L.Linked null m ⟨null, null⟩ [] := ⟨List.nodup_nil, rfl, rfl, trivial⟩

end Representation

section Operations

variable [DecidableEq κ] {L : Links σ κ} {null : κ} {G : σ → Prop} {N : κ → Prop} {m : σ} {h : ListHead κ} {l : List κ}
  {x : κ}

/-- The list is empty where its head says so. -/
theorem Linked.first_eq_null_iff (hL : L.Lawful null G N) (hl : L.Linked null m h l) (hN : ∀ y ∈ l, N y) :
    h.first = null ↔ l = [] := by
  rw [hl.first]
  cases l with
  | nil => simp
  | cons y l =>
    have hy : y ≠ null := fun he => hL.notNull (he ▸ hN y List.mem_cons_self)
    simp [hy]

/-- A node `x` is linked in between `p` and `q`: the last of `p` leads to it and the first of `q` back to it. -/
theorem Linked.insert {m' : σ} {h' : ListHead κ} {p q : List κ} (hl : L.Linked null m h (p ++ q)) (hx : x ∉ p ++ q)
    (hprev : L.prev m' x = p.getLastD null) (hnext : L.next m' x = q.headD null)
    (hp : ∀ y ∈ p, L.next m' y = (if y = p.getLastD null then x else L.next m y) ∧ L.prev m' y = L.prev m y)
    (hq : ∀ y ∈ q, L.prev m' y = (if y = q.headD null then x else L.prev m y) ∧ L.next m' y = L.next m y)
    (hfirst : h'.first = p.headD x) (hlast : h'.last = q.getLastD x) : L.Linked null m' h' (p ++ x :: q) := by
  obtain ⟨hnp, hnq, -⟩ := List.nodup_append.1 hl.nodup
  obtain ⟨hsp, hsq⟩ := segment_append.1 hl.segment
  refine ⟨List.perm_middle.nodup_iff.2 (List.nodup_cons.2 ⟨hx, hl.nodup⟩), ?_, ?_,
    segment_append.2 ⟨?_, hprev, hnext, ?_⟩⟩
  · rw [hfirst, headD_middle]
  · rw [hlast, getLastD_middle]
  · rcases List.eq_nil_or_concat' p with rfl | ⟨p, z, rfl⟩
    · trivial
    · have hz := hp z (by simp)
      rw [List.getLastD_concat] at hz hp
      rw [if_pos rfl] at hz
      apply hsp.setLast hz.1 hz.2
      intro y hy
      have hyz : y ≠ z := fun he => (List.nodup_append.1 hnp).2.2 y hy z List.mem_cons_self he
      have hkeep := hp y (by simp [hy])
      rw [if_neg hyz] at hkeep
      exact hkeep
  · cases q with
    | nil => trivial
    | cons z q =>
      have hz := hq z List.mem_cons_self
      have hhead : (z :: q).headD null = z := rfl
      rw [hhead] at hz hq
      rw [if_pos rfl] at hz
      apply hsq.setFirst hz.1 hz.2
      intro y hy
      have hyz : y ≠ z := fun he => (List.nodup_cons.1 hnq).1 (he ▸ hy)
      have hkeep := hq y (List.mem_cons_of_mem z hy)
      rw [if_neg hyz] at hkeep
      exact hkeep.symm

theorem Lawful.ne_null (hL : L.Lawful null G N) {y : κ} (hy : N y) : y ≠ null := fun he => hL.notNull (he ▸ hy)

section Guarded

variable (hL : L.Lawful null G N) (hG : G m) {a v : κ} (ha : a = null ∨ N a) (hv : v = null ∨ N v)
include hL hG ha hv

/-- A link back is written where there is a node to write it in. -/
theorem Lawful.guardPrev : G (if a ≠ null then L.setPrev m a v else m) ∧ ∀ y, N y →
    L.prev (if a ≠ null then L.setPrev m a v else m) y = (if y = a then v else L.prev m y) ∧
    L.next (if a ≠ null then L.setPrev m a v else m) y = L.next m y := by
  rcases ha with rfl | ha
  · rw [if_neg (not_not.2 rfl)]
    refine ⟨hG, fun y hy => ⟨?_, rfl⟩⟩
    rw [if_neg (hL.ne_null hy)]
  · rw [if_pos (hL.ne_null ha)]
    exact hL.setPrev m a v hG ha hv

theorem Lawful.guardNext : G (if a ≠ null then L.setNext m a v else m) ∧ ∀ y, N y →
    L.next (if a ≠ null then L.setNext m a v else m) y = (if y = a then v else L.next m y) ∧
    L.prev (if a ≠ null then L.setNext m a v else m) y = L.prev m y := by
  rcases ha with rfl | ha
  · rw [if_neg (not_not.2 rfl)]
    refine ⟨hG, fun y hy => ⟨?_, rfl⟩⟩
    rw [if_neg (hL.ne_null hy)]
  · rw [if_pos (hL.ne_null ha)]
    exact hL.setNext m a v hG ha hv

end Guarded

theorem insertHead_linked (hL : L.Lawful null G N) (hG : G m) (hl : L.Linked null m h l) (hN : ∀ y ∈ l, N y)
    (hx : N x) (hxl : x ∉ l) :
    G (L.insertHead null m h x).1 ∧ L.Linked null (L.insertHead null m h x).1 (L.insertHead null m h x).2 (x :: l) := by
  have hf : h.first = null ∨ N h.first := hl.first ▸ headD_node hN
  obtain ⟨hG₁, h₁⟩ := hL.setNext m x h.first hG hx hf
  obtain ⟨hG₂, h₂⟩ := hL.guardPrev hG₁ hf (.inr hx)
  obtain ⟨hG₃, h₃⟩ := hL.setPrev _ x null hG₂ hx (.inl rfl)
  obtain ⟨m₃, hm₃⟩ : ∃ m₃, m₃ = L.setPrev (if h.first ≠ null then L.setPrev (L.setNext m x h.first) h.first x
    else L.setNext m x h.first) x null := ⟨_, rfl⟩
  have hrun : L.insertHead null m h x = (m₃, ⟨x, if h.first = null then x else h.last⟩) := by
    rw [hm₃]
    unfold insertHead
    by_cases hnull : h.first = null
    · simp only [hnull, ne_eq, not_true_eq_false, if_false, if_true]
    · simp only [hnull, ne_eq, not_false_eq_true, if_false, if_true]
  rw [← hm₃] at hG₃ h₃
  rw [hrun]
  refine ⟨hG₃, Linked.insert (p := []) hl hxl ?_ ?_ (by simp) (fun y hy => ?_) rfl ?_⟩
  · rw [(h₃ x hx).1, if_pos rfl]
    rfl
  · rw [(h₃ x hx).2, (h₂ x hx).2, (h₁ x hx).1, if_pos rfl, hl.first]
  · have hyN := hN y hy
    have hyx : y ≠ x := fun he => hxl (he ▸ hy)
    rw [(h₃ y hyN).1, (h₃ y hyN).2, (h₂ y hyN).1, (h₂ y hyN).2, (h₁ y hyN).1, (h₁ y hyN).2, if_neg hyx, if_neg hyx,
      hl.first]
    exact ⟨rfl, rfl⟩
  · show (if h.first = null then x else h.last) = _
    cases l with
    | nil => exact if_pos hl.first
    | cons y l =>
      rw [if_neg fun hnull => absurd ((hl.first_eq_null_iff hL hN).1 hnull) (by simp), hl.last, List.getLastD_cons,
        List.getLastD_cons]

theorem insertAfter_linked {p q : List κ} {y : κ} (hL : L.Lawful null G N) (hG : G m)
    (hl : L.Linked null m h (p ++ y :: q)) (hN : ∀ z ∈ p ++ y :: q, N z) (hx : N x) (hxl : x ∉ p ++ y :: q) :
    G (L.insertAfter null m h y x).1 ∧
      L.Linked null (L.insertAfter null m h y x).1 (L.insertAfter null m h y x).2 (p ++ y :: x :: q) := by
  have hy : N y := hN y (by simp)
  have hyx : y ≠ x := fun he => hxl (by simp [he])
  have hyp : y ∉ p := fun hmem => (List.nodup_append.1 hl.nodup).2.2 y hmem y List.mem_cons_self rfl
  have hyq : y ∉ q := (List.nodup_cons.1 (List.nodup_append.1 hl.nodup).2.1).1
  have hnext : L.next m y = q.headD null := (segment_append.1 hl.segment).2.2.1
  have hqN : ∀ z ∈ q, N z := fun z hz => hN z (by simp [hz])
  have hf : L.next m y = null ∨ N (L.next m y) := hnext ▸ headD_node hqN
  have hxy : x ≠ y := fun he => hyx he.symm
  obtain ⟨hG₁, h₁⟩ := hL.setNext m x (L.next m y) hG hx hf
  obtain ⟨hG₂, h₂⟩ := hL.guardPrev hG₁ hf (.inr hx)
  obtain ⟨hG₃, h₃⟩ := hL.setNext _ y x hG₂ hy (.inr hx)
  obtain ⟨hG₄, h₄⟩ := hL.setPrev _ x y hG₃ hx (.inr hy)
  have hx₁ : L.next (L.setNext m x (L.next m y)) x = L.next m y := by rw [(h₁ x hx).1, if_pos rfl]
  have hy₁ : L.next (L.setNext m x (L.next m y)) y = L.next m y := by rw [(h₁ y hy).1, if_neg hyx]
  obtain ⟨m₄, hm₄⟩ : ∃ m₄, m₄ = L.setPrev (L.setNext (if L.next m y ≠ null then
    L.setPrev (L.setNext m x (L.next m y)) (L.next m y) x else L.setNext m x (L.next m y)) y x) x y := ⟨_, rfl⟩
  rw [← hm₄] at hG₄ h₄
  have hx₄ : L.next m₄ x = L.next m y := by rw [(h₄ x hx).2, (h₃ x hx).1, if_neg hxy, (h₂ x hx).2, hx₁]
  have hrun : L.insertAfter null m h y x = (m₄, if L.next m y = null then { h with last := x } else h) := by
    unfold insertAfter
    simp only [hx₁, hy₁, ← hm₄, hx₄]
  have happ : p ++ y :: x :: q = p ++ [y] ++ x :: q := by simp
  have happ' : p ++ y :: q = p ++ [y] ++ q := by simp
  rw [hrun, happ]
  refine ⟨hG₄, Linked.insert (happ' ▸ hl) (happ' ▸ hxl) ?_ (hx₄.trans hnext) (fun z hz => ?_) (fun z hz => ?_) ?_ ?_⟩
  · rw [(h₄ x hx).1, if_pos rfl, List.getLastD_concat]
  · have hzN : N z := hN z (by rw [happ']; exact List.mem_append_left q hz)
    have hzx : z ≠ x := fun he => hxl (by rw [happ', ← he]; exact List.mem_append_left q hz)
    have hzf : z ≠ L.next m y := by
      intro he
      rw [hnext] at he
      cases q with
      | nil => exact hL.ne_null hzN he
      | cons w q =>
        obtain rfl : z = w := he
        exact (List.nodup_append.1 (happ' ▸ hl.nodup)).2.2 z hz z List.mem_cons_self rfl
    rw [(h₄ z hzN).1, (h₄ z hzN).2, (h₃ z hzN).1, (h₃ z hzN).2, (h₂ z hzN).1, (h₂ z hzN).2, (h₁ z hzN).1, (h₁ z hzN).2,
      if_neg hzx, if_neg hzx, if_neg hzf, List.getLastD_concat]
    exact ⟨rfl, rfl⟩
  · have hzN := hqN z hz
    have hzx : z ≠ x := fun he => hxl (by simp [← he, hz])
    have hzy : z ≠ y := fun he => hyq (he ▸ hz)
    rw [(h₄ z hzN).1, (h₄ z hzN).2, (h₃ z hzN).1, (h₃ z hzN).2, (h₂ z hzN).1, (h₂ z hzN).2, (h₁ z hzN).1, (h₁ z hzN).2,
      if_neg hzx, if_neg hzx, if_neg hzy, hnext]
    exact ⟨rfl, rfl⟩
  · have hsame : (if L.next m y = null then { h with last := x } else h).first = h.first := by split <;> rfl
    rw [hsame, hl.first]
    cases p <;> rfl
  · rw [hnext]
    cases q with
    | nil => exact congrArg ListHead.last (if_pos rfl)
    | cons z q =>
      have hrest : (if (z :: q).headD null = null then { h with last := x } else h).last = h.last :=
        congrArg ListHead.last (if_neg (hL.ne_null (hqN z List.mem_cons_self)))
      rw [hrest, hl.last, List.getLastD_cons, getLastD_middle, List.getLastD_cons]

theorem insertBefore_linked {p q : List κ} {y : κ} (hL : L.Lawful null G N) (hG : G m)
    (hl : L.Linked null m h (p ++ y :: q)) (hN : ∀ z ∈ p ++ y :: q, N z) (hx : N x) (hxl : x ∉ p ++ y :: q) :
    G (L.insertBefore null m h y x).1 ∧
      L.Linked null (L.insertBefore null m h y x).1 (L.insertBefore null m h y x).2 (p ++ x :: y :: q) := by
  have hy : N y := hN y (by simp)
  have hyx : y ≠ x := fun he => hxl (by simp [he])
  have hyq : y ∉ q := (List.nodup_cons.1 (List.nodup_append.1 hl.nodup).2.1).1
  have hprev : L.prev m y = p.getLastD null := (segment_append.1 hl.segment).2.1
  have hpN : ∀ z ∈ p, N z := fun z hz => hN z (by simp [hz])
  have hf : L.prev m y = null ∨ N (L.prev m y) := hprev ▸ getLastD_node hpN
  have hxy : x ≠ y := fun he => hyx he.symm
  obtain ⟨hG₁, h₁⟩ := hL.setPrev m x (L.prev m y) hG hx hf
  obtain ⟨hG₂, h₂⟩ := hL.setNext _ x y hG₁ hx (.inr hy)
  obtain ⟨hG₃, h₃⟩ := hL.guardNext hG₂ hf (.inr hx)
  obtain ⟨hG₄, h₄⟩ := hL.setPrev _ y x hG₃ hy (.inr hx)
  have hy₂ : L.prev (L.setNext (L.setPrev m x (L.prev m y)) x y) y = L.prev m y := by
    rw [(h₂ y hy).2, (h₁ y hy).1, if_neg hyx]
  obtain ⟨m₄, hm₄⟩ : ∃ m₄, m₄ = L.setPrev (if L.prev m y ≠ null then
    L.setNext (L.setNext (L.setPrev m x (L.prev m y)) x y) (L.prev m y) x
    else L.setNext (L.setPrev m x (L.prev m y)) x y) y x := ⟨_, rfl⟩
  have hrun : L.insertBefore null m h y x = (m₄, if L.prev m y = null then { h with first := x } else h) := by
    rw [hm₄]
    unfold insertBefore
    simp only [hy₂]
    by_cases hnull : L.prev m y = null
    · simp only [hnull, ne_eq, not_true_eq_false, if_false, if_true]
    · simp only [hnull, ne_eq, not_false_eq_true, if_false, if_true]
  rw [← hm₄] at hG₄ h₄
  rw [hrun]
  have hhead : (y :: q).headD null = y := rfl
  have hxp : ∀ z ∈ p ++ y :: q, z ≠ x := fun z hz he => hxl (he ▸ hz)
  -- only what precedes `y` leads to the new node
  have hnot : ∀ z ∈ y :: q, z ≠ L.prev m y := by
    intro z hz he
    rw [hprev] at he
    rcases List.eq_nil_or_concat' p with rfl | ⟨p, w, rfl⟩
    · exact hL.ne_null (hN z (List.mem_append_right _ hz)) he
    · rw [List.getLastD_concat] at he
      exact (List.nodup_append.1 hl.nodup).2.2 w (by simp) z hz he.symm
  refine ⟨hG₄, Linked.insert hl hxl ?_ ?_ (fun z hz => ?_) (fun z hz => ?_) ?_ ?_⟩
  · rw [(h₄ x hx).1, if_neg hxy, (h₃ x hx).2, (h₂ x hx).2, (h₁ x hx).1, if_pos rfl, hprev]
  · have hxf : x ≠ L.prev m y := by
      intro he
      rw [hprev] at he
      rcases List.eq_nil_or_concat' p with rfl | ⟨p, w, rfl⟩
      · exact hL.ne_null hx he
      · rw [List.getLastD_concat] at he
        exact hxp w (by simp) he.symm
    rw [(h₄ x hx).2, (h₃ x hx).1, if_neg hxf, (h₂ x hx).1, if_pos rfl, hhead]
  · have hzN := hpN z hz
    have hzx := hxp z (List.mem_append_left _ hz)
    have hzy : z ≠ y := fun he => (List.nodup_append.1 hl.nodup).2.2 z hz y List.mem_cons_self he
    rw [(h₄ z hzN).1, (h₄ z hzN).2, (h₃ z hzN).1, (h₃ z hzN).2, (h₂ z hzN).1, (h₂ z hzN).2, (h₁ z hzN).1, (h₁ z hzN).2,
      if_neg hzx, if_neg hzx, if_neg hzy, hprev]
    exact ⟨rfl, rfl⟩
  · have hzN := hN z (List.mem_append_right p hz)
    have hzx := hxp z (List.mem_append_right p hz)
    rw [(h₄ z hzN).1, (h₄ z hzN).2, (h₃ z hzN).1, (h₃ z hzN).2, (h₂ z hzN).1, (h₂ z hzN).2, (h₁ z hzN).1, (h₁ z hzN).2,
      if_neg hzx, if_neg hzx, if_neg (hnot z hz), hhead]
    exact ⟨rfl, rfl⟩
  · rw [hprev]
    rcases List.eq_nil_or_concat' p with rfl | ⟨p, w, rfl⟩
    · exact congrArg ListHead.first (if_pos rfl)
    · have hw : w ≠ null := hL.ne_null (hpN w (by simp))
      have hrest : (if (p ++ [w]).getLastD null = null then { h with first := x } else h).first = h.first := by
        rw [List.getLastD_concat, if_neg hw]
      rw [hrest, hl.first]
      cases p <;> rfl
  · have hsame : (if L.prev m y = null then { h with first := x } else h).last = h.last := by split <;> rfl
    rw [hsame, hl.last, List.getLastD_cons, getLastD_middle]

/-- Two lists that share no node become one. -/
theorem join_linked {l₁ l₂ : List κ} {h₁ h₂ : ListHead κ} (hL : L.Lawful null G N) (hG : G m)
    (hl₁ : L.Linked null m h₁ l₁) (hl₂ : L.Linked null m h₂ l₂) (hN : ∀ y ∈ l₁ ++ l₂, N y) (hnd : (l₁ ++ l₂).Nodup) :
    G (L.join null m h₁ h₂).1 ∧ L.Linked null (L.join null m h₁ h₂).1 (L.join null m h₁ h₂).2 (l₁ ++ l₂) := by
  have hN₁ : ∀ y ∈ l₁, N y := fun y hy => hN y (List.mem_append_left _ hy)
  have hN₂ : ∀ y ∈ l₂, N y := fun y hy => hN y (List.mem_append_right _ hy)
  have hdis := (List.nodup_append.1 hnd).2.2
  unfold join
  rcases List.eq_nil_or_concat' l₁ with rfl | ⟨l₁, z, rfl⟩
  · rw [if_pos ((hl₁.first_eq_null_iff hL hN₁).2 rfl)]
    exact ⟨hG, hl₂⟩
  · rw [if_neg fun hnull => absurd ((hl₁.first_eq_null_iff hL hN₁).1 hnull) (by simp)]
    cases l₂ with
    | nil =>
      rw [if_neg (not_not.2 ((hl₂.first_eq_null_iff hL hN₂).2 rfl)), List.append_nil]
      exact ⟨hG, hl₁⟩
    | cons w l₂ =>
      have hz : N z := hN₁ z (by simp)
      have hw : N w := hN₂ w List.mem_cons_self
      have hlast : h₁.last = z := by rw [hl₁.last]; simp
      have hfirst : h₂.first = w := hl₂.first
      have hzw : z ≠ w := hdis z (by simp) w List.mem_cons_self
      rw [hlast, hfirst, if_pos (hL.ne_null hw)]
      obtain ⟨hG₁, g₁⟩ := hL.setNext m z w hG hz (.inr hw)
      obtain ⟨hG₂, g₂⟩ := hL.setPrev _ w z hG₁ hw (.inr hz)
      have hkeep : ∀ y, N y → y ≠ z → y ≠ w → L.next (L.setPrev (L.setNext m z w) w z) y = L.next m y ∧
          L.prev (L.setPrev (L.setNext m z w) w z) y = L.prev m y := by
        intro y hy hyz hyw
        rw [(g₂ y hy).1, (g₂ y hy).2, if_neg hyw, (g₁ y hy).1, (g₁ y hy).2, if_neg hyz]
        exact ⟨rfl, rfl⟩
      refine ⟨hG₂, ⟨hnd, ?_, ?_, segment_append.2 ⟨?_, ?_⟩⟩⟩
      · rw [hl₁.first]
        cases l₁ <;> rfl
      · show h₂.last = _
        rw [hl₂.last, getLastD_middle, List.getLastD_cons]
      · refine hl₁.segment.setLast ?_ ?_ fun y hy => ?_
        · rw [(g₂ z hz).2, (g₁ z hz).1, if_pos rfl]
          rfl
        · rw [(g₂ z hz).1, if_neg hzw, (g₁ z hz).2]
        · have hyz : y ≠ z := fun he => (List.nodup_append.1 hl₁.nodup).2.2 y hy z List.mem_cons_self he
          exact hkeep y (hN₁ y (by simp [hy])) hyz (hdis y (by simp [hy]) w List.mem_cons_self)
      · refine hl₂.segment.setFirst ?_ ?_ fun y hy => ?_
        · rw [(g₂ w hw).1, if_pos rfl, List.getLastD_concat]
        · rw [(g₂ w hw).2, (g₁ w hw).1, if_neg (Ne.symm hzw)]
        · have hyw : y ≠ w := fun he => (List.nodup_cons.1 hl₂.nodup).1 (he ▸ hy)
          have hzy : z ≠ y := hdis z (by simp) y (List.mem_cons_of_mem w hy)
          exact hkeep y (hN₂ y (List.mem_cons_of_mem w hy)) (Ne.symm hzy) hyw

theorem insertTail_linked (hL : L.Lawful null G N) (hG : G m) (hl : L.Linked null m h l) (hN : ∀ y ∈ l, N y)
    (hx : N x) (hxl : x ∉ l) :
    G (L.insertTail null m h x).1 ∧ L.Linked null (L.insertTail null m h x).1 (L.insertTail null m h x).2 (l ++ [x]) ∧
      ∀ y, N y → y ∉ l → y ≠ x → L.next (L.insertTail null m h x).1 y = L.next m y ∧
        L.prev (L.insertTail null m h x).1 y = L.prev m y := by
  have hnd : (l ++ [x]).Nodup := hl.nodup.append (List.nodup_singleton x) (by simpa using hxl)
  rcases List.eq_nil_or_concat' l with rfl | ⟨l, z, rfl⟩
  · -- the list was empty
    have hnil : ([] : List κ).headD null = null := rfl
    have hlast : h.last = null := hl.last
    obtain ⟨hG₁, h₁⟩ := hL.setPrev m x null hG hx (.inl rfl)
    obtain ⟨hG₂, h₂⟩ := hL.setNext _ x null hG₁ hx (.inl rfl)
    simp only [insertTail, hlast, ne_eq, not_true_eq_false, if_false]
    refine ⟨hG₂, ⟨hnd, rfl, rfl, ?_, ?_, trivial⟩, fun y hy _ hyx => ?_⟩
    · rw [(h₂ x hx).2, (h₁ x hx).1, if_pos rfl]
    · rw [(h₂ x hx).1, if_pos rfl, hnil]
    · rw [(h₂ y hy).1, (h₂ y hy).2, if_neg hyx, (h₁ y hy).1, (h₁ y hy).2, if_neg hyx]
      exact ⟨rfl, rfl⟩
  · -- the last node `z` gets a successor
    have hz : N z := hN z (by simp)
    have hlast : h.last = z := by rw [hl.last]; simp
    have hz0 : z ≠ null := fun he => hL.notNull (he ▸ hz)
    have hzx : z ≠ x := fun he => hxl (by simp [he])
    obtain ⟨hG₁, h₁⟩ := hL.setPrev m x z hG hx (.inr hz)
    obtain ⟨hG₂, h₂⟩ := hL.setNext _ z x hG₁ hz (.inr hx)
    obtain ⟨hG₃, h₃⟩ := hL.setNext _ x null hG₂ hx (.inl rfl)
    simp only [insertTail, hlast, ne_eq, hz0, not_false_eq_true, if_true]
    have hkeep : ∀ y, N y → y ≠ z → y ≠ x → L.next (L.setNext (L.setNext (L.setPrev m x z) z x) x null) y = L.next m y ∧
        L.prev (L.setNext (L.setNext (L.setPrev m x z) z x) x null) y = L.prev m y := by
      intro y hy hyz hyx
      rw [(h₃ y hy).1, (h₃ y hy).2, if_neg hyx, (h₂ y hy).1, (h₂ y hy).2, if_neg hyz, (h₁ y hy).1, (h₁ y hy).2,
        if_neg hyx]
      exact ⟨rfl, rfl⟩
    refine ⟨hG₃, ⟨hnd, ?_, by simp, ?_⟩, fun y hy hyl hyx => hkeep y hy (fun he => hyl (by simp [he])) hyx⟩
    · rw [hl.first]; cases l <;> rfl
    · rw [segment_append]
      have hlz : (l ++ [z]).Nodup := hl.nodup
      have hzl : z ∉ l := fun hzl => (List.nodup_append.1 hlz).2.2 z hzl z List.mem_cons_self rfl
      refine ⟨hl.segment.setLast ?_ ?_ fun y hy => ?_, ?_, ?_, trivial⟩
      · rw [(h₃ z hz).1, if_neg hzx, (h₂ z hz).1, if_pos rfl]; rfl
      · rw [(h₃ z hz).2, (h₂ z hz).2, (h₁ z hz).1, if_neg hzx]
      · have hyN : N y := hN y (by simp [hy])
        exact hkeep y hyN (fun he => hzl (he ▸ hy)) fun he => hxl (by simp [← he, hy])
      · rw [(h₃ x hx).2, (h₂ x hx).2, (h₁ x hx).1, if_pos rfl]; simp
      · rw [(h₃ x hx).1, if_pos rfl]; rfl

theorem bypassNext_spec {q : List κ} {c : κ} (hL : L.Lawful null G N) (hG : G m) (hc : c = null ∨ N c)
    (hq : ∀ y ∈ q, N y) (hnd : q.Nodup) (hprev : L.prev m x = c) (hnext : L.next m x = q.headD null)
    (hseg : L.Segment m x q null) (hlast : h.last = q.getLastD x) :
    G (L.bypassNext null m h x).1 ∧ (L.bypassNext null m h x).2 = ⟨h.first, q.getLastD c⟩ ∧
      L.Segment (L.bypassNext null m h x).1 c q null ∧
      ∀ y, N y → y ∉ q → L.next (L.bypassNext null m h x).1 y = L.next m y ∧
        L.prev (L.bypassNext null m h x).1 y = L.prev m y := by
  cases q with
  | nil =>
    have hend : L.next m x = null := hnext
    have hrun : L.bypassNext null m h x = (m, ⟨h.first, c⟩) := by
      rw [bypassNext, if_neg (not_not.2 hend), hprev]
    rw [hrun]
    exact ⟨hG, rfl, trivial, fun y _ _ => ⟨rfl, rfl⟩⟩
  | cons z q =>
    have hz : N z := hq z List.mem_cons_self
    have hz0 : z ≠ null := fun he => hL.notNull (he ▸ hz)
    have hrun : L.bypassNext null m h x = (L.setPrev m z c, h) := by
      rw [bypassNext, hnext, hprev]
      exact if_pos hz0
    obtain ⟨hG₁, h₁⟩ := hL.setPrev m z c hG hz hc
    have hkeep : ∀ y, N y → y ≠ z → L.next (L.setPrev m z c) y = L.next m y ∧ L.prev (L.setPrev m z c) y = L.prev m y :=
      fun y hy hyz => by rw [(h₁ y hy).1, (h₁ y hy).2, if_neg hyz]; exact ⟨rfl, rfl⟩
    rw [hrun]
    refine ⟨hG₁, ?_, hseg.setFirst ?_ (h₁ z hz).2 fun y hy => ?_, fun y hy hyq => hkeep y hy fun he =>
      hyq (by simp [he])⟩
    · have hsame : (z :: q).getLastD c = (z :: q).getLastD x := by simp only [List.getLastD_cons]
      rw [hsame, ← hlast]
    · rw [(h₁ z hz).1, if_pos rfl]
    · exact hkeep y (hq y (List.mem_cons_of_mem z hy)) fun he => (List.nodup_cons.1 hnd).1 (he ▸ hy)

theorem bypassPrev_spec {p : List κ} {c : κ} (hL : L.Lawful null G N) (hG : G m) (hc : c = null ∨ N c)
    (hp : ∀ y ∈ p, N y) (hnd : p.Nodup) (hprev : L.prev m x = p.getLastD null) (hnext : L.next m x = c)
    (hseg : L.Segment m null p x) (hfirst : h.first = p.headD x) :
    G (L.bypassPrev null m h x).1 ∧ (L.bypassPrev null m h x).2 = ⟨p.headD c, h.last⟩ ∧
      L.Segment (L.bypassPrev null m h x).1 null p c ∧
      ∀ y, N y → y ∉ p → L.next (L.bypassPrev null m h x).1 y = L.next m y ∧
        L.prev (L.bypassPrev null m h x).1 y = L.prev m y := by
  rcases List.eq_nil_or_concat' p with rfl | ⟨p, z, rfl⟩
  · have hstart : L.prev m x = null := hprev
    have hrun : L.bypassPrev null m h x = (m, ⟨c, h.last⟩) := by
      rw [bypassPrev, if_neg (not_not.2 hstart), hnext]
    rw [hrun]
    exact ⟨hG, rfl, trivial, fun y _ _ => ⟨rfl, rfl⟩⟩
  · have hz : N z := hp z (by simp)
    have hz0 : z ≠ null := fun he => hL.notNull (he ▸ hz)
    have hlast : (p ++ [z]).getLastD null = z := by simp
    have hzp : z ∉ p := fun hzp => (List.nodup_append.1 hnd).2.2 z hzp z List.mem_cons_self rfl
    have hrun : L.bypassPrev null m h x = (L.setNext m z c, h) := by
      rw [bypassPrev, hprev, hlast, hnext]
      exact if_pos hz0
    obtain ⟨hG₁, h₁⟩ := hL.setNext m z c hG hz hc
    have hkeep : ∀ y, N y → y ≠ z → L.next (L.setNext m z c) y = L.next m y ∧ L.prev (L.setNext m z c) y = L.prev m y :=
      fun y hy hyz => by rw [(h₁ y hy).1, (h₁ y hy).2, if_neg hyz]; exact ⟨rfl, rfl⟩
    rw [hrun]
    refine ⟨hG₁, ?_, hseg.setLast ?_ (h₁ z hz).2 fun y hy => ?_, fun y hy hyp => hkeep y hy fun he =>
      hyp (by simp [he])⟩
    · have hhead : (p ++ [z]).headD c = (p ++ [z]).headD x := by cases p <;> rfl
      rw [hhead, ← hfirst]
    · rw [(h₁ z hz).1, if_pos rfl]
    · exact hkeep y (hp y (by simp [hy])) fun he => hzp (he ▸ hy)

/-- Removal takes out the node alone and leaves the links of other lists. -/
theorem remove_linked {p q : List κ} (hL : L.Lawful null G N) (hG : G m) (hl : L.Linked null m h (p ++ x :: q))
    (hN : ∀ y ∈ p ++ x :: q, N y) :
    G (L.remove null m h x).1 ∧ L.Linked null (L.remove null m h x).1 (L.remove null m h x).2 (p ++ q) ∧
      ∀ y, N y → y ∉ p ++ x :: q → L.next (L.remove null m h x).1 y = L.next m y ∧
        L.prev (L.remove null m h x).1 y = L.prev m y := by
  have hx : N x := hN x (by simp)
  have hpN : ∀ y ∈ p, N y := fun y hy => hN y (by simp [hy])
  have hqN : ∀ y ∈ q, N y := fun y hy => hN y (by simp [hy])
  have hnd := hl.nodup
  obtain ⟨hp, hxq, hpq⟩ := List.nodup_append.1 hnd
  obtain ⟨hxq, hq⟩ := List.nodup_cons.1 hxq
  have hxp : x ∉ p := fun hmem => hpq x hmem x List.mem_cons_self rfl
  have hdis : ∀ y ∈ p, y ∉ q := fun y hy hyq => hpq y hy y (List.mem_cons_of_mem x hyq) rfl
  have hrest : (p ++ q).Nodup := hnd.sublist ((List.sublist_cons_self x q).append_left p)
  have hlastN : p.getLastD null = null ∨ N (p.getLastD null) := getLastD_node hpN
  have hheadN : q.headD null = null ∨ N (q.headD null) := headD_node hqN
  obtain ⟨hsegp, hprev, hnext, hsegq⟩ := segment_append.1 hl.segment
  have hlast : h.last = q.getLastD x := hl.last.trans (getLastD_middle p q x null)
  have hfirst : h.first = p.headD x := hl.first.trans (headD_middle p q x null)
  -- the two neighbours, then the links of `x` itself
  obtain ⟨hG₁, hh₁, hq₁, hk₁⟩ := bypassNext_spec hL hG hlastN hqN hq hprev hnext hsegq hlast
  obtain ⟨m₁, h₁, hr₁⟩ : ∃ m₁ h₁, L.bypassNext null m h x = (m₁, h₁) := ⟨_, _, rfl⟩
  simp only [hr₁] at hG₁ hh₁ hq₁ hk₁
  obtain ⟨hG₂, hh₂, hp₂, hk₂⟩ := bypassPrev_spec (h := h₁) hL hG₁ hheadN hpN hp ((hk₁ x hx hxq).2.trans hprev)
    ((hk₁ x hx hxq).1.trans hnext) (hsegp.congr fun y hy => hk₁ y (hpN y hy) (hdis y hy)) (by rw [hh₁]; exact hfirst)
  obtain ⟨m₂, h₂, hr₂⟩ : ∃ m₂ h₂, L.bypassPrev null m₁ h₁ x = (m₂, h₂) := ⟨_, _, rfl⟩
  simp only [hr₂] at hG₂ hh₂ hp₂ hk₂
  obtain ⟨hG₃, hk₃⟩ := hL.setNext m₂ x null hG₂ hx (.inl rfl)
  obtain ⟨hG₄, hk₄⟩ := hL.setPrev _ x null hG₃ hx (.inl rfl)
  have hrun : L.remove null m h x = (L.setPrev (L.setNext m₂ x null) x null, h₂) := by
    simp only [remove, hr₁, hr₂]
  have hkeep : ∀ y, N y → y ≠ x → L.next (L.setPrev (L.setNext m₂ x null) x null) y = L.next m₂ y ∧
      L.prev (L.setPrev (L.setNext m₂ x null) x null) y = L.prev m₂ y := by
    intro y hy hyx
    rw [(hk₄ y hy).1, (hk₄ y hy).2, if_neg hyx, (hk₃ y hy).1, (hk₃ y hy).2, if_neg hyx]
    exact ⟨rfl, rfl⟩
  rw [hrun]
  refine ⟨hG₄, ⟨hrest, ?_, ?_, segment_append.2 ⟨?_, ?_⟩⟩, fun y hy hyl => ?_⟩
  · rw [hh₂]; cases p <;> rfl
  · rw [hh₂, hh₁]
    rcases List.eq_nil_or_concat' q with rfl | ⟨q, z, rfl⟩
    · simp
    · simp [← List.append_assoc]
  · exact hp₂.congr fun y hy => hkeep y (hpN y hy) fun he => hxp (he ▸ hy)
  · apply hq₁.congr
    intro y hy
    have hyp : y ∉ p := fun hyp => hdis y hyp hy
    obtain ⟨h3, h4⟩ := hkeep y (hqN y hy) fun he => hxq (he ▸ hy)
    exact ⟨h3.trans (hk₂ y (hqN y hy) hyp).1, h4.trans (hk₂ y (hqN y hy) hyp).2⟩
  · simp only [List.mem_append, List.mem_cons, not_or] at hyl
    obtain ⟨h3, h4⟩ := hkeep y hy hyl.2.1
    exact ⟨h3.trans ((hk₂ y hy hyl.1).1.trans (hk₁ y hy hyl.2.2).1),
      h4.trans ((hk₂ y hy hyl.1).2.trans (hk₁ y hy hyl.2.2).2)⟩

end Operations

end Links

end Fos.Lib
