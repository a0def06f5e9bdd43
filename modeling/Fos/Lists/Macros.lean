/-
The list macros of `inc/queue.h`: a list head with a counter and a place for the next element of a loop, and elements
that carry their own links. Any sequence of the macros refines a finite sequence of elements, and `LIST_FOREACH` visits
each of them once.
-/
import Fos.Base
import Fos.Lib.LinkedList
import Mathlib.Data.BitVec

namespace Fos.Lists

open Fos.Lib Fos.Lib.Links

/-! ## Elements and heads -/

abbrev Ptr := BitVec 32

def null : Ptr := 0

/-- `LIST_ENTRY(type)`, the links inside an element. -/
structure ListEntry where
  leNext : Ptr
  lePrev : Ptr
  deriving DecidableEq, Repr

abbrev Elements := Ptr → ListEntry

def entryLinks : Links Elements Ptr where
  next m x := (m x).leNext
  prev m x := (m x).lePrev
  setNext m x v := Function.update m x { m x with leNext := v }
  setPrev m x v := Function.update m x { m x with lePrev := v }

/-- `LIST_HEAD(name, type)`. -/
structure Head extends ListHead Ptr where
  ptrNext : Ptr
  size : BitVec 32
  deriving DecidableEq, Repr

/-- A list head and the elements its links lead to. -/
structure Queue where
  elements : Elements
  head : Head

/-- The links and the two ends as written, and the counter. -/
def Queue.write (s : Queue) (r : Elements × ListHead Ptr) (size : BitVec 32) : Queue :=
  ⟨r.1, { s.head with toListHead := r.2, size := size }⟩

/-! ## The macros -/

def listInit (head : Head) : Head := { head with first := null, last := null, size := 0 }

def listInsertAfter (s : Queue) (listelm elm : Ptr) : Res Queue :=
  if listelm = null ∨ elm = null then .error (.panic "LIST_INSERT_AFTER: one of the two elements is NULL!")
  else .ok (s.write (entryLinks.insertAfter null s.elements s.head.toListHead listelm elm) (s.head.size + 1))

def listInsertBefore (s : Queue) (listelm elm : Ptr) : Res Queue :=
  if listelm = null ∨ elm = null then .error (.panic "LIST_INSERT_BEFORE: one of the two elements is NULL!")
  else .ok (s.write (entryLinks.insertBefore null s.elements s.head.toListHead listelm elm) (s.head.size + 1))

def listInsertHead (s : Queue) (elm : Ptr) : Res Queue :=
  if elm = null then .error (.panic "LIST_INSERT_HEAD: element is NULL!")
  else .ok (s.write (entryLinks.insertHead null s.elements s.head.toListHead elm) (s.head.size + 1))

def listInsertTail (s : Queue) (elm : Ptr) : Res Queue :=
  if elm = null then .error (.panic "LIST_INSERT_TAIL: element is NULL!")
  else .ok (s.write (entryLinks.insertTail null s.elements s.head.toListHead elm) (s.head.size + 1))

def listRemove (s : Queue) (elm : Ptr) : Res Queue :=
  if elm = null then .error (.panic "LIST_REMOVE: element is NULL!")
  else .ok (s.write (entryLinks.remove null s.elements s.head.toListHead elm) (s.head.size - 1))

/-- `LOOP_LIST_NEXT`. -/
def loopListNext (m : Elements) (elm : Ptr) : Ptr := if elm = null then null else (m elm).leNext

/-- The loop of `LIST_FOREACH` from the element `var` on, with at most `fuel` tests of its condition; the body may
change the list and whatever else there is. The result has the elements that were visited. -/
def listForeach {β : Type} (body : Ptr → Queue × β → Res (Queue × β)) :
    Nat → Ptr → Queue × β → Option (Res (List Ptr × Queue × β))
  | 0, _, _ => none
  | fuel + 1, var, (s, b) =>
    let next := loopListNext s.elements var
    let s := { s with head := { s.head with ptrNext := next } }
    if next ≠ null ∨ var ≠ null then
      match body var (s, b) with
      | .error e => some (.error e)
      | .ok (s, b) =>
        (listForeach body fuel s.head.ptrNext (s, b)).map fun r => r.map fun (visited, t) => (var :: visited, t)
    else some (.ok ([], s, b))

/-! ## The sequence of elements -/

/-- The list holds the elements `l`: its links in both directions, its ends and its counter are those of `l`. -/
structure Represents (s : Queue) (l : List Ptr) : Prop where
  linked : entryLinks.Linked null s.elements s.head.toListHead l
  notNull : ∀ x ∈ l, x ≠ null
  size : s.head.size.toNat = l.length

theorem entryLinks_lawful : entryLinks.Lawful null (fun _ => True) (· ≠ null) := by
  refine ⟨by simp, fun m x v _ hx _ => ⟨trivial, fun y hy => ?_⟩, fun m x v _ hx _ => ⟨trivial, fun y hy => ?_⟩⟩
  · by_cases hyx : y = x
    · rw [hyx, if_pos rfl]
      simp [entryLinks]
    · rw [if_neg hyx]
      simp [entryLinks, Function.update_of_ne hyx]
  · by_cases hyx : y = x
    · rw [hyx, if_pos rfl]
      simp [entryLinks]
    · rw [if_neg hyx]
      simp [entryLinks, Function.update_of_ne hyx]

section Represents

variable {s : Queue} {l p q : List Ptr} {x y : Ptr}

/-- There are fewer elements than addresses, so the counter does not wrap. -/
theorem length_lt_addresses (hnd : l.Nodup) (hl : ∀ x ∈ l, x ≠ null) : l.length < 2 ^ 32 := by
  have hnd' : (null :: l).Nodup := List.nodup_cons.2 ⟨fun hc => hl null hc rfl, hnd⟩
  have hfin : ((null :: l).map BitVec.toFin).Nodup := hnd'.map fun a b h => BitVec.eq_of_toFin_eq h
  have hle := hfin.length_le_card
  rw [Fintype.card_fin, List.length_map, List.length_cons] at hle
  exact hle

theorem Represents.write {r : Elements × ListHead Ptr} {size : BitVec 32}
    (hr : entryLinks.Linked null r.1 r.2 l) (hl : ∀ x ∈ l, x ≠ null) (hsize : size.toNat = l.length) :
    Represents (s.write r size) l :=
  ⟨hr, hl, hsize⟩

theorem size_succ (h : Represents s l) (hlt : l.length + 1 < 2 ^ 32) : (s.head.size + 1).toNat = l.length + 1 := by
  rw [BitVec.toNat_add, h.size]
  exact Nat.mod_eq_of_lt hlt

theorem listInit_represents (m : Elements) (head : Head) : Represents ⟨m, listInit head⟩ [] :=
  ⟨linked_nil m, by simp, rfl⟩

/-- What the four insertions share: the new sequence holds one element more. -/
theorem Represents.inserted {r : Elements × ListHead Ptr} (h : Represents s (p ++ q)) (hx : x ≠ null)
    (hr : entryLinks.Linked null r.1 r.2 (p ++ x :: q)) : Represents (s.write r (s.head.size + 1)) (p ++ x :: q) := by
  have hperm : (p ++ x :: q).Perm (x :: (p ++ q)) := List.perm_middle
  have hnn : ∀ z ∈ p ++ x :: q, z ≠ null := by
    intro z hz
    rcases List.mem_cons.1 (hperm.mem_iff.1 hz) with rfl | hz
    · exact hx
    · exact h.notNull z hz
  have hlen := hperm.length_eq
  rw [List.length_cons] at hlen
  refine .write hr hnn ?_
  rw [size_succ h (hlen ▸ length_lt_addresses hr.nodup hnn), hlen]

theorem listInsertHead_represents (h : Represents s l) (hx : x ≠ null) (hxl : x ∉ l) :
    ∃ s', listInsertHead s x = .ok s' ∧ Represents s' (x :: l) := by
  refine ⟨_, if_neg hx, Represents.inserted (p := []) h hx ?_⟩
  exact (insertHead_linked entryLinks_lawful trivial h.linked h.notNull hx hxl).2

theorem listInsertTail_represents (h : Represents s l) (hx : x ≠ null) (hxl : x ∉ l) :
    ∃ s', listInsertTail s x = .ok s' ∧ Represents s' (l ++ [x]) := by
  refine ⟨_, if_neg hx, Represents.inserted (p := l) (q := []) (by simpa using h) hx ?_⟩
  exact (insertTail_linked entryLinks_lawful trivial h.linked h.notNull hx hxl).2.1

theorem listInsertBefore_represents (h : Represents s (p ++ y :: q)) (hx : x ≠ null) (hxl : x ∉ p ++ y :: q) :
    ∃ s', listInsertBefore s y x = .ok s' ∧ Represents s' (p ++ x :: y :: q) := by
  have hy : y ≠ null := h.notNull y (by simp)
  refine ⟨_, if_neg (not_or.2 ⟨hy, hx⟩), h.inserted hx ?_⟩
  exact (insertBefore_linked entryLinks_lawful trivial h.linked h.notNull hx hxl).2

theorem listInsertAfter_represents (h : Represents s (p ++ y :: q)) (hx : x ≠ null) (hxl : x ∉ p ++ y :: q) :
    ∃ s', listInsertAfter s y x = .ok s' ∧ Represents s' (p ++ y :: x :: q) := by
  have hy : y ≠ null := h.notNull y (by simp)
  have happ : p ++ y :: x :: q = p ++ [y] ++ x :: q := by simp
  rw [happ]
  refine ⟨_, if_neg (not_or.2 ⟨hy, hx⟩), Represents.inserted (p := p ++ [y]) (by simpa using h) hx ?_⟩
  rw [← happ]
  exact (insertAfter_linked entryLinks_lawful trivial h.linked h.notNull hx hxl).2

theorem listRemove_represents (h : Represents s (p ++ x :: q)) :
    ∃ s', listRemove s x = .ok s' ∧ Represents s' (p ++ q) ∧ s'.head.ptrNext = s.head.ptrNext := by
  have hx : x ≠ null := h.notNull x (by simp)
  have hrest : ∀ z ∈ p ++ q, z ∈ p ++ x :: q := ((List.sublist_cons_self x q).append_left p).subset
  refine ⟨_, if_neg hx, .write ?_ (fun z hz => h.notNull z (hrest z hz)) ?_, rfl⟩
  · exact (remove_linked entryLinks_lawful trivial h.linked h.notNull).2.1
  · have hlen : (p ++ x :: q).length = (p ++ q).length + 1 := List.perm_middle.length_eq
    have hlt := length_lt_addresses h.linked.nodup h.notNull
    have hsize := h.size
    rw [BitVec.toNat_sub, hsize, hlen]
    rw [hlen] at hlt
    show (2 ^ 32 - 1 + ((p ++ q).length + 1)) % 2 ^ 32 = _
    omega

end Represents

/-! ## Sequences of macros -/

/-- One use of a macro on the list. -/
inductive ListCall where
  | init
  | insertHead (elm : Ptr)
  | insertTail (elm : Ptr)
  | insertBefore (listelm elm : Ptr)
  | insertAfter (listelm elm : Ptr)
  | remove (elm : Ptr)
  deriving DecidableEq, Repr

def ListCall.run (s : Queue) : ListCall → Res Queue
  | .init => .ok { s with head := listInit s.head }
  | .insertHead elm => listInsertHead s elm
  | .insertTail elm => listInsertTail s elm
  | .insertBefore listelm elm => listInsertBefore s listelm elm
  | .insertAfter listelm elm => listInsertAfter s listelm elm
  | .remove elm => listRemove s elm

def runCalls (s : Queue) : List ListCall → Res Queue
  | [] => .ok s
  | c :: cs => c.run s >>= fun s => runCalls s cs

def putBefore (y x : Ptr) : List Ptr → List Ptr
  | [] => []
  | z :: l => if z = y then x :: z :: l else z :: putBefore y x l

def putAfter (y x : Ptr) : List Ptr → List Ptr
  | [] => []
  | z :: l => if z = y then z :: x :: l else z :: putAfter y x l

/-- What a macro makes of the sequence of elements; there is none before the list is first initialised. -/
def ListCall.seq (l : Option (List Ptr)) : ListCall → Option (List Ptr)
  | .init => some []
  | .insertHead x => l.map (x :: ·)
  | .insertTail x => l.map (· ++ [x])
  | .insertBefore y x => l.map (putBefore y x)
  | .insertAfter y x => l.map (putAfter y x)
  | .remove x => l.map (·.erase x)

/-- What a macro requires of its elements: to be in the list, or not to be in it. -/
def ListCall.Meets (l : Option (List Ptr)) : ListCall → Prop
  | .init => True
  | .insertHead x => ∃ l', l = some l' ∧ x ≠ null ∧ x ∉ l'
  | .insertTail x => ∃ l', l = some l' ∧ x ≠ null ∧ x ∉ l'
  | .insertBefore y x => ∃ l', l = some l' ∧ y ∈ l' ∧ x ≠ null ∧ x ∉ l'
  | .insertAfter y x => ∃ l', l = some l' ∧ y ∈ l' ∧ x ≠ null ∧ x ∉ l'
  | .remove x => ∃ l', l = some l' ∧ x ∈ l'

def Legal (l : Option (List Ptr)) : List ListCall → Prop
  | [] => True
  | c :: cs => c.Meets l ∧ Legal (c.seq l) cs

/-- The sequence the list holds, if it was initialised. -/
def Refines (s : Queue) (l : Option (List Ptr)) : Prop := ∀ l', l = some l' → Represents s l'

section Calls

variable {s : Queue} {l : Option (List Ptr)} {p q : List Ptr} {x y : Ptr}

theorem putBefore_split : ∀ {p : List Ptr}, y ∉ p → putBefore y x (p ++ y :: q) = p ++ x :: y :: q
  | [], _ => if_pos rfl
  | z :: p, h => by
    rw [List.mem_cons, not_or] at h
    rw [List.cons_append, putBefore, if_neg (Ne.symm h.1), putBefore_split h.2]
    rfl

theorem putAfter_split : ∀ {p : List Ptr}, y ∉ p → putAfter y x (p ++ y :: q) = p ++ y :: x :: q
  | [], _ => if_pos rfl
  | z :: p, h => by
    rw [List.mem_cons, not_or] at h
    rw [List.cons_append, putAfter, if_neg (Ne.symm h.1), putAfter_split h.2]
    rfl

/-- An element of a list, with what is before and after it. -/
theorem split_at (hnd : p.Nodup) (hx : x ∈ p) : ∃ a b, p = a ++ x :: b ∧ x ∉ a := by
  obtain ⟨a, b, rfl⟩ := List.append_of_mem hx
  exact ⟨a, b, rfl, fun hc => (List.nodup_append.1 hnd).2.2 x hc x List.mem_cons_self rfl⟩

/-- One macro, used as it requires, does to the list what it says of the sequence. -/
theorem ListCall.refines (c : ListCall) (h : Refines s l) (hc : c.Meets l) :
    ∃ s', c.run s = .ok s' ∧ Refines s' (c.seq l) := by
  have hsome : ∀ {s' : Queue} {l' : List Ptr}, Represents s' l' → Refines s' (some l') := fun hs l'' he => by
    rw [← Option.some.inj he]
    exact hs
  cases c with
  | init => exact ⟨_, rfl, hsome (listInit_represents _ _)⟩
  | insertHead x =>
    obtain ⟨l, rfl, hx, hxl⟩ := hc
    obtain ⟨s', hr, hs⟩ := listInsertHead_represents (h l rfl) hx hxl
    exact ⟨s', hr, hsome hs⟩
  | insertTail x =>
    obtain ⟨l, rfl, hx, hxl⟩ := hc
    obtain ⟨s', hr, hs⟩ := listInsertTail_represents (h l rfl) hx hxl
    exact ⟨s', hr, hsome hs⟩
  | insertBefore y x =>
    obtain ⟨l, rfl, hy, hx, hxl⟩ := hc
    have hl := h l rfl
    obtain ⟨a, b, rfl, hya⟩ := split_at hl.linked.nodup hy
    obtain ⟨s', hr, hs⟩ := listInsertBefore_represents hl hx hxl
    exact ⟨s', hr, hsome (putBefore_split hya ▸ hs)⟩
  | insertAfter y x =>
    obtain ⟨l, rfl, hy, hx, hxl⟩ := hc
    have hl := h l rfl
    obtain ⟨a, b, rfl, hya⟩ := split_at hl.linked.nodup hy
    obtain ⟨s', hr, hs⟩ := listInsertAfter_represents hl hx hxl
    exact ⟨s', hr, hsome (putAfter_split hya ▸ hs)⟩
  | remove x =>
    obtain ⟨l, rfl, hx⟩ := hc
    have hl := h l rfl
    obtain ⟨a, b, rfl, hxa⟩ := split_at hl.linked.nodup hx
    obtain ⟨s', hr, hs, -⟩ := listRemove_represents hl
    refine ⟨s', hr, hsome ?_⟩
    show Represents s' ((a ++ x :: b).erase x)
    rw [List.erase_append_right _ hxa, List.erase_cons_head]
    exact hs

theorem runCalls_refines : ∀ {cs : List ListCall} {s : Queue} {l : Option (List Ptr)}, Refines s l → Legal l cs →
    ∃ s', runCalls s cs = .ok s' ∧ Refines s' (cs.foldl ListCall.seq l)
  | [], s, _, h, _ => ⟨s, rfl, h⟩
  | c :: cs, s, l, h, hlegal => by
    obtain ⟨s₁, hr, h₁⟩ := c.refines h hlegal.1
    obtain ⟨s', hr', h'⟩ := runCalls_refines h₁ hlegal.2
    refine ⟨s', ?_, h'⟩
    rw [runCalls, hr, ok_bind, hr']

end Calls

/-! ## The loop -/

/-- The body keeps the elements after the one it is run for, and the place where the head has the next of them. It may
remove that element, or change what comes before it. -/
def KeepsRest {β : Type} (body : Ptr → Queue × β → Res (Queue × β)) (l : List Ptr) : Prop :=
  ∀ pre x post s b, x :: post <:+ l → Represents s (pre ++ x :: post) →
    ∃ s' b' pre', body x (s, b) = .ok (s', b') ∧ s'.head.ptrNext = s.head.ptrNext ∧ Represents s' (pre' ++ post)

section Loop

variable {β : Type} {body : Ptr → Queue × β → Res (Queue × β)} {l : List Ptr}

theorem Represents.setPtrNext {s : Queue} (h : Represents s l) (next : Ptr) :
    Represents { s with head := { s.head with ptrNext := next } } l :=
  ⟨h.linked, h.notNull, h.size⟩

/-- The loop from some element on visits the elements from there on. -/
theorem listForeach_visits (hbody : KeepsRest body l) : ∀ {rest pre : List Ptr} {s : Queue} {b : β} {k : Nat},
    rest <:+ l → Represents s (pre ++ rest) → rest.length < k →
      ∃ s' b' l', listForeach body k (rest.headD null) (s, b) = some (.ok (rest, s', b')) ∧ Represents s' l'
  | [], pre, s, b, k + 1, _, h, _ => by
    have hnext : loopListNext s.elements null = null := if_pos rfl
    refine ⟨_, b, pre ++ [], ?_, h.setPtrNext null⟩
    simp only [listForeach, List.headD_nil, hnext, ne_eq, not_true_eq_false, or_self, if_false]
  | x :: post, pre, s, b, k + 1, hsuf, h, hk => by
    have hx : x ≠ null := h.notNull x (by simp)
    have hnext : loopListNext s.elements x = post.headD null := by
      rw [loopListNext, if_neg hx]
      exact (segment_append.1 h.linked.segment).2.2.1
    obtain ⟨s₁, b₁, pre', hrun, hptr, h₁⟩ := hbody pre x post _ b hsuf (h.setPtrNext (post.headD null))
    obtain ⟨s', b', l', hrest, h'⟩ := listForeach_visits hbody (b := b₁) ((List.suffix_cons x post).trans hsuf) h₁
      (by simpa using hk)
    refine ⟨s', b', l', ?_, h'⟩
    simp only [listForeach, List.headD_cons, hnext, ne_eq, hx, not_false_eq_true, or_true, if_true, hrun, hptr, hrest]
    rfl

/-- A body that removes the element it is run for where `gone` says so. -/
def removing (gone : Ptr → β → Bool) (x : Ptr) (t : Queue × β) : Res (Queue × β) :=
  if gone x t.2 then (listRemove t.1 x).map fun s => (s, t.2) else .ok t

theorem removing_keepsRest (gone : Ptr → β → Bool) (l : List Ptr) : KeepsRest (removing gone) l := by
  intro pre x post s b _ h
  unfold removing
  cases gone x b with
  | false => exact ⟨s, b, pre ++ [x], rfl, rfl, by simpa using h⟩
  | true =>
    obtain ⟨s', hr, hs, hptr⟩ := listRemove_represents h
    refine ⟨s', b, pre, ?_, hptr, hs⟩
    rw [if_pos rfl, hr]
    rfl

/-- Whatever macros are used on a list, each as it requires, none panics and the list holds the sequence of elements
that the macros make; and a loop over it ends after one visit to each element in order, also when its body removes
them. -/
theorem list_calls_refine {s : Queue} {o : Option (List Ptr)} (h : Refines s o) (cs : List ListCall)
    (hlegal : Legal o cs) :
    ∃ s', runCalls s cs = .ok s' ∧ Refines s' (cs.foldl ListCall.seq o) ∧
      ∀ l, cs.foldl ListCall.seq o = some l →
        ∀ (β : Type) (body : Ptr → Queue × β → Res (Queue × β)) (b : β) (fuel : Nat), KeepsRest body l →
          l.length < fuel →
          ∃ s'' b' l', listForeach body fuel s'.head.first (s', b) = some (.ok (l, s'', b')) ∧ Represents s'' l' := by
  obtain ⟨s', hr, h'⟩ := runCalls_refines h hlegal
  refine ⟨s', hr, h', fun l hl β body b fuel hbody hfuel => ?_⟩
  have hrep := h' l hl
  rw [hrep.linked.first]
  have hall : Represents s' ([] ++ l) := hrep
  exact listForeach_visits hbody (List.suffix_refl l) hall hfuel

/-- Four elements, one of them twice; the loop removes them all. -/
theorem list_calls_refine_four : ∃ s', runCalls ⟨fun _ => ⟨7, 7⟩, ⟨⟨7, 7⟩, 7, 7⟩⟩
      [.init, .insertTail 16, .insertHead 8, .insertAfter 8 24, .insertBefore 16 32, .remove 8, .insertTail 8] =
        .ok s' ∧
    Represents s' [24, 32, 16, 8] ∧
    ∃ s'' b' l', listForeach (removing fun _ (_ : Unit) => true) 5 s'.head.first (s', ()) =
      some (.ok ([24, 32, 16, 8], s'', b')) ∧ Represents s'' l' := by
  obtain ⟨s', hr, h, hloop⟩ := list_calls_refine (s := ⟨fun _ => ⟨7, 7⟩, ⟨⟨7, 7⟩, 7, 7⟩⟩) (o := none)
    (by rintro l hl; cases hl)
    [.init, .insertTail 16, .insertHead 8, .insertAfter 8 24, .insertBefore 16 32, .remove 8, .insertTail 8]
    ⟨trivial, ⟨[], rfl, by decide, by decide⟩, ⟨[16], rfl, by decide, by decide⟩,
      ⟨[8, 16], rfl, by decide, by decide, by decide⟩, ⟨[8, 24, 16], rfl, by decide, by decide, by decide⟩,
      ⟨[8, 24, 32, 16], rfl, by decide⟩, ⟨[24, 32, 16], rfl, by decide, by decide⟩, trivial⟩
  exact ⟨s', hr, h _ rfl, hloop _ rfl Unit _ () 5 (removing_keepsRest _ _) (by decide)⟩

end Loop

end Fos.Lists
