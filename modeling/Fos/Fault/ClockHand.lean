/-
The two clocks of the fault handler on a full working set: which element the hand stops at, which used bits it
clears, and the order it leaves the list in.
-/
import Fos.Fault.ReferenceStream
import Fos.Fault.Returns
import Fos.Heap.KernelLock
import Fos.Lib.Ring

namespace Fos.Fault

open Fos.Memory Fos.Heap Fos.Proc Fos.Disk Fos.Lib

/-! ## The working set -/

/-- `PERM_USED` of the page of an element. -/
def usedBit (s : Machine) (w : WorkingSetElement) : Bool := (s.pte w.virtualAddress).perm.used

/-- `PERM_MODIFIED` of the page of an element. -/
def modifiedBit (s : Machine) (w : WorkingSetElement) : Bool := (s.pte w.virtualAddress).perm.modified

/-- The list from the hand on; without a hand from the first element. -/
def fromHand (e : Env) : List WorkingSetElement :=
  match e.pageLastWsElement with
  | some a => listFrom e.pageWsList a
  | none => e.pageWsList

/-- A full working set: distinct elements with distinct pages, whose page tables are there, and the hand at one of
them or at none. -/
structure FullSet (s : Machine) : Prop where
  nonempty : s.env.pageWsList ≠ []
  full : s.env.pageWsMaxSize ≤ s.env.pageWsList.length
  elements : (s.env.pageWsList.map (·.addr)).Nodup
  pages : (s.env.pageWsList.map (·.virtualAddress / 4096)).Nodup
  tables : ∀ w ∈ s.env.pageWsList, s.hasTable w.virtualAddress = true
  hand : ∀ a, s.env.pageLastWsElement = some a → a ∈ s.env.pageWsList.map (·.addr)

section FullSet

variable {s : Machine}

theorem FullSet.at (h : FullSet s) {w : WorkingSetElement} (hw : w ∈ s.env.pageWsList) :
    elementAt s.env.pageWsList w.addr = some w := by
  obtain ⟨p, q, hl⟩ := List.append_of_mem hw
  have hd := h.elements
  rw [hl] at hd ⊢
  unfold elementAt
  rw [List.find?_append, List.find?_eq_none.2 fun z hz => by simpa using passes_split hd z hz, Option.none_or]
  exact List.find?_cons_of_pos (by simp)

/-- The list is cut at the hand. -/
theorem FullSet.cut (h : FullSet s) : ∃ a b, s.env.pageWsList = a ++ b ∧ fromHand s.env = b ++ a := by
  unfold fromHand
  cases hl : s.env.pageLastWsElement with
  | none => exact ⟨[], s.env.pageWsList, rfl, (List.append_nil _).symm⟩
  | some a =>
    obtain ⟨w, hw, rfl⟩ := List.mem_map.1 (h.hand a hl)
    obtain ⟨p, q, hpq⟩ := List.append_of_mem hw
    have hd := h.elements
    rw [hpq] at hd ⊢
    exact ⟨p, w :: q, rfl, ringFrom_split hd⟩

theorem FullSet.mem_fromHand (h : FullSet s) {w : WorkingSetElement} : w ∈ fromHand s.env ↔ w ∈ s.env.pageWsList := by
  obtain ⟨a, b, hl, hr⟩ := h.cut
  rw [hl, hr, List.mem_append, List.mem_append, or_comm]

/-- The element after an element of the list from another one on. -/
theorem FullSet.next (h : FullSet s) {a b A B : List WorkingSetElement} {w : WorkingSetElement}
    (hl : s.env.pageWsList = a ++ b) (hr : b ++ a = A ++ w :: B) :
    nextOf s.env.pageWsList w.addr = (B ++ A ++ [w]).head? := by
  have hd := h.elements
  rw [hl] at hd ⊢
  exact ringNext_ring hd hr

theorem FullSet.ring_pages (h : FullSet s) {a b : List WorkingSetElement} (hl : s.env.pageWsList = a ++ b) :
    ((b ++ a).map (·.virtualAddress / 4096)).Nodup := by
  have hd := h.pages
  rw [hl, List.map_append] at hd
  rw [List.map_append]
  exact List.nodup_append_comm.1 hd

theorem ring_mem {l a b : List WorkingSetElement} (hl : l = a ++ b) {w : WorkingSetElement} (hw : w ∈ b ++ a) :
    w ∈ l := by
  rw [hl, List.mem_append]
  exact (List.mem_append.1 hw).symm

end FullSet

/-! ## Clearing used bits -/

/-- The entry without `PERM_USED`. -/
def Pte.unused (e : Pte) : Pte := { e with perm := (e.perm.union .none).diff { used := true } }

def clearUsed (s : Machine) (w : WorkingSetElement) : Machine :=
  s.setMem (s.mem.setPte (slot s.env.envPageDirectory w.virtualAddress) (Pte.unused (s.pte w.virtualAddress)))

/-- The hand moves to the element at `a`. -/
def handAt (s : Machine) (a : Option Nat) : Machine := { s with env := { s.env with pageLastWsElement := a } }

section Clearing

variable {s : Machine} {w : WorkingSetElement} {l : List WorkingSetElement}

theorem Pte.unused_unused (e : Pte) : Pte.unused (Pte.unused e) = Pte.unused e := by
  unfold Pte.unused Perm.diff Perm.union Perm.none
  simp

theorem Pte.unused_used (e : Pte) : (Pte.unused e).perm.used = false := by
  simp [Pte.unused]

theorem Pte.unused_modified (e : Pte) : (Pte.unused e).perm.modified = e.perm.modified := by
  simp [Pte.unused, Perm.none]

theorem permissions_clearUsed (ht : s.hasTable w.virtualAddress = true) :
    ptSetPagePermissions w.virtualAddress .none { used := true } s = .ok () (clearUsed s w) :=
  ptSetPagePermissions_there ht .none { used := true }

theorem foldl_clearUsed_env : ∀ (l : List WorkingSetElement) (s : Machine), (l.foldl clearUsed s).env = s.env
  | [], _ => rfl
  | w :: l, s => foldl_clearUsed_env l (clearUsed s w)

theorem foldl_clearUsed_table : ∀ (l : List WorkingSetElement) (s : Machine),
    (l.foldl clearUsed s).mem.table = s.mem.table
  | [], _ => rfl
  | w :: l, s => foldl_clearUsed_table l (clearUsed s w)

theorem foldl_clearUsed_pageFile : ∀ (l : List WorkingSetElement) (s : Machine),
    (l.foldl clearUsed s).pageFile = s.pageFile
  | [], _ => rfl
  | w :: l, s => foldl_clearUsed_pageFile l (clearUsed s w)

theorem leaves_foldl_clearUsed : ∀ (l : List WorkingSetElement) (s : Machine), Leaves s (l.foldl clearUsed s)
  | [], s => .refl s
  | w :: l, s => Leaves.trans (leaves_setPte s _ _) (leaves_foldl_clearUsed l (clearUsed s w))

theorem foldl_clearUsed_handAt : ∀ (l : List WorkingSetElement) (s : Machine) (a : Option Nat),
    l.foldl clearUsed (handAt s a) = handAt (l.foldl clearUsed s) a
  | [], _, _ => rfl
  | w :: l, s, a => foldl_clearUsed_handAt l (clearUsed s w) a

/-- The entries after the used bits of the elements of `l` were cleared. -/
theorem foldl_clearUsed_pte : ∀ (l : List WorkingSetElement) (s : Machine), (∀ w ∈ l, w.virtualAddress < userTop) →
    ∀ a : Nat × Nat, (l.foldl clearUsed s).mem.pte a =
      if a.1 = s.env.envPageDirectory ∧ a.2 ∈ l.map (·.virtualAddress / 4096) then
        Pte.unused (s.mem.pte a) else s.mem.pte a
  | [], _, _, _ => by simp
  | w :: l, s, hl, a => by
    obtain ⟨-, -, hslot, -⟩ := user_address (hl w List.mem_cons_self) s.env.envPageDirectory
    have hfirst : (clearUsed s w).mem.pte a =
        if a = (s.env.envPageDirectory, w.virtualAddress / 4096) then Pte.unused (s.mem.pte a) else s.mem.pte a := by
      unfold clearUsed Machine.pte
      rw [Machine.setMem_mem, Mem.setPte_pte, hslot]
      split
      · rename_i ha
        rw [ha]
      · rfl
    rw [List.foldl_cons, foldl_clearUsed_pte l (clearUsed s w) (fun x hx => hl x (List.mem_cons_of_mem w hx)) a, hfirst]
    have henv : (clearUsed s w).env.envPageDirectory = s.env.envPageDirectory := rfl
    simp only [henv, List.map_cons, List.mem_cons]
    by_cases hw : a = (s.env.envPageDirectory, w.virtualAddress / 4096)
    · obtain ⟨h1, h2⟩ := Prod.mk.inj (show (a.1, a.2) = _ from hw)
      simp only [if_pos hw, h1, h2, true_and, true_or, if_true, Pte.unused_unused, ite_self]
    · have hne : ¬ (a.1 = s.env.envPageDirectory ∧ a.2 = w.virtualAddress / 4096) := fun hc =>
        hw (Prod.ext hc.1 hc.2)
      by_cases hd : a.1 = s.env.envPageDirectory
      · have h2 : a.2 ≠ w.virtualAddress / 4096 := fun hc => hne ⟨hd, hc⟩
        simp only [if_neg hw, hd, h2, true_and, false_or]
      · simp only [if_neg hw, hd, false_and, if_false]

theorem Ready.clearUsed (h : Ready s) (hw : w.virtualAddress < userTop) : Ready (Fault.clearUsed s w) := by
  obtain ⟨hv, -, hslot, -⟩ := user_address hw s.env.envPageDirectory
  have hk := h.kernel.setPte h.dir hv (Pte.unused (s.pte w.virtualAddress))
  rw [(user_slot hv).2, ← hslot] at hk
  exact ⟨hk, h.dir, h.ws, h.active⟩

theorem Ready.foldl_clearUsed : ∀ {l : List WorkingSetElement} {s : Machine}, Ready s →
    (∀ w ∈ l, w.virtualAddress < userTop) → Ready (l.foldl Fault.clearUsed s)
  | [], _, h, _ => h
  | w :: _, _, h, hl =>
    (h.clearUsed (hl w List.mem_cons_self)).foldl_clearUsed fun x hx => hl x (List.mem_cons_of_mem w hx)

theorem foldl_clearUsed_usedBit (hl : ∀ x ∈ l, x.virtualAddress < userTop) (hw : w.virtualAddress < userTop) :
    usedBit (l.foldl clearUsed s) w =
      if w.virtualAddress / 4096 ∈ l.map (·.virtualAddress / 4096) then false else usedBit s w := by
  obtain ⟨-, -, hslot, -⟩ := user_address hw s.env.envPageDirectory
  unfold usedBit Machine.pte
  rw [foldl_clearUsed_env, foldl_clearUsed_pte l s hl, hslot]
  simp only [true_and]
  split
  · exact Pte.unused_used _
  · rfl

theorem foldl_clearUsed_modifiedBit (hl : ∀ x ∈ l, x.virtualAddress < userTop) (hw : w.virtualAddress < userTop) :
    modifiedBit (l.foldl clearUsed s) w = modifiedBit s w := by
  obtain ⟨-, -, hslot, -⟩ := user_address hw s.env.envPageDirectory
  unfold modifiedBit Machine.pte
  rw [foldl_clearUsed_env, foldl_clearUsed_pte l s hl, hslot]
  split
  · exact Pte.unused_modified _
  · rfl

theorem foldl_clearUsed_hasTable (l : List WorkingSetElement) (s : Machine) (va : Nat) :
    (l.foldl clearUsed s).hasTable va = s.hasTable va := by
  unfold Machine.hasTable
  rw [foldl_clearUsed_env, foldl_clearUsed_table]

/-- Clearing used bits and moving the hand leave a full working set. -/
theorem FullSet.cleared (h : FullSet s) (l : List WorkingSetElement) {y : WorkingSetElement}
    (hy : y ∈ s.env.pageWsList) :
    FullSet (handAt (l.foldl clearUsed s) (some y.addr)) := by
  have henv : (handAt (l.foldl clearUsed s) (some y.addr)).env = { s.env with pageLastWsElement := some y.addr } := by
    rw [handAt, foldl_clearUsed_env]
  have htables : ∀ va, (handAt (l.foldl clearUsed s) (some y.addr)).hasTable va = s.hasTable va := fun va =>
    show (l.foldl clearUsed s).hasTable va = s.hasTable va from foldl_clearUsed_hasTable l s va
  constructor
  · rw [henv]; exact h.nonempty
  · rw [henv]; exact h.full
  · rw [henv]; exact h.elements
  · rw [henv]; exact h.pages
  · rw [henv]; exact fun w hw => (htables w.virtualAddress).trans (h.tables w hw)
  · rw [henv]
    intro a ha
    obtain rfl : y.addr = a := Option.some.inj ha
    exact List.mem_map_of_mem hy

end Clearing

/-! ## The clock -/

/-- What the hand does at the element it stops at. -/
def evictPage (w : WorkingSetElement) : PM WorkingSetElement := do
  if (← ptGetPagePermissions w.virtualAddress).modified then
    let s ← get
    if (s.mem.getFrameInfo s.env.envPageDirectory w.virtualAddress).isSome then
      pfUpdateEnvPage w.virtualAddress
  unmapUserFrame w.virtualAddress
  return w

section Clock

variable {s : Machine} {w x : WorkingSetElement} {a b : List WorkingSetElement}

theorem permissions_eq (ht : s.hasTable w.virtualAddress = true) :
    ptGetPagePermissions w.virtualAddress s = .ok (s.pte w.virtualAddress).perm s := by
  rw [ptGetPagePermissions_eq, if_pos ht]

/-- The hand at a used element. -/
theorem clockVictim_used (h : FullSet s) (hx : x ∈ s.env.pageWsList) (hat : s.env.pageLastWsElement = some x.addr)
    (hu : usedBit s x = true) (fuel : Nat) : clockVictim (fuel + 1) s =
      clockVictim fuel (handAt (clearUsed s x) ((nextOf s.env.pageWsList x.addr).map (·.addr))) := by
  have hcur : s.env.pageLastWsElement.bind (elementAt s.env.pageWsList) = some x := by
    rw [hat, Option.bind_some, h.at hx]
  have hu : (s.pte x.virtualAddress).perm.used = true := hu
  conv_lhs => unfold clockVictim
  rw [get_bind]
  simp only [hcur]
  rw [bind_of_ok (permissions_eq (h.tables x hx)), if_pos hu, bind_of_ok (permissions_clearUsed (h.tables x hx))]
  rfl

/-- The hand at an unused element. -/
theorem clockVictim_unused (h : FullSet s) (hx : x ∈ s.env.pageWsList) (hat : s.env.pageLastWsElement = some x.addr)
    (hu : usedBit s x = false) (fuel : Nat) : clockVictim (fuel + 1) s = evictPage x s := by
  have hcur : s.env.pageLastWsElement.bind (elementAt s.env.pageWsList) = some x := by
    rw [hat, Option.bind_some, h.at hx]
  have hu : ¬ (s.pte x.virtualAddress).perm.used = true := by
    rw [show (s.pte x.virtualAddress).perm.used = false from hu]
    exact Bool.false_ne_true
  unfold clockVictim evictPage
  rw [get_bind]
  simp only [hcur]
  rw [bind_of_ok (permissions_eq (h.tables x hx)), if_neg hu, bind_of_ok (permissions_eq (h.tables x hx))]

/-- The hand passes over used elements. -/
theorem clockVictim_passes (fuel : Nat) : ∀ (l A B : List WorkingSetElement) (w : WorkingSetElement) (s : Machine),
    FullSet s → (∀ x ∈ s.env.pageWsList, x.virtualAddress < userTop) → s.env.pageWsList = a ++ b →
    b ++ a = A ++ l ++ w :: B → s.env.pageLastWsElement = (l ++ [w]).head?.map (·.addr) →
    (∀ x ∈ l, usedBit s x = true) →
    clockVictim (l.length + fuel) s = clockVictim fuel (handAt (l.foldl clearUsed s) (some w.addr))
  | [], A, B, w, s, _, _, _, _, hat, _ => by
    have hs : handAt s (some w.addr) = s := by
      unfold handAt
      rw [← show s.env.pageLastWsElement = some w.addr from hat]
    rw [List.foldl_nil, hs, List.length_nil, Nat.zero_add]
  | x :: l, A, B, w, s, h, hva, hl, hr, hat, hu => by
    have hmem : ∀ y, y ∈ b ++ a → y ∈ s.env.pageWsList := fun y => ring_mem hl
    have hx : x ∈ s.env.pageWsList := hmem x (by rw [hr]; simp)
    obtain ⟨y, rest, hy⟩ : ∃ y rest, l ++ [w] = y :: rest := List.exists_cons_of_ne_nil (by simp)
    have hymem : y ∈ s.env.pageWsList := by
      apply hmem y
      have hin : y ∈ l ++ [w] := hy ▸ List.mem_cons_self
      rw [hr]
      simp only [List.mem_append, List.mem_cons, List.not_mem_nil, or_false] at hin ⊢
      tauto
    have hnext : nextOf s.env.pageWsList x.addr = some y := by
      have hsplit : b ++ a = A ++ x :: (l ++ w :: B) := by rw [hr, List.append_assoc]; rfl
      have hhead : l ++ w :: B ++ A ++ [x] = y :: (rest ++ B ++ A ++ [x]) := by
        have : l ++ w :: B = (l ++ [w]) ++ B := by simp
        rw [this, hy]
        rfl
      rw [h.next hl hsplit, hhead, List.head?_cons]
    have hpages : ∀ z ∈ l, z.virtualAddress / 4096 ≠ x.virtualAddress / 4096 := by
      intro z hz he
      have hd := h.ring_pages hl
      rw [hr, List.map_append, List.map_append, List.map_cons] at hd
      have hcons := (List.nodup_append.1 (List.nodup_append.1 hd).1).2.1
      exact (List.nodup_cons.1 hcons).1 (he ▸ List.mem_map_of_mem hz)
    have hlen : (x :: l).length + fuel = (l.length + fuel) + 1 := by
      rw [List.length_cons]
      omega
    rw [hlen, clockVictim_used h hx (by rw [hat]; rfl) (hu x List.mem_cons_self), hnext, Option.map_some]
    have hset : FullSet (handAt (clearUsed s x) (some y.addr)) := h.cleared [x] hymem
    rw [clockVictim_passes fuel l (A ++ [x]) B w _ hset hva hl (by rw [hr]; simp) (by rw [hy]; rfl) ?_]
    · rw [foldl_clearUsed_handAt]
      rfl
    · intro z hz
      have hzmem : z ∈ s.env.pageWsList := hmem z (by rw [hr]; simp [hz])
      have hbit := foldl_clearUsed_usedBit (s := s) (l := [x]) (fun y hy => List.mem_singleton.1 hy ▸ hva x hx)
        (hva z hzmem)
      rw [if_neg (show z.virtualAddress / 4096 ∉ [x].map (·.virtualAddress / 4096) from
        fun hc => hpages z hz (List.mem_singleton.1 hc))] at hbit
      exact hbit.trans (hu z (List.mem_cons_of_mem x hz))

/-- One round of the hand and one more step end at the element of choice. -/
theorem clockVictim_eq (h : FullSet s) (hva : ∀ x ∈ s.env.pageWsList, x.virtualAddress < userTop)
    (hl : s.env.pageWsList = a ++ b) (hat : s.env.pageLastWsElement = (b ++ a).head?.map (·.addr)) :
    ∃ passed w, ClockChoice (usedBit s) (b ++ a) passed w ∧ clockVictim (s.env.pageWsList.length + 1) s =
      evictPage w (handAt (passed.foldl clearUsed s) (some w.addr)) := by
  have hmem : ∀ y, y ∈ b ++ a → y ∈ s.env.pageWsList := fun y => ring_mem hl
  have hlen : s.env.pageWsList.length = (b ++ a).length := by
    rw [hl, List.length_append, List.length_append, Nat.add_comm]
  have hunused : ∀ (l : List WorkingSetElement) {w : WorkingSetElement}, (∀ x ∈ l, x ∈ s.env.pageWsList) →
      w ∈ s.env.pageWsList → (usedBit s w = false ∨ w ∈ l) → ∀ fuel,
        clockVictim (fuel + 1) (handAt (l.foldl clearUsed s) (some w.addr)) =
        evictPage w (handAt (l.foldl clearUsed s) (some w.addr)) := by
    intro l w hls hw hbit fuel
    have hset := h.cleared l hw
    refine clockVictim_unused hset ?_ rfl ?_ fuel
    · show w ∈ (l.foldl clearUsed s).env.pageWsList
      rw [foldl_clearUsed_env]
      exact hw
    · show usedBit (l.foldl clearUsed s) w = false
      rw [foldl_clearUsed_usedBit (fun x hx => hva x (hls x hx)) (hva w hw)]
      split
      · rfl
      · rename_i hno
        exact hbit.resolve_right fun hc => hno (List.mem_map_of_mem hc)
  rcases exists_first (usedBit s) (b ++ a) with hall | ⟨p, w, q, hr, hp, hw⟩
  · -- all are used: the hand comes round to its first element
    obtain ⟨p, z, hz⟩ := List.eq_nil_or_concat (b ++ a) |>.resolve_left fun hnil => h.nonempty <| by
      rw [hl]
      obtain ⟨rfl, rfl⟩ := List.append_eq_nil_iff.1 hnil
      rfl
    rw [List.concat_eq_append] at hz
    obtain ⟨x, rest, hx⟩ : ∃ x rest, b ++ a = x :: rest := List.exists_cons_of_ne_nil (by rw [hz]; simp)
    refine ⟨b ++ a, x, ?_, ?_⟩
    · rw [hx] at hall ⊢
      exact .all hall
    have hpz : ∀ y, y ∈ p ++ [z] → y ∈ s.env.pageWsList := fun y hy => hmem y (hz ▸ hy)
    have hzmem := hpz z (by simp)
    have hzpage : z.virtualAddress / 4096 ∉ p.map (·.virtualAddress / 4096) := by
      have hd := h.ring_pages hl
      rw [hz, List.map_append] at hd
      exact fun hin => (List.nodup_append.1 hd).2.2 _ hin _ (by simp) rfl
    have hset := h.cleared p hzmem
    have henv : (handAt (p.foldl clearUsed s) (some z.addr)).env.pageWsList = s.env.pageWsList := by
      rw [handAt, foldl_clearUsed_env]
    have hused : usedBit (handAt (p.foldl clearUsed s) (some z.addr)) z = true := by
      show usedBit (p.foldl clearUsed s) z = true
      rw [foldl_clearUsed_usedBit (fun y hy => hva y (hpz y (by simp [hy]))) (hva z hzmem), if_neg hzpage]
      exact hall z (by rw [hz]; simp)
    have hnext : nextOf (handAt (p.foldl clearUsed s) (some z.addr)).env.pageWsList z.addr = some x := by
      rw [hset.next (henv.trans hl) (show b ++ a = p ++ z :: [] from hz), List.nil_append, ← hz, hx]
      rfl
    have hfuel : s.env.pageWsList.length + 1 = p.length + (1 + 1) := by
      rw [hlen, hz, List.length_append]
      rfl
    rw [hfuel, clockVictim_passes _ p [] [] z s h hva hl hz (by rw [hat, hz]) fun y hy =>
      hall y (by rw [hz]; simp [hy]), clockVictim_used hset (henv ▸ hzmem) rfl hused, hnext, Option.map_some]
    have hstate : handAt (clearUsed (handAt (p.foldl clearUsed s) (some z.addr)) z) (some x.addr) =
        handAt ((b ++ a).foldl clearUsed s) (some x.addr) := by
      rw [hz, List.foldl_append]
      rfl
    rw [hstate]
    exact hunused (b ++ a) (fun y hy => hmem y hy) (hmem x (by rw [hx]; simp)) (.inr (by rw [hx]; simp)) 0
  · refine ⟨p, w, hr ▸ .unused hp hw, ?_⟩
    have hin : ∀ y ∈ p, y ∈ s.env.pageWsList := fun y hy => hmem y (by rw [hr]; simp [hy])
    have hfuel : s.env.pageWsList.length + 1 = p.length + (q.length + 1 + 1) := by
      rw [hlen, hr, List.length_append, List.length_cons]
      omega
    rw [hfuel, clockVictim_passes _ p [] q w s h hva hl hr ?_ hp]
    · exact hunused p hin (hmem w (by rw [hr]; simp)) (.inl hw) _
    · rw [hat, hr]
      cases p <;> rfl

end Clock

/-- The victim can be written back, if it is modified. -/
def CanLeave (s : Machine) (w : WorkingSetElement) : Prop := modifiedBit s w = true → Storable s w.virtualAddress

section Returns

variable {s t : Machine} {w : WorkingSetElement} {l : List WorkingSetElement} {va : Nat}

theorem below_kernelBase (hva : va < userTop) : va < kernelBase := by
  simp only [userTop, kernelBase] at *
  omega

theorem CanLeave.cleared (h : CanLeave s w) (hl : ∀ x ∈ l, x.virtualAddress < userTop)
    (hw : w.virtualAddress < userTop) :
    CanLeave (l.foldl clearUsed s) w := by
  intro hm
  rw [foldl_clearUsed_modifiedBit hl hw] at hm
  have henv := foldl_clearUsed_env l s
  exact (h hm).congr (by rw [henv]) (by rw [henv]) (by rw [henv]) (foldl_clearUsed_pageFile l s)

/-- A page that can leave does. -/
theorem evictPage_returns (hw : w.virtualAddress < userTop) (ht : s.hasTable w.virtualAddress = true)
    (h : CanLeave s w) :
    ∃ t, evictPage w s = .ok w t ∧ Leaves s t := by
  have hend : ∀ {u : Machine}, Leaves s u →
      ∃ t, (do unmapUserFrame w.virtualAddress; return w : PM WorkingSetElement) u = .ok w t ∧ Leaves s t := by
    intro u hu
    obtain ⟨t, ht, hl⟩ := unmapUserFrame_returns w.virtualAddress u
    rw [bind_of_ok ht]
    exact ⟨t, rfl, hu.trans hl⟩
  unfold evictPage
  rw [bind_of_ok (permissions_eq ht)]
  dsimp only
  by_cases hm : (s.pte w.virtualAddress).perm.modified = true
  · rw [if_pos hm, get_bind]
    split
    · obtain ⟨u, hback, hu⟩ := pfUpdateEnvPage_returns (h hm) (below_kernelBase hw) ht
      rw [bind_of_ok hback]
      exact hend hu
    · exact hend (.refl s)
  · rw [if_neg hm]
    exact hend (.refl s)

end Returns

/-! ## The pages that change -/

/-- The lists of the process and its entries outside `P` are as they were. -/
structure KeptOutside (P : Nat → Prop) (s t : Machine) : Prop where
  ready : Ready t
  env : Alike s.env t.env
  entries : ∀ v < userPages, ¬ P v →
    userEntry t.mem s.env.envPageDirectory v = userEntry s.mem s.env.envPageDirectory v

def KeepsOutside (P : Nat → Prop) (s t : Machine) : Prop := Ready s → KeptOutside P s t

section KeepsOutside

variable {P : Nat → Prop} {s t u : Machine} {va : Nat} {perm : Perm}

theorem KeepsOutside.refl (s : Machine) : KeepsOutside P s s := fun h => ⟨h, .refl _, fun _ _ _ => rfl⟩

theorem KeepsOutside.trans (h : KeepsOutside P s t) (h' : KeepsOutside P t u) : KeepsOutside P s u := by
  intro hs
  have ht := h hs
  have hu := h' ht.ready
  refine ⟨hu.ready, ht.env.trans hu.env, fun v hv hp => ?_⟩
  have hrest := hu.entries v hv hp
  rw [ht.env.dir] at hrest
  exact hrest.trans (ht.entries v hv hp)

theorem keeps_bind {α β : Type} {x : PM α} {f : α → PM β}
    (hx : Does (KeepsOutside P) x) (hf : ∀ a, Does (KeepsOutside P) (f a)) :
    Does (KeepsOutside P) (x >>= f) :=
  hx.bind KeepsOutside.trans hf

theorem keeps_onKernel {α : Type} {x : KM α}
    (hx : ∀ {k a k'}, KernelReady k → x k = .ok a k' → KernelReady k' ∧ Within k.mem k'.mem) :
    Does (KeepsOutside P) (onKernel x) := by
  intro s a t h hs
  obtain ⟨k, hk, rfl⟩ := onKernel_ok h
  obtain ⟨hr, hw⟩ := hx hs.kernel hk
  exact ⟨hs.alike hr (.refl _), .refl _, fun v hv _ => userEntry_within hw hv⟩

/-- A new entry for a page of `P`. -/
theorem kept_setPte (hs : Ready s) (hva : va < userTop) (hp : P (va / 4096)) (q : Pte) (frames : Nat → Page)
    (pageFile : PageFile) :
    KeptOutside P s { s.setMem (s.mem.setPte (slot s.env.envPageDirectory va) q) with frames, pageFile } := by
  obtain ⟨hv, -, hslot, -⟩ := user_address hva s.env.envPageDirectory
  have hk := hs.kernel.setPte hs.dir hv q
  rw [(user_slot hv).2, ← hslot] at hk
  refine ⟨⟨hk, hs.dir, hs.ws, hs.active⟩, .refl _, fun v _ hno => ?_⟩
  show userEntry (s.mem.setPte (slot s.env.envPageDirectory va) q) _ v = _
  have hne : ¬ (s.env.envPageDirectory, v) = (s.env.envPageDirectory, va / 4096) := fun hc =>
    hno ((Prod.mk.inj hc).2 ▸ hp)
  rw [hslot]
  unfold userEntry
  rw [Mem.setPte_table, Mem.setPte_pte, if_neg hne]

theorem keeps_permissions (hva : va < userTop) (hp : P (va / 4096)) (x y : Perm) :
    Does (KeepsOutside P) (ptSetPagePermissions va x y) := by
  intro s _ t h hs
  obtain ⟨k, hk, rfl⟩ := onKernel_ok h
  obtain ⟨m, hm, rfl⟩ := onMem_ok hk
  obtain ⟨m', hm', hm⟩ := bind_ok hm
  cases hm
  unfold Mem.ptSetPagePermissions at hm'
  split at hm'
  · cases hm'
    exact kept_setPte hs hva hp _ s.frames s.pageFile
  · cases hm'

theorem keeps_storePage (hva : va < userTop) (hp : P (va / 4096)) (g : Page → Page) :
    Does (KeepsOutside P) (storePage va g) := by
  intro s _ t h hs
  unfold storePage at h
  rw [get_bind] at h
  split at h
  · cases h
    exact kept_setPte hs hva hp _ _ s.pageFile
  · cases h

theorem keeps_writeBack (hva : va < userTop) (hp : P (va / 4096)) : Does (KeepsOutside P) (writeBack va) := by
  intro s _ t h hs
  unfold writeBack at h
  rw [get_bind] at h
  split at h
  · obtain ⟨_, _, h, -⟩ := ok_of_bind h
    cases h
  · cases h
    exact kept_setPte hs hva hp _ s.frames _

/-- The code of the page file, for the pages of `P`. -/
theorem keepRule : PageRule (fun va => va < userTop ∧ P (va / 4096)) (Does (KeepsOutside P)) where
  pure := .pure KeepsOutside.refl
  throw e _ := .throw e
  bind := keeps_bind
  get := .get KeepsOutside.refl
  kmalloc := keeps_onKernel fun hk h => hk.kmalloc h
  pageFile g := .modify fun s hs => ⟨hs.alike hs.kernel (.refl _), .refl _, fun _ _ _ => rfl⟩
  disk g hg := .modify fun s hs => by
    obtain ⟨dir, tables, pages, hge⟩ := hg s.env
    have ha : Alike s.env (g s.env) := by
      rw [hge]
      exact ⟨rfl, rfl, rfl, rfl, rfl, rfl⟩
    exact ⟨hs.alike hs.kernel ha, ha, fun _ _ _ => rfl⟩
  unmodified _ h := keeps_permissions h.1 h.2 _ _
  writeBack _ h := keeps_writeBack h.1 h.2
  store _ g h := keeps_storePage h.1 h.2 g

theorem keeps_unmap (hva : va < userTop) (hp : P (va / 4096)) : Does (KeepsOutside P) (unmapUserFrame va) := by
  intro s _ t h hs
  obtain ⟨hv, -, hslot, -⟩ := user_address hva s.env.envPageDirectory
  have hset := sets_unmap hs hva h
  refine ⟨hset.ready, hset.env, fun v _ hno => ?_⟩
  cases h
  show userEntry (s.mem.unmapFrame s.env.envPageDirectory va) _ v = _
  have hne : ¬ (s.env.envPageDirectory, v) = slot s.env.envPageDirectory va := fun hc =>
    hno ((Prod.mk.inj (hc.trans hslot)).2 ▸ hp)
  unfold userEntry
  rw [(Mem.unmapFrame_same s.mem s.env.envPageDirectory va).1, unmapFrame_pte _ _ _ hne]

theorem keeps_placePage (hva : va < userTop) (hal : va % 4096 = 0) (hp : P (va / 4096)) :
    Does (KeepsOutside P) (placePage va perm) := by
  have hmap : ∀ f, Does (KeepsOutside P) (mapUserFrame f va perm) := by
    intro f s _ t h hs
    have hset := sets_map hs hva hal h
    refine ⟨hset.ready, hset.env, fun v hv hno => ?_⟩
    obtain ⟨k, hk, rfl⟩ := onKernel_ok h
    obtain ⟨hvp, -, -, -⟩ := user_address hva s.env.envPageDirectory
    rw [show va = va / 4096 * 4096 by omega] at hk
    obtain ⟨-, hother⟩ := hs.kernel.mapFrame hs.dir hvp hk
    exact hother _ v hv fun hc => hno ((Prod.mk.inj hc).2 ▸ hp)
  have halloc : Does (KeepsOutside P) Proc.allocateFrame := by
    refine keeps_onKernel fun hk h => ?_
    obtain ⟨m, hm, rfl⟩ := onMem_ok h
    have hw := allocateFrame_within hm
    exact ⟨hk.within hw, hw⟩
  have hrd : roundDown va pageSize = va := roundDown_of_dvd (by simp only [pageSize]; omega)
  unfold placePage
  refine keeps_bind halloc fun f => keeps_bind (hmap f) fun _ => keeps_bind ?_ fun b => .ite ?_ (.ite ?_ ?_)
  · exact keepRule.pfReadEnvPage (hrd.symm ▸ ⟨hva, hp⟩)
  · exact .pure KeepsOutside.refl _
  · exact .pure KeepsOutside.refl _
  · exact keeps_bind (keeps_storePage hva hp _) fun _ => .pure KeepsOutside.refl _

theorem unmodified_of_permissions {w : WorkingSetElement} {perms : Perm}
    (h : ptGetPagePermissions w.virtualAddress s = .ok perms t) (hm : ¬ perms.modified = true) :
      modifiedBit s w = false := by
  rw [ptGetPagePermissions_eq] at h
  obtain rfl := (EStateM.Result.ok.inj h).1
  split at hm
  · exact Bool.not_eq_true _ ▸ hm
  · exact absurd rfl hm

theorem frame_of_present (h : s.present va = true) : (s.mem.getFrameInfo s.env.envPageDirectory va).isSome = true := by
  obtain ⟨ht, hp⟩ := Bool.and_eq_true_iff.1 h
  rw [Mem.getFrameInfo, if_pos (show (s.mem.table (owner s.env.envPageDirectory va) (pdx va)).isSome = true from ht)]
  rw [held_of_present (show (s.mem.pte (slot s.env.envPageDirectory va)).perm.present = true from hp)]
  rfl

/-- The page the hand stops at is written back, unless it is not there or not modified, and goes. -/
theorem evictPage_ok {w x : WorkingSetElement} (h : evictPage w s = .ok x t) :
    x = w ∧ ∃ u, (u = s ∧ (s.present w.virtualAddress = true → modifiedBit s w = false) ∨
      pfUpdateEnvPage w.virtualAddress s = .ok () u) ∧ unmapUserFrame w.virtualAddress u = .ok () t := by
  have hend : ∀ {s : Machine}, (do unmapUserFrame w.virtualAddress; return w : PM WorkingSetElement) s = .ok x t →
      x = w ∧ unmapUserFrame w.virtualAddress s = .ok () t := fun h => by
    obtain ⟨_, u, h1, h⟩ := ok_of_bind h
    cases h
    exact ⟨rfl, h1⟩
  unfold evictPage at h
  obtain ⟨perms, u, h1, h⟩ := ok_of_bind h
  obtain rfl : s = u := (EStateM.Result.ok.inj ((ptGetPagePermissions_eq _ s).symm.trans h1)).2
  dsimp only at h
  split at h
  · rw [get_bind] at h
    split at h
    · obtain ⟨_, u, h2, h⟩ := ok_of_bind h
      obtain ⟨hx, h3⟩ := hend h
      exact ⟨hx, u, .inr h2, h3⟩
    · rename_i hno
      obtain ⟨hx, h3⟩ := hend h
      exact ⟨hx, s, .inl ⟨rfl, fun hp => absurd (frame_of_present hp) hno⟩, h3⟩
  · rename_i hclean
    obtain ⟨hx, h3⟩ := hend h
    exact ⟨hx, s, .inl ⟨rfl, fun _ => unmodified_of_permissions h1 hclean⟩, h3⟩

/-- The page the hand stops at goes, and no other one changes. -/
theorem evictPage_kept {w x : WorkingSetElement} (hs : Ready s) (hw : w.virtualAddress < userTop)
    (h : evictPage w s = .ok x t) :
    x = w ∧ KeptOutside (· = w.virtualAddress / 4096) s t ∧
      shown t.mem s.env.envPageDirectory (w.virtualAddress / 4096) = false := by
  obtain ⟨hx, u, hback, h1⟩ := evictPage_ok h
  have hu : KeptOutside (· = w.virtualAddress / 4096) s u := by
    rcases hback with ⟨rfl, -⟩ | hback
    · exact KeepsOutside.refl u hs
    · exact (keepRule (P := (· = w.virtualAddress / 4096))).pfUpdateEnvPage ⟨hw, rfl⟩ _ _ _ hback hs
  have hgone := (sets_unmap hu.ready hw h1).shown u.env.envPageDirectory _ (user_address hw 0).1
  rw [if_pos ⟨rfl, rfl⟩, hu.env.dir] at hgone
  have hunmap := keeps_unmap (P := (· = w.virtualAddress / 4096)) hw rfl _ _ _ h1
  exact ⟨hx, KeepsOutside.trans (fun _ => hu) hunmap hs, hgone⟩

end KeepsOutside

/-! ## Code that never waits -/

theorem onKernel_never {α : Type} {x : KM α} (hx : Never Halt.spins x) : Never Halt.spins (onKernel x) := by
  intro s t h
  unfold onKernel at h
  split at h
  · cases h
  · rename_i k hk
    cases h
    exact hx _ _ hk

theorem allocateFrame_never : Never Halt.spins Proc.allocateFrame := by
  refine onKernel_never (onMem_neverSpins fun m h => ?_)
  unfold Mem.allocateFrame at h
  split at h <;> cases h

theorem permissions_never (va : Nat) (x y : Perm) : Never Halt.spins (ptSetPagePermissions va x y) := by
  intro s t h
  refine onKernel_never (onMem_neverSpins fun m h => ?_) s t h
  rcases bind_error h with h | ⟨m', -, h⟩
  · unfold Mem.ptSetPagePermissions at h
    split at h <;> cases h
  · cases h

theorem storePage_never (va : Nat) (g : Page → Page) : Never Halt.spins (storePage va g) :=
  .bind .get fun s => .ite (.returns fun _ => ⟨_, _, rfl⟩) (.throw (by decide))

/-- The code of the page file asks the kernel heap for whole pages, and so never waits. -/
theorem neverRule : PageRule (fun _ => True) (Never Halt.spins) where
  pure := .pure
  throw e he := .throw he
  bind := .bind
  get := .get
  kmalloc := onKernel_never (kmalloc_pages_neverSpins (by decide))
  pageFile g := .modify _
  disk g _ := .modify _
  unmodified va _ := permissions_never va _ _
  writeBack va _ := by
    unfold writeBack
    exact .bind .get fun s => .ite (.bind (.throw (by decide)) fun _ => .bind (.modify _) fun _ => .modify _)
      (.bind (.modify _) fun _ => .modify _)
  store va g _ := storePage_never va g

theorem mapUserFrame_never (f va : Nat) (perm : Perm) : Never Halt.spins (mapUserFrame f va perm) := by
  have hcreate : ∀ d, Never Halt.spins (createPageTable d va) := by
    intro d
    unfold createPageTable
    exact .bind (kmalloc_pages_neverSpins (by decide)) fun ptr =>
      .ite (.bind (.throw fun h => nomatch h) fun _ => .modify _) (.modify _)
  intro s t h
  refine onKernel_never ?_ s t h
  unfold mapFrame
  exact .bind (.modify _) fun _ => .bind .get fun k => .ite (.bind (hcreate _) fun _ => .modify _) (.modify _)

theorem unmapUserFrame_never (va : Nat) : Never Halt.spins (unmapUserFrame va) := .returns fun _ => ⟨_, _, rfl⟩

theorem placePage_never (va : Nat) (perm : Perm) : Never Halt.spins (placePage va perm) := by
  unfold placePage
  refine .bind allocateFrame_never fun f => .bind (mapUserFrame_never f va perm) fun _ =>
    .bind (neverRule.pfReadEnvPage trivial) fun b => .ite (.pure _) (.ite (.pure _) ?_)
  exact .bind (storePage_never va _) fun _ => .pure _

theorem evictPage_never (w : WorkingSetElement) : Never Halt.spins (evictPage w) := by
  have hend : Never Halt.spins (do unmapUserFrame w.virtualAddress; return w : PM WorkingSetElement) :=
    .bind (unmapUserFrame_never _) fun _ => .pure w
  unfold evictPage
  refine .bind neverRule.ptGetPagePermissions fun perms => .ite (.bind .get fun s => .ite ?_ hend) hend
  exact .bind (neverRule.pfUpdateEnvPage trivial) fun _ => hend

/-! ## The order of the list -/

/-- The list `rotateToNext` leaves. -/
def rotated (l : List WorkingSetElement) (victim : Nat) : List WorkingSetElement :=
  match nextOf l victim with
  | some w => listFrom l w.addr
  | none => l

section Order

variable {l p q : List WorkingSetElement} {w : WorkingSetElement} {va : Nat}

theorem rotated_split (hd : ((p ++ w :: q).map (·.addr)).Nodup) : rotated (p ++ w :: q) w.addr = q ++ p ++ [w] := by
  obtain ⟨y, rest, hy⟩ : ∃ y rest, q ++ p ++ [w] = y :: rest := List.exists_cons_of_ne_nil (by simp)
  have hnext : nextOf (p ++ w :: q) w.addr = some y := by
    have := ringNext_split hd
    rw [hy] at this
    exact this
  unfold rotated
  simp only [hnext]
  exact ringFrom_next hd hnext

/-- The loop of the handler that moves the first element to the tail ends, in that order. -/
theorem moveHeads_rotated (hd : ((p ++ w :: q).map (·.addr)).Nodup) : ∃ next, nextOf (p ++ w :: q) w.addr = some next ∧
    moveHeads WorkingSetElement.addr next.addr (p ++ w :: q).length (p ++ w :: q) = some (q ++ p ++ [w]) := by
  obtain ⟨y, rest, hy⟩ : ∃ y rest, q ++ p ++ [w] = y :: rest := List.exists_cons_of_ne_nil (by simp)
  have hnext : ringNext WorkingSetElement.addr (p ++ w :: q) w.addr = some y := by
    rw [ringNext_split hd, hy]
    rfl
  have hmem : y ∈ p ++ w :: q := by
    have hin : y ∈ q ++ p ++ [w] := hy ▸ List.mem_cons_self
    simp only [List.mem_append, List.mem_cons, List.not_mem_nil, or_false] at hin ⊢
    tauto
  refine ⟨y, hnext, ?_⟩
  rw [moveHeads_ringFrom hd hmem, ringFrom_next hd hnext]

theorem setElement_split (hd : ((p ++ w :: q).map (·.addr)).Nodup) (r : Bool) :
    setElement (p ++ w :: q) w.addr va r = p ++ ⟨w.addr, va, if r then 0 else w.timeStamp⟩ :: q := by
  have hp := passes_split hd
  have hq : ∀ z ∈ q, z.addr ≠ w.addr := by
    intro z hz he
    rw [List.map_append, List.map_cons] at hd
    exact (List.nodup_cons.1 (List.nodup_append.1 hd).2.1).1 (he ▸ List.mem_map_of_mem hz)
  have hsame : ∀ l : List WorkingSetElement, (∀ z ∈ l, z.addr ≠ w.addr) → setElement l w.addr va r = l := by
    intro l hl
    unfold setElement
    exact (List.map_congr_left fun z hz => if_neg (hl z hz)).trans (List.map_id' l)
  have hw : setElement (p ++ w :: q) w.addr va r =
      setElement p w.addr va r ++ ⟨w.addr, va, if r then 0 else w.timeStamp⟩ :: setElement q w.addr va r := by
    simp only [setElement, List.map_append, List.map_cons, if_true]
  rw [hw, hsame p hp, hsame q hq]

end Order

/-! ## What a replacement does -/

/-- The victim's page is gone, the passed elements have lost `PERM_USED`, and no other page of the process changed but
the new one. -/
structure Evicted (s t : Machine) (passed : List WorkingSetElement) (victim : WorkingSetElement) (va : Nat) : Prop where
  gone : victim.virtualAddress / 4096 ≠ va / 4096 →
    shown t.mem s.env.envPageDirectory (victim.virtualAddress / 4096) = false
  entries : ∀ v < userPages, v ≠ victim.virtualAddress / 4096 → v ≠ va / 4096 →
    userEntry t.mem s.env.envPageDirectory v =
      if v ∈ passed.map (·.virtualAddress / 4096) then Pte.unused (userEntry s.mem s.env.envPageDirectory v)
      else userEntry s.mem s.env.envPageDirectory v

/-- The list is in the same circular order, which the loop that moves its head ends in, the victim's element has the
new page and is the last one, and the hand is at the first. -/
structure Reordered (s t : Machine) (victim : WorkingSetElement) (va time : Nat) : Prop where
  list : ∃ p q, s.env.pageWsList = p ++ victim :: q ∧
    t.env.pageWsList = q ++ p ++ [⟨victim.addr, roundDown va pageSize, time⟩] ∧
    ∃ next, nextOf s.env.pageWsList victim.addr = some next ∧
      moveHeads WorkingSetElement.addr next.addr s.env.pageWsList.length s.env.pageWsList = some (q ++ p ++ [victim])
  hand : t.env.pageLastWsElement = t.env.pageWsList.head?.map (·.addr)

section Replaced

variable {s t u : Machine} {passed : List WorkingSetElement} {victim : WorkingSetElement} {va : Nat}

theorem foldl_clearUsed_entry {l : List WorkingSetElement} (hl : ∀ x ∈ l, x.virtualAddress < userTop) (v : Nat) :
    userEntry (l.foldl clearUsed s).mem s.env.envPageDirectory v =
      if v ∈ l.map (·.virtualAddress / 4096) then Pte.unused (userEntry s.mem s.env.envPageDirectory v)
      else userEntry s.mem s.env.envPageDirectory v := by
  have hempty : Pte.unused {} = {} := by decide
  unfold userEntry
  rw [foldl_clearUsed_table, foldl_clearUsed_pte l s hl]
  simp only [true_and]
  split
  · rfl
  · rw [hempty, ite_self]

/-- The victim's page goes, and then the new page comes. -/
theorem evicted_of_kept (hva : ∀ x ∈ passed, x.virtualAddress < userTop) (hv : victim.virtualAddress < userTop)
    (hev : ∀ v < userPages, v ≠ victim.virtualAddress / 4096 →
      userEntry u.mem s.env.envPageDirectory v = userEntry (passed.foldl clearUsed s).mem s.env.envPageDirectory v)
    (hgone : shown u.mem s.env.envPageDirectory (victim.virtualAddress / 4096) = false)
    (hnew : ∀ v < userPages, v ≠ va / 4096 → userEntry t.mem s.env.envPageDirectory v =
      userEntry u.mem s.env.envPageDirectory v) :
    Evicted s t passed victim va := by
  have hvp := (user_address hv 0).1
  constructor
  · intro hne
    unfold shown at hgone ⊢
    rw [hnew _ hvp hne]
    exact hgone
  · intro v hlt h1 h2
    rw [hnew v hlt h2, hev v hlt h1, foldl_clearUsed_entry hva]

/-- A full working set goes to the replacement. -/
theorem pageFaultHandler_full (h : FullSet s) (faultVa : Nat) :
    pageFaultHandler .clock faultVa s = clockReplacement (roundDown faultVa pageSize) s ∧
      pageFaultHandler .modifiedClock faultVa s = modifiedClockReplacement (roundDown faultVa pageSize) s := by
  have hfull : ¬ s.env.pageWsList.length < s.env.pageWsMaxSize := not_lt.2 h.full
  constructor
  · unfold pageFaultHandler
    rw [if_neg (by decide), get_bind]
    dsimp only
    rw [if_neg hfull]
  · unfold pageFaultHandler
    rw [if_neg (by decide), get_bind]
    dsimp only
    rw [if_neg hfull]

/-- The end of `clockReplacement`. -/
def clockFinish (va : Nat) (victim : WorkingSetElement) : PM Outcome := do
  modifyEnv fun e => { e with pageWsList := setElement e.pageWsList victim.addr va false }
  match ← placePage va userWriteable with
  | .exits => return .exits
  | .returns =>
    rotateToNext victim.addr
    firstIsLast
    return .returns

theorem clockReplacement_eq (h : FullSet s) (va : Nat) : clockReplacement va s =
    (do
      let w ← clockVictim (s.env.pageWsList.length + 1)
      clockFinish va w : PM Outcome) (handAt s ((fromHand s.env).head?.map (·.addr))) := by
  have hhead : handAt s ((fromHand s.env).head?.map (·.addr)) =
      if s.env.pageLastWsElement = none then handAt s (s.env.pageWsList.head?.map (·.addr)) else s := by
    unfold fromHand
    cases hl : s.env.pageLastWsElement with
    | none => rw [if_pos rfl]
    | some a =>
      obtain ⟨w, hw, rfl⟩ := List.mem_map.1 (h.hand a hl)
      obtain ⟨p, q, hpq⟩ := List.append_of_mem hw
      have hd := h.elements
      rw [hpq] at hd ⊢
      have hr : listFrom (p ++ w :: q) w.addr = w :: q ++ p := ringFrom_split hd
      rw [if_neg (Option.some_ne_none _)]
      dsimp only
      rw [hr]
      show handAt s (some w.addr) = s
      rw [handAt, ← hl]
  rw [hhead]
  unfold clockReplacement
  rw [get_bind]
  by_cases hn : s.env.pageLastWsElement = none
  · rw [if_pos hn, if_pos hn]
    rfl
  · rw [if_neg hn, if_neg hn]
    rfl

theorem Ready.setElement (hs : Ready s) (hva : va < userTop) (a : Nat) (r : Bool) :
    Ready { s with env := { s.env with pageWsList := Fault.setElement s.env.pageWsList a va r } } := by
  refine ⟨hs.kernel, hs.dir, fun w hw => ?_, hs.active⟩
  obtain ⟨x, hx, rfl⟩ := List.mem_map.1 hw
  split
  · exact hva
  · exact hs.ws x hx

theorem clockFinish_never (va : Nat) (w : WorkingSetElement) : Never Halt.spins (clockFinish va w) := by
  unfold clockFinish
  refine .bind (.modify _) fun _ => .bind (placePage_never _ _) fun o => ?_
  cases o with
  | exits => exact .pure _
  | returns => exact .bind (.modify _) fun _ => .bind (.modify _) fun _ => .pure _

theorem clockFinish_returns (h : Placeable s va) (hal : va % 4096 = 0) :
    ∃ t, clockFinish va victim s = .ok .returns t := by
  have hset : Leaves s
      { s with env := { s.env with pageWsList := setElement s.env.pageWsList victim.addr va false } } :=
    ⟨rfl, rfl, id, fun _ => id⟩
  obtain ⟨t, ht⟩ := placePage_returns (h.leaves hset) hal userWriteable
  unfold clockFinish
  rw [bind_of_ok (show modifyEnv _ s = .ok () _ from rfl), bind_of_ok ht]
  exact ⟨_, rfl⟩

/-- The new page comes, and if the process goes on its list is turned to the element after the victim. -/
theorem clockFinish_ok {o : Outcome} (hs : Ready s) (hva : va < userTop) (hal : va % 4096 = 0)
    (h : clockFinish va victim s = .ok o t) :
    (∀ v < userPages, v ≠ va / 4096 → userEntry t.mem s.env.envPageDirectory v =
      userEntry s.mem s.env.envPageDirectory v) ∧
      (o = .returns → t.env.pageWsList = rotated (setElement s.env.pageWsList victim.addr va false) victim.addr ∧
        t.env.pageLastWsElement = t.env.pageWsList.head?.map (·.addr)) := by
  unfold clockFinish at h
  obtain ⟨_, u, h1, h⟩ := ok_of_bind h
  cases h1
  have hu := hs.setElement hva victim.addr false
  obtain ⟨o', u, h2, h⟩ := ok_of_bind h
  have hsp := keeps_placePage (P := (· = va / 4096)) hva hal rfl _ _ _ h2 hu
  have hentries : ∀ v < userPages, v ≠ va / 4096 →
      userEntry u.mem s.env.envPageDirectory v = userEntry s.mem s.env.envPageDirectory v := hsp.entries
  cases o' with
  | exits =>
    cases h
    exact ⟨hentries, fun hc => nomatch hc⟩
  | returns =>
    cases h
    refine ⟨hentries, fun _ => ⟨?_, rfl⟩⟩
    show rotated u.env.pageWsList victim.addr = _
    rw [hsp.env.ws]

/-- On a full working set the hand passes over used pages and clears their bits, and stops at the victim. -/
theorem clock_run (hs : Ready s) (h : FullSet s) (va : Nat) :
    ∃ passed victim, ClockChoice (usedBit s) (fromHand s.env) passed victim ∧
      (∀ x ∈ passed, x ∈ s.env.pageWsList) ∧ victim ∈ s.env.pageWsList ∧
      pageFaultHandler .clock va s = (do
        let w ← evictPage victim
        clockFinish (roundDown va pageSize) w : PM Outcome) (handAt (passed.foldl clearUsed s) (some victim.addr)) := by
  obtain ⟨a, b, hl, hcut⟩ := h.cut
  obtain ⟨y, rest, hy⟩ : ∃ y rest, fromHand s.env = y :: rest := by
    refine List.exists_cons_of_ne_nil fun hnil => h.nonempty ?_
    rw [hcut] at hnil
    obtain ⟨rfl, rfl⟩ := List.append_eq_nil_iff.1 hnil
    exact hl
  have hymem : y ∈ s.env.pageWsList := h.mem_fromHand.1 (hy ▸ List.mem_cons_self)
  have hset : FullSet (handAt s (some y.addr)) := h.cleared [] hymem
  obtain ⟨passed, w, hc, hv⟩ := clockVictim_eq hset hs.ws hl (by rw [← hcut, hy]; rfl)
  rw [← hcut] at hc
  have hc : ClockChoice (usedBit s) (fromHand s.env) passed w := hc
  refine ⟨passed, w, hc, fun x hx => h.mem_fromHand.1 (hc.mem.1 x hx), h.mem_fromHand.1 hc.mem.2, ?_⟩
  have hstart : (handAt s (some y.addr)).env.pageWsList.length + 1 = s.env.pageWsList.length + 1 := rfl
  rw [hstart] at hv
  rw [(pageFaultHandler_full h va).1, clockReplacement_eq h, hy]
  show EStateM.bind _ _ _ = EStateM.bind _ _ _
  unfold EStateM.bind
  rw [show (handAt s ((y :: rest).head?.map (·.addr))) = handAt s (some y.addr) from rfl, hv, foldl_clearUsed_handAt]
  rfl

/-- On a full working set the clock always ends, and takes the first unused page from the hand. It returns whenever the
new page can be placed and a modified victim can be written back. -/
theorem clock_replaces (hs : Ready s) (h : FullSet s) (hva : va < userTop) :
    ∃ passed victim, ClockChoice (usedBit s) (fromHand s.env) passed victim ∧
      (∀ t, pageFaultHandler .clock va s ≠ .error .spins t) ∧
      (Placeable s (roundDown va pageSize) → CanLeave s victim → ∃ t, pageFaultHandler .clock va s = .ok .returns t) ∧
      ∀ o t, pageFaultHandler .clock va s = .ok o t → Evicted s t passed victim va ∧
        (o = .returns → Reordered s t victim va victim.timeStamp) := by
  obtain ⟨passed, w, hc, hin, hw, hrun⟩ := clock_run hs h va
  have hpassed : ∀ x ∈ passed, x.virtualAddress < userTop := fun x hx => hs.ws x (hin x hx)
  have hwva := hs.ws w hw
  refine ⟨passed, w, hc, fun t ht => ?_, fun hplace hleave => ?_, fun o t ht => ?_⟩
  · rw [hrun] at ht
    exact Never.bind (evictPage_never w) (clockFinish_never _) _ _ ht
  · have hl : Leaves s (handAt (passed.foldl clearUsed s) (some w.addr)) :=
      Leaves.trans (leaves_foldl_clearUsed passed s) ⟨rfl, rfl, id, fun _ => id⟩
    have hstore : CanLeave (handAt (passed.foldl clearUsed s) (some w.addr)) w := fun hm =>
      (hleave.cleared hpassed hwva hm).congr rfl rfl rfl rfl
    obtain ⟨u, hev, hu⟩ := evictPage_returns hwva ((hl.hasTable _).trans (h.tables w hw)) hstore
    obtain ⟨t, ht⟩ : ∃ t, clockFinish _ w u = .ok .returns t :=
      clockFinish_returns (hplace.leaves (hl.trans hu)) (roundDown_aligned va)
    rw [hrun, bind_of_ok hev]
    exact ⟨t, ht⟩
  · rw [hrun] at ht
    obtain ⟨x, u, h1, h2⟩ := ok_of_bind ht
    have hcleared : Ready (handAt (passed.foldl clearUsed s) (some w.addr)) := by
      have := hs.foldl_clearUsed hpassed
      exact ⟨this.kernel, this.dir, this.ws, this.active⟩
    obtain ⟨rfl, hsp, hgone⟩ := evictPage_kept hcleared hwva h1
    have henv := foldl_clearUsed_env passed s
    have hdir : (handAt (passed.foldl clearUsed s) (some x.addr)).env.envPageDirectory = s.env.envPageDirectory :=
      show (passed.foldl clearUsed s).env.envPageDirectory = s.env.envPageDirectory by rw [henv]
    have hudir : u.env.envPageDirectory = s.env.envPageDirectory := hsp.env.dir.trans hdir
    obtain ⟨hnew, hlist⟩ := clockFinish_ok hsp.ready (roundDown_lt hva) (roundDown_aligned va) h2
    have hev := hsp.entries
    rw [hdir] at hev hgone
    rw [hudir, roundDown_div] at hnew
    refine ⟨evicted_of_kept hpassed hwva hev hgone hnew, fun ho => ?_⟩
    obtain ⟨hws, hhand⟩ := hlist ho
    refine ⟨?_, hhand⟩
    have huws : u.env.pageWsList = s.env.pageWsList := hsp.env.ws.trans <|
      show (passed.foldl clearUsed s).env.pageWsList = s.env.pageWsList by rw [henv]
    obtain ⟨p, q, hpq⟩ := List.append_of_mem hw
    have hd := h.elements
    rw [hpq] at hd
    refine ⟨p, q, hpq, ?_, hpq ▸ moveHeads_rotated hd⟩
    rw [hws, huws, hpq, setElement_split hd]
    have hd' : ((p ++ ⟨x.addr, roundDown va pageSize, x.timeStamp⟩ :: q).map WorkingSetElement.addr).Nodup := by
      simpa using hd
    exact rotated_split hd'

end Replaced

/-- The two pages of the stack, the first one used, the second one modified; the page file has a table for them and a
free frame. -/
def usedProcess : Machine :=
  let s := (stackProcess 2).machine
  let used : Pte := { s.pte (stackPage 0) with perm := { presentUserWriteable with used := true } }
  let modified : Pte := { s.pte (stackPage 1) with perm := { presentUserWriteable with modified := true } }
  { s.setMem ((s.mem.setPte (slot 1 (stackPage 0)) used).setPte (slot 1 (stackPage 1)) modified) with
    env := { s.env with
      diskEnvPgdir := kernelHeapStart + 4096
      diskTables := fun i => if i = 954 then some 902 else none }
    pageFile := ⟨fun _ => zeroPage, [1]⟩ }

theorem usedProcess_ready : Ready usedProcess := by
  have hs := (stackProcess_start 2).ready
  have h1 : KeptOutside (fun _ => True) _ _ := kept_setPte hs (show stackPage 0 < userTop by decide) trivial
    { (stackProcess 2).machine.pte (stackPage 0) with perm := { presentUserWriteable with used := true } }
    (stackProcess 2).machine.frames (stackProcess 2).machine.pageFile
  have h2 : KeptOutside (fun _ => True) _ _ := kept_setPte h1.ready (show stackPage 1 < userTop by decide) trivial
    { (stackProcess 2).machine.pte (stackPage 1) with perm := { presentUserWriteable with modified := true } }
    (stackProcess 2).machine.frames (stackProcess 2).machine.pageFile
  exact ⟨h2.ready.kernel, h2.ready.dir, h2.ready.ws, h2.ready.active⟩

theorem usedProcess_full : FullSet usedProcess :=
  ⟨by decide, by decide, by decide, by decide, by decide, fun a ha => nomatch ha⟩

theorem usedProcess_placeable : Placeable usedProcess (stackPage 2) :=
  ⟨by decide, by decide, .inr (by decide)⟩

theorem usedProcess_canLeave : ∀ w ∈ usedProcess.env.pageWsList, CanLeave usedProcess w := by
  have hstore : ∀ w ∈ twoPages, Storable usedProcess w.virtualAddress := by
    rintro w hw
    have hall : twoPages = [⟨kernelHeapStart, 977917 * 4096, 0⟩, ⟨kernelHeapStart + 32, 977916 * 4096, 0⟩] := rfl
    rw [hall] at hw
    rcases List.mem_cons.1 hw with rfl | hw
    · exact ⟨by decide, by decide, .inr ⟨by decide, by decide⟩⟩
    · obtain rfl := List.mem_singleton.1 hw
      exact ⟨by decide, by decide, .inr ⟨by decide, by decide⟩⟩
  exact fun w hw _ => hstore w hw

/-- The hand passes over the first page and stops at the second, which is written back. -/
theorem clock_replaces_stack : ∃ passed victim t,
    ClockChoice (usedBit usedProcess) (fromHand usedProcess.env) passed victim ∧
      pageFaultHandler .clock (stackPage 2) usedProcess = .ok .returns t ∧
      Evicted usedProcess t passed victim (stackPage 2) ∧
        Reordered usedProcess t victim (stackPage 2) victim.timeStamp := by
  have hva : stackPage 2 < userTop := by decide
  obtain ⟨passed, victim, hc, -, hreturns, hafter⟩ := clock_replaces usedProcess_ready usedProcess_full hva
  have hvictim : victim ∈ usedProcess.env.pageWsList := usedProcess_full.mem_fromHand.1 hc.mem.2
  obtain ⟨t, ht⟩ := hreturns usedProcess_placeable (usedProcess_canLeave victim hvictim)
  obtain ⟨hev, hre⟩ := hafter .returns t ht
  exact ⟨passed, victim, t, hc, ht, hev, hre rfl⟩

/-! ## The modified clock -/

section ModifiedClock

variable {s : Machine} {w : WorkingSetElement} {l p q : List WorkingSetElement}

theorem scanClean_eq : ∀ {l : List WorkingSetElement}, (∀ x ∈ l, s.hasTable x.virtualAddress = true) →
    scanClean l s = .ok (l.find? fun x => !usedBit s x && !modifiedBit s x) s
  | [], _ => rfl
  | x :: l, ht => by
    unfold scanClean
    rw [bind_of_ok (permissions_eq (ht x List.mem_cons_self)), List.find?_cons]
    by_cases hc : (!usedBit s x && !modifiedBit s x) = true
    · rw [hc]
      exact congrFun (if_pos hc) s
    · rw [Bool.not_eq_true] at hc
      rw [hc]
      refine (congrFun (if_neg (by rw [show (!(s.pte x.virtualAddress).perm.used &&
        !(s.pte x.virtualAddress).perm.modified) = false from hc]; exact Bool.false_ne_true)) s).trans ?_
      exact scanClean_eq fun y hy => ht y (List.mem_cons_of_mem x hy)

/-- The second pass goes over used elements and clears their bits. -/
theorem scanUnused_passes : ∀ {l : List WorkingSetElement} {s : Machine},
    (∀ x ∈ l, s.hasTable x.virtualAddress = true) →
    (∀ x ∈ l, x.virtualAddress < userTop) → (l.map (·.virtualAddress / 4096)).Nodup → (∀ x ∈ l, usedBit s x = true) →
    scanUnused (l ++ q) s = scanUnused q (l.foldl clearUsed s)
  | [], _, _, _, _, _ => rfl
  | x :: l, s, ht, hva, hd, hu => by
    have hx := ht x List.mem_cons_self
    have hux : ¬ (!(s.pte x.virtualAddress).perm.used) = true := by
      rw [show (s.pte x.virtualAddress).perm.used = true from hu x List.mem_cons_self]
      exact Bool.false_ne_true
    obtain ⟨hnx, hd⟩ := List.nodup_cons.1 hd
    rw [List.cons_append]
    conv_lhs => unfold scanUnused
    rw [bind_of_ok (permissions_eq hx), if_neg hux, bind_of_ok (permissions_clearUsed hx)]
    refine scanUnused_passes (s := clearUsed s x) (fun y hy => ?_) (fun y hy => hva y (List.mem_cons_of_mem x hy)) hd
      fun y hy => ?_
    · exact (foldl_clearUsed_hasTable [x] s _).trans (ht y (List.mem_cons_of_mem x hy))
    · have hbit := foldl_clearUsed_usedBit (s := s) (l := [x]) (w := y)
        (fun z hz => List.mem_singleton.1 hz ▸ hva x List.mem_cons_self) (hva y (List.mem_cons_of_mem x hy))
      rw [if_neg (show y.virtualAddress / 4096 ∉ [x].map (·.virtualAddress / 4096) from
        fun hc => hnx (List.mem_singleton.1 hc ▸ List.mem_map_of_mem hy))] at hbit
      exact hbit.trans (hu y (List.mem_cons_of_mem x hy))

theorem scanUnused_stops (ht : s.hasTable w.virtualAddress = true) (hw : usedBit s w = false) :
    scanUnused (w :: q) s = .ok (some w) s := by
  have hu : (!(s.pte w.virtualAddress).perm.used) = true := by
    rw [show (s.pte w.virtualAddress).perm.used = false from hw]
    rfl
  unfold scanUnused
  rw [bind_of_ok (permissions_eq ht), if_pos hu]
  rfl

theorem find_clean (hp : ∀ x ∈ p, (usedBit s x || modifiedBit s x) = true)
    (hw : (usedBit s w || modifiedBit s w) = false) :
    (p ++ w :: q).find? (fun x => !usedBit s x && !modifiedBit s x) = some w := by
  have hnone : p.find? (fun x => !usedBit s x && !modifiedBit s x) = none := by
    refine List.find?_eq_none.2 fun x hx => ?_
    have := hp x hx
    rw [← Bool.not_or, this]
    exact Bool.false_ne_true
  rw [List.find?_append, hnone, Option.none_or, List.find?_cons_of_pos]
  rw [← Bool.not_or, hw]
  rfl

theorem modifiedClockVictim_clean {t : Machine} {fuel : Nat} (h : scanClean l s = .ok (some w) t) :
    modifiedClockVictim l (fuel + 1) s = .ok w t := by
  unfold modifiedClockVictim
  rw [bind_of_ok h]
  rfl

theorem modifiedClockVictim_unused {t u : Machine} {fuel : Nat} (h : scanClean l s = .ok none t)
    (h' : scanUnused l t = .ok (some w) u) : modifiedClockVictim l (fuel + 1) s = .ok w u := by
  unfold modifiedClockVictim
  rw [bind_of_ok h]
  dsimp only
  rw [bind_of_ok h']
  rfl

theorem modifiedClockVictim_round {t u : Machine} {fuel : Nat} (h : scanClean l s = .ok none t)
    (h' : scanUnused l t = .ok none u) : modifiedClockVictim l (fuel + 1) s = modifiedClockVictim l fuel u := by
  conv_lhs => unfold modifiedClockVictim
  rw [bind_of_ok h]
  dsimp only
  rw [bind_of_ok h']

/-- Two rounds end at the element of choice. -/
theorem modifiedClockVictim_eq (ht : ∀ x ∈ l, s.hasTable x.virtualAddress = true)
    (hva : ∀ x ∈ l, x.virtualAddress < userTop)
    (hd : (l.map (·.virtualAddress / 4096)).Nodup) (hne : l ≠ []) :
    ∃ passed w, ModifiedClockChoice (usedBit s) (modifiedBit s) l passed w ∧
      modifiedClockVictim l 2 s = .ok w (passed.foldl clearUsed s) := by
  rcases exists_first (fun x => usedBit s x || modifiedBit s x) l with hall | ⟨p, w, q, rfl, hp, hw⟩
  swap
  · -- the first pass finds a clean page
    refine ⟨[], w, .clean (fun x hx => Bool.or_eq_true_iff.1 (hp x hx)) (Bool.or_eq_false_iff.1 hw), ?_⟩
    rw [List.foldl_nil]
    exact modifiedClockVictim_clean ((scanClean_eq ht).trans (by rw [find_clean hp hw]))
  have hfind : l.find? (fun x => !usedBit s x && !modifiedBit s x) = none := by
    refine List.find?_eq_none.2 fun x hx => ?_
    rw [← Bool.not_or, hall x hx]
    exact Bool.false_ne_true
  have hclean : scanClean l s = .ok none s := (scanClean_eq ht).trans (by rw [hfind])
  rcases exists_first (usedBit s) l with hused | ⟨p, w, q, rfl, hp, hw⟩
  swap
  · -- the second pass finds an unused page
    have hpin : ∀ x ∈ p, x ∈ p ++ w :: q := fun x hx => List.mem_append_left _ hx
    have hwin : w ∈ p ++ w :: q := by simp
    refine ⟨p, w, .unused (fun x hx => Bool.or_eq_true_iff.1 (hall x hx)) hp hw, ?_⟩
    have hdp : (p.map (·.virtualAddress / 4096)).Nodup := by
      rw [List.map_append] at hd
      exact (List.nodup_append.1 hd).1
    have hbit : usedBit (p.foldl clearUsed s) w = false := by
      rw [foldl_clearUsed_usedBit (fun x hx => hva x (hpin x hx)) (hva w hwin), hw, ite_self]
    have hscan : scanUnused (p ++ w :: q) s = .ok (some w) (p.foldl clearUsed s) := by
      rw [scanUnused_passes (fun x hx => ht x (hpin x hx)) (fun x hx => hva x (hpin x hx)) hdp hp]
      exact scanUnused_stops ((foldl_clearUsed_hasTable p s _).trans (ht w hwin)) hbit
    exact modifiedClockVictim_unused hclean hscan
  -- all were used: the second round sees them without their bits
  have hscan : scanUnused l s = .ok none (l.foldl clearUsed s) := by
    have := scanUnused_passes (q := []) ht hva hd hused
    rw [List.append_nil] at this
    exact this
  have ht' : ∀ x ∈ l, (l.foldl clearUsed s).hasTable x.virtualAddress = true := fun x hx =>
    (foldl_clearUsed_hasTable l s _).trans (ht x hx)
  have hunused : ∀ x ∈ l, usedBit (l.foldl clearUsed s) x = false := by
    intro x hx
    rw [foldl_clearUsed_usedBit hva (hva x hx), if_pos (List.mem_map_of_mem hx)]
  have hmod : ∀ x ∈ l, modifiedBit (l.foldl clearUsed s) x = modifiedBit s x := fun x hx =>
    foldl_clearUsed_modifiedBit hva (hva x hx)
  rcases exists_first (modifiedBit s) l with hmodified | ⟨p, w, q, rfl, hp, hw⟩
  · obtain ⟨x, rest, rfl⟩ := List.exists_cons_of_ne_nil hne
    refine ⟨x :: rest, x, .all fun y hy => ⟨hused y hy, hmodified y hy⟩, ?_⟩
    have hfind' : (x :: rest).find? (fun y => !usedBit ((x :: rest).foldl clearUsed s) y &&
        !modifiedBit ((x :: rest).foldl clearUsed s) y) = none := by
      refine List.find?_eq_none.2 fun y hy => ?_
      rw [hmod y hy, hmodified y hy, Bool.not_true, Bool.and_false]
      exact Bool.false_ne_true
    rw [modifiedClockVictim_round hclean hscan]
    exact modifiedClockVictim_unused ((scanClean_eq ht').trans (by rw [hfind']))
      (scanUnused_stops (ht' x List.mem_cons_self) (hunused x List.mem_cons_self))
  · refine ⟨p ++ w :: q, w, .unmodified hused hp hw, ?_⟩
    have hwin : w ∈ p ++ w :: q := by simp
    have hpass : ∀ x ∈ p, (usedBit ((p ++ w :: q).foldl clearUsed s) x ||
        modifiedBit ((p ++ w :: q).foldl clearUsed s) x) = true :=
      fun x hx => by rw [hmod x (List.mem_append_left _ hx), hp x hx, Bool.or_true]
    have hstop : (usedBit ((p ++ w :: q).foldl clearUsed s) w || modifiedBit ((p ++ w :: q).foldl clearUsed s) w) =
        false := by
      rw [hunused w hwin, hmod w hwin, hw]
      rfl
    rw [modifiedClockVictim_round hclean hscan]
    exact modifiedClockVictim_clean ((scanClean_eq ht').trans (by rw [find_clean hpass hstop]))

/-- The end of `modifiedClockReplacement`, from where the victim is unmapped. -/
def modifiedClockPlace (va : Nat) (victim : WorkingSetElement) : PM Outcome := do
  unmapUserFrame victim.virtualAddress
  modifyEnv fun e => { e with pageWsList := setElement e.pageWsList victim.addr va true }
  match ← placePage va presentUserWriteable with
  | .exits => return .exits
  | .returns =>
    firstIsLast
    return .returns

/-- What `modifiedClockReplacement` does with the victim. -/
def modifiedClockFinish (va : Nat) (victim : WorkingSetElement) : PM Outcome := do
  rotateToNext victim.addr
  let perms ← ptGetPagePermissions victim.virtualAddress
  if perms.modified then
    pfUpdateEnvPage victim.virtualAddress
    modifyMem (·.unmapFrame 0 pgfltemp)
  modifiedClockPlace va victim

theorem modifiedClockReplacement_eq (h : FullSet s) (va : Nat) : modifiedClockReplacement va s =
    (do
      let w ← modifiedClockVictim (fromHand s.env) 2
      modifiedClockFinish va w : PM Outcome) s := by
  unfold modifiedClockReplacement
  rw [get_bind]
  cases hl : s.env.pageLastWsElement with
  | none =>
    obtain ⟨w, rest, hw⟩ := List.exists_cons_of_ne_nil h.nonempty
    have hd := h.elements
    have hhand : listFrom s.env.pageWsList w.addr = fromHand s.env := by
      rw [fromHand, hl]
      dsimp only
      rw [hw] at hd ⊢
      exact (ringFrom_split (p := []) hd).trans (List.append_nil _)
    simp only [hw, List.head?_cons]
    rw [← hw, hhand]
    rfl
  | some a =>
    obtain ⟨w, hw, rfl⟩ := List.mem_map.1 (h.hand a hl)
    have hhand : listFrom s.env.pageWsList w.addr = fromHand s.env := by
      rw [fromHand, hl]
    simp only [h.at hw]
    rw [hhand]
    rfl

theorem modifiedClockFinish_never (va : Nat) (w : WorkingSetElement) : Never Halt.spins (modifiedClockFinish va w) := by
  have hplace : Never Halt.spins (modifiedClockPlace va w) := by
    unfold modifiedClockPlace
    refine .bind (unmapUserFrame_never _) fun _ => .bind (.modify _) fun _ => .bind (placePage_never _ _) fun o => ?_
    cases o with
    | exits => exact .pure _
    | returns => exact .bind (.modify _) fun _ => .pure _
  unfold modifiedClockFinish
  refine .bind (.modify _) fun _ => .bind neverRule.ptGetPagePermissions fun perms => .ite ?_ hplace
  exact .bind (neverRule.pfUpdateEnvPage trivial) fun _ => .bind (.modify _) fun _ => hplace

theorem modifiedClockPlace_returns {va : Nat} (h : Placeable s va) (hal : va % 4096 = 0) :
    ∃ t, modifiedClockPlace va w s = .ok .returns t := by
  obtain ⟨u, hgoes, hu⟩ := unmapUserFrame_returns w.virtualAddress s
  have hset : Leaves u { u with env := { u.env with pageWsList := setElement u.env.pageWsList w.addr va true } } :=
    ⟨rfl, rfl, id, fun _ => id⟩
  obtain ⟨t, ht⟩ := placePage_returns (h.leaves (hu.trans hset)) hal presentUserWriteable
  unfold modifiedClockPlace
  rw [bind_of_ok hgoes, bind_of_ok (show modifyEnv _ u = .ok () _ from rfl), bind_of_ok ht]
  exact ⟨_, rfl⟩

theorem modifiedClockFinish_returns {va : Nat} (hw : w.virtualAddress < userTop)
    (ht : s.hasTable w.virtualAddress = true)
    (hleave : CanLeave s w) (h : Placeable s va) (hal : va % 4096 = 0) :
    ∃ t, modifiedClockFinish va w s = .ok .returns t := by
  have hrest : ∀ {u : Machine}, Leaves s u → CanLeave u w → ∃ t, (do
      let perms ← ptGetPagePermissions w.virtualAddress
      if perms.modified then
        pfUpdateEnvPage w.virtualAddress
        modifyMem (·.unmapFrame 0 pgfltemp)
      modifiedClockPlace va w : PM Outcome) u = .ok .returns t := by
    intro u hu hleave
    have htu : u.hasTable w.virtualAddress = true := (hu.hasTable _).trans ht
    rw [bind_of_ok (permissions_eq htu)]
    dsimp only
    by_cases hm : (u.pte w.virtualAddress).perm.modified = true
    · obtain ⟨v, hback, hv⟩ := pfUpdateEnvPage_returns (hleave hm) (below_kernelBase hw) htu
      rw [if_pos hm, bind_of_ok hback, bind_of_ok (show modifyMem _ v = .ok () _ from rfl)]
      exact modifiedClockPlace_returns (h.leaves ((hu.trans hv).trans (leaves_unmapFrame v 0 pgfltemp))) hal
    · rw [if_neg hm]
      exact modifiedClockPlace_returns (h.leaves hu) hal
  have hturn : Leaves s { s with env := { s.env with pageWsList := rotated s.env.pageWsList w.addr } } :=
    ⟨rfl, rfl, id, fun _ => id⟩
  exact hrest hturn fun hm => (hleave hm).congr rfl rfl rfl rfl

theorem keeps_unmapKernel {P : Nat → Prop} : Does (KeepsOutside P) (modifyMem (·.unmapFrame 0 pgfltemp)) := by
  refine .modify fun s hs => ?_
  dsimp only
  rw [hs.unmap_pgfltemp]
  exact KeepsOutside.refl s hs

/-- The victim's page goes and the new page comes, and the victim's element has it. -/
theorem modifiedClockPlace_ok {t : Machine} {va : Nat} {o : Outcome} (hs : Ready s) (hw : w.virtualAddress < userTop)
    (hva : va < userTop) (hal : va % 4096 = 0) (h : modifiedClockPlace va w s = .ok o t) :
    (w.virtualAddress / 4096 ≠ va / 4096 → shown t.mem s.env.envPageDirectory (w.virtualAddress / 4096) = false) ∧
    (∀ v < userPages, v ≠ w.virtualAddress / 4096 → v ≠ va / 4096 →
      userEntry t.mem s.env.envPageDirectory v = userEntry s.mem s.env.envPageDirectory v) ∧
    (o = .returns → t.env.pageWsList = setElement s.env.pageWsList w.addr va true ∧
      t.env.pageLastWsElement = t.env.pageWsList.head?.map (·.addr)) := by
  unfold modifiedClockPlace at h
  obtain ⟨_, s₁, h1, h⟩ := ok_of_bind h
  have hk := keeps_unmap (P := (· = w.virtualAddress / 4096)) hw rfl _ _ _ h1 hs
  have hvp := (user_address hw 0).1
  have hgone := (sets_unmap hs hw h1).shown s.env.envPageDirectory _ hvp
  rw [if_pos ⟨rfl, rfl⟩] at hgone
  obtain ⟨_, s₂, h2, h⟩ := ok_of_bind h
  cases h2
  have hready := hk.ready.setElement hva w.addr true
  obtain ⟨o', u, h3, h⟩ := ok_of_bind h
  have hplace := keeps_placePage (P := (· = va / 4096)) hva hal rfl _ _ _ h3 hready
  have hnew : ∀ v < userPages, v ≠ va / 4096 →
      userEntry u.mem s.env.envPageDirectory v = userEntry s₁.mem s.env.envPageDirectory v := by
    have := hplace.entries
    rw [show ({ s₁ with env := { s₁.env with pageWsList := setElement s₁.env.pageWsList w.addr va true } } :
      Machine).env.envPageDirectory = s.env.envPageDirectory from hk.env.dir] at this
    exact this
  have hpages : (w.virtualAddress / 4096 ≠ va / 4096 → shown u.mem s.env.envPageDirectory
      (w.virtualAddress / 4096) = false) ∧
      ∀ v < userPages, v ≠ w.virtualAddress / 4096 → v ≠ va / 4096 →
        userEntry u.mem s.env.envPageDirectory v = userEntry s.mem s.env.envPageDirectory v := by
    refine ⟨fun hne => ?_, fun v hv h1 h2 => (hnew v hv h2).trans (hk.entries v hv h1)⟩
    unfold shown at hgone ⊢
    rw [hnew _ hvp hne]
    exact hgone
  cases o' with
  | exits =>
    cases h
    exact ⟨hpages.1, hpages.2, fun hc => nomatch hc⟩
  | returns =>
    cases h
    refine ⟨hpages.1, hpages.2, fun _ => ⟨?_, rfl⟩⟩
    exact hplace.env.ws.trans (congrArg (fun l => setElement l w.addr va true) hk.env.ws)

/-- The list is turned, a modified victim is written back, and the pages change. -/
theorem modifiedClockFinish_ok {t : Machine} {va : Nat} {o : Outcome} (hs : Ready s)
    (hd : (s.env.pageWsList.map (·.addr)).Nodup) (hw : w ∈ s.env.pageWsList) (hva : va < userTop) (hal : va % 4096 = 0)
    (hr : modifiedClockFinish va w s = .ok o t) :
    (w.virtualAddress / 4096 ≠ va / 4096 → shown t.mem s.env.envPageDirectory (w.virtualAddress / 4096) = false) ∧
    (∀ v < userPages, v ≠ w.virtualAddress / 4096 → v ≠ va / 4096 →
      userEntry t.mem s.env.envPageDirectory v = userEntry s.mem s.env.envPageDirectory v) ∧
    (o = .returns → ∃ p q, s.env.pageWsList = p ++ w :: q ∧ t.env.pageWsList = q ++ p ++ [⟨w.addr, va, 0⟩] ∧
      t.env.pageLastWsElement = t.env.pageWsList.head?.map (·.addr)) := by
  obtain ⟨p, q, hpq⟩ := List.append_of_mem hw
  rw [hpq] at hd
  have hrot : rotated s.env.pageWsList w.addr = q ++ p ++ [w] := by rw [hpq, rotated_split hd]
  have hwva := hs.ws w hw
  have hturned : Ready { s with env := { s.env with pageWsList := rotated s.env.pageWsList w.addr } } := by
    refine ⟨hs.kernel, hs.dir, fun x hx => hs.ws x ?_, hs.active⟩
    rw [show ({ s with env := { s.env with pageWsList := rotated s.env.pageWsList w.addr } } : Machine).env.pageWsList
      = q ++ p ++ [w] from hrot] at hx
    rw [hpq]
    simp only [List.mem_append, List.mem_cons, List.not_mem_nil, or_false] at hx ⊢
    tauto
  have hset : setElement (q ++ p ++ [w]) w.addr va true = q ++ p ++ [⟨w.addr, va, 0⟩] := by
    have hd' : ((q ++ p ++ w :: []).map WorkingSetElement.addr).Nodup := by
      refine (List.Perm.nodup_iff (List.Perm.map _ ?_)).1 hd
      exact List.perm_append_comm.trans (List.perm_append_singleton w (q ++ p)).symm
    have hsplit : setElement (q ++ p ++ [w]) w.addr va true = q ++ p ++
        [⟨w.addr, va, if true then 0 else w.timeStamp⟩] :=
      setElement_split hd' true
    rwa [if_pos rfl] at hsplit
  have hend : ∀ {u : Machine}, KeptOutside (· = w.virtualAddress / 4096)
      { s with env := { s.env with pageWsList := rotated s.env.pageWsList w.addr } } u →
        modifiedClockPlace va w u = .ok o t →
      (w.virtualAddress / 4096 ≠ va / 4096 → shown t.mem s.env.envPageDirectory (w.virtualAddress / 4096) = false) ∧
      (∀ v < userPages, v ≠ w.virtualAddress / 4096 → v ≠ va / 4096 →
        userEntry t.mem s.env.envPageDirectory v = userEntry s.mem s.env.envPageDirectory v) ∧
      (o = .returns → ∃ p q, s.env.pageWsList = p ++ w :: q ∧ t.env.pageWsList = q ++ p ++ [⟨w.addr, va, 0⟩] ∧
        t.env.pageLastWsElement = t.env.pageWsList.head?.map (·.addr)) := by
    intro u hk hu
    obtain ⟨hgone, hentries, hlist⟩ := modifiedClockPlace_ok hk.ready hwva hva hal hu
    have hdir : u.env.envPageDirectory = s.env.envPageDirectory := hk.env.dir
    rw [hdir] at hgone hentries
    refine ⟨hgone, fun v hv h1 h2 => (hentries v hv h1 h2).trans (hk.entries v hv h1), fun ho => ?_⟩
    obtain ⟨hws, hhand⟩ := hlist ho
    have huws : u.env.pageWsList = rotated s.env.pageWsList w.addr := hk.env.ws
    exact ⟨p, q, hpq, by rw [hws, huws, hrot, hset], hhand⟩
  unfold modifiedClockFinish at hr
  obtain ⟨_, s₁, h1, hr⟩ := ok_of_bind hr
  cases h1
  obtain ⟨perms, u, h2, hr⟩ := ok_of_bind hr
  rw [ptGetPagePermissions_eq] at h2
  obtain rfl := (EStateM.Result.ok.inj h2).2
  dsimp only at hr
  split at hr
  · obtain ⟨_, u₁, h3, hr⟩ := ok_of_bind hr
    obtain ⟨_, u₂, h4, hr⟩ := ok_of_bind hr
    have hrule := keepRule (P := (· = w.virtualAddress / 4096))
    exact hend (KeepsOutside.trans (hrule.pfUpdateEnvPage ⟨hwva, rfl⟩ _ _ _ h3) (keeps_unmapKernel _ _ _ h4) hturned) hr
  · exact hend (KeepsOutside.refl _ hturned) hr

/-- On a full working set the trials clear the bits of some pages and end at the victim. -/
theorem modified_clock_run (hs : Ready s) (h : FullSet s) (va : Nat) :
    ∃ passed victim, ModifiedClockChoice (usedBit s) (modifiedBit s) (fromHand s.env) passed victim ∧
      (∀ x ∈ passed, x ∈ s.env.pageWsList) ∧ victim ∈ s.env.pageWsList ∧
      pageFaultHandler .modifiedClock va s = modifiedClockFinish (roundDown va pageSize) victim
        (passed.foldl clearUsed s) := by
  obtain ⟨a, b, hl, hcut⟩ := h.cut
  have hmem : ∀ x ∈ fromHand s.env, x ∈ s.env.pageWsList := fun x => h.mem_fromHand.1
  have hne : fromHand s.env ≠ [] := fun hnil => h.nonempty <| by
    rw [hcut] at hnil
    obtain ⟨rfl, rfl⟩ := List.append_eq_nil_iff.1 hnil
    exact hl
  obtain ⟨passed, w, hc, hv⟩ := modifiedClockVictim_eq (fun x hx => h.tables x (hmem x hx))
    (fun x hx => hs.ws x (hmem x hx)) (hcut ▸ h.ring_pages hl) hne
  refine ⟨passed, w, hc, fun x hx => hmem x (hc.mem.1 x hx), hmem w hc.mem.2, ?_⟩
  rw [(pageFaultHandler_full h va).2, modifiedClockReplacement_eq h, bind_of_ok hv]

/-- On a full working set the modified clock always ends, with the victim of its trials. It returns whenever the new
page can be placed and a modified victim can be written back. -/
theorem modified_clock_replaces {va : Nat} (hs : Ready s) (h : FullSet s) (hva : va < userTop) :
    ∃ passed victim, ModifiedClockChoice (usedBit s) (modifiedBit s) (fromHand s.env) passed victim ∧
      (∀ t, pageFaultHandler .modifiedClock va s ≠ .error .spins t) ∧
      (Placeable s (roundDown va pageSize) → CanLeave s victim →
        ∃ t, pageFaultHandler .modifiedClock va s = .ok .returns t) ∧
      ∀ o t, pageFaultHandler .modifiedClock va s = .ok o t → Evicted s t passed victim va ∧
        (o = .returns → Reordered s t victim va 0) := by
  obtain ⟨passed, w, hc, hin, hw, hrun⟩ := modified_clock_run hs h va
  have hpassed : ∀ x ∈ passed, x.virtualAddress < userTop := fun x hx => hs.ws x (hin x hx)
  have henv := foldl_clearUsed_env passed s
  refine ⟨passed, w, hc, fun t ht => ?_, fun hplace hleave => ?_, fun o t ht => ?_⟩
  · rw [hrun] at ht
    exact modifiedClockFinish_never _ w _ _ ht
  · have hl := leaves_foldl_clearUsed passed s
    have hwva := hs.ws w hw
    rw [hrun]
    exact modifiedClockFinish_returns hwva ((hl.hasTable _).trans (h.tables w hw)) (hleave.cleared hpassed hwva)
      (hplace.leaves hl) (roundDown_aligned va)
  · rw [hrun] at ht
    obtain ⟨hgone, hentries, hlist⟩ := modifiedClockFinish_ok (hs.foldl_clearUsed hpassed) (henv ▸ h.elements)
      (henv ▸ hw) (roundDown_lt hva) (roundDown_aligned va) ht
    rw [henv, roundDown_div] at hgone hentries
    refine ⟨⟨hgone, fun v hlt h1 h2 => ?_⟩, fun ho => ?_⟩
    · rw [hentries v hlt h1 h2, foldl_clearUsed_entry hpassed]
    · obtain ⟨p, q, hpq, hws, hhand⟩ := hlist ho
      rw [henv] at hpq
      have hd := h.elements
      rw [hpq] at hd
      exact ⟨⟨p, q, hpq, hws, hpq ▸ moveHeads_rotated hd⟩, hhand⟩

end ModifiedClock

/-- Neither page is clean, and the second one, which is not used, is written back. -/
theorem modified_clock_replaces_stack : ∃ passed victim t,
    ModifiedClockChoice (usedBit usedProcess) (modifiedBit usedProcess) (fromHand usedProcess.env) passed victim ∧
      pageFaultHandler .modifiedClock (stackPage 2) usedProcess = .ok .returns t ∧
      Evicted usedProcess t passed victim (stackPage 2) ∧ Reordered usedProcess t victim (stackPage 2) 0 := by
  have hva : stackPage 2 < userTop := by decide
  obtain ⟨passed, victim, hc, -, hreturns, hafter⟩ := modified_clock_replaces usedProcess_ready usedProcess_full hva
  have hvictim : victim ∈ usedProcess.env.pageWsList := usedProcess_full.mem_fromHand.1 hc.mem.2
  obtain ⟨t, ht⟩ := hreturns usedProcess_placeable (usedProcess_canLeave victim hvictim)
  obtain ⟨hev, hre⟩ := hafter .returns t ht
  exact ⟨passed, victim, t, hc, ht, hev, hre rfl⟩

end Fos.Fault
