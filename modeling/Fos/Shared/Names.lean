/-
The names of shared objects over whole runs: names of at most 63 bytes are unique for each owner, and an
object is found under the name it was created with. A longer name is stored cut, and never found again.
-/
import Fos.Shared.Calls
import Fos.Lib.Trace

namespace Fos.Shared

open Fos.Lib Fos.Memory Fos.Heap

/-! ## Strings -/

theorem strcmp_eq_zero : ∀ {a b : List UInt8} (x y : List UInt8), 0 ∉ a → 0 ∉ b →
    (strcmp (a ++ 0 :: x) (b ++ 0 :: y) = 0 ↔ a = b)
  | [], [], _, _, _, _ => by simp [strcmp]
  | [], q :: b, x, y, _, hb => by
    have hq : q ≠ 0 := fun h => hb (h ▸ List.mem_cons_self)
    have : q.toNat ≠ 0 := fun h => hq (UInt8.toNat_inj.1 h)
    simp [strcmp]
    omega
  | p :: a, [], x, y, ha, _ => by
    have hp : p ≠ 0 := fun h => ha (h ▸ List.mem_cons_self)
    have : p.toNat ≠ 0 := fun h => hp (UInt8.toNat_inj.1 h)
    simp [strcmp, this]
  | p :: a, q :: b, x, y, ha, hb => by
    have hp : p ≠ 0 := fun h => ha (h ▸ List.mem_cons_self)
    have ih := strcmp_eq_zero x y (fun h => ha (List.mem_cons_of_mem p h)) fun h => hb (List.mem_cons_of_mem q h)
    rw [List.cons_append, List.cons_append, strcmp]
    by_cases hpq : p = q
    · rw [if_pos ⟨hp, hpq⟩, ih, hpq]
      simp
    · have : p.toNat ≠ q.toNat := fun h => hpq (UInt8.toNat_inj.1 h)
      rw [if_neg fun h => hpq h.2]
      simp only [List.cons.injEq, hpq, false_and, iff_false]
      omega

theorem strncpy_nil : ∀ n, strncpy [0] n = List.replicate n 0
  | 0 => rfl
  | n + 1 => by
    rw [strncpy, List.replicate_succ]
    exact congrArg _ (strncpy_nil n)

/-- A name that fits is stored whole and padded. -/
theorem strncpy_chars : ∀ {a : List UInt8} {n : Nat}, 0 ∉ a → a.length ≤ n →
    strncpy (a ++ [0]) n = a ++ List.replicate (n - a.length) 0
  | [], n, _, _ => strncpy_nil n
  | p :: a, n + 1, ha, hn => by
    have hp : p ≠ 0 := fun h => ha (h ▸ List.mem_cons_self)
    rw [List.cons_append, strncpy, List.headD_cons, if_pos hp, List.tail_cons,
      strncpy_chars (fun h => ha (List.mem_cons_of_mem p h)) (Nat.le_of_succ_le_succ hn), List.length_cons,
      Nat.succ_sub_succ, List.cons_append]

/-- The array `name` holds the string. -/
def Holds (name : List UInt8) (s : CString) : Prop := ∃ rest, name = s.bytes ++ 0 :: rest

theorem holds_newShare {s : CString} (h : s.bytes.length ≤ 63) (addr framesStorage : Nat) (o : Int) (size w : Nat) :
    Holds (newShare addr framesStorage o s.chars size w).name s := by
  refine ⟨List.replicate (63 - s.bytes.length) 0, ?_⟩
  show strncpy (s.bytes ++ [0]) 63 ++ [0] = _
  rw [strncpy_chars s.noNul h, List.append_assoc, ← List.replicate_succ', List.replicate_succ]

theorem Holds.strcmp_iff {name : List UInt8} {s : CString} (h : Holds name s) (n : CString) :
    strcmp n.chars name = 0 ↔ n = s := by
  obtain ⟨rest, rfl⟩ := h
  rw [CString.chars, strcmp_eq_zero [] rest n.noNul s.noNul]
  obtain ⟨nb, hn⟩ := n
  obtain ⟨sb, hs⟩ := s
  rw [CString.mk.injEq]

theorem Holds.strcmp_self {name name' : List UInt8} {s s' : CString} (h : Holds name s) (h' : Holds name' s') :
    strcmp name name' = 0 ↔ s = s' := by
  obtain ⟨rest, rfl⟩ := h
  obtain ⟨rest', rfl⟩ := h'
  rw [strcmp_eq_zero rest rest' s.noNul s'.noNul]
  obtain ⟨nb, hn⟩ := s
  obtain ⟨sb, hs⟩ := s'
  rw [CString.mk.injEq]

/-! ## Runs -/

/-- A call by the environment with page directory `d`. -/
inductive ShareCall where
  | create (d : Nat) (ownerID : Int) (shareName : CString) (size isWritable virtualAddress : Nat)
  | get (d : Nat) (ownerID : Int) (shareName : CString) (virtualAddress : Nat)
  | delete (d : Nat) (sharedObjectID : Int) (startVA : Nat)

def ShareCall.code : ShareCall → SM Int
  | .create d ownerID shareName size isWritable virtualAddress =>
    createSharedObject d ownerID shareName.chars size isWritable virtualAddress
  | .get d ownerID shareName virtualAddress => getSharedObject d ownerID shareName.chars virtualAddress
  | .delete d sharedObjectID startVA => deleteSharedObject d sharedObjectID startVA

/-- The objects, and the owner, name and ID of each successful create whose object is not deleted. -/
structure ShareLog where
  shares : Shares
  created : List (Int × CString × Int)

namespace ShareLog

/-- A call that returned `r` and left `t`. -/
def after (w : ShareLog) (t : Shares) (r : Int) : ShareCall → ShareLog
  | .create _ ownerID shareName _ _ _ => ⟨t, if 0 ≤ r then (ownerID, shareName, r) :: w.created else w.created⟩
  | .get _ _ _ _ => ⟨t, w.created⟩
  | .delete _ _ _ => ⟨t, w.created.filter fun e => t.sharesList.any (·.ID = e.2.2)⟩

def Step (w : ShareLog) (c : ShareCall) (w' : ShareLog) : Prop :=
  ∃ r t, c.code w.shares = .ok r t ∧ w' = w.after t r c

/-- No two objects have the same owner and name, and `find_share` finds what was created and not deleted. -/
structure Named (w : ShareLog) : Prop where
  unique : w.shares.sharesList.Pairwise fun a b => ¬(a.ownerID = b.ownerID ∧ strcmp a.name b.name = 0)
  found : ∀ e ∈ w.created, ∃ shr ∈ w.shares.sharesList,
    findShare e.1 e.2.1.chars w.shares = .ok (some shr) w.shares ∧ shr.ID = e.2.2

/-- A create with the owner and name of an object is refused. -/
def Refuses (w : ShareLog) (c : ShareCall) : Prop :=
  ∀ d ownerID shareName size isWritable va, c = .create d ownerID shareName size isWritable va →
    (∃ ID, (ownerID, shareName, ID) ∈ w.created) → c.code w.shares = .ok eSharedMemExists w.shares

end ShareLog

/-- A create's name and its `NUL` fit the array. -/
def ShareCall.Fits : ShareCall → Prop
  | .create _ _ shareName _ _ _ => shareName.bytes.length ≤ 63
  | _ => True

/-! ## The invariant -/

/-- An object by owner and name. -/
def Share.Called (shr : Share) (o : Int) (n : CString) : Prop := shr.ownerID = o ∧ Holds shr.name n

/-- Every object has a name that fits, no two of one owner have the same, and every create that is
logged has its object. -/
structure NamesInv (w : ShareLog) : Prop where
  free : w.shares.shareslock = false
  named : ∀ shr ∈ w.shares.sharesList, ∃ n, Holds shr.name n
  unique : w.shares.sharesList.Pairwise fun a b => ∀ o n, ¬(a.Called o n ∧ b.Called o n)
  log : ∀ e ∈ w.created, ∃ shr ∈ w.shares.sharesList, shr.Called e.1 e.2.1 ∧ shr.ID = e.2.2

section Invariant

variable {s t : Shares} {w w' : ShareLog} {o r : Int} {n : CString} {shr : Share}

theorem lookup_some (h : s.lookup o n.chars = some shr) (hn : ∃ m, Holds shr.name m) : shr.Called o n := by
  obtain ⟨m, hm⟩ := hn
  have hp := List.find?_some h
  simp only [Bool.decide_and, Bool.and_eq_true, decide_eq_true_eq, hm.strcmp_iff] at hp
  exact ⟨hp.1, hp.2 ▸ hm⟩

theorem NamesInv.lookup_called (h : NamesInv w) (hmem : shr ∈ w.shares.sharesList) (hc : shr.Called o n) :
    w.shares.lookup o n.chars = some shr := by
  obtain ⟨found, hf⟩ : ∃ f, w.shares.lookup o n.chars = some f := by
    rw [← Option.isSome_iff_exists, Shares.lookup, List.find?_isSome]
    exact ⟨shr, hmem, by simp [hc.1, hc.2.strcmp_iff]⟩
  have hfmem := List.mem_of_find?_eq_some hf
  have hfc := lookup_some hf (h.named _ hfmem)
  -- two objects called the same are one object
  by_contra hne
  have hne : found ≠ shr := fun he => hne (by rw [hf, he])
  have : Std.Symm fun a b : Share => ∀ o n, ¬(a.Called o n ∧ b.Called o n) :=
    ⟨fun a b hab o n hc => hab o n hc.symm⟩
  exact h.unique.forall hfmem hmem hne o n ⟨hfc, hc⟩

theorem NamesInv.sound (h : NamesInv w) : w.Named := by
  constructor
  · refine h.unique.imp_of_mem fun {a b} ha hb hab hc => ?_
    obtain ⟨n, hn⟩ := h.named a ha
    obtain ⟨m, hm⟩ := h.named b hb
    obtain ⟨ho, he⟩ := hc
    rw [hn.strcmp_self hm] at he
    exact hab b.ownerID n ⟨⟨ho, hn⟩, rfl, he ▸ hm⟩
  · intro e he
    obtain ⟨shr, hmem, hc, hID⟩ := h.log e he
    refine ⟨shr, hmem, ?_, hID⟩
    rw [findShare_free h.free, h.lookup_called hmem hc]

theorem NamesInv.refuses (h : NamesInv w) (c : ShareCall) : w.Refuses c := by
  rintro d o n size wr va rfl ⟨ID, he⟩
  obtain ⟨shr, hmem, hc, -⟩ := h.log _ he
  show createSharedObject d o n.chars size wr va w.shares = _
  unfold createSharedObject
  rw [bind_of_ok (acquire_free h.free), bind_of_ok (findShare_held rfl), locked_lookup, h.lookup_called hmem hc,
    Option.isSome_some, if_pos rfl, bind_of_ok (release_held rfl), locked_unlocked h.free]
  rfl

theorem called_congr {a b : Share} (h : a.label = b.label) (o : Int) (n : CString) :
    (a.Called o n ↔ b.Called o n) ∧ a.ID = b.ID := by
  simp only [Share.label, Prod.mk.injEq] at h
  obtain ⟨-, hID, ho, hn⟩ := h
  unfold Share.Called
  rw [ho, hn]
  exact ⟨Iff.rfl, hID⟩

/-- The invariant only reads labels. -/
theorem NamesInv.same (h : NamesInv w) (hs : Same w.shares t) (created : List (Int × CString × Int))
    (hlog : ∀ e ∈ created, e ∈ w.created) : NamesInv ⟨t, created⟩ := by
  refine ⟨hs.lock.trans h.free, fun shr hm => ?_, ?_, fun e he => ?_⟩
  · obtain ⟨shr', hm', hl⟩ := hs.mem hm
    obtain ⟨n, hn⟩ := h.named shr' hm'
    exact ⟨n, ((called_congr hl shr'.ownerID n).1.1 ⟨rfl, hn⟩).2⟩
  · have hp : (w.shares.sharesList.map Share.label).Pairwise fun x y =>
        ∀ o n, ¬((x.2.2.1 = o ∧ Holds x.2.2.2 n) ∧ y.2.2.1 = o ∧ Holds y.2.2.2 n) :=
      List.pairwise_map.2 h.unique
    rw [← hs.labels] at hp
    exact List.pairwise_map.1 hp
  · obtain ⟨shr, hm, hc, hID⟩ := h.log e (hlog e he)
    obtain ⟨shr', hm', hl⟩ := hs.symm.mem hm
    obtain ⟨hcalled, hID'⟩ := called_congr hl e.1 e.2.1
    exact ⟨shr', hm', hcalled.2 hc, hID'.trans hID⟩

/-- A new object under a name that nothing is found under. -/
theorem NamesInv.insert (h : NamesInv w) {k : Kernel} (hl : w.shares.lookup o n.chars = none)
    (hc : shr.Called o n) : NamesInv ⟨{ w.shares with kernel := k }.insert shr, w.created⟩ := by
  refine ⟨h.free, fun a ha => ?_, List.pairwise_cons.2 ⟨fun b hb o' m hcall => ?_, h.unique⟩, fun e he => ?_⟩
  · rcases List.mem_cons.1 ha with rfl | ha
    · exact ⟨n, hc.2⟩
    · exact h.named a ha
  · -- the other object would have been found
    obtain ⟨⟨ho, hm⟩, ho', hm'⟩ := hcall
    have hmn : m = n := (hm.strcmp_self hc.2).1 ((hm.strcmp_self hm).2 rfl)
    rw [Shares.lookup, List.find?_eq_none] at hl
    apply hl b hb
    simp [ho', ← ho, hc.1, hm'.strcmp_iff, hmn]
  · obtain ⟨a, ha, hca⟩ := h.log e he
    exact ⟨a, List.mem_cons_of_mem shr ha, hca⟩

theorem NamesInv.enter (h : NamesInv w) (hmem : shr ∈ w.shares.sharesList) (hc : shr.Called o n) :
    NamesInv ⟨w.shares, (o, n, shr.ID) :: w.created⟩ := by
  refine ⟨h.free, h.named, h.unique, fun e he => ?_⟩
  rcases List.mem_cons.1 he with rfl | he
  · exact ⟨shr, hmem, hc, rfl⟩
  · exact h.log e he

theorem NamesInv.create {d size wr va : Nat} (h : NamesInv w) (hn : n.bytes.length ≤ 63)
    (hc : createSharedObject d o n.chars size wr va w.shares = .ok r t) :
    NamesInv (w.after t r (.create d o n size wr va)) := by
  simp only [ShareLog.after]
  have hcalled : ∀ {shr : Share} {k : Kernel}, allocShare o n.chars size wr w.shares.locked =
      .ok (some shr) { w.shares.locked with kernel := k } →
      shr.Called o n ∧ 0 ≤ shr.ID := by
    intro shr k ha
    obtain ⟨_, fs, -, -, -, -, he⟩ := (allocShare_ok ha).2 shr rfl
    rw [he]
    exact ⟨⟨rfl, holds_newShare hn _ _ _ _ _⟩, by simp [newShare]; omega⟩
  cases (create_ok hc).2 with
  | found hl => exact h
  | noMemory hl ha => exact h.same (Same.kernel _ _) _ fun e he => he
  | misaligned hl ha hva => exact h.insert hl (hcalled ha).1
  | @mapped k shr u hl ha hva hp =>
    obtain ⟨hcall, hID⟩ := hcalled ha
    have hins : NamesInv ⟨{ w.shares with kernel := k }.insert shr, w.created⟩ := h.insert hl hcall
    have hnew := hins.enter List.mem_cons_self hcall
    rw [if_pos hID]
    have hlabels := (createPages_same hp).labels
    exact hnew.same (t := u.unlocked) ⟨hlabels, h.free.symm⟩ _ fun e he => he

theorem NamesInv.step (w : ShareLog) (c : ShareCall) (w' : ShareLog) (h : NamesInv w) (hfit : c.Fits)
    (hs : ShareLog.Step w c w') : w.Refuses c ∧ NamesInv w' := by
  refine ⟨h.refuses c, ?_⟩
  obtain ⟨r, t, hc, rfl⟩ := hs
  cases c with
  | create d o n size wr va => exact h.create hfit hc
  | get d o n va =>
    rcases (get_ok hc).2 with ⟨-, -, rfl⟩ | ⟨shr, k, -, -, -, rfl⟩
    · exact h
    · exact h.same (Same.count k shr.addr (add32 · 1)) _ fun e he => he
  | delete d ID va =>
    have hlog : ∀ e ∈ w.created.filter fun e => t.sharesList.any (·.ID = e.2.2), e ∈ w.created :=
      fun e he => (List.mem_filter.1 he).1
    rcases (delete_ok hc).2 with ⟨-, -, rfl⟩ | ⟨shr, k, -, -, -, -, rfl⟩
    · exact h.same (Same.refl _) _ hlog
    · exact h.same (Same.count k shr.addr (sub32 · 1)) _ hlog

end Invariant

/-- From `sharing_init` on, in every run whose creates pass names of at most 63 bytes: no two objects
have the same owner and name, each created object is found until it is deleted, and a second create of
its name is refused. -/
theorem shared_names (k : Kernel) (cs : List ShareCall) (h : ∀ c ∈ cs, c.Fits) :
    Always ShareLog.Step ShareLog.Named ⟨sharingInit k, []⟩ cs ∧
      Each ShareLog.Step ShareLog.Refuses ⟨sharingInit k, []⟩ cs :=
  Each.always_each (fun _ hI => hI.sound) NamesInv.step
    ⟨rfl, by simp [sharingInit], by simp [sharingInit], by simp⟩ (Each.of_forall fun _ => h)

/-- A name of one byte. -/
def shortName : CString := ⟨[97], by decide⟩

/-- A name of 64 bytes. -/
def longName : CString := ⟨List.replicate 64 97, by decide⟩

def createTwice : List ShareCall := [.create 1 7 longName 1 1 0x80000000, .create 1 7 longName 1 1 0x80001000]

/-- The environment `7` creates an object, and again under the same name; the environment `8`, whose directory is `2`,
gets the object and gives it back. -/
def sharedByTwo (ID : Int) : List ShareCall :=
  [.create 1 7 shortName 1 1 0x80000000, .create 1 7 shortName 1 1 0x80001000, .get 2 7 shortName 0x80000000,
    .delete 2 ID 0x80000000]

/-- What calls that all return answer. -/
def answers : List ShareCall → Shares → Option (List Int)
  | [], _ => some []
  | c :: cs, s =>
    match c.code s with
    | .ok r t => (answers cs t).map (r :: ·)
    | .error _ _ => none

theorem shared_names_two : ∃ k ID, kheapInit (unusedKernel machine) = .ok k ∧
    answers (sharedByTwo ID) (sharingInit k) = some [ID, eSharedMemExists, ID, 0] ∧
    Always ShareLog.Step ShareLog.Named ⟨sharingInit k, []⟩ (sharedByTwo ID) ∧
    Each ShareLog.Step ShareLog.Refuses ⟨sharingInit k, []⟩ (sharedByTwo ID) := by
  refine ⟨_, 1979711488, rfl, by decide +kernel, shared_names _ _ fun c hc => ?_⟩
  have hname : shortName.bytes.length ≤ 63 := by decide
  simp only [sharedByTwo, List.mem_cons, List.not_mem_nil, or_false] at hc
  rcases hc with rfl | rfl | rfl | rfl
  · exact hname
  · exact hname
  · exact trivial
  · exact trivial

/-- Both creates of one long name succeed. -/
def bothSucceed (s : Shares) : Bool :=
  match (ShareCall.create 1 7 longName 1 1 0x80000000).code s with
  | .ok r t => 0 ≤ r && match (ShareCall.create 1 7 longName 1 1 0x80001000).code t with
    | .ok r' _ => 0 ≤ r'
    | .error _ _ => false
  | .error _ _ => false

theorem shared_name_twice : ∃ k, kheapInit (unusedKernel machine) = .ok k ∧
    ¬(Always ShareLog.Step ShareLog.Named ⟨sharingInit k, []⟩ createTwice ∧
      Each ShareLog.Step ShareLog.Refuses ⟨sharingInit k, []⟩ createTwice) := by
  obtain ⟨k, hk, hboth⟩ : ∃ k, kheapInit (unusedKernel machine) = .ok k ∧ bothSucceed (sharingInit k) = true :=
    ⟨_, rfl, by decide +kernel⟩
  refine ⟨k, hk, ?_⟩
  rintro ⟨-, hH⟩
  unfold bothSucceed at hboth
  split at hboth
  · rename_i r t h1
    simp only [Bool.and_eq_true, decide_eq_true_eq] at hboth
    obtain ⟨hr, hboth⟩ := hboth
    split at hboth
    · rename_i r' t' h2
      have hs : ShareLog.Step ⟨sharingInit k, []⟩ (.create 1 7 longName 1 1 0x80000000) ⟨t, [(7, longName, r)]⟩ :=
        ⟨r, t, h1, by simp [ShareLog.after, hr]⟩
      have hs' : ShareLog.Step ⟨t, [(7, longName, r)]⟩ (.create 1 7 longName 1 1 0x80001000) _ := ⟨r', t', h2, rfl⟩
      -- the second create is not refused
      have href := ((hH _ hs).2 _ hs').1 1 7 longName 1 1 0x80001000 rfl ⟨r, List.mem_cons_self⟩
      change (ShareCall.create 1 7 longName 1 1 0x80001000).code t = _ at href
      rw [h2] at href
      cases href
      exact absurd hboth (by decide)
    · cases hboth
  · cases hboth

end Fos.Shared
