/-
Extents `[start, start + len)` of a line of addresses: membership, disjointness, the stronger
`Apart` (one ends before the other starts), and packings: lists of pairwise apart nonempty extents
on a grid between two bounds, under the moves of an allocator (carve, give back, join).
-/
import Mathlib.Tactic

namespace Fos.Lib

/-- A half-open range of addresses. -/
structure Extent where
  start : Nat
  len : Nat
  deriving DecidableEq, Repr

namespace Extent

/-- The first address after the extent. -/
def fin (e : Extent) : Nat := e.start + e.len

/-- The addresses of the extent. -/
def Has (e : Extent) (x : Nat) : Prop := e.start ≤ x ∧ x < e.fin

/-- No address lies in both. -/
def Disjoint (a b : Extent) : Prop := ∀ x, ¬ (a.Has x ∧ b.Has x)

/-- One extent ends before the other starts. -/
def Apart (a b : Extent) : Prop := a.fin ≤ b.start ∨ b.fin ≤ a.start

instance (a b : Extent) : Decidable (a.Apart b) := inferInstanceAs (Decidable (_ ∨ _))

theorem Apart.symm {a b : Extent} (h : a.Apart b) : b.Apart a := Or.symm h

instance : Std.Symm Apart := ⟨fun _ _ => Apart.symm⟩

theorem Disjoint.symm {a b : Extent} (h : a.Disjoint b) : b.Disjoint a := fun x hx => h x hx.symm

theorem Apart.disjoint {a b : Extent} (h : a.Apart b) : a.Disjoint b := by
  rintro x ⟨⟨h1, h2⟩, h3, h4⟩
  rcases h with h | h <;> omega

/-- For nonempty extents the two notions agree. -/
theorem apart_of_disjoint {a b : Extent} (ha : 0 < a.len) (hb : 0 < b.len) (h : a.Disjoint b) :
    a.Apart b := by
  by_contra hn
  simp only [Apart, fin, not_or, not_le] at hn
  refine h (max a.start b.start) ⟨⟨le_max_left .., ?_⟩, le_max_right .., ?_⟩ <;>
    simp only [fin] <;> omega

/-- `e` lies between `lo` and `hi` on the grid `g`, and is nonempty. -/
structure Fits (lo hi g : Nat) (e : Extent) : Prop where
  lo : lo ≤ e.start
  hi : e.fin ≤ hi
  start : e.start % g = 0
  len : e.len % g = 0
  pos : 0 < e.len

/-- Pairwise apart nonempty extents on the grid `g` between `lo` and `hi`. -/
structure Packed (lo hi g : Nat) (L : List Extent) : Prop where
  apart : L.Pairwise Apart
  fits : ∀ e ∈ L, e.Fits lo hi g

/-- The extents left when the one that starts at `x` is given back. -/
def release (L : List Extent) (x : Nat) : List Extent := L.eraseP (·.start == x)

theorem release_perm {x : Nat} : ∀ {L : List Extent}, (∃ e ∈ L, e.start = x) →
    ∃ e, e.start = x ∧ L.Perm (e :: release L x)
  | [], h => by simp at h
  | d :: L, h => by
    by_cases hd : d.start = x
    · exact ⟨d, hd, by simp [release, hd]⟩
    · obtain ⟨c, hc, hx⟩ := h
      have hc : c ∈ L := (List.mem_cons.1 hc).resolve_left fun he => hd (he ▸ hx)
      obtain ⟨e, he, hp⟩ := release_perm ⟨c, hc, hx⟩
      refine ⟨e, he, ?_⟩
      have hrel : release (d :: L) x = d :: release L x := by simp [release, hd]
      rw [hrel]
      exact (hp.cons d).trans (.swap e d _)

section Packed

variable {lo hi g : Nat} {L M : List Extent} {e d : Extent}

theorem packed_nil : Packed lo hi g [] := ⟨.nil, by simp⟩

theorem packed_cons : Packed lo hi g (e :: L) ↔ (∀ d ∈ L, e.Apart d) ∧ e.Fits lo hi g ∧ Packed lo hi g L := by
  constructor
  · rintro ⟨h1, h2⟩
    rw [List.pairwise_cons] at h1
    exact ⟨h1.1, h2 e List.mem_cons_self, h1.2, fun d hd => h2 d (List.mem_cons_of_mem _ hd)⟩
  · rintro ⟨h1, h2, h3⟩
    exact ⟨List.pairwise_cons.2 ⟨h1, h3.apart⟩, by simpa using ⟨h2, h3.fits⟩⟩

theorem Packed.perm (h : Packed lo hi g L) (hp : L.Perm M) : Packed lo hi g M :=
  ⟨hp.pairwise_iff (fun hab => hab.symm) |>.1 h.apart, fun e he => h.fits e (hp.mem_iff.2 he)⟩

theorem Packed.sublist (h : Packed lo hi g L) (hs : M.Sublist L) : Packed lo hi g M :=
  ⟨h.apart.sublist hs, fun e he => h.fits e (hs.subset he)⟩

/-- Carving the first `n` addresses off an extent leaves a packing. -/
theorem Packed.carve {n : Nat} (h : Packed lo hi g (e :: L)) (hn : 0 < n) (hlt : n < e.len) (hg : n % g = 0) :
    Packed lo hi g (⟨e.start, n⟩ :: ⟨e.start + n, e.len - n⟩ :: L) := by
  obtain ⟨hap, hf, hL⟩ := packed_cons.1 h
  have h1 := hf.lo
  have h2 := hf.hi
  have hs := hf.start
  have hl := hf.len
  refine packed_cons.2 ⟨?_, ⟨h1, ?_, hs, hg, hn⟩, packed_cons.2 ⟨?_, ⟨?_, ?_, ?_, ?_, ?_⟩, hL⟩⟩
  · intro d hd
    rcases List.mem_cons.1 hd with rfl | hd
    · simp [Apart, fin]
    · have := hap d hd; simp only [Apart, fin] at *; omega
  · simp only [fin] at *; omega
  · intro d hd
    have := hap d hd; simp only [Apart, fin] at *; omega
  · simp only; omega
  · simp only [fin] at *; omega
  · simp only; rw [Nat.add_mod, hs, hg]; simp
  · simp only
    rw [← Nat.dvd_iff_mod_eq_zero] at *
    exact Nat.dvd_sub hl hg
  · simp only; omega

/-- Two adjacent extents as one leave a packing. -/
theorem Packed.join (h : Packed lo hi g (e :: d :: L)) (hed : e.fin = d.start) :
    Packed lo hi g (⟨e.start, e.len + d.len⟩ :: L) := by
  obtain ⟨h1, he, h⟩ := packed_cons.1 h
  obtain ⟨h2, hd, hL⟩ := packed_cons.1 h
  have e1 := he.lo
  have e2 := he.start
  have e3 := he.len
  have e4 := he.pos
  have d2 := hd.hi
  have d3 := hd.len
  refine packed_cons.2 ⟨fun c hc => ?_, ⟨e1, ?_, e2, ?_, ?_⟩, hL⟩
  · have := h1 c (List.mem_cons_of_mem _ hc)
    have := h2 c hc
    have := (hL.fits c hc).pos
    simp only [Apart, fin] at *; omega
  · simp only [fin] at *; omega
  · simp only; rw [Nat.add_mod, e3, d3]; simp
  · simp only; omega

end Packed

end Extent

end Fos.Lib
