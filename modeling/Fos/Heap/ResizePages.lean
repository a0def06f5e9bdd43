/-
When `krealloc` keeps its promise for a range of pages. Going on into the free pages after the range it
returns an address past the new pages; starting before the range it reads the pages after it as well; and
free pages on both sides do not make it move the contents.
-/
import Fos.Heap.ResizeBlocks

namespace Fos.Heap

open Fos.Memory Fos.Lib Fos.Lib.Extent DynAlloc

/-! ## Free pages on either side -/

section Counts

variable {m : Mem}

theorem nextFreePages_spec (hK : KPages m) : ∀ (fuel q : Nat), 1007616 ≤ q → q ≤ 1048575 → 1048575 - q ≤ fuel →
    q + nextFreePages m fuel (q * 4096) ≤ 1048575 ∧
    (∀ v, q ≤ v → v < q + nextFreePages m fuel (q * 4096) → ¬ HoldsPage m v) ∧
    (q + nextFreePages m fuel (q * 4096) = 1048575 ∨ HoldsPage m (q + nextFreePages m fuel (q * 4096)))
  | 0, q, _, h2, h3 => by
    rw [nextFreePages]
    exact ⟨h2, fun v _ _ => by omega, .inl (by omega)⟩
  | fuel + 1, q, h1, h2, h3 => by
    unfold nextFreePages
    by_cases hq : q = 1048575
    · rw [if_neg (by simp only [kernelHeapMax]; omega)]
      exact ⟨h2, fun v _ _ => by omega, .inl hq⟩
    · have hv : HeapPage q := ⟨h1, by omega⟩
      rw [if_pos (by simp only [kernelHeapMax]; omega), hK.getFrameInfo hv]
      cases hf : (m.pte (0, q)).held with
      | some f =>
        simp only [Nat.add_zero]
        refine ⟨h2, fun v _ _ => by omega, .inr ?_⟩
        rw [HoldsPage, hf]
        exact Option.some_ne_none f
      | none =>
        obtain ⟨h4, h5, h6⟩ := nextFreePages_spec hK fuel (q + 1) (by omega) (by omega) (by omega)
        simp only [add_page hv.2]
        rw [show q + (nextFreePages m fuel ((q + 1) * 4096) + 1) = q + 1 +
          nextFreePages m fuel ((q + 1) * 4096) by omega]
        refine ⟨h4, fun v hv1 hv2 => ?_, h6⟩
        rcases Nat.eq_or_lt_of_le hv1 with rfl | hlt
        · rw [HoldsPage, hf]
          exact fun hh => hh rfl
        · exact h5 v hlt hv2

theorem prevFreePages_spec (hK : KPages m) {lo : Nat} (hlo : 1007616 ≤ lo) : ∀ (fuel q : Nat), lo ≤ q → q ≤ 1048575 →
    q - lo ≤ fuel → lo + prevFreePages m (lo * 4096) fuel (sub32 (q * 4096) pageSize) ≤ q ∧
    ∀ v, q - prevFreePages m (lo * 4096) fuel (sub32 (q * 4096) pageSize) ≤ v → v < q → ¬ HoldsPage m v
  | 0, q, h1, _, _ => by
    rw [prevFreePages]
    exact ⟨h1, fun v _ _ => by omega⟩
  | fuel + 1, q, h1, h2, h3 => by
    have hsub : sub32 (q * 4096) pageSize = (q - 1) * 4096 := by
      simp only [pageSize]
      rw [sub32_of_le (by omega) (by omega)]
      omega
    unfold prevFreePages
    rw [hsub]
    by_cases hq : q = lo
    · rw [if_neg (by omega)]
      exact ⟨h1, fun v _ _ => by omega⟩
    · have hv : HeapPage (q - 1) := ⟨by omega, by omega⟩
      rw [if_pos (by omega), hK.getFrameInfo hv]
      cases hf : (m.pte (0, q - 1)).held with
      | some f =>
        simp only [Nat.sub_zero, Nat.add_zero]
        exact ⟨h1, fun v _ _ => by omega⟩
      | none =>
        obtain ⟨h4, h5⟩ := prevFreePages_spec hK hlo fuel (q - 1) (by omega) (by omega) (by omega)
        simp only
        refine ⟨by omega, fun v hv1 hv2 => ?_⟩
        rcases Nat.lt_or_ge v (q - 1) with hlt | hge
        · exact h5 v (by omega) hlt
        · obtain rfl : v = q - 1 := by omega
          rw [HoldsPage, hf]
          exact fun hh => hh rfl

end Counts

/-! ## Memory with more pages -/

/-- `m` with frames for the pages of `T`. -/
structure Grown (m : Mem) (T : Nat → Prop) (m' : Mem) : Prop where
  pages : KPages m'
  present : AllPresent m'
  last : m'.pte (0, 1048575) = {}
  held : ∀ v, T v → HoldsPage m' v
  same : ∀ v, ¬ T v → m'.pte (0, v) = m.pte (0, v)

section Grown

variable {T T' : Nat → Prop} {m m₁ m' : Mem} {ram : Nat → Nat → UInt8} {v x : Nat}

theorem Grown.refl (hK : KPages m) (hp : AllPresent m) (hlast : m.pte (0, 1048575) = {}) : Grown m (fun _ => False) m :=
  ⟨hK, hp, hlast, fun _ hv => hv.elim, fun _ _ => rfl⟩

theorem Grown.trans (h : Grown m T m₁) (h' : Grown m₁ T' m') : Grown m (fun v => T v ∨ T' v) m' := by
  refine ⟨h'.pages, h'.present, h'.last, fun v hv => ?_, fun v hv => ?_⟩
  · by_cases hv' : T' v
    · exact h'.held v hv'
    · rw [HoldsPage, h'.same v hv']
      exact h.held v (hv.resolve_right hv')
  · rw [h'.same v fun hc => hv (.inr hc), h.same v fun hc => hv (.inl hc)]

theorem Grown.holds_iff (h : Grown m T m') (hv : ¬ T v) : HoldsPage m' v ↔ HoldsPage m v := by
  rw [HoldsPage, HoldsPage, h.same v hv]

theorem Grown.load (h : Grown m T m') (hK : KPages m) (hx : HeapPage (x / 4096)) (hout : ¬ T (x / 4096)) :
    KernelRam.load ⟨m', ram⟩ x = KernelRam.load ⟨m, ram⟩ x := load_same hK h.pages hx (h.same _ hout)

/-- Recording a size changes no entry. -/
theorem Grown.withSize (h : Grown m T m') (va size : Nat) : Grown m T (Mem.withSize m' va size) := by
  have hp := (withSize_same m' va size).1
  refine ⟨h.pages.withSize, ?_, by rw [hp]; exact h.last, fun v hv => ?_, fun v hv => by rw [hp]; exact h.same v hv⟩
  · unfold AllPresent HoldsPage
    rw [hp]
    exact h.present
  · rw [HoldsPage, hp]
    exact h.held v hv

/-- A byte is that of the frame its page holds. -/
theorem load_page (hK : KPages m) (hp : AllPresent m) (hv : HeapPage v) {f : Nat} (hf : (m.pte (0, v)).held = some f) :
    KernelRam.load ⟨m, ram⟩ (v * 4096) = ram f 0 := by
  have hdiv : v * 4096 / 4096 = v := Nat.mul_div_cancel _ (by decide)
  have hpres := hp v hv (by rw [HoldsPage, hf]; exact Option.some_ne_none f)
  rw [KernelRam.load, frameAt_heap hK (by rw [hdiv]; exact hv), hdiv, if_pos hpres, held_frame hf, Nat.mul_mod_left]

theorem inHeap_page : InHeap m (v * 4096) ↔ HeapPage v ∧ HoldsPage m v := by
  rw [InHeap, Nat.mul_div_cancel _ (show 0 < 4096 by decide)]

/-- Mapping free pages. -/
theorem mapPages_grown {s : Kernel} {p d : Nat} (hK : KPages s.mem) (hp : AllPresent s.mem)
    (hlast : s.mem.pte (0, 1048575) = {})
    (hlo : 1007616 ≤ p) (hhi : p + d ≤ 1048575) (hfree : ∀ v, p ≤ v → v < p + d → ¬ HoldsPage s.mem v) :
    (∃ m, mapPages (p * 4096) d s = .ok () { s with mem := m } ∧ Grown s.mem (fun v => p ≤ v ∧ v < p + d) m ∧
      d ≤ s.mem.freeFrameList.length) ∨
    s.mem.freeFrameList.length < d ∧ ∃ e t, mapPages (p * 4096) d s = .error e t := by
  have hpages : ∀ i < d, HeapPage (p + i) := fun i hi => ⟨by omega, by omega⟩
  rcases mapPages_spec d p s hK hpages (fun w h1 h2 hh => absurd hh (hfree w h1 h2)) with ⟨m, hrun, hM⟩ |
    ⟨hlt, e, m, hrun⟩
  · have hE := hM.evolves hpages
    have hframes := hM.frames hfree
    refine .inl ⟨m, hrun, ⟨hM.pages, hE.allPresent hp, (hE.outside _ fun hc => absurd hc.2.2 (by decide)).trans hlast,
      fun v hv => (hM.held v hv.1 hv.2).1, fun v hv => hM.same (0, v) fun hc => hv hc.2⟩, by omega⟩
  · exact .inr ⟨hlt, e, _, hrun⟩

end Grown

/-! ## The loop that maps the new pages -/

section Loop

variable {v o : Nat}

/-- Where the range itself is not met, the loop is the one of `kmalloc`. -/
theorem growPages_eq : ∀ (n p : Nat), (∀ i < n, (p + i) * 4096 ≠ v) → p + n ≤ 1048575 →
    growPages v o n (p * 4096) = (do mapPages (p * 4096) n; return (p + n) * 4096 : KM Nat)
  | 0, p, _, _ => by
    rw [growPages, mapPages, pure_bind, Nat.add_zero]
  | n + 1, p, hne, hle => by
    have hp : ¬ p * 4096 = v := by
      have := hne 0 (Nat.succ_pos n)
      rwa [Nat.add_zero] at this
    have hrest := growPages_eq n (p + 1) (fun i hi => by
      rw [show p + 1 + i = p + (i + 1) by omega]
      exact hne (i + 1) (by omega)) (by omega)
    rw [growPages, mapPages]
    simp only [if_neg hp, bind_assoc, add_page (show p < 1048575 by omega), hrest,
      show p + 1 + n = p + (n + 1) by omega]

theorem growPages_add : ∀ (i n start : Nat),
    growPages v o (i + n) start = growPages v o i start >>= growPages v o n
  | 0, n, start => by rw [Nat.zero_add, growPages, pure_bind]
  | i + 1, n, start => by
    rw [show i + 1 + n = i + n + 1 by omega, growPages, growPages]
    simp only [bind_assoc, growPages_add i n]

/-- At the range itself the loop passes to its end. -/
theorem growPages_at (n : Nat) (hne : add32 v o ≠ v) :
    growPages v o (n + 1) v = growPages v o (n + 1) (add32 v o) := by
  rw [growPages, growPages]
  simp only [if_true, if_neg hne]

/-- The loop over free pages. -/
theorem growPages_grown {s : Kernel} {p d : Nat} (hK : KPages s.mem) (hp : AllPresent s.mem)
    (hlast : s.mem.pte (0, 1048575) = {})
    (hlo : 1007616 ≤ p) (hhi : p + d ≤ 1048575) (hfree : ∀ w, p ≤ w → w < p + d → ¬ HoldsPage s.mem w)
    (hne : ∀ i < d, (p + i) * 4096 ≠ v) :
    (∃ m, growPages v o d (p * 4096) s = .ok ((p + d) * 4096) { s with mem := m } ∧
      Grown s.mem (fun w => p ≤ w ∧ w < p + d) m ∧ d ≤ s.mem.freeFrameList.length) ∨
    s.mem.freeFrameList.length < d ∧ ∃ e t, growPages v o d (p * 4096) s = .error e t := by
  rw [growPages_eq d p hne hhi]
  rcases mapPages_grown hK hp hlast hlo hhi hfree with ⟨m, hrun, hG, hframes⟩ | ⟨hno, e, t, hrun⟩
  · exact .inl ⟨m, bind_of_ok hrun, hG, hframes⟩
  · exact .inr ⟨hno, e, t, bind_of_error hrun⟩

end Loop

/-! ## When there is room -/

def Kernel.nextFree (s : Kernel) (e : Extent) : Nat :=
  nextFreePages s.mem (kernelHeapMax / pageSize) (add32 e.start e.len)

def Kernel.prevFree (s : Kernel) (e : Extent) : Nat :=
  prevFreePages s.mem s.kheapPageAllocStart (kernelHeapMax / pageSize) (sub32 e.start pageSize)

/-- When `krealloc` of a range keeps its promise: the range is large enough; or exactly the pages missing are free
before it, with as many pages in use after it; or the free pages around it are too few and `kmalloc` has room. -/
def Kernel.PagesResize (s : Kernel) (e : Extent) (newSize : Nat) : Prop :=
  pagesOf newSize ≤ e.len / pageSize ∨
  s.nextFree e < pagesOf newSize - e.len / pageSize ∧
    (s.prevFree e = pagesOf newSize - e.len / pageSize ∧ s.prevFree e ≤ s.mem.freeFrameList.length ∧
        (∀ i < s.prevFree e, InHeap s.mem (e.fin + i * pageSize)) ∨
      s.prevFree e + s.nextFree e < pagesOf newSize - e.len / pageSize ∧ s.HasPages (pagesOf newSize))

section Ranges

variable {h : HeapUse} {b a n k newSize : Nat}

/-- The free pages around a range in use. -/
theorem HeapUse.Inv.counts (hI : h.Inv ∅ b) (he : ⟨a * 4096, n * 4096⟩ ∈ h.live) {next prev : Nat}
    (hnext : h.kernel.nextFree ⟨a * 4096, n * 4096⟩ = next) (hprev : h.kernel.prevFree ⟨a * 4096, n * 4096⟩ = prev) :
    (a + n + next ≤ 1048575 ∧ (∀ v, a + n ≤ v → v < a + n + next → ¬ HoldsPage h.kernel.mem v) ∧
      (a + n + next = 1048575 ∨ HoldsPage h.kernel.mem (a + n + next))) ∧
    1015809 + prev ≤ a ∧ ∀ v, a - prev ≤ v → v < a → ¬ HoldsPage h.kernel.mem v := by
  obtain ⟨p, q, hpq, hn, hlo, hhi, -⟩ := hI.first he
  rw [Extent.mk.injEq] at hpq
  obtain rfl : a = p := by omega
  obtain rfl : n = q := by omega
  have hhigh := hI.heap.high
  have hst : h.kernel.kheapPageAllocStart = 1015809 * 4096 := hI.heap.start
  have hend : add32 (a * 4096) (n * 4096) = (a + n) * 4096 := by
    rw [add32_of_lt (by omega)]
    omega
  have hfuel : kernelHeapMax / pageSize = 1048575 := by decide
  simp only [Kernel.nextFree, hend, hfuel] at hnext
  simp only [Kernel.prevFree, hst, hfuel] at hprev
  have h1 := nextFreePages_spec hI.heap.pages 1048575 (a + n) (by omega) (by omega) (by omega)
  have h2 := prevFreePages_spec hI.heap.pages (show 1007616 ≤ 1015809 by decide) 1048575 a hlo (by omega) (by omega)
  rw [hnext] at h1
  rw [hprev] at h2
  exact ⟨h1, h2⟩

theorem growStart_eq {next prev : Nat} (hk : n < k) (hk' : k < 1048576) (ha : a + n ≤ 1048575) (hprev : prev ≤ a) :
    growStart (a * 4096) (n * 4096) (k * 4096) next prev =
      if k - n ≤ next then some ((a + n) * 4096)
      else if k - n ≤ prev then some ((a - (k - n)) * 4096)
      else if k - n ≤ prev + next then some ((a - prev) * 4096)
      else none := by
  have h1 : sub32 (k * 4096) (n * 4096) = (k - n) * 4096 := by
    rw [sub32_of_le (by omega) (by omega)]
    omega
  have h2 : (k - n) * 4096 / pageSize = k - n := Nat.mul_div_cancel _ (by decide)
  have h3 : add32 (a * 4096) (n * 4096) = (a + n) * 4096 := by
    rw [add32_of_lt (by omega)]
    omega
  have h4 : ∀ i ≤ a, sub32 (a * 4096) (i * 4096) = (a - i) * 4096 := by
    intro i hi
    rw [sub32_of_le (by omega) (by omega)]
    omega
  have h5 : ∀ i < 1048576, mul32 i pageSize = i * 4096 := fun i hi => mul32_of_lt (by simp only [pageSize]; omega)
  simp only [growStart, h1, h2, h3]
  split
  · rfl
  · split
    · rename_i he
      rw [if_pos (by omega), h4 _ (by omega)]
    · split
      · rw [h5 _ (by omega), h4 _ (by omega)]
      · split
        · rw [h5 _ (by omega), h4 _ hprev]
        · rfl

/-- Bytes from pages that were free or belong to the range meet no other allocation. -/
theorem HeapUse.Inv.besidePages_apart (hI : h.Inv ∅ b) {e : Extent} (he : e ∈ h.live) {p d : Nat} (hlo : 1015809 ≤ p)
    (hpages : ∀ v, p ≤ v → v < p + d → ¬ HoldsPage h.kernel.mem v ∨ e.Has (v * 4096)) (hle : newSize ≤ d * 4096) :
    ∀ x ∈ h.besidePages e, (Extent.mk (p * 4096) newSize).Disjoint x := by
  have hhigh := hI.heap.high
  rintro x hx y ⟨⟨h1, h2⟩, h3⟩
  simp only [fin] at h1 h2
  rcases List.mem_append.1 hx with hx | hx
  · obtain ⟨c, hc, rfl⟩ := List.mem_map.1 hx
    obtain ⟨i, hB, -, -, hi⟩ := hI.block hc
    rw [(hI.blockSize (c := c) hB).2] at h3
    have h4 := h3.2
    simp only [fin] at h4
    omega
  · have hmem : x ∈ h.live := List.mem_of_mem_erase hx
    have hpage := (has_page (hI.heap.packed.fits x hmem)).1 h3
    obtain ⟨q, j, rfl, hj, hq, hqj, hheld⟩ := hI.first hmem
    obtain ⟨h4, h5⟩ := has_pages.1 hpage
    rcases hpages (y / 4096) (by omega) (by omega) with hnot | hin
    · exact hnot (hheld _ h4 h5)
    · exact ((packed_cons.1 (hI.heap.packed.perm (List.perm_cons_erase he))).1 _ hx).disjoint _ ⟨hin, hpage⟩

end Ranges

/-! ## Parts of `krealloc` -/

section Parts

variable {s : Kernel} {m m' : Mem} {T : Nat → Prop} {r r' : Nat → Nat → UInt8} {va old size next f g start n : Nat}

theorem onHeap_ok {α : Type} {x : KM α} {a : α} {t : Kernel} (h : x s = .ok a t) : onHeap x ⟨s, r⟩ = .ok a ⟨t, r⟩ := by
  simp only [onHeap, h]

theorem onHeap_error {α : Type} {x : KM α} {e : Halt} {t : Kernel} (h : x s = .error e t) :
    onHeap x ⟨s, r⟩ = .error e ⟨t, r⟩ := by
  simp only [onHeap, h]

theorem getFrameInfo_withSize (m : Mem) (va size x : Nat) :
    (Mem.withSize m va size).getFrameInfo 0 x = m.getFrameInfo 0 x := by
  obtain ⟨hp, ht, -⟩ := withSize_same m va size
  simp only [Mem.getFrameInfo, hp, ht]

theorem writeFrameSize_eq (hf : s.mem.getFrameInfo 0 va = some f) (size : Nat) :
    writeFrameSize f size s = .ok () { s with mem := Mem.withSize s.mem va size } := by
  simp only [Mem.withSize, hf]
  rfl

theorem writePageSize_eq (hf : s.mem.getFrameInfo 0 va = some f) (size : Nat) :
    writePageSize va size s = .ok () { s with mem := Mem.withSize s.mem va size } := by
  simp only [writePageSize, hf, writeFrameSize_eq hf size]

/-- The sizes are recorded, and all `size` bytes are copied. -/
theorem recordGrown_eq (hG : Grown m T m') (hf : m'.getFrameInfo 0 va = some f) (hg : m'.getFrameInfo 0 start = some g)
    (hne : next ≠ sub32 size old / pageSize) (prev : Nat) : ∃ m₂, Grown m T m₂ ∧ (∀ v, m₂.pte (0, v) = m'.pte (0, v)) ∧
      recordGrown va old size next prev f start ⟨{ s with mem := m' }, r⟩ = (if prev = sub32 size old / pageSize then do
          memcpy (sub32 va (sub32 size old)) va size
          return sub32 va (sub32 size old)
        else do
          memcpy start va size
          return sub32 va (mul32 prev pageSize) : RM Nat) ⟨{ s with mem := m₂ }, r⟩ := by
  refine ⟨Mem.withSize (Mem.withSize m' va 0) start size, (hG.withSize va 0).withSize start size, fun v => ?_, ?_⟩
  · rw [(withSize_same _ _ _).1, (withSize_same _ _ _).1]
  have hg' : (Mem.withSize m' va 0).getFrameInfo 0 start = some g := by rw [getFrameInfo_withSize, hg]
  have h1 := onHeap_ok (r := r) (writeFrameSize_eq (s := { s with mem := m' }) hf 0)
  have h2 := onHeap_ok (r := r) (writePageSize_eq (s := { s with mem := Mem.withSize m' va 0 }) hg' size)
  simp only [recordGrown, if_neg hne]
  split
  · rw [bind_of_ok h1, bind_of_ok h2]
  · rw [bind_of_ok h1, bind_of_ok h2]

/-- Bytes moved onto themselves. -/
theorem Moved.self (h : Moved m r r' va va n) {x : Nat} (hx : InHeap m x) :
    KernelRam.load ⟨m, r'⟩ x = KernelRam.load ⟨m, r⟩ x := by
  rw [h x hx]
  split
  · rw [Nat.add_sub_cancel' (by omega)]
  · rfl

end Parts

/-! ## The cases -/

section Cases

variable {h : HeapUse} {b a n k f next prev newSize : Nat} (hI : h.Inv ∅ b) (he : ⟨a * 4096, n * 4096⟩ ∈ h.live)
  (hlt : n < k) (hk : k < 1048576)
  (hnext : h.kernel.nextFree ⟨a * 4096, n * 4096⟩ = next) (hprev : h.kernel.prevFree ⟨a * 4096, n * 4096⟩ = prev)
  (hpos : 0 < newSize) (ram : Nat → Nat → UInt8)
include hI he hlt hk hnext hprev

theorem expandPages_eq : 0 < n ∧ 1015809 ≤ a ∧ a + n < 1048575 ∧ (∀ v, a ≤ v → v < a + n → HoldsPage h.kernel.mem v) ∧
    expandPages h.kernel (a * 4096) (n * 4096) (k * 4096) f = expandAt (a * 4096) (n * 4096) (k * 4096) next prev f
      (if k - n ≤ next then some ((a + n) * 4096)
      else if k - n ≤ prev then some ((a - (k - n)) * 4096)
      else if k - n ≤ prev + next then some ((a - prev) * 4096)
      else none) := by
  obtain ⟨-, hprev', -⟩ := hI.counts he hnext hprev
  obtain ⟨p, q, hpq, hn, hlo, hhi, hheld⟩ := hI.first he
  rw [Extent.mk.injEq] at hpq
  obtain rfl : a = p := by omega
  obtain rfl : n = q := by omega
  have hhigh := hI.heap.high
  refine ⟨hn, hlo, by omega, hheld, ?_⟩
  rw [← growStart_eq hlt hk (by omega) (by omega), ← hnext, ← hprev]
  rfl

/-- The arithmetic of a request for `k` pages. -/
theorem needed_eq : sub32 (k * 4096) (n * 4096) = (k - n) * 4096 ∧ sub32 (k * 4096) (n * 4096) / pageSize = k - n ∧
    add32 (a * 4096) (n * 4096) = (a + n) * 4096 ∧ (∀ i ≤ a, sub32 (a * 4096) (i * 4096) = (a - i) * 4096) ∧
    mul32 prev pageSize = prev * 4096 := by
  obtain ⟨-, hlo, hhi, -⟩ := expandPages_eq (f := 0) hI he hlt hk hnext hprev
  obtain ⟨-, hp, -⟩ := hI.counts he hnext hprev
  have h1 : sub32 (k * 4096) (n * 4096) = (k - n) * 4096 := by
    rw [sub32_of_le (by omega) (by omega)]
    omega
  refine ⟨h1, ?_, ?_, fun i hi => ?_, ?_⟩
  · rw [h1]
    exact Nat.mul_div_cancel _ (by decide)
  · rw [add32_of_lt (by omega)]
    omega
  · rw [sub32_of_le (by omega) (by omega)]
    omega
  · exact mul32_of_lt (by simp only [pageSize]; omega)

include hpos in
/-- Enough free pages after the range: the address returned is past the new pages, where another allocation is. -/
theorem expand_next (hroom : k - n ≤ next) : ¬ Reallocates ⟨h.kernel, ram⟩ ⟨a * 4096, n * 4096⟩
    (h.besidePages ⟨a * 4096, n * 4096⟩) newSize
    (expandPages h.kernel (a * 4096) (n * 4096) (k * 4096) f ⟨h.kernel, ram⟩) := by
  intro hres
  obtain ⟨hn, hlo, hhi, hheld, heq⟩ := expandPages_eq (f := f) hI he hlt hk hnext hprev
  obtain ⟨-, h2, h3, -, -⟩ := needed_eq hI he hlt hk hnext hprev
  obtain ⟨⟨hn1, hn2, -⟩, -⟩ := hI.counts he hnext hprev
  rw [heq, if_pos hroom, expandAt, h2] at hres
  rcases growPages_grown (s := h.kernel) (v := a * 4096) (o := n * 4096) (p := a + n)
    (d := k - n) hI.heap.pages hI.allPresent
    hI.last (by omega) (by omega) (fun v h4 h5 => hn2 v h4 (by omega)) (fun i _ => by omega) with
    ⟨m, hrun, hG, -⟩ | ⟨-, e, t, hrun⟩
  · rw [bind_of_ok (onHeap_ok hrun), show a + n + (k - n) = a + k by omega, grown, h3, if_pos (by omega)] at hres
    cases hmove : memmove ((a + k) * 4096) (a * 4096) (n * 4096) ⟨{ h.kernel with mem := m }, ram⟩ with
    | error e t =>
      rw [bind_of_error hmove] at hres
      exact hres
    | ok u t =>
      obtain ⟨-, hreach, rfl⟩ := copying_ok hmove
      -- the page after the new ones was there before
      have hin := (reaches_iff hG.pages hG.present hG.last (by simp only [kernelHeapStart]; omega)
        (by simp only [kernelHeapMax]; omega)).1 hreach 0 (by omega)
      rw [Nat.add_zero, inHeap_page, hG.holds_iff (by omega)] at hin
      have hnext' : next = k - n := by
        by_contra hne
        exact hn2 (a + k) (by omega) (by omega) hin.2
      rw [bind_of_ok hmove] at hres
      simp only [recordGrown, h2, if_pos hnext'] at hres
      obtain ⟨d, hd, hdk⟩ := (hI.heap.mapped (a + k) (by omega) hin.1.2).1 hin.2
      have hne : d ≠ ⟨a * 4096, n * 4096⟩ := by
        rintro rfl
        have := (has_pages.1 hdk).2
        omega
      rcases hres with ⟨h0, -⟩ | ⟨-, hres⟩
      · omega
      · refine hres.apart d (List.mem_append_right _ ((List.mem_erase_of_ne hne).2 hd)) ((a + k) * 4096)
            ⟨⟨le_rfl, ?_⟩, hdk⟩
        simp only [fin]
        omega
  · rw [bind_of_error (onHeap_error hrun)] at hres
    exact hres

/-- Too few free pages after the range and enough before it: the pages before it are mapped, the range is moved onto
itself, and what `recordGrown` does is left. -/
theorem expand_before (hf : (h.kernel.mem.pte (0, a)).held = some f) (hroom : next < k - n) (hle : k - n ≤ prev) :
    (∃ m ram₁, Grown h.kernel.mem (fun v => a - (k - n) ≤ v ∧ v < a) m ∧ k - n ≤ h.kernel.mem.freeFrameList.length ∧
      (∀ i < n * 4096, KernelRam.load ⟨m, ram₁⟩ (a * 4096 + i) = KernelRam.load ⟨h.kernel.mem, ram⟩ (a * 4096 + i)) ∧
      expandPages h.kernel (a * 4096) (n * 4096) (k * 4096) f ⟨h.kernel, ram⟩ = (if prev = k - n then do
          memcpy ((a - (k - n)) * 4096) (a * 4096) (k * 4096)
          return (a - (k - n)) * 4096
        else do
          memcpy (a * 4096) (a * 4096) (k * 4096)
          return (a - prev) * 4096 : RM Nat) ⟨{ h.kernel with mem := m }, ram₁⟩) ∨
    h.kernel.mem.freeFrameList.length < k - n ∧
      ∃ e t, expandPages h.kernel (a * 4096) (n * 4096) (k * 4096) f ⟨h.kernel, ram⟩ = .error e t := by
  obtain ⟨hn, hlo, hhi, hheld, heq⟩ := expandPages_eq (f := f) hI he hlt hk hnext hprev
  obtain ⟨h1, h2, h3, h4, h5⟩ := needed_eq hI he hlt hk hnext hprev
  obtain ⟨-, hp1, hp2⟩ := hI.counts he hnext hprev
  have hend : a - (k - n) + (k - n) = a := by omega
  rw [heq, if_neg (by omega), if_pos hle, expandAt, h2]
  rcases growPages_grown (s := h.kernel) (v := a * 4096) (o := n * 4096) (p := a - (k - n)) (d := k - n) hI.heap.pages
    hI.allPresent hI.last (by omega) (by omega) (fun v h6 h7 => hp2 v (by omega) (by omega)) (fun i _ => by omega) with
    ⟨m, hrun, hG, hframes⟩ | ⟨hno, e, t, hrun⟩
  · rw [hend] at hrun hG
    have hold : ∀ v, a ≤ v → v < a + n → HeapPage v ∧ HoldsPage m v := fun v h6 h7 =>
      ⟨⟨by omega, by omega⟩, (hG.holds_iff (by omega)).2 (hheld v h6 h7)⟩
    have hbytes : ∀ i < n * 4096, InHeap m (a * 4096 + i) := inHeap_range (k := n) hold le_rfl (by omega)
    obtain ⟨ram₁, hmove, hmoved⟩ :=
        memmove_moves (k := { h.kernel with mem := m }) (r := ram) hG.pages hG.present hbytes
      hbytes (.inr le_rfl)
    have hframe : m.getFrameInfo 0 (a * 4096) = some f := by
      rw [hG.pages.getFrameInfo (hold a le_rfl (by omega)).1, hG.same a (by omega), hf]
    obtain ⟨m₂, hG₂, hsame, hrec⟩ := recordGrown_eq (s := h.kernel) (r := ram₁) hG hframe hframe
      (show next ≠ sub32 (k * 4096) (n * 4096) / pageSize by rw [h2]; omega) prev
    refine .inl ⟨m₂, ram₁, hG₂, hframes, fun i hi => ?_, ?_⟩
    · have hpage : (a * 4096 + i) / 4096 = a + i / 4096 := by omega
      rw [load_same hG.pages hG₂.pages (hbytes i hi).1 (hsame _), hmoved.self (hbytes i hi),
        hG.load hI.heap.pages (hbytes i hi).1 (by omega)]
    · rw [bind_of_ok (onHeap_ok hrun), grown, h3, if_pos (by omega), bind_of_ok hmove, hrec, h2, h1, h5,
        h4 _ (by omega), h4 _ (by omega)]
  · exact .inr ⟨hno, e, _, bind_of_error (onHeap_error hrun)⟩

/-- Exactly the pages missing are free before the range: all `k` pages from the range on are copied down. -/
theorem expand_prev (hf : (h.kernel.mem.pte (0, a)).held = some f) (hsize : newSize ≤ k * 4096) (hroom : next < k - n)
    (hexact : prev = k - n) :
    Reallocates ⟨h.kernel, ram⟩ ⟨a * 4096, n * 4096⟩ (h.besidePages ⟨a * 4096, n * 4096⟩) newSize
      (expandPages h.kernel (a * 4096) (n * 4096) (k * 4096) f ⟨h.kernel, ram⟩) ↔
    prev ≤ h.kernel.mem.freeFrameList.length ∧ ∀ i < prev, InHeap h.kernel.mem ((a + n + i) * 4096) := by
  obtain ⟨hn, hlo, hhi, hheld, -⟩ := expandPages_eq (f := f) hI he hlt hk hnext hprev
  obtain ⟨-, hp1, hp2⟩ := hI.counts he hnext hprev
  rcases expand_before hI he hlt hk hnext hprev ram hf hroom hexact.ge with
    ⟨m, ram₁, hG, hframes, hbytes, heq⟩ | ⟨hno, e, t, heq⟩
  · rw [heq, if_pos hexact]
    by_cases hafter : ∀ i < prev, InHeap h.kernel.mem ((a + n + i) * 4096)
    · refine ⟨fun _ => ⟨by omega, hafter⟩, fun _ => ?_⟩
      have hall : ∀ v, a - (k - n) ≤ v → v < a + k → HeapPage v ∧ HoldsPage m v := by
        intro v h5 h6
        rcases Nat.lt_or_ge v a with hva | hva
        · exact ⟨⟨by omega, by omega⟩, hG.held v ⟨h5, hva⟩⟩
        rw [hG.holds_iff (by omega)]
        rcases Nat.lt_or_ge v (a + n) with hvn | hvn
        · exact ⟨⟨by omega, by omega⟩, hheld v hva hvn⟩
        · have hin := hafter (v - (a + n)) (by omega)
          rwa [show a + n + (v - (a + n)) = v by omega, inHeap_page] at hin
      have hsrc : ∀ i < k * 4096, InHeap m (a * 4096 + i) :=
        inHeap_range (p := a) (k := k) (fun v h5 h6 => hall v (by omega) h6) le_rfl (by omega)
      have hdst : ∀ i < k * 4096, InHeap m ((a - (k - n)) * 4096 + i) :=
        inHeap_range (p := a - (k - n)) (k := k) (fun v h5 h6 => hall v h5 (by omega)) le_rfl (by omega)
      obtain ⟨ram₂, hcopy, hcopied⟩ :=
          memcpy_moves (k := { h.kernel with mem := m }) (r := ram₁) hG.pages hG.present hsrc hdst
        (.inr (by omega))
      rw [bind_of_ok hcopy]
      refine .inr ⟨by omega, fun i hi => ?_, ?_, ?_⟩
      · have hi' : i < n * 4096 := lt_of_lt_of_le hi (min_le_left _ _)
        have hik : i < k * 4096 := hi'.trans (Nat.mul_lt_mul_of_pos_right hlt (by decide))
        show KernelRam.load ⟨m, ram₂⟩ _ = KernelRam.load ⟨h.kernel.mem, ram⟩ _
        rw [hcopied _ (hdst i hik), if_pos ⟨Nat.le_add_right _ _, Nat.add_lt_add_left hik _⟩, Nat.add_sub_cancel_left]
        exact hbytes i hi'
      · exact InHeap.reached hG.pages hG.present fun i hi => hdst i (hi.trans_le hsize)
      · refine hI.besidePages_apart he (d := k) (by omega) (fun v h5 h6 => ?_) hsize
        rcases Nat.lt_or_ge v a with hva | hva
        · exact .inl (hp2 v (by omega) hva)
        · exact .inr (has_pages.2 ⟨hva, by omega⟩)
    · refine ⟨fun hres => ?_, fun hc => absurd hc.2 hafter⟩
      have hfault : memcpy ((a - (k - n)) * 4096) (a * 4096) (k * 4096) ⟨{ h.kernel with mem := m }, ram₁⟩ =
          .error .faults ⟨{ h.kernel with mem := m }, ram₁⟩ := by
        refine if_neg fun hreach => hafter fun i hi => ?_
        have hin := (reaches_iff hG.pages hG.present hG.last (by simp only [kernelHeapStart]; omega)
          (by simp only [kernelHeapMax]; omega)).1 hreach.1 ((n + i) * 4096) (by omega)
        rw [show a * 4096 + (n + i) * 4096 = (a + n + i) * 4096 by omega, inHeap_page, hG.holds_iff (by omega)] at hin
        exact inHeap_page.2 hin
      rw [bind_of_error hfault] at hres
      exact hres.elim
  · rw [heq]
    exact ⟨fun hres => hres.elim, fun hc => by omega⟩

include hpos in
/-- More than the pages missing are free before the range: the address returned is of a page that is not mapped. -/
theorem expand_prev_more (hf : (h.kernel.mem.pte (0, a)).held = some f) (hroom : next < k - n) (hmore : k - n < prev) :
    ¬ Reallocates ⟨h.kernel, ram⟩ ⟨a * 4096, n * 4096⟩ (h.besidePages ⟨a * 4096, n * 4096⟩) newSize
      (expandPages h.kernel (a * 4096) (n * 4096) (k * 4096) f ⟨h.kernel, ram⟩) := by
  intro hres
  obtain ⟨hn, hlo, hhi, -⟩ := expandPages_eq (f := f) hI he hlt hk hnext hprev
  obtain ⟨-, hp1, hp2⟩ := hI.counts he hnext hprev
  rcases expand_before hI he hlt hk hnext hprev ram hf hroom hmore.le with ⟨m, ram₁, hG, -, -, heq⟩ | ⟨-, e, t, heq⟩
  · rw [heq, if_neg hmore.ne'] at hres
    cases hcopy : memcpy (a * 4096) (a * 4096) (k * 4096) ⟨{ h.kernel with mem := m }, ram₁⟩ with
    | error e t =>
      rw [bind_of_error hcopy] at hres
      exact hres
    | ok u t =>
      obtain ⟨-, -, rfl⟩ := copying_ok hcopy
      rw [bind_of_ok hcopy] at hres
      rcases hres with ⟨h0, -⟩ | ⟨-, hres⟩
      · omega
      · have hin := (reaches_iff hG.pages hG.present hG.last (by simp only [kernelHeapStart]; omega)
          (by simp only [kernelHeapMax]; omega)).1 hres.mapped 0 hpos
        rw [Nat.add_zero, inHeap_page, hG.holds_iff (by omega)] at hin
        exact hp2 (a - prev) le_rfl (by omega) hin.2
  · rw [heq] at hres
    exact hres

include hpos in
/-- Free pages on both sides are needed: the contents are not moved down, so the first byte is that of a new frame. -/
theorem expand_around (hf : (h.kernel.mem.pte (0, a)).held = some f) (hroom : next < k - n) (hroom' : prev < k - n)
    (hsum : k - n ≤ prev + next) :
      ¬ Reallocates ⟨h.kernel, fun g i => if g = f ∧ i = 0 then 1 else 0⟩ ⟨a * 4096, n * 4096⟩
      (h.besidePages ⟨a * 4096, n * 4096⟩) newSize (expandPages h.kernel (a * 4096) (n * 4096) (k * 4096) f
        ⟨h.kernel, fun g i => if g = f ∧ i = 0 then 1 else 0⟩) := by
  intro hres
  obtain ⟨ram, hram⟩ : ∃ ram : Nat → Nat → UInt8, (fun g i => if g = f ∧ i = 0 then 1 else 0) = ram := ⟨_, rfl⟩
  obtain ⟨hn, hlo, hhi, hheld, heq⟩ := expandPages_eq (f := f) hI he hlt hk hnext hprev
  obtain ⟨h1, h2, h3, h4, h5⟩ := needed_eq hI he hlt hk hnext hprev
  obtain ⟨⟨hn1, hn2, -⟩, hp1, hp2⟩ := hI.counts he hnext hprev
  obtain ⟨r, hr⟩ : ∃ r, k - n = prev + (r + 1) := ⟨k - n - prev - 1, by omega⟩
  rw [hram, heq, if_neg (by omega), if_neg (by omega), if_pos hsum, expandAt, h2, hr, growPages_add] at hres
  have hback : a - prev + prev = a := by omega
  -- the pages before the range, then those after it
  rcases growPages_grown (s := h.kernel) (v := a * 4096) (o := n * 4096) (p := a - prev) (d := prev) hI.heap.pages
    hI.allPresent hI.last (by omega) (by omega) (fun v h6 h7 => hp2 v (by omega) (by omega)) (fun i _ => by omega) with
    ⟨m₁, hrun₁, hG₁, -⟩ | ⟨-, e, t, hrun₁⟩
  swap
  · rw [bind_of_error (onHeap_error (bind_of_error hrun₁))] at hres
    exact hres
  rw [hback] at hrun₁ hG₁
  rcases growPages_grown (s := { h.kernel with mem := m₁ }) (v := a * 4096) (o := n * 4096) (p := a + n)
    (d := r + 1) hG₁.pages hG₁.present hG₁.last (by omega) (by omega) (fun v h6 h7 => by
      rw [hG₁.holds_iff (by omega)]; exact hn2 v h6 (by omega))
    (fun i _ => by omega) with ⟨m₂, hrun₂, hG₂, -⟩ | ⟨-, e, t, hrun₂⟩
  swap
  · rw [← h3, ← growPages_at r (by rw [h3]; omega)] at hrun₂
    rw [bind_of_error (onHeap_error ((bind_of_ok hrun₁).trans hrun₂))] at hres
    exact hres
  have hG := hG₁.trans hG₂
  rw [← h3, ← growPages_at r (by rw [h3]; omega)] at hrun₂
  obtain ⟨start, hstart⟩ : ∃ start, a + n + (r + 1) = start := ⟨_, rfl⟩
  rw [hstart] at hrun₂
  rw [bind_of_ok (onHeap_ok ((bind_of_ok hrun₁).trans hrun₂)), grown, h3, if_pos (by omega)] at hres
  have hreach : ∀ {m : Mem} {c p : Nat}, KPages m → AllPresent m → m.pte (0, 1048575) = {} → 1015809 ≤ p → p ≤ 1048575 →
      Reaches m (p * 4096) c → ∀ i < c, InHeap m (p * 4096 + i) := fun hK hp hl h6 h7 =>
    (reaches_iff hK hp hl (by simp only [kernelHeapStart]; omega) (by simp only [kernelHeapMax]; omega)).1
  cases hmove : memmove (start * 4096) (a * 4096) (n * 4096) ⟨{ h.kernel with mem := m₂ }, ram⟩ with
  | error e t =>
    rw [bind_of_error hmove] at hres
    exact hres
  | ok u t =>
    obtain ⟨hsrc, hdst, -⟩ := copying_ok hmove
    have hdst' := hreach hG.pages hG.present hG.last (by omega) (by omega) hdst
    obtain ⟨ram₁, hmove', hmoved⟩ := memmove_moves (k := { h.kernel with mem := m₂ }) (r := ram) hG.pages hG.present
      (hreach hG.pages hG.present hG.last (by omega) (by omega) hsrc) hdst' (.inl (by omega))
    have ht : t = ⟨{ h.kernel with mem := m₂ }, ram₁⟩ := by
      cases hmove.symm.trans hmove'
      rfl
    subst ht
    have hin := hdst' 0 (by omega)
    rw [Nat.add_zero, inHeap_page] at hin
    obtain ⟨g, hg⟩ := Option.ne_none_iff_exists'.1 hin.2
    have hframe : m₂.getFrameInfo 0 (a * 4096) = some f := by
      rw [hG.pages.getFrameInfo ⟨by omega, by omega⟩, hG.same a (by omega), hf]
    obtain ⟨m, hG', hsame, hrec⟩ := recordGrown_eq (s := h.kernel) (r := ram₁) hG hframe
      ((hG.pages.getFrameInfo hin.1).trans hg) (show next ≠ sub32 (k * 4096) (n * 4096) / pageSize by
        rw [h2]; omega) prev
    rw [bind_of_ok hmove, hrec, h2, if_neg (by omega), h5, h4 _ (by omega)] at hres
    cases hcopy : memcpy (start * 4096) (a * 4096) (k * 4096) ⟨{ h.kernel with mem := m }, ram₁⟩ with
    | error e t =>
      rw [bind_of_error hcopy] at hres
      exact hres
    | ok u t =>
      obtain ⟨-, hdst₂, -⟩ := copying_ok hcopy
      obtain ⟨-, hkeep⟩ := memcpy_outside hG'.pages hG'.present
        (hreach hG'.pages hG'.present hG'.last (by omega) (by omega) hdst₂) hcopy
      rw [bind_of_ok hcopy] at hres
      rcases hres with ⟨h0, -⟩ | ⟨-, hres⟩
      · omega
      -- the byte was not written, and its frame is not that of the old first page
      have hpage : HeapPage (a - prev) := ⟨by omega, by omega⟩
      have hnew : HoldsPage m (a - prev) := by
        by_cases hzero : prev = 0
        · omega
        · exact hG'.held _ (.inl ⟨le_rfl, by omega⟩)
      obtain ⟨g', hg'⟩ := Option.ne_none_iff_exists'.1 hnew
      have hne : g' ≠ f := by
        rintro rfl
        have := hG'.pages.inj hpage (show HeapPage a from ⟨by omega, by omega⟩) hg' (by rw [hG'.same a (by omega), hf])
        omega
      have hx := hres.contents 0 (lt_min (by simp only; omega) hpos)
      simp only [Nat.add_zero] at hx
      rw [hkeep _ (inHeap_page.2 ⟨hpage, hnew⟩) (by omega)] at hx
      have hx₁ : KernelRam.load ⟨m, ram₁⟩ ((a - prev) * 4096) = KernelRam.load ⟨h.kernel.mem, ram⟩ (a * 4096) := hx
      have hin₂ : InHeap m₂ ((a - prev) * 4096) := inHeap_page.2 ⟨hpage, by rw [HoldsPage, ← hsame]; exact hnew⟩
      rw [load_same hG.pages hG'.pages hin₂.1 (hsame _), hmoved _ hin₂, if_neg (by omega),
        load_page hG.pages hG.present hpage (by rw [← hsame, hg']),
        load_page hI.heap.pages hI.allPresent ⟨by omega, by omega⟩ hf, ← hram] at hx₁
      simp only [hne, false_and, if_false, and_self, if_true] at hx₁
      exact absurd hx₁ (by decide)

/-- Too few free pages around the range: `kmalloc`, and all of the contents are copied. -/
theorem expand_moves (hsize : newSize ≤ k * 4096) (hfew : prev + next < k - n) :
    Reallocates ⟨h.kernel, ram⟩ ⟨a * 4096, n * 4096⟩ (h.besidePages ⟨a * 4096, n * 4096⟩) newSize
      (expandPages h.kernel (a * 4096) (n * 4096) (k * 4096) f ⟨h.kernel, ram⟩) ↔ h.kernel.HasPages k := by
  obtain ⟨hn, hlo, hhi, hheld, heq⟩ := expandPages_eq (f := f) hI he hlt hk hnext hprev
  rw [heq, if_neg (by omega), if_neg (by omega), if_neg (by omega), expandAt]
  have hpages : pagesOf (k * 4096) = k := by
    rw [pagesOf, pageSize, roundUp_div _ (by omega)]
    omega
  have hroom := hI.hasPages_iff (show 2048 < k * 4096 by omega) (by omega)
  rw [hpages] at hroom
  rw [← hroom]
  cases hr : kmalloc (k * 4096) h.kernel with
  | error e s =>
    rw [bind_of_error (onHeap_error hr)]
    refine ⟨fun hres => hres.elim, ?_⟩
    rintro ⟨va, t, hbad⟩
    cases hbad
  | ok va s =>
    refine ⟨fun _ => ⟨va, s, rfl⟩, fun _ => ?_⟩
    rw [bind_of_ok (onHeap_ok hr)]
    have hbytes : ∀ i < n * 4096, InHeap h.kernel.mem (a * 4096 + i) := hI.pageBytes he
    rcases hI.kmallocPages (by omega) (by omega) hr with ⟨rfl, rfl⟩ | ⟨p, q, b', rfl, hq, hlo', hhi', hfree, hI', hB⟩
    · exact .inl ⟨rfl, InHeap.reached hI.heap.pages hI.allPresent hbytes, fun _ _ => rfl⟩
    · obtain rfl : k = q := by omega
      have hperm : (⟨p * 4096, k * 4096⟩ :: h.live : List Extent).Perm
          (⟨a * 4096, n * 4096⟩ :: ⟨p * 4096, k * 4096⟩ :: h.live.erase ⟨a * 4096, n * 4096⟩) :=
        ((List.perm_cons_erase he).cons _).trans (.swap _ _ _)
      obtain ⟨t, b'', hrel, hI'', hB', hnone, -⟩ := HeapUse.Inv.kfree hI' hperm
      have hdis : a * 4096 + n * 4096 ≤ p * 4096 ∨ p * 4096 ≤ a * 4096 := by
        by_contra hin
        exact hfree p le_rfl (by omega) (hheld p (by omega) (by omega))
      obtain ⟨ram', hcopy, hrel', hmapped, hcontents⟩ := hI.move (p := p * 4096) (n := k * 4096) (a := a * 4096)
        hI' hI'' hrel (hB.mono fun w hw => hfree w hw.1 hw.2) (hB'.mono hnone) hbytes
        (.inr ⟨_, List.mem_cons_self, rfl, le_rfl⟩) (by omega) hdis ram
      have hne : p * 4096 ≠ 0 := by omega
      rw [if_pos hne, bind_of_ok hcopy, bind_of_ok hrel']
      refine .inr ⟨hne, fun i hi => hcontents i (lt_of_lt_of_le hi (min_le_left _ _)),
        fun i hi => hmapped i (hi.trans_le hsize), ?_⟩
      exact hI.besidePages_apart he (by omega) (fun v h1 h2 => .inl (hfree v h1 h2)) hsize

end Cases

/-! ## A size that needs no more pages -/

section Fewer

variable {h : HeapUse} {b a n newSize : Nat}

/-- What is left of a range of pages is mapped, with its bytes, apart from the rest. -/
theorem HeapUse.Inv.resized_same (hI : h.Inv ∅ b) (he : ⟨a * 4096, n * 4096⟩ ∈ h.live) (hle : newSize ≤ n * 4096)
    {m : Mem}
    (hG : Grown h.kernel.mem (fun _ => False) m) (ram : Nat → Nat → UInt8) :
    Reallocates ⟨h.kernel, ram⟩ ⟨a * 4096, n * 4096⟩ (h.besidePages ⟨a * 4096, n * 4096⟩) newSize
      (.ok (a * 4096) ⟨{ h.kernel with mem := m }, ram⟩) := by
  obtain ⟨p, q, hpq, hn, hlo, hhi, -⟩ := hI.first he
  rw [Extent.mk.injEq] at hpq
  have hbytes := hI.pageBytes he
  have hin : ∀ i < n * 4096, InHeap m (a * 4096 + i) := fun i hi =>
    ⟨(hbytes i hi).1, (hG.holds_iff not_false).2 (hbytes i hi).2⟩
  refine .inr ⟨by omega, fun i hi => ?_, InHeap.reached hG.pages hG.present fun i hi => hin i (hi.trans_le hle), ?_⟩
  · exact hG.load hI.heap.pages (hbytes i (lt_of_lt_of_le hi (min_le_left _ _))).1 not_false
  · exact hI.besidePages_apart he (d := n) (by omega) (fun v h1 h2 => .inr (has_pages.2 ⟨h1, h2⟩)) hle

/-- The size that wraps to none asks the block allocator for nothing, and `NULL` is returned. -/
theorem shrinkPages_wrapped {s : Kernel} {va old f : Nat} (ram : Nat → Nat → UInt8) :
    shrinkPages va old 0 f ⟨s, ram⟩ = .ok 0 ⟨s, ram⟩ := by
  have hnull : kallocBlock 0 s = .ok 0 s := by
    simp only [kallocBlock, allocBlock, if_neg (show ¬ dynAllocMaxBlockSize < 0 by decide), if_true]
  rw [shrinkPages, if_pos (Nat.zero_le _), bind_of_ok (onHeap_ok hnull), if_neg (not_not.2 rfl)]
  rfl

end Fewer

/-! ## Pages -/

section Pages

variable {h : HeapUse} {b newSize : Nat} {e : Extent}

/-- `krealloc` of a range of pages in use. -/
theorem HeapUse.Inv.resizesPages_iff (hI : h.Inv ∅ b) (he : e ∈ h.live) (hpos : 0 < newSize)
    (hlt : newSize < 4294967296) :
    h.Resizes e (h.besidePages e) newSize ↔ h.kernel.PagesResize e newSize := by
  obtain ⟨a, n, rfl, hn, hlo, hhi, -⟩ := hI.first he
  obtain ⟨k, hk⟩ : ∃ k, pagesOf newSize = k := ⟨_, rfl⟩
  have hdiv : a * 4096 / 4096 = a := Nat.mul_div_cancel _ (by decide)
  have hup : roundUp newSize pageSize = k * 4096 ∧ k < 1048576 ∧ (k = 0 ∨ newSize ≤ k * 4096) := by
    rw [← hk, pagesOf, pageSize]
    rcases Nat.lt_or_ge 4294963200 newSize with hw | hw
    · rw [roundUp_wraps hw hlt]
      exact ⟨rfl, by decide, .inl rfl⟩
    · rw [roundUp_div _ hw]
      unfold roundUp roundDown
      omega
  obtain ⟨f, -, hf, -⟩ := hI.firstFrame he
  simp only [hdiv] at hf
  have hrun : ∀ ram, krealloc (a * 4096) newSize ⟨h.kernel, ram⟩ =
      if k * 4096 = n * 4096 then .ok (a * 4096) ⟨h.kernel, ram⟩
      else if k * 4096 < n * 4096 then shrinkPages (a * 4096) (n * 4096) (k * 4096) f ⟨h.kernel, ram⟩
      else expandPages h.kernel (a * 4096) (n * 4096) (k * 4096) f ⟨h.kernel, ram⟩ := by
    intro ram
    obtain ⟨f', hf', heq⟩ := @kreallocPages_eq _ _ _ (k * 4096) hI he ram
    simp only [hdiv, hf, Option.some.injEq] at hf'
    rw [krealloc_pages hI he hpos, hup.1, heq, hf']
  have hsame : Grown h.kernel.mem (fun _ => False) h.kernel.mem := .refl hI.heap.pages hI.allPresent hI.last
  have hhigh := hI.heap.high
  have hcount : (Extent.mk (a * 4096) (n * 4096)).len / pageSize = n := Nat.mul_div_cancel _ (by decide)
  rw [HeapUse.Resizes, Kernel.PagesResize, hk, hcount]
  simp only [hrun]
  rcases Nat.lt_trichotomy k n with hlt' | rfl | hgt
  · refine ⟨fun _ => .inl hlt'.le, fun _ ram => ?_⟩
    rw [if_neg (by omega), if_pos (by omega)]
    rcases hup.2.2 with rfl | hsize
    · rw [Nat.zero_mul, shrinkPages_wrapped]
      exact .inl ⟨rfl, InHeap.reached hI.heap.pages hI.allPresent (hI.pageBytes he), fun _ _ => rfl⟩
    · have hset : h.kernel.mem.setFrame f { h.kernel.mem.framesInfo f with size := k * 4096 } =
          Mem.withSize h.kernel.mem (a * 4096) (k * 4096) := by
        have hframe := hsame.pages.getFrameInfo (v := a) ⟨by omega, by omega⟩
        rw [Mem.withSize, hframe, hf]
      have hshrink := shrinkPages_eq hI he (show 2048 < k * 4096 by omega) (by simp only; omega) f ram
      simp only at hshrink
      rw [hshrink, hset]
      exact hI.resized_same he (hsize.trans (Nat.mul_le_mul_right _ hlt'.le)) (hsame.withSize _ _) ram
  · refine ⟨fun _ => .inl le_rfl, fun _ ram => ?_⟩
    rw [if_pos rfl]
    exact hI.resized_same he (by omega) hsame ram
  · have hexp : ∀ ram, (if k * 4096 = n * 4096 then .ok (a * 4096) ⟨h.kernel, ram⟩
        else if k * 4096 < n * 4096 then shrinkPages (a * 4096) (n * 4096) (k * 4096) f ⟨h.kernel, ram⟩
        else expandPages h.kernel (a * 4096) (n * 4096) (k * 4096) f ⟨h.kernel, ram⟩) =
        expandPages h.kernel (a * 4096) (n * 4096) (k * 4096) f ⟨h.kernel, ram⟩ := by
      intro ram
      rw [if_neg (by omega), if_neg (by omega)]
    have hsize : newSize ≤ k * 4096 := by omega
    obtain ⟨next, hnext⟩ : ∃ next, h.kernel.nextFree ⟨a * 4096, n * 4096⟩ = next := ⟨_, rfl⟩
    obtain ⟨prev, hprev⟩ : ∃ prev, h.kernel.prevFree ⟨a * 4096, n * 4096⟩ = prev := ⟨_, rfl⟩
    simp only [hexp, hnext, hprev]
    have hfin : ∀ i, (Extent.mk (a * 4096) (n * 4096)).fin + i * pageSize = (a + n + i) * 4096 := by
      intro i
      simp only [fin, pageSize]
      omega
    simp only [hfin, Nat.not_le.2 hgt, false_or]
    -- the arrangement of free pages decides which of the paths is taken
    by_cases hroom : k - n ≤ next
    · exact ⟨fun hres => absurd (hres fun _ _ => 0) (expand_next hI he hgt hup.2.1 hnext hprev hpos _ hroom),
        fun hc => by omega⟩
    rw [not_le] at hroom
    rcases Nat.lt_trichotomy prev (k - n) with hless | hexact | hmore
    · by_cases hsum : k - n ≤ prev + next
      · refine ⟨fun hres => absurd (hres _) (expand_around hI he hgt hup.2.1 hnext hprev hpos hf hroom hless hsum),
            fun hc => ?_⟩
        omega
      · have hiff := fun ram => expand_moves (f := f) hI he hgt hup.2.1 hnext hprev ram hsize (not_le.1 hsum)
        refine ⟨fun hres => ⟨hroom, .inr ⟨by omega, (hiff _).1 (hres fun _ _ => 0)⟩⟩, fun hc ram => (hiff ram).2 ?_⟩
        rcases hc.2 with h1 | h1
        · omega
        · exact h1.2
    · have hiff := fun ram => expand_prev hI he hgt hup.2.1 hnext hprev ram hf hsize hroom hexact
      refine ⟨fun hres => ⟨hroom, .inl ⟨hexact, (hiff _).1 (hres fun _ _ => 0)⟩⟩, fun hc ram => (hiff ram).2 ?_⟩
      rcases hc.2 with h1 | h1
      · exact h1.2
      · omega
    · refine ⟨fun hres => absurd (hres fun _ _ => 0)
        (expand_prev_more hI he hgt hup.2.1 hnext hprev hpos _ hf hroom hmore), fun hc => ?_⟩
      omega

end Pages

/-- Whatever was allocated and freed before: `krealloc` of a block or of a range of pages in use to a size other than
zero returns `NULL` and leaves the allocation as it is, or returns an address with the old contents whose bytes are
mapped and apart from the other allocations, if and only if the condition for a block, or the one for pages, holds. -/
theorem krealloc_resizes_iff (s₀ s : Kernel) (hboot : Booted s₀.mem) (hinit : kheapInit s₀ = .ok s)
    (cs : List HeapCall) :
    Always HeapUseStep (fun h => ∀ newSize, 0 < newSize → newSize < 4294967296 →
      (∀ c ∈ h.blocks, h.Resizes (h.kernel.dyn.extent c.va) (h.besideBlock c) newSize ↔
        h.kernel.BlockResizes c.va newSize) ∧
      ∀ e ∈ h.live, h.Resizes e (h.besidePages e) newSize ↔ h.kernel.PagesResize e newSize) ⟨s, [], []⟩ cs :=
  ((kheapInit_use hboot hinit).always cs).mono fun _ hI _ hpos hlt => hI.elim fun _ hI =>
    ⟨fun _ hc => hI.resizesBlock_iff hc hpos hlt, fun _ he => hI.resizesPages_iff he hpos hlt⟩

theorem krealloc_resizes_iff_machine : ∃ s, kheapInit (unusedKernel machine) = .ok s ∧
    Always HeapUseStep (fun h => ∀ newSize, 0 < newSize → newSize < 4294967296 →
      (∀ c ∈ h.blocks, h.Resizes (h.kernel.dyn.extent c.va) (h.besideBlock c) newSize ↔
        h.kernel.BlockResizes c.va newSize) ∧
      ∀ e ∈ h.live, h.Resizes e (h.besidePages e) newSize ↔ h.kernel.PagesResize e newSize)
      ⟨s, [], []⟩ [.kmalloc 4096, .kmalloc 100] :=
  ⟨_, rfl, krealloc_resizes_iff (unusedKernel machine) _ machine_booted rfl _⟩

/-- A page to become two, the page after it free. -/
theorem krealloc_returns_end : ∃ s t, kheapInit (unusedKernel machine) = .ok s ∧ kmalloc 4096 s = .ok 0xF8001000 t ∧
    HeapUseStep ⟨s, [], []⟩ (.kmalloc 4096) ⟨t, [], [⟨0xF8001000, 4096⟩]⟩ ∧
    ¬ HeapUse.Resizes ⟨t, [], [⟨0xF8001000, 4096⟩]⟩ ⟨0xF8001000, 4096⟩ [] 8192 := by
  obtain ⟨s, hinit⟩ : ∃ s, kheapInit (unusedKernel machine) = .ok s := ⟨_, rfl⟩
  have hI := @kheapInit_use (unusedKernel machine) s machine_booted hinit
  obtain ⟨va, t, hr, hva⟩ : ∃ va t, kmalloc 4096 s = .ok va t ∧ decide (va = 0xF8001000) = true := by
    cases hinit
    exact ok_of_run (by decide +kernel)
  obtain rfl := of_decide_eq_true hva
  have hstep : HeapUseStep ⟨s, [], []⟩ (.kmalloc 4096) ⟨t, [], [⟨0xF8001000, 4096⟩]⟩ := by
    refine ⟨show 4096 < 4294967296 by decide, ?_⟩
    simp only [HeapUse.call, hr, HeapUse.grant, if_neg (show ¬ 0xF8001000 = 0 by decide)]
    rfl
  obtain ⟨b, hI'⟩ := hI.step hstep
  refine ⟨s, t, hinit, hr, hstep, fun hres => ?_⟩
  have hcond := (hI'.resizesPages_iff (e := ⟨0xF8001000, 4096⟩) List.mem_cons_self (show 0 < 8192 by decide)
    (by decide)).1 hres
  -- the page after is not in use, so it is free
  obtain ⟨⟨h1, -, h2⟩, -⟩ := hI'.counts (a := 1015809) (n := 1) List.mem_cons_self rfl rfl
  rcases hcond with hfew | ⟨hnone, -⟩
  · exact absurd hfew (by decide)
  · have hzero : t.nextFree ⟨0xF8001000, 4096⟩ = 0 := Nat.lt_one_iff.1 hnone
    have hzero' : t.nextFree ⟨1015809 * 4096, 1 * 4096⟩ = 0 := hzero
    rw [hzero'] at h2
    rcases h2 with h2 | h2
    · omega
    · obtain ⟨e, he, hin⟩ := (hI'.heap.mapped 1015810 (by decide) (by decide)).1 h2
      obtain rfl := List.mem_singleton.1 he
      exact absurd hin.2 (by decide)

end Fos.Heap
