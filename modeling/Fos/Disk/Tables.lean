/-
The disk page directories and tables of all processes: each lies in a page of the kernel heap of its own,
which it keeps until `pf_free_env` gives it back.
-/
import Fos.Disk.PageFile
import Fos.Heap.SinglePages

namespace Fos.Disk

open Fos.Memory Fos.Heap Fos.Proc Fos.Lib

/-! ## The pages they lie in -/

/-- `page (e, none)` is the page of the disk page directory of process `e`, `page (e, some i)` the page of its
table `i`. -/
structure TablePages (s : Kernel) (env : Nat → Env) (page : Nat × Option Nat → Option Nat) : Prop where
  heap : PageHeap s {p | ∃ x, page x = some p}
  inj : ∀ x y p, page x = some p → page y = some p → x = y
  dir : ∀ e, page (e, none) = none ∧ (env e).diskEnvPgdir = 0 ∨
    ∃ p, page (e, none) = some p ∧ (env e).diskEnvPgdir = p * 4096
  table : ∀ e i, page (e, some i) = none ∧ (env e).diskTables i = none ∨
    ∃ p f, page (e, some i) = some p ∧ (env e).diskTables i = some f ∧ (s.mem.pte (0, p)).held = some f ∧
      i < pdx userTop ∧ (env e).diskEnvPgdir ≠ 0

section TablePages

variable {s t : Kernel} {env : Nat → Env} {page : Nat × Option Nat → Option Nat} {e i p f va : Nat} {E : Env}

theorem TablePages.congr (h : TablePages s env page) {env' : Nat → Env}
    (he : ∀ e, (env' e).diskEnvPgdir = (env e).diskEnvPgdir ∧ (env' e).diskTables = (env e).diskTables) :
    TablePages s env' page := by
  constructor
  · exact h.heap
  · exact h.inj
  · intro e
    rw [(he e).1]
    exact h.dir e
  · intro e i
    rw [(he e).1, (he e).2]
    exact h.table e i

theorem TablePages.setPte (h : TablePages s env page) {a : Nat × Nat} (ha : ∀ v, HeapPage v → a ≠ (0, v)) (e : Pte) :
    TablePages { s with mem := s.mem.setPte a e } env page := by
  constructor
  · exact h.heap.setPte ha e
  · exact h.inj
  · exact h.dir
  · intro e' i
    refine (h.table e' i).imp_right ?_
    rintro ⟨p, f, hp, hf, hheld, hi⟩
    have hr := h.heap.range ⟨_, hp⟩
    refine ⟨p, f, hp, hf, ?_, hi⟩
    rw [Mem.setPte_pte, if_neg (ha p ⟨by omega, by omega⟩).symm]
    exact hheld

/-- A process without a directory has no tables. -/
theorem TablePages.no_table (h : TablePages s env page) (hd : (env e).diskEnvPgdir = 0) (i : Nat) :
    page (e, some i) = none ∧ (env e).diskTables i = none := by
  rcases h.table e i with hi | ⟨p, f, -, -, -, -, hne⟩
  · exact hi
  · exact absurd hd hne

theorem TablePages.lower (h : TablePages s env page) (hi : pdx userTop ≤ i) : (env e).diskTables i = none := by
  rcases h.table e i with ⟨-, hn⟩ | ⟨p, f, -, -, -, hlt, -⟩
  · exact hn
  · omega

/-- Naming a new page. -/
theorem TablePages.named (h : TablePages s env page) (hheap : PageHeap t (insert p {q | ∃ x, page x = some q}))
    (hnew : p ∉ {q | ∃ x, page x = some q}) (x : Nat × Option Nat) :
    PageHeap t {q | ∃ y, Function.update page x (some p) y = some q} ∧
      ∀ y z q, Function.update page x (some p) y = some q → Function.update page x (some p) z = some q → y = z := by
  have hold : ∀ y q, y ≠ x → Function.update page x (some p) y = some q → page y = some q := by
    intro y q hy hq
    rwa [Function.update_of_ne hy] at hq
  constructor
  · apply hheap.mono
    rintro q ⟨y, hy⟩
    by_cases hyx : y = x
    · rw [hyx, Function.update_self] at hy
      exact Set.mem_insert_iff.2 (.inl (Option.some.inj hy).symm)
    · exact Set.mem_insert_of_mem _ ⟨y, hold y q hyx hy⟩
  · intro y z q hy hz
    have hne : ∀ w, w ≠ x → Function.update page x (some p) w ≠ some p := fun w hw hc => hnew ⟨w, hold w p hw hc⟩
    by_cases hyx : y = x <;> by_cases hzx : z = x
    · rw [hyx, hzx]
    · rw [hyx, Function.update_self] at hy
      exact absurd (hy ▸ hz) (hne z hzx)
    · rw [hzx, Function.update_self] at hz
      exact absurd (hz ▸ hy) (hne y hyx)
    · exact h.inj y z q (hold y q hyx hy) (hold z q hzx hz)

/-- Giving a page back. -/
theorem TablePages.unnamed (h : TablePages s env page) {x : Nat × Option Nat} (hx : page x = some p)
    (hheap : PageHeap t ({q | ∃ x, page x = some q} \ {p})) :
    PageHeap t {q | ∃ y, Function.update page x none y = some q} ∧
      ∀ y z q, Function.update page x none y = some q → Function.update page x none z = some q → y = z := by
  have hold : ∀ y q, Function.update page x none y = some q → y ≠ x ∧ page y = some q := by
    intro y q hy
    by_cases hyx : y = x
    · rw [hyx, Function.update_self] at hy
      cases hy
    · rw [Function.update_of_ne hyx] at hy
      exact ⟨hyx, hy⟩
  constructor
  · apply hheap.mono
    rintro q ⟨y, hy⟩
    obtain ⟨hyx, hq⟩ := hold y q hy
    exact ⟨⟨y, hq⟩, fun hc => hyx (h.inj y x p (Set.mem_singleton_iff.1 hc ▸ hq) hx)⟩
  · exact fun y z q hy hz => h.inj y z q (hold y q hy).2 (hold z q hz).2

/-- What one process does with one page: the pages that keep their name keep their frame. -/
theorem TablePages.step (h : TablePages s env page) {o o' : Option Nat}
    (hnames : PageHeap t {q | ∃ y, Function.update page (e, o') o y = some q} ∧
      ∀ y z q, Function.update page (e, o') o y = some q → Function.update page (e, o') o z = some q → y = z)
    (hstay : ∀ y q, y ≠ (e, o') → page y = some q → t.mem.pte (0, q) = s.mem.pte (0, q))
    (hdir : Function.update page (e, o') o (e, none) = none ∧ E.diskEnvPgdir = 0 ∨
      ∃ p, Function.update page (e, o') o (e, none) = some p ∧ E.diskEnvPgdir = p * 4096)
    (htable : ∀ i, (e, some i) ≠ (e, o') → E.diskTables i = (env e).diskTables i)
    (hself : ∀ i, (e, some i) = (e, o') → o = none ∧ E.diskTables i = none ∨
      ∃ p f, o = some p ∧ E.diskTables i = some f ∧ (t.mem.pte (0, p)).held = some f ∧ i < pdx userTop)
    (hkept : E.diskEnvPgdir = 0 → ∀ i, E.diskTables i = none) :
    TablePages t (Function.update env e E) (Function.update page (e, o') o) := by
  constructor
  · exact hnames.1
  · exact hnames.2
  · intro e'
    by_cases he : e' = e
    · rw [he, Function.update_self]
      exact hdir
    · rw [Function.update_of_ne he, Function.update_of_ne (fun hc => he (congrArg Prod.fst hc))]
      exact h.dir e'
  · intro e' i
    -- a table other than the one that changes
    have hother : ∀ {F : Env}, (e', some i) ≠ (e, o') → F.diskTables i = (env e').diskTables i →
        (F.diskEnvPgdir = 0 → F.diskTables i = none) →
        Function.update page (e, o') o (e', some i) = none ∧ F.diskTables i = none ∨
        ∃ p f, Function.update page (e, o') o (e', some i) = some p ∧ F.diskTables i = some f ∧
          (t.mem.pte (0, p)).held = some f ∧ i < pdx userTop ∧ F.diskEnvPgdir ≠ 0 := by
      intro F hne hF hF0
      rw [Function.update_of_ne hne, hF]
      refine (h.table e' i).imp_right ?_
      rintro ⟨q, f, hq, hf, hheld, hi, -⟩
      refine ⟨q, f, hq, hf, by rw [hstay _ q hne hq]; exact hheld, hi, fun hc => ?_⟩
      have := hF0 hc
      rw [hF, hf] at this
      cases this
    by_cases he : e' = e
    · subst he
      rw [Function.update_self]
      by_cases hne : (e', some i) = (e', o')
      · rw [hne, Function.update_self]
        refine (hself i hne).imp_right ?_
        rintro ⟨p, f, ho, hf, hheld, hlt⟩
        refine ⟨p, f, ho, hf, hheld, hlt, fun hc => ?_⟩
        rw [hkept hc i] at hf
        cases hf
      · exact hother hne (htable i hne) fun hc => hkept hc i
    · rw [Function.update_of_ne he]
      apply hother (fun hc => he (congrArg Prod.fst hc)) rfl
      intro hc
      exact (h.no_table hc i).2

/-- `get_disk_page_directory` makes a directory. -/
theorem TablePages.newDirectory (h : TablePages s env page) (h0 : (env e).diskEnvPgdir = 0)
    (hr : kmalloc pageSize s = .ok va t) (hne : va ≠ 0) (hE : E.diskEnvPgdir = va)
    (hE' : E.diskTables = fun _ => none) :
    ∃ page', TablePages t (Function.update env e E) page' := by
  obtain ⟨p, f, hnew, rfl, hheap, -, -, hsame⟩ := h.heap.kmalloc hr hne
  have hnone : ∀ i, (env e).diskTables i = none := fun i => (h.no_table h0 i).2
  refine ⟨_, h.step (h.named hheap hnew (e, none)) ?_ ?_ ?_ ?_ ?_⟩
  · exact fun y q _ hq => hsame q fun hc => hnew ⟨y, hc ▸ hq⟩
  · exact .inr ⟨p, Function.update_self .., hE⟩
  · exact fun i _ => by rw [hE', hnone i]
  · exact fun i hi => absurd (congrArg Prod.snd hi) (by simp)
  · exact fun _ i => by rw [hE']

/-- `get_disk_page_table` makes a table. -/
theorem TablePages.newTable (h : TablePages s env page) (hd : (env e).diskEnvPgdir ≠ 0) (hi : i < pdx userTop)
    (hno : (env e).diskTables i = none) (hr : kmalloc pageSize s = .ok va t) (hne : va ≠ 0)
    (hE : E.diskEnvPgdir = (env e).diskEnvPgdir)
    (hE' : E.diskTables = Function.update (env e).diskTables i (some (kheapPhysicalAddress t va / 4096))) :
    ∃ page', TablePages t (Function.update env e E) page' := by
  obtain ⟨p, f, hnew, rfl, hheap, hheld, hphys, hsame⟩ := h.heap.kmalloc hr hne
  refine ⟨_, h.step (h.named hheap hnew (e, some i)) ?_ ?_ ?_ ?_ ?_⟩
  · exact fun y q _ hq => hsame q fun hc => hnew ⟨y, hc ▸ hq⟩
  · rw [Function.update_of_ne (by simp), hE]
    exact h.dir e
  · intro j hj
    rw [hE', Function.update_of_ne fun hc => hj (by rw [hc])]
  · intro j hj
    obtain rfl : j = i := by simpa using hj
    exact .inr ⟨p, f, rfl, by rw [hE', Function.update_self, hphys], hheld, hi⟩
  · exact fun hc => absurd (hE.symm.trans hc) hd

/-- `pf_free_env` gives a table back. -/
theorem TablePages.freeTable (h : TablePages s env page) (hf : (env e).diskTables i = some f)
    (hE : E.diskEnvPgdir = (env e).diskEnvPgdir) (hE' : E.diskTables = Function.update (env e).diskTables i none) :
    ∃ t page', kfree (kheapVirtualAddress s (f * 4096)) s = .ok () t ∧
      TablePages t (Function.update env e E) page' := by
  rcases h.table e i with ⟨-, hn⟩ | ⟨p, f', hp, hf', hheld, -, hd⟩
  · rw [hf] at hn
    cases hn
  obtain rfl : f' = f := Option.some.inj (hf'.symm.trans hf)
  rw [h.heap.virtual ⟨_, hp⟩ hheld]
  obtain ⟨t, hr, hheap, hsame⟩ := h.heap.kfree ⟨_, hp⟩
  refine ⟨t, _, hr, h.step (h.unnamed hp hheap) ?_ ?_ ?_ ?_ ?_⟩
  · exact fun y q hy hq => hsame q fun hc => hy (h.inj y _ p (hc ▸ hq) hp)
  · rw [Function.update_of_ne (by simp), hE]
    exact h.dir e
  · intro j hj
    rw [hE', Function.update_of_ne fun hc => hj (by rw [hc])]
  · intro j hj
    obtain rfl : j = i := by simpa using hj
    exact .inl ⟨rfl, by rw [hE', Function.update_self]⟩
  · exact fun hc => absurd (hE.symm.trans hc) hd

/-- `pf_free_env` gives the directory back. -/
theorem TablePages.freeDirectory (h : TablePages s env page) (hd : (env e).diskEnvPgdir ≠ 0)
    (hno : ∀ i, (env e).diskTables i = none) (hE : E.diskEnvPgdir = 0) (hE' : E.diskTables = (env e).diskTables) :
    ∃ t page', kfree (env e).diskEnvPgdir s = .ok () t ∧ TablePages t (Function.update env e E) page' := by
  obtain ⟨p, hp, hdir⟩ := (h.dir e).resolve_left fun hc => hd hc.2
  rw [hdir]
  obtain ⟨t, hr, hheap, hsame⟩ := h.heap.kfree ⟨_, hp⟩
  refine ⟨t, _, hr, h.step (h.unnamed hp hheap) ?_ ?_ ?_ ?_ ?_⟩
  · exact fun y q hy hq => hsame q fun hc => hy (h.inj y _ p (hc ▸ hq) hp)
  · exact .inl ⟨Function.update_self .., hE⟩
  · exact fun i _ => by rw [hE']
  · exact fun i hi => absurd (congrArg Prod.snd hi) (by simp)
  · exact fun _ i => by rw [hE', hno i]

end TablePages

end Fos.Disk
