/-
Sharing one frame again and again: `get_shared_object` maps the frames of an object at any fresh range of
the user heap, and a process has `131072` pages there, twice what `references` can count.
-/
import Fos.Memory.ReferenceWraps
import Fos.Shared.LargeObject

namespace Fos.Memory

open Fos.Lib Fos.Heap Fos.Shared

namespace MemRun

/-- In every state of a run no count is too small and no entry holds a free frame, exactly when each
`map_frame` of the run finds room for its reference. -/
theorem reference_wraps (pool : Finset Nat) (h : MemRun) (hI : h.Sound pool) (cs : List MemCall) :
    Always Step (Safe pool) h cs ↔ Each Step Fitting h cs :=
  always_iff_each (fun _ hI => hI.safe) Sound.step Sound.fitting hI

theorem reference_wraps_machine : ∃ s, kheapInit (unusedKernel machine) = .ok s ∧
    (Always Step (Safe machine.freeFrameList.toFinset) ⟨s, []⟩
      [.allocateFrame, .mapFrame 0 1027 1015900 {}, .unmapFrame 0 1015900] ↔
      Each Step Fitting ⟨s, []⟩ [.allocateFrame, .mapFrame 0 1027 1015900 {}, .unmapFrame 0 1015900]) := by
  obtain ⟨s, hs⟩ : ∃ s, kheapInit (unusedKernel machine) = .ok s := ⟨_, rfl⟩
  have hI := inv_init machine_booted hs fun d hd => by
    obtain rfl : d = 0 := Finset.mem_singleton.1 hd
    exact machine_booted.lower
  exact ⟨s, hs, reference_wraps _ _ hI.sound _⟩

/-! ## A frame mapped `65537` times -/

section Wrap

variable {k : Nat} {h : MemRun}

/-- The entries of the large machine are those of directory `1`'s page tables. -/
theorem large_entry {a : Nat × Nat} {f : Nat} (ha : a ∈ slots largeMemory) (hf : entry largeMemory a = some f) :
    a.1 = 0 ∧ 1015809 ≤ a.2 ∧ a.2 < 1016764 ∧ f = 1024 + (a.2 - 1015809) := by
  rw [entry_eq ha] at hf
  split at hf
  · rename_i ht
    by_cases hmap : a.1 = 0 ∧ 1015809 ≤ a.2 ∧ a.2 < 1016764
    · have hp : largeMemory.pte a = ⟨1024 + (a.2 - 1015809), { present := true, writeable := true }⟩ := by
        simp only [largeMemory]
        rw [if_neg (by omega), if_pos hmap]
      rw [hp] at hf
      obtain ⟨h1, h2, h3⟩ := hmap
      refine ⟨h1, h2, h3, ?_⟩
      simpa [Pte.held] using hf.symm
    · have hp : largeMemory.pte a = {} := by
        simp only [largeMemory]
        rw [if_neg, if_neg hmap]
        rcases mem_slots.1 ha with ⟨-, h⟩ | ⟨-, h, -⟩ <;> omega
      rw [hp] at hf
      cases hf
  · cases hf

theorem large_guards : Guards (Finset.Ico 1024 786432) [] largeMemory := by
  have hfree : ∀ f, f ∈ (ledger largeMemory).free ↔ 1979 ≤ f ∧ f < 786432 := by
    intro f
    simp only [ledger, largeMemory, List.mem_range'_1]
  have hcount : ∀ f, holders (slots largeMemory) (entry largeMemory) f ≤ 1 := by
    intro f
    apply Finset.card_le_one.2
    intro a ha b hb
    obtain ⟨ha, hfa⟩ := Finset.mem_filter.1 ha
    obtain ⟨hb, hfb⟩ := Finset.mem_filter.1 hb
    obtain ⟨ha1, ha2, -, ha3⟩ := large_entry ha hfa
    obtain ⟨hb1, hb2, -, hb3⟩ := large_entry hb hfb
    exact Prod.ext (ha1.trans hb1.symm) (by omega)
  have hnone : ∀ f, 1979 ≤ f → holders (slots largeMemory) (entry largeMemory) f = 0 := by
    intro f hf
    refine Finset.card_eq_zero.2 (Finset.filter_eq_empty_iff.2 fun a ha hfa => ?_)
    obtain ⟨-, h1, h2, h3⟩ := large_entry ha hfa
    omega
  have hrefs : ∀ f, (largeMemory.framesInfo f).references = if f < 1979 then 1 else 0 := by
    intro f
    simp only [largeMemory]
    by_cases h1 : f < 1024
    · rw [if_pos h1, if_pos (by omega)]
    · rw [if_neg h1]
      split <;> rfl
  refine ⟨⟨fun f _ => ?_, fun f hf => ?_, fun a ha f hf => ?_, List.nodup_range', fun f hf => ?_, .nil,
    fun f hf => absurd hf List.not_mem_nil, fun f hf => absurd hf List.not_mem_nil⟩, fun f _ => ?_, fun a ha hne => ?_,
    fun h0 => ?_⟩
  · refine le_of_le_of_eq ?_ (hrefs f).symm
    split
    · exact hcount f
    · rename_i hf
      exact (hnone f (not_lt.1 hf)).le
  · exact ⟨hnone f ((hfree f).1 hf).1, List.not_mem_nil⟩
  · obtain ⟨-, h1, h2, h3⟩ := large_entry ha hf
    rw [Finset.mem_Ico]
    omega
  · obtain ⟨h1, h2⟩ := (hfree f).1 hf
    rw [Finset.mem_Ico]
    omega
  · apply lt_of_eq_of_lt (hrefs f)
    split <;> decide
  · obtain ⟨f, hf⟩ := Option.ne_none_iff_exists'.1 hne
    obtain ⟨h1, h2, h3, -⟩ := large_entry ha hf
    show (largeMemory.pte a).perm.buffered = false
    simp only [largeMemory]
    rw [if_neg (by omega), if_pos ⟨h1, h2, h3⟩]
  · rw [Finset.mem_Ico] at h0
    omega

/-- Frame `1979` after `k` maps from page `524288` of directory `1` on. -/
structure Mapped (k : Nat) (h : MemRun) : Prop where
  table : h.kernel.mem.table = largeMemory.table
  dirs : h.kernel.mem.dirs = largeMemory.dirs
  references : (h.kernel.mem.framesInfo 1979).references = k % 65536
  entries : ∀ j < k, entry h.kernel.mem (1, 524288 + j) = some 1979
  empty : ∀ j, k ≤ j → (h.kernel.mem.pte (1, 524288 + j)).perm.present = false
  notBuffered : ∀ j, (h.kernel.mem.pte (1, 524288 + j)).perm.buffered = false
  held : k = 0 → 1979 ∈ h.held

theorem Mapped.slot (hM : Mapped k h) {j : Nat} (hj : j < 131072) :
    (1, 524288 + j) ∈ slots h.kernel.mem ∧ (h.kernel.mem.table 1 ((524288 + j) / 1024)).isSome := by
  constructor
  · rw [slots_congr hM.dirs]
    exact mem_slots.2 (.inl ⟨show 1 ∈ largeMemory.dirs by decide, show 524288 + j < 977920 by omega⟩)
  · rw [hM.table]
    simp only [largeMemory]
    rw [if_neg (by decide), if_pos ⟨trivial, by omega⟩]
    rfl

/-- One more map. -/
theorem Mapped.next (hM : Mapped k h) (hk : k < 131072) :
    ∃ h', Step h (.mapFrame 1 1979 (524288 + k) createPerm) h' ∧ Mapped (k + 1) h' := by
  obtain ⟨ha, ht⟩ := hM.slot hk
  have hheld : 1979 ∈ h.held ∨ 0 < holders (slots h.kernel.mem) (entry h.kernel.mem) 1979 := by
    rcases Nat.eq_zero_or_pos k with rfl | hpos
    · exact .inl (hM.held rfl)
    · exact .inr (holders_pos (hM.slot (by decide : 0 < 131072)).1 (hM.entries 0 hpos))
  have htab : (h.kernel.mem.table (owner 1 ((524288 + k) * 4096)) (pdx ((524288 + k) * 4096))).isSome := by
    rw [owner_slot ha, pdx_page]
    exact ht
  have hmap : mapFrame 1 1979 ((524288 + k) * 4096) createPerm h.kernel = _ := mapFrame_there htab
  have hlink : (h.kernel.mem.setFrameVa 1979 ((524288 + k) * 4096)).enterFrame 1 1979 ((524288 + k) * 4096) createPerm =
      (h.kernel.mem.setFrameVa 1979 ((524288 + k) * 4096)).linkFrame 1 1979 ((524288 + k) * 4096) createPerm := by
    rw [Mem.enterFrame, slot_slot (a := (1, 524288 + k)) ha, if_neg]
    exact fun hc => absurd ((hM.empty k le_rfl).symm.trans hc) (by decide)
  rw [hlink] at hmap
  obtain ⟨href, hent⟩ := link_eq (m := h.kernel.mem.setFrameVa 1979 ((524288 + k) * 4096)) (a := (1, 524288 + k)) 1979
    createPerm ha ht
  generalize hm : (h.kernel.mem.setFrameVa 1979 ((524288 + k) * 4096)).linkFrame 1 1979
    ((524288 + k) * 4096) createPerm = m₁ at *
  refine ⟨⟨{ h.kernel with mem := m₁ }, h.held.erase 1979⟩, ⟨⟨ha, rfl, hheld⟩, by simp only [call, hmap]⟩,
    hm ▸ hM.table, hm ▸ hM.dirs, ?_, fun j hj => ?_, fun j hj => ?_, fun j => ?_,
      fun hc => absurd hc (Nat.succ_ne_zero k)⟩
  · refine (href 1979).trans ?_
    rw [if_pos rfl, setFrameVa_references, hM.references]
    omega
  · refine (hent _ (hM.slot (by omega)).1).trans ?_
    rw [Function.update_apply]
    split
    · rfl
    · rename_i hne
      exact hM.entries j (by have : j ≠ k := fun he => hne (he ▸ rfl); omega)
  · have hne : ((1, 524288 + j) : Nat × Nat) ≠ (1, 524288 + k) := by
      intro he
      have := congrArg Prod.snd he
      simp only at this
      omega
    show (m₁.pte (1, 524288 + j)).perm.present = false
    rw [← hm]
    simp only [Mem.linkFrame, slot_slot (a := (1, 524288 + k)) ha, Mem.setPte_pte, Mem.setFrame_pte, if_neg hne]
    exact hM.empty j (by omega)
  · show (m₁.pte (1, 524288 + j)).perm.buffered = false
    rw [← hm]
    simp only [Mem.linkFrame, slot_slot (a := (1, 524288 + k)) ha, Mem.setPte_pte, Mem.setFrame_pte]
    split
    · simp only [createPerm, Perm.permPresent, Perm.union_buffered, Perm.available_buffered, Bool.or_false]
      exact hM.notBuffered k
    · exact hM.notBuffered j

/-- A run that maps the frame `n` more times. -/
theorem Mapped.run {P : MemRun → Prop} {cs : List MemCall} :
    ∀ (n : Nat) {k : Nat} {h : MemRun}, Mapped k h → k + n ≤ 131072 →
    Always Step P h ((List.range' k n).map (fun j => .mapFrame 1 1979 (524288 + j) createPerm) ++ cs) →
    ∃ h', Mapped (k + n) h' ∧ Always Step P h' cs
  | 0, k, h, hM, _, hr => ⟨h, hM, hr⟩
  | n + 1, k, h, hM, hk, hr => by
    obtain ⟨h₁, hs, hM₁⟩ := hM.next (by omega)
    obtain ⟨h', hM', hr'⟩ := Mapped.run n hM₁ (by omega) (hr.2 h₁ hs)
    exact ⟨h', by rwa [show k + (n + 1) = k + 1 + n by omega], hr'⟩

/-- Directory `1` maps one frame at `65537` pages of its user heap and unmaps the first: the count goes
round to `1`, and the frame is free while `65536` entries map it. -/
theorem reference_count_wraps : Sound (Finset.Ico 1024 786432) ⟨largeKernel, []⟩ ∧
    ¬ Always Step (Safe (Finset.Ico 1024 786432)) ⟨largeKernel, []⟩
      (.allocateFrame :: ((List.range' 0 65537).map (fun j => .mapFrame 1 1979 (524288 + j) createPerm) ++
        [.unmapFrame 1 524288])) := by
  refine ⟨⟨large_guards, largeKernel_ready.heap⟩, fun hrun => ?_⟩
  obtain ⟨h₀, hs₀, hM₀⟩ : ∃ h₀, Step ⟨largeKernel, []⟩ .allocateFrame h₀ ∧ Mapped 0 h₀ := by
    have hlist : largeKernel.mem.freeFrameList = 1979 :: List.range' 1980 784452 := rfl
    have hlen : largeKernel.mem.freeFrameList.length = 784453 := List.length_range'
    obtain ⟨f, m₁, ha, -⟩ := allocateFrame_returns (m := largeKernel.mem) (by omega)
    obtain ⟨hf, hp, ht, hd, hi⟩ := allocateFrame_ok ha
    obtain rfl : 1979 = f := (List.cons.inj (hlist.symm.trans hf)).1
    have hempty : ∀ j, m₁.pte (1, 524288 + j) = {} := by
      intro j
      rw [hp]
      show largeMemory.pte (1, 524288 + j) = {}
      simp [largeMemory]
    refine ⟨⟨{ largeKernel with mem := m₁ }, [1979]⟩, ⟨trivial, by simp only [call, ha]⟩, ht, hd, by
      rw [hi, if_pos rfl],
      fun j hj => absurd hj (Nat.not_lt_zero j), fun j _ => ?_, fun j => ?_, fun _ => List.mem_cons_self⟩
    · exact congrArg (fun e => e.perm.present) (hempty j)
    · exact congrArg (fun e => e.perm.buffered) (hempty j)
  obtain ⟨h, hM, hrun⟩ := hM₀.run 65537 (by decide) (hrun.2 h₀ hs₀)
  obtain ⟨ha, -⟩ := hM.slot (j := 0) (by decide)
  obtain ⟨hb, -⟩ := hM.slot (j := 1) (by decide)
  have hone : (h.kernel.mem.framesInfo 1979).references = 1 := hM.references
  have hmap : entry h.kernel.mem (1, 524288) = some 1979 := hM.entries 0 (by decide)
  have hsafe := (hrun.2 _ ⟨ha, rfl⟩).head 1979 (Finset.mem_Ico.2 ⟨by decide, by decide⟩)
  have hU : Unmaps h.kernel.mem (1, 524288) 1979 (h.kernel.mem.unmapFrame 1 (524288 * 4096)) :=
    unmaps_of ha hmap (by omega) (by omega) (hM.notBuffered 0)
  have hfree : 1979 ∈ (h.kernel.mem.unmapFrame 1 (524288 * 4096)).freeFrameList := by
    rw [hU.free, hone]
    exact List.mem_cons_self
  have hentry : entry (h.kernel.mem.unmapFrame 1 (524288 * 4096)) (1, 524289) = some 1979 := by
    rw [hU.entries _ hb, Function.update_of_ne (by decide)]
    exact hM.entries 1 (by decide)
  exact (holders_pos (hU.slots ▸ hb) hentry).ne' (hsafe.2 hfree)

end Wrap

end MemRun

end Fos.Memory
