/-
Runs of calls on the page file by any number of processes. As long as `pf_free_env` is only called for
processes that have a disk page directory, the page file is a map from pages of processes to contents,
and no disk frame is lost or used twice.
-/
import Fos.Disk.PageMap
import Fos.Lib.Trace

namespace Fos.Disk

open Fos.Memory Fos.Heap Fos.Proc Fos.Lib

/-! ## Runs -/

/-- The kernel with all its processes, the map that the calls so far have made, and whether a call has
stopped the kernel. -/
structure PageFileRun where
  kernel : Kernel
  env : Nat → Env
  frames : Nat → Page
  pageFile : PageFile
  contents : DiskMap
  halted : Bool

/-- A call for process `e`; `elsewhere` is what the processes and the rest of the kernel do between calls. -/
inductive DiskCall where
  | add (e va : Nat) (dataSrc : Page)
  | addEmpty (e va : Nat) (initializeByZero : Bool)
  | update (e va : Nat)
  | read (e va : Nat)
  | remove (e va : Nat)
  | free (e : Nat)
  | elsewhere (kernel : Kernel) (env : Nat → Env) (frames : Nat → Page)

/-- Process `e` on the machine. -/
def PageFileRun.machine (w : PageFileRun) (e : Nat) : Machine := ⟨w.kernel, w.env e, w.frames, w.pageFile⟩

/-- A call for process `e` has left `s`, and the map is `m` now. -/
def PageFileRun.put (w : PageFileRun) (e : Nat) (s : Machine) (m : DiskMap) : PageFileRun :=
  { w with
    kernel := s.kernel
    env := Function.update w.env e s.env
    frames := s.frames
    pageFile := s.pageFile
    contents := m }

/-- Addresses are of user pages, and a page that is updated is mapped. What happens elsewhere leaves the
tables of the page file alone. -/
def PageFileRun.Legal (w : PageFileRun) : DiskCall → Prop
  | .add _ va _ | .addEmpty _ va _ | .read _ va | .remove _ va => va < userTop
  | .update e va => va < userTop ∧ (w.kernel.mem.getFrameInfo (w.env e).envPageDirectory va).isSome
  | .free _ => True
  | .elsewhere kernel env _ => (∀ e, (env e).diskEnvPgdir = (w.env e).diskEnvPgdir ∧
      (env e).diskTables = (w.env e).diskTables ∧ (env e).diskPages = (w.env e).diskPages) ∧
      ∀ page, TablePages w.kernel w.env page → TablePages kernel env page

/-- The state after a call that returns, with the map changed as the call says; `pf_free_env`, which takes
nothing from `kmalloc`, is followed also where it stops. -/
def PageFileRun.call (w : PageFileRun) : DiskCall → Option PageFileRun
  | .add e va dataSrc =>
    match pfAddEnvPage va dataSrc (w.machine e) with
    | .ok r s => some (w.put e s (if r then w.contents.store (e, va / 4096) dataSrc else w.contents))
    | .error _ _ => none
  | .addEmpty e va initializeByZero =>
    match pfAddEmptyEnvPage va initializeByZero (w.machine e) with
    | .ok r s => some (w.put e s (if r then (if initializeByZero then w.contents.store (e, va / 4096) zeroPage
        else w.contents.claim (e, va / 4096)) else w.contents))
    | .error _ _ => none
  | .update e va =>
    match pfUpdateEnvPage va (w.machine e) with
    | .ok _ s => some (w.put e s (w.contents.store (e, va / 4096) (w.frames ((w.machine e).pte va).frame)))
    | .error _ _ => none
  | .read e va =>
    match pfReadEnvPage va (w.machine e) with
    | .ok _ s => some (w.put e s w.contents)
    | .error _ _ => none
  | .remove e va =>
    match pfRemoveEnvPage va (w.machine e) with
    | .ok _ s => some (w.put e s (w.contents.remove (e, va / 4096)))
    | .error _ _ => none
  | .free e =>
    match pfFreeEnv (w.machine e) with
    | .ok _ s => some (w.put e s (w.contents.removeAll e))
    | .error _ s => some { w.put e s w.contents with halted := true }
  | .elsewhere kernel env frames => some { w with kernel, env, frames }

def DiskStep (w : PageFileRun) (c : DiskCall) (w' : PageFileRun) : Prop :=
  w.halted = false ∧ w.Legal c ∧ w.call c = some w'

/-- The entries are those of the map and their disk frames hold its contents; each disk frame is on the free
list or in one entry. -/
structure PageFileRun.Ok (w : PageFileRun) : Prop where
  running : w.halted = false
  entries : ∀ e v, (w.contents (e, v)).isSome ↔ diskEntry (w.env e) v ≠ 0
  stored : ∀ e v p, w.contents (e, v) = some (some p) → w.pageFile.disk (diskEntry (w.env e) v) = p
  nodup : w.pageFile.diskFreeFrameList.Nodup
  frames : ∀ f, 1 ≤ f → f < pagesPerFile →
    (f ∈ w.pageFile.diskFreeFrameList ∧ ∀ e v, diskEntry (w.env e) v ≠ f) ∨
    (f ∉ w.pageFile.diskFreeFrameList ∧ ∃! x : Nat × Nat, diskEntry (w.env x.1) x.2 = f)

/-- The process that a call is for. -/
def DiskCall.process : DiskCall → Option Nat
  | .add e _ _ | .addEmpty e _ _ | .update e _ | .read e _ | .remove e _ | .free e => some e
  | .elsewhere _ _ _ => none

/-- A read returns what the map holds, and a call changes nothing of another process in the page file. -/
structure PageFileRun.Right (w : PageFileRun) (c : DiskCall) : Prop where
  read : ∀ e va r s, c = .read e va → pfReadEnvPage va (w.machine e) = .ok r s →
    r = (w.contents (e, va / 4096)).isSome ∧
      ∀ p, w.contents (e, va / 4096) = some (some p) → s.present va = true ∧ s.frames (s.pte va).frame = p
  others : ∀ w', w.call c = some w' → ∀ e v, c.process ≠ some e →
    w'.contents (e, v) = w.contents (e, v) ∧ diskEntry (w'.env e) v = diskEntry (w.env e) v ∧
      (diskEntry (w.env e) v ≠ 0 → w'.pageFile.disk (diskEntry (w.env e) v) = w.pageFile.disk (diskEntry (w.env e) v))

/-- `pf_free_env` is called for a process that has a disk page directory. -/
def PageFileRun.Freeable (w : PageFileRun) (c : DiskCall) : Prop := ∀ e, c = .free e → (w.env e).diskEnvPgdir ≠ 0

/-- The page file after `initialize_disk_page_file`, before any process has an entry. -/
structure PageFileRun.Fresh (w : PageFileRun) : Prop where
  running : w.halted = false
  heap : PageHeap w.kernel ∅
  tables : ∀ e, (w.env e).diskEnvPgdir = 0 ∧ ∀ i, (w.env e).diskTables i = none
  pageFile : w.pageFile = initializeDiskPageFile w.pageFile.disk
  contents : w.contents = fun _ => none

/-! ## The invariant -/

/-- The page file is the map that the calls have made. -/
structure PageFileRun.Inv (w : PageFileRun) : Prop where
  running : w.halted = false
  represents : ∀ e, Represents w.env e w.contents (w.machine e)

section Inv

variable {w w' : PageFileRun} {e : Nat} {m : DiskMap} {s : Machine} {c : DiskCall}

theorem Represents.put (hr : w.halted = false) (h : Represents w.env e m s) : (w.put e s m).Inv := by
  refine ⟨hr, fun e' => ?_⟩
  have hself : Function.update (w.put e s m).env e' ((w.put e s m).machine e').env = Function.update w.env e s.env :=
    Function.update_eq_self ..
  obtain ⟨page, hT⟩ := h.tables
  refine ⟨⟨page, ?_⟩, ?_, ?_⟩
  · rw [hself]
    exact hT
  · rw [hself]
    exact h.backed
  · rw [hself]
    exact h.stores

/-- The map as the processes share it. -/
theorem PageFileRun.Inv.cells (h : w.Inv) (e : Nat) : Backed diskPool (diskCell w.env) w.pageFile.diskFreeFrameList ∧
    Stores (diskCell w.env) w.pageFile.disk w.contents := by
  have hR := h.represents e
  have hself : Function.update w.env e (w.machine e).env = w.env := Function.update_eq_self ..
  have hB := hR.backed
  have hS := hR.stores
  rw [hself] at hB hS
  exact ⟨hB, hS⟩

theorem diskCell_eq {env : Nat → Env} {x : Nat × Nat} {f : Nat} (hf : f ≠ 0) :
    diskCell env x = some f ↔ diskEntry (env x.1) x.2 = f := by
  unfold diskCell
  split
  · rename_i h0
    rw [h0]
    simp [hf.symm]
  · simp

theorem PageFileRun.Inv.ok (h : w.Inv) : w.Ok := by
  obtain ⟨hB, hS⟩ := h.cells 0
  constructor
  · exact h.running
  · intro e v
    rw [Option.isSome_iff_ne_none, ne_eq, hS.dom, diskCell]
    split
    · rename_i h0
      simp only at h0
      simp [h0]
    · rename_i h0
      simp only at h0
      simp [h0]
  · intro e v p hp
    have hne : diskCell w.env (e, v) ≠ none := by
      intro hc
      rw [(hS.dom _).2 hc] at hp
      cases hp
    refine hS.val (e, v) _ p ?_ hp
    unfold diskCell at hne ⊢
    split
    · rename_i h0
      rw [if_pos h0] at hne
      exact absurd rfl hne
    · rfl
  · exact hB.nodup
  · intro f h1 h2
    have hf : f ≠ 0 := by omega
    rcases hB.exactly (k := f) ⟨h1, h2⟩ with ⟨hfree, hno⟩ | ⟨hfree, x, hx, huniq⟩
    · exact .inl ⟨hfree, fun e v hc => hno (e, v) ((diskCell_eq hf).2 hc)⟩
    · exact .inr ⟨hfree, x, (diskCell_eq hf).1 hx, fun y hy => huniq y ((diskCell_eq hf).2 hy)⟩

/-- A call that returns has changed the map at its own process. -/
theorem PageFileRun.Inv.returns (h : w.Inv) (hl : w.Legal c) (hF : w.Freeable c) (hc : w.call c = some w')
    (he : c.process = some e) : ∃ s m, w' = w.put e s m ∧ Represents w.env e m s ∧ Spares w.env e (w.machine e) s ∧
      ∀ x : Nat × Nat, x.1 ≠ e → m x = w.contents x := by
  have hR := h.represents e
  have hx : ∀ {x : Nat × Nat} {v : Nat}, x.1 ≠ e → x ≠ (e, v) := fun hne hc => hne (congrArg Prod.fst hc)
  cases c with
  | add e va p =>
    cases he
    simp only [PageFileRun.call] at hc
    split at hc
    · rename_i r s hr
      cases hc
      obtain ⟨hm, hs⟩ := pfAddEnvPage_represents hR hl hr
      refine ⟨_, _, rfl, hm, hs, fun x hne => ?_⟩
      split
      · exact DiskMap.store_other (hx hne) _
      · rfl
    · cases hc
  | addEmpty e va b =>
    cases he
    simp only [PageFileRun.call] at hc
    split at hc
    · rename_i r s hr
      cases hc
      obtain ⟨hm, hs⟩ := pfAddEmptyEnvPage_represents hR hl hr
      refine ⟨_, _, rfl, hm, hs, fun x hne => ?_⟩
      split
      · split
        · exact DiskMap.store_other (hx hne) _
        · exact DiskMap.claim_other (hx hne)
      · rfl
    · cases hc
  | update e va =>
    cases he
    simp only [PageFileRun.call] at hc
    split at hc
    · rename_i r s hr
      cases hc
      obtain ⟨hm, hs⟩ := pfUpdateEnvPage_represents hR hl.1 hr
      exact ⟨_, _, rfl, hm, hs, fun x hne => DiskMap.store_other (hx hne) _⟩
    · cases hc
  | read e va =>
    cases he
    simp only [PageFileRun.call] at hc
    split at hc
    · rename_i r s hr
      cases hc
      obtain ⟨hm, -, hp, -⟩ := pfReadEnvPage_represents hR hl hr
      exact ⟨_, _, rfl, hm, .of_disk (by rw [hp]), fun x _ => rfl⟩
    · cases hc
  | remove e va =>
    cases he
    simp only [PageFileRun.call] at hc
    split at hc
    · rename_i r s hr
      cases hc
      obtain ⟨hm, hd⟩ := pfRemoveEnvPage_represents hR hr
      exact ⟨_, _, rfl, hm, .of_disk hd, fun x hne => DiskMap.remove_other (hx hne)⟩
    · cases hc
  | free e =>
    cases he
    obtain ⟨s, hr, hm, hd⟩ := hR.pfFreeEnv (hF e rfl)
    simp only [PageFileRun.call, hr] at hc
    cases hc
    exact ⟨_, _, rfl, hm, .of_disk hd, fun x hne => DiskMap.removeAll_other hne⟩
  | elsewhere => cases he

/-- What happens elsewhere leaves the page file as it is. -/
theorem PageFileRun.Inv.elsewhere {kernel : Kernel} {env : Nat → Env} {frames : Nat → Page} (h : w.Inv)
    (hl : w.Legal (.elsewhere kernel env frames)) :
    PageFileRun.Inv { w with kernel, env, frames } ∧ ∀ e v, diskEntry (env e) v = diskEntry (w.env e) v := by
  obtain ⟨hdisk, hT⟩ := hl
  have hentry : ∀ e v, diskEntry (env e) v = diskEntry (w.env e) v := by
    intro e v
    obtain ⟨h1, h2, h3⟩ := hdisk e
    simp only [diskEntry, h1, h2, h3]
  have hcell : diskCell env = diskCell w.env := by
    funext x
    simp only [diskCell, hentry]
  refine ⟨⟨h.running, fun e => ?_⟩, hentry⟩
  have hself : ∀ env : Nat → Env, Function.update env e (env e) = env := fun env => Function.update_eq_self ..
  obtain ⟨hB, hS⟩ := h.cells e
  obtain ⟨page, hpage⟩ := (h.represents e).tables
  have hpage : TablePages w.kernel (Function.update w.env e (w.env e)) page := hpage
  rw [hself] at hpage
  refine ⟨⟨page, ?_⟩, ?_, ?_⟩
  · show TablePages kernel (Function.update env e (env e)) page
    rw [hself]
    exact hT page hpage
  · show Backed diskPool (diskCell (Function.update env e (env e))) _
    rw [hself, hcell]
    exact hB
  · show Stores (diskCell (Function.update env e (env e))) _ _
    rw [hself, hcell]
    exact hS

/-- One call: it does what the map says and leaves the other processes alone. -/
theorem PageFileRun.Inv.step (h : w.Inv) (hF : w.Freeable c) (hs : DiskStep w c w') : w.Right c ∧ w'.Inv := by
  obtain ⟨-, hl, hc⟩ := hs
  have hread : ∀ e va r s, c = .read e va → pfReadEnvPage va (w.machine e) = .ok r s →
      r = (w.contents (e, va / 4096)).isSome ∧
        ∀ p, w.contents (e, va / 4096) = some (some p) → s.present va = true ∧ s.frames (s.pte va).frame = p := by
    rintro e va r s rfl hr
    exact (pfReadEnvPage_represents (h.represents e) hl hr).2.2.2
  cases he : c.process with
  | none =>
    cases c with
    | elsewhere kernel env frames =>
      obtain ⟨hI, hentry⟩ := h.elsewhere hl
      cases hc
      refine ⟨⟨hread, fun w' hw' e v _ => ?_⟩, hI⟩
      cases hw'
      exact ⟨rfl, hentry e v, fun _ => rfl⟩
    | _ => cases he
  | some e =>
    obtain ⟨s, m, rfl, hm, hsp, hmap⟩ := h.returns hl hF hc he
    refine ⟨⟨hread, fun w'' hw'' e' v hne => ?_⟩, hm.put h.running⟩
    obtain rfl : w.put e s m = w'' := Option.some.inj (hc.symm.trans hw'')
    have hne : e' ≠ e := fun hc => hne (by rw [he, hc])
    refine ⟨hmap (e', v) hne, ?_, fun h0 => ?_⟩
    · show diskEntry (Function.update w.env e s.env e') v = _
      rw [Function.update_of_ne hne]
    · exact hsp (e', v) _ hne ((diskCell_eq h0).2 rfl)

/-- `pf_free_env` without a directory stops the kernel. -/
theorem PageFileRun.freeable_of_running (hs : DiskStep w c w') (hr : w'.halted = false) : w.Freeable c := by
  rintro e rfl hd
  obtain ⟨-, -, hc⟩ := hs
  simp only [PageFileRun.call, pfFreeEnv_faults (w.machine e) hd] at hc
  cases hc
  cases hr

end Inv

theorem mem_diskPool {f : Nat} : f ∈ diskPool ↔ 1 ≤ f ∧ f < pagesPerFile := Iff.rfl

theorem PageFileRun.Fresh.inv {w : PageFileRun} (h : w.Fresh) : w.Inv := by
  have hcell : diskCell w.env = fun _ => none := by
    funext x
    rw [diskCell, diskEntry, if_pos (h.tables x.1).1, if_pos rfl]
  have hfree : w.pageFile.diskFreeFrameList = (List.range' 1 (pagesPerFile - 1)).reverse := by
    rw [h.pageFile, initializeDiskPageFile]
  refine ⟨h.running, fun e => ?_⟩
  have hself : Function.update w.env e (w.machine e).env = w.env := Function.update_eq_self ..
  refine ⟨⟨fun _ => none, ?_⟩, ?_, ?_⟩
  · rw [hself]
    constructor
    · exact h.heap.mono (by rintro p ⟨x, hx⟩; cases hx)
    · intro x y p hx
      cases hx
    · exact fun e => .inl ⟨rfl, (h.tables e).1⟩
    · exact fun e i => .inl ⟨rfl, (h.tables e).2 i⟩
  · rw [hself, hcell]
    have hmem : ∀ f, f ∈ (w.machine e).pageFile.diskFreeFrameList ↔ f ∈ diskPool := by
      intro f
      show f ∈ w.pageFile.diskFreeFrameList ↔ _
      rw [hfree, List.mem_reverse, List.mem_range'_1, mem_diskPool]
      simp only [pagesPerFile, pageSize]
    constructor
    · show w.pageFile.diskFreeFrameList.Nodup
      rw [hfree]
      exact List.nodup_reverse.2 List.nodup_range'
    · exact fun f hf => (hmem f).1 hf
    · intro x f hx
      cases hx
    · intro x y f hx
      cases hx
    · exact fun f hf => .inl ((hmem f).2 hf)
  · rw [hself, hcell]
    constructor
    · intro x
      show w.contents x = none ↔ _
      rw [h.contents]
      simp
    · intro x f p hx
      cases hx

/-- In every run the page file is the map that the calls make, and no call stops the kernel, exactly when
`pf_free_env` is only called for processes that have a disk page directory. -/
theorem page_file_map (w : PageFileRun) (hw : w.Fresh) (cs : List DiskCall) :
    Always DiskStep PageFileRun.Ok w cs ∧ Each DiskStep PageFileRun.Right w cs ↔
      Each DiskStep PageFileRun.Freeable w cs :=
  always_each_iff (fun _ hI => hI.ok) (fun _ _ _ hI hF hs => hI.step hF hs)
    (fun _ _ _ _ hs _ hP => PageFileRun.freeable_of_running hs hP.running) hw.inv

/-- A machine whose page file no process has used. -/
def unusedPageFile (kernel : Kernel) : PageFileRun :=
  ⟨kernel, fun _ => { envPageDirectory := 1, pageWsMaxSize := 10 }, fun _ => zeroPage,
    initializeDiskPageFile fun _ => zeroPage, fun _ => none, false⟩

theorem unusedPageFile_fresh {s : Kernel} (hinit : kheapInit (unusedKernel Heap.machine) = .ok s) :
    (unusedPageFile s).Fresh := by
  constructor
  · rfl
  · exact kheapInit_pages machine_booted hinit
  · exact fun e => ⟨rfl, fun i => rfl⟩
  · rfl
  · rfl

theorem page_file_map_machine : ∃ s, kheapInit (unusedKernel Heap.machine) = .ok s ∧
    (Always DiskStep PageFileRun.Ok (unusedPageFile s) [.add 7 8388608 zeroPage, .remove 7 8388608, .free 7] ∧
      Each DiskStep PageFileRun.Right (unusedPageFile s) [.add 7 8388608 zeroPage, .remove 7 8388608, .free 7] ↔
      Each DiskStep PageFileRun.Freeable (unusedPageFile s) [.add 7 8388608 zeroPage, .remove 7 8388608, .free 7]) :=
  ⟨_, rfl, page_file_map (unusedPageFile _) (unusedPageFile_fresh rfl) _⟩

/-- `pf_free_env` for a process that has no page in the page file. -/
theorem free_without_directory : ∃ w w', PageFileRun.Fresh w ∧ DiskStep w (.free 7) w' ∧ ¬ w'.Ok ∧
    ¬ ∃ s, pfFreeEnv (w.machine 7) = .ok () s := by
  obtain ⟨s, hs⟩ : ∃ s, kheapInit (unusedKernel Heap.machine) = .ok s := ⟨_, rfl⟩
  have hfault := pfFreeEnv_faults ((unusedPageFile s).machine 7) rfl
  refine ⟨unusedPageFile s, { (unusedPageFile s).put 7 ((unusedPageFile s).machine 7)
    (unusedPageFile s).contents with halted := true }, unusedPageFile_fresh hs, ⟨rfl, trivial, ?_⟩, fun h => ?_, ?_⟩
  · simp only [PageFileRun.call, hfault]
  · have hr : true = false := h.running
    cases hr
  · rintro ⟨t, ht⟩
    rw [hfault] at ht
    cases ht

end Fos.Disk
