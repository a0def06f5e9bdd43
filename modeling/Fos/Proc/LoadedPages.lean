/-
What the loader leaves in memory: each page it maps gets a frame of its own from the free list, and the bytes it
copies through the mappings are found there again. Nothing of it reaches the page file.
-/
import Fos.Proc.Loader
import Fos.Disk.PageMap
import Fos.Heap.HeldFrames
import Fos.Memory.KernelReady

namespace Fos.Proc

open Fos.Memory Fos.Heap Fos.Disk Fos.Lib

/-! ## Pages that are loaded -/

/-- The entry of a page that is loaded. -/
def loadedPte (f : Nat) : Pte := ⟨f, { present := true, user := true, writeable := true }⟩

/-- `n` pages from page `v` on of the process were mapped, page `v + i` to frame `φ i`. -/
structure Loaded (env : Nat → Env) (e v n : Nat) (φ : Nat → Nat) (s t : Machine) : Prop where
  tables : Tabled env e t
  dir : t.env.envPageDirectory = s.env.envPageDirectory
  disk : t.env.diskEnvPgdir = s.env.diskEnvPgdir ∧ t.env.diskTables = s.env.diskTables ∧
    t.env.diskPages = s.env.diskPages
  pageFile : t.pageFile = s.pageFile
  contents : t.frames = s.frames
  mapped : ∀ i < n, userEntry t.mem s.env.envPageDirectory (v + i) = loadedPte (φ i)
  others : ∀ w < userPages, ¬ (v ≤ w ∧ w < v + n) →
    userEntry t.mem s.env.envPageDirectory w = userEntry s.mem s.env.envPageDirectory w
  held : ∀ i < n, Loose t.mem (φ i) 1
  fresh : ∀ i < n, ∀ r, ¬ Loose s.mem (φ i) r
  inj : ∀ i < n, ∀ j < n, φ i = φ j → i = j
  loose : ∀ g r, Loose s.mem g r → Loose t.mem g r
  first : 0 < n → s.mem.freeFrameList.head? = some (φ 0)

section Loaded

variable {env : Nat → Env} {e v n k : Nat} {φ ψ : Nat → Nat} {s t u : Machine}

theorem Loaded.refl (h : Tabled env e s) (v : Nat) : Loaded env e v 0 φ s s := by
  refine ⟨h, rfl, ⟨rfl, rfl, rfl⟩, rfl, rfl, ?_, fun _ _ _ => rfl, ?_, ?_, ?_, fun _ _ h => h, ?_⟩ <;> omega

/-- More pages, after those that are loaded. -/
theorem Loaded.trans (h : Loaded env e v n φ s t) (h' : Loaded env e (v + n) k ψ t u) (hn : 0 < n)
    (hv : v + n ≤ userPages) :
    Loaded env e v (n + k) (fun i => if i < n then φ i else ψ (i - n)) s u := by
  have hsplit : ∀ i < n + k, ¬ i < n → i - n < k := fun i hi hn => by omega
  constructor
  · exact h'.tables
  · exact h'.dir.trans h.dir
  · exact ⟨h'.disk.1.trans h.disk.1, h'.disk.2.1.trans h.disk.2.1, h'.disk.2.2.trans h.disk.2.2⟩
  · exact h'.pageFile.trans h.pageFile
  · exact h'.contents.trans h.contents
  · intro i hi
    split
    · rename_i hn
      have hother := h'.others (v + i) (by omega) (by omega)
      rw [h.dir] at hother
      exact hother.trans (h.mapped i hn)
    · rename_i hn
      have hmapped := h'.mapped (i - n) (hsplit i hi hn)
      rwa [h.dir, show v + n + (i - n) = v + i by omega] at hmapped
  · intro w hw hout
    have hother := h'.others w hw (by omega)
    rw [h.dir] at hother
    exact hother.trans (h.others w hw (by omega))
  · intro i hi
    split
    · rename_i hn
      exact h'.loose _ _ (h.held i hn)
    · rename_i hn
      exact h'.held _ (hsplit i hi hn)
  · intro i hi r
    split
    · rename_i hn
      exact h.fresh i hn r
    · rename_i hn
      exact fun hl => h'.fresh _ (hsplit i hi hn) r (h.loose _ _ hl)
  · -- a frame of the first pages is held when the others are taken
    have hne : ∀ i < n, ∀ j < k, φ i ≠ ψ j := fun i hi j hj hc => h'.fresh j hj 1 (hc ▸ h.held i hi)
    intro i hi j hj hij
    by_cases hin : i < n <;> by_cases hjn : j < n
    · rw [if_pos hin, if_pos hjn] at hij
      exact h.inj i hin j hjn hij
    · rw [if_pos hin, if_neg hjn] at hij
      exact absurd hij (hne i hin _ (hsplit j hj hjn))
    · rw [if_neg hin, if_pos hjn] at hij
      exact absurd hij.symm (hne j hjn _ (hsplit i hi hin))
    · rw [if_neg hin, if_neg hjn] at hij
      have := h'.inj _ (hsplit i hi hin) _ (hsplit j hj hjn) hij
      omega
  · exact fun g r hg => h'.loose g r (h.loose g r hg)
  · intro _
    rw [if_pos hn]
    exact h.first hn

theorem Loaded.congr (h : Loaded env e v n φ s t) (hφ : ∀ i < n, ψ i = φ i) : Loaded env e v n ψ s t := by
  refine ⟨h.tables, h.dir, h.disk, h.pageFile, h.contents, ?_, h.others, ?_, ?_, ?_, h.loose, fun hn => ?_⟩
  · exact fun i hi => by rw [hφ i hi]; exact h.mapped i hi
  · exact fun i hi => by rw [hφ i hi]; exact h.held i hi
  · exact fun i hi => by rw [hφ i hi]; exact h.fresh i hi
  · exact fun i hi j hj hij => h.inj i hi j hj (by rw [← hφ i hi, ← hφ j hj]; exact hij)
  · rw [hφ 0 hn]
    exact h.first hn

/-- A step of the kernel that keeps the pages of its heap leaves the tables of the page file in order. -/
theorem Tabled.keeping (h : Tabled env e s)
    (hk : ∀ P, PageHeap s.kernel P → PageHeap t.kernel P ∧ ∀ p ∈ P, t.kernel.mem.pte (0, p) = s.kernel.mem.pte (0, p))
    (hd : t.env.diskEnvPgdir = s.env.diskEnvPgdir) (ht : t.env.diskTables = s.env.diskTables) : Tabled env e t := by
  obtain ⟨page, hT⟩ := h
  obtain ⟨hheap, hsame⟩ := hk _ hT.heap
  have hT' : TablePages t.kernel (Function.update env e s.env) page := by
    refine ⟨hheap, hT.inj, hT.dir, fun e' i => (hT.table e' i).imp_right ?_⟩
    rintro ⟨p, f, hp, hf, hheld, hi⟩
    exact ⟨p, f, hp, hf, by rw [hsame p ⟨_, hp⟩]; exact hheld, hi⟩
  exact Tabled.entries (s := { s with kernel := t.kernel }) ⟨page, hT'⟩ rfl hd ht

theorem Tabled.holding (h : Tabled env e s) (hk : ∀ P, PageHeap s.kernel P → Holding P s.kernel t.kernel)
    (hd : t.env.diskEnvPgdir = s.env.diskEnvPgdir) (ht : t.env.diskTables = s.env.diskTables) : Tabled env e t :=
  Tabled.keeping h (fun P hP => ⟨(hk P hP).heap, (hk P hP).same⟩) hd ht

/-- A step that maps nothing for the process. -/
theorem Loaded.of_holding (h : Tabled env e s) (hk : ∀ P, PageHeap s.kernel P → Holding P s.kernel t.kernel)
    (hw : Within s.mem t.mem) (hdir : t.env.envPageDirectory = s.env.envPageDirectory)
    (hdisk : t.env.diskEnvPgdir = s.env.diskEnvPgdir ∧ t.env.diskTables = s.env.diskTables ∧
      t.env.diskPages = s.env.diskPages)
    (hp : t.pageFile = s.pageFile) (hf : t.frames = s.frames) (v : Nat) : Loaded env e v 0 φ s t := by
  obtain ⟨page, hT⟩ := id h
  refine ⟨Tabled.holding h hk hdisk.1 hdisk.2.1, hdir, hdisk, hp, hf, ?_, fun w hw' _ => userEntry_within hw hw', ?_,
    ?_, ?_, (hk _ hT.heap).loose, ?_⟩ <;> omega

end Loaded

/-! ## One page -/

section LoadPage

variable {env : Nat → Env} {e d f v : Nat} {s t : Kernel} {P : Set Nat}

/-- The entry a user page gets, and what else changes: the references of the frame. -/
theorem enterLoaded_ok (h : PageHeap s P) (hd : d ≠ 0) (hv : v < userPages) (hf : Loose s.mem f 0)
    (ht : (s.mem.table d (v / 1024)).isSome) {m : Mem}
    (hm : m = enterLoaded s.mem d f (v * 4096) { user := true, writeable := true }) :
    PageHeap { s with mem := m } P ∧ Loose m f 1 ∧ (∀ g r, g ≠ f → Loose s.mem g r → Loose m g r) ∧
      (∀ p, m.pte (0, p) = s.mem.pte (0, p)) ∧ userEntry m d v = loadedPte f ∧
      ∀ w, w ≠ v → userEntry m d w = userEntry s.mem d w := by
  obtain ⟨-, hslot⟩ := user_slot (d := d) hv
  have hm : m = (addReference s.mem f).setPte (d, v) (loadedPte f) := by
    rw [hm, enterLoaded, hslot]
    rfl
  obtain ⟨hheap, hself, hother⟩ := h.setFrame hf
    (i := { s.mem.framesInfo f with references := ((s.mem.framesInfo f).references + 1) % 65536 }) (.inl rfl)
  have hset := hheap.setUserPte (v := v) hd (loadedPte f)
  have hone : ((s.mem.framesInfo f).references + 1) % 65536 = 1 := by rw [hf.references]
  subst hm
  refine ⟨hset.heap, hset.loose f 1 ⟨hself.lt, hself.notFree, hself.references.trans hone, hself.unmapped⟩,
    fun g r hg hl => hset.loose _ _ (hother g r hg hl), fun p => ?_, ?_, fun w hw => ?_⟩
  · rw [Mem.setPte_pte, if_neg fun hc => hd (congrArg Prod.fst hc).symm]
    rfl
  · rw [userEntry, Mem.setPte_pte, if_pos rfl]
    exact if_pos ht
  · rw [userEntry, Mem.setPte_pte, if_neg fun hc => hw (congrArg Prod.snd hc)]
    rfl

/-- `loadtime_map_frame` of a frame just allocated. -/
theorem loadtimeMapFrame_ok (h : PageHeap s P) (hd : d ≠ 0) (hv : v < userPages) (hf : Loose s.mem f 0)
    (hr : loadtimeMapFrame d f (v * 4096) { user := true, writeable := true } s = .ok () t) :
    PageHeap t P ∧ Loose t.mem f 1 ∧ (∀ g r, g ≠ f → Loose s.mem g r → Loose t.mem g r) ∧
      (∀ p ∈ P, t.mem.pte (0, p) = s.mem.pte (0, p)) ∧ userEntry t.mem d v = loadedPte f ∧
      ∀ w < userPages, w ≠ v → userEntry t.mem d w = userEntry s.mem d w := by
  obtain ⟨hown, -⟩ := user_slot (d := d) hv
  unfold loadtimeMapFrame at hr
  rw [get_bind, hown, pdx_page] at hr
  split at hr
  · rename_i hno
    obtain ⟨_, u, hc, hr⟩ := ok_of_bind hr
    cases hr
    obtain ⟨-, htab, hsame⟩ := h.ready.createPageTable (Option.isNone_iff_eq_none.1 hno) hc
    have hH := h.createPageTable hd hc
    obtain ⟨h1, h2, h3, h4, h5, h6⟩ := enterLoaded_ok hH.heap hd hv (hH.loose _ _ hf) htab rfl
    refine ⟨h1, h2, fun g r hg hl => h3 g r hg (hH.loose g r hl), fun p hp => (h4 p).trans (hH.same p hp), h5,
      fun w hw hne => ?_⟩
    exact (h6 w hne).trans (hsame d w hw)
  · rename_i hsome
    cases hr
    rw [Bool.not_eq_true, Option.isNone_eq_false_iff] at hsome
    obtain ⟨h1, h2, h3, h4, h5, h6⟩ := enterLoaded_ok h hd hv hf hsome rfl
    exact ⟨h1, h2, h3, fun p _ => h4 p, h5, fun w _ hne => h6 w hne⟩

/-- A frame is allocated and mapped: a page is loaded. -/
theorem mapLoaded_ok {s t : Machine} (h : Tabled env e s) (hd : s.env.envPageDirectory ≠ 0) (hv : v < userPages)
    (hr : (do
      let f ← allocateFrame
      fun s => onKernel (loadtimeMapFrame s.env.envPageDirectory f (v * 4096) { user := true, writeable := true }) s :
        PM Unit) s =
      .ok () t) : ∃ f, Loaded env e v 1 (fun _ => f) s t := by
  obtain ⟨f, u, h1, hr⟩ := ok_of_bind hr
  obtain ⟨k, hk, rfl⟩ := onKernel_ok h1
  obtain ⟨k', hk', rfl⟩ := onKernel_ok hr
  obtain ⟨page, hT⟩ := id h
  obtain ⟨hH, hl, hfree, hpte, htab⟩ := hT.heap.allocateFrame hk
  obtain ⟨-, h2, h3, -, h5, h6⟩ := loadtimeMapFrame_ok hH.heap hd hv hl hk'
  have hmem : f ∈ s.mem.freeFrameList := by
    show f ∈ s.kernel.mem.freeFrameList
    rw [hfree]
    exact List.mem_cons_self
  have hkeep : ∀ g r, Loose s.mem g r → Loose k'.mem g r := fun g r hg =>
    h3 g r (fun hc => hg.notFree (hc ▸ hmem)) (hH.loose g r hg)
  refine ⟨f, Tabled.holding h (fun P hP => ?_) rfl rfl, rfl, ⟨rfl, rfl, rfl⟩, rfl, rfl, fun i hi => ?_,
    fun w hw hne => ?_, fun _ _ => h2, fun _ _ r hl => hl.notFree hmem, fun i hi j hj _ => by omega, hkeep, fun _ => ?_⟩
  · obtain ⟨hH', hl', -⟩ := hP.allocateFrame hk
    obtain ⟨g1, -, -, g4, -⟩ := loadtimeMapFrame_ok hH'.heap hd hv hl' hk'
    exact ⟨g1, fun p hp => (g4 p hp).trans (hH'.same p hp), hkeep⟩
  · obtain rfl : i = 0 := by omega
    exact h5
  · have hsame : userEntry k.mem s.env.envPageDirectory w = userEntry s.mem s.env.envPageDirectory w := by
      unfold userEntry
      rw [hpte, htab]
      rfl
    exact (h6 w hw (by omega)).trans hsame
  · show s.kernel.mem.freeFrameList.head? = some f
    rw [hfree]
    rfl

/-- A block for an element. -/
theorem createElement_ok {s t : Machine} {va : Nat} {wse : WorkingSetElement} (h : Tabled env e s)
    (hr : envPageWsListCreateElement va s = .ok wse t) (v : Nat) (φ : Nat → Nat) : Loaded env e v 0 φ s t := by
  unfold envPageWsListCreateElement at hr
  split at hr
  · obtain ⟨_, _, hr, -⟩ := ok_of_bind hr
    cases hr
  obtain ⟨a, u, hk, hr⟩ := ok_of_bind hr
  split at hr
  · obtain ⟨_, _, hr, -⟩ := ok_of_bind hr
    cases hr
  cases hr
  obtain ⟨k, hkm, rfl⟩ := onKernel_ok hk
  have hsize : sizeofWorkingSetElement ≤ 4294963200 := by decide
  have hw : Within s.mem (Machine.mem { s with kernel := k }) := (h.ready.kmalloc hkm).2
  exact .of_holding h (fun P hP => hP.holding_kmalloc hsize hkm) hw rfl ⟨rfl, rfl, rfl⟩ rfl rfl v

end LoadPage

/-! ## The loop over the pages -/

theorem onProcess_ok {α : Type} {x : PM α} {s t : Loading} {a : α} (h : onProcess x s = .ok a t) :
    ∃ m, x s.machine = .ok a m ∧ t = { s with machine := m } := by
  unfold onProcess at h
  split at h <;> cases h
  exact ⟨_, by assumption, rfl⟩

section LoadPages

variable {env : Nat → Env} {e v : Nat} {s t : Loading}

/-- The lists of the process change, and nothing else of the machine. -/
structure Listed (s t : Machine) : Prop where
  kernel : t.kernel = s.kernel
  frames : t.frames = s.frames
  pageFile : t.pageFile = s.pageFile
  dir : t.env.envPageDirectory = s.env.envPageDirectory
  disk : t.env.diskEnvPgdir = s.env.diskEnvPgdir ∧ t.env.diskTables = s.env.diskTables ∧
    t.env.diskPages = s.env.diskPages

theorem Listed.loaded {s t : Machine} (h : Listed s t) (hT : Tabled env e s) (v : Nat) (φ : Nat → Nat) :
    Loaded env e v 0 φ s t := by
  refine .of_holding hT (fun P hP => ?_) ?_ h.dir h.disk h.pageFile h.frames v
  · rw [h.kernel]
    exact .refl hP
  · rw [Machine.mem, Machine.mem, h.kernel]
    exact .refl _

theorem Listed.trans {s t u : Machine} (h : Listed s t) (h' : Listed t u) : Listed s u :=
  ⟨h'.kernel.trans h.kernel, h'.frames.trans h.frames, h'.pageFile.trans h.pageFile, h'.dir.trans h.dir,
    h'.disk.1.trans h.disk.1, h'.disk.2.1.trans h.disk.2.1, h'.disk.2.2.trans h.disk.2.2⟩

/-- A change of the lists. -/
def ListsOnly (g : Env → Env) : Prop := ∀ e : Env, (g e).envPageDirectory = e.envPageDirectory ∧
  (g e).diskEnvPgdir = e.diskEnvPgdir ∧ (g e).diskTables = e.diskTables ∧ (g e).diskPages = e.diskPages

theorem ListsOnly.ite {c : Env → Prop} [DecidablePred c] {g g' : Env → Env} (hg : ListsOnly g) (hg' : ListsOnly g') :
    ListsOnly fun e => if c e then g e else g' e := by
  intro e
  by_cases hc : c e
  · simpa only [if_pos hc] using hg e
  · simpa only [if_neg hc] using hg' e

theorem ListsOnly.listed {g : Env → Env} (hg : ListsOnly g) (h : onProcess (modifyEnv g) s = .ok () t) :
    Listed s.machine t.machine := by
  obtain ⟨m, hm, rfl⟩ := onProcess_ok h
  cases hm
  exact ⟨rfl, rfl, rfl, (hg _).1, (hg _).2⟩

theorem addElement_ok {wse : WorkingSetElement} (h : addElement wse s = .ok () t) : Listed s.machine t.machine := by
  unfold addElement at h
  rw [get_bind] at h
  split at h
  · obtain ⟨_, u, hput, h⟩ := ok_of_bind h
    refine Listed.trans (ListsOnly.listed ?_ hput) (ListsOnly.listed ?_ h)
    · exact .ite (fun e => ⟨rfl, rfl, rfl, rfl⟩) fun e => ⟨rfl, rfl, rfl, rfl⟩
    · exact fun e => ⟨rfl, rfl, rfl, rfl⟩
  · obtain ⟨_, u, hput, h⟩ := ok_of_bind h
    refine Listed.trans (ListsOnly.listed ?_ hput) (ListsOnly.listed ?_ h)
    · exact fun e => ⟨rfl, rfl, rfl, rfl⟩
    · exact fun e => ⟨rfl, rfl, rfl, rfl⟩

theorem addTable_ok {iVA : Nat} (h : addTable iVA s = .ok () t) : t.machine = s.machine := by
  unfold addTable at h
  rw [get_bind] at h
  split at h
  · obtain ⟨_, u, hset, h⟩ := ok_of_bind h
    cases hset
    dsimp only at h
    split at h
    · obtain ⟨_, _, h, -⟩ := ok_of_bind h
      cases h
    · cases h
      rfl
  · cases h
    rfl

theorem loadPage_ok (h : Tabled env e s.machine) (hd : s.machine.env.envPageDirectory ≠ 0) (hv : v < userPages)
    (hr : loadPage (v * 4096) s = .ok () t) : ∃ f, Loaded env e v 1 (fun _ => f) s.machine t.machine := by
  unfold loadPage at hr
  obtain ⟨_, u, h1, hr⟩ := ok_of_bind hr
  obtain ⟨m, hm, rfl⟩ := onProcess_ok h1
  obtain ⟨f, hL⟩ := mapLoaded_ok h hd hv hm
  obtain ⟨wse, u, h2, hr⟩ := ok_of_bind hr
  obtain ⟨m', hm', rfl⟩ := onProcess_ok h2
  have hL' := createElement_ok hL.tables hm' (v + 1) (fun _ => f)
  obtain ⟨_, w, h3, hr⟩ := ok_of_bind hr
  have hL'' := (addElement_ok h3).loaded hL'.tables (v + 1) (fun _ => f)
  rw [addTable_ok hr]
  refine ⟨f, ((hL.trans hL' one_pos (by omega)).trans hL'' one_pos (by omega)).congr fun i _ => ?_⟩
  rw [ite_self, ite_self]

/-- The loop loads the pages of the segment in order, until there are no more or it may load no more. -/
theorem loadPages_ok {stop n k : Nat} (h : Tabled env e s.machine) (hd : s.machine.env.envPageDirectory ≠ 0)
    (hstop : stop ≤ userPages) (hv : v ≤ stop) (hr : loadPages (stop * 4096) (v * 4096) n s = .ok k t) :
    k = min n (stop - v) ∧ ∃ φ, Loaded env e v k φ s.machine t.machine := by
  induction n generalizing v s k with
  | zero =>
    cases hr
    exact ⟨(Nat.zero_min _).symm, id, .refl h v⟩
  | succ n ih =>
    unfold loadPages at hr
    split at hr
    · rename_i hlt
      have hlt : v < stop := Nat.lt_of_mul_lt_mul_right hlt
      have hnext : add32 (v * 4096) pageSize = (v + 1) * 4096 := add_page (hlt.trans_le (hstop.trans (by decide)))
      obtain ⟨_, u, h1, hr⟩ := ok_of_bind hr
      obtain ⟨f, hL⟩ := loadPage_ok h hd (by omega) h1
      obtain ⟨k', w, h2, hr⟩ := ok_of_bind hr
      rw [hnext] at h2
      cases hr
      obtain ⟨hk, φ, hL'⟩ := ih hL.tables (by rw [hL.dir]; exact hd) hlt h2
      refine ⟨by omega, fun i => if i < 1 then f else φ (i - 1), ?_⟩
      rw [Nat.add_comm k']
      exact hL.trans hL' one_pos (by omega)
    · rename_i hge
      cases hr
      exact ⟨by omega, id, .refl h v⟩

end LoadPages

/-! ## Bytes that are copied -/

/-- Pages `v`, ..., `v + n - 1` of directory `d` are there, on frames `φ 0`, ..., `φ (n - 1)`. -/
def Maps (d v n : Nat) (φ : Nat → Nat) (m : Mem) : Prop :=
  ∀ i < n, (userEntry m d (v + i)).frame = φ i ∧ (userEntry m d (v + i)).perm.present = true

/-- Writes to user pages: page tables, page file and working set are as before. -/
structure Writes (env : Nat → Env) (e v n : Nat) (φ : Nat → Nat) (s t : Machine) : Prop where
  tables : Tabled env e t
  env : t.env = s.env
  pageFile : t.pageFile = s.pageFile
  maps : Maps s.env.envPageDirectory v n φ t.mem

section Writes

variable {env : Nat → Env} {e v n va i : Nat} {φ : Nat → Nat} {s t u : Machine}

theorem Writes.refl (h : Tabled env e s) (hm : Maps s.env.envPageDirectory v n φ s.mem) : Writes env e v n φ s s :=
  ⟨h, rfl, rfl, hm⟩

theorem Writes.trans (h : Writes env e v n φ s t) (h' : Writes env e v n φ t u) : Writes env e v n φ s u :=
  ⟨h'.tables, h'.env.trans h.env, h'.pageFile.trans h.pageFile, h.env ▸ h'.maps⟩

theorem Loaded.maps (h : Loaded env e v n φ s t) : Maps t.env.envPageDirectory v n φ t.mem := by
  intro i hi
  rw [h.dir, h.mapped i hi]
  exact ⟨rfl, rfl⟩

/-- A write through the mapping of a page goes to its frame. -/
theorem storePage_writes {g : Page → Page} (h : Tabled env e s) (hd : s.env.envPageDirectory ≠ 0)
    (hm : Maps s.env.envPageDirectory v n φ s.mem) (hi : i < n) (hva : va / 4096 = v + i) (huser : va < userTop)
    (hr : storePage va g s = .ok () t) :
    Writes env e v n φ s t ∧ t.frames = Function.update s.frames (φ i) (g (s.frames (φ i))) := by
  obtain ⟨-, hown, hslot, hpdx⟩ := user_address huser s.env.envPageDirectory
  obtain ⟨hpres, rfl⟩ := storePage_ok hr
  have ht : (s.mem.table s.env.envPageDirectory (va / 4096 / 1024)).isSome := by
    have := (Bool.and_eq_true_iff.1 hpres).1
    rwa [Machine.hasTable, hown, hpdx] at this
  have hpte : s.pte va = userEntry s.mem s.env.envPageDirectory (va / 4096) := by
    rw [Machine.pte, hslot, userEntry, if_pos ht]
  have hframe : (s.pte va).frame = φ i := by
    rw [hpte, hva]
    exact (hm i hi).1
  refine ⟨⟨?_, rfl, rfl, fun j hj => ?_⟩, by rw [← hframe]⟩
  · refine Tabled.holding (t := s.setMem _) h (fun P hP => ?_) rfl rfl
    rw [hslot]
    exact hP.setUserPte hd _
  · show (userEntry (s.mem.setPte _ _) _ _).frame = _ ∧ (userEntry (s.mem.setPte _ _) _ _).perm.present = _
    rw [userEntry, Mem.setPte_table, Mem.setPte_pte, hslot]
    by_cases hc : v + j = va / 4096
    · rw [hc, if_pos ht, if_pos rfl]
      have hji : j = i := by omega
      exact ⟨hframe.trans (by rw [hji]), (Bool.and_eq_true_iff.1 hpres).2⟩
    · rw [if_neg fun h => hc (congrArg Prod.snd h)]
      exact hm j hj

/-- The byte of page `v + i` at `j` is the one copied there, if it is in the range. -/
def copied (bytes : Nat → UInt8) (src dst n : Nat) (old : UInt8) (a : Nat) : UInt8 :=
  if dst ≤ a ∧ a < dst + n then bytes (src + (a - dst)) else old

theorem copyBytes_none {bytes bytes' : Nat → UInt8} {src src' dst dst' k k' : Nat} (hk : k = 0) (hk' : k' = 0)
    (hr : (do copyBytes bytes src dst k; copyBytes bytes' src' dst' k' : PM Unit) s = .ok () t) : t = s := by
  subst hk hk'
  cases hr
  rfl

/-- The loop that copies: the bytes are found at their addresses, and no other byte of the pages changed. -/
theorem copyBytes_writes {bytes : Nat → UInt8} {src dst k : Nat} (h : Tabled env e s) (hd : s.env.envPageDirectory ≠ 0)
    (hm : Maps s.env.envPageDirectory v n φ s.mem) (hinj : ∀ i < n, ∀ j < n, φ i = φ j → i = j)
    (hlo : v * 4096 ≤ dst) (hhi : dst + k ≤ (v + n) * 4096) (huser : (v + n) * 4096 ≤ userTop)
    (hr : copyBytes bytes src dst k s = .ok () t) :
    Writes env e v n φ s t ∧ ∀ i < n, ∀ j < 4096,
      t.frames (φ i) j = copied bytes src dst k (s.frames (φ i) j) ((v + i) * 4096 + j) := by
  induction k generalizing s src dst with
  | zero =>
    cases hr
    refine ⟨.refl h hm, fun i _ j _ => ?_⟩
    rw [copied, if_neg (by omega)]
  | succ k ih =>
    unfold copyBytes at hr
    obtain ⟨_, u, h1, hr⟩ := ok_of_bind hr
    obtain ⟨w, hw⟩ : ∃ w, dst / 4096 = v + w := ⟨dst / 4096 - v, by omega⟩
    have hwn : w < n := by omega
    obtain ⟨hW, hf⟩ := storePage_writes h hd hm hwn hw (by omega) h1
    have hlo' : v * 4096 ≤ dst + 1 := hlo.trans (Nat.le_succ dst)
    have hhi' : dst + 1 + k ≤ (v + n) * 4096 := by
      rw [Nat.add_assoc, Nat.add_comm 1]
      exact hhi
    obtain ⟨hW', hf'⟩ := ih hW.tables (by rw [hW.env]; exact hd) (by rw [hW.env]; exact hW.maps) hlo' hhi' hr
    refine ⟨hW.trans hW', fun i hi j hj => ?_⟩
    rw [hf' i hi j hj, hf]
    -- the first byte is at offset `dst % 4096` of page `v + w`
    simp only [copied, pageSize, Function.update_apply]
    by_cases hiw : i = w
    · subst hiw
      rw [if_pos rfl]
      by_cases hjd : j = dst % 4096
      · have ha : (v + i) * 4096 + j = dst := by omega
        rw [ha, if_neg (by omega), if_pos ⟨le_rfl, by omega⟩, Function.update_apply, if_pos hjd, Nat.sub_self,
          Nat.add_zero]
      · rw [Function.update_apply, if_neg hjd]
        by_cases hin : dst + 1 ≤ (v + i) * 4096 + j ∧ (v + i) * 4096 + j < dst + 1 + k
        · rw [if_pos hin, if_pos (by omega)]
          congr 1
          omega
        · rw [if_neg hin, if_neg (by omega)]
    · have hne : φ i ≠ φ w := fun hc => hiw (hinj i hi w hwn hc)
      rw [if_neg hne]
      by_cases hin : dst + 1 ≤ (v + i) * 4096 + j ∧ (v + i) * 4096 + j < dst + 1 + k
      · rw [if_pos hin, if_pos (by omega)]
        congr 1
        omega
      · rw [if_neg hin, if_neg (by omega)]

end Writes

/-! ## A segment -/

/-- The byte of the segment at an address: from the file, or zero. -/
def ProgramSegment.byte (seg : ProgramSegment) (a : Nat) : UInt8 :=
  if seg.virtualAddress ≤ a ∧ a < seg.virtualAddress + seg.sizeInFile then seg.ptrStart (a - seg.virtualAddress) else 0

/-- A segment that a program can have: no more bytes in the file than in memory, and below the stack. -/
structure Loadable (seg : ProgramSegment) : Prop where
  fits : seg.sizeInFile ≤ seg.sizeInMemory
  below : seg.virtualAddress + seg.sizeInMemory ≤ ustackTop

def firstPage (seg : ProgramSegment) : Nat := seg.virtualAddress / 4096

/-- The page after the last one. -/
def endPage (seg : ProgramSegment) : Nat := (seg.virtualAddress + seg.sizeInMemory + 4095) / 4096

/-- The pages of the segment. -/
def SegmentPage (seg : ProgramSegment) (v : Nat) : Prop := firstPage seg ≤ v ∧ v < endPage seg

section Segment

variable {seg : ProgramSegment}

theorem Loadable.bound (h : Loadable seg) : seg.virtualAddress + seg.sizeInMemory ≤ 4005552128 := h.below

theorem Loadable.endPage_lt (h : Loadable seg) : endPage seg < userPages := by
  have := h.bound
  simp only [endPage, userPages]
  omega

theorem firstPage_le (seg : ProgramSegment) : firstPage seg ≤ endPage seg := by
  simp only [firstPage, endPage]
  omega

/-- The addresses the loader computes. -/
theorem Loadable.addresses (h : Loadable seg) :
    roundDown seg.virtualAddress pageSize = firstPage seg * 4096 ∧
      roundUp (add32 seg.virtualAddress seg.sizeInMemory) pageSize = endPage seg * 4096 ∧
      add32 seg.virtualAddress seg.sizeInFile = seg.virtualAddress + seg.sizeInFile := by
  have hb := h.bound
  have hf := h.fits
  rw [add32_of_lt (by omega), add32_of_lt (by omega)]
  refine ⟨?_, ?_, rfl⟩ <;> simp only [roundDown, roundUp, firstPage, endPage, pageSize] <;> omega

/-- What the loader leaves of a segment: `k` of its pages are mapped, with the bytes of the segment, but the part of
the first page before the segment has the bytes that its frame had. -/
structure SegmentLoaded (env : Nat → Env) (e : Nat) (seg : ProgramSegment) (k : Nat) (φ : Nat → Nat) (s t : Machine) :
    Prop where
  tables : Tabled env e t
  dir : t.env.envPageDirectory = s.env.envPageDirectory
  disk : ∀ v, diskEntry t.env v = diskEntry s.env v
  pageFile : t.pageFile = s.pageFile
  maps : Maps t.env.envPageDirectory (firstPage seg) k φ t.mem
  first : 0 < k → s.mem.freeFrameList.head? = some (φ 0)
  bytes : ∀ i < k, ∀ j < 4096, seg.virtualAddress ≤ (firstPage seg + i) * 4096 + j →
    t.frames (φ i) j = seg.byte ((firstPage seg + i) * 4096 + j)
  before : ∀ i < k, ∀ j < 4096, (firstPage seg + i) * 4096 + j < seg.virtualAddress →
    t.frames (φ i) j = s.frames (φ i) j

variable {env : Nat → Env} {e k n : Nat} {φ : Nat → Nat}

/-- The two copy loops. -/
theorem copySegment_ok {s t : Machine} (hL : Loadable seg) (hk : 0 < k) (hke : firstPage seg + k ≤ endPage seg)
    (h : Tabled env e s) (hd : s.env.envPageDirectory ≠ 0) (hm : Maps s.env.envPageDirectory (firstPage seg) k φ s.mem)
    (hinj : ∀ i < k, ∀ j < k, φ i = φ j → i = j) {stop : Nat}
    (hstop : stop = min ((firstPage seg + k) * 4096) (seg.virtualAddress + seg.sizeInFile))
    (hr : (do
      copyBytes seg.ptrStart 0 seg.virtualAddress (stop - seg.virtualAddress)
      copyBytes (fun _ => 0) 0 (max seg.virtualAddress stop)
        ((firstPage seg + k) * 4096 - max seg.virtualAddress stop) : PM Unit) s =
      .ok () t) :
    Writes env e (firstPage seg) k φ s t ∧ ∀ i < k, ∀ j < 4096, t.frames (φ i) j =
      if seg.virtualAddress ≤ (firstPage seg + i) * 4096 + j then seg.byte ((firstPage seg + i) * 4096 + j)
      else s.frames (φ i) j := by
  have hend := hL.endPage_lt
  have huser : (firstPage seg + k) * 4096 ≤ userTop :=
    (Nat.mul_le_mul_right 4096 (hke.trans hend.le)).trans (by decide)
  have hva : firstPage seg * 4096 ≤ seg.virtualAddress ∧ seg.virtualAddress < (firstPage seg + k) * 4096 := by
    simp only [firstPage]
    omega
  have hmax : max seg.virtualAddress stop = stop := max_eq_right (by omega)
  have hle : seg.virtualAddress ≤ stop := by omega
  have hlast : stop ≤ (firstPage seg + k) * 4096 := hstop ▸ min_le_left _ _
  rw [hmax] at hr
  obtain ⟨_, u, h1, hr⟩ := ok_of_bind hr
  obtain ⟨hW, hf⟩ := copyBytes_writes h hd hm hinj hva.1 (by omega) huser h1
  obtain ⟨hW', hf'⟩ := copyBytes_writes hW.tables (by rw [hW.env]; exact hd) (by rw [hW.env]; exact hW.maps) hinj
    (hva.1.trans hle) (by omega) huser hr
  refine ⟨hW.trans hW', fun i hi j hj => ?_⟩
  rw [hf' i hi j hj, hf i hi j hj, copied, copied, ProgramSegment.byte]
  generalize ha : (firstPage seg + i) * 4096 + j = a
  have hhi : a < (firstPage seg + k) * 4096 := by omega
  by_cases hb : seg.virtualAddress ≤ a
  · by_cases hs : a < stop
    · have hfile : a < seg.virtualAddress + seg.sizeInFile := hs.trans_le (hstop ▸ min_le_right _ _)
      rw [if_neg (by omega), if_pos (by omega), if_pos hb, if_pos ⟨hb, hfile⟩, Nat.zero_add]
    · have hfile : ¬ a < seg.virtualAddress + seg.sizeInFile := by omega
      rw [if_pos (by omega), if_pos hb, if_neg fun hc => hfile hc.2]
  · rw [if_neg (by omega), if_neg (by omega), if_neg hb]

/-- `program_segment_alloc_map_copy_workingset`. -/
theorem programSegment_ok {s t : Loading} (hL : Loadable seg) (h : Tabled env e s.machine)
    (hd : s.machine.env.envPageDirectory ≠ 0) (hr : programSegmentAllocMapCopyWorkingset seg n s = .ok k t) :
    k = min (maxLoaded s.progName (firstPage seg * 4096) n) (endPage seg - firstPage seg) ∧
      ∃ φ, SegmentLoaded env e seg k φ s.machine t.machine := by
  obtain ⟨haddr, hendaddr, hfile⟩ := hL.addresses
  unfold programSegmentAllocMapCopyWorkingset at hr
  dsimp only at hr
  rw [haddr, hendaddr, hfile, get_bind] at hr
  obtain ⟨k', u, h1, hr⟩ := ok_of_bind hr
  obtain ⟨_, w, h2, hr⟩ := ok_of_bind hr
  cases hr
  obtain ⟨m, hm, rfl⟩ := onProcess_ok h2
  have hend := hL.endPage_lt
  obtain ⟨hk, φ, hP⟩ := loadPages_ok h hd hend.le (firstPage_le seg) h1
  have hke : firstPage seg + k ≤ endPage seg := by
    have := firstPage_le seg
    omega
  have hlast : (firstPage seg + k) * 4096 ≤ 4005560320 :=
    (Nat.mul_le_mul_right 4096 (hke.trans hend.le)).trans (by decide)
  have hloaded : add32 (firstPage seg * 4096) (mul32 k pageSize) = (firstPage seg + k) * 4096 := by
    rw [pageSize, mul32_of_lt (by omega), add32_of_lt (by omega), Nat.add_mul]
  rw [hloaded] at hm
  refine ⟨hk, φ, ?_⟩
  have hdisk : ∀ v, diskEntry u.machine.env v = diskEntry s.machine.env v := by
    intro v
    rw [diskEntry, diskEntry, hP.disk.1, hP.disk.2.1, hP.disk.2.2]
  by_cases hk0 : 0 < k
  · obtain ⟨hW, hf⟩ := copySegment_ok hL hk0 hke hP.tables (by rw [hP.dir]; exact hd) hP.maps hP.inj rfl hm
    refine ⟨hW.tables, by rw [hW.env]; exact hP.dir,
      fun v => by rw [hW.env]; exact hdisk v, hW.pageFile.trans hP.pageFile,
      by rw [hW.env]; exact hW.maps, hP.first, fun i hi j hj hb => ?_, fun i hi j hj hb => ?_⟩
    · rw [hf i hi j hj, if_pos hb]
    · rw [hf i hi j hj, if_neg (by omega), hP.contents]
  · -- no page, no byte
    have hzero : k = 0 := Nat.eq_zero_of_not_pos hk0
    have hva : (firstPage seg + k) * 4096 ≤ seg.virtualAddress := by
      rw [hzero]
      exact Nat.div_mul_le_self _ _
    have hst := copyBytes_none (Nat.sub_eq_zero_of_le ((min_le_left _ _).trans hva))
      (Nat.sub_eq_zero_of_le (hva.trans (le_max_left _ _))) hm
    have hnone : ∀ i, ¬ i < k := fun i hi => hk0 (Nat.zero_lt_of_lt hi)
    exact ⟨hst ▸ hP.tables, hst ▸ hP.dir, hst ▸ hdisk, hst ▸ hP.pageFile, hst ▸ hP.maps, hP.first,
      fun i hi => absurd hi (hnone i), fun i hi => absurd hi (hnone i)⟩

end Segment

end Fos.Proc
