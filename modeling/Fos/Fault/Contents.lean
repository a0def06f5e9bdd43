/-
What the pages of a process hold, in memory or in the page file. The page file stays in order under every step of the
fault handler, and each step is one of a write-back cell for the page it is about.
-/
import Fos.Fault.Exchange
import Fos.Fault.OwnFrames
import Fos.Lib.WriteBack
import Fos.Proc.LoadedPages

namespace Fos.Fault

open Fos.Memory Fos.Heap Fos.Proc Fos.Disk Fos.Lib

/-! ## The page file -/

section PageFile

variable {env : Nat → Env} {e va f : Nat} {m : DiskMap} {s t : Machine} {E : Env} {perm : Perm}

/-- The process knows the same of its pages on the disk. -/
def SameDisk (E E' : Env) : Prop :=
  E'.diskEnvPgdir = E.diskEnvPgdir ∧ E'.diskTables = E.diskTables ∧ E'.diskPages = E.diskPages

theorem Turns.sameDisk {E E' : Env} (h : Turns E E') : SameDisk E E' := ⟨h.diskEnvPgdir, h.diskTables, h.diskPages⟩

theorem represents_env (h : Represents env e m s) (hE : SameDisk s.env E) : Represents env e m { s with env :=
    E } := by
  refine h.congr (h.tables.entries rfl hE.1 hE.2.1) rfl fun v => ?_
  show diskEntry E v = diskEntry s.env v
  rw [diskEntry, hE.1, hE.2.1, hE.2.2, diskEntry]

/-- A step of the kernel that keeps the pages of its heap. -/
theorem represents_kernel {k : Kernel} (h : Represents env e m s)
    (hk : ∀ P, PageHeap s.kernel P → PageHeap k P ∧ ∀ p ∈ P, k.mem.pte (0, p) = s.kernel.mem.pte (0, p)) :
    Represents env e m { s with kernel := k } :=
  h.congr (Tabled.keeping (t := { s with kernel := k }) h.tables hk rfl rfl) rfl fun _ => rfl

theorem represents_foldl_clearUsed : ∀ {l : List WorkingSetElement} {s : Machine}, Represents env e m s →
    (∀ w ∈ l, w.virtualAddress < userTop) → Represents env e m (l.foldl clearUsed s)
  | [], _, h, _ => h
  | w :: l, s, h, hl => represents_foldl_clearUsed (l := l) (s := clearUsed s w)
    (h.setUserPte (hl w List.mem_cons_self) _)
      fun x hx => hl x (List.mem_cons_of_mem w hx)

theorem represents_unmap (h : Represents env e m s) (hd : s.env.envPageDirectory ≠ 0) (hva : va < userTop)
    (ht : MapOk t.kernel) (hr : unmapUserFrame va s = .ok () t) : Represents env e m t := by
  obtain ⟨-, -, hslot, -⟩ := user_address hva s.env.envPageDirectory
  cases hr
  have hsame : ∀ v, (s.mem.unmapFrame s.env.envPageDirectory va).pte (0, v) = s.mem.pte (0, v) := by
    intro v
    refine unmapFrame_pte _ _ _ fun hc => hd ?_
    rw [hslot] at hc
    exact (congrArg Prod.fst hc).symm
  refine represents_kernel h fun P hP => ⟨?_, fun p _ => hsame p⟩
  exact hP.mem ht.pages fun v _ => hsame v

/-- `map_frame` of a frame just allocated. -/
theorem mapFrame_pageHeap {k k' : Kernel} {P : Set Nat} {d v : Nat} (h : PageHeap k P) (hd : d ≠ 0)
    (hv : v < userPages)
    (hl : Loose k.mem f 0) (hp : (userEntry k.mem d v).perm.present = false)
    (hr : mapFrame d f (v * 4096) perm k = .ok () k') :
    PageHeap k' P ∧ ∀ p ∈ P, k'.mem.pte (0, p) = k.mem.pte (0, p) := by
  obtain ⟨hown, hslot⟩ := user_slot (d := d) hv
  have hlow : v * 4096 < kernelHeapStart := by
    simp only [userPages] at hv
    simp only [kernelHeapStart]
    omega
  obtain ⟨hset, hlset, -⟩ := h.setFrame hl (i := { k.mem.framesInfo f with va := v * 4096 }) (.inr hlow)
  -- the end, once the page table is there
  have hend : ∀ {u : Kernel}, Holding P { k with mem := k.mem.setFrameVa f (v * 4096) } u →
      (u.mem.table d (v / 1024)).isSome → userEntry u.mem d v = userEntry k.mem d v →
      PageHeap { u with mem := u.mem.enterFrame d f (v * 4096) perm } P ∧
        ∀ p ∈ P, (u.mem.enterFrame d f (v * 4096) perm).pte (0, p) = k.mem.pte (0, p) := by
    intro u hu htab hsame
    have hpu : (u.mem.pte (d, v)).perm.present = false := by
      rw [← hsame, userEntry, if_pos htab] at hp
      exact hp
    have hlink : u.mem.enterFrame d f (v * 4096) perm = u.mem.linkFrame d f (v * 4096) perm := by
      rw [Mem.enterFrame, hslot, hpu]
      rfl
    rw [hlink, Mem.linkFrame, hslot]
    obtain ⟨hrefs, -, -⟩ := hu.heap.setFrame (hu.loose _ _ hlset)
      (i := { u.mem.framesInfo f with references := ((u.mem.framesInfo f).references + 1) % 65536 }) (.inl rfl)
    have hpte := hrefs.setUserPte (v := v) hd ⟨f, ((u.mem.pte (d, v)).perm.available.union perm).union .permPresent⟩
    exact ⟨hpte.heap, fun p hp => (hpte.same p hp).trans (hu.same p hp)⟩
  rcases mapFrame_ok hr with ⟨ht, rfl⟩ | ⟨hno, u, hc, rfl⟩
  · rw [hown, pdx_page] at ht
    exact hend (.refl hset) ht rfl
  · rw [hown, pdx_page] at hno
    obtain ⟨-, htab, hsame⟩ := hset.ready.createPageTable hno hc
    exact hend (hset.createPageTable hd hc) htab (hsame d v hv)

/-- `pf_update_env_page` leaves memory as it is. -/
theorem pfUpdateEnvPage_frames (hT : Tabled env e s) (hva : va < userTop) (hr : pfUpdateEnvPage va s = .ok () t) :
    t.frames = s.frames := by
  -- the end, once the page has a disk frame
  have hend : ∀ {u : Machine}, writeBack va u = .ok () t → t.frames = u.frames := by
    intro u hu
    unfold writeBack at hu
    rw [get_bind] at hu
    split at hu
    · obtain ⟨_, _, hu, -⟩ := ok_of_bind hu
      cases hu
    · cases hu
      rfl
  unfold pfUpdateEnvPage at hr
  rw [if_neg (show ¬ kernelBase ≤ va by simp only [kernelBase, userTop] at *; omega)] at hr
  obtain ⟨_, u, h1, hr⟩ := ok_of_bind hr
  obtain ⟨hTu, hS, -, hd, -⟩ := getDiskPageDirectory_ok hT h1
  obtain ⟨b, _, h2, hr⟩ := ok_of_bind hr
  rw [hasDiskPage_eq va hd] at h2
  cases h2
  dsimp only at hr
  split at hr
  · split at hr
    · obtain ⟨a, w, h3, hr⟩ := ok_of_bind hr
      obtain ⟨o, w', h4, h3⟩ := ok_of_bind (show (diskFrameFor va >>= fun o => pure o.isSome) u = .ok a w from h3)
      cases h3
      obtain ⟨-, hS', -, -⟩ := diskFrameFor_ok hTu hva h4
      split at hr
      · obtain ⟨_, _, h5, -⟩ := ok_of_bind hr
        cases h5
      · exact (hend hr).trans (hS'.frames.trans hS.frames)
    · obtain ⟨_, _, h5, -⟩ := ok_of_bind hr
      cases h5
  · exact (hend hr).trans hS.frames

/-- `pf_read_env_page` writes to the page's frame, if the page file has the page. -/
theorem pfReadEnvPage_frames {r : Bool} (hva : va < userTop) (hr : pfReadEnvPage va s = .ok r t) :
    (t.pte va).frame = (s.pte va).frame ∧ (∀ g, g ≠ (s.pte va).frame → t.frames g = s.frames g) ∧
    (r = false → t = s) := by
  obtain ⟨-, -, -, hpte⟩ := page_address hva s
  unfold pfReadEnvPage at hr
  rw [get_bind] at hr
  split at hr
  · cases hr
    exact ⟨rfl, fun _ _ => rfl, fun _ => rfl⟩
  rename_i hd
  rw [bind_of_ok (hasDiskPage_eq _ hd)] at hr
  split at hr
  · cases hr
    exact ⟨rfl, fun _ _ => rfl, fun _ => rfl⟩
  rw [get_bind] at hr
  obtain ⟨_, u, h1, hr⟩ := ok_of_bind hr
  obtain ⟨-, hu⟩ := storePage_ok h1
  obtain ⟨_, w, h2, hr⟩ := ok_of_bind hr
  obtain ⟨-, hw⟩ := ptSetPagePermissions_ok h2
  cases hr
  have hupte : u.pte (roundDown va pageSize) = { s.pte (roundDown va pageSize) with
      perm := { (s.pte (roundDown va pageSize)).perm with used := true, modified := true } } := by
    rw [hu]
    exact Function.update_self ..
  refine ⟨?_, fun g hg => ?_, fun hc => nomatch hc⟩
  · rw [← (page_address hva t).2.2.2, ← hpte, hw]
    refine (congrArg Pte.frame (Function.update_self ..)).trans ?_
    rw [hupte]
  · rw [hw, hu]
    exact Function.update_of_ne (hpte ▸ hg) ..

end PageFile

/-! ## Cells -/

/-- Page `v` as a cell: its frame if it is there, and what the page file has. -/
def cellOf (m : DiskMap) (e : Nat) (s : Machine) (v : Nat) : WriteBack Page where
  held := if (entryOf s v).perm.present then some (s.frames (entryOf s v).frame) else none
  dirty := (entryOf s v).perm.modified
  back := (m (e, v)).join

/-- The page file is in order, and in the pages of `L` the process sees what it saw. -/
structure Carries (env : Nat → Env) (e : Nat) (L : Nat → Prop) (m : DiskMap) (s : Machine) (m' : DiskMap)
    (t : Machine) :
    Prop where
  represents : Represents env e m' t
  known : ∀ v, m (e, v) ≠ some none → m' (e, v) ≠ some none
  has : ∀ v, m (e, v) ≠ none → m' (e, v) ≠ none
  cells : ∀ v, L v → (cellOf m e s v).Keeps zeroPage (cellOf m' e t v)

section Carries

variable {env : Nat → Env} {e va : Nat} {L : Nat → Prop} {m m' m'' : DiskMap} {s t u : Machine} {E : Env}
variable {victim : WorkingSetElement} {l : List WorkingSetElement} {perm : Perm}

theorem Carries.refl (h : Represents env e m s) : Carries env e L m s m s :=
  ⟨h, fun _ h => h, fun _ h => h, fun _ _ => .refl _ _⟩

theorem Carries.trans (h : Carries env e L m s m' t) (h' : Carries env e L m' t m'' u) : Carries env e L m s m'' u :=
  ⟨h'.represents, fun v hv => h'.known v (h.known v hv), fun v hv => h'.has v (h.has v hv),
    fun v hv => (h.cells v hv).trans (h'.cells v hv)⟩

/-- A step that changes none of the cells. -/
theorem carries_same (h : Represents env e m t) (hcells : ∀ v, L v → cellOf m e t v = cellOf m e s v) :
    Carries env e L m s m t :=
  ⟨h, fun _ h => h, fun _ h => h, fun v hv => by rw [hcells v hv]; exact .refl _ _⟩

theorem cellOf_congr {v : Nat} (hentry : entryOf t v = entryOf s v)
    (hframe : (entryOf s v).perm.present = true → t.frames (entryOf s v).frame = s.frames (entryOf s v).frame)
    (hm : m' (e, v) = m (e, v)) : cellOf m' e t v = cellOf m e s v := by
  unfold cellOf
  rw [hentry, hm]
  split
  · rename_i hp
    rw [hframe hp]
  · rfl

theorem carries_env (h : Represents env e m s) (hdir : E.envPageDirectory = s.env.envPageDirectory)
    (hE : SameDisk s.env E) :
    Carries env e L m s m { s with env := E } := by
  refine carries_same (represents_env h hE) fun v _ => cellOf_congr ?_ (fun _ => rfl) rfl
  show userEntry s.mem E.envPageDirectory v = _
  rw [hdir]
  rfl

theorem foldl_clearUsed_frames : ∀ (l : List WorkingSetElement) (s : Machine), (l.foldl clearUsed s).frames = s.frames
  | [], _ => rfl
  | _ :: l, s => foldl_clearUsed_frames l (clearUsed s _)

theorem carries_foldl_clearUsed (h : Represents env e m s) (hl : ∀ w ∈ l, w.virtualAddress < userTop) :
    Carries env e L m s m (l.foldl clearUsed s) := by
  apply carries_same (represents_foldl_clearUsed h hl)
  intro v _
  have hentry : entryOf (l.foldl clearUsed s) v =
      if v ∈ l.map (·.virtualAddress / 4096) then Pte.unused (entryOf s v) else entryOf s v := by
    rw [entryOf, foldl_clearUsed_env]
    exact foldl_clearUsed_entry hl v
  unfold cellOf
  rw [hentry, foldl_clearUsed_frames]
  split
  · rw [Pte.unused_eq]
  · rfl

theorem carries_searches (h : Represents env e m s) (hs : Ready s) (hr : Searches s t) : Carries env e L m s m t := by
  obtain ⟨l, E, hl, hturn, rfl⟩ := hr
  have hcleared := carries_foldl_clearUsed (L := L) h fun w hw => hs.ws w (hl w hw)
  rw [← foldl_clearUsed_env l s] at hturn
  exact hcleared.trans (carries_env hcleared.represents hturn.dir hturn.sameDisk)

/-! The victim is written back and goes. -/

theorem pte_entry (hva : va < userTop) (ht : s.hasTable va = true) : s.pte va = entryOf s (va / 4096) := by
  obtain ⟨-, hown, hslot, hpdx⟩ := user_address hva s.env.envPageDirectory
  rw [Machine.hasTable, hown, hpdx] at ht
  rw [Machine.pte, hslot, entryOf, userEntry, if_pos ht]

theorem pte_of_present (hva : va < userTop) (hp : s.present va = true) :
    s.pte va = entryOf s (va / 4096) ∧ (entryOf s (va / 4096)).perm.present = true := by
  have hpte := pte_entry hva (Bool.and_eq_true_iff.1 hp).1
  exact ⟨hpte, hpte ▸ (Bool.and_eq_true_iff.1 hp).2⟩

theorem held_of_shown {v : Nat} (h : (entryOf s v).perm.present = true) :
    (cellOf m e s v).held = some (s.frames (entryOf s v).frame) := if_pos h

/-- What `pf_update_env_page` writes is what the page's frame has. -/
theorem carries_pfUpdateEnvPage (hL : ∀ v, L v → v < userPages) (h : Represents env e m s) (hs : Ready s)
    (hk : MapOk s.kernel)
    (hva : va < userTop) (hp : s.present va = true) (hr : pfUpdateEnvPage va s = .ok () t) :
    ∃ m', Carries env e L m s m' t ∧ (cellOf m' e t (va / 4096)).Saved zeroPage := by
  obtain ⟨hpte, hpres⟩ := pte_of_present hva hp
  have hframes := pfUpdateEnvPage_frames h.tables hva hr
  have hkept := (keepRule (P := (· = va / 4096))).pfUpdateEnvPage ⟨hva, rfl⟩ _ _ _ hr hs
  have hsame := (framesRule.pfUpdateEnvPage hva _ _ _ hr hs.dir hk).entries _ (user_address hva 0).1
  have hheld : (cellOf (m.store (e, va / 4096) (s.frames (s.pte va).frame)) e t (va / 4096)).held =
      some (s.frames (s.pte va).frame) := by
    rw [held_of_shown (hsame.present.trans hpres), hsame.frame, hframes, hpte]
  have hback : (cellOf (m.store (e, va / 4096) (s.frames (s.pte va).frame)) e t (va / 4096)).back =
      some (s.frames (s.pte va).frame) := by
    show ((m.store (e, va / 4096) (s.frames (s.pte va).frame)) (e, va / 4096)).join = _
    rw [DiskMap.store, Function.update_self]
    rfl
  refine ⟨_, ⟨(pfUpdateEnvPage_represents h hva hr).1, fun v hv => ?_, fun v hv => ?_, fun v hv => ?_⟩,
    WriteBack.saved_store hheld hback⟩
  · by_cases hvp : v = va / 4096
    · rw [hvp, DiskMap.store, Function.update_self]
      exact fun hc => nomatch hc
    · rwa [DiskMap.store_other fun hc => hvp (congrArg Prod.snd hc)]
  · by_cases hvp : v = va / 4096
    · rw [hvp, DiskMap.store, Function.update_self]
      exact fun hc => nomatch hc
    · rwa [DiskMap.store_other fun hc => hvp (congrArg Prod.snd hc)]
  · by_cases hvp : v = va / 4096
    · subst hvp
      refine WriteBack.keeps_store ?_ hheld hback
      rw [held_of_shown hpres, hpte]
    · have hentry : entryOf t v = entryOf s v := by
        rw [entryOf, hkept.env.dir]
        exact hkept.entries v (hL v hv) hvp
      rw [cellOf_congr hentry (fun _ => by rw [hframes])
        (DiskMap.store_other (fun hc => hvp (congrArg Prod.snd hc)) _)]
      exact .refl _ _

/-- The other pages when one goes. -/
theorem cellOf_unmap {v : Nat} (hs : Ready s) (hva : va < userTop) (hv : v < userPages) (hne : v ≠ va / 4096)
    (hr : unmapUserFrame va s = .ok () t) : cellOf m e t v = cellOf m e s v := by
  have hkept := keeps_unmap (P := (· = va / 4096)) hva rfl _ _ _ hr hs
  refine cellOf_congr ?_ (fun _ => ?_) rfl
  · rw [entryOf, hkept.env.dir]
    exact hkept.entries v hv hne
  · cases hr
    rfl

/-- Once it is backed up, dropping the victim's page is not seen. -/
theorem carries_backsUp {P : Nat → Prop} (hL : ∀ v, L v → v < userPages ∧ v ≠ pgfltemp / 4096)
    (h : Represents env e m s)
    (hs : Ready s) (ho : OwnFrames P s) (hP : P (pgfltemp / 4096)) (hv : victim.virtualAddress < userTop)
    (hp : s.present victim.virtualAddress = true) (hc : ∀ v, L v → (cellOf m e s v).Coherent zeroPage)
    (hr : BacksUp victim s u) : ∃ m', Carries env e L m s m' u ∧
      (L (victim.virtualAddress / 4096) → (cellOf m' e u (victim.virtualAddress / 4096)).Saved zeroPage) := by
  rcases hr with ⟨rfl, hclean⟩ | ⟨t, h1, h2⟩
  · refine ⟨m, .refl h, fun hin => hc _ hin ?_⟩
    rw [← hclean hp, modifiedBit, (pte_of_present hv hp).1]
    rfl
  · obtain ⟨m', hcarry, hsaved⟩ := carries_pfUpdateEnvPage (fun v hv => (hL v hv).1) h hs ho.heap hv hp h1
    have ht := (quiet_pfUpdateEnvPage hv _ _ _ h1 hs).ready
    have hot := ho.kept (framesRule.pfUpdateEnvPage hv _ _ _ h1 hs.dir ho.heap)
    rcases h2 with rfl | h2
    · exact ⟨m', hcarry, fun _ => hsaved⟩
    · -- the page at `PGFLTEMP` is none of `L`
      have hcell : ∀ v, L v → cellOf m' e u v = cellOf m' e t v := fun v hv =>
        cellOf_unmap ht (by decide) (hL v hv).1 (hL v hv).2 h2
      have hrep := represents_unmap hcarry.represents ht.dir (by decide) (hot.unmap ht.dir (by decide) hP h2).heap h2
      exact ⟨m', hcarry.trans (carries_same hrep hcell), fun hin => hcell _ hin ▸ hsaved⟩

/-- The page goes. -/
theorem carries_unmap {P : Nat → Prop} (hL : ∀ v, L v → v < userPages) (h : Represents env e m s) (hs : Ready s)
    (ho : OwnFrames P s) (hva : va < userTop) (hP : P (va / 4096))
    (hsaved : L (va / 4096) → (cellOf m e s (va / 4096)).Saved zeroPage) (hr : unmapUserFrame va s = .ok () t) :
    Carries env e L m s m t := by
  have hgone := sets_unmap hs hva hr
  have hnone : (cellOf m e t (va / 4096)).held = none := by
    apply if_neg
    have hshown := hgone.shown s.env.envPageDirectory (va / 4096) (user_address hva 0).1
    rw [if_pos ⟨rfl, rfl⟩, ← hgone.env.dir] at hshown
    exact fun hc => nomatch hshown.symm.trans hc
  refine ⟨represents_unmap h hs.dir hva (ho.unmap hs.dir hva hP hr).heap hr, fun _ h => h, fun _ h => h,
    fun v hv => ?_⟩
  by_cases hvp : v = va / 4096
  · subst hvp
    exact WriteBack.keeps_drop (hsaved hv) hnone rfl
  · rw [cellOf_unmap hs hva (hL v hv) hvp hr]
    exact .refl _ _

/-! A page comes. -/

/-- The page file is not in the frame of a new page. -/
theorem represents_mapped {s₁ s₂ : Machine} (h : Represents env e m s) (hd : s.env.envPageDirectory ≠ 0)
    (hva : va < userTop)
    (hal : va % 4096 = 0) (habsent : (entryOf s (va / 4096)).perm.present = false)
    (h1 : allocateFrame s = .ok f s₁) (h2 : mapUserFrame f va perm s₁ = .ok () s₂) :
    Represents env e m s₂ ∧ s₂.frames = s.frames := by
  have hpage : va = va / 4096 * 4096 := by omega
  obtain ⟨k, hk, rfl⟩ := onKernel_ok h1
  have h₁ : Represents env e m { s with kernel := k } := represents_kernel h fun P hP =>
    ⟨(hP.allocateFrame hk).1.heap, (hP.allocateFrame hk).1.same⟩
  obtain ⟨k', hmap, rfl⟩ := onKernel_ok h2
  dsimp only at hmap
  rw [hpage] at hmap
  refine ⟨represents_kernel (s := { s with kernel := k }) h₁ fun P hP => ?_, rfl⟩
  obtain ⟨page, hT⟩ := h.tables
  obtain ⟨-, hl, -, hpte, htab⟩ := hT.heap.allocateFrame hk
  refine mapFrame_pageHeap hP hd (user_address hva 0).1 hl ?_ hmap
  show (userEntry k.mem s.env.envPageDirectory (va / 4096)).perm.present = false
  rw [userEntry, hpte, htab]
  exact habsent

/-- A page that is rejected is not in the page file, nor of the stack or the user heap. -/
theorem placePage_rejected (h : Represents env e m s) (hd : s.env.envPageDirectory ≠ 0) (hva : va < userTop)
    (hal : va % 4096 = 0) (habsent : (entryOf s (va / 4096)).perm.present = false)
    (hr : placePage va perm s = .ok .exits t) :
    m (e, va / 4096) = none ∧ inStack va = false ∧ inUserHeap va = false := by
  unfold placePage at hr
  obtain ⟨f, s₁, h1, hr⟩ := ok_of_bind hr
  obtain ⟨_, s₂, h2, hr⟩ := ok_of_bind hr
  obtain ⟨b, s₃, h3, hr⟩ := ok_of_bind hr
  obtain ⟨-, -, -, hb, -⟩ := pfReadEnvPage_represents (represents_mapped h hd hva hal habsent h1 h2).1 hva h3
  split at hr
  · cases hr
  rename_i hno
  split at hr
  · rename_i hout
    rw [Bool.not_eq_true, hb, Option.isSome_eq_false_iff, Option.isNone_iff_eq_none] at hno
    rw [Bool.not_eq_true', Bool.or_eq_false_iff] at hout
    exact ⟨hno, hout⟩
  · obtain ⟨_, _, -, hr⟩ := ok_of_bind hr
    cases hr

/-- The new page has what the page file has for it, or zeros, in a frame that nothing else is written to. -/
theorem placePage_fills (h : Represents env e m s) (hd : s.env.envPageDirectory ≠ 0) (hva : va < userTop)
    (hal : va % 4096 = 0) (habsent : (entryOf s (va / 4096)).perm.present = false)
    (hknown : m (e, va / 4096) ≠ some none)
    (hr : placePage va perm s = .ok .returns t) : Represents env e m t ∧
      t.frames (t.pte va).frame = (m (e, va / 4096)).join.getD zeroPage ∧ ∀ g, g ≠ (t.pte va).frame →
      t.frames g = s.frames g := by
  unfold placePage at hr
  obtain ⟨f, s₁, h1, hr⟩ := ok_of_bind hr
  obtain ⟨_, s₂, h2, hr⟩ := ok_of_bind hr
  obtain ⟨h₂, hsame⟩ := represents_mapped h hd hva hal habsent h1 h2
  rw [← hsame]
  obtain ⟨b, s₃, h3, hlast⟩ := ok_of_bind hr
  obtain ⟨h₃, -, -, hb, hval⟩ := pfReadEnvPage_represents h₂ hva h3
  obtain ⟨hframe, hother, hfalse⟩ := pfReadEnvPage_frames hva h3
  cases hm : m (e, va / 4096) with
  | none =>
    -- not in the page file: a page of the stack or of the user heap
    rw [hm] at hb
    obtain rfl : b = false := hb
    obtain rfl := hfalse rfl
    rw [if_neg Bool.false_ne_true] at hlast
    split at hlast
    · cases hlast
    obtain ⟨_, u, h4, hlast⟩ := ok_of_bind hlast
    cases hlast
    obtain ⟨-, rfl⟩ := storePage_ok h4
    have hself : ∀ (S : Machine) (q : Pte) (F : Nat → Page),
        Machine.pte { S.setMem (S.mem.setPte (slot S.env.envPageDirectory va) q) with frames := F } va = q :=
        fun S q F =>
      Function.update_self ..
    rw [hself]
    exact ⟨(h₃.setUserPte hva _).withFrames _, Function.update_self .., fun g hg => Function.update_of_ne hg ..⟩
  | some o =>
    rw [hm] at hb
    obtain rfl : b = true := hb
    rw [if_pos rfl] at hlast
    cases hlast
    cases o with
    | none => exact absurd hm hknown
    | some p =>
      rw [hframe]
      exact ⟨h₃, hframe ▸ (hval p hm).2, hother⟩

/-- That is not seen. -/
theorem carries_placePage {P : Nat → Prop} (hL : ∀ v, L v → v < userPages) (h : Represents env e m s) (hs : Ready s)
    (ho : OwnFrames P s) (hLP : ∀ v, L v → (entryOf s v).perm.present = true → P v) (hva : va < userTop)
    (hal : va % 4096 = 0)
    (habsent : (entryOf s (va / 4096)).perm.present = false) (hknown : m (e, va / 4096) ≠ some none)
    (hperm : perm.buffered = false) (hr : placePage va perm s = .ok .returns t) : Carries env e L m s m t := by
  obtain ⟨hrep, hnew, hrest⟩ := placePage_fills h hs.dir hva hal habsent hknown hr
  have hset := placePage_sets hs hva hal hr
  have hpres : t.present va = true := by
    rw [present_eq hva, hset.env.dir, hset.shown _ _ (user_address hva 0).1, if_pos ⟨rfl, rfl⟩]
  obtain ⟨hpte, hpres⟩ := pte_of_present hva hpres
  rw [hpte] at hnew hrest
  have hown := ho.place hs hva hal habsent hperm hr
  have hkept := keeps_placePage (P := (· = va / 4096)) hva hal rfl _ _ _ hr hs
  refine ⟨hrep, fun _ h => h, fun _ h => h, fun v hv => ?_⟩
  by_cases hvp : v = va / 4096
  · subst hvp
    refine WriteBack.keeps_fetch (if_neg (by simp [habsent])) ?_ rfl
    rw [held_of_shown hpres, hnew]
    rfl
  · have hentry : entryOf t v = entryOf s v := by
      rw [entryOf, hkept.env.dir]
      exact hkept.entries v (hL v hv) hvp
    rw [cellOf_congr hentry (fun hp => hrest _ fun hc => hvp ?_) rfl]
    · exact .refl _ _
    · -- two pages in one frame
      have hheld : (entryOf t v).held = some (entryOf t (va / 4096)).frame := by
        rw [hentry, ← hc]
        exact held_of_present hp
      exact hown.inj v _ (.inl (hLP v hv hp)) (.inr rfl) _ hheld (held_of_present hpres)

/-! Steps of the kernel beside the pages. -/

theorem carries_kernel {k : Kernel} (hL : ∀ v, L v → v < userPages) (h : Represents env e m s)
    (hk : ∀ P, PageHeap s.kernel P → PageHeap k P ∧ ∀ p ∈ P, k.mem.pte (0, p) = s.kernel.mem.pte (0, p))
    (hentries : ∀ v < userPages, userEntry k.mem s.env.envPageDirectory v =
    userEntry s.mem s.env.envPageDirectory v) :
    Carries env e L m s m { s with kernel := k } :=
  carries_same (represents_kernel h hk) fun v hv => cellOf_congr (hentries v (hL v hv)) (fun _ => rfl) rfl

theorem carries_createElement {wse : WorkingSetElement} (hL : ∀ v, L v → v < userPages) (h : Represents env e m s)
    (hr : envPageWsListCreateElement va s = .ok wse t) : Carries env e L m s m t ∧ t.env = s.env := by
  unfold envPageWsListCreateElement at hr
  split at hr
  · obtain ⟨_, _, hr, -⟩ := ok_of_bind hr
    cases hr
  obtain ⟨a, u, h1, hr⟩ := ok_of_bind hr
  split at hr
  · obtain ⟨_, _, hr, -⟩ := ok_of_bind hr
    cases hr
  cases hr
  obtain ⟨k, hk, rfl⟩ := onKernel_ok h1
  have hsize : sizeofWorkingSetElement ≤ 4294963200 := by decide
  refine ⟨carries_kernel hL h (fun P hP => ?_) fun v hv => userEntry_within (h.tables.ready.kmalloc hk).2 hv, rfl⟩
  have hH := hP.holding_kmalloc hsize hk
  exact ⟨hH.heap, hH.same⟩

/-- A new page table has no pages. -/
theorem carries_tableFaultHandler (hL : ∀ v, L v → v < userPages) (h : Represents env e m s)
    (hd : s.env.envPageDirectory ≠ 0) (hno : s.mem.table s.env.envPageDirectory (pdx va) = none)
    (hr : tableFaultHandler va s = .ok () t) : Carries env e L m s m t := by
  obtain ⟨hpdx, k, hk, rfl⟩ := tableFaultHandler_ok hr
  obtain ⟨-, -, hsame⟩ := h.tables.ready.createPageTable (hpdx ▸ hno) hk
  refine carries_kernel hL h (fun P hP => ?_) fun v hv => hsame _ v hv
  have hH := hP.createPageTable hd hk
  exact ⟨hH.heap, hH.same⟩

/-- Placement. -/
theorem carries_placement {P : Nat → Prop} (hL : ∀ v, L v → v < userPages) (h : Represents env e m s) (hs : Ready s)
    (ho : OwnFrames P s) (hLP : ∀ v, L v → (entryOf s v).perm.present = true → P v) (hva : va < userTop)
    (hal : va % 4096 = 0)
    (habsent : (entryOf s (va / 4096)).perm.present = false) (hknown : m (e, va / 4096) ≠ some none)
    (hr : placement va s = .ok .returns t) : Carries env e L m s m t := by
  unfold placement at hr
  obtain ⟨o, u, h1, hr⟩ := ok_of_bind hr
  cases o with
  | exits => cases hr
  | returns =>
    have hplaced := carries_placePage hL h hs ho hLP hva hal habsent hknown rfl h1
    obtain ⟨wse, w, h2, hr⟩ := ok_of_bind hr
    obtain ⟨hmade, -⟩ := carries_createElement hL hplaced.represents h2
    obtain ⟨_, x, h3, hr⟩ := ok_of_bind hr
    cases h3
    obtain ⟨_, y, h4, hr⟩ := ok_of_bind hr
    cases h4
    cases hr
    refine (hplaced.trans hmade).trans (carries_env hmade.represents ?_ ?_)
    · show Env.envPageDirectory (if _ then _ else _) = _
      split <;> rfl
    · show SameDisk _ (if _ then _ else _)
      split <;> exact ⟨rfl, rfl, rfl⟩

end Carries

end Fos.Fault
