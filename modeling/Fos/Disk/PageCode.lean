/-
The code of the page file as a rule: a property of code that its pieces have and that sequences keep, the
functions of the page file have. It is used for what code does to the state and for code that never waits.
-/
import Fos.Disk.PageFile

namespace Fos.Disk

open Fos.Memory Fos.Heap Fos.Proc

/-- A change of what the process knows of its pages on the disk. -/
def DiskOnly (g : Env → Env) : Prop := ∀ e, ∃ dir tables pages,
  g e = { e with diskEnvPgdir := dir, diskTables := tables, diskPages := pages }

/-- The end of `pf_update_env_page`. -/
def writeBack (va : Nat) : PM Unit := do
  let s ← get
  if !s.hasTable va then throw .faults
  let e := s.pte va
  writeDiskPage (s.env.diskPages (va / 4096)) (s.frames e.frame)
  modifyMem (·.setPte (slot s.env.envPageDirectory va) { e with perm := { e.perm with modified := false } })

/-- The pieces of the code of the page file for the addresses in `P` have `Q`, and sequences keep it. -/
structure PageRule (P : Nat → Prop) (Q : ∀ {α : Type}, PM α → Prop) : Prop where
  pure : ∀ {α : Type} (a : α), Q (Pure.pure a : PM α)
  throw : ∀ {α : Type} (e : Halt), e ≠ .spins → Q (MonadExcept.throw e : PM α)
  bind : ∀ {α β : Type} {x : PM α} {f : α → PM β}, Q x → (∀ a, Q (f a)) → Q (x >>= f)
  get : Q (MonadState.get : PM Machine)
  kmalloc : Q (onKernel (kmalloc pageSize))
  pageFile : ∀ g, Q (modifyPageFile g)
  disk : ∀ g, DiskOnly g → Q (modifyEnv g)
  unmodified : ∀ va, P va → Q (ptSetPagePermissions va .none { modified := true })
  writeBack : ∀ va, P va → Q (writeBack va)
  store : ∀ va g, P va → Q (storePage va g)

section PageRule

variable {P : Nat → Prop} {Q : ∀ {α : Type}, PM α → Prop} {va : Nat}

namespace PageRule

theorem ite {α : Type} {c : Prop} [Decidable c] {x y : PM α} (hx : Q x) (hy : Q y) : Q (if c then x else y) := by
  split
  · exact hx
  · exact hy

/-- A branch that does something more and then goes on as the other one. -/
theorem ite_rest {α : Type} {c : Prop} [Decidable c] {x y : PM α} (hy : Q y) (hx : Q y → Q x) :
    Q (if c then x else y) :=
  ite (hx hy) hy

variable (h : PageRule P Q)

include h

/-- A check that stops the kernel. -/
theorem guard {α : Type} {c : Prop} [Decidable c] {e : Halt} (he : e ≠ .spins) {f : Unit → PM α} (hf : Q (f ())) :
    Q (if c then MonadExcept.throw e >>= f else f ()) := by
  split
  · rename_i hc
    have hbind : (MonadExcept.throw e >>= f : PM α) = MonadExcept.throw e := rfl
    rw [hbind]
    exact h.throw e he
  · exact hf

theorem getDiskPageDirectory : Q Disk.getDiskPageDirectory := by
  unfold Disk.getDiskPageDirectory
  refine h.bind h.get fun s => ite ?_ (h.pure _)
  exact h.bind h.kmalloc fun ptr => h.guard (by decide) (h.disk _ fun e => ⟨ptr, fun _ => none, e.diskPages, rfl⟩)

theorem getDiskPageTable (create : Bool) : Q (Disk.getDiskPageTable va create) := by
  unfold Disk.getDiskPageTable
  refine h.bind h.get fun s => ite (h.pure _) (ite ?_ (h.pure _))
  refine h.bind h.kmalloc fun ptr => h.guard (by decide) (h.bind h.get fun s => ?_)
  exact h.bind (h.disk _ fun e => ⟨e.diskEnvPgdir, _, _, rfl⟩) fun _ => h.pure _

theorem allocateDiskFrame : Q Disk.allocateDiskFrame := by
  unfold Disk.allocateDiskFrame
  apply h.bind h.get
  intro s
  split
  · exact h.pure _
  · exact h.bind (h.pageFile _) fun _ => h.pure _

theorem diskFrameFor : Q (Disk.diskFrameFor va) := by
  unfold Disk.diskFrameFor
  refine h.guard (by decide) (h.bind h.getDiskPageDirectory fun _ => h.bind (h.getDiskPageTable true) fun _ => ?_)
  refine h.bind h.get fun s => ite (h.pure _) (h.bind h.allocateDiskFrame fun o => ?_)
  cases o with
  | none => exact h.pure _
  | some f => exact h.bind (h.disk _ fun e => ⟨e.diskEnvPgdir, e.diskTables, _, rfl⟩) fun _ => h.pure _

theorem pfAddEnvPage (p : Page) : Q (Disk.pfAddEnvPage va p) := by
  unfold Disk.pfAddEnvPage
  apply h.bind h.diskFrameFor
  intro o
  cases o with
  | none => exact h.pure _
  | some f => exact h.bind (h.pageFile _) fun _ => h.pure _

theorem pfAddEmptyEnvPage (zero : Bool) : Q (Disk.pfAddEmptyEnvPage va zero) := by
  unfold Disk.pfAddEmptyEnvPage
  exact ite (h.pfAddEnvPage _) (h.bind h.diskFrameFor fun _ => h.pure _)

theorem hasDiskPage : Q (Disk.hasDiskPage va) := by
  unfold Disk.hasDiskPage
  exact h.bind (h.getDiskPageTable false) fun _ => h.bind h.get fun _ => h.pure _

theorem pfUpdateEnvPage (hva : P va) : Q (Disk.pfUpdateEnvPage va) := by
  unfold Disk.pfUpdateEnvPage
  refine h.guard (by decide) (h.bind h.getDiskPageDirectory fun _ => h.bind h.hasDiskPage fun b => ?_)
  refine ite_rest (h.writeBack va hva) fun hrest => ite ?_ (h.bind (h.throw _ (by decide)) fun _ => hrest)
  exact h.bind (h.pfAddEmptyEnvPage false) fun r => h.guard (by decide) hrest

theorem pfReadEnvPage (hva : P (roundDown va pageSize)) : Q (Disk.pfReadEnvPage va) := by
  unfold Disk.pfReadEnvPage
  refine h.bind h.get fun _ => ite (h.pure _) (h.bind h.hasDiskPage fun b => ite (h.pure _) ?_)
  exact h.bind h.get fun s => h.bind (h.store _ _ hva) fun _ => h.bind (h.unmodified _ hva) fun _ => h.pure _

theorem ptGetPagePermissions : Q (Proc.ptGetPagePermissions va) := h.bind h.get fun _ => h.pure _

end PageRule

end PageRule

end Fos.Disk
