/-
The steps the fault handler is made of: a relation between states that each of them keeps to, the handler keeps
to. Here it is used for the page directories.
-/
import Fos.Disk.PageCode
import Fos.Fault.Handler
import Fos.Proc.Directories

namespace Fos.Fault

open Fos.Memory Fos.Heap Fos.Proc Fos.Disk Fos.Lib

/-- What each step of the handler for page `va` does is in `R`. -/
structure Steps (va : Nat) (R : Machine → Machine → Prop) : Prop where
  refl : ∀ s, R s s
  trans : ∀ {s t u}, R s t → R t u → R s u
  kmalloc : ∀ size, Does R (onKernel (kmalloc size))
  kfree : ∀ ptr, Does R (onKernel (kfree ptr))
  allocateFrame : Does R Proc.allocateFrame
  map : ∀ f perm, Does R (mapUserFrame f (roundDown va pageSize) perm)
  unmap : ∀ w, Does R (unmapUserFrame w)
  unmapKernel : ∀ w, Does R (modifyMem (·.unmapFrame 0 w))
  permissions : ∀ w x y, Does R (ptSetPagePermissions w x y)
  setPte : ∀ (s : Machine) a e, R s (s.setMem (s.mem.setPte a e))
  contents : ∀ (s : Machine) frames pageFile, R s { s with frames, pageFile }
  lists : ∀ {g : Env → Env}, (∀ e, (g e).envPageDirectory = e.envPageDirectory) → Does R (modifyEnv g)

section Steps

variable {va w : Nat} {R : Machine → Machine → Prop} (hR : Steps va R)

include hR

namespace Steps

theorem bind {α β : Type} {x : PM α} {f : α → PM β} (hx : Does R x) (hf : ∀ a, Does R (f a)) : Does R (x >>= f) :=
  hx.bind hR.trans hf

theorem pure {α : Type} (a : α) : Does R (Pure.pure a : PM α) := .pure hR.refl a

theorem get : Does R (MonadState.get : PM Machine) := .get hR.refl

theorem guard {α : Type} {c : Prop} [Decidable c] {e : Halt} {f : Unit → PM α} (hf : Does R (f ())) :
    Does R (if c then throw e >>= f else f ()) :=
  .guard (R := R) hR.trans hf

/-! ## The page file -/

theorem modifyPageFile (g : PageFile → PageFile) : Does R (Proc.modifyPageFile g) :=
  .modify fun s => hR.contents s s.frames (g s.pageFile)

theorem storePage (g : Page → Page) : Does R (Proc.storePage w g) := by
  intro s a t h
  unfold Proc.storePage at h
  rw [get_bind] at h
  split at h
  · cases h
    exact hR.trans (hR.setPte s _ _) (hR.contents _ _ _)
  · cases h

theorem pageRule : PageRule (fun _ => True) (Does R) where
  pure := hR.pure
  throw e _ := .throw e
  bind := hR.bind
  get := hR.get
  kmalloc := hR.kmalloc pageSize
  pageFile := hR.modifyPageFile
  disk g hg := hR.lists fun e => by
    obtain ⟨dir, tables, pages, hge⟩ := hg e
    rw [hge]
  unmodified w _ := hR.permissions w _ _
  writeBack w _ := by
    unfold writeBack
    exact hR.bind hR.get fun s => hR.guard (hR.bind (hR.modifyPageFile _) fun _ => .modify fun t => hR.setPte t _ _)
  store w g _ := hR.storePage g

theorem pfUpdateEnvPage : Does R (Disk.pfUpdateEnvPage w) := hR.pageRule.pfUpdateEnvPage trivial

theorem pfReadEnvPage : Does R (Disk.pfReadEnvPage w) := hR.pageRule.pfReadEnvPage trivial

theorem ptGetPagePermissions : Does R (Proc.ptGetPagePermissions w) := hR.bind hR.get fun _ => hR.pure _

/-! ## Placement -/

theorem placePage (perm : Perm) : Does R (Fault.placePage (roundDown va pageSize) perm) := by
  unfold Fault.placePage
  refine hR.bind hR.allocateFrame fun f => hR.bind (hR.map f perm) fun _ => hR.bind hR.pfReadEnvPage fun b => ?_
  exact .ite (hR.pure _) (.ite (hR.pure _) (hR.bind (hR.storePage _) fun _ => hR.pure _))

theorem envPageWsListCreateElement : Does R (Proc.envPageWsListCreateElement w) := by
  unfold Proc.envPageWsListCreateElement
  exact hR.guard (hR.bind (hR.kmalloc _) fun wse => hR.guard (hR.pure _))

theorem placement : Does R (Fault.placement (roundDown va pageSize)) := by
  unfold Fault.placement
  apply hR.bind (hR.placePage _)
  intro o
  cases o with
  | exits => exact hR.pure _
  | returns =>
    refine hR.bind hR.envPageWsListCreateElement fun wse => hR.bind (hR.lists fun _ => rfl) fun _ => ?_
    refine hR.bind (hR.lists fun e => ?_) fun _ => hR.pure _
    split <;> rfl

/-! ## Replacement -/

theorem clearPresent : ∀ l : List Nat, Does R (Fault.clearPresent l)
  | [] => hR.pure _
  | w :: l => hR.bind (hR.permissions w _ _) fun _ => clearPresent l

theorem emptyActive : ∀ l : List WorkingSetElement, Does R (Fault.emptyActive l)
  | [] => hR.pure _
  | _ :: l =>
    hR.bind (hR.permissions _ _ _) fun _ => hR.bind (hR.lists fun _ => rfl) fun _ => hR.bind (hR.kfree _) fun _ =>
      emptyActive l

theorem optimalFault : Does R (Fault.optimalFault va) := by
  have hrecord : Does R (recordReference va (roundDown va pageSize)) := by
    unfold recordReference
    refine hR.bind (hR.kmalloc _) fun wse => hR.guard (hR.bind (hR.lists fun _ => rfl) fun _ => ?_)
    exact hR.bind (hR.kmalloc _) fun ref => hR.guard (hR.lists fun _ => rfl)
  have hshow : Does R (showPage (roundDown va pageSize)) := by
    unfold showPage
    exact hR.bind hR.get fun s => .ite (hR.bind (hR.permissions _ _ _) fun _ => hR.pure _) (hR.placePage _)
  have hrediscover : Does R rediscover := by
    unfold rediscover
    exact hR.bind hR.get fun s => .ite (hR.clearPresent _) (hR.pure _)
  have hroom : Does R makeRoom := by
    unfold makeRoom
    exact hR.bind hR.get fun s => .ite (hR.emptyActive _) (hR.pure _)
  unfold Fault.optimalFault
  refine hR.bind hrediscover fun _ => hR.bind hR.get fun s => .ite ?_ ?_
  · exact hR.bind (hR.permissions _ _ _) fun _ => hR.pure _
  · exact hR.bind hroom fun _ => hR.bind hrecord fun _ => hshow

theorem clockVictim : ∀ fuel : Nat, Does R (Fault.clockVictim fuel)
  | 0 => .throw _
  | fuel + 1 => by
    unfold Fault.clockVictim
    apply hR.bind hR.get
    intro s
    dsimp only
    split
    · exact .throw _
    · rename_i w _
      refine hR.bind hR.ptGetPagePermissions fun perms => .ite ?_ ?_
      · exact hR.bind (hR.permissions _ _ _) fun _ => hR.bind (hR.lists fun _ => rfl) fun _ => clockVictim fuel
      · refine .ite_rest (hR.bind (hR.unmap _) fun _ => hR.pure _) fun hrest => ?_
        exact hR.bind hR.get fun s => .ite (hR.bind hR.pfUpdateEnvPage fun _ => hrest) hrest

theorem clockReplacement : Does R (Fault.clockReplacement (roundDown va pageSize)) := by
  unfold Fault.clockReplacement
  refine hR.bind hR.get fun s => .ite_rest ?_ fun hrest => hR.bind (hR.lists fun _ => rfl) fun _ => hrest
  refine hR.bind hR.get fun s => hR.bind (hR.clockVictim _) fun victim => hR.bind (hR.lists fun _ => rfl) fun _ => ?_
  apply hR.bind (hR.placePage _)
  intro o
  cases o with
  | exits => exact hR.pure _
  | returns => exact hR.bind (hR.lists fun _ => rfl) fun _ => hR.bind (hR.lists fun _ => rfl) fun _ => hR.pure _

theorem lruReplacement : Does R (Fault.lruReplacement (roundDown va pageSize)) := by
  unfold Fault.lruReplacement
  apply hR.bind hR.get
  intro s
  dsimp only
  split
  · exact .throw _
  · rename_i victim _
    refine hR.bind hR.ptGetPagePermissions fun perms => .ite_rest ?_ fun hrest => ?_
    · refine hR.bind (hR.unmap _) fun _ => hR.bind (hR.lists fun _ => rfl) fun _ => hR.bind (hR.placePage _) fun o => ?_
      cases o with
      | exits => exact hR.pure _
      | returns => exact hR.bind (hR.lists fun _ => rfl) fun _ => hR.pure _
    · refine hR.bind hR.get fun s => .ite ?_ hrest
      exact hR.bind hR.pfUpdateEnvPage fun _ => hR.bind (hR.unmap _) fun _ => hrest

theorem scanClean : ∀ l : List WorkingSetElement, Does R (Fault.scanClean l)
  | [] => hR.pure _
  | _ :: l => hR.bind hR.ptGetPagePermissions fun _ => .ite (hR.pure _) (scanClean l)

theorem scanUnused : ∀ l : List WorkingSetElement, Does R (Fault.scanUnused l)
  | [] => hR.pure _
  | _ :: l =>
    hR.bind hR.ptGetPagePermissions fun _ => .ite (hR.pure _) (hR.bind (hR.permissions _ _ _) fun _ => scanUnused l)

theorem modifiedClockVictim (l : List WorkingSetElement) : ∀ fuel : Nat, Does R (Fault.modifiedClockVictim l fuel)
  | 0 => .throw _
  | fuel + 1 => by
    unfold Fault.modifiedClockVictim
    apply hR.bind (hR.scanClean l)
    intro o
    cases o with
    | some w => exact hR.pure _
    | none =>
      apply hR.bind (hR.scanUnused l)
      intro o
      cases o with
      | some w => exact hR.pure _
      | none => exact modifiedClockVictim l fuel

theorem modifiedClockReplacement : Does R (Fault.modifiedClockReplacement (roundDown va pageSize)) := by
  unfold Fault.modifiedClockReplacement
  apply hR.bind hR.get
  intro s
  dsimp only
  split
  · exact .throw _
  · refine hR.bind (hR.modifiedClockVictim _ 2) fun victim => hR.bind (hR.lists fun _ => rfl) fun _ => ?_
    refine hR.bind hR.ptGetPagePermissions fun perms => .ite_rest ?_ fun hrest => ?_
    · refine hR.bind (hR.unmap _) fun _ => hR.bind (hR.lists fun _ => rfl) fun _ => hR.bind (hR.placePage _) fun o => ?_
      cases o with
      | exits => exact hR.pure _
      | returns => exact hR.bind (hR.lists fun _ => rfl) fun _ => hR.pure _
    · exact hR.bind hR.pfUpdateEnvPage fun _ => hR.bind (hR.unmapKernel _) fun _ => hrest

/-- The rule: under every policy the handler does what its steps do. -/
theorem pageFaultHandler (algo : PageRepAlgo) : Does R (Fault.pageFaultHandler algo va) := by
  unfold Fault.pageFaultHandler
  refine .ite hR.optimalFault (hR.bind hR.get fun s => .ite hR.placement ?_)
  cases algo with
  | clock => exact hR.clockReplacement
  | lruTimeApprox => exact hR.lruReplacement
  | modifiedClock => exact hR.modifiedClockReplacement
  | _ => exact hR.pure _

end Steps

end Steps

end Fos.Fault
