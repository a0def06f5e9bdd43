/-
`kmalloc` as a rule: a relation between states that its pieces keep to, `kmalloc` keeps to. For pages of the
kernel heap the block allocator is not among the pieces.
-/
import Fos.Heap.KernelHeap
import Fos.Lib.StateCode

namespace Fos.Heap

open Fos.Lib Fos.Memory

/-- What each piece of `kmalloc` for pages does is in `R`. -/
structure HeapRule (R : Kernel → Kernel → Prop) : Prop where
  refl : ∀ s, R s s
  trans : ∀ {s t u}, R s t → R t u → R s u
  fields : ∀ {g : Kernel → Kernel}, (∀ s, (g s).mem = s.mem ∧ (g s).dyn = s.dyn) → Does R (modify g : KM Unit)
  allocateFrame : Does R (onMem Mem.allocateFrame)
  mapKernelFrame : ∀ f va perm, Does R (onMem fun m => do return ((), ← mapKernelFrame m f va perm))
  setFrameSize : ∀ va size, Does R (setFrameSize va size)

section HeapRule

variable {R : Kernel → Kernel → Prop} (hR : HeapRule R)

include hR

namespace HeapRule

theorem bind {α β : Type} {x : KM α} {f : α → KM β} (hx : Does R x) (hf : ∀ a, Does R (f a)) : Does R (x >>= f) :=
  hx.bind hR.trans hf

theorem pure {α : Type} (a : α) : Does R (Pure.pure a : KM α) := .pure hR.refl a

theorem get : Does R (MonadState.get : KM Kernel) := .get hR.refl

theorem guard {α : Type} {c : Prop} [Decidable c] {e : Halt} {f : Unit → KM α} (hf : Does R (f ())) :
    Does R (if c then throw e >>= f else f ()) :=
  .guard (R := R) hR.trans hf

theorem acquireLock : Does R Heap.acquireLock := hR.bind hR.get fun _ => hR.guard (hR.fields fun _ => ⟨rfl, rfl⟩)

theorem releaseLock : Does R Heap.releaseLock := hR.bind hR.get fun _ => hR.guard (hR.fields fun _ => ⟨rfl, rfl⟩)

theorem mapPages : ∀ n va : Nat, Does R (Heap.mapPages va n)
  | 0, _ => hR.pure _
  | n + 1, _ => hR.bind hR.allocateFrame fun _ => hR.bind (hR.mapKernelFrame _ _ _) fun _ => mapPages n _

theorem writeSize (i v : Nat) : Does R (Heap.writeSize i v) :=
  hR.fields (g := fun s => { s with allocatedSize := ⟨Function.update s.allocatedSize.val i v,
    i :: s.allocatedSize.used⟩ }) fun _ => ⟨rfl, rfl⟩

theorem writeSizes : ∀ n i v : Nat, Does R (Heap.writeSizes i v n)
  | 0, _, _ => hR.pure _
  | n + 1, i, v => hR.bind (hR.writeSize i v) fun _ => writeSizes n (i + 1) v

/-- The rule, where the block allocator keeps to `R` or is not asked. -/
theorem kmalloc_of {size : Nat} (hblock : size ≤ dynAllocMaxBlockSize → Does R (kallocBlock size)) :
    Does R (Heap.kmalloc size) := by
  have hrelease : ∀ v : Nat, Does R (do Heap.releaseLock; return v : KM Nat) := fun v =>
    hR.bind hR.releaseLock fun _ => hR.pure _
  have hrecord : ∀ va n : Nat, Does R (do recordSize va n; Heap.releaseLock; return va : KM Nat) := fun va n =>
    hR.bind (hR.bind (hR.writeSizes _ _ _) fun _ => hR.setFrameSize _ _) fun _ => hrelease va
  unfold Heap.kmalloc
  apply hR.bind hR.acquireLock
  intro _
  dsimp only
  refine .ite (hrelease 0) ?_
  split
  · rename_i hs
    exact hR.bind (hblock hs) fun va => hrelease va
  refine hR.bind hR.get fun s => .ite (hrelease 0) ?_
  refine .ite_rest ?_ fun hrest => hR.bind (hR.fields fun _ => ⟨rfl, rfl⟩) fun _ => hrest
  refine hR.bind hR.get fun s => .ite (hR.bind (hR.mapPages _ _) fun _ => hrecord _ _) ?_
  refine hR.bind hR.get fun s => .ite (hrelease 0) (hR.bind (hR.mapPages _ _) fun _ => ?_)
  exact hR.bind (hR.fields fun _ => ⟨rfl, rfl⟩) fun _ => hrecord _ _

theorem kmalloc (hblock : ∀ size, Does R (kallocBlock size)) (size : Nat) : Does R (Heap.kmalloc size) :=
  hR.kmalloc_of fun _ => hblock size

/-- A page of the kernel heap. -/
theorem kmallocPage : Does R (Heap.kmalloc pageSize) := hR.kmalloc_of fun h => absurd h (by decide)

end HeapRule

end HeapRule

end Fos.Heap
