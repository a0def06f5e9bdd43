/-
The fault handler, `kern/trap/fault_handler.c`, for a process: the checks of `fault_handler`, a page table for
an address that has none, and `page_fault_handler` with its placement and its replacement strategies. Without a
process the handler panics, and `env_exit` does not return to it. The TLB, the counters of faults and what is
printed are left out.
-/
import Fos.Disk.PageFile

namespace Fos.Fault

open Fos.Memory Fos.Heap Fos.Proc Fos.Disk

/-! ## Settings and statics -/

/-- The values of `_PageRepAlgoType`. -/
inductive PageRepAlgo where
  | lruTimeApprox
  | lruListsApprox
  | clock
  | fifo
  | modifiedClock
  | nchanceClock
  | dynamicLocal
  | optimal
  deriving DecidableEq, Repr

/-- What the handler reads of the trap frame: whether the trap came from user mode, and `FEC_WR`. -/
structure Trapframe where
  userTrap : Bool
  write : Bool
  deriving DecidableEq, Repr

/-- The statics of the handler, and the kernel stacks of the process and of the CPU. A process is named by its
directory. -/
structure Faults where
  pageRepAlgoType : PageRepAlgo
  enableBuffering : Bool := false
  lastFaultVa : Nat := 0
  lastFaultedEnv : Option Nat := none
  numRepeatedFault : Nat := 0
  kstack : Nat
  cpuStack : Nat

structure FaultState where
  machine : Machine
  faults : Faults

/-- Code of the handler. -/
abbrev FM (α : Type) := EStateM Halt FaultState α

/-- The handler returns, or `env_exit` takes the process off the CPU. -/
inductive Outcome where
  | returns
  | exits
  deriving DecidableEq, Repr

def onMachine {α : Type} (x : PM α) : FM α := fun s =>
  match x s.machine with
  | .ok a m => .ok a { s with machine := m }
  | .error e m => .error e { s with machine := m }

/-! ## Lists of elements -/

/-- The element at an address. -/
def elementAt (l : List WorkingSetElement) (addr : Nat) : Option WorkingSetElement := l.find? (·.addr = addr)

/-- `LIST_NEXT` of the element at an address, `LIST_FIRST` after the last one. -/
def nextOf (l : List WorkingSetElement) (addr : Nat) : Option WorkingSetElement :=
  (l.dropWhile (·.addr ≠ addr)).tail.head?.or l.head?

/-- The list from the element at an address on, then the elements before it. -/
def listFrom (l : List WorkingSetElement) (addr : Nat) : List WorkingSetElement :=
  l.dropWhile (·.addr ≠ addr) ++ l.takeWhile (·.addr ≠ addr)

/-- The element at an address gets page `va`. -/
def setElement (l : List WorkingSetElement) (addr va : Nat) (resetTime : Bool) : List WorkingSetElement :=
  l.map fun w => if w.addr = addr then ⟨w.addr, va, if resetTime then 0 else w.timeStamp⟩ else w

/-! ## Pages -/

def userWriteable : Perm := { user := true, writeable := true }

def presentUserWriteable : Perm := { present := true, user := true, writeable := true }

/-- A frame for page `va`, with what the page file has for it; a page it does not have is a page of zeros in
the stack and the user heap, and an illegal access elsewhere. -/
def placePage (va : Nat) (perm : Perm) : PM Outcome := do
  let f ← allocateFrame
  mapUserFrame f va perm
  if ← pfReadEnvPage va then return .returns
  if !(inStack va || inUserHeap va) then return .exits
  storePage va fun _ => zeroPage
  return .returns

/-- Placement: the page and a new element for it. -/
def placement (va : Nat) : PM Outcome := do
  match ← placePage va presentUserWriteable with
  | .exits => return .exits
  | .returns =>
    let wse ← envPageWsListCreateElement va
    modifyEnv fun e => { e with pageWsList := e.pageWsList ++ [wse] }
    modifyEnv fun e =>
      if e.pageWsList.length = e.pageWsMaxSize
        then { e with pageLastWsElement := e.pageWsList.head?.map (·.addr) } else e
    return .returns

/-- `LIST_FIRST` becomes the last element. -/
def firstIsLast : PM Unit := modifyEnv fun e => { e with pageLastWsElement := e.pageWsList.head?.map (·.addr) }

/-- The loop that moves the first element to the tail until the element after the victim is the first one. -/
def rotateToNext (victim : Nat) : PM Unit := modifyEnv fun e =>
  { e with pageWsList := match nextOf e.pageWsList victim with
      | some w => listFrom e.pageWsList w.addr
      | none => e.pageWsList }

/-! ## Optimal -/

/-- The loop that clears `PERM_PRESENT`. -/
def clearPresent : List Nat → PM Unit
  | [] => pure ()
  | va :: l => do
    ptSetPagePermissions va .none .permPresent
    clearPresent l

/-- The loop that empties `ActiveWorkingSet`. -/
def emptyActive : List WorkingSetElement → PM Unit
  | [] => pure ()
  | e :: l => do
    ptSetPagePermissions e.virtualAddress .none .permPresent
    modifyEnv ({ · with activeWorkingSet := l })
    onKernel (kfree e.addr)
    emptyActive l

/-- At the first fault the pages of the working set go, so that the next access to each faults. -/
def rediscover : PM Unit := do
  let E := (← get).env
  if E.referenceStreamList = [] then clearPresent (E.pageWsList.map (·.virtualAddress))

/-- A full `ActiveWorkingSet` is emptied. -/
def makeRoom : PM Unit := do
  let E := (← get).env
  if E.pageWsMaxSize ≤ E.activeWorkingSet.length then emptyActive E.activeWorkingSet

/-- The new elements of `ActiveWorkingSet` and of the reference stream. -/
def recordReference (faultVa va : Nat) : PM Unit := do
  let wse ← onKernel (kmalloc sizeofWorkingSetElement)
  if wse = 0 then throw .faults
  modifyEnv fun e => { e with activeWorkingSet := e.activeWorkingSet ++ [⟨wse, va, 0⟩] }
  let ref ← onKernel (kmalloc sizeofPageRefElement)
  if ref = 0 then throw .faults
  modifyEnv fun e => { e with referenceStreamList := e.referenceStreamList ++ [faultVa] }

/-- The page is there again, or comes in. -/
def showPage (va : Nat) : PM Outcome := do
  let s ← get
  if (s.mem.getFrameInfo s.env.envPageDirectory va).isSome then
    ptSetPagePermissions va presentUserWriteable .none
    return .returns
  placePage va userWriteable

def optimalFault (faultVa : Nat) : PM Outcome := do
  rediscover
  let va := roundDown faultVa pageSize
  if (← get).env.activeWorkingSet.any (fun e => roundDown e.virtualAddress pageSize = va) then
    ptSetPagePermissions faultVa .permPresent .none
    return .returns
  makeRoom
  recordReference faultVa va
  showPage va

/-! ## Clock -/

/-- The loop of the clock hand: a used page is passed over and loses `PERM_USED`, an unused one is unmapped,
written back first if it was modified. One round of the list and one more step end it. -/
def clockVictim : Nat → PM WorkingSetElement
  | 0 => throw .spins
  | fuel + 1 => do
    let E := (← get).env
    match E.pageLastWsElement.bind (elementAt E.pageWsList) with
    | none => throw .faults
    | some w =>
      let perms ← ptGetPagePermissions w.virtualAddress
      if perms.used then
        ptSetPagePermissions w.virtualAddress .none { used := true }
        modifyEnv fun e => { e with pageLastWsElement := (nextOf e.pageWsList w.addr).map (·.addr) }
        clockVictim fuel
      else
        if perms.modified then
          let s ← get
          if (s.mem.getFrameInfo s.env.envPageDirectory w.virtualAddress).isSome then
            pfUpdateEnvPage w.virtualAddress
        unmapUserFrame w.virtualAddress
        return w

/-- The branch that places again is not taken: the list is full. -/
def clockReplacement (va : Nat) : PM Outcome := do
  if (← get).env.pageLastWsElement = none then firstIsLast
  let victim ← clockVictim ((← get).env.pageWsList.length + 1)
  modifyEnv fun e => { e with pageWsList := setElement e.pageWsList victim.addr va false }
  match ← placePage va userWriteable with
  | .exits => return .exits
  | .returns =>
    rotateToNext victim.addr
    firstIsLast
    return .returns

/-! ## Aging -/

/-- The loop that finds the first element of the smallest time stamp below `minTimeStamp`. -/
def oldest : List WorkingSetElement → Option WorkingSetElement → Nat → Option WorkingSetElement
  | [], best, _ => best
  | w :: l, best, minTimeStamp =>
    if w.timeStamp < minTimeStamp then oldest l (some w) w.timeStamp else oldest l best minTimeStamp

def lruReplacement (va : Nat) : PM Outcome := do
  let l := (← get).env.pageWsList
  match (oldest l none 0xFFFFFFFF).or l.head? with
  | none => throw (.panic "LRU Replacement: WS empty!")
  | some victim =>
    let perms ← ptGetPagePermissions victim.virtualAddress
    if perms.modified then
      let s ← get
      if (s.mem.getFrameInfo s.env.envPageDirectory victim.virtualAddress).isSome then
        pfUpdateEnvPage victim.virtualAddress
        unmapUserFrame pgfltemp
    unmapUserFrame victim.virtualAddress
    modifyEnv fun e => { e with pageWsList := setElement e.pageWsList victim.addr va true }
    match ← placePage va presentUserWriteable with
    | .exits => return .exits
    | .returns =>
      modifyEnv fun e => { e with
        pageLastWsElement := if e.pageWsList.length = e.pageWsMaxSize then e.pageWsList.head?.map (·.addr) else none }
      return .returns

/-! ## Modified clock -/

/-- The first pass of a round: an element neither used nor modified. -/
def scanClean : List WorkingSetElement → PM (Option WorkingSetElement)
  | [] => return none
  | w :: l => do
    let perms ← ptGetPagePermissions w.virtualAddress
    if !perms.used && !perms.modified then return some w
    scanClean l

/-- The second pass: an element not used; the others lose `PERM_USED`. -/
def scanUnused : List WorkingSetElement → PM (Option WorkingSetElement)
  | [] => return none
  | w :: l => do
    let perms ← ptGetPagePermissions w.virtualAddress
    if !perms.used then return some w
    ptSetPagePermissions w.virtualAddress .none { used := true }
    scanUnused l

/-- The rounds, from the element the iterator starts at; two rounds end the loop. -/
def modifiedClockVictim (l : List WorkingSetElement) : Nat → PM WorkingSetElement
  | 0 => throw .spins
  | fuel + 1 => do
    match ← scanClean l with
    | some w => return w
    | none =>
      match ← scanUnused l with
      | some w => return w
      | none => modifiedClockVictim l fuel

def modifiedClockReplacement (va : Nat) : PM Outcome := do
  let E := (← get).env
  let iterator := match E.pageLastWsElement with
    | some a => elementAt E.pageWsList a
    | none => E.pageWsList.head?
  match iterator with
  | none => throw .faults
  | some w =>
    let victim ← modifiedClockVictim (listFrom E.pageWsList w.addr) 2
    rotateToNext victim.addr
    let perms ← ptGetPagePermissions victim.virtualAddress
    if perms.modified then
      pfUpdateEnvPage victim.virtualAddress
      modifyMem (·.unmapFrame 0 pgfltemp)
    unmapUserFrame victim.virtualAddress
    modifyEnv fun e => { e with pageWsList := setElement e.pageWsList victim.addr va true }
    match ← placePage va presentUserWriteable with
    | .exits => return .exits
    | .returns =>
      firstIsLast
      return .returns

/-! ## The handler -/

/-- `page_fault_handler`. -/
def pageFaultHandler (algo : PageRepAlgo) (faultVa : Nat) : PM Outcome := do
  if algo = .optimal then optimalFault faultVa
  else
    let va := roundDown faultVa pageSize
    let E := (← get).env
    if E.pageWsList.length < E.pageWsMaxSize then placement va
    else match algo with
      | .clock => clockReplacement va
      | .lruTimeApprox => lruReplacement va
      | .modifiedClock => modifiedClockReplacement va
      | _ => return .returns

/-- `table_fault_handler`. -/
def tableFaultHandler (faultVa : Nat) : PM Unit := fun s =>
  onKernel (createPageTable s.env.envPageDirectory faultVa) s

/-- The count of successive faults at one address by one process. -/
def countRepeatedFault (faultVa : Nat) : FM Unit := do
  let s ← get
  let env := some s.machine.env.envPageDirectory
  if s.faults.lastFaultVa = faultVa ∧ s.faults.lastFaultedEnv = env then
    if s.faults.numRepeatedFault + 1 = 3 then
      throw (.panic ("Failed to handle fault! fault @ at va = %x from eip = %x causes va (%x) " ++
        "to be faulted for 3 successive times\n"))
    modify fun s => { s with faults.numRepeatedFault := s.faults.numRepeatedFault + 1 }
  else
    modify fun s => { s with faults.numRepeatedFault := 0 }
  modify fun s => { s with faults.lastFaultVa := faultVa, faults.lastFaultedEnv := env }

/-- The checks for overflow of the stacks. -/
def checkStacks (faultVa : Nat) (tf : Trapframe) : FM Unit := do
  let s := (← get).faults
  if tf.userTrap then
    if ustackTop ≤ faultVa ∧ faultVa < userTop then throw (.panic "User: stack underflow exception!")
  else
    if s.kstack ≤ faultVa ∧ faultVa < s.kstack + pageSize then throw (.panic "User Kernel Stack: overflow exception!")
    if s.cpuStack ≤ faultVa ∧ faultVa < s.cpuStack + pageSize then
      throw (.panic "Sched Kernel Stack of CPU #%d: overflow exception!")
    if kernelHeapMax ≤ faultVa then throw (.panic "Kernel: heap overflow exception!")

/-- The pointers a fault in user mode is rejected for, where the page table is there. -/
def invalidPointer (faultVa : Nat) (write : Bool) (perms : Perm) : Bool :=
  userTop ≤ faultVa || inUserHeap faultVa && !perms.uhpage || write && perms.present && !perms.writeable ||
    faultVa < utext

/-- `fault_handler`. -/
def faultHandler (faultVa : Nat) (tf : Trapframe) : FM Outcome := do
  countRepeatedFault faultVa
  checkStacks faultVa tf
  let s := (← get).machine
  if (s.mem.table s.env.envPageDirectory (pdx faultVa)).isNone then
    onMachine (tableFaultHandler faultVa)
    return .returns
  let perms ← onMachine (ptGetPagePermissions faultVa)
  if tf.userTrap && invalidPointer faultVa tf.write perms then return .exits
  if perms.present then throw (.panic "Page @va=%x is exist! page fault due to violation of ACCESS RIGHTS\n")
  if (← get).faults.enableBuffering then throw (.panic "this function is not required...!!")
  onMachine (pageFaultHandler (← get).faults.pageRepAlgoType faultVa)

end Fos.Fault
