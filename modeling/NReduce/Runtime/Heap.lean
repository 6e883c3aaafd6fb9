import NReduce.Logic.Partial
import NReduce.Runtime.Group

/-!
# NReduce.Runtime.Heap

The part of a task that its message handlers work on (`runtime.h`, `task.c`, `memory.c`): cells,
frames with their wait queues, the global structures with the three hash tables that find them, the
queue of runnable frames and the spark list.

Cells, frames and globals are numbered, and no number is used twice: the memory that a local
collection gives back is not modelled. The linked lists of the source are lists, the newest entry
of a hash chain first.

A program gives `none` where an assertion fails.
-/

namespace NReduce
namespace Runtime

open Logic

/-! ## The objects of a task -/

/-- `pntr`: the bits of a double, or a cell; the index is that of an AREF. -/
inductive Pntr where
  | number (bits : UInt64)
  | cell (c : Nat) (index : Nat)
  deriving DecidableEq

structure WaitQueue (n : Nat) where
  frames : List Nat := []
  fetchers : List (Gaddr n) := []

/-- `carray`: the elements, of one byte or of the size of a pointer. -/
inductive Elements (α : Type) where
  | bytes (b : List UInt8)
  | pntrs (l : List α)

structure SocketId where
  ip : UInt32
  port : UInt16
  localid : UInt32
  sid : UInt32
  deriving DecidableEq

inductive Cell (n : Nat) where
  | empty
  | nil
  | cons (head tail : Pntr)
  | ind (p : Pntr)
  | frame (f : Nat)
  | cap (arity address fno fileno lineno : Nat) (data : List Pntr)
  | aref (arr : Nat) (tail : Pntr)
  | array (elements : Elements Pntr) (multiref : Bool)
  | sysobject (type : Nat) (ownertid : Fin n) (sockid : SocketId)
  | remoteref (g : Nat)
  | hole

inductive FrameState where
  | unallocated
  | new
  | sparked
  | active
  | done
  deriving DecidableEq

/-- A frame that MKFRAME or CALL created: the task where, and its number there. It is not in the
source: it names a frame while it moves from task to task. -/
abbrev Origin (n : Nat) := Fin n × Nat

structure Frame (n : Nat) where
  /-- address of the next instruction -/
  instr : Nat := 0
  wq : WaitQueue n := {}
  c : Option Nat := none
  state : FrameState := .unallocated
  /-- a slot of the frame that called this one -/
  retp : Option (Nat × Nat) := none
  postponed : Bool := false
  data : Nat → Pntr := fun _ => .number 0
  origin : Option (Origin n) := none

structure Global (n : Nat) where
  addr : Gaddr n
  p : Pntr
  fetching : Bool := false
  wq : WaitQueue n := {}

structure Heap (n : Nat) where
  cells : Nat → Cell n := fun _ => .empty
  ncells : Nat := 0
  frames : Nat → Frame n := fun _ => {}
  nframes : Nat := 0
  globals : Nat → Option (Global n) := fun _ => none
  nglobals : Nat := 0
  addrhash : List Nat := []
  targethash : List Nat := []
  physhash : List Nat := []
  nextlid : Nat := 0
  /-- the frame that runs first -/
  runq : List Nat := []
  sparklist : List Nat := []
  /-- the frames that wait for input or output -/
  ioframes : List Nat := []
  nfetching : Int := 0

variable {n : Nat}

abbrev HeapM (n : Nat) (α : Type) := Prog (Heap n) α

/-! ## Cells -/

/-- What a pointer points to, if it is not a number. -/
def Heap.at (h : Heap n) : Pntr → Option (Cell n)
  | .number _ => none
  | .cell c _ => some (h.cells c)

def Heap.isRemoteref (h : Heap n) (p : Pntr) : Bool :=
  match h.at p with
  | some (.remoteref _) => true
  | _ => false

/-- `pframe`, of a pointer to a FRAME. -/
def Heap.frameOf (h : Heap n) (p : Pntr) : Option Nat :=
  match h.at p with
  | some (.frame f) => some f
  | _ => none

/-- `pglobal`, of a pointer to a REMOTEREF. -/
def Heap.globalOf (h : Heap n) (p : Pntr) : Option Nat :=
  match h.at p with
  | some (.remoteref g) => some g
  | _ => none

/-- The loop of `resolve_pntr`. It does not end when the indirections form a cycle, so a bound on
its turns is enough. -/
def resolveFrom (cells : Nat → Cell n) : Nat → Pntr → Option Pntr
  | 0, _ => none
  | _ + 1, .number d => some (.number d)
  | k + 1, .cell c i =>
    match cells c with
    | .ind p => resolveFrom cells k p
    | _ => some (.cell c i)

def Heap.resolve (h : Heap n) (p : Pntr) : Option Pntr := resolveFrom h.cells (h.ncells + 1) p

def resolvePntr (p : Pntr) : HeapM n Pntr := do
  let h ← get
  need (h.resolve p)

def setCell (c : Nat) (v : Cell n) : HeapM n Unit :=
  modify (fun h => { h with cells := Function.update h.cells c v })

def allocCell (v : Cell n) : HeapM n Nat := do
  let h ← get
  modify (fun h => { h with cells := Function.update h.cells h.ncells v, ncells := h.ncells + 1 })
  return h.ncells

def cellMakeInd (c : Nat) (dest : Pntr) : HeapM n Unit := setCell c (.ind dest)

/-! ## Globals -/

def Heap.hasP (h : Heap n) (p : Pntr) (g : Nat) : Bool := (h.globals g).map (·.p) = some p

def Heap.hasAddr (h : Heap n) (a : Gaddr n) (g : Nat) : Bool := (h.globals g).map (·.addr) = some a

def Heap.targethashLookup (h : Heap n) (p : Pntr) : Option Nat := h.targethash.find? (h.hasP p)

def Heap.physhashLookup (h : Heap n) (p : Pntr) : Option Nat := h.physhash.find? (h.hasP p)

def Heap.addrhashLookup (h : Heap n) (a : Gaddr n) : Option Nat := h.addrhash.find? (h.hasAddr a)

def getGlobal (g : Nat) : HeapM n (Global n) := do
  let h ← get
  need (h.globals g)

def setGlobal (g : Nat) (v : Global n) : HeapM n Unit :=
  modify (fun h => { h with globals := Function.update h.globals g (some v) })

def newGlobal (v : Global n) : HeapM n Nat := do
  let h ← get
  modify (fun h =>
    { h with globals := Function.update h.globals h.nglobals (some v), nglobals := h.nglobals + 1 })
  return h.nglobals

def targethashAdd (g : Nat) : HeapM n Unit := do
  let glo ← getGlobal g
  let h ← get
  check (h.targethashLookup glo.p = none)
  modify (fun h => { h with targethash := g :: h.targethash })

def physhashAdd (g : Nat) : HeapM n Unit := do
  let glo ← getGlobal g
  let h ← get
  check (h.physhashLookup glo.p = none)
  modify (fun h => { h with physhash := g :: h.physhash })

def addrhashAdd (g : Nat) : HeapM n Unit := do
  let glo ← getGlobal g
  let h ← get
  check (h.addrhashLookup glo.addr = none)
  modify (fun h => { h with addrhash := g :: h.addrhash })

def targethashRemove (g : Nat) : HeapM n Unit :=
  modify (fun h => { h with targethash := h.targethash.erase g })

def physhashRemove (g : Nat) : HeapM n Unit :=
  modify (fun h => { h with physhash := h.physhash.erase g })

/-- The physical address of an object, with a new global if it has none. -/
def getPhysicalAddress (tid : Fin n) (p : Pntr) : HeapM n (Gaddr n) := do
  let h ← get
  match h.physhashLookup p with
  | none =>
    let g ← newGlobal { addr := ⟨tid, h.nextlid⟩, p := p }
    modify (fun h => { h with nextlid := h.nextlid + 1 })
    physhashAdd g
    addrhashAdd g
    return ⟨tid, h.nextlid⟩
  | some g =>
    let glo ← getGlobal g
    check (glo.addr.tid = tid)
    check (h.addrhashLookup glo.addr = some g)
    return glo.addr

def addTarget (tid : Fin n) (addr : Gaddr n) (p : Pntr) : HeapM n Nat := do
  check (addr.tid ≠ tid)
  let h ← get
  check (h.addrhashLookup addr = none)
  check (h.targethashLookup p = none)
  let g ← newGlobal { addr := addr, p := p }
  addrhashAdd g
  targethashAdd g
  return g

/-! ## Frames -/

def setFrame (f : Nat) (v : Frame n) : HeapM n Unit :=
  modify (fun h => { h with frames := Function.update h.frames f v })

def getFrame (f : Nat) : HeapM n (Frame n) := do
  let h ← get
  return h.frames f

def frameNew (v : Frame n) : HeapM n Nat := do
  let h ← get
  modify (fun h => { h with
    frames := Function.update h.frames h.nframes { v with state := .new }, nframes := h.nframes + 1 })
  return h.nframes

def frameFree (f : Nat) : HeapM n Unit := do
  let fr ← getFrame f
  check (fr.retp = none ∧ fr.c = none)
  check (fr.state = .done ∨ fr.state = .new)
  check (fr.wq.frames = [])
  check (fr.wq.fetchers = [])
  setFrame f { fr with state := .unallocated }

def sparkFrame (f : Nat) : HeapM n Unit := do
  let fr ← getFrame f
  when (fr.state = .new) do
    setFrame f { fr with state := .sparked }
    modify (fun h => { h with sparklist := f :: h.sparklist })

def removeSpark (f : Nat) : HeapM n Unit := do
  let h ← get
  check (f ∈ h.sparklist)
  modify (fun h => { h with sparklist := h.sparklist.erase f })

def unsparkFrame (f : Nat) : HeapM n Unit := do
  let fr ← getFrame f
  check (fr.state = .sparked ∨ fr.state = .new)
  when (fr.state = .sparked) (removeSpark f)
  setFrame f { fr with state := .new }
  let h ← get
  match fr.c with
  | none => pure ()
  | some c => check (h.frameOf (.cell c 0) = some f)

/-- A frame that is run, or woken, while another one is: it comes after the first. -/
def insertAfterFirst (f : Nat) : List Nat → List Nat
  | [] => [f]
  | first :: rest => first :: f :: rest

def runFrameWith (place : Nat → List Nat → List Nat) (f : Nat) : HeapM n Unit := do
  let fr ← getFrame f
  match fr.state with
  | .sparked => do
    removeSpark f
    setFrame f { fr with state := .active }
    modify (fun h => { h with runq := place f h.runq })
  | .new => do
    setFrame f { fr with state := .active }
    modify (fun h => { h with runq := place f h.runq })
  | _ => pure ()

def runFrame (f : Nat) : HeapM n Unit := runFrameWith List.cons f

def runFrameAfterFirst (f : Nat) : HeapM n Unit := runFrameWith insertAfterFirst f

def blockFrame (f : Nat) : HeapM n Unit := do
  let fr ← getFrame f
  check (fr.state = .active)
  let h ← get
  check (h.runq.head? = some f)
  modify (fun h => { h with runq := h.runq.tail })

def unblockFrameAfterFirst (f : Nat) : HeapM n Unit := do
  let fr ← getFrame f
  check (fr.state = .active)
  modify (fun h => { h with runq := insertAfterFirst f h.runq })

def doneFrame (f : Nat) : HeapM n Unit := do
  let fr ← getFrame f
  check (fr.state = .active)
  let h ← get
  check (h.runq.head? = some f)
  modify (fun h => { h with runq := h.runq.tail })
  setFrame f { fr with state := .done }

/-! ## Wait queues -/

/-- A wait queue is part of a frame or of a global. -/
inductive Waitable where
  | frame (f : Nat)
  | global (g : Nat)
  deriving DecidableEq

def getQueue : Waitable → HeapM n (WaitQueue n)
  | .frame f => do return (← getFrame f).wq
  | .global g => do return (← getGlobal g).wq

def setQueue (wq : WaitQueue n) : Waitable → HeapM n Unit
  | .frame f => do
    let fr ← getFrame f
    setFrame f { fr with wq := wq }
  | .global g => do
    let glo ← getGlobal g
    setGlobal g { glo with wq := wq }

def addWaiterFrame (w : Waitable) (f : Nat) : HeapM n Unit := do
  let wq ← getQueue w
  setQueue { wq with frames := f :: wq.frames } w

/-- The loop of `resume_local_waiters`. -/
def unblockAll : List Nat → HeapM n Unit
  | [] => pure ()
  | f :: fs => do
    unblockFrameAfterFirst f
    unblockAll fs

def resumeLocalWaiters (w : Waitable) : HeapM n Unit := do
  let wq ← getQueue w
  setQueue { wq with frames := [] } w
  unblockAll wq.frames

def transferWaitersAndFetchers (src dest : Waitable) : HeapM n Unit := do
  let from' ← getQueue src
  let to' ← getQueue dest
  setQueue { frames := to'.frames ++ from'.frames, fetchers := to'.fetchers ++ from'.fetchers } dest
  setQueue {} src

/-- Who waits for a reference that is being fetched waits for the frame. -/
def transferFrom (g f : Nat) : HeapM n Unit := do
  transferWaitersAndFetchers (.global g) (.frame f)
  let glo ← getGlobal g
  setGlobal g { glo with fetching := false }

/-- The second loop of `resolve_local_fetchers`. -/
def transferLocal (f : Nat) : List (Gaddr n) → HeapM n Unit
  | [] => pure ()
  | a :: rest => do
    let h ← get
    let g ← need (h.addrhashLookup a)
    let glo ← getGlobal g
    when (glo.fetching = true) (transferFrom g f)
    transferLocal f rest

/-- The fetch requests of this task that are pending on a frame that has just arrived: who waits for
them waits for the frame. -/
def resolveLocalFetchers (tid : Fin n) (f : Nat) : HeapM n Unit := do
  let wq ← getQueue (.frame f)
  setQueue { wq with fetchers := wq.fetchers.filter (fun a => a.tid ≠ tid) } (.frame f)
  transferLocal f (wq.fetchers.filter (fun a => a.tid = tid)).reverse

def addFetcher (w : Waitable) (a : Gaddr n) : HeapM n Unit := do
  let wq ← getQueue w
  setQueue { wq with fetchers := a :: wq.fetchers } w

def addFetcherUnique (w : Waitable) (a : Gaddr n) : HeapM n Unit := do
  let wq ← getQueue w
  when (a ∉ wq.fetchers) (addFetcher w a)

end Runtime
end NReduce
