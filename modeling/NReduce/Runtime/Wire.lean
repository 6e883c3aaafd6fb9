import NReduce.Runtime.Heap

/-!
# NReduce.Runtime.Wire

Objects in messages (`data.c`): `write_pntr` and `read_pntr`, and the accounting of the addresses
that are in flight (`write_gaddr`, `msg_send`, `read_gaddr`, `finish_address_reading`).

An object is sent with references to its parts only, so an object in a message holds no other
object.
-/

namespace NReduce
namespace Runtime

open Logic

variable {n : Nat}

/-- What `write_ref` writes. -/
inductive Ref (n : Nat) where
  | number (bits : UInt64)
  | nil
  | remote (a : Gaddr n)
  deriving DecidableEq

/-- What `write_pntr` writes. The origin of a frame is not in the message of the source. -/
inductive Obj (n : Nat) where
  | ref (r : Ref n)
  | cons (addr : Gaddr n) (head tail : Ref n)
  | aref (addr : Gaddr n) (index : Nat) (elements : Elements (Ref n)) (tail : Ref n)
  | array (addr : Gaddr n) (elements : Elements (Ref n))
  | frame (addr : Gaddr n) (address : Nat) (fetchers : List (Gaddr n)) (data : List (Ref n))
      (origin : Option (Origin n))
  | cap (addr : Gaddr n) (arity address fno fileno lineno : Nat) (data : List (Ref n))
  | sysobject (addr : Gaddr n) (type : Nat) (ownertid : Fin n) (sockid : SocketId)

/-- The types of the messages whose addresses are acknowledged. -/
inductive Tag where
  | fish
  | fetch
  | respond
  | schedule
  | markentry
  deriving DecidableEq

/-- The messages between tasks that are not of a collection. -/
inductive WMsg (n : Nat) where
  | fish (reqtsk : Fin n) (age : Int)
  | fetch (target store : Gaddr n)
  | respond (store : Gaddr n) (obj : Obj n)
  | schedule (frames : List (Gaddr n × Obj n))
  | ack (count naddrs : Nat) (fromtype : Tag)
  | haveReplicas (addrs : List (Gaddr n))
  | deleteReplicas (addrs : List (Gaddr n))
  | checkrefs (addrs : List (Gaddr n))

/-- The accounting of addresses in flight; `sent` is what a handler has given to `endpoint_send`. -/
structure Acct (n : Nat) where
  inflight : List (Gaddr n) := []
  inflightAddrs : Fin n → List (Gaddr n) := fun _ => []
  unackMsgAcount : Fin n → List Nat := fun _ => []
  naddrsread : Nat := 0
  sent : List (Fin n × WMsg n) := []

structure Interp (n : Nat) where
  heap : Heap n := {}
  acct : Acct n := {}

abbrev InterpM (n : Nat) (α : Type) := Prog (Interp n) α

def onHeap {α : Type} (m : HeapM n α) : InterpM n α :=
  zoom Interp.heap (fun h s => { s with heap := h }) m

/-- What the handlers take from the program that the tasks run, and from the options of the
runtime. -/
structure Env (n : Nat) where
  /-- the number of slots in use at an instruction -/
  expcount : Nat → Nat
  /-- `bcaddr_to_fno` -/
  fno : Nat → Nat
  /-- the GLOBSTART of a function -/
  funAddress : Nat → Nat
  numBuiltins : Nat
  buildarray : Nat
  optBuildarray : Bool
  optFishhalf : Bool
  optFishframes : Nat
  /-- `maybe_expand_array`: the cells after it, and the number of cells then -/
  expand : (Nat → Cell n) → Nat → Nat → (Nat → Cell n) × Nat
  /-- the BIF instruction of the wrapper of a builtin -/
  atBif : Nat → Bool
  /-- the wrapper of `buildarray` takes three arguments -/
  buildarray_expcount : expcount buildarray = 3
  /-- a wrapper evaluates its arguments in place, so BIF meets as many slots as the start -/
  wrapper_expcount : ∀ a, atBif a = true → expcount (funAddress (fno a) + 1) = expcount a

def maxArraySize : Nat := 2 ^ 19

def buildarrayThreshold : Nat := 1024

def maxCapSize : Nat := 1024

/-! ## Sending -/

def writeGaddr (a : Gaddr n) : InterpM n Unit :=
  modify (fun s => { s with acct := { s.acct with inflight := a :: s.acct.inflight } })

/-- The addresses written since the last message are those of this one. -/
def Acct.account (dest : Fin n) (a : Acct n) : Acct n :=
  { a with
    inflight := []
    inflightAddrs := fun d =>
      if d = dest then a.inflightAddrs d ++ a.inflight else a.inflightAddrs d
    unackMsgAcount := fun d =>
      if d = dest ∧ a.inflight ≠ [] then a.unackMsgAcount d ++ [a.inflight.length]
      else a.unackMsgAcount d }

/-- `endpoint_send` -/
def Acct.post (dest : Fin n) (m : WMsg n) (a : Acct n) : Acct n :=
  { a with sent := a.sent ++ [(dest, m)] }

def msgSend (dest : Fin n) (m : WMsg n) : InterpM n Unit :=
  modify (fun s => { s with acct := (s.acct.account dest).post dest m })

/-- The address that an object has in all tasks: that of the master copy. -/
def writeObjectAddress (tid : Fin n) (p : Pntr) : InterpM n (Gaddr n) := do
  let s ← get
  match s.heap.targethashLookup p with
  | some g =>
    let glo ← onHeap (getGlobal g)
    check (glo.addr.tid ≠ tid)
    writeGaddr glo.addr
    return glo.addr
  | none =>
    let a ← onHeap (getPhysicalAddress tid p)
    writeGaddr a
    return a

/-- The address of a system object is one of its owner. -/
def Heap.ownedBy (h : Heap n) (tid : Fin n) (p : Pntr) : Bool :=
  match h.at p with
  | some (.sysobject _ ownertid _) => ownertid = tid
  | _ => true

/-- A reference to an object that is not a remote reference. -/
def writeObjectRef (tid : Fin n) (p : Pntr) : InterpM n (Ref n) := do
  let s ← get
  match s.heap.targethashLookup p with
  | some g =>
    let glo ← onHeap (getGlobal g)
    check (s.heap.ownedBy glo.addr.tid p = true)
    check (glo.addr.tid ≠ tid)
    writeGaddr glo.addr
    return .remote glo.addr
  | none =>
    let a ← onHeap (getPhysicalAddress tid p)
    check (s.heap.ownedBy tid p = true)
    writeGaddr a
    return .remote a

/-- The objects of which only a reference can be sent. -/
def writeSimple (tid : Fin n) (p : Pntr) : InterpM n (Option (Ref n)) := do
  let s ← get
  match p with
  | .number d => return some (.number d)
  | .cell c i =>
    match s.heap.cells c with
    | .nil => return some .nil
    | .remoteref g =>
      let glo ← onHeap (getGlobal g)
      writeGaddr glo.addr
      return some (.remote glo.addr)
    | .hole =>
      let a ← onHeap (getPhysicalAddress tid (.cell c i))
      writeGaddr a
      return some (.remote a)
    | .empty => failure
    | .ind _ => failure
    | _ => return none

def writeRef (tid : Fin n) (p : Pntr) : InterpM n (Ref n) := do
  let p ← onHeap (resolvePntr p)
  match ← writeSimple tid p with
  | some r => return r
  | none => writeObjectRef tid p

def writeRefs (tid : Fin n) : List Pntr → InterpM n (List (Ref n))
  | [] => return []
  | p :: ps => do
    let r ← writeRef tid p
    let rs ← writeRefs tid ps
    return r :: rs

def writeGaddrs : List (Gaddr n) → InterpM n Unit
  | [] => pure ()
  | a :: as => do
    writeGaddr a
    writeGaddrs as

def writeElements (tid : Fin n) : Elements Pntr → InterpM n (Elements (Ref n))
  | .bytes b => return .bytes b
  | .pntrs l => do return .pntrs (← writeRefs tid l)

def Elements.size {α : Type} : Elements α → Nat
  | .bytes b => b.length
  | .pntrs l => l.length

/-- `aref_array` -/
def arefArray (arr : Nat) : InterpM n (Elements Pntr) := do
  let s ← get
  match s.heap.cells arr with
  | .array elements _ => return elements
  | _ => failure

def writeBuildarrayFrame (e : Env n) (tid : Fin n) (c index arr : Nat) (tail : Pntr) :
    InterpM n (Obj n) := do
  let addr ← writeObjectAddress tid (.cell c index)
  let data ← writeRefs tid [tail, .number (Float.ofNat index).toBits, .cell arr 0]
  return .frame addr e.buildarray [] data none

def writeAref (e : Env n) (tid : Fin n) (c index arr : Nat) (tail : Pntr) : InterpM n (Obj n) := do
  let elements ← arefArray arr
  if e.optBuildarray ∧ buildarrayThreshold ≤ elements.size then
    writeBuildarrayFrame e tid c index arr tail
  else do
    let addr ← writeObjectAddress tid (.cell c index)
    check (elements.size ≤ maxArraySize)
    check (index < elements.size)
    let elems ← writeElements tid elements
    let t ← writeRef tid tail
    onHeap (setCell arr (.array elements true))
    return .aref addr index elems t

def writeArray (tid : Fin n) (c index : Nat) (elements : Elements Pntr) : InterpM n (Obj n) := do
  check (elements.size ≤ maxArraySize)
  let addr ← writeObjectAddress tid (.cell c index)
  let elems ← writeElements tid elements
  onHeap (setCell c (.array elements true))
  return .array addr elems

/-- `frame_fno` -/
def Env.frameFno (e : Env n) (fr : Frame n) : Nat := e.fno fr.instr

/-- Where the receiver of a frame starts it: a frame that was running is started again. -/
def Env.startAddress (e : Env n) (fr : Frame n) : Nat :=
  if fr.state = .done then e.funAddress (e.frameFno fr) + 1 else fr.instr

def writeFrame (e : Env n) (tid : Fin n) (c index f : Nat) : InterpM n (Obj n) := do
  let addr ← writeObjectAddress tid (.cell c index)
  let fr ← onHeap (getFrame f)
  check (fr.state = .new ∨ fr.state = .done)
  check (fr.retp = none)
  check (fr.wq.frames = [])
  check (fr.state = .done → e.frameFno fr < e.numBuiltins)
  check (fr.c ≠ none)
  writeGaddrs fr.wq.fetchers
  onHeap (setFrame f { fr with wq := { fr.wq with fetchers := [] } })
  let data ← writeRefs tid ((List.range (e.expcount fr.instr)).map fr.data)
  return .frame addr (e.startAddress fr) fr.wq.fetchers data fr.origin

/-- `maybe_expand_array`, of a CONS or AREF. -/
def maybeExpandArray (e : Env n) (c : Nat) : HeapM n Unit :=
  modify (fun h => { h with
    cells := (e.expand h.cells h.ncells c).1, ncells := (e.expand h.cells h.ncells c).2 })

/-- Whether `write_pntr` calls `maybe_expand_array`. -/
def Heap.isList (h : Heap n) (c : Nat) : Bool :=
  match h.cells c with
  | .cons _ _ => true
  | .aref _ _ => true
  | _ => false

def writeObject (e : Env n) (tid : Fin n) (c index : Nat) : InterpM n (Obj n) := do
  let s ← get
  match s.heap.cells c with
  | .aref arr tail => writeAref e tid c index arr tail
  | .array elements _ => writeArray tid c index elements
  | .cons head tail => do
    let addr ← writeObjectAddress tid (.cell c index)
    let h ← writeRef tid head
    let t ← writeRef tid tail
    return .cons addr h t
  | .frame f => writeFrame e tid c index f
  | .cap arity address fno fileno lineno data => do
    let addr ← writeObjectAddress tid (.cell c index)
    let refs ← writeRefs tid data
    return .cap addr arity address fno fileno lineno refs
  | .sysobject type ownertid sockid => do
    let addr ← writeObjectAddress tid (.cell c index)
    return .sysobject addr type ownertid sockid
  | _ => failure

/-- `write_pntr` with `refonly` 0. -/
def writePntr (e : Env n) (tid : Fin n) (p : Pntr) : InterpM n (Obj n) := do
  let p ← onHeap (resolvePntr p)
  match ← writeSimple tid p with
  | some r => return .ref r
  | none =>
    match p with
    | .number _ => failure
    | .cell c index =>
      let s ← get
      when (s.heap.isList c = true) (onHeap (maybeExpandArray e c))
      writeObject e tid c index

/-! ## Receiving -/

/-- An address that is read is counted. -/
def readGaddr : InterpM n Unit :=
  modify (fun s => { s with acct := { s.acct with naddrsread := s.acct.naddrsread + 1 } })

def readGaddrs : List (Gaddr n) → InterpM n Unit
  | [] => pure ()
  | _ :: as => do
    readGaddr
    readGaddrs as

def startAddressReading : InterpM n Unit := do
  let s ← get
  check (s.acct.naddrsread = 0)

def finishAddressReading (src : Fin n) (tag : Tag) : InterpM n Unit := do
  let s ← get
  when (0 < s.acct.naddrsread) (msgSend src (.ack 1 s.acct.naddrsread tag))
  modify (fun s => { s with acct := { s.acct with naddrsread := 0 } })

/-- The pointer to `globnilpntr`. -/
def nilPntr : Pntr := .cell 0 0

def readRef (tid : Fin n) : Ref n → InterpM n Pntr
  | .number d => return .number d
  | .nil => return nilPntr
  | .remote a => do
    readGaddr
    let s ← get
    match s.heap.addrhashLookup a with
    | some g => do
      let glo ← onHeap (getGlobal g)
      return glo.p
    | none => do
      check (a.tid ≠ tid)
      let c ← onHeap (allocCell .empty)
      let g ← onHeap (addTarget tid a (.cell c 0))
      onHeap (setCell c (.remoteref g))
      return .cell c 0

def readRefs (tid : Fin n) : List (Ref n) → InterpM n (List Pntr)
  | [] => return []
  | r :: rs => do
    let p ← readRef tid r
    let ps ← readRefs tid rs
    return p :: ps

def readElements (tid : Fin n) : Elements (Ref n) → InterpM n (Elements Pntr)
  | .bytes b => return .bytes b
  | .pntrs l => do return .pntrs (← readRefs tid l)

/-- A new object and its cell. -/
def newObject (v : Cell n) : InterpM n Pntr := do
  let c ← onHeap (allocCell v)
  return .cell c 0

/-- The slots of a frame, filled from a list. -/
def slots (l : List Pntr) (i : Nat) : Pntr := l.getD i (.number 0)

def readFrame (e : Env n) (tid : Fin n) (address : Nat) (fetchers : List (Gaddr n))
    (data : List (Ref n)) (origin : Option (Origin n)) : InterpM n Pntr := do
  let f ← onHeap (frameNew { instr := address, origin := origin })
  let c ← onHeap (allocCell (.frame f))
  readGaddrs fetchers
  -- the number of slots that are read is that of the instruction, not of the message
  check (data.length = e.expcount address)
  let l ← readRefs tid data
  let fr ← onHeap (getFrame f)
  onHeap (setFrame f { fr with
    c := some c, wq := { fr.wq with fetchers := fetchers.reverse }, data := slots l })
  return .cell c 0

/-- The body of an object, after its address. -/
def readBody (e : Env n) (tid : Fin n) : Obj n → InterpM n Pntr
  | .ref _ => failure
  | .cons _ head tail => do
    let h ← readRef tid head
    let t ← readRef tid tail
    newObject (.cons h t)
  | .aref _ index elements tail => do
    check (elements.size ≤ maxArraySize)
    check (index < elements.size)
    let elems ← readElements tid elements
    let t ← readRef tid tail
    let arr ← onHeap (allocCell (.array elems true))
    let c ← onHeap (allocCell (.aref arr t))
    return .cell c index
  | .array _ elements => do
    check (elements.size ≤ maxArraySize)
    -- `carray_new` makes room for eight elements where none are asked for
    check (0 < elements.size)
    let elems ← readElements tid elements
    newObject (.array elems true)
  | .frame _ address fetchers data origin => readFrame e tid address fetchers data origin
  | .cap _ arity address fno fileno lineno data => do
    check (data.length < maxCapSize)
    let l ← readRefs tid data
    newObject (.cap arity address fno fileno lineno l)
  | .sysobject addr type ownertid sockid => do
    check (ownertid = addr.tid)
    newObject (.sysobject type ownertid sockid)

def Obj.address : Obj n → Option (Gaddr n)
  | .ref _ => none
  | .cons a _ _ => some a
  | .aref a _ _ _ => some a
  | .array a _ => some a
  | .frame a _ _ _ _ => some a
  | .cap a _ _ _ _ _ _ => some a
  | .sysobject a _ _ _ => some a

/-- The loop of `resume_fetchers`. -/
def respondAll (e : Env n) (tid : Fin n) (obj : Pntr) : List (Gaddr n) → InterpM n Unit
  | [] => pure ()
  | ft :: rest => do
    let s ← get
    check (s.heap.frameOf obj = none)
    writeGaddr ft
    let o ← writePntr e tid obj
    msgSend ft.tid (.respond ft o)
    respondAll e tid obj rest

def resumeFetchers (e : Env n) (tid : Fin n) (w : Waitable) (obj : Pntr) : InterpM n Unit := do
  let obj ← onHeap (resolvePntr obj)
  let wq ← onHeap (getQueue w)
  respondAll e tid obj wq.fetchers
  let wq ← onHeap (getQueue w)
  onHeap (setQueue { wq with fetchers := [] } w)

def resumeWaiters (e : Env n) (tid : Fin n) (w : Waitable) (obj : Pntr) : InterpM n Unit := do
  onHeap (resumeLocalWaiters w)
  let wq ← onHeap (getQueue w)
  when (wq.fetchers ≠ []) (resumeFetchers e tid w obj)

def responseForFetchingRef (e : Env n) (tid : Fin n) (target : Nat) (obj : Pntr) :
    InterpM n Unit := do
  let wq ← onHeap (getQueue (.global target))
  onHeap (modify (fun h => { h with nfetching := h.nfetching - wq.frames.length }))
  let s ← get
  check (0 ≤ s.heap.nfetching)
  resumeWaiters e tid (.global target) obj
  let s ← get
  match s.heap.frameOf obj with
  | some f => do
    onHeap (resolveLocalFetchers tid f)
    onHeap (runFrameAfterFirst f)
  | none => pure ()

/-- The copy that has arrived takes the place of the reference `refcell` of global `g`. -/
def replaceReference (tid : Fin n) (addr : Gaddr n) (g refcell : Nat) (inphys : Bool) (p : Pntr) :
    HeapM n Unit := do
  cellMakeInd refcell p
  when (inphys = true) (physhashRemove g)
  targethashRemove g
  let glo ← getGlobal g
  setGlobal g { glo with p := p }
  let h ← get
  when (h.targethashLookup p = none ∧ addr.tid ≠ tid) (targethashAdd g)
  when (inphys = true) (physhashAdd g)

/-- The global that the tables have for an existing reference, and whether it is in `physhash`. -/
def referenceGlobal (tid : Fin n) (addr : Gaddr n) (p : Pntr) : HeapM n (Nat × Bool) := do
  let h ← get
  match h.targethashLookup p with
  | some lookup => return (lookup, false)
  | none =>
    let lookup ← need (h.physhashLookup p)
    let glo ← getGlobal lookup
    check (glo.addr = addr)
    check (glo.addr.tid = tid)
    return (lookup, true)

/-- `read_pntr`, after the body: an object that the task may have, or have a reference to. -/
def mergeObject (e : Env n) (tid : Fin n) (addr : Gaddr n) (p : Pntr) : InterpM n Pntr := do
  let s ← get
  match s.heap.addrhashLookup addr with
  | none => do
    check (addr.tid ≠ tid)
    check (s.heap.targethashLookup p = none)
    let _ ← onHeap (addTarget tid addr p)
    return p
  | some g => do
    let existing ← onHeap (getGlobal g)
    match existing.p, s.heap.globalOf existing.p with
    | .cell refcell _, some target => do
      let (lookup, inphys) ← onHeap (referenceGlobal tid addr existing.p)
      check (g = lookup)
      when (existing.fetching = true) (responseForFetchingRef e tid target p)
      onHeap (replaceReference tid addr g refcell inphys p)
      return p
    | _, _ => return existing.p

/-- A system object whose owner is this task: the copy is of no use, the task has the object. -/
def ownSysobject (tid : Fin n) (addr : Gaddr n) (p : Pntr) : InterpM n Pntr := do
  let s ← get
  match s.heap.at p with
  | some (.sysobject _ ownertid _) =>
    if ownertid = tid then do
      let g ← need (s.heap.addrhashLookup addr)
      let existing ← onHeap (getGlobal g)
      match s.heap.at existing.p with
      | some (.sysobject _ _ _) => return existing.p
      | _ => failure
    else return p
  | _ => return p

def readPntr (e : Env n) (tid : Fin n) (o : Obj n) : InterpM n Pntr :=
  match o with
  | .ref r => readRef tid r
  | o => do
    readGaddr
    let p ← readBody e tid o
    let addr ← need o.address
    let p ← ownSysobject tid addr p
    mergeObject e tid addr p

end Runtime
end NReduce
