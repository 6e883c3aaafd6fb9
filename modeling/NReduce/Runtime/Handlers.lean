import NReduce.Runtime.Wire

/-!
# NReduce.Runtime.Handlers

The message handlers of a task (`interpreter_fish`, `interpreter_fetch`, `interpreter_respond`,
`interpreter_schedule`, `interpreter_ack`, `interpreter_distribute`) and what evaluation does with
frames and remote references; `interp` puts them together as the work of a group.

The branch of `interpreter_fetch` for remote references that have no address yet is left out: an
address always has a number, so there is no such reference.
-/

namespace NReduce
namespace Runtime

open Logic

variable {n : Nat}

/-! ## Frames that leave -/

def ensureFrameHasCell (f : Nat) : HeapM n Nat := do
  let fr ← getFrame f
  match fr.c with
  | some c => return c
  | none => do
    let c ← allocCell (.frame f)
    let (caller, slot) ← need fr.retp
    let cf ← getFrame caller
    setFrame caller { cf with data := Function.update cf.data slot (.cell c 0) }
    let fr ← getFrame f
    setFrame f { fr with c := some c, retp := none }
    return c

/-- The local copy of a frame whose cell refers to it no longer. -/
def dropFrame (f : Nat) : HeapM n Unit := do
  let fr ← getFrame f
  setFrame f { fr with c := none }
  frameFree f

def scheduleFrame (e : Env n) (tid : Fin n) (f : Nat) : InterpM n (Gaddr n × Obj n) := do
  let c ← onHeap (ensureFrameHasCell f)
  let p : Pntr := .cell c 0
  let fr ← onHeap (getFrame f)
  when (fr.state = .sparked) (onHeap (unsparkFrame f))
  -- who waits for the frame has to find that it is a remote reference now
  onHeap (resumeLocalWaiters (.frame f))
  let s ← get
  match s.heap.targethashLookup p with
  | none => do
    let refaddr ← onHeap (getPhysicalAddress tid p)
    writeGaddr refaddr
    let o ← writePntr e tid p
    let s ← get
    let g ← need (s.heap.physhashLookup p)
    let glo ← onHeap (getGlobal g)
    check (glo.addr = refaddr)
    check (glo.addr.tid = tid)
    onHeap (setCell c (.remoteref g))
    onHeap (setGlobal g { glo with fetching := true })
    onHeap (dropFrame f)
    return (refaddr, o)
  | some g => do
    let glo ← onHeap (getGlobal g)
    writeGaddr glo.addr
    let o ← writePntr e tid p
    onHeap (setCell c (.remoteref g))
    onHeap (dropFrame f)
    return (glo.addr, o)

/-- Up to `k` sparks, from the end of the list. -/
def scheduleSparks (e : Env n) (tid : Fin n) : Nat → InterpM n (List (Gaddr n × Obj n))
  | 0 => return []
  | k + 1 => do
    let s ← get
    match s.heap.sparklist.getLast? with
    | none => return []
    | some spark => do
      let fr ← onHeap (getFrame spark)
      check (fr.c ≠ none)
      let item ← scheduleFrame e tid spark
      let items ← scheduleSparks e tid k
      return item :: items

/-! ## Handlers -/

/-- Sparks for a task that has nothing to run, or its request passed on to `dest`. -/
def answerFish (e : Env n) (tid reqtsk dest : Fin n) (age : Int) (nframes : Nat) :
    InterpM n Unit := do
  let items ← scheduleSparks e tid nframes
  if items ≠ [] then msgSend reqtsk (.schedule items)
  else if 0 < age then do
    check (dest ≠ tid)
    msgSend dest (.fish reqtsk (age - 1))
  else pure ()

def interpreterFish (e : Env n) (tid src reqtsk dest : Fin n) (age : Int) : InterpM n Unit := do
  startAddressReading
  finishAddressReading src .fish
  let s ← get
  if e.optFishhalf then
    answerFish e tid reqtsk dest age (if reqtsk = tid then 0 else s.heap.sparklist.length / 2)
  else if reqtsk = tid then pure ()
  else answerFish e tid reqtsk dest age e.optFishframes

/-- The object itself, or a reference to where it is. -/
def respondWith (e : Env n) (tid src : Fin n) (store : Gaddr n) (obj : Pntr) : InterpM n Unit := do
  writeGaddr store
  let o ← writePntr e tid obj
  msgSend src (.respond store o)

/-- The cell of a frame that has been sent becomes a reference to where it is stored. -/
def frameSent (tid : Fin n) (store : Gaddr n) (f c : Nat) : HeapM n Unit := do
  let h ← get
  match h.addrhashLookup store with
  | some g => do
    let storeglo ← getGlobal g
    check (h.isRemoteref storeglo.p = true)
    cellMakeInd c storeglo.p
    dropFrame f
  | none => do
    let g ← addTarget tid store (.cell c 0)
    setCell c (.remoteref g)
    dropFrame f

def interpreterFetch (e : Env n) (tid src : Fin n) (target store : Gaddr n) : InterpM n Unit := do
  startAddressReading
  readGaddr
  readGaddr
  finishAddressReading src .fetch
  check (target.tid = tid)
  check (store.tid = src)
  let s ← get
  let g ← need (s.heap.addrhashLookup target)
  let fetchglo ← onHeap (getGlobal g)
  let obj ← onHeap (resolvePntr fetchglo.p)
  match s.heap.frameOf obj with
  | none => respondWith e tid src store obj
  | some f => do
    let fr ← onHeap (getFrame f)
    match fr.state with
    | .active => onHeap (addFetcher (.frame f) store)
    | .sparked | .new => do
      let c ← need fr.c
      onHeap (unsparkFrame f)
      respondWith e tid src store obj
      onHeap (frameSent tid store f c)
    | _ => respondWith e tid src store obj

/-- What was stored before the response for its reference came. -/
def ignoreResponse (e : Env n) (tid src : Fin n) (reference : Global n) (o : Obj n) :
    InterpM n Unit := do
  let _ ← onHeap (resolvePntr reference.p)
  let _ ← readPntr e tid o
  finishAddressReading src .respond

/-- The object that came back has another address than the one requested. -/
def redirectTarget (target : Nat) (obj : Pntr) : HeapM n Unit := do
  let glo ← getGlobal target
  let h ← get
  match glo.p, h.globalOf glo.p with
  | .cell c _, some _ => cellMakeInd c obj
  | _, _ => failure

def storeResponse (e : Env n) (tid src : Fin n) (target : Nat) (o : Obj n) : InterpM n Unit := do
  let glo ← onHeap (getGlobal target)
  check (glo.fetching = true)
  onHeap (setGlobal target { glo with fetching := false })
  let obj ← readPntr e tid o
  finishAddressReading src .respond
  let s ← get
  when (s.heap.targethashLookup obj ≠ some target) (onHeap (redirectTarget target obj))
  responseForFetchingRef e tid target obj

def interpreterRespond (e : Env n) (tid src : Fin n) (store : Gaddr n) (o : Obj n) :
    InterpM n Unit := do
  check (src ≠ tid)
  startAddressReading
  readGaddr
  check (store.tid = tid)
  let s ← get
  let r ← need (s.heap.addrhashLookup store)
  let reference ← onHeap (getGlobal r)
  match s.heap.globalOf reference.p with
  | none => ignoreResponse e tid src reference o
  | some target => do
    check (s.heap.physhashLookup reference.p = some r)
    storeResponse e tid src target o

/-- One frame of a SCHEDULE message. -/
def receiveFrame (e : Env n) (tid : Fin n) (srcaddr : Gaddr n) (o : Obj n) : InterpM n Unit := do
  readGaddr
  let framep ← readPntr e tid o
  let s ← get
  let f ← need (s.heap.frameOf framep)
  onHeap (addFetcherUnique (.frame f) srcaddr)
  onHeap (resolveLocalFetchers tid f)
  onHeap (runFrameAfterFirst f)

def receiveFrames (e : Env n) (tid : Fin n) : List (Gaddr n × Obj n) → InterpM n Unit
  | [] => pure ()
  | (srcaddr, o) :: rest => do
    receiveFrame e tid srcaddr o
    receiveFrames e tid rest

def interpreterSchedule (e : Env n) (tid src : Fin n) (frames : List (Gaddr n × Obj n)) :
    InterpM n Unit := do
  startAddressReading
  receiveFrames e tid frames
  finishAddressReading src .schedule

def Acct.removeAcked (src : Fin n) (count : Nat) (a : Acct n) : Acct n :=
  { a with
    unackMsgAcount := fun d =>
      if d = src then (a.unackMsgAcount d).drop count else a.unackMsgAcount d
    inflightAddrs := fun d =>
      if d = src then (a.inflightAddrs d).drop ((a.unackMsgAcount d).take count).sum
      else a.inflightAddrs d }

def interpreterAck (src : Fin n) (count naddrs : Nat) : InterpM n Unit := do
  check (0 < naddrs)
  let s ← get
  check (count ≤ (s.acct.unackMsgAcount src).length)
  check (count = 1)
  check ((s.acct.unackMsgAcount src)[0]? = some naddrs)
  check (((s.acct.unackMsgAcount src).take count).sum ≤ (s.acct.inflightAddrs src).length)
  modify (fun s => { s with acct := s.acct.removeAcked src count })

/-- The loop of `interpreter_distribute` over the destinations. -/
def distributeTo (e : Env n) (tid : Fin n) (dist : Fin n → Nat) : List (Fin n) → InterpM n Unit
  | [] => pure ()
  | dest :: rest => do
    let items ← scheduleSparks e tid (dist dest)
    when (items ≠ []) (msgSend dest (.schedule items))
    distributeTo e tid dist rest

def interpreterDistribute (e : Env n) (tid : Fin n) (dist : Fin n → Nat) : InterpM n Unit :=
  distributeTo e tid dist (List.finRange n)

/-- Messages of addresses that are not written with `write_gaddr`. -/
def sendRaw (m : List (Gaddr n) → WMsg n) : List (Fin n × List (Gaddr n)) → InterpM n Unit
  | [] => pure ()
  | (d, addrs) :: rest => do
    msgSend d (m addrs)
    sendRaw m rest

/-- The same with `endpoint_send`. -/
def postRaw (m : List (Gaddr n) → WMsg n) : List (Fin n × List (Gaddr n)) → InterpM n Unit
  | [] => pure ()
  | (d, addrs) :: rest => do
    modify (fun s => { s with acct := s.acct.post d (m addrs) })
    postRaw m rest

/-- `handle_message`, for a message of another task. `dest` is the task to which a FISH request is
passed on, and `deleted` the addresses of HAVE_REPLICAS that the task has no more. -/
def handleMessage (e : Env n) (tid src dest : Fin n) (deleted : List (Gaddr n)) :
    WMsg n → InterpM n Unit
  | .fish reqtsk age => interpreterFish e tid src reqtsk dest age
  | .fetch target store => interpreterFetch e tid src target store
  | .respond store o => interpreterRespond e tid src store o
  | .schedule frames => interpreterSchedule e tid src frames
  | .ack count naddrs _ => interpreterAck src count naddrs
  | .haveReplicas _ => when (deleted ≠ []) (msgSend src (.deleteReplicas deleted))
  | .deleteReplicas _ => pure ()
  | .checkrefs _ => pure ()

/-! ## Evaluation -/

/-- What instructions do that neither make, run, block or end a frame nor follow a remote
reference: they change the slots and the instruction of the running frame `f`, fill cells that are
not frames or references, and make new ones. -/
structure Mutates (f : Nat) (h h' : Heap n) : Prop where
  running : h.runq.head? = some f
  frame : ∃ instr data, h'.frames = Function.update h.frames f { h.frames f with
    instr := instr, data := data }
  same : h' = { h with cells := h'.cells, ncells := h'.ncells, frames := h'.frames }
  grows : h.ncells ≤ h'.ncells
  /-- frames, references and indirections stay -/
  kept : ∀ c, (h.cells c = h'.cells c) ∨
    ((∀ g, h.cells c ≠ .frame g ∧ h'.cells c ≠ .frame g) ∧
      (∀ g, h.cells c ≠ .remoteref g ∧ h'.cells c ≠ .remoteref g) ∧ ∀ p, h.cells c ≠ .ind p)

/-- MKFRAME, and the frames that DO and the list functions make. -/
def opMkframe (tid : Fin n) (f instr slot : Nat) (data : Nat → Pntr) : HeapM n Unit := do
  let h ← get
  let newf ← frameNew { instr := instr, data := data, origin := some (tid, h.nframes) }
  let c ← allocCell (.frame newf)
  let nf ← getFrame newf
  setFrame newf { nf with c := some c }
  let fr ← getFrame f
  setFrame f { fr with data := Function.update fr.data slot (.cell c 0) }

def opCall (tid : Fin n) (f instr slot : Nat) (data : Nat → Pntr) : HeapM n Unit := do
  let h ← get
  let newf ← frameNew
    { instr := instr, data := data, retp := some (f, slot), origin := some (tid, h.nframes) }
  addWaiterFrame (.frame newf) f
  blockFrame f
  runFrame newf

def opSpark (f slot : Nat) : HeapM n Unit := do
  let fr ← getFrame f
  let p ← resolvePntr (fr.data slot)
  let h ← get
  match h.frameOf p with
  | some newf => sparkFrame newf
  | none => pure ()

/-- The request that `eval_remoteref` and `start_frame_running` send. -/
def sendFetch (tid : Fin n) (target : Nat) (ref : Pntr) : InterpM n Unit := do
  let glo ← onHeap (getGlobal target)
  check (glo.addr.tid ≠ tid)
  let storeaddr ← onHeap (getPhysicalAddress tid ref)
  check (storeaddr.tid = tid)
  writeGaddr glo.addr
  writeGaddr storeaddr
  msgSend glo.addr.tid (.fetch glo.addr storeaddr)
  let glo ← onHeap (getGlobal target)
  onHeap (setGlobal target { glo with fetching := true })

def evalRemoteref (tid : Fin n) (f target : Nat) (ref : Pntr) : InterpM n Unit := do
  let glo ← onHeap (getGlobal target)
  when (glo.fetching = false) (sendFetch tid target ref)
  let s ← get
  check (0 ≤ s.heap.nfetching)
  onHeap (modify (fun h => { h with nfetching := h.nfetching + 1 }))
  onHeap (addWaiterFrame (.global target) f)
  onHeap (blockFrame f)

def opEval (tid : Fin n) (f slot : Nat) : InterpM n Unit := do
  let fr ← onHeap (getFrame f)
  let p ← onHeap (resolvePntr (fr.data slot))
  onHeap (setFrame f { fr with data := Function.update fr.data slot p })
  let s ← get
  match s.heap.at p with
  | some (.frame newf) => do
    onHeap (addWaiterFrame (.frame newf) f)
    onHeap (blockFrame f)
    onHeap (runFrame newf)
  | some (.remoteref target) => evalRemoteref tid f target p
  | _ => pure ()

/-- The end of a frame, after its value is where it was asked for. -/
def frameEnds (e : Env n) (tid : Fin n) (f : Nat) (val : Pntr) : InterpM n Unit := do
  onHeap (doneFrame f)
  resumeWaiters e tid (.frame f) val
  onHeap (frameFree f)

def frameReturn (e : Env n) (tid : Fin n) (f : Nat) (val : Pntr) : InterpM n Unit := do
  let fr ← onHeap (getFrame f)
  match fr.c with
  | some c => do
    check (fr.retp = none)
    let s ← get
    check (s.heap.frameOf (.cell c 0) ≠ none)
    onHeap (cellMakeInd c val)
    onHeap (setFrame f { fr with c := none })
    frameEnds e tid f val
  | none => do
    let (caller, slot) ← need fr.retp
    let cf ← onHeap (getFrame caller)
    onHeap (setFrame caller { cf with data := Function.update cf.data slot val })
    let fr ← onHeap (getFrame f)
    onHeap (setFrame f { fr with retp := none })
    frameEnds e tid f val

/-- The branch of DO for too few arguments: the cell of the frame becomes a CAP. -/
def returnCap (e : Env n) (tid : Fin n) (f arity address fno fileno lineno : Nat)
    (data : List Pntr) : InterpM n Unit := do
  let fr ← onHeap (getFrame f)
  match fr.c with
  | some c => do
    onHeap (setCell c (.cap arity address fno fileno lineno data))
    onHeap (setFrame f { fr with c := none })
    frameEnds e tid f (.cell c 0)
  | none => do
    let c ← onHeap (allocCell (.cap arity address fno fileno lineno data))
    let (caller, slot) ← need fr.retp
    let cf ← onHeap (getFrame caller)
    onHeap (setFrame caller { cf with data := Function.update cf.data slot (.cell c 0) })
    let fr ← onHeap (getFrame f)
    onHeap (setFrame f { fr with retp := none })
    frameEnds e tid f (.cell c 0)

def opEnd (f : Nat) : HeapM n Unit := do
  doneFrame f
  let fr ← getFrame f
  let c ← need fr.c
  setCell c .nil
  dropFrame f

/-- A builtin whose wrapper has to run in another task. -/
def migrateTo (e : Env n) (tid desttsk : Fin n) (f : Nat) : InterpM n Unit := do
  onHeap (doneFrame f)
  let item ← scheduleFrame e tid f
  msgSend desttsk (.schedule [item])

/-- The branch of `connect` for too many connections: the frame is a spark again, at the end of the
list. -/
def postpone (e : Env n) (f : Nat) : HeapM n Unit := do
  doneFrame f
  let fr ← getFrame f
  setFrame f { fr with
    instr := e.funAddress (e.frameFno fr) + 1, postponed := true, state := .sparked }
  modify (fun h => { h with sparklist := h.sparklist ++ [f] })

def startFrameRunning (tid : Fin n) (framep : Pntr) : InterpM n Unit := do
  let p ← onHeap (resolvePntr framep)
  let s ← get
  match s.heap.at p with
  | some (.frame f) => onHeap (runFrame f)
  | some (.remoteref target) => do
    sendFetch tid target p
    onHeap (modify (fun h => { h with nfetching := h.nfetching + 1 }))
  | _ => pure ()

/-- `suspend_current_frame` -/
def suspendFrame (f : Nat) : HeapM n Unit := do
  blockFrame f
  modify (fun h => { h with ioframes := f :: h.ioframes })

/-- `retrieve_blocked_frame` -/
def retrieveBlockedFrame (f : Nat) : HeapM n Unit := do
  let h ← get
  check (f ∈ h.ioframes)
  modify (fun h => { h with ioframes := h.ioframes.erase f })
  unblockFrameAfterFirst f

def findSpark (f : Nat) : HeapM n Unit := do
  let h ← get
  check (h.runq = [])
  check (h.sparklist.head? = some f)
  runFrame f

/-- What a task does between two messages, with the running frame `f`. -/
inductive Action (n : Nat) where
  | mkframe (f instr slot : Nat) (data : Nat → Pntr)
  | call (f instr slot : Nat) (data : Nat → Pntr)
  | spark (f slot : Nat)
  | eval (f slot : Nat)
  | ret (f slot : Nat)
  | retCap (f arity address fno fileno lineno : Nat) (data : List Pntr)
  | finish (f : Nat)
  | migrate (f : Nat) (dest : Fin n)
  | postpone (f : Nat)
  | startRunning (f slot : Nat)
  | suspend (f : Nat)
  | findSpark (f : Nat)
  | fish (dest : Fin n)

/-- The frame that an action runs in is the first of the queue. -/
def running (f : Nat) : HeapM n (Frame n) := do
  let h ← get
  check (h.runq.head? = some f)
  getFrame f

def act (e : Env n) (tid : Fin n) : Action n → InterpM n Unit
  | .mkframe f instr slot data => do
    let _ ← onHeap (running f)
    onHeap (opMkframe tid f instr slot data)
  | .call f instr slot data => do
    let _ ← onHeap (running f)
    onHeap (opCall tid f instr slot data)
  | .spark f slot => do
    let _ ← onHeap (running f)
    onHeap (opSpark f slot)
  | .eval f slot => do
    let _ ← onHeap (running f)
    opEval tid f slot
  | .ret f slot => do
    let fr ← onHeap (running f)
    frameReturn e tid f (fr.data slot)
  | .retCap f arity address fno fileno lineno data => do
    let _ ← onHeap (running f)
    returnCap e tid f arity address fno fileno lineno data
  | .finish f => onHeap (opEnd f)
  | .migrate f dest => do
    let fr ← onHeap (running f)
    check (e.atBif fr.instr = true ∧ dest ≠ tid)
    migrateTo e tid dest f
  | .postpone f => do
    let fr ← onHeap (running f)
    check (e.atBif fr.instr = true)
    onHeap (postpone e f)
  | .startRunning f slot => do
    let fr ← onHeap (running f)
    startFrameRunning tid (fr.data slot)
  | .suspend f => onHeap (suspendFrame f)
  | .findSpark f => onHeap (findSpark f)
  | .fish dest => do
    let s ← get
    check (s.heap.runq = [] ∧ dest ≠ tid)
    msgSend dest (.fish tid n)

/-! ## The work of a group -/

/-- Between two steps nothing is kept of what has been sent. -/
def Interp.settled (s : Interp n) : Interp n := { s with acct := { s.acct with sent := [] } }

/-- A program that a task runs as one step. -/
def Runs (m : InterpM n Unit) (s s' : Interp n) (out : List (Fin n × WMsg n)) : Prop :=
  ∃ r, m s = some ((), r) ∧ s' = r.settled ∧ out = r.acct.sent

/-- The messages of `mark_replicas`, part of a local collection. -/
def markReplicas (replicas : List (Fin n × List (Gaddr n))) : InterpM n Unit :=
  sendRaw .haveReplicas replicas

/-- The messages of `distributed_collect_end`. -/
def sweepReferences (deletions replicas : List (Fin n × List (Gaddr n))) : InterpM n Unit := do
  sendRaw .deleteReplicas deletions
  markReplicas replicas

/-- The addresses of a MARKENTRY message. -/
def readMarks (src : Fin n) (addrs : List (Gaddr n)) : InterpM n Unit := do
  startAddressReading
  readGaddrs addrs
  finishAddressReading src .markentry

/-- What evaluation does in one step; `gc` is what a collection may do to a heap. -/
inductive Evaluates (e : Env n) (gc : Heap n → Heap n → Prop) (tid : Fin n) (s s' : Interp n)
    (out : List (Fin n × WMsg n)) : Prop where
  | act (a : Action n) : Runs (act e tid a) s s' out → Evaluates e gc tid s s' out
  | mutate (f : Nat) : Mutates f s.heap s'.heap → s'.acct = s.acct → out = [] →
      Evaluates e gc tid s s' out
  | collect (h : Heap n) (replicas : List (Fin n × List (Gaddr n))) : gc s.heap h →
      Runs (markReplicas replicas) { s with heap := h } s' out → Evaluates e gc tid s s' out

/-- Messages from outside the group: of the scheduler, and of the threads that do input and
output. -/
inductive Outside (e : Env n) (tid : Fin n) (s s' : Interp n) (out : List (Fin n × WMsg n)) :
    Prop where
  | distribute (dist : Fin n → Nat) : Runs (interpreterDistribute e tid dist) s s' out →
      Outside e tid s s' out
  | response (f : Nat) : Runs (onHeap (retrieveBlockedFrame f)) s s' out → Outside e tid s s' out

/-- The handlers as the work of a group. -/
@[reducible] def interp (e : Env n) (gc : Heap n → Heap n → Prop) : Work n where
  State := Interp n
  Msg := WMsg n
  handle := fun i s j m s' out => ∃ dest deleted, Runs (handleMessage e i j dest deleted m) s s' out
  external := Outside e
  evaluate := Evaluates e gc
  collectStart := fun _ s _ s' out => ∃ h replicas, gc s.heap h ∧
    Runs (markReplicas replicas) { s with heap := h } s' out
  markEntry := fun _ s j addrs _ s' out => Runs (readMarks j addrs) s s' out
  writeMarks := fun s d addrs =>
    { s with acct := ({ s.acct with inflight := addrs.reverse ++ s.acct.inflight }).account d }
  collectEnd := fun _ s s' out => ∃ h deletions replicas, gc s.heap h ∧
    Runs (sweepReferences deletions replicas) { s with heap := h } s' out
  checkRefs := fun _ s out => ∃ refs, Runs (postRaw .checkrefs refs) s s out

end Runtime
end NReduce
