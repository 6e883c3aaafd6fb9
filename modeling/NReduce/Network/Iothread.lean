import NReduce.Network.Fsm

/-!
# NReduce.Network.Iothread

The I/O thread (`iothread.c`): the messages that it handles, the loop around `select`, and what the
node does at its end (`node.c`).

* `step`: one step of the thread, or something that other threads do while it is in `select`. Where
  the source goes through a list, a step is one turn of the loop; the pointer to the next element has
  been read before the turn.
* What the system calls return is in the input of the step.

The sets of descriptors are kept as the connections and listeners that they belong to: a descriptor
is closed at the end of a turn of the main loop only, so until then it stands for the same one.
-/

namespace NReduce
namespace Network
namespace Io

open Logic

/-- `CANREAD` -/
def CS.canRead (st : CS) : Bool :=
  st = connected || st = connectedDoneWriting || st = accepted || st = acceptedDoneWriting

/-- `CANWRITE` -/
def CS.canWrite (st : CS) : Bool := st = connected || st = accepted || st = acceptedDoneReading

/-! ## node.c -/

/-- `endpoint_link_locked` for the endpoint of the I/O thread -/
def endpointLink (n : Node) (dest : Endpointid) : Except Fault Node :=
  if n.endpoints.any fun endpt => endpt.localid = 1 && endpt.outlinks.contains dest then pure n
  else
    send { n with
      endpoints := n.endpoints.map fun endpt =>
        if endpt.localid = 1 then { endpt with outlinks := dest :: endpt.outlinks } else endpt }
      dest (.link n.iothid)

/-- `start_console` -/
def startConsole (n : Node) (c : Nat) : Except Fault Node := do
  let conn ← n.get c
  require .assertion (n.nextlocalid ≠ 0xffffffff)
  let owner : Endpointid := ⟨n.listenip, n.listenport, n.nextlocalid⟩
  let n := { n with
    nextlocalid := n.nextlocalid + 1
    endpoints := n.endpoints ++ [Endpoint.mk n.nextlocalid []] }
  endpointLink (n.set c { conn with owner := owner }) owner

/-- `MSG_ENDPOINT_EXIT` -/
def msgEndpointExit : UInt32 := 2147483646

/-- `MSG_LINK` -/
def msgLink : UInt32 := 2147483645

/-- An `endpointid` in a message -/
def readEndpointid (data : List UInt8) : Endpointid :=
  ⟨UInt32.ofNat (ofBytes (data.take 4)), UInt16.ofNat (ofBytes ((data.drop 4).take 2)),
    UInt32.ofNat (ofBytes ((data.drop 6).take 4))⟩

/-- `got_message` for a message of another node. -/
def gotMessage (n : Node) (dest tag : UInt32) (data : List UInt8) : Except Fault Node :=
  if n.endpoints.any fun endpt => endpt.localid = dest then
    if tag = msgEndpointExit then
      pure { n with endpoints := n.endpoints.map fun endpt =>
        if endpt.localid = dest then
          { endpt with outlinks := endpt.outlinks.erase (readEndpointid data) }
        else endpt }
    else pure n
  else if tag = msgLink then do
    require .assertion (data.length = 10)
    send n (readEndpointid data) (.endpointExit ⟨n.listenip, n.listenport, dest⟩)
  else pure n

def getListener (n : Node) (id : Socketid) : Option Listener :=
  n.listeners.find? fun l => id = ⟨n.iothid, l.sid⟩

/-- The listener at an address -/
def listenerAt (n : Node) (key : Nat) : Except Fault Listener :=
  match n.listeners.find? fun l => l.key = key with
  | some l => .ok l
  | none => .error (.noListener key)

def setListener (n : Node) (l : Listener) : Node :=
  { n with listeners := n.listeners.map fun l' => if l'.key = l.key then l else l' }

/-- `node_listen_locked`, when its system calls succeed -/
def nodeListen (n : Node) (owner : Endpointid) : Node :=
  { n with
    listeners := n.listeners ++ [⟨n.nextListener, n.nextsid, true, true, 0, owner⟩]
    nextListener := n.nextListener + 1
    nextsid := n.nextsid + 1 }

/-! ## notify.c -/

def notifyAccept (n : Node) (c key : Nat) : Except Fault Node := do
  let l ← listenerAt n key
  if ¬ l.notify then pure n
  else
    require .assertion (l.owner.localid ≠ 0 ∧ l.acceptFrame ≠ 0)
    let conn ← n.get c
    let n := n.set c { conn with dontread := true, owner := l.owner, isreg := true }
    let n ← send n l.owner (.acceptResponse l.acceptFrame c)
    require .assertion (¬ l.dontaccept)
    pure (setListener n { l with acceptFrame := 0, dontaccept := true })

def notifyWrite (n : Node) (c : Nat) : Except Fault Node := do
  let conn ← n.get c
  match conn.sendbuf with
  | none => .error .assertion
  | some len =>
    if 0 < conn.writeFrame ∧ len < n.iosize then
      send (n.set c { conn with writeFrame := 0 }) conn.owner (.writeResponse conn.writeFrame)
    else pure n

/-- What `notify_read` and `process_received` call, in order -/
def runAction (c : Nat) (n : Node) : Action → Except Fault Node
  | .gotMessage hdr _ tag _ data => gotMessage n hdr.destlocalid tag data
  | .startConsole => startConsole n c
  | .readResponse ioid data => do
    let conn ← n.get c
    send n conn.owner (.readResponse ioid c data)

/-- A function of the framing layer is run on a connection. -/
def runOn (f : Connection → Connection × List Action) (n : Node) (c : Nat) : Except Fault Node := do
  let conn ← n.get c
  let (peer, actions) := f conn.toConnection
  actions.foldlM (runAction c) (n.set c { conn with toConnection := peer })

/-! ## The messages -/

def iothreadListen (n : Node) (owner : Endpointid) (ioid : Nat) (source : Endpointid) (ok : Bool) :
    Except Fault Node := do
  let n ← endpointLink n owner
  if ok then send (nodeListen n owner) source (.listenResponse ioid false (some n.nextListener))
  else send n source (.listenResponse ioid true none)

def iothreadAccept (n : Node) (id : Socketid) (ioid : Nat) : Except Fault Node :=
  match getListener n id with
  | none => .error .assertion
  | some l => do
    require .assertion (l.acceptFrame = 0 ∧ l.dontaccept)
    pure (setListener n { l with acceptFrame := ioid, dontaccept := false })

def iothreadConnect (n : Node) (ip : UInt32) (port : UInt16) (owner : Endpointid) (ioid : Nat) :
    Except Fault Node := do
  let n ← endpointLink n owner
  let (c, n) ← addConnection n ip none
  let conn ← n.get c
  let n := n.set c { conn with
    isreg := true, port := port.toNat, connectFrame := ioid, dontread := true, owner := owner }
  fsm n c .requested

/-- One end of a pair -/
def pairEnd (conn : Conn) (sock : Nat) (source : Endpointid) : Conn :=
  { conn with sock := some sock, dontread := true, isreg := true, owner := source }

def iothreadConnpair (n : Node) (ioid : Nat) (source : Endpointid) (fds : Option (Nat × Nat)) :
    Except Fault Node :=
  match fds with
  | none => send n source (.connpairResponse ioid none)
  | some (fda, fdb) => do
    let (a, n) ← addConnection n 0 none
    let (b, n) ← addConnection n 0 none
    let ca ← n.get a
    let n := n.set a (pairEnd ca fda source)
    let cb ← n.get b
    let n := n.set b (pairEnd cb fdb source)
    let n ← fsm n a .clientConnected
    let n ← fsm n b .clientConnected
    send n source (.connpairResponse ioid (some (a, b)))

/-- The owner of a connection is who uses it. -/
def changeOwner (n : Node) (c : Nat) (source : Endpointid) : Except Fault Node := do
  let conn ← n.get c
  if conn.owner = source then pure n
  else endpointLink (n.set c { conn with owner := source }) source

def iothreadRead (n : Node) (id : Socketid) (ioid : Nat) (source : Endpointid) :
    Except Fault Node :=
  match connhashLookup n id with
  | none => pure n
  | some c => do
    let conn ← n.get c
    require .assertion (conn.state ≠ .acceptedDoneReading)
    require .assertion (¬ conn.collected ∧ conn.dontread ∧ conn.readFrame = 0)
    let n ← changeOwner n c source
    let conn ← n.get c
    pure (n.set c { conn with readFrame := ioid, dontread := false })

def iothreadWrite (n : Node) (id : Socketid) (ioid len : Nat) (source : Endpointid) :
    Except Fault Node :=
  match connhashLookup n id with
  | none => if len = 0 then send n source (.writeResponse ioid) else pure n
  | some c => do
    let conn ← n.get c
    require .assertion (¬ conn.collected ∧ conn.sendbuf ≠ none)
    let n ← changeOwner n c source
    let conn ← n.get c
    let nbytes := conn.sendbuf.getD 0 + len
    require .assertion (conn.writeFrame = 0)
    let conn := { conn with sendbuf := some nbytes, finwrite := conn.finwrite || len = 0 }
    let spaceleft := decide (nbytes < n.iosize)
    let n := n.set c (if spaceleft then conn else { conn with writeFrame := ioid })
    if spaceleft || len = 0 then send n source (.writeResponse ioid) else pure n

def iothreadDeleteConnection (n : Node) (id : Socketid) : Except Fault Node :=
  match connhashLookup n id with
  | none => pure n
  | some c => do
    let conn ← n.get c
    fsm (n.set c { conn with collected := true, finwrite := true }) c .finread

/-! ## The sockets -/

/-- What `write` returns -/
inductive Written where
  | again
  | error
  | bytes (count : Nat)

/-- The loop of `handle_write`: what is left in the buffer, and whether there was no error. -/
def writeLoop : Nat → List Written → Except Fault (Nat × Bool)
  | 0, _ => .ok (0, true)
  | _, [] => .error .environment
  | len, .again :: _ => .ok (len, true)
  | len, .error :: _ => .ok (len, false)
  | len, .bytes 0 :: _ => .ok (len, false)
  | len, .bytes count :: rest => writeLoop (len - count) rest

def handleWrite (n : Node) (c : Nat) (results : List Written) : Except Fault Node := do
  let conn ← n.get c
  match conn.sendbuf with
  | none => .error .assertion
  | some len =>
    let (left, ok) ← writeLoop len results
    let n := n.set c { conn with sendbuf := some left }
    if ¬ ok then fsm n c .error
    else
      let n ← notifyWrite n c
      let conn ← n.get c
      if conn.sendbuf = some 0 ∧ conn.finwrite then fsm n c .finwrite else pure n

/-- What `read` returns -/
inductive ReadResult where
  | error
  | closed
  | bytes (chunk : List UInt8)

def handleRead (n : Node) (c : Nat) : ReadResult → Except Fault Node
  | .error => fsm n c .error
  | .closed => do
    let n ← runOn notifyRead n c
    let n ← handleDisconnection n c
    let conn ← n.get c
    let n ← if conn.isreg then pure n else fsm n c .finwrite
    fsm n c .finread
  | .bytes chunk => do
    let n ← fsm n c .read
    runOn (receive · chunk) n c

/-- `ok`: the socket has no error. -/
def handleConnected (n : Node) (c : Nat) (ok : Bool) : Except Fault Node :=
  fsm n c (if ok then .asyncOk else .asyncFailed)

/-- The socket and the address of the client, if `accept` and the calls behind it succeed -/
def handleNewConnection (n : Node) (key : Nat) (client : Option (Nat × UInt32)) :
    Except Fault Node :=
  match client with
  | none => pure n
  | some (sock, ip) => do
    let (c, n) ← addConnection n ip (some key)
    let conn ← n.get c
    let n ← fsm (n.set c { conn with sock := some sock }) c .clientConnected
    notifyAccept n c key

/-! ## The thread -/

/-- Where `node_remove_listener` returns to -/
inductive Return where
  | messages
  | exiting (e : Endpointid) (next : Option Nat)
  | done
  deriving DecidableEq

/-- Where the thread is. A pointer is the element that the next turn of a loop is about. -/
inductive Pc where
  /-- the lock is free -/
  | select
  | messages
  /-- `node_handle_endpoint_exit` -/
  | exiting (e : Endpointid) (conn : Option Nat)
  | exitingListeners (e : Endpointid) (l : Option Nat)
  /-- `node_remove_listener` -/
  | removing (l : Nat) (conn : Option Nat) (ret : Return)
  -- the loops of `ioloop`
  | writing (conn : Option Nat)
  | reading (conn : Option Nat)
  | accepting (l : Option Nat)
  /-- `connect_pending` -/
  | pending (servers : List UInt32)
  /-- the thread has ended, and so do the others -/
  | joined
  /-- `node_close_connections` -/
  | closing
  | closingWaiting (servers : List UInt32)
  | done
  deriving DecidableEq

structure State where
  node : Node
  /-- the connections in `readfds` and `writefds`, and the listeners in `readfds` -/
  readfds : List Nat
  writefds : List Nat
  listenfds : List Nat
  pc : Pc

inductive Request where
  | endpointExit (epid : Endpointid)
  | listen (owner : Endpointid) (ioid : Nat) (ok : Bool)
  | accept (sockid : Socketid) (ioid : Nat)
  | connect (ip : UInt32) (port : UInt16) (owner : Endpointid) (ioid : Nat)
  | connpair (ioid : Nat) (fds : Option (Nat × Nat))
  | read (sockid : Socketid) (ioid : Nat)
  | write (sockid : Socketid) (ioid len : Nat)
  | deleteConnection (sockid : Socketid)
  | deleteListener (sockid : Socketid)

/-- What the system calls of a turn return -/
inductive Result where
  | none
  | connected (ok : Bool)
  | write (results : List Written)
  | read (result : ReadResult)
  | accept (client : Option (Nat × UInt32))

inductive Input where
  /-- other threads start, end, link or unlink endpoints -/
  | threads (endpoints : List Endpoint) (nextlocalid : UInt32)
  /-- another thread calls `node_send_locked` -/
  | send (dest : Endpointid) (size : Nat)
  | shutdown
  /-- what calls of `initiate_connection` will meet -/
  | results (results : List Attempt)
  /-- `select` returns -/
  | select (readfds writefds listenfds : List Nat)
  | message (source : Endpointid) (m : Request)
  /-- the thread goes on -/
  | next (result : Result)

/-- `conn->next` -/
def nextConn (n : Node) (c : Nat) : Except Fault (Option Nat) :=
  if c ∈ n.connections then .ok (n.connections.dropWhile (· ≠ c)).tail.head?
  else .error (.notOnList c)

/-- `l->next` -/
def nextListener (n : Node) (key : Nat) : Option Nat :=
  ((n.listeners.map (·.key)).dropWhile (· ≠ key)).tail.head?

def firstListener (n : Node) : Option Nat := (n.listeners.map (·.key)).head?

/-- The sockets that can be waited for -/
def mayRead (n : Node) (c : Nat) : Bool :=
  match n.conn c with
  | some conn => conn.sock.isSome && conn.state.canRead && !conn.dontread
  | none => false

def mayWrite (n : Node) (c : Nat) : Bool :=
  match n.conn c with
  | some conn => conn.sock.isSome && (conn.state = .connecting || conn.state.canWrite &&
      (conn.sendbuf.any (0 < ·) || conn.finwrite))
  | none => false

def mayAccept (n : Node) (key : Nat) : Bool :=
  n.listeners.any fun l => l.key = key && !l.dontaccept

/-- `MAX_OPENING` -/
def maxOpening : Int := 3

def handleMessage (s : State) (source : Endpointid) (m : Request) : Except Fault State :=
  let n := s.node
  match m with
  | .endpointExit epid => pure { s with pc := .exiting epid n.connections.head? }
  | .listen owner ioid ok => do pure { s with node := ← iothreadListen n owner ioid source ok }
  | .accept sockid ioid => do pure { s with node := ← iothreadAccept n sockid ioid }
  | .connect ip port owner ioid => do pure { s with node := ← iothreadConnect n ip port owner ioid }
  | .connpair ioid fds => do pure { s with node := ← iothreadConnpair n ioid source fds }
  | .read sockid ioid => do pure { s with node := ← iothreadRead n sockid ioid source }
  | .write sockid ioid len => do pure { s with node := ← iothreadWrite n sockid ioid len source }
  | .deleteConnection sockid => do pure { s with node := ← iothreadDeleteConnection n sockid }
  | .deleteListener sockid =>
    match getListener n sockid with
    | some l => pure { s with pc := .removing l.key n.connections.head? .messages }
    | none => pure s

def isOwner (owner e : Endpointid) : Bool := owner.localid ≠ 0 && owner = e

/-- A turn of a loop over the connections of the node -/
def turn (s : State) (c : Nat) (next : Option Nat → Pc) (body : Conn → Except Fault Node) :
    Except Fault State := do
  let conn ← s.node.get c
  let c' ← nextConn s.node c
  let n ← body conn
  pure { s with node := n, pc := next c' }

/-- The head of the main loop -/
def State.loop (s : State) : Pc := if s.node.shutdown then .joined else .select

/-- The thread goes on. -/
def advance (s : State) (result : Result) : Except Fault State :=
  let n := s.node
  match s.pc with
  | .select => pure { s with pc := s.loop } -- `select` has timed out
  | .messages => pure { s with pc := .writing n.connections.head? }
  | .exiting e (some c) => turn s c (.exiting e) fun conn =>
      if isOwner conn.owner e then fsm n c .delete else pure n
  | .exiting e none => pure { s with pc := .exitingListeners e (firstListener n) }
  | .exitingListeners e (some key) => do
    let l ← listenerAt n key
    let next := nextListener n key
    if isOwner l.owner e then
      pure { s with pc := .removing key n.connections.head? (.exiting e next) }
    else pure { s with pc := .exitingListeners e next }
  | .exitingListeners _ none => pure { s with pc := .messages }
  | .removing key (some c) ret => turn s c (.removing key · ret) fun conn =>
      if conn.l = some key then fsm n c .delete else pure n
  | .removing key none ret => do
    let _ ← listenerAt n key
    pure { s with
      node := { n with listeners := n.listeners.filter fun l => l.key ≠ key }
      pc := match ret with
        | .messages => .messages
        | .exiting e next => .exitingListeners e next
        | .done => .done }
  | .writing (some c) => turn s c .writing fun conn =>
      if conn.sock ≠ none ∧ c ∈ s.writefds then
        match result with
        | .connected ok => if conn.state = .connecting then handleConnected n c ok
            else .error .environment
        | .write results => if conn.state = .connecting then .error .environment
            else handleWrite n c results
        | _ => .error .environment
      else pure n
  | .writing none => pure { s with pc := .reading n.connections.head? }
  | .reading (some c) => turn s c .reading fun conn =>
      if conn.sock ≠ none ∧ c ∈ s.readfds ∧ conn.state.canRead then
        match result with
        | .read r => handleRead n c r
        | _ => .error .environment
      else pure n
  | .reading none => pure { s with pc := .accepting (firstListener n) }
  | .accepting (some key) => do
    let _ ← listenerAt n key
    let n ← if key ∈ s.listenfds then
        match result with
        | .accept client => handleNewConnection n key client
        | _ => .error .environment
      else pure n
    pure { s with node := n, pc := .accepting (nextListener n key) }
  | .accepting none => pure { s with
      node := { n with toclose := [] } -- `node_close_pending`
      pc := .pending n.servers }
  | .pending (ip :: servers) =>
    match (n.server ip).waitingConnections with
    | c :: _ =>
      if (n.server ip).count .opening < maxOpening then do
        let conn ← n.get c
        require (.miscount .waiting) (conn.flag .waiting = true)
        pure { s with node := ← fsm n c .slotAvailable }
      else pure { s with pc := .pending servers }
    | [] => pure { s with pc := .pending servers }
  | .pending [] => pure { s with pc := s.loop }
  | .joined => pure { s with pc := .closing }
  | .closing =>
    match n.connections with
    | c :: _ => do pure { s with node := ← fsm n c .delete }
    | [] => pure { s with pc := .closingWaiting n.servers }
  | .closingWaiting (ip :: servers) =>
    match (n.server ip).waitingConnections with
    | c :: _ => do pure { s with node := ← fsm n c .delete }
    | [] => pure { s with pc := .closingWaiting servers }
  | .closingWaiting [] =>
    match n.mainl with
    | some key => pure { s with pc := .removing key n.connections.head? .done }
    | none => pure { s with pc := .done }
  | .done => .error .environment

/-- The other threads can have the lock. -/
def Pc.free : Pc → Bool
  | select | joined => true
  | _ => false

def step (s : State) : Input → Except Fault State
  | .threads endpoints nextlocalid =>
    if s.pc.free ∧ s.node.nextlocalid ≤ nextlocalid then
      pure { s with node := { s.node with endpoints := endpoints, nextlocalid := nextlocalid } }
    else .error .environment
  | .send dest size =>
    if s.pc.free then do pure { s with node := ← send s.node dest (.other size) }
    else .error .environment
  | .shutdown =>
    if s.pc.free then pure { s with node := { s.node with shutdown := true } }
    else .error .environment
  | .results results => pure { s with node := { s.node with results := results } }
  | .select readfds writefds listenfds =>
    if s.pc = .select ∧ (∀ c ∈ readfds, mayRead s.node c) ∧ (∀ c ∈ writefds, mayWrite s.node c) ∧
        (∀ l ∈ listenfds, mayAccept s.node l) then
      pure ⟨s.node, readfds, writefds, listenfds, .messages⟩
    else .error .environment
  | .message source m => if s.pc = .messages then handleMessage s source m else .error .environment
  | .next result => advance s result

/-- A node when the I/O thread starts: the main listener is there. -/
def Node.initial (listenip : UInt32) (listenport : UInt16) (outgoing : Bool) (iosize : Nat) :
    Node where
  listenip := listenip
  listenport := listenport
  outgoing := outgoing
  iosize := iosize
  next := 0
  nextListener := 1
  conn := fun _ => none
  connections := []
  listeners := [⟨0, 2, false, false, 0, ⟨0, 0, 0⟩⟩]
  mainl := some 0
  servers := []
  server := fun _ => ⟨fun _ => 0, []⟩
  endpoints := [⟨1, []⟩]
  nextsid := 3
  nextlocalid := 5
  toclose := []
  shutdown := false
  results := []
  log := []

def State.initial (listenip : UInt32) (listenport : UInt16) (outgoing : Bool) (iosize : Nat) : State :=
  ⟨.initial listenip listenport outgoing iosize, [], [], [], .select⟩

/-- The states that the thread starts in -/
def Initial (s : State) : Prop :=
  ∃ listenip listenport outgoing iosize, s = .initial listenip listenport outgoing iosize

/-- Some steps, one after the other, that meet a condition -/
def steps (p : State → Input → Prop) [∀ s i, Decidable (p s i)] (s : State) :
    List Input → Except Fault State
  | [] => .ok s
  | i :: is => do
    require .environment (p s i)
    steps p (← step s i) is

end Io
end Network
end NReduce
