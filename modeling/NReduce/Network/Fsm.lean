import Mathlib.Logic.Function.Basic
import NReduce.Logic.Faults
import NReduce.Network.Framing

/-!
# NReduce.Network.Fsm

The state machine of a connection (`connection.c`), the messages that it sends (`notify.c`) and
`node_send_locked`, which may open a connection of its own and so call the state machine again.

A pointer to a connection or a listener is the number of its allocation. `Node.conn` is the memory of
the connections and the hash table of the source in one: a connection is in both from
`add_connection` to `remove_connection`.

The functions call each other in depth, so they get the number of calls that may be open.
-/

namespace NReduce
namespace Network
namespace Io

open Logic

/-- `CS_START` to `CS_END` -/
inductive CS where
  | start | waiting | ready | failed | connecting | connected | connectedDoneWriting | accepted
  | acceptedDoneWriting | acceptedDoneReading | finished | ended
  deriving DecidableEq

/-- `CE_AUTO` to `CE_CLIENT_CONNECTED` -/
inductive CE where
  | auto | requested | slotAvailable | attemptFailed | asyncStarted | asyncFailed | asyncOk
  | finwrite | finread | error | delete | read | clientConnected
  deriving DecidableEq

/-- The groups of states that a server counts. -/
inductive Kind where
  | waiting | opening | accepted
  deriving DecidableEq

/-- `WAITING_STATE`, `OPENING_STATE` and `ACCEPTED_STATE` -/
def Kind.holds : Kind → CS → Bool
  | waiting, st => st = .waiting
  | opening, st =>
    st = .ready || st = .connecting || st = .connected || st = .connectedDoneWriting
  | accepted, st => st = .accepted || st = .acceptedDoneReading || st = .acceptedDoneWriting

/-- `socketid` -/
structure Socketid where
  coordid : Endpointid
  sid : UInt32
  deriving DecidableEq

structure Conn extends Connection where
  sid : UInt32
  sock : Option Nat
  l : Option Nat
  /-- the number of bytes in the buffer; `recvbuf` is made together with it -/
  sendbuf : Option Nat
  outgoing : Bool
  finwrite : Bool
  collected : Bool
  /-- `frameids[CONNECT_FRAMEADDR]` and `frameids[WRITE_FRAMEADDR]` -/
  connectFrame : Nat
  writeFrame : Nat
  owner : Endpointid
  /-- `iswaiting`, `isopening` and `isaccepted` -/
  flag : Kind → Bool
  state : CS
  haderror : Bool
  /-- the address of its `serverinfo` -/
  si : UInt32

structure Listener where
  key : Nat
  sid : UInt32
  notify : Bool
  dontaccept : Bool
  acceptFrame : Nat
  owner : Endpointid

structure Serverinfo where
  /-- `nwaiting`, `nopening` and `naccepted` -/
  count : Kind → Int
  waitingConnections : List Nat

structure Endpoint where
  localid : UInt32
  outlinks : List Endpointid

/-- What the node sends. `c` is the connection, whose socket id is in the message unless there is an
error. The error texts are left out. -/
inductive Msg where
  | listenResponse (ioid : Nat) (error : Bool) (l : Option Nat)
  | acceptResponse (ioid c : Nat)
  | connectResponse (c ioid : Nat) (error : Bool)
  | connpairResponse (ioid : Nat) (pair : Option (Nat × Nat))
  | readResponse (ioid c : Nat) (data : List UInt8)
  | writeResponse (ioid : Nat)
  | connectionClosed (c : Nat) (error : Bool)
  | endpointExit (e : Endpointid)
  | link (e : Endpointid)
  | other (size : Nat)

/-- The size of the message's structure and of what comes behind it -/
def Msg.size : Msg → Nat
  | listenResponse .. => 281
  | acceptResponse .. => 281
  | connectResponse .. => 285
  | connpairResponse .. => 297
  | readResponse _ _ data => 24 + data.length
  | writeResponse _ => 4
  | connectionClosed .. => 277
  | endpointExit _ => 14
  | link _ => 10
  | other size => size

/-- What has happened so far, for the statements; the code does not keep it. -/
inductive Note where
  | sent (dest : Endpointid) (m : Msg)
  /-- the state has become `CS_CONNECTED` -/
  | connected (c : Nat)
  /-- `initiate_connection` has been called -/
  | attempt (c : Nat) (owner : Endpointid)
  | removed (c : Nat) (conn : Conn)

/-- What the system calls of `initiate_connection` return: there is no socket, or it fails later, or
the connection is on its way. -/
inductive Attempt where
  | noSocket
  | failed (sock : Nat)
  | started (sock : Nat)

structure Node where
  listenip : UInt32
  listenport : UInt16
  /-- OUTGOING is in the environment -/
  outgoing : Bool
  iosize : Nat
  /-- the numbers of the next connection and the next listener -/
  next : Nat
  nextListener : Nat
  conn : Nat → Option Conn
  connections : List Nat
  listeners : List Listener
  mainl : Option Nat
  /-- the addresses of the `serverinfo`s, in the order of the list -/
  servers : List UInt32
  server : UInt32 → Serverinfo
  endpoints : List Endpoint
  nextsid : UInt32
  nextlocalid : UInt32
  toclose : List Nat
  shutdown : Bool
  /-- what the next calls of `initiate_connection` will meet -/
  results : List Attempt
  log : List Note

inductive Fault where
  | invalidEvent (st : CS) (event : CE)
  /-- a connection is used that is not there -/
  | freed (c : Nat)
  /-- an element is taken from a list that it is not on -/
  | notOnList (c : Nat)
  /-- one of the checks in `enter_waiting` to `exit_active` -/
  | miscount (k : Kind)
  | depth
  /-- the counters or the lists are wrong after an event; the code does not check this -/
  | unbalanced
  /-- a listener is used that is not there -/
  | noListener (key : Nat)
  /-- another check, or the null pointer -/
  | assertion
  /-- the system calls and the other threads do not do this -/
  | environment
  deriving DecidableEq

namespace Node

def get (n : Node) (c : Nat) : Except Fault Conn :=
  match n.conn c with
  | some conn => .ok conn
  | none => .error (.freed c)

def set (n : Node) (c : Nat) (conn : Conn) : Node :=
  { n with conn := Function.update n.conn c (some conn) }

def note (n : Node) (x : Note) : Node := { n with log := n.log ++ [x] }

def iothid (n : Node) : Endpointid := ⟨n.listenip, n.listenport, 1⟩

def setServer (n : Node) (ip : UInt32) (si : Serverinfo) : Node :=
  { n with server := Function.update n.server ip si }

end Node

/-! ## The books -/

/-- The connection belongs to the server and its state is of the kind. -/
def inKind (k : Kind) (ip : UInt32) : Option Conn → Bool
  | some conn => conn.si = ip && k.holds conn.state
  | none => false

/-- The number of connections of a server in states of a kind -/
def tally (n : Node) (k : Kind) (ip : UInt32) : Nat :=
  (List.range n.next).countP fun c => inKind k ip (n.conn c)

/-- The counters are right, and the connections are on the right lists. -/
def Node.balanced (n : Node) : Bool :=
  (n.servers.all fun ip => [Kind.waiting, .opening, .accepted].all fun k =>
    (n.server ip).count k = tally n k ip) &&
  decide (∀ c < n.next, (c ∈ n.connections ↔ (n.conn c).any (·.state ≠ .waiting)) ∧
    n.servers.all fun ip => c ∈ (n.server ip).waitingConnections ↔
      (n.conn c).any fun conn => conn.state = .waiting && conn.si = ip)

/-- The end of an event that is not part of another one -/
def balance (n : Node) : Except Fault Node := do
  require .unbalanced (n.balanced = true)
  pure n

/-- `llist_remove` -/
def llistRemove (l : List Nat) (c : Nat) : Except Fault (List Nat) :=
  if c ∈ l then .ok (l.erase c) else .error (.notOnList c)

/-! ## connection.c -/

def removeConnection (n : Node) (c : Nat) : Except Fault Node := do
  let conn ← n.get c
  let n := { n with toclose := conn.sock.toList ++ n.toclose }
  let n ← if conn.state = .waiting then do
      let si := n.server conn.si
      let l ← llistRemove si.waitingConnections c
      pure (n.setServer conn.si { si with waitingConnections := l })
    else do
      let l ← llistRemove n.connections c
      pure { n with connections := l }
  pure ({ n with conn := Function.update n.conn c none }.note (.removed c conn))

def initiateConnection (n : Node) (c : Nat) : Except Fault (Bool × Node) := do
  let conn ← n.get c
  match n.results with
  | [] => .error .environment
  | r :: results =>
    let n := { n with results := results }.note (.attempt c conn.owner)
    match r with
    | .noSocket => pure (false, n.set c { conn with sock := none })
    | .failed sock => pure (false, n.set c { conn with sock := some sock })
    | .started sock => pure (true, n.set c { conn with sock := some sock, outgoing := true })

/-- The counter and the flag in `enter_waiting`, `enter_opening` and `enter_active` -/
def enter (k : Kind) (n : Node) (c : Nat) : Except Fault Node := do
  let conn ← n.get c
  let si := n.server conn.si
  require (.miscount k) (0 ≤ si.count k)
  require (.miscount k) (conn.flag k = false)
  let n := n.setServer conn.si { si with count := Function.update si.count k (si.count k + 1) }
  pure (n.set c { conn with flag := Function.update conn.flag k true })

/-- The counter and the flag in `exit_waiting`, `exit_opening` and `exit_active` -/
def exit (k : Kind) (n : Node) (c : Nat) : Except Fault Node := do
  let conn ← n.get c
  let si := n.server conn.si
  require (.miscount k) (0 ≤ si.count k - 1)
  require (.miscount k) (conn.flag k = true)
  let n := n.setServer conn.si { si with count := Function.update si.count k (si.count k - 1) }
  pure (n.set c { conn with flag := Function.update conn.flag k false })

def enterWaiting (n : Node) (c : Nat) : Except Fault Node := do
  let n ← enter .waiting n c
  let conn ← n.get c
  let l ← llistRemove n.connections c
  let si := n.server conn.si
  pure ({ n with connections := l }.setServer conn.si
    { si with waitingConnections := si.waitingConnections ++ [c] })

def exitWaiting (n : Node) (c : Nat) : Except Fault Node := do
  let n ← exit .waiting n c
  let conn ← n.get c
  let si := n.server conn.si
  let l ← llistRemove si.waitingConnections c
  pure ({ n with connections := n.connections ++ [c] }.setServer conn.si
    { si with waitingConnections := l })

def enterOpening : Node → Nat → Except Fault Node := enter .opening

def exitOpening : Node → Nat → Except Fault Node := exit .opening

def enterActive : Node → Nat → Except Fault Node := enter .accepted

def exitActive : Node → Nat → Except Fault Node := exit .accepted

/-- One of the three tests in `connection_state` -/
def passKind (k : Kind) (onEnter onExit : Node → Nat → Except Fault Node) (n : Node) (c : Nat)
    (newstate : CS) : Except Fault Node := do
  let conn ← n.get c
  if k.holds newstate && !k.holds conn.state then onEnter n c
  else if !k.holds newstate && k.holds conn.state then onExit n c
  else pure n

def createConnectionBuffers (conn : Conn) : Conn :=
  if conn.sendbuf = none then { conn with sendbuf := some 0, recvbuf := [] } else conn

/-- `connection_state` up to the call of `connection_fsm` -/
def changeState (n : Node) (c : Nat) (newstate : CS) : Except Fault Node := do
  let n ← passKind .waiting enterWaiting exitWaiting n c newstate
  let n ← passKind .opening enterOpening exitOpening n c newstate
  let n ← passKind .accepted enterActive exitActive n c newstate
  let conn ← n.get c
  if newstate = .connected then
    pure ((n.set c { createConnectionBuffers conn with state := newstate }).note (.connected c))
  else pure (n.set c { conn with state := newstate })

/-! ## node.c -/

/-- `connhash_lookup` -/
def connhashLookup (n : Node) (id : Socketid) : Option Nat :=
  (List.range n.next).find? fun c =>
    match n.conn c with
    | some conn => id = ⟨n.iothid, conn.sid⟩
    | none => false

/-- `get_serverinfo`: a new one is in front. -/
def getServerinfo (n : Node) (ip : UInt32) : Node :=
  if ip ∈ n.servers then n
  else { n with
    servers := ip :: n.servers
    server := Function.update n.server ip ⟨fun _ => 0, []⟩ }

def newConn (n : Node) (ip : UInt32) (l : Option Nat) : Conn where
  ip := ip
  port := -1
  recvbuf := []
  donewelcome := false
  donehandshake := false
  isreg := false
  readFrame := 0
  dontread := false
  sid := n.nextsid
  sock := none
  l := l
  sendbuf := if l = n.mainl then some welcomeMessage.length else none
  outgoing := false
  finwrite := false
  collected := false
  connectFrame := 0
  writeFrame := 0
  owner := ⟨0, 0, 0⟩
  flag := fun _ => false
  state := .start
  haderror := false
  si := ip

def addConnection (n : Node) (ip : UInt32) (l : Option Nat) : Except Fault (Nat × Node) := do
  require .assertion (connhashLookup n ⟨n.iothid, n.nextsid⟩ = none)
  let conn := newConn n ip l
  let c := n.next
  let n := getServerinfo { n with nextsid := n.nextsid + 1, next := n.next + 1 } ip
  pure (c, { n with connections := n.connections ++ [c] }.set c conn)

/-- `find_connection` -/
def findConnection (n : Node) (dest : Endpointid) : Option Nat :=
  n.connections.find? fun c =>
    match n.conn c with
    | some conn => conn.ip = dest.ip && conn.port = dest.port.toNat && (!n.outgoing || conn.outgoing)
    | none => false

/-- The links of an endpoint to endpoints of the node that a connection leads to -/
def exited (conn : Conn) (endpt : Endpoint) : List Endpointid :=
  endpt.outlinks.filter fun e => e.ip = conn.ip && (e.port.toNat : Int) = conn.port

/-- The messages of `handle_disconnection` go to endpoints of this node. They take the links with
them. -/
def handleDisconnection (n : Node) (c : Nat) : Except Fault Node := do
  let conn ← n.get c
  if conn.isreg then pure n
  else
    pure { n with
      endpoints := n.endpoints.map fun endpt =>
        { endpt with outlinks := endpt.outlinks.filter (· ∉ exited conn endpt) }
      log := n.log ++ n.endpoints.flatMap fun endpt => (exited conn endpt).map fun e =>
        .sent ⟨n.listenip, n.listenport, endpt.localid⟩ (.endpointExit e) }

def badEvent (n : Node) (st : CS) (event : CE) : Except Fault Node :=
  if event = .auto then pure n else .error (.invalidEvent st event)

mutual

def connectionState : Nat → Node → Nat → CS → Except Fault Node
  | 0, _, _, _ => .error .depth
  | k + 1, n, c, newstate => do
    let n ← changeState n c newstate
    connectionFsm k n c .auto

def connectionFsm : Nat → Node → Nat → CE → Except Fault Node
  | 0, _, _, _ => .error .depth
  | k + 1, n, c, event => do
    let conn ← n.get c
    match conn.state with
    | .start =>
      match event with
      | .requested => connectionState k n c .waiting
      | .delete => connectionState k n c .ended
      | .clientConnected => connectionState k n c .connected
      | _ => badEvent n conn.state event
    | .waiting =>
      match event with
      | .slotAvailable => do
        let n ← connectionState k n c .ready
        let (started, n) ← initiateConnection n c
        if started then connectionFsm k n c .asyncStarted
        else connectionFsm k n c .attemptFailed
      | .delete => connectionState k n c .ended
      | _ => badEvent n conn.state event
    | .ready =>
      match event with
      | .asyncStarted => connectionState k n c .connecting
      | .attemptFailed => connectionState k n c .failed
      | .delete => connectionState k n c .ended
      | _ => badEvent n conn.state event
    | .failed =>
      match event with
      | .auto => do
        let n ← notifyConnect k n c true
        connectionState k n c .ended
      | _ => badEvent n conn.state event
    | .connecting =>
      match event with
      | .asyncOk => do
        let n ← connectionState k n c .connected
        notifyConnect k n c false
      | .asyncFailed => connectionState k n c .failed
      | .delete => connectionState k n c .ended
      | _ => badEvent n conn.state event
    | .connected =>
      match event with
      | .error => connectionState k (n.set c { conn with haderror := true }) c .finished
      | .delete => connectionState k n c .finished
      | .read => connectionState k n c .accepted
      | .finread => connectionState k n c .acceptedDoneReading
      | .finwrite => connectionState k n c .connectedDoneWriting
      | _ => badEvent n conn.state event
    | .connectedDoneWriting =>
      match event with
      | .error => connectionState k (n.set c { conn with haderror := true }) c .finished
      | .delete => connectionState k n c .finished
      | .finread => connectionState k n c .finished
      | .finwrite => pure n
      | .read => connectionState k n c .acceptedDoneWriting
      | _ => badEvent n conn.state event
    | .accepted =>
      match event with
      | .error => connectionState k (n.set c { conn with haderror := true }) c .finished
      | .delete => connectionState k n c .finished
      | .read => pure n
      | .finread => connectionState k n c .acceptedDoneReading
      | .finwrite => connectionState k n c .acceptedDoneWriting
      | _ => badEvent n conn.state event
    | .acceptedDoneWriting =>
      match event with
      | .error => connectionState k (n.set c { conn with haderror := true }) c .finished
      | .delete => connectionState k n c .finished
      | .finwrite => pure n
      | .read => pure n
      | .finread => connectionState k n c .finished
      | _ => badEvent n conn.state event
    | .acceptedDoneReading =>
      match event with
      | .error => connectionState k (n.set c { conn with haderror := true }) c .finished
      | .delete => connectionState k n c .finished
      | .finread => pure n
      | .finwrite => connectionState k n c .finished
      | _ => badEvent n conn.state event
    | .finished =>
      match event with
      | .auto => do
        let n ← notifyClosed k n c conn.haderror
        connectionState k n c .ended
      | _ => badEvent n conn.state event
    | .ended =>
      match event with
      | .auto => removeConnection n c
      | _ => badEvent n conn.state event

def notifyConnect : Nat → Node → Nat → Bool → Except Fault Node
  | 0, _, _, _ => .error .depth
  | k + 1, n, c, error => do
    let conn ← n.get c
    let n ← if 0 < conn.connectFrame then
        nodeSend k (n.set c { conn with connectFrame := 0 }) conn.owner
          (.connectResponse c conn.connectFrame error)
      else pure n
    if error then handleDisconnection n c else pure n

def notifyClosed : Nat → Node → Nat → Bool → Except Fault Node
  | 0, _, _, _ => .error .depth
  | k + 1, n, c, error => do
    let conn ← n.get c
    let n ← if conn.owner.localid ≠ 0 then nodeSend k n conn.owner (.connectionClosed c error)
      else pure n
    handleDisconnection n c

/-- `node_send_locked`. A message to an endpoint of this node is put into its mailbox. -/
def nodeSend : Nat → Node → Endpointid → Msg → Except Fault Node
  | 0, _, _, _ => .error .depth
  | k + 1, n, dest, m => do
    require .assertion (n.mainl ≠ none ∧ dest.ip ≠ 0 ∧ 0 < dest.port)
    let n := n.note (.sent dest m)
    if dest.ip = n.listenip ∧ dest.port = n.listenport then pure n
    else
      match findConnection n dest with
      | some c => do
        let conn ← n.get c
        match conn.sendbuf with
        | none => .error .assertion
        | some len => pure (n.set c { conn with sendbuf := some (len + msgHeaderSize + m.size) })
      | none => do
        let (c, n) ← addConnection n dest.ip n.mainl
        let conn ← n.get c
        let n := n.set c { conn with
          port := dest.port.toNat
          sendbuf := conn.sendbuf.map (· + 2 + msgHeaderSize + m.size) }
        let n ← connectionFsm k n c .requested
        let n ← balance n
        let conn ← n.get c
        -- the opening limit is ignored
        if conn.state = .waiting then do
          let n ← connectionFsm k n c .slotAvailable
          balance n
        else pure n

end

/-- No call of the source is deeper. -/
def maxDepth : Nat := 16

/-- `connection_fsm`, as the other files call it -/
def fsm (n : Node) (c : Nat) (event : CE) : Except Fault Node := do
  let n ← connectionFsm maxDepth n c event
  balance n

/-- `node_send_locked` and `endpoint_send_locked` -/
def send (n : Node) (dest : Endpointid) (m : Msg) : Except Fault Node := nodeSend maxDepth n dest m

end Io
end Network
end NReduce
