import Mathlib.Data.List.Basic
import Mathlib.Logic.Function.Basic
import Mathlib.Logic.Relation

/-!
# NReduce.Runtime.Suspend

A task that runs connect, listen, accept, read and print on sockets (`builtins.c`,
`interpreter.c`), and the I/O thread of its node that carries them out (`iothread.c`, `notify.c`,
`connection.c`). A frame that waits for the I/O thread is kept in the slot of `ioframes` that
`suspend_current_frame` finds for it, and the number of the slot, the ioid, travels with the
request and comes back with the response. `retrieve_blocked_frame` takes the frame out and puts the
slot on the free list.

The program is any: a frame that is not suspended calls any of these functions with any socket
that the program was given. The kernel is any as well. A task runs on one node here, so nothing
migrates, and the connections between nodes, connpair, mkconn and the socket of the task's own
output are left out, with the limits on the number of connections, which only put off a connect.
-/

namespace NReduce
namespace Runtime
namespace Suspend

/-- `CONNECT_FRAMEADDR`, .., `ACCEPT_FRAMEADDR` -/
inductive Frameaddr where
  | connect
  | read
  | write
  | listen
  | accept
  deriving DecidableEq

/-- The name of a suspension, which no two suspensions share: the operation, and the socket that it
is for (0 if there is none yet). It has no operation if the frame waits for a collection. The code
has no such names. They are carried along and never looked at. -/
structure Ticket where
  num : Nat
  op : Option Frameaddr
  sid : Nat
  deriving DecidableEq

/-- A message to the I/O thread. -/
inductive Request where
  | connect (ioid : Nat) (t : Ticket)
  | listen (ioid : Nat) (t : Ticket)
  | accept (sid ioid : Nat) (t : Ticket)
  | read (sid ioid : Nat) (t : Ticket)
  | write (sid ioid : Nat) (data : List UInt8) (t : Ticket)
  | deleteConnection (sid : Nat)
  | deleteListener (sid : Nat)
  deriving DecidableEq

/-- A message from the I/O thread. The null socket is 0. -/
inductive Response where
  | connect (ioid : Nat) (error : Bool) (errn sid : Nat) (errmsg : String) (t : Ticket)
  | listen (ioid : Nat) (error : Bool) (sid : Nat) (errmsg : String) (t : Ticket)
  | accept (ioid sid : Nat) (t : Ticket)
  | read (ioid sid : Nat) (data : List UInt8) (t : Ticket)
  | write (ioid : Nat) (t : Ticket)
  | connectionClosed (sid : Nat) (error : Bool) (errmsg : String)
  deriving DecidableEq

/-- What stops a step: it is not possible now, an assertion of a builtin or of the collector fails,
an assertion of the I/O thread fails (or it meets `fatal`), or one of `retrieve_blocked_frame` or of
a handler of a response. -/
inductive Halt where
  | idle
  | builtin
  | iothread
  | response
  deriving DecidableEq

/-! ## The task -/

inductive SysobjectType where
  | connection
  | listener
  deriving DecidableEq

structure Sysobject where
  type : SysobjectType
  sockid : Nat := 0
  connected : Bool := false
  closed : Bool := false
  retry : Nat := 0
  error : Bool := false
  errn : Nat := 0
  errmsg : String := ""
  buf : List UInt8 := []
  listenerso : Option Nat := none
  newso : Option Nat := none
  frameids : Frameaddr → Nat := fun _ => 0
  doneConnect : Bool := false
  doneReading : Bool := false
  doneWriting : Bool := false

namespace Sysobject

def setFrameid (so : Sysobject) (op : Frameaddr) (ioid : Nat) : Sysobject :=
  { so with frameids := Function.update so.frameids op ioid }

end Sysobject

/-- The instruction of a builtin, with the sysobject among its arguments. The first argument of
opencon and startlisten is a host name or a port (`none`) until they have made their sysobject. -/
inductive Bif where
  | opencon (so : Option Nat)
  | startlisten (so : Option Nat)
  | accept (so : Nat)
  | readcon (so : Nat)
  | print (so : Nat) (c : UInt8)
  | printarray (so : Nat) (data : List UInt8)
  | printend (so : Nat)
  deriving DecidableEq

namespace Bif

/-- The pointer at the top of the stack, if it is to a sysobject. -/
def top : Bif → Option Nat
  | opencon so | startlisten so => so
  | accept so | readcon so | print so _ | printarray so _ | printend so => some so

def op : Bif → Frameaddr
  | opencon _ => .connect
  | startlisten _ => .listen
  | accept _ => .accept
  | readcon _ => .read
  | print _ _ | printarray _ _ | printend _ => .write

end Bif

/-- A frame is blocked in a slot, or it has been unblocked and has the instruction `instr` to
execute again, or it runs on its own (`instr` is none). -/
structure Frame where
  resume : Bool := false
  instr : Option Bif := none
  blocked : Bool := false

structure Ioframe where
  f : Option Nat := none
  freelnk : Nat := 0

/-- By what a frame was taken out of its slot. -/
inductive Cause where
  | response (op : Frameaddr) (t : Ticket)
  | connectionClosed (sid : Nat)
  | collected (t : Ticket)
  deriving DecidableEq

/-- The history of the slots. -/
inductive Event where
  | suspended (ioid : Nat) (t : Ticket)
  | retrieved (ioid : Nat) (cause : Cause)
  deriving DecidableEq

/-- `task`. The sysobjects are numbered in the order of their creation, which is the order of the
list. `known` are those that a builtin has returned to the program. `sent` are the requests that the
I/O thread has not handled yet. `tickets`, `owner` (the name of the suspension in a slot) and `log`
(the last event first) are only for the record. -/
structure Task where
  ioframes : Nat → Ioframe := fun _ => {}
  iocount : Nat := 1
  iofree : Nat := 0
  frames : Nat → Frame := fun _ => {}
  sysobjects : Nat → Option Sysobject := fun _ => none
  nsysobjects : Nat := 0
  known : Nat → Bool := fun _ => false
  wakeupAfterCollect : List (Nat × Ticket) := []
  sent : List Request := []
  tickets : Nat := 0
  owner : Nat → Ticket := fun _ => ⟨0, none, 0⟩
  log : List Event := []

namespace Task

def setSo (tsk : Task) (i : Nat) (so : Sysobject) : Task :=
  { tsk with sysobjects := Function.update tsk.sysobjects i (some so) }

def send (tsk : Task) (r : Request) : Task := { tsk with sent := tsk.sent ++ [r] }

/-- The builtin returns and the frame runs on. -/
def finish (tsk : Task) (f : Nat) (resume : Bool) : Task :=
  { tsk with frames := Function.update tsk.frames f { resume := resume } }

def know (tsk : Task) (i : Nat) : Task := { tsk with known := Function.update tsk.known i true }

/-- `new_sysobject` -/
def newSysobject (tsk : Task) (so : Sysobject) : Task :=
  { tsk with
    sysobjects := Function.update tsk.sysobjects tsk.nsysobjects (some so),
    nsysobjects := tsk.nsysobjects + 1 }

/-- `find_sysobject` -/
def findSysobject (tsk : Task) (sid : Nat) : Option Nat :=
  (List.range tsk.nsysobjects).find? fun i =>
    match tsk.sysobjects i with
    | some so => so.sockid == sid
    | none => false

/-- The name of the next suspension. -/
def ticket (tsk : Task) (op : Option Frameaddr) (sid : Nat) : Ticket := ⟨tsk.tickets, op, sid⟩

/-- Puts the frame `f`, stopped at `instr`, in the slot `ioid`. -/
def block (tsk : Task) (ioid f : Nat) (instr : Bif) (resume : Bool) (t : Ticket) : Task :=
  { tsk with
    ioframes := Function.update tsk.ioframes ioid { f := some f },
    frames := Function.update tsk.frames f
      { resume := resume, instr := some instr, blocked := true },
    tickets := tsk.tickets + 1,
    owner := Function.update tsk.owner ioid t,
    log := .suspended ioid t :: tsk.log }

/-- `suspend_current_frame`. The frame will execute `instr` again. -/
def suspendCurrentFrame (tsk : Task) (f : Nat) (instr : Bif) (resume : Bool) (t : Ticket) :
    Except Halt (Task × Nat) :=
  if tsk.iofree = 0 then
    .ok (({ tsk with iocount := tsk.iocount + 1 } : Task).block tsk.iocount f instr resume t,
      tsk.iocount)
  else if tsk.iofree < tsk.iocount && (tsk.ioframes tsk.iofree).f.isNone then
    .ok (({ tsk with iofree := (tsk.ioframes tsk.iofree).freelnk } : Task).block
      tsk.iofree f instr resume t, tsk.iofree)
  else .error .builtin

/-- Takes the frame `f` out of the slot `ioid`. -/
def unblock (tsk : Task) (ioid f : Nat) (cause : Cause) : Task :=
  { tsk with
    ioframes := Function.update tsk.ioframes ioid { freelnk := tsk.iofree },
    iofree := ioid,
    frames := Function.update tsk.frames f { tsk.frames f with blocked := false },
    log := .retrieved ioid cause :: tsk.log }

/-- `retrieve_blocked_frame` -/
def retrieveBlockedFrame (tsk : Task) (ioid : Nat) (cause : Cause) : Except Halt (Task × Nat) :=
  if 0 < ioid && ioid < tsk.iocount then
    match (tsk.ioframes ioid).f with
    | some f => .ok (tsk.unblock ioid f cause, f)
    | none => .error .response
  else .error .response

/-- `get_frame_sysobject`, and the builtin that the frame is at -/
def getFrameSysobject (tsk : Task) (f : Nat) : Except Halt (Bif × Nat × Sysobject) :=
  match (tsk.frames f).instr with
  | none => .error .response
  | some instr =>
    match instr.top with
    | none => .error .response
    | some i =>
      match tsk.sysobjects i with
      | none => .error .response
      | some so => .ok (instr, i, so)

/-- The beginning of every handler of a response: takes the frame out of its slot, and forgets the
ioid of the sysobject that it waits for. -/
def answer (tsk : Task) (ioid : Nat) (op : Frameaddr) (type : SysobjectType) (t : Ticket) :
    Except Halt (Task × Nat × Sysobject) := do
  let (tsk, f) ← tsk.retrieveBlockedFrame ioid (.response op t)
  let (instr, i, so) ← tsk.getFrameSysobject f
  if instr.op = op && so.type = type && ioid = so.frameids op then
    .ok (tsk.setSo i (so.setFrameid op 0), i, so.setFrameid op 0)
  else .error .response

/-- `interpreter_listen_response` -/
def listenResponse (tsk : Task) (ioid : Nat) (error : Bool) (sid : Nat) (errmsg : String)
    (t : Ticket) : Except Halt Task := do
  let (tsk, i, so) ← tsk.answer ioid .listen .listener t
  let so := if error then { so with error := true, errmsg := errmsg } else so
  .ok (tsk.setSo i { so with sockid := sid })

/-- `interpreter_accept_response` -/
def acceptResponse (tsk : Task) (ioid sid : Nat) (t : Ticket) : Except Halt Task := do
  let (tsk, i, so) ← tsk.answer ioid .accept .listener t
  let connso : Sysobject :=
    { type := .connection, connected := true, listenerso := some i, sockid := sid }
  if so.newso.isNone then
    .ok ((tsk.setSo i { so with newso := some tsk.nsysobjects }).newSysobject connso)
  else .error .response

/-- `interpreter_connect_response` -/
def connectResponse (tsk : Task) (ioid : Nat) (error : Bool) (errn sid : Nat) (errmsg : String)
    (t : Ticket) : Except Halt Task := do
  let (tsk, i, so) ← tsk.answer ioid .connect .connection t
  if so.sockid = 0 && (sid ≠ 0 || error) then
    let so :=
      if error then { so with error := true, errn := errn, errmsg := errmsg }
      else { so with connected := true }
    .ok (tsk.setSo i { so with sockid := sid })
  else .error .response

/-- `interpreter_read_response` -/
def readResponse (tsk : Task) (ioid : Nat) (data : List UInt8) (t : Ticket) :
    Except Halt Task := do
  let (tsk, i, so) ← tsk.answer ioid .read .connection t
  if so.buf.length = 0 then .ok (tsk.setSo i { so with buf := data }) else .error .response

/-- `interpreter_write_response` -/
def writeResponse (tsk : Task) (ioid : Nat) (t : Ticket) : Except Halt Task := do
  let (tsk, _, _) ← tsk.answer ioid .write .connection t
  .ok tsk

/-- A step of `interpreter_connection_closed`: wakes the frame that reads, or writes. -/
def wake (tsk : Task) (i : Nat) (so : Sysobject) (op : Frameaddr) :
    Except Halt (Task × Sysobject) :=
  if so.frameids op ≠ 0 then do
    let (tsk, _) ← tsk.retrieveBlockedFrame (so.frameids op) (.connectionClosed so.sockid)
    .ok (tsk.setSo i (so.setFrameid op 0), so.setFrameid op 0)
  else .ok (tsk, so)

/-- `interpreter_connection_closed` -/
def connectionClosed (tsk : Task) (sid : Nat) (error : Bool) (errmsg : String) :
    Except Halt Task :=
  match tsk.findSysobject sid with
  | none => .ok tsk
  | some i =>
    match tsk.sysobjects i with
    | none => .ok tsk
    | some so =>
      if so.doneConnect && so.frameids .connect = 0 then do
        let so := { so with error := error, errmsg := errmsg }
        let (tsk, so) ← tsk.wake i so .read
        let (tsk, so) ← tsk.wake i so .write
        .ok (tsk.setSo i { so with closed := true })
      else .error .response

/-- `handle_message`, for the messages of the I/O thread -/
def handleMessage (tsk : Task) : Response → Except Halt Task
  | .connect ioid error errn sid errmsg t => tsk.connectResponse ioid error errn sid errmsg t
  | .listen ioid error sid errmsg t => tsk.listenResponse ioid error sid errmsg t
  | .accept ioid sid t => tsk.acceptResponse ioid sid t
  | .read ioid _ data t => tsk.readResponse ioid data t
  | .write ioid t => tsk.writeResponse ioid t
  | .connectionClosed sid error errmsg => tsk.connectionClosed sid error errmsg

/-! ### The builtins -/

/-- `free_sysobject` -/
def freeSysobject (tsk : Task) (i : Nat) (so : Sysobject) : Except Halt Task :=
  let tsk := { tsk with sysobjects := Function.update tsk.sysobjects i none }
  match so.type with
  | .connection =>
    let tsk := if so.sockid = 0 then tsk else tsk.send (.deleteConnection so.sockid)
    if so.frameids .connect = 0 && so.frameids .read = 0 && so.frameids .write = 0 &&
        so.frameids .listen = 0 && so.frameids .accept = 0 then
      .ok tsk
    else .error .builtin
  | .listener => .ok (if so.sockid = 0 then tsk else tsk.send (.deleteListener so.sockid))

/-- `sysobject_delete_if_finished`, with `so` as the new contents -/
def deleteIfFinished (tsk : Task) (i : Nat) (so : Sysobject) : Except Halt Task :=
  if so.doneConnect && so.doneReading && so.doneWriting then tsk.freeSysobject i so
  else .ok (tsk.setSo i so)

/-- A request for the sysobject `i`, from the frame `f` that is suspended at `instr`. -/
def request (tsk : Task) (f i : Nat) (so : Sysobject) (instr : Bif) (op : Frameaddr)
    (r : Nat → Ticket → Request) : Except Halt Task := do
  let t := tsk.ticket (some op) so.sockid
  let (tsk, ioid) ← tsk.suspendCurrentFrame f instr true t
  if so.frameids op = 0 then .ok ((tsk.send (r ioid t)).setSo i (so.setFrameid op ioid))
  else .error .builtin

def eisconn : Nat := 106
def emfile : Nat := 24
def enfile : Nat := 23

/-- `b_connect`. The second part of it is for a frame that has been suspended. -/
def bConnect (tsk : Task) (f : Nat) (arg : Option Nat) : Except Halt Task :=
  if (tsk.frames f).resume = false then
    match arg with
    | some _ => .ok (tsk.finish f false)
    | none =>
      let so : Sysobject := { type := .connection }
      (tsk.newSysobject so).request f tsk.nsysobjects so (.opencon (some tsk.nsysobjects)) .connect
        .connect
  else
    match arg.bind fun i => (tsk.sysobjects i).map fun so => (i, so) with
    | none => .error .builtin
    | some (i, so) =>
      if so.type = .connection then
        if so.connected = false then
          if (so.errn = eisconn || so.errn = emfile || so.errn = enfile) && so.retry = 0 then do
            -- out of sockets: waits for a collection, and starts again
            let tsk := tsk.setSo i { so with retry := so.retry + 1 }
            let t := tsk.ticket none 0
            let (tsk, ioid) ← tsk.suspendCurrentFrame f (.opencon none) false t
            .ok { tsk with wakeupAfterCollect := (ioid, t) :: tsk.wakeupAfterCollect }
          else
            (tsk.finish f false).deleteIfFinished i
              { so with doneConnect := true, doneReading := true, doneWriting := true }
        else .ok (((tsk.setSo i { so with doneConnect := true }).know i).finish f false)
      else .error .builtin

/-- `b_listen` -/
def bListen (tsk : Task) (f : Nat) (arg : Option Nat) : Except Halt Task :=
  if (tsk.frames f).resume = false then
    match arg with
    | some _ => .ok (tsk.finish f false)
    | none =>
      let so : Sysobject := { type := .listener }
      (tsk.newSysobject so).request f tsk.nsysobjects so (.startlisten (some tsk.nsysobjects))
        .listen .listen
  else
    match arg.bind fun i => (tsk.sysobjects i).map fun so => (i, so) with
    | none => .ok (tsk.finish f true)
    | some (i, so) =>
      if so.type = .listener then
        .ok (if so.error then tsk.finish f false else (tsk.know i).finish f false)
      else .ok (tsk.finish f true)

/-- `b_accept`. An argument that has been freed is nil, which is an error, as is one of the wrong
type. -/
def bAccept (tsk : Task) (f i : Nat) : Except Halt Task :=
  match tsk.sysobjects i with
  | none => .ok (tsk.finish f (tsk.frames f).resume)
  | some so =>
    if so.type = .listener then
      if (tsk.frames f).resume = false then
        tsk.request f i so (.accept i) .accept (.accept so.sockid)
      else
        match so.newso with
        | none => .error .builtin
        | some newso => .ok (((tsk.setSo i { so with newso := none }).know newso).finish f false)
    else .ok (tsk.finish f (tsk.frames f).resume)

/-- `b_readcon` -/
def bReadcon (tsk : Task) (f i : Nat) : Except Halt Task :=
  match tsk.sysobjects i with
  | none => .ok (tsk.finish f (tsk.frames f).resume)
  | some so =>
    if so.type = .connection then
      if so.connected = false then .error .builtin
      else if so.closed then (tsk.finish f false).deleteIfFinished i { so with doneReading := true }
      else if (tsk.frames f).resume = false then
        tsk.request f i so (.readcon i) .read (.read so.sockid)
      else if so.buf.length = 0 then
        (tsk.finish f false).deleteIfFinished i { so with doneReading := true }
      else .ok ((tsk.setSo i { so with buf := [] }).finish f false)
    else .ok (tsk.finish f (tsk.frames f).resume)

/-- `write_data` -/
def writeData (tsk : Task) (f i : Nat) (so : Sysobject) (instr : Bif) (data : List UInt8) :
    Except Halt Task :=
  if so.connected = false then .error .builtin
  else if so.closed then (tsk.finish f false).deleteIfFinished i { so with doneWriting := true }
  else if (tsk.frames f).resume then
    if data.length = 0 then
      (tsk.finish f false).deleteIfFinished i { so with doneWriting := true }
    else .ok (tsk.finish f false)
  else tsk.request f i so instr .write fun ioid t => .write so.sockid ioid data t

/-- `CHECK_SYSOBJECT_ARG`, then `write_data` -/
def bWrite (tsk : Task) (f i : Nat) (instr : Bif) (data : List UInt8) : Except Halt Task :=
  match tsk.sysobjects i with
  | none => .ok (tsk.finish f (tsk.frames f).resume)
  | some so =>
    if so.type = .connection then tsk.writeData f i so instr data
    else .ok (tsk.finish f (tsk.frames f).resume)

/-- `b_print` -/
def bPrint (tsk : Task) (f i : Nat) (c : UInt8) : Except Halt Task :=
  tsk.bWrite f i (.print i c) [c]

/-- `b_printarray` -/
def bPrintarray (tsk : Task) (f i : Nat) (data : List UInt8) : Except Halt Task :=
  if 1 ≤ data.length then tsk.bWrite f i (.printarray i data) data else .error .builtin

/-- `b_printend`. It returns nil for a nil, and so for a sysobject that has been freed. -/
def bPrintend (tsk : Task) (f i : Nat) : Except Halt Task := tsk.bWrite f i (.printend i) []

def execute (tsk : Task) (f : Nat) : Bif → Except Halt Task
  | .opencon arg => tsk.bConnect f arg
  | .startlisten arg => tsk.bListen f arg
  | .accept i => tsk.bAccept f i
  | .readcon i => tsk.bReadcon f i
  | .print i c => tsk.bPrint f i c
  | .printarray i data => tsk.bPrintarray f i data
  | .printend i => tsk.bPrintend f i

/-- `sweep_sysobjects`, of the sysobjects `dead` -/
def sweepSysobjects (dead : List Nat) : List Nat → Task → Except Halt Task
  | [], tsk => .ok tsk
  | i :: rest, tsk =>
    match tsk.sysobjects i with
    | none => sweepSysobjects dead rest tsk
    | some so =>
      if i ∈ dead then do
        let tsk ← tsk.freeSysobject i so
        sweepSysobjects dead rest tsk
      else sweepSysobjects dead rest tsk

/-- The frames that waited for a collection are woken. -/
def wakeup : List (Nat × Ticket) → Task → Except Halt Task
  | [], tsk => .ok { tsk with wakeupAfterCollect := [] }
  | (ioid, t) :: rest, tsk => do
    let (tsk, _) ← tsk.retrieveBlockedFrame ioid (.collected t)
    wakeup rest tsk

/-- A collection, in `handle_interrupt` -/
def collect (tsk : Task) (dead : List Nat) : Except Halt Task := do
  let tsk ← tsk.sweepSysobjects dead (List.range tsk.nsysobjects)
  tsk.wakeup tsk.wakeupAfterCollect

/-- What the collector may take for garbage: nothing that a suspended frame or another sysobject
refers to. The program makes no use of it afterwards. -/
structure Garbage (tsk : Task) (dead : List Nat) : Prop where
  frame : ∀ f instr i, (tsk.frames f).instr = some instr → instr.top = some i → i ∉ dead
  newso : ∀ i so j, tsk.sysobjects i = some so → i ∉ dead → so.newso = some j → j ∉ dead
  listenerso : ∀ i so j, tsk.sysobjects i = some so → i ∉ dead → so.listenerso = some j → j ∉ dead

end Task

/-! ## The I/O thread -/

/-- `CS_START`, .., `CS_END` -/
inductive CS where
  | start
  | waiting
  | ready
  | failed
  | connecting
  | connected
  | connectedDoneWriting
  | accepted
  | acceptedDoneWriting
  | acceptedDoneReading
  | finished
  | ended
  deriving DecidableEq

/-- The events of a connection, less `CE_AUTO`. -/
inductive CE where
  | requested
  | slotAvailable
  | attemptFailed
  | asyncStarted
  | asyncFailed
  | asyncOk
  | finwrite
  | finread
  | error
  | delete
  | read
  | clientConnected
  deriving DecidableEq

namespace CS

/-- The state that `connection_fsm` goes to. It meets `fatal` if there is none. -/
def next : CS → CE → Option CS
  | start, .requested => some waiting
  | start, .delete => some ended
  | start, .clientConnected => some connected
  | waiting, .slotAvailable => some ready
  | waiting, .delete => some ended
  | ready, .asyncStarted => some connecting
  | ready, .attemptFailed => some failed
  | ready, .delete => some ended
  | connecting, .asyncOk => some connected
  | connecting, .asyncFailed => some failed
  | connecting, .delete => some ended
  | connected, .error => some finished
  | connected, .delete => some finished
  | connected, .read => some accepted
  | connected, .finread => some acceptedDoneReading
  | connected, .finwrite => some connectedDoneWriting
  | connectedDoneWriting, .error => some finished
  | connectedDoneWriting, .delete => some finished
  | connectedDoneWriting, .finread => some finished
  | connectedDoneWriting, .finwrite => some connectedDoneWriting
  | connectedDoneWriting, .read => some acceptedDoneWriting
  | accepted, .error => some finished
  | accepted, .delete => some finished
  | accepted, .read => some accepted
  | accepted, .finread => some acceptedDoneReading
  | accepted, .finwrite => some acceptedDoneWriting
  | acceptedDoneWriting, .error => some finished
  | acceptedDoneWriting, .delete => some finished
  | acceptedDoneWriting, .finwrite => some acceptedDoneWriting
  | acceptedDoneWriting, .read => some acceptedDoneWriting
  | acceptedDoneWriting, .finread => some finished
  | acceptedDoneReading, .error => some finished
  | acceptedDoneReading, .delete => some finished
  | acceptedDoneReading, .finread => some acceptedDoneReading
  | acceptedDoneReading, .finwrite => some finished
  | _, _ => none

/-- `CANREAD` -/
def canread : CS → Bool
  | connected | connectedDoneWriting | accepted | acceptedDoneWriting => true
  | _ => false

/-- `CANWRITE` -/
def canwrite : CS → Bool
  | connected | accepted | acceptedDoneReading => true
  | _ => false

/-- The connection has not been made yet, and has no buffers. -/
def opening : CS → Bool
  | start | waiting | ready | connecting => true
  | _ => false

end CS

/-- `connection`. `tickets` are the names of the suspensions whose ioids are in `frameids`. -/
structure Connection where
  state : CS := .start
  l : Option Nat := none
  frameids : Frameaddr → Nat := fun _ => 0
  tickets : Frameaddr → Ticket := fun _ => ⟨0, none, 0⟩
  dontread : Bool := false
  finwrite : Bool := false
  collected : Bool := false
  haderror : Bool := false
  errn : Nat := 0
  errmsg : String := ""
  recvbuf : List UInt8 := []
  sendbuf : List UInt8 := []

namespace Connection

def setFrameid (conn : Connection) (op : Frameaddr) (ioid : Nat) (t : Ticket) : Connection :=
  { conn with
    frameids := Function.update conn.frameids op ioid,
    tickets := Function.update conn.tickets op t }

def clearFrameid (conn : Connection) (op : Frameaddr) : Connection :=
  { conn with frameids := Function.update conn.frameids op 0 }

end Connection

/-- `listener` -/
structure Listener where
  acceptFrameid : Nat := 0
  ticket : Ticket := ⟨0, none, 0⟩
  dontaccept : Bool := true

/-- `node_private`, with the responses that the task has not handled yet. -/
structure Io where
  connections : Nat → Option Connection := fun _ => none
  listeners : Nat → Option Listener := fun _ => none
  nextsid : Nat := 2
  sent : List Response := []

/-- `DEFAULT_IOSIZE` -/
def iosize : Nat := 65536

namespace Io

def setConn (io : Io) (sid : Nat) (conn : Connection) : Io :=
  { io with connections := Function.update io.connections sid (some conn) }

/-- `remove_connection` -/
def removeConnection (io : Io) (sid : Nat) : Io :=
  { io with connections := Function.update io.connections sid none }

def setListener (io : Io) (sid : Nat) (l : Listener) : Io :=
  { io with listeners := Function.update io.listeners sid (some l) }

/-- `endpoint_send_locked`, to the task -/
def send (io : Io) (r : Response) : Io := { io with sent := io.sent ++ [r] }

/-- `notify_connect`. The socket of a connection that failed is null. -/
def notifyConnect (io : Io) (sid : Nat) (conn : Connection) (error : Bool) : Io :=
  if 0 < conn.frameids .connect then
    (io.setConn sid (conn.clearFrameid .connect)).send
      (.connect (conn.frameids .connect) error conn.errn (if error then 0 else sid) conn.errmsg
        (conn.tickets .connect))
  else io.setConn sid conn

/-- `notify_read` -/
def notifyRead (io : Io) (sid : Nat) (conn : Connection) : Io × Connection :=
  if 0 < conn.frameids .read then
    (io.send (.read (conn.frameids .read) sid conn.recvbuf (conn.tickets .read)),
      { conn.clearFrameid .read with recvbuf := [], dontread := true })
  else (io, conn)

/-- `notify_write` -/
def notifyWrite (io : Io) (conn : Connection) : Io × Connection :=
  if 0 < conn.frameids .write && conn.sendbuf.length < iosize then
    (io.send (.write (conn.frameids .write) (conn.tickets .write)), conn.clearFrameid .write)
  else (io, conn)

/-- `connection_fsm`, with `conn` as the contents of the connection `sid`. What `CE_AUTO` does in
the states that are left at once is done here: FAILED and FINISHED tell the task, and END removes
the connection. -/
def connectionFsm (io : Io) (sid : Nat) (conn : Connection) (event : CE) : Except Halt Io :=
  match conn.state.next event with
  | none => .error .iothread
  | some .finished =>
    .ok ((io.removeConnection sid).send
      (.connectionClosed sid (conn.haderror || event = .error) conn.errmsg))
  | some .failed => .ok ((io.notifyConnect sid conn true).removeConnection sid)
  | some .ended => .ok (io.removeConnection sid)
  | some state =>
    if event = .asyncOk then .ok (io.notifyConnect sid { conn with state := state } false)
    else .ok (io.setConn sid { conn with state := state })

/-- `iothread_listen`. `error` is the error of `node_listen_locked`. -/
def iothreadListen (io : Io) (ioid : Nat) (error : Option String) (t : Ticket) : Io :=
  match error with
  | none =>
    (({ io with nextsid := io.nextsid + 1 } : Io).setListener io.nextsid {}).send
      (.listen ioid false io.nextsid "" t)
  | some errmsg => io.send (.listen ioid true 0 errmsg t)

/-- `iothread_accept` -/
def iothreadAccept (io : Io) (sid ioid : Nat) (t : Ticket) : Except Halt Io :=
  match io.listeners sid with
  | none => .error .iothread
  | some l =>
    if l.acceptFrameid = 0 && l.dontaccept then
      .ok (io.setListener sid { acceptFrameid := ioid, ticket := t, dontaccept := false })
    else .error .iothread

/-- `iothread_connect` -/
def iothreadConnect (io : Io) (ioid : Nat) (t : Ticket) : Except Halt Io :=
  let conn : Connection := { dontread := true }
  ({ io with nextsid := io.nextsid + 1 } : Io).connectionFsm io.nextsid
    (conn.setFrameid .connect ioid t) .requested

/-- `iothread_read` -/
def iothreadRead (io : Io) (sid ioid : Nat) (t : Ticket) : Except Halt Io :=
  match io.connections sid with
  | none => .ok io
  | some conn =>
    if conn.state = .acceptedDoneReading || conn.collected || !conn.dontread ||
        conn.frameids .read ≠ 0 then
      .error .iothread
    else .ok (io.setConn sid { conn.setFrameid .read ioid t with dontread := false })

/-- `iothread_write` -/
def iothreadWrite (io : Io) (sid ioid : Nat) (data : List UInt8) (t : Ticket) : Except Halt Io :=
  match io.connections sid with
  | none => .ok (if data.length = 0 then io.send (.write ioid t) else io)
  | some conn =>
    if conn.collected || conn.state.opening || conn.frameids .write ≠ 0 then .error .iothread
    else
      let conn :=
        if 0 < data.length then { conn with sendbuf := conn.sendbuf ++ data }
        else { conn with finwrite := true }
      let spaceleft := conn.sendbuf.length < iosize
      let io := io.setConn sid (if spaceleft then conn else conn.setFrameid .write ioid t)
      .ok (if spaceleft || data.length = 0 then io.send (.write ioid t) else io)

/-- `iothread_delete_connection` -/
def iothreadDeleteConnection (io : Io) (sid : Nat) : Except Halt Io :=
  match io.connections sid with
  | none => .ok io
  | some conn => io.connectionFsm sid { conn with collected := true, finwrite := true } .finread

/-- The loop of `node_remove_listener`, over the connections `sids` -/
def deleteConns (lsid : Nat) : List Nat → Io → Except Halt Io
  | [], io => .ok io
  | sid :: rest, io =>
    match io.connections sid with
    | none => deleteConns lsid rest io
    | some conn =>
      if conn.l = some lsid then do
        let io ← io.connectionFsm sid conn .delete
        deleteConns lsid rest io
      else deleteConns lsid rest io

/-- `iothread_delete_listener` -/
def iothreadDeleteListener (io : Io) (sid : Nat) : Except Halt Io :=
  match io.listeners sid with
  | none => .ok io
  | some _ => do
    let io ← io.deleteConns sid (List.range io.nextsid)
    .ok { io with listeners := Function.update io.listeners sid none }

/-- `iothread_handle_message` -/
def handleMessage (io : Io) (error : Option String) : Request → Except Halt Io
  | .connect ioid t => io.iothreadConnect ioid t
  | .listen ioid t => .ok (io.iothreadListen ioid error t)
  | .accept sid ioid t => io.iothreadAccept sid ioid t
  | .read sid ioid t => io.iothreadRead sid ioid t
  | .write sid ioid data t => io.iothreadWrite sid ioid data t
  | .deleteConnection sid => io.iothreadDeleteConnection sid
  | .deleteListener sid => io.iothreadDeleteListener sid

/-- A connection that waits for a slot is started (`connect_pending`, `initiate_connection`). -/
def connectPending (io : Io) (sid : Nat) (error : Option (Nat × String)) : Except Halt Io :=
  match io.connections sid with
  | none => .error .idle
  | some conn =>
    if conn.state = .waiting then
      match error with
      | none => io.connectionFsm sid { conn with state := .ready } .asyncStarted
      | some (errn, errmsg) =>
        io.connectionFsm sid { conn with state := .ready, errn := errn, errmsg := errmsg }
          .attemptFailed
    else .error .idle

/-- `handle_connected`. `error` is that of the connect, or of one of the calls after it. -/
def handleConnected (io : Io) (sid : Nat) (error : Option (Nat × String)) : Except Halt Io :=
  match io.connections sid with
  | none => .error .idle
  | some conn =>
    if conn.state = .connecting then
      match error with
      | none => io.connectionFsm sid conn .asyncOk
      | some (errn, errmsg) =>
        io.connectionFsm sid { conn with errn := errn, errmsg := errmsg } .asyncFailed
    else .error .idle

/-- `handle_write`, in which the kernel takes `n` bytes in all, or which fails -/
def handleWrite (io : Io) (sid n : Nat) (error : Option (Nat × String)) : Except Halt Io :=
  match io.connections sid with
  | none => .error .idle
  | some conn =>
    if conn.state.canwrite && (0 < conn.sendbuf.length || conn.finwrite) then
      match error with
      | some (errn, errmsg) =>
        if conn.sendbuf.length = 0 then .error .idle
        else io.connectionFsm sid { conn with errn := errn, errmsg := errmsg } .error
      | none =>
        let (io, conn) := io.notifyWrite { conn with sendbuf := conn.sendbuf.drop n }
        if conn.sendbuf.length = 0 && conn.finwrite then io.connectionFsm sid conn .finwrite
        else .ok (io.setConn sid conn)
    else .error .idle

/-- What a `read` returns. -/
inductive Input where
  | data (bytes : List UInt8)
  | eof
  | failed (errn : Nat) (errmsg : String)

/-- `handle_read`, with `process_received` -/
def handleRead (io : Io) (sid : Nat) (input : Input) : Except Halt Io :=
  match io.connections sid with
  | none => .error .idle
  | some conn =>
    if conn.state.canread && !conn.dontread then
      match input with
      | .failed errn errmsg =>
        io.connectionFsm sid { conn with errn := errn, errmsg := errmsg } .error
      | .eof =>
        let (io, conn) := io.notifyRead sid conn
        io.connectionFsm sid conn .finread
      | .data bytes =>
        if bytes.length = 0 || iosize < bytes.length then .error .idle
        else
          let (io, conn) := io.notifyRead sid { conn with recvbuf := conn.recvbuf ++ bytes }
          io.connectionFsm sid conn .read
    else .error .idle

/-- `handle_new_connection`, with `notify_accept` -/
def handleNewConnection (io : Io) (lsid : Nat) : Except Halt Io :=
  match io.listeners lsid with
  | none => .error .idle
  | some l =>
    if l.dontaccept then .error .idle
    else if l.acceptFrameid = 0 then .error .iothread
    else
      let conn : Connection := { state := .connected, l := some lsid, dontread := true }
      .ok ((((({ io with nextsid := io.nextsid + 1 } : Io).setConn io.nextsid conn).setListener lsid
        { l with acceptFrameid := 0, dontaccept := true })).send
          (.accept l.acceptFrameid io.nextsid l.ticket))

end Io

/-! ## The system -/

structure State where
  tsk : Task := {}
  io : Io := {}

inductive Action where
  | call (f : Nat) (instr : Bif)
  | resume (f : Nat)
  | collect (dead : List Nat)
  | receive
  | handle (error : Option String)
  | connectPending (sid : Nat) (error : Option (Nat × String))
  | connected (sid : Nat) (error : Option (Nat × String))
  | write (sid n : Nat) (error : Option (Nat × String))
  | read (sid : Nat) (input : Io.Input)
  | accept (lsid : Nat)

namespace State

/-- The frame `f` runs on its own, and the program has the sysobject that it calls `instr` with. -/
def canCall (s : State) (f : Nat) (instr : Bif) : Bool :=
  (s.tsk.frames f).instr.isNone &&
    match instr.top with
    | some i => s.tsk.known i
    | none => true

def step (s : State) : Action → Except Halt State
  | .call f instr =>
    if s.canCall f instr then (s.tsk.execute f instr).map ({ s with tsk := · }) else .error .idle
  | .resume f =>
    match (s.tsk.frames f).instr with
    | none => .error .idle
    | some instr =>
      if (s.tsk.frames f).blocked then .error .idle
      else (s.tsk.execute f instr).map ({ s with tsk := · })
  | .collect dead => (s.tsk.collect dead).map ({ s with tsk := · })
  | .receive =>
    match s.io.sent with
    | [] => .error .idle
    | r :: rest =>
      (s.tsk.handleMessage r).map fun tsk => { tsk := tsk, io := { s.io with sent := rest } }
  | .handle error =>
    match s.tsk.sent with
    | [] => .error .idle
    | r :: rest =>
      (s.io.handleMessage error r).map fun io => { tsk := { s.tsk with sent := rest }, io := io }
  | .connectPending sid error => (s.io.connectPending sid error).map ({ s with io := · })
  | .connected sid error => (s.io.handleConnected sid error).map ({ s with io := · })
  | .write sid n error => (s.io.handleWrite sid n error).map ({ s with io := · })
  | .read sid input => (s.io.handleRead sid input).map ({ s with io := · })
  | .accept lsid => (s.io.handleNewConnection lsid).map ({ s with io := · })

/-- The collector takes nothing that is still in use. -/
def Enabled (s : State) : Action → Prop
  | .collect dead => s.tsk.Garbage dead
  | _ => True

end State

end Suspend
end Runtime
end NReduce
