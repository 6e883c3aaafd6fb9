import NReduce.Logic.Codec
import Mathlib.Data.List.Infix

/-!
# NReduce.Network.Framing

The byte stream of a connection between two nodes (`node.c`, `iothread.c`): a welcome text, the port
where the connecting side listens, and then messages, each a header and its data. `process_received`
is called whenever some bytes have been added to the receive buffer.

* `processReceived`: the three phases of the source, with the calls of `got_message` that it makes.
* `receiveAll_stream`: the messages come out as they were sent, however the stream is cut.
-/

namespace NReduce
namespace Network

open Logic

/-- `WELCOME_MESSAGE` -/
def welcomeMessage : List UInt8 :=
  "Welcome to the nreduce 0.1 debug console. Enter commands below:\n\n> ".toList.map
    (fun c => UInt8.ofNat c.toNat)

structure Endpointid where
  ip : UInt32
  port : UInt16
  localid : UInt32
  deriving DecidableEq

structure Msgheader where
  sourcelocalid : UInt32
  destlocalid : UInt32
  size1 : UInt32
  tag1 : UInt32
  timestamp : UInt32
  deriving DecidableEq

/-- `MSG_HEADER_SIZE` -/
def msgHeaderSize : Nat := 20

namespace Msgheader

/-- The fields in memory, without gaps. -/
def bytes (h : Msgheader) : List UInt8 :=
  toBytes 4 h.sourcelocalid.toNat ++ toBytes 4 h.destlocalid.toNat ++ toBytes 4 h.size1.toNat ++
    toBytes 4 h.tag1.toNat ++ toBytes 4 h.timestamp.toNat

def field (buf : List UInt8) (k : Nat) : UInt32 := UInt32.ofNat (ofBytes ((buf.drop k).take 4))

/-- The header at the start of a buffer. -/
def read (buf : List UInt8) : Msgheader :=
  ⟨field buf 0, field buf 4, field buf 8, field buf 12, field buf 16⟩

end Msgheader

/-- The fields of a `connection` that `process_received` uses. -/
structure Connection where
  ip : UInt32
  /-- negative until the peer has said where it listens -/
  port : Int
  recvbuf : List UInt8
  donewelcome : Bool
  donehandshake : Bool
  isreg : Bool
  /-- `frameids[READ_FRAMEADDR]` -/
  readFrame : Nat
  dontread : Bool
  deriving DecidableEq

inductive Action where
  | gotMessage (hdr : Msgheader) (source : Endpointid) (tag size : UInt32) (data : List UInt8)
  | startConsole
  | readResponse (ioid : Nat) (data : List UInt8)
  deriving DecidableEq

def notifyRead (conn : Connection) : Connection × List Action :=
  if conn.isreg ∧ 0 < conn.readFrame then
    ({ conn with readFrame := 0, recvbuf := [], dontread := true },
      [.readResponse conn.readFrame conn.recvbuf])
  else (conn, [])

def startConsole (conn : Connection) : Connection × List Action :=
  ({ conn with isreg := true, readFrame := 1 }, [.startConsole])

/-- The loop of `process_received`. Every turn takes a header from the buffer, so its length bounds
the number of turns. The sum of the sizes is a 32 bit number. -/
def takeMessages (conn : Connection) : Nat → List UInt8 → List Action × List UInt8
  | 0, buf => ([], buf)
  | k + 1, buf =>
    if msgHeaderSize ≤ buf.length then
      let hdr := Msgheader.read buf
      let source := ⟨conn.ip, UInt16.ofNat conn.port.toNat, hdr.sourcelocalid⟩
      let total := (msgHeaderSize + hdr.size1.toNat) % 2 ^ 32
      if total > buf.length then ([], buf) -- incomplete message
      else
        let data := (buf.drop msgHeaderSize).take hdr.size1.toNat
        let (actions, rest) := takeMessages conn k (buf.drop total)
        (.gotMessage hdr source hdr.tag1 hdr.size1 data :: actions, rest)
    else ([], buf)

/-- The messages in `buf`, and `array_remove_data`. -/
def processMessages (conn : Connection) (buf : List UInt8) : Connection × List Action :=
  let (actions, rest) := takeMessages conn buf.length buf
  ({ conn with recvbuf := rest }, actions)

/-- From the handshake on; `buf` is the receive buffer from `start`. The port has two bytes, but the
source waits for four. -/
def processHandshake (conn : Connection) (buf : List UInt8) : Connection × List Action :=
  if conn.donewelcome ∧ ¬ conn.donehandshake then
    if conn.port < 0 then
      if 4 > buf.length then ({ conn with recvbuf := buf }, [])
      else
        processMessages { conn with port := ofBytes (buf.take 2), donehandshake := true } (buf.drop 2)
    else processMessages { conn with donehandshake := true } buf
  else processMessages conn buf

/-- The branches that take the peer for a console client. -/
def becomeConsole (conn : Connection) : Connection × List Action :=
  let (conn, actions) := startConsole conn
  let (conn, actions') := notifyRead conn
  (conn, actions ++ actions')

def processReceived (conn : Connection) : Connection × List Action :=
  let (conn, actions) := notifyRead conn
  if conn.isreg then (conn, actions)
  else if conn.donewelcome then processHandshake conn conn.recvbuf
  else if conn.recvbuf.length < welcomeMessage.length then
    -- a part of the welcome text is then looked at as a message header
    if conn.recvbuf ≠ welcomeMessage.take conn.recvbuf.length then becomeConsole conn
    else processHandshake conn conn.recvbuf
  else
    if conn.recvbuf.take welcomeMessage.length ≠ welcomeMessage then becomeConsole conn
    else
      processHandshake { conn with donewelcome := true } (conn.recvbuf.drop welcomeMessage.length)

/-- `handle_read`: a chunk of the stream is added to the buffer. -/
def receive (conn : Connection) (chunk : List UInt8) : Connection × List Action :=
  processReceived { conn with recvbuf := conn.recvbuf ++ chunk }

def receiveAll (conn : Connection) : List (List UInt8) → Connection × List Action
  | [] => (conn, [])
  | chunk :: chunks =>
    let (conn, actions) := receive conn chunk
    let (conn, actions') := receiveAll conn chunks
    (conn, actions ++ actions')

/-! ## The sender -/

/-- A message, as it is given to `node_send_locked`, with its time stamp. -/
structure Message where
  sourcelocalid : UInt32
  destlocalid : UInt32
  tag : UInt32
  timestamp : UInt32
  data : List UInt8
  deriving DecidableEq

namespace Message

def header (m : Message) : Msgheader :=
  ⟨m.sourcelocalid, m.destlocalid, UInt32.ofNat m.data.length, m.tag, m.timestamp⟩

def bytes (m : Message) : List UInt8 := m.header.bytes ++ m.data

end Message

/-- The node that sends, as the receiver's connection knows it. -/
inductive Sender where
  /-- it has opened the connection -/
  | connecting (listenport : UInt16)
  /-- it has accepted the connection that the receiver opened to this port -/
  | accepting (port : UInt16)

namespace Sender

def port : Sender → UInt16
  | connecting p => p
  | accepting p => p

/-- What the sender puts in front of the messages: `add_connection`, and for a new connection
`node_send_locked`. -/
def handshake : Sender → List UInt8
  | connecting p => welcomeMessage ++ toBytes 2 p.toNat
  | accepting _ => welcomeMessage

/-- All that `node_send_locked` appends to the send buffer. -/
def stream (p : Sender) (ms : List Message) : List UInt8 := p.handshake ++ ms.flatMap Message.bytes

/-- The receiver's connection when it is new. -/
def connection (p : Sender) (ip : UInt32) : Connection where
  ip := ip
  port := match p with
    | connecting _ => -1
    | accepting port => port.toNat
  recvbuf := []
  donewelcome := false
  donehandshake := false
  isreg := false
  readFrame := 0
  dontread := false

/-- The call of `got_message` for a message. -/
def delivery (p : Sender) (ip : UInt32) (m : Message) : Action :=
  .gotMessage m.header ⟨ip, p.port, m.sourcelocalid⟩ m.tag (UInt32.ofNat m.data.length) m.data

end Sender

/-! ## Headers -/

theorem Msgheader.field_append {l r : List UInt8} {k : Nat} {v : UInt32} (hl : l.length = k) :
    field (l ++ (toBytes 4 v.toNat ++ r)) k = v := by
  have hlen : (toBytes 4 v.toNat).length = 4 := toBytes_length 4 v.toNat
  rw [field, List.drop_left' hl, List.take_left' hlen, ofBytes_toBytes v.toNat_lt]
  exact UInt32.ofNat_toNat

theorem Msgheader.length_bytes (h : Msgheader) : h.bytes.length = msgHeaderSize := by
  simp only [bytes, List.length_append, toBytes_length]
  rfl

theorem Msgheader.read_append (h : Msgheader) (r : List UInt8) : read (h.bytes ++ r) = h := by
  have h0 : field (h.bytes ++ r) 0 = h.sourcelocalid := by
    simp only [bytes, List.append_assoc]
    exact @field_append [] _ 0 _ rfl
  have h4 : field (h.bytes ++ r) 4 = h.destlocalid := by
    simp only [bytes, List.append_assoc]
    exact field_append (toBytes_length 4 _)
  have h8 : field (h.bytes ++ r) 8 = h.size1 := by
    simp only [bytes, List.append_assoc]
    rw [← List.append_assoc (toBytes 4 _)]
    apply field_append
    simp only [List.length_append, toBytes_length]
  have h12 : field (h.bytes ++ r) 12 = h.tag1 := by
    simp only [bytes, List.append_assoc]
    rw [← List.append_assoc (toBytes 4 _), ← List.append_assoc (toBytes 4 _ ++ _)]
    apply field_append
    simp only [List.length_append, toBytes_length]
  have h16 : field (h.bytes ++ r) 16 = h.timestamp := by
    rw [bytes, List.append_assoc]
    apply field_append
    simp only [List.length_append, toBytes_length]
  rw [read, h0, h4, h8, h12, h16]

section

variable {p : Sender} {ip : UInt32} {conn : Connection} {m : Message} {ms : List Message}

theorem Message.length_bytes (m : Message) : m.bytes.length = msgHeaderSize + m.data.length := by
  rw [Message.bytes, List.length_append, Msgheader.length_bytes]

/-- A size that the header can hold, and that does not wrap when the header is added to it. -/
def Message.Fits (m : Message) : Prop := m.data.length < 2 ^ 31

theorem Message.Fits.size (h : m.Fits) : (UInt32.ofNat m.data.length).toNat = m.data.length := by
  unfold Fits at h
  rw [UInt32.toNat_ofNat']
  omega

theorem Message.Fits.total (h : m.Fits) :
    (msgHeaderSize + m.header.size1.toNat) % 2 ^ 32 = m.bytes.length := by
  have hs : m.header.size1.toNat = m.data.length := h.size
  unfold Fits at h
  rw [hs, Message.length_bytes, msgHeaderSize]
  omega

/-- The receiver's connection knows who sends. -/
structure Sender.Knows (p : Sender) (ip : UInt32) (conn : Connection) : Prop where
  ip : conn.ip = ip
  port : conn.port = p.port.toNat

/-- A complete message at the start of the buffer is delivered. -/
theorem takeMessages_message (hc : p.Knows ip conn) (hm : m.Fits) (k : Nat) (buf : List UInt8) :
    takeMessages conn (k + 1) (m.bytes ++ buf) =
      (p.delivery ip m :: (takeMessages conn k buf).1, (takeMessages conn k buf).2) := by
  have hlen : (m.bytes ++ buf).length = m.bytes.length + buf.length := List.length_append
  have hbytes := m.length_bytes
  have hread : Msgheader.read (m.bytes ++ buf) = m.header := by
    rw [Message.bytes, List.append_assoc, Msgheader.read_append]
  have hdata : ((m.bytes ++ buf).drop msgHeaderSize).take m.header.size1.toNat = m.data := by
    have hs : m.header.size1.toNat = m.data.length := hm.size
    rw [Message.bytes, List.append_assoc, List.drop_left' m.header.length_bytes, hs, List.take_left]
  have hport : UInt16.ofNat conn.port.toNat = p.port := by
    rw [hc.port, Int.toNat_natCast, UInt16.ofNat_toNat]
  have hdrop : (m.bytes ++ buf).drop m.bytes.length = buf := List.drop_left
  rw [takeMessages, if_pos (by omega)]
  simp only [hread, hm.total, hdata, hport, hc.ip, hdrop]
  rw [if_neg (by omega)]
  rfl

/-- A message of which a part is missing stays in the buffer. -/
theorem takeMessages_incomplete (hm : m.Fits) {buf rest rest' : List UInt8}
    (h : buf ++ rest = m.bytes ++ rest') (hlt : buf.length < m.bytes.length) (k : Nat) :
    takeMessages conn k buf = ([], buf) := by
  cases k with
  | zero => rfl
  | succ k =>
    rw [takeMessages]
    by_cases hhdr : msgHeaderSize ≤ buf.length
    · -- the header is there, and it says how much is missing
      have hread : Msgheader.read buf = m.header := by
        have hpre : m.header.bytes <+: buf ++ rest := by
          rw [h, Message.bytes, List.append_assoc]
          exact List.prefix_append _ _
        obtain ⟨r, rfl⟩ := List.prefix_of_prefix_length_le hpre (List.prefix_append buf rest)
          (by rwa [Msgheader.length_bytes])
        exact Msgheader.read_append _ _
      simp only [if_pos hhdr, hread, hm.total]
      rw [if_pos hlt]
    · rw [if_neg hhdr]

/-- The bytes in the buffer are the start of the messages `ms`, and the first of them is not complete.
`rest` is still to come. -/
structure Awaits (ms : List Message) (buf rest : List UInt8) : Prop where
  bytes : buf ++ rest = ms.flatMap Message.bytes
  incomplete : ∀ m ms', ms = m :: ms' → buf.length < m.bytes.length

theorem takeMessages_spec (hc : p.Knows ip conn) (hms : ∀ m ∈ ms, m.Fits) {buf rest : List UInt8}
    {k : Nat} (h : buf ++ rest = ms.flatMap Message.bytes) (hk : buf.length ≤ k) :
    ∃ ms₁ ms₂ buf', takeMessages conn k buf = (ms₁.map (p.delivery ip), buf') ∧ ms = ms₁ ++ ms₂ ∧
      Awaits ms₂ buf' rest := by
  induction ms generalizing buf k with
  | nil =>
    obtain ⟨rfl, rfl⟩ : buf = [] ∧ rest = [] := List.append_eq_nil_iff.mp h
    refine ⟨[], [], [], ?_, rfl, rfl, by rintro _ _ ⟨⟩⟩
    cases k <;> rfl
  | cons m ms ih =>
    have hm : m.Fits := hms m List.mem_cons_self
    rw [List.flatMap_cons] at h
    by_cases hlt : buf.length < m.bytes.length
    · refine ⟨[], m :: ms, buf, takeMessages_incomplete hm h hlt k, rfl, ?_, ?_⟩
      · rw [List.flatMap_cons, h]
      · rintro _ _ ⟨⟩
        exact hlt
    · have hpre : m.bytes <+: buf ++ rest := by
        rw [h]
        exact List.prefix_append _ _
      obtain ⟨b, rfl⟩ := List.prefix_of_prefix_length_le hpre (List.prefix_append buf rest)
        (Nat.le_of_not_lt hlt)
      rw [List.append_assoc, List.append_cancel_left_eq] at h
      have hlen := m.length_bytes
      rw [List.length_append, hlen, msgHeaderSize] at hk
      obtain ⟨k', rfl⟩ : ∃ k', k = k' + 1 := ⟨k - 1, by omega⟩
      obtain ⟨ms₁, ms₂, buf', hrun, rfl, haw⟩ :=
        ih (fun m' hm' => hms m' (List.mem_cons_of_mem m hm')) h (by omega : b.length ≤ k')
      refine ⟨m :: ms₁, ms₂, buf', ?_, rfl, haw⟩
      rw [takeMessages_message hc hm, hrun, List.map_cons]

/-- The end of `process_received`. -/
theorem processMessages_spec (hc : p.Knows ip conn) (hms : ∀ m ∈ ms, m.Fits)
    {buf rest : List UInt8} (h : buf ++ rest = ms.flatMap Message.bytes) :
    ∃ ms₁ ms₂ buf', processMessages conn buf =
        ({ conn with recvbuf := buf' }, ms₁.map (p.delivery ip)) ∧ ms = ms₁ ++ ms₂ ∧
      Awaits ms₂ buf' rest := by
  obtain ⟨ms₁, ms₂, buf', hrun, hms', haw⟩ := takeMessages_spec hc hms h le_rfl
  refine ⟨ms₁, ms₂, buf', ?_, hms', haw⟩
  rw [processMessages, hrun]

/-! ## The phases of a connection -/

/-- The connection before the handshake, with `buf` in its buffer. -/
def Sender.opening (p : Sender) (ip : UInt32) (buf : List UInt8) : Connection :=
  { p.connection ip with recvbuf := buf }

/-- The connection after the welcome text, while the port is not known. -/
def Sender.welcomed (p : Sender) (ip : UInt32) (buf : List UInt8) : Connection :=
  { p.connection ip with donewelcome := true, recvbuf := buf }

/-- The connection after the handshake. -/
def Sender.ready (p : Sender) (ip : UInt32) (buf : List UInt8) : Connection :=
  { p.connection ip with
    donewelcome := true, donehandshake := true, port := p.port.toNat, recvbuf := buf }

/-- What the receiver waits for after a call: the rest of the welcome text, the port, or the rest of a
message. The messages `done` have been delivered and `ms` have not; `rest` is still to come. -/
inductive Expects (p : Sender) (ip : UInt32) (rest : List UInt8) :
    List Message → List Message → Connection → Prop
  | welcome {ms : List Message} {buf : List UInt8} : buf.length < welcomeMessage.length →
    buf ++ rest = p.stream ms → Expects p ip rest [] ms (p.opening ip buf)
  | port {ms : List Message} {buf : List UInt8} {lp : UInt16} : p = .connecting lp →
    buf.length < 4 → buf ++ rest = toBytes 2 lp.toNat ++ ms.flatMap Message.bytes →
    Expects p ip rest [] ms (p.welcomed ip buf)
  | messages {done ms : List Message} {buf : List UInt8} : Awaits ms buf rest →
    Expects p ip rest done ms (p.ready ip buf)

/-- The result of a call: it has delivered some of the messages `ms`. -/
def Serves (p : Sender) (ip : UInt32) (rest : List UInt8) (done ms : List Message)
    (r : Connection × List Action) : Prop :=
  ∃ ms₁ ms₂ conn, r = (conn, ms₁.map (p.delivery ip)) ∧ ms = ms₁ ++ ms₂ ∧
    Expects p ip rest (done ++ ms₁) ms₂ conn

theorem knows_ready (p : Sender) (ip : UInt32) (buf : List UInt8) : p.Knows ip (p.ready ip buf) :=
  ⟨rfl, rfl⟩

theorem serves_ready {done : List Message} (hms : ∀ m ∈ ms, m.Fits) {buf buf₀ rest : List UInt8}
    (h : buf ++ rest = ms.flatMap Message.bytes) :
    Serves p ip rest done ms (processMessages (p.ready ip buf₀) buf) := by
  obtain ⟨ms₁, ms₂, buf', hrun, hms', haw⟩ := processMessages_spec (knows_ready p ip buf₀) hms h
  exact ⟨ms₁, ms₂, p.ready ip buf', hrun, hms', .messages haw⟩

/-- The handshake, with `buf` from the port on. -/
theorem serves_welcomed (hms : ∀ m ∈ ms, m.Fits) {buf buf₀ rest : List UInt8}
    (h : welcomeMessage ++ (buf ++ rest) = p.stream ms) :
    Serves p ip rest [] ms (processHandshake (p.welcomed ip buf₀) buf) := by
  cases p with
  | connecting lp =>
    rw [Sender.stream, Sender.handshake, List.append_assoc, List.append_cancel_left_eq] at h
    have hneg : ((Sender.connecting lp).welcomed ip buf₀).port < 0 := Int.negSucc_lt_zero 0
    have hcond : ((Sender.connecting lp).welcomed ip buf₀).donewelcome ∧
        ¬ ((Sender.connecting lp).welcomed ip buf₀).donehandshake := ⟨rfl, Bool.false_ne_true⟩
    rw [processHandshake, if_pos hcond, if_pos hneg]
    by_cases hlt : 4 > buf.length
    · rw [if_pos hlt]
      exact ⟨[], ms, (Sender.connecting lp).welcomed ip buf, rfl, rfl, .port rfl hlt h⟩
    · have hlen : (toBytes 2 lp.toNat).length = 2 := toBytes_length 2 _
      have hpre : toBytes 2 lp.toNat <+: buf ++ rest := by
        rw [h]
        exact List.prefix_append _ _
      obtain ⟨b, rfl⟩ := List.prefix_of_prefix_length_le hpre (List.prefix_append buf rest)
        (by omega)
      rw [List.append_assoc, List.append_cancel_left_eq] at h
      rw [if_neg hlt, List.take_left' hlen, List.drop_left' hlen, ofBytes_toBytes lp.toNat_lt]
      exact serves_ready hms h
  | accepting port =>
    rw [Sender.stream, Sender.handshake, List.append_cancel_left_eq] at h
    have hneg : ¬ ((Sender.accepting port).welcomed ip buf₀).port < 0 :=
      not_lt.mpr (Int.natCast_nonneg _)
    have hcond : ((Sender.accepting port).welcomed ip buf₀).donewelcome ∧
        ¬ ((Sender.accepting port).welcomed ip buf₀).donehandshake := ⟨rfl, Bool.false_ne_true⟩
    rw [processHandshake, if_pos hcond, if_neg hneg]
    exact serves_ready hms h

theorem notifyRead_of_not_isreg (h : conn.isreg = false) : notifyRead conn = (conn, []) := by
  rw [notifyRead, if_neg]
  rintro ⟨hreg, -⟩
  rw [h] at hreg
  cases hreg

/-- The welcome text as a message header: the message would not be complete. -/
theorem takeMessages_welcome {n : Nat} (k : Nat) :
    takeMessages conn k (welcomeMessage.take n) = ([], welcomeMessage.take n) := by
  cases k with
  | zero => rfl
  | succ k =>
    have hle : (welcomeMessage.take n).length ≤ 67 := List.length_take_le' n welcomeMessage
    rw [takeMessages]
    by_cases hhdr : msgHeaderSize ≤ (welcomeMessage.take n).length
    · have hn : 20 ≤ n := hhdr.trans (List.length_take_le n welcomeMessage)
      have hsize : (Msgheader.read (welcomeMessage.take n)).size1.toNat = 1948282740 := by
        have hbytes : ((welcomeMessage.take n).drop 8).take 4 = [0x74, 0x6f, 0x20, 0x74] := by
          rw [List.drop_take, List.take_take, min_eq_left (by omega)]
          decide
        have hfield : Msgheader.field (welcomeMessage.take n) 8 = 1948282740 := by
          rw [Msgheader.field, hbytes]
          decide
        rw [Msgheader.read, hfield]
        rfl
      simp only [if_pos hhdr, hsize]
      rw [if_pos]
      exact hle.trans_lt (by decide)
    · rw [if_neg hhdr]

theorem serves_opening (hms : ∀ m ∈ ms, m.Fits) {buf rest : List UInt8}
    (h : buf ++ rest = p.stream ms) :
    Serves p ip rest [] ms (processReceived (p.opening ip buf)) := by
  have hreg : (p.opening ip buf).isreg = false := rfl
  have hdone : (p.opening ip buf).donewelcome = false := rfl
  have hbuf : (p.opening ip buf).recvbuf = buf := rfl
  have hwel : welcomeMessage <+: buf ++ rest := by
    rw [h, Sender.stream]
    cases p with
    | connecting lp =>
      rw [Sender.handshake, List.append_assoc]
      exact List.prefix_append _ _
    | accepting port => exact List.prefix_append _ _
  simp only [processReceived, notifyRead_of_not_isreg hreg, hreg, hdone, hbuf, if_false,
    Bool.false_eq_true]
  by_cases hlt : buf.length < welcomeMessage.length
  · obtain ⟨r, hr⟩ := List.prefix_of_prefix_length_le (List.prefix_append buf rest) hwel hlt.le
    have htake : buf = welcomeMessage.take buf.length := by rw [← hr, List.take_left]
    have hcond : ¬ ((p.opening ip buf).donewelcome ∧ ¬ (p.opening ip buf).donehandshake) := by
      rw [hdone]
      exact fun hc => Bool.false_ne_true hc.1
    have hrun : takeMessages (p.opening ip buf) buf.length buf = ([], buf) := by
      rw [htake]
      exact takeMessages_welcome _
    rw [if_pos hlt, if_neg (not_not.mpr htake), processHandshake, if_neg hcond, processMessages,
      hrun]
    exact ⟨[], ms, p.opening ip buf, rfl, rfl, .welcome hlt h⟩
  · obtain ⟨b, rfl⟩ := List.prefix_of_prefix_length_le hwel (List.prefix_append buf rest)
      (Nat.le_of_not_lt hlt)
    rw [List.append_assoc] at h
    rw [if_neg hlt, List.take_left, if_neg (not_not.mpr rfl), List.drop_left]
    exact serves_welcomed hms h

/-- One call, with some more bytes in the buffer. -/
theorem Expects.receive {done : List Message} {chunk rest : List UInt8}
    (h : Expects p ip (chunk ++ rest) done ms conn) (hms : ∀ m ∈ ms, m.Fits) :
    Serves p ip rest done ms (receive conn chunk) := by
  cases h with
  | @welcome _ buf _ hbytes =>
    rw [← List.append_assoc] at hbytes
    exact serves_opening hms hbytes
  | @port _ buf lp hp _ hbytes =>
    rw [← List.append_assoc] at hbytes
    have hstream : welcomeMessage ++ (buf ++ chunk ++ rest) = p.stream ms := by
      rw [hbytes, hp, Sender.stream, Sender.handshake, List.append_assoc]
    exact serves_welcomed hms hstream
  | @messages _ _ buf haw =>
    have hbytes := haw.bytes
    rw [← List.append_assoc] at hbytes
    exact serves_ready hms hbytes

/-- All calls, one after the other. -/
theorem Expects.receiveAll {chunks : List (List UInt8)} {done : List Message}
    (h : Expects p ip chunks.flatten done ms conn) (hms : ∀ m ∈ ms, m.Fits) :
    Serves p ip [] done ms (receiveAll conn chunks) := by
  induction chunks generalizing done ms conn with
  | nil => exact ⟨[], ms, conn, rfl, rfl, by rwa [List.append_nil]⟩
  | cons chunk chunks ih =>
    rw [List.flatten_cons] at h
    obtain ⟨ms₁, ms₂, conn₁, hrun, rfl, h₁⟩ := h.receive hms
    obtain ⟨ms₃, ms₄, conn₂, hrun', rfl, h₂⟩ :=
      ih h₁ (fun m hm => hms m (List.mem_append_right ms₁ hm))
    refine ⟨ms₁ ++ ms₃, ms₄, conn₂, ?_, (List.append_assoc ..).symm, by rwa [← List.append_assoc]⟩
    rw [Network.receiveAll, hrun]
    dsimp only
    rw [hrun', List.map_append]

theorem Sender.stream_append (p : Sender) (ms : List Message) (m : Message) :
    p.stream (ms ++ [m]) = p.stream ms ++ m.bytes := by
  rw [Sender.stream, Sender.stream, List.flatMap_append, List.flatMap_singleton, List.append_assoc]

/-- The sender sends another message. -/
theorem Expects.append {done : List Message} {rest : List UInt8}
    (h : Expects p ip rest done ms conn) (m : Message) :
    Expects p ip (rest ++ m.bytes) done (ms ++ [m]) conn := by
  cases h with
  | welcome hlt hbytes =>
    refine .welcome hlt ?_
    rw [Sender.stream_append, ← hbytes, List.append_assoc]
  | port hp hlt hbytes =>
    refine .port hp hlt ?_
    rw [← List.append_assoc, hbytes, List.flatMap_append, List.flatMap_singleton, List.append_assoc]
  | messages haw =>
    refine .messages ⟨?_, fun m' ms' heq => ?_⟩
    · rw [← List.append_assoc, haw.bytes, List.flatMap_append, List.flatMap_singleton]
    · cases ms with
      | nil =>
        obtain ⟨rfl, -⟩ := List.append_eq_nil_iff.mp haw.bytes
        have hlen := m'.length_bytes
        rw [hlen, msgHeaderSize, List.length_nil]
        omega
      | cons m₁ ms₁ =>
        obtain ⟨rfl, -⟩ := List.cons.inj heq
        exact haw.incomplete m₁ ms₁ rfl

/-- The connection knows the node at the other end, or waits for its port. -/
theorem Expects.address {done : List Message} {rest : List UInt8}
    (h : Expects p ip rest done ms conn) :
    conn.ip = ip ∧ (conn.port = p.port.toNat ∨ (∃ lp, p = .connecting lp) ∧ conn.port = -1) := by
  cases h with
  | welcome _ _ =>
    refine ⟨rfl, ?_⟩
    cases p with
    | connecting lp => exact .inr ⟨⟨lp, rfl⟩, rfl⟩
    | accepting port => exact .inl rfl
  | port hp _ _ =>
    subst hp
    exact ⟨rfl, .inr ⟨⟨_, rfl⟩, rfl⟩⟩
  | messages _ => exact ⟨rfl, .inl rfl⟩

theorem notifyRead_address (conn : Connection) :
    (notifyRead conn).1.ip = conn.ip ∧ (notifyRead conn).1.port = conn.port := by
  unfold notifyRead
  split <;> exact ⟨rfl, rfl⟩

theorem processHandshake_address (h : 0 ≤ conn.port) (buf : List UInt8) :
    (processHandshake conn buf).1.ip = conn.ip ∧ (processHandshake conn buf).1.port = conn.port := by
  unfold processHandshake
  split
  · rw [if_neg (not_lt.mpr h)]
    exact ⟨rfl, rfl⟩
  · exact ⟨rfl, rfl⟩

theorem becomeConsole_address (conn : Connection) :
    (becomeConsole conn).1.ip = conn.ip ∧ (becomeConsole conn).1.port = conn.port :=
  notifyRead_address (startConsole conn).1

/-- An address that is known stays. -/
theorem receive_address (h : 0 ≤ conn.port) (chunk : List UInt8) :
    (receive conn chunk).1.ip = conn.ip ∧ (receive conn chunk).1.port = conn.port := by
  obtain ⟨hip, hport⟩ := notifyRead_address { conn with recvbuf := conn.recvbuf ++ chunk }
  unfold receive processReceived
  generalize notifyRead { conn with recvbuf := conn.recvbuf ++ chunk } = r at hip hport
  obtain ⟨conn', actions⟩ := r
  dsimp only at hip hport ⊢
  have hpos : 0 ≤ conn'.port := by
    rw [hport]
    exact h
  rw [← hip, ← hport]
  split
  · exact ⟨rfl, rfl⟩
  split
  · exact processHandshake_address hpos _
  split
  · split
    · exact becomeConsole_address conn'
    · exact processHandshake_address hpos _
  · split
    · exact becomeConsole_address conn'
    · exact @processHandshake_address { conn' with donewelcome := true } hpos _

/-- When nothing is to come and at least one message was sent, all have been delivered. -/
theorem Expects.complete {done : List Message} (h : Expects p ip [] done ms conn)
    (hne : done ++ ms ≠ []) : ms = [] ∧ conn = p.ready ip [] := by
  cases h with
  | @welcome _ buf hlt hbytes =>
    rw [List.append_nil] at hbytes
    rw [hbytes, Sender.stream, List.length_append] at hlt
    cases p with
    | connecting lp =>
      rw [Sender.handshake, List.length_append] at hlt
      omega
    | accepting port =>
      rw [Sender.handshake] at hlt
      omega
  | @port _ buf lp _ hlt hbytes =>
    cases ms with
    | nil => exact absurd rfl hne
    | cons m ms =>
      have hlen := m.length_bytes
      rw [List.append_nil] at hbytes
      rw [hbytes, List.flatMap_cons, List.length_append, List.length_append, hlen,
        msgHeaderSize] at hlt
      omega
  | @messages _ _ buf haw =>
    have hbytes := haw.bytes
    rw [List.append_nil] at hbytes
    cases ms with
    | nil => exact ⟨rfl, by rw [hbytes, List.flatMap_nil]⟩
    | cons m ms =>
      have hlt := haw.incomplete m ms rfl
      rw [hbytes, List.flatMap_cons, List.length_append] at hlt
      omega

/-- However the stream is cut, the messages are delivered in order, each once, no console is started,
and nothing is left in the buffer. -/
theorem receiveAll_stream (p : Sender) (ip : UInt32) {ms : List Message} (hne : ms ≠ [])
    (hms : ∀ m ∈ ms, m.data.length < 2 ^ 31) {chunks : List (List UInt8)}
    (h : chunks.flatten = p.stream ms) :
    receiveAll (p.connection ip) chunks = (p.ready ip [], ms.map (p.delivery ip)) := by
  have hstart : Expects p ip chunks.flatten [] ms (p.connection ip) :=
    @Expects.welcome p ip _ ms [] (by decide) h
  obtain ⟨ms₁, ms₂, conn, hrun, rfl, hend⟩ := hstart.receiveAll hms
  obtain ⟨rfl, rfl⟩ := hend.complete hne
  rw [hrun, List.append_nil]

/-- One message to the I/O thread of a node, a byte at a time. -/
theorem receiveAll_stream_bytes :
    receiveAll ((Sender.connecting 6879).connection 1)
        (((Sender.connecting 6879).stream [⟨5, 1, 2, 0, [10, 20]⟩]).map (fun b => [b])) =
      ((Sender.connecting 6879).ready 1 [],
        [.gotMessage ⟨5, 1, 2, 2, 0⟩ ⟨1, 6879, 5⟩ 2 2 [10, 20]]) := by
  have hne : [(⟨5, 1, 2, 0, [10, 20]⟩ : Message)] ≠ [] := List.cons_ne_nil _ _
  have hcut : ∀ l : List UInt8, (l.map (fun b => [b])).flatten = l := by
    intro l
    induction l with
    | nil => rfl
    | cons b l ih => rw [List.map_cons, List.flatten_cons, ih, List.singleton_append]
  exact receiveAll_stream (.connecting 6879) 1 hne (by decide) (hcut _)

end

end Network
end NReduce
