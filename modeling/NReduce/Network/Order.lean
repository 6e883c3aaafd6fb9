import Mathlib.Data.List.Nodup
import Mathlib.Logic.Function.Basic
import NReduce.Network.Framing

/-!
# NReduce.Network.Order

The order of the messages between two nodes (`node.c`, `iothread.c`). `node_send_locked` appends a
message to the first connection in the node's list whose address is that of the other node, and
opens one if there is none. A connection that was accepted has the address when its handshake has
arrived, and it keeps its place in the list, so that it may come before the one that was opened
meanwhile.

* `State`, `step`: the lists of connections and the bytes on the way, for any number of nodes. The
  bytes of one TCP connection stay in order; those of different ones have nothing to do with each
  other.
* `received_prefix`: a node gets the messages of another one in order if the other one opens no
  connection while one that it has accepted from the node waits for its handshake.
-/

namespace NReduce
namespace Network
namespace Order

open Logic

structure Address where
  ip : UInt32
  port : UInt16
  deriving DecidableEq

/-- A `connection`: one end of a TCP connection, `true` for the node that has opened it. -/
abbrev Conn := Nat × Bool

/-- The end at the other node. -/
def other (c : Conn) : Conn := (c.1, !c.2)

structure State where
  /-- the list of a node -/
  connections : Address → List Conn
  conn : Conn → Connection
  /-- the bytes that an end has yet to read -/
  wire : Conn → List UInt8
  opener : Nat → Address
  acceptor : Nat → Address
  /-- the TCP connections that have not been accepted -/
  pending : List Nat
  next : Nat
  /-- the messages that a node has sent to another one -/
  sent : Address → Address → List Message
  /-- the calls of `got_message` at a node for messages of others, in order -/
  got : Address → List Action
  /-- the messages that were sent to an end; the code does not keep them -/
  carried : Conn → List Message

/-- The fields of a connection that `add_connection` makes. -/
def newConnection (ip : UInt32) (port : Int) : Connection where
  ip := ip
  port := port
  recvbuf := []
  donewelcome := false
  donehandshake := false
  isreg := false
  readFrame := 0
  dontread := false

def start : State where
  connections := fun _ => []
  conn := fun _ => newConnection 0 (-1)
  wire := fun _ => []
  opener := fun _ => ⟨0, 0⟩
  acceptor := fun _ => ⟨0, 0⟩
  pending := []
  next := 0
  sent := fun _ _ => []
  got := fun _ => []
  carried := fun _ => []

/-- The connection has the address `b`. -/
def hasAddress (s : State) (b : Address) (c : Conn) : Bool :=
  (s.conn c).ip = b.ip && (s.conn c).port = b.port.toNat

/-- `find_connection`. With OUTGOING in the environment only the connections count that the node has
opened. -/
def findConnection (outgoing : Bool) (s : State) (n dest : Address) : Option Conn :=
  (s.connections n).find? (fun c => hasAddress s dest c && (!outgoing || c.2))

/-- The call of `got_message` for a message of `a`. -/
def delivery (a : Address) (m : Message) : Action :=
  .gotMessage m.header ⟨a.ip, a.port, m.sourcelocalid⟩ m.tag (UInt32.ofNat m.data.length) m.data

def record (s : State) (n dest : Address) (m : Message) : Address → Address → List Message :=
  Function.update s.sent n (Function.update (s.sent n) dest (s.sent n dest ++ [m]))

/-- The part of `node_send_locked` for a connection that is there. -/
def appendTo (s : State) (c : Conn) (m : Message) : State :=
  { s with
    wire := Function.update s.wire (other c) (s.wire (other c) ++ m.bytes)
    carried := Function.update s.carried (other c) (s.carried (other c) ++ [m]) }

/-- The part of `node_send_locked` for a new connection. -/
def openConnection (s : State) (n dest : Address) (m : Message) : State :=
  { s with
    connections := Function.update s.connections n (s.connections n ++ [(s.next, true)])
    conn := Function.update s.conn (s.next, true) (newConnection dest.ip dest.port.toNat)
    wire := Function.update s.wire (s.next, false)
      (welcomeMessage ++ toBytes 2 n.port.toNat ++ m.bytes)
    opener := Function.update s.opener s.next n
    acceptor := Function.update s.acceptor s.next dest
    pending := s.next :: s.pending
    next := s.next + 1
    carried := Function.update s.carried (s.next, false) [m] }

/-- `node_send_locked` -/
def nodeSend (outgoing : Bool) (s : State) (n dest : Address) (m : Message) : State :=
  let s := { s with sent := record s n dest m }
  if n = dest then { s with got := Function.update s.got n (s.got n ++ [delivery n m]) }
  else
    match findConnection outgoing s n dest with
    | some c => appendTo s c m
    | none => openConnection s n dest m

/-- `handle_new_connection` -/
def handleNewConnection (s : State) (k : Nat) : State :=
  { s with
    connections := Function.update s.connections (s.acceptor k)
      (s.connections (s.acceptor k) ++ [(k, false)])
    conn := Function.update s.conn (k, false) (newConnection (s.opener k).ip (-1))
    wire := Function.update s.wire (k, true) welcomeMessage
    pending := s.pending.filter (· ≠ k) }

/-- `handle_read`, with a chunk of the given length -/
def handleRead (s : State) (n : Address) (c : Conn) (len : Nat) : State :=
  let (conn, actions) := receive (s.conn c) ((s.wire c).take len)
  { s with
    conn := Function.update s.conn c conn
    wire := Function.update s.wire c ((s.wire c).drop len)
    got := Function.update s.got n (s.got n ++ actions) }

inductive Event where
  /-- the send buffer's size is an `int`, so there are no larger messages -/
  | send (n dest : Address) (m : Message) (h : m.Fits)
  | accept (k : Nat)
  | read (n : Address) (c : Conn) (len : Nat)

/-- An event that is not possible changes nothing. -/
def step (outgoing : Address → Bool) (s : State) : Event → State
  | .send n dest m _ => nodeSend (outgoing n) s n dest m
  | .accept k => if k ∈ s.pending then handleNewConnection s k else s
  | .read n c len =>
    if c ∈ s.connections n ∧ 0 < len ∧ s.wire c ≠ [] then handleRead s n c len else s

/-- The message comes from a node. -/
def isFrom (a : Address) : Action → Bool
  | .gotMessage _ source _ _ _ => source.ip = a.ip && source.port = a.port
  | _ => false

/-- The messages of `a` that `b` has got. -/
def received (s : State) (a b : Address) : List Action := (s.got b).filter (isFrom a)

/-! ## Ends -/

def owner (s : State) (c : Conn) : Address := if c.2 then s.opener c.1 else s.acceptor c.1

def peer (s : State) (c : Conn) : Address := if c.2 then s.acceptor c.1 else s.opener c.1

/-- Who sends to the end. -/
def sender (s : State) (c : Conn) : Sender :=
  if c.2 then .accepting (peer s c).port else .connecting (peer s c).port

@[simp] theorem other_other (c : Conn) : other (other c) = c := by simp [other]

@[simp] theorem owner_other (s : State) (c : Conn) : owner s (other c) = peer s c := by
  obtain ⟨k, side⟩ := c
  cases side <;> rfl

@[simp] theorem peer_other (s : State) (c : Conn) : peer s (other c) = owner s c := by
  obtain ⟨k, side⟩ := c
  cases side <;> rfl

@[simp] theorem sender_port (s : State) (c : Conn) : (sender s c).port = (peer s c).port := by
  obtain ⟨k, side⟩ := c
  cases side <;> rfl

theorem sender_delivery (s : State) (c : Conn) :
    (sender s c).delivery (peer s c).ip = delivery (peer s c) := by
  funext m
  rw [Sender.delivery, sender_port]
  rfl

/-! ## What holds of all connections -/

/-- The messages `done` of those that were sent to the end have been delivered. -/
def Flow (s : State) (c : Conn) (done : List Message) : Prop :=
  ∃ ms, done ++ ms = s.carried c ∧
    Expects (sender s c) (peer s c).ip (s.wire c) done ms (s.conn c)

/-- Before it is accepted, all goes one way on a TCP connection. -/
structure Waiting (s : State) (k : Nat) : Prop where
  wire : s.wire (k, false) = (sender s (k, false)).stream (s.carried (k, false))
  back : s.wire (k, true) = []
  carried : s.carried (k, true) = []
  conn : s.conn (k, true) = (sender s (k, true)).connection (peer s (k, true)).ip

structure Inv (s : State) : Prop where
  mem : ∀ {n c}, c ∈ s.connections n →
    c.1 < s.next ∧ owner s c = n ∧ (c.2 = false → c.1 ∉ s.pending)
  nodup : ∀ n, (s.connections n).Nodup
  opened : ∀ {k}, k < s.next → (k, true) ∈ s.connections (s.opener k)
  ne : ∀ {k}, k < s.next → s.opener k ≠ s.acceptor k
  /-- a node opens one connection to another one at most -/
  unique : ∀ {j k}, j < s.next → k < s.next → s.opener j = s.opener k →
    s.acceptor j = s.acceptor k → j = k
  pending : ∀ {k}, k ∈ s.pending → k < s.next
  flow : ∀ {c}, c.1 < s.next → c.1 ∉ s.pending → ∃ done, Flow s c done
  waiting : ∀ {k}, k ∈ s.pending → Waiting s k
  unused : ∀ {c}, s.next ≤ c.1 → s.wire c = [] ∧ s.carried c = []
  fits : ∀ c, ∀ m ∈ s.carried c, m.Fits
  first : ∀ {k}, k < s.next → s.carried (k, false) ≠ []

section

variable {s s' : State} {c : Conn} {b : Address}

theorem Inv.address (h : Inv s) (hc : c.1 < s.next) (hp : c.2 = false → c.1 ∉ s.pending) :
    (s.conn c).ip = (peer s c).ip ∧
      ((s.conn c).port = (peer s c).port.toNat ∨ c.2 = false ∧ (s.conn c).port = -1) := by
  obtain ⟨k, side⟩ := c
  by_cases hk : k ∈ s.pending
  · cases side with
    | false => exact absurd hk (hp rfl)
    | true =>
      rw [(h.waiting hk).conn]
      exact ⟨rfl, .inl rfl⟩
  · obtain ⟨done, ms, -, hexp⟩ := h.flow hc hk
    obtain ⟨hip, hport⟩ := hexp.address
    refine ⟨hip, hport.imp (fun hport => ?_) (fun hport => ⟨?_, hport.2⟩)⟩
    · rw [hport, sender_port]
    · obtain ⟨⟨lp, hlp⟩, -⟩ := hport
      cases side with
      | false => rfl
      | true => cases hlp

/-- A connection has the address of its peer, as soon as it is known. -/
theorem Inv.hasAddress_iff (h : Inv s) (hc : c.1 < s.next) (hp : c.2 = false → c.1 ∉ s.pending) :
    hasAddress s b c = true ↔ peer s c = b ∧ 0 ≤ (s.conn c).port := by
  obtain ⟨hip, hport⟩ := h.address hc hp
  rw [hasAddress, Bool.and_eq_true, decide_eq_true_iff, decide_eq_true_iff, hip]
  constructor
  · rintro ⟨hbip, hbport⟩
    refine ⟨?_, by omega⟩
    have hport' : (peer s c).port = b.port := by
      apply UInt16.toNat_inj.mp
      omega
    cases hpeer : peer s c
    cases hb : b
    rw [hpeer, hb] at hbip hport'
    cases hbip
    cases hport'
    rfl
  · rintro ⟨rfl, hpos⟩
    exact ⟨rfl, by omega⟩

/-- A connection that the node has opened has the address from the start. -/
theorem Inv.hasAddress_opened (h : Inv s) (hc : c.1 < s.next) (hout : c.2 = true)
    (hpeer : peer s c = b) : hasAddress s b c = true := by
  have hp : c.2 = false → c.1 ∉ s.pending := fun hf => absurd (hout.symm.trans hf) (by decide)
  rw [h.hasAddress_iff hc hp]
  refine ⟨hpeer, ?_⟩
  obtain ⟨-, hport | ⟨hf, -⟩⟩ := h.address hc hp
  · omega
  · exact absurd (hout.symm.trans hf) (by decide)

theorem find_spec {outgoing : Bool} {n dest : Address} (h : Inv s)
    (hfind : findConnection outgoing s n dest = some c) :
    c ∈ s.connections n ∧ owner s c = n ∧ peer s c = dest ∧ hasAddress s dest c = true ∧
      (outgoing = true → c.2 = true) := by
  have hmem := List.mem_of_find?_eq_some hfind
  have hcond := List.find?_some hfind
  rw [Bool.and_eq_true] at hcond
  obtain ⟨hlt, hown, hp⟩ := h.mem hmem
  refine ⟨hmem, hown, ((h.hasAddress_iff hlt hp).mp hcond.1).1, hcond.1, fun ho => ?_⟩
  simpa [ho] using hcond.2

/-- A node that has opened a connection to another one has found one from then on. -/
theorem Inv.find_of_opened {k : Nat} (outgoing : Bool) (h : Inv s) (hk : k < s.next) :
    findConnection outgoing s (s.opener k) (s.acceptor k) ≠ none := by
  intro hnone
  rw [findConnection, List.find?_eq_none] at hnone
  refine hnone (k, true) (h.opened hk) ?_
  have haddr : hasAddress s (s.acceptor k) (k, true) = true := h.hasAddress_opened hk rfl rfl
  rw [haddr]
  cases outgoing <;> rfl

/-! ## Steps -/

/-- A step leaves an end as it is. -/
structure Same (s s' : State) (c : Conn) : Prop where
  owner : owner s' c = owner s c
  peer : peer s' c = peer s c
  wire : s'.wire c = s.wire c
  carried : s'.carried c = s.carried c
  conn : s'.conn c = s.conn c

theorem Same.history {sent : Address → Address → List Message} {got : Address → List Action}
    (h : Same { s with sent := sent, got := got } s' c) : Same s s' c :=
  ⟨h.owner, h.peer, h.wire, h.carried, h.conn⟩

theorem Same.sender (h : Same s s' c) : sender s' c = sender s c := by
  rw [Order.sender, Order.sender, h.peer]

theorem Same.hasAddress (h : Same s s' c) : hasAddress s' b c = hasAddress s b c := by
  rw [Order.hasAddress, Order.hasAddress, h.conn]

theorem Waiting.same {k : Nat} (hw : Waiting s k) (h : ∀ side, Same s s' (k, side)) :
    Waiting s' k where
  wire := by rw [(h false).wire, (h false).sender, (h false).carried, hw.wire]
  back := by rw [(h true).wire, hw.back]
  carried := by rw [(h true).carried, hw.carried]
  conn := by rw [(h true).conn, (h true).sender, (h true).peer, hw.conn]

theorem Flow.same {done : List Message} (hf : Flow s c done) (h : Same s s' c) :
    Flow s' c done := by
  obtain ⟨ms, hms, hexp⟩ := hf
  refine ⟨ms, hms.trans h.carried.symm, ?_⟩
  rw [h.sender, h.peer, h.wire, h.conn]
  exact hexp

/-- What was sent and got is not looked at. -/
theorem Inv.history (h : Inv s) (sent : Address → Address → List Message)
    (got : Address → List Action) : Inv { s with sent := sent, got := got } where
  mem := h.mem
  nodup := h.nodup
  opened := h.opened
  ne := h.ne
  unique := h.unique
  pending := h.pending
  flow := h.flow
  waiting := fun hk => (h.waiting hk).same fun _ => ⟨rfl, rfl, rfl, rfl, rfl⟩
  unused := h.unused
  fits := h.fits
  first := h.first

@[simp] theorem appendTo_wire (m : Message) :
    (appendTo s c m).wire (other c) = s.wire (other c) ++ m.bytes := Function.update_self _ _ _

@[simp] theorem appendTo_carried (m : Message) :
    (appendTo s c m).carried (other c) = s.carried (other c) ++ [m] := Function.update_self _ _ _

theorem appendTo_wire_ne {c' : Conn} (m : Message) (hne : c' ≠ other c) :
    (appendTo s c m).wire c' = s.wire c' := Function.update_of_ne hne _ _

theorem appendTo_carried_ne {c' : Conn} (m : Message) (hne : c' ≠ other c) :
    (appendTo s c m).carried c' = s.carried c' := Function.update_of_ne hne _ _

theorem Flow.append {m : Message} {done : List Message} (h : Flow s (other c) done) :
    Flow (appendTo s c m) (other c) done := by
  obtain ⟨ms, hms, hexp⟩ := h
  refine ⟨ms ++ [m], ?_, ?_⟩
  · rw [appendTo_carried, ← List.append_assoc, hms]
  · rw [appendTo_wire]
    exact hexp.append m

theorem Flow.append_ne {c' : Conn} {m : Message} {done : List Message} (h : Flow s c' done)
    (hne : c' ≠ other c) : Flow (appendTo s c m) c' done := by
  obtain ⟨ms, hms, hexp⟩ := h
  refine ⟨ms, ?_, ?_⟩
  · rw [appendTo_carried_ne m hne, hms]
  · rw [appendTo_wire_ne m hne]
    exact hexp

theorem Inv.appendTo {n : Address} {m : Message} (h : Inv s) (hc : c ∈ s.connections n)
    (hm : m.Fits) : Inv (appendTo s c m) := by
  obtain ⟨hlt, -, hpend⟩ := h.mem hc
  refine ⟨h.mem, h.nodup, h.opened, h.ne, h.unique, h.pending, fun {c'} hc' hp' => ?_,
    fun {k} hk => ?_, fun {c'} hc' => ?_, fun c' m' hm' => ?_, fun {k} hk => ?_⟩
  · obtain ⟨done, hflow⟩ := h.flow hc' hp'
    by_cases hcc : c' = other c
    · subst hcc
      exact ⟨done, hflow.append⟩
    · exact ⟨done, hflow.append_ne hcc⟩
  · have hw := h.waiting hk
    -- only the side that opened can have sent something
    have hne : (k, true) ≠ other c := by
      intro heq
      obtain ⟨k', side⟩ := c
      cases side with
      | true => cases heq
      | false =>
        cases heq
        exact hpend rfl hk
    refine ⟨?_, (appendTo_wire_ne m hne).trans hw.back,
      (appendTo_carried_ne m hne).trans hw.carried, hw.conn⟩
    by_cases hcc : (k, false) = other c
    · rw [hcc, appendTo_wire, appendTo_carried, ← hcc, hw.wire]
      exact (Sender.stream_append _ _ m).symm
    · rw [appendTo_wire_ne m hcc, appendTo_carried_ne m hcc]
      exact hw.wire
  · have hcc : c' ≠ other c := by
      rintro rfl
      exact absurd hlt (Nat.not_lt.mpr hc')
    rw [appendTo_wire_ne m hcc, appendTo_carried_ne m hcc]
    exact h.unused hc'
  · by_cases hcc : c' = other c
    · subst hcc
      rw [appendTo_carried] at hm'
      obtain hm' | hm' := List.mem_append.mp hm'
      · exact h.fits _ m' hm'
      · rw [List.mem_singleton] at hm'
        exact hm' ▸ hm
    · rw [appendTo_carried_ne m hcc] at hm'
      exact h.fits _ m' hm'
  · by_cases hcc : (k, false) = other c
    · rw [hcc, appendTo_carried]
      exact fun hf => List.cons_ne_nil _ _ (List.append_eq_nil_iff.mp hf).2
    · rw [appendTo_carried_ne m hcc]
      exact h.first hk

section

variable {n dest : Address} {m : Message}

theorem openConnection_same (hc : c.1 ≠ s.next) : Same s (openConnection s n dest m) c := by
  have hne : ∀ side, c ≠ (s.next, side) := fun side hf => hc (congrArg Prod.fst hf)
  refine ⟨?_, ?_, Function.update_of_ne (hne false) _ _, Function.update_of_ne (hne false) _ _,
    Function.update_of_ne (hne true) _ _⟩
  · simp only [owner, openConnection, Function.update_of_ne hc]
  · simp only [peer, openConnection, Function.update_of_ne hc]

theorem openConnection_new (s : State) (n dest : Address) (m : Message) :
    (openConnection s n dest m).opener s.next = n ∧
      (openConnection s n dest m).acceptor s.next = dest := by
  simp [openConnection]

theorem mem_openConnection {n' : Address} :
    c ∈ (openConnection s n dest m).connections n' ↔
      c ∈ s.connections n' ∨ (n' = n ∧ c = (s.next, true)) := by
  by_cases hn : n' = n
  · subst hn
    simp [openConnection]
  · simp [openConnection, hn]

theorem Inv.openConnection (h : Inv s) (hne : n ≠ dest)
    (hfind : ∀ k < s.next, s.opener k = n → s.acceptor k ≠ dest) (hm : m.Fits) :
    Inv (openConnection s n dest m) := by
  obtain ⟨hop, hac⟩ := openConnection_new s n dest m
  have hold : ∀ {k}, k < s.next →
      (Order.openConnection s n dest m).opener k = s.opener k ∧
        (Order.openConnection s n dest m).acceptor k = s.acceptor k := fun hk =>
    ⟨Function.update_of_ne (Nat.ne_of_lt hk) _ _, Function.update_of_ne (Nat.ne_of_lt hk) _ _⟩
  have hcases : ∀ {k}, k < s.next + 1 → k < s.next ∨ k = s.next := fun hk =>
    Nat.lt_or_eq_of_le (Nat.le_of_lt_succ hk)
  have hunused := h.unused (c := (s.next, true)) (Nat.le_refl _)
  have hown : owner (Order.openConnection s n dest m) (s.next, true) = n := hop
  refine ⟨fun {n' c} hc => ?_, fun n' => ?_, fun {k} hk => ?_, fun {k} hk => ?_,
    fun {j k} hj hk ho ha => ?_, fun {k} hk => ?_, fun {c} hc hp => ?_, fun {k} hk => ?_,
    fun {c} hc => ?_, fun c m' hm' => ?_, fun {k} hk => ?_⟩
  · obtain hc | ⟨rfl, rfl⟩ := mem_openConnection.mp hc
    · obtain ⟨hlt, hown', hp⟩ := h.mem hc
      refine ⟨Nat.lt_succ_of_lt hlt, ?_, fun hf hpend => ?_⟩
      · rw [(openConnection_same (Nat.ne_of_lt hlt)).owner, hown']
      · obtain hpend | hpend := List.mem_cons.mp hpend
        · exact Nat.ne_of_lt hlt hpend
        · exact hp hf hpend
    · exact ⟨Nat.lt_succ_self _, hown, fun hf => (nomatch hf)⟩
  · by_cases hn : n' = n
    · subst hn
      simp only [Order.openConnection, Function.update_self]
      refine List.nodup_append.mpr ⟨h.nodup n', List.nodup_singleton _, ?_⟩
      intro c hc c' hc' heq
      rw [List.mem_singleton] at hc'
      subst hc'
      subst heq
      exact absurd (h.mem hc).1 (Nat.lt_irrefl _)
    · simp only [Order.openConnection, Function.update_of_ne hn]
      exact h.nodup n'
  · obtain hk | rfl := hcases hk
    · rw [(hold hk).1]
      exact mem_openConnection.mpr (.inl (h.opened hk))
    · rw [hop]
      exact mem_openConnection.mpr (.inr ⟨rfl, rfl⟩)
  · obtain hk | rfl := hcases hk
    · rw [(hold hk).1, (hold hk).2]
      exact h.ne hk
    · rw [hop, hac]
      exact hne
  · obtain hj | rfl := hcases hj
    · rw [(hold hj).1] at ho
      rw [(hold hj).2] at ha
      obtain hk | rfl := hcases hk
      · rw [(hold hk).1] at ho
        rw [(hold hk).2] at ha
        exact h.unique hj hk ho ha
      · rw [hop] at ho
        rw [hac] at ha
        exact absurd ha (hfind j hj ho)
    · rw [hop] at ho
      rw [hac] at ha
      obtain hk | rfl := hcases hk
      · rw [(hold hk).1] at ho
        rw [(hold hk).2] at ha
        exact absurd ha.symm (hfind k hk ho.symm)
      · rfl
  · obtain rfl | hk := List.mem_cons.mp hk
    · exact Nat.lt_succ_self _
    · exact Nat.lt_succ_of_lt (h.pending hk)
  · obtain hlt | heq := hcases hc
    · obtain ⟨done, hflow⟩ := h.flow hlt (fun hf => hp (List.mem_cons_of_mem _ hf))
      exact ⟨done, hflow.same (openConnection_same (Nat.ne_of_lt hlt))⟩
    · rw [heq] at hp
      exact absurd List.mem_cons_self hp
  · obtain rfl | hk := List.mem_cons.mp hk
    · refine ⟨?_, ?_, ?_, ?_⟩
      · simp [Order.openConnection, sender, peer, Sender.stream, Sender.handshake]
      · rw [Order.openConnection]
        dsimp only
        rw [Function.update_of_ne (by simp)]
        exact hunused.1
      · rw [Order.openConnection]
        dsimp only
        rw [Function.update_of_ne (by simp)]
        exact hunused.2
      · simp [Order.openConnection, sender, peer, newConnection, Sender.connection]
    · exact (h.waiting hk).same fun side => openConnection_same (Nat.ne_of_lt (h.pending hk))
  · have hc' : s.next ≤ c.1 := Nat.le_of_succ_le hc
    have hsame : Same s (Order.openConnection s n dest m) c :=
      openConnection_same (Nat.ne_of_gt hc)
    rw [hsame.wire, hsame.carried]
    exact h.unused hc'
  · by_cases hcn : c = (s.next, false)
    · subst hcn
      simp only [Order.openConnection, Function.update_self, List.mem_singleton] at hm'
      exact hm' ▸ hm
    · have hcar : (Order.openConnection s n dest m).carried c = s.carried c :=
        Function.update_of_ne hcn _ _
      rw [hcar] at hm'
      exact h.fits c m' hm'
  · obtain hk | rfl := hcases hk
    · rw [(openConnection_same (c := (k, false)) (Nat.ne_of_lt hk)).carried]
      exact h.first hk
    · simp [Order.openConnection]

end

section

variable {k : Nat}

theorem handleNewConnection_same (hc : c.1 ≠ k) : Same s (handleNewConnection s k) c := by
  have hne : ∀ side, c ≠ (k, side) := fun side hf => hc (congrArg Prod.fst hf)
  exact ⟨rfl, rfl, Function.update_of_ne (hne true) _ _, rfl, Function.update_of_ne (hne false) _ _⟩

theorem mem_handleNewConnection {n : Address} :
    c ∈ (handleNewConnection s k).connections n ↔
      c ∈ s.connections n ∨ (n = s.acceptor k ∧ c = (k, false)) := by
  by_cases hn : n = s.acceptor k
  · subst hn
    simp [handleNewConnection]
  · simp [handleNewConnection, hn]

theorem mem_pending_accept {j : Nat} :
    j ∈ (handleNewConnection s k).pending ↔ j ∈ s.pending ∧ j ≠ k := by
  simp [handleNewConnection]

/-- Both ends begin to read. -/
theorem Inv.flow_accept (h : Inv s) (hk : k ∈ s.pending) (side : Bool) :
    Flow (handleNewConnection s k) (k, side) [] := by
  have hwait := h.waiting hk
  cases side with
  | false =>
    have hw : (handleNewConnection s k).wire (k, false) = s.wire (k, false) :=
      Function.update_of_ne (by simp) _ _
    have hc : (handleNewConnection s k).conn (k, false) =
        (sender s (k, false)).opening (peer s (k, false)).ip [] := Function.update_self _ _ _
    refine ⟨s.carried (k, false), rfl, ?_⟩
    rw [hw, hc]
    exact .welcome (by decide) hwait.wire
  | true =>
    have hw : (handleNewConnection s k).wire (k, true) = welcomeMessage :=
      Function.update_self _ _ _
    have hc : (handleNewConnection s k).conn (k, true) =
        (sender s (k, true)).opening (peer s (k, true)).ip [] :=
      (Function.update_of_ne (by simp) _ _).trans hwait.conn
    refine ⟨[], hwait.carried.symm, ?_⟩
    rw [hw, hc]
    refine .welcome (by decide) ?_
    rw [Sender.stream, List.flatMap_nil, List.append_nil, List.nil_append]
    rfl

theorem Inv.handleNewConnection (h : Inv s) (hk : k ∈ s.pending) :
    Inv (handleNewConnection s k) := by
  have hnot : (k, false) ∉ s.connections (s.acceptor k) := fun hf => (h.mem hf).2.2 rfl hk
  refine ⟨fun {n c} hc => ?_, fun n => ?_, fun {j} hj => ?_, h.ne, h.unique,
    fun {j} hj => h.pending (mem_pending_accept.mp hj).1, fun {c} hc hp => ?_, fun {j} hj => ?_,
    fun {c} hc => ?_, h.fits, h.first⟩
  · obtain hc | ⟨rfl, rfl⟩ := mem_handleNewConnection.mp hc
    · obtain ⟨hlt, hown, hp⟩ := h.mem hc
      exact ⟨hlt, hown, fun hf hpend => hp hf (mem_pending_accept.mp hpend).1⟩
    · exact ⟨h.pending hk, rfl, fun _ hpend => (mem_pending_accept.mp hpend).2 rfl⟩
  · by_cases hn : n = s.acceptor k
    · subst hn
      simp only [Order.handleNewConnection, Function.update_self]
      refine List.nodup_append.mpr ⟨h.nodup _, List.nodup_singleton _, ?_⟩
      intro c hc c' hc' heq
      rw [List.mem_singleton] at hc'
      exact hnot (hc' ▸ heq ▸ hc)
    · simp only [Order.handleNewConnection, Function.update_of_ne hn]
      exact h.nodup n
  · exact mem_handleNewConnection.mpr (.inl (h.opened hj))
  · by_cases hck : c.1 = k
    · obtain ⟨k', side⟩ := c
      obtain rfl : k' = k := hck
      exact ⟨[], h.flow_accept hk side⟩
    · obtain ⟨done, hflow⟩ := h.flow hc (fun hf => hp (mem_pending_accept.mpr ⟨hf, hck⟩))
      exact ⟨done, hflow.same (handleNewConnection_same hck)⟩
  · obtain ⟨hj, hjk⟩ := mem_pending_accept.mp hj
    exact (h.waiting hj).same fun side => handleNewConnection_same hjk
  · have hck : c.1 ≠ k := by
      rintro rfl
      exact absurd (h.pending hk) (Nat.not_lt.mpr hc)
    have hsame : Same s (Order.handleNewConnection s k) c := handleNewConnection_same hck
    rw [hsame.wire, hsame.carried]
    exact h.unused hc

end

section

variable {n : Address} {len : Nat}

theorem handleRead_same {c' : Conn} (hc : c' ≠ c) : Same s (handleRead s n c len) c' :=
  ⟨rfl, rfl, Function.update_of_ne hc _ _, rfl, Function.update_of_ne hc _ _⟩

/-- Some of the messages that were sent to the end are delivered. -/
theorem Flow.read {done : List Message} (hf : Flow s c done) (hfits : ∀ m ∈ s.carried c, m.Fits)
    (n : Address) (len : Nat) :
    ∃ ms, (handleRead s n c len).got = Function.update s.got n
        (s.got n ++ ms.map (delivery (peer s c))) ∧
      Flow (handleRead s n c len) c (done ++ ms) := by
  obtain ⟨ms, hms, hexp⟩ := hf
  rw [← List.take_append_drop len (s.wire c)] at hexp
  have hfits' : ∀ m ∈ ms, m.Fits :=
    fun m hm => hfits m (hms ▸ List.mem_append_right done hm)
  obtain ⟨ms₁, ms₂, conn, hrun, rfl, hexp'⟩ := hexp.receive hfits'
  rw [sender_delivery] at hrun
  refine ⟨ms₁, ?_, ms₂, ?_, ?_⟩
  · simp only [handleRead, hrun]
  · rw [List.append_assoc]
    exact hms
  · have hc : (handleRead s n c len).conn c = conn := by
      simp only [handleRead, hrun, Function.update_self]
    have hw : (handleRead s n c len).wire c = (s.wire c).drop len := Function.update_self _ _ _
    rw [hc, hw]
    exact hexp'

/-- Bytes come only when the connection has been accepted. -/
theorem Inv.accepted_of_wire (h : Inv s) (hc : c ∈ s.connections n) (hw : s.wire c ≠ []) :
    c.1 ∉ s.pending := by
  intro hp
  obtain ⟨k, side⟩ := c
  cases side with
  | false => exact (h.mem hc).2.2 rfl hp
  | true => exact hw (h.waiting hp).back

theorem Inv.handleRead (h : Inv s) (hc : c ∈ s.connections n) (hw : s.wire c ≠ []) :
    Inv (handleRead s n c len) := by
  have hlt := (h.mem hc).1
  have hacc := h.accepted_of_wire hc hw
  refine ⟨h.mem, h.nodup, h.opened, h.ne, h.unique, h.pending, fun {c'} hc' hp => ?_,
    fun {j} hj => ?_, fun {c'} hc' => ?_, h.fits, h.first⟩
  · obtain ⟨done, hflow⟩ := h.flow hc' hp
    by_cases hcc : c' = c
    · subst hcc
      obtain ⟨ms, -, hflow'⟩ := hflow.read (h.fits c') n len
      exact ⟨done ++ ms, hflow'⟩
    · exact ⟨done, hflow.same (handleRead_same hcc)⟩
  · have hjc : ∀ side, (j, side) ≠ c := by
      rintro side rfl
      exact hacc hj
    exact (h.waiting hj).same fun side => handleRead_same (hjc side)
  · have hcc : c' ≠ c := by
      rintro rfl
      exact absurd hlt (Nat.not_lt.mpr hc')
    rw [(handleRead_same hcc).wire, (handleRead_same hcc).carried]
    exact h.unused hc'

end

/-! ## One direction between two nodes -/

theorem filter_delivery (a p : Address) (ms : List Message) :
    (ms.map (delivery p)).filter (isFrom a) = if p = a then ms.map (delivery a) else [] := by
  split
  · next hp =>
    subst hp
    refine List.filter_eq_self.mpr fun x hx => ?_
    obtain ⟨m, -, rfl⟩ := List.mem_map.mp hx
    simp [isFrom, delivery]
  · next hp =>
    refine List.filter_eq_nil_iff.mpr fun x hx => ?_
    obtain ⟨m, -, rfl⟩ := List.mem_map.mp hx
    simp only [isFrom, delivery, Bool.and_eq_true, decide_eq_true_eq]
    rintro ⟨hip, hport⟩
    cases p
    cases a
    cases hip
    cases hport
    exact hp rfl

theorem received_got {n p : Address} {ms : List Message} (a b : Address)
    (h : s'.got = Function.update s.got n (s.got n ++ ms.map (delivery p))) :
    received s' a b = received s a b ++ if n = b ∧ p = a then ms.map (delivery a) else [] := by
  by_cases hn : b = n
  · subst hn
    rw [received, received, h, Function.update_self, List.filter_append, filter_delivery]
    simp
  · rw [received, received, h, Function.update_of_ne hn, if_neg (fun hf => hn hf.1.symm),
      List.append_nil]

/-- The end of `b` that the messages of `a` go to, of which `done` have been delivered. -/
structure Carries (outgoing : Bool) (s : State) (a b : Address) (x : Conn) (done : List Message) :
    Prop where
  lt : x.1 < s.next
  peer : peer s x = a
  owner : owner s x = b
  carried : s.carried x = s.sent a b
  only : ∀ y, y.1 < s.next → Order.peer s y = a → Order.owner s y = b → y ≠ x → s.carried y = []
  /-- no connection before it will ever be taken for `b` -/
  first : ∃ pre post, s.connections a = pre ++ other x :: post ∧
    ∀ y ∈ pre, Order.peer s y ≠ b ∨ (outgoing = true ∧ y.2 = false)
  address : hasAddress s b (other x) = true
  out : outgoing = true → x.2 = false
  received : received s a b = done.map (delivery a)
  flow : x.1 ∉ s.pending → Flow s x done
  waits : x.1 ∈ s.pending → done = []

/-- Nothing has been sent. -/
structure Idle (s : State) (a b : Address) : Prop where
  sent : s.sent a b = []
  received : received s a b = []
  empty : ∀ y, y.1 < s.next → peer s y = a → owner s y = b → s.carried y = []

theorem Carries.find {outgoing : Bool} {a : Address} {x : Conn} {done : List Message}
    (hc : Carries outgoing s a b x done) (h : Inv s) :
    findConnection outgoing s a b = some (other x) := by
  obtain ⟨pre, post, hl, hpre⟩ := hc.first
  have hout : (!outgoing || (other x).2) = true := by
    cases outgoing with
    | false => rfl
    | true => simp [other, hc.out rfl]
  refine List.find?_eq_some_iff_append.mpr ⟨by rw [hc.address, hout]; rfl, pre, post, hl, ?_⟩
  intro y hy
  have hmem : y ∈ s.connections a := by
    rw [hl]
    exact List.mem_append_left _ hy
  obtain ⟨hlt, -, hp⟩ := h.mem hmem
  cases hadr : hasAddress s b y with
  | false => rfl
  | true =>
    obtain hne | ⟨ho, hf⟩ := hpre y hy
    · exact absurd ((h.hasAddress_iff hlt hp).mp hadr).1 hne
    · rw [ho, hf]
      rfl

theorem Carries.isPrefix {outgoing : Bool} {a : Address} {x : Conn} {done : List Message}
    (hc : Carries outgoing s a b x done) : done <+: s.sent a b := by
  by_cases hp : x.1 ∈ s.pending
  · rw [hc.waits hp]
    exact List.nil_prefix
  · obtain ⟨ms, hms, -⟩ := hc.flow hp
    rw [← hc.carried, ← hms]
    exact List.prefix_append done ms

/-- `a` has sent nothing to `b`, or all to one end. -/
def Pair (outgoing : Bool) (s : State) (a b : Address) : Prop :=
  Idle s a b ∨ ∃ x done, Carries outgoing s a b x done

/-- A step that adds nothing to what goes from `a` to `b`, and delivers nothing of it. -/
structure Frame (s s' : State) (a b : Address) : Prop where
  next : s.next ≤ s'.next
  owner : ∀ y : Conn, y.1 < s.next → owner s' y = owner s y
  peer : ∀ y : Conn, y.1 < s.next → peer s' y = peer s y
  sent : s'.sent a b = s.sent a b
  received : received s' a b = received s a b
  carried : ∀ y, y.1 < s'.next → Order.peer s' y = a → Order.owner s' y = b →
    s'.carried y = s.carried y
  connections : ∃ l, s'.connections a = s.connections a ++ l

section

variable {outgoing : Bool} {a : Address} {x : Conn} {done : List Message}

theorem Frame.empty (hf : Frame s s' a b) (h : Inv s) {p : Conn → Prop}
    (hn : ∀ y, y.1 < s.next → Order.peer s y = a → Order.owner s y = b → p y → s.carried y = [])
    (y : Conn) (hy : y.1 < s'.next) (hpeer : Order.peer s' y = a) (hown : Order.owner s' y = b)
    (hp : p y) : s'.carried y = [] := by
  rw [hf.carried y hy hpeer hown]
  by_cases hlt : y.1 < s.next
  · rw [hf.peer y hlt] at hpeer
    rw [hf.owner y hlt] at hown
    exact hn y hlt hpeer hown hp
  · exact (h.unused (Nat.le_of_not_lt hlt)).2

theorem Idle.frame (hi : Idle s a b) (h : Inv s) (hf : Frame s s' a b) : Idle s' a b where
  sent := hf.sent.trans hi.sent
  received := hf.received.trans hi.received
  empty := fun y hy hpeer hown =>
    hf.empty h (p := fun _ => True) (fun y hy hp ho _ => hi.empty y hy hp ho) y hy hpeer hown
      trivial

theorem Carries.frame (hc : Carries outgoing s a b x done) (h : Inv s) (hf : Frame s s' a b)
    (haddress : hasAddress s' b (other x) = true) (hflow : x.1 ∉ s'.pending → Flow s' x done)
    (hwaits : x.1 ∈ s'.pending → done = []) : Carries outgoing s' a b x done where
  lt := Nat.lt_of_lt_of_le hc.lt hf.next
  peer := (hf.peer x hc.lt).trans hc.peer
  owner := (hf.owner x hc.lt).trans hc.owner
  carried := by
    have hcar := hf.carried x (Nat.lt_of_lt_of_le hc.lt hf.next)
      ((hf.peer x hc.lt).trans hc.peer) ((hf.owner x hc.lt).trans hc.owner)
    rw [hcar, hf.sent, hc.carried]
  only := hf.empty h hc.only
  first := by
    obtain ⟨pre, post, hl, hpre⟩ := hc.first
    obtain ⟨l, hl'⟩ := hf.connections
    refine ⟨pre, post ++ l, by rw [hl', hl, List.append_assoc, List.cons_append], fun y hy => ?_⟩
    have hlt : y.1 < s.next := by
      refine (h.mem (n := a) ?_).1
      rw [hl]
      exact List.mem_append_left _ hy
    rw [hf.peer y hlt]
    exact hpre y hy
  address := haddress
  out := hc.out
  received := hf.received.trans hc.received
  flow := hflow
  waits := hwaits

/-! ### Sending -/

variable {n dest : Address} {m : Message}

theorem record_self (s : State) (a b : Address) (m : Message) :
    record s a b m a b = s.sent a b ++ [m] := by
  simp [record]

theorem record_ne (hne : ¬ (n = a ∧ dest = b)) : record s n dest m a b = s.sent a b := by
  by_cases hn : a = n
  · subst hn
    have hd : b ≠ dest := fun hf => hne ⟨rfl, hf.symm⟩
    simp [record, Function.update_of_ne hd]
  · simp [record, Function.update_of_ne hn]

theorem Frame.here (hab : a ≠ b) (hsent : record s n n m a b = s.sent a b) :
    Frame s
      { s with
        sent := record s n n m
        got := Function.update s.got n (s.got n ++ [delivery n m]) } a b where
  next := Nat.le_refl _
  owner := fun _ _ => rfl
  peer := fun _ _ => rfl
  sent := hsent
  received := by
    have hgot : Function.update s.got n (s.got n ++ [delivery n m]) =
        Function.update s.got n (s.got n ++ [m].map (delivery n)) := rfl
    have hne : ¬ (n = b ∧ n = a) := fun hf => hab (hf.2.symm.trans hf.1)
    rw [received_got a b hgot, if_neg hne, List.append_nil]
  carried := fun _ _ _ _ => rfl
  connections := ⟨[], (List.append_nil _).symm⟩

theorem Frame.append {c : Conn} (hown : Order.owner s c = n) (hpeer : Order.peer s c = dest)
    (hne : ¬ (n = a ∧ dest = b)) :
    Frame s (appendTo { s with sent := record s n dest m } c m) a b where
  next := Nat.le_refl _
  owner := fun _ _ => rfl
  peer := fun _ _ => rfl
  sent := record_ne hne
  received := rfl
  carried := by
    intro y _ hp ho
    refine appendTo_carried_ne m fun hy => hne ?_
    subst hy
    have hp' : Order.peer s (other c) = a := hp
    have ho' : Order.owner s (other c) = b := ho
    rw [peer_other, hown] at hp'
    rw [owner_other, hpeer] at ho'
    exact ⟨hp', ho'⟩
  connections := ⟨[], (List.append_nil _).symm⟩

theorem Frame.open (hne : ¬ (n = a ∧ dest = b)) :
    Frame s (openConnection { s with sent := record s n dest m } n dest m) a b where
  next := Nat.le_succ _
  owner := fun y hy => (openConnection_same (m := m) (Nat.ne_of_lt hy)).history.owner
  peer := fun y hy => (openConnection_same (m := m) (Nat.ne_of_lt hy)).history.peer
  sent := record_ne hne
  received := rfl
  carried := by
    intro y _ hp ho
    refine Function.update_of_ne (fun hy => hne ?_) _ _
    subst hy
    have hnew := openConnection_new { s with sent := record s n dest m } n dest m
    exact ⟨hnew.1.symm.trans hp, hnew.2.symm.trans ho⟩
  connections := by
    by_cases hn : a = n
    · subst hn
      exact ⟨[(s.next, true)], Function.update_self _ _ _⟩
    · exact ⟨[], (Function.update_of_ne hn _ _).trans (List.append_nil _).symm⟩

/-- A message from another node, or to another one. -/
theorem Pair.send_ne {out : Bool} (hp : Pair outgoing s a b) (h : Inv s) (hab : a ≠ b)
    (hne : ¬ (n = a ∧ dest = b)) : Pair outgoing (nodeSend out s n dest m) a b := by
  unfold nodeSend
  dsimp only
  split
  · next hnd =>
    subst hnd
    have hf := Frame.here (s := s) (n := n) (m := m) hab (record_ne hne)
    obtain hi | ⟨x, done, hc⟩ := hp
    · exact .inl (hi.frame h hf)
    · exact .inr ⟨x, done, hc.frame h hf hc.address hc.flow hc.waits⟩
  split
  · next c hfind =>
    obtain ⟨-, hown, hpeer, -⟩ := find_spec h hfind
    have hf := Frame.append (m := m) hown hpeer hne
    obtain hi | ⟨x, done, hc⟩ := hp
    · exact .inl (hi.frame h hf)
    · refine .inr ⟨x, done, hc.frame h hf hc.address (fun hx => ?_) hc.waits⟩
      have hxc : x ≠ other c := by
        rintro rfl
        have hpx := hc.peer
        have hox := hc.owner
        rw [peer_other, hown] at hpx
        rw [owner_other, hpeer] at hox
        exact hne ⟨hpx, hox⟩
      exact Flow.append_ne (s := { s with sent := record s n dest m }) (hc.flow hx) hxc
  · have hf := Frame.open (s := s) (m := m) hne
    obtain hi | ⟨x, done, hc⟩ := hp
    · exact .inl (hi.frame h hf)
    · have hx := Nat.ne_of_lt hc.lt
      have hsame : ∀ c : Conn, c.1 ≠ s.next →
          Same s (openConnection { s with sent := record s n dest m } n dest m) c := fun c hc =>
        Same.history (s := s) (openConnection_same (s := { s with sent := record s n dest m }) hc)
      refine .inr ⟨x, done, hc.frame h hf ?_ (fun hx' => ?_) (fun hx' => ?_)⟩
      · exact (hsame (other x) hx).hasAddress.trans hc.address
      · exact (hc.flow fun hmem => hx' (List.mem_cons_of_mem _ hmem)).same (hsame x hx)
      · obtain hx' | hx' := List.mem_cons.mp hx'
        · exact absurd hx' hx
        · exact hc.waits hx'

/-- The condition on a step: `a` opens no connection to `b` while one that it has accepted from `b`
waits for its handshake, unless it only uses those that it has opened. -/
def Careful (outgoing : Bool) (s : State) (a b : Address) : Event → Prop
  | .send n dest _ _ =>
    n = a → dest = b → a ≠ b → findConnection outgoing s a b = none →
      outgoing = true ∨ ∀ c ∈ s.connections a, c.2 = false → s.opener c.1 = b → 0 ≤ (s.conn c).port
  | .accept _ => True
  | .read _ _ _ => True

/-- The first message takes the connection that is there. -/
theorem Idle.append {c : Conn} (hi : Idle s a b) (h : Inv s)
    (hfind : findConnection outgoing s a b = some c) :
    Carries outgoing (appendTo { s with sent := record s a b m } c m) a b (other c) [] := by
  obtain ⟨hmem, hown, hpeer, haddr, hout⟩ := find_spec h hfind
  obtain ⟨hlt, -, hpend⟩ := h.mem hmem
  -- `a` has not opened it, as the one who opens sends
  have hacc : c.2 = false := by
    cases hc : c.2 with
    | false => rfl
    | true =>
      have hoth : other c = (c.1, false) := by simp [other, hc]
      have hnil := hi.empty (other c) hlt (by rw [peer_other, hown]) (by rw [owner_other, hpeer])
      rw [hoth] at hnil
      exact absurd hnil (h.first hlt)
  have hopen : s.opener c.1 = b ∧ s.acceptor c.1 = a := by
    rw [peer, hacc] at hpeer
    rw [owner, hacc] at hown
    exact ⟨hpeer, hown⟩
  obtain ⟨-, pre, post, hl, hpre⟩ := List.find?_eq_some_iff_append.mp hfind
  refine ⟨hlt, ?_, ?_, ?_, fun y hy hyp hyo hne => ?_, ⟨pre, post, ?_, fun y hy => ?_⟩, ?_,
    fun ho => ?_, hi.received, fun _ => ?_, fun hf => rfl⟩
  · exact (peer_other s c).trans hown
  · exact (owner_other s c).trans hpeer
  · have hnil := hi.empty (other c) hlt (by rw [peer_other, hown]) (by rw [owner_other, hpeer])
    have hsent : (appendTo { s with sent := record s a b m } c m).sent a b = [m] := by
      have hrec := record_self s a b m
      rw [hi.sent] at hrec
      exact hrec
    rw [appendTo_carried, hsent]
    dsimp only
    rw [hnil, List.nil_append]
  · rw [appendTo_carried_ne m hne]
    exact hi.empty y hy hyp hyo
  · rw [other_other]
    exact hl
  · refine .inl fun hyb => ?_
    have hyb' : peer s y = b := hyb
    have hymem : y ∈ s.connections a := by
      rw [hl]
      exact List.mem_append_left _ hy
    obtain ⟨hylt, hyown, -⟩ := h.mem hymem
    cases hside : y.2 with
    | true =>
      have hcond := hpre y hy
      rw [h.hasAddress_opened hylt hside hyb', hside] at hcond
      simp at hcond
    | false =>
      -- it would be the same TCP connection
      rw [peer, hside] at hyb'
      rw [owner, hside] at hyown
      have hk : y.1 = c.1 :=
        h.unique hylt hlt (hyb'.trans hopen.1.symm) (hyown.trans hopen.2.symm)
      have hyc : y = c := Prod.ext hk (hside.trans hacc.symm)
      have hnd := h.nodup a
      rw [hl] at hnd
      exact (List.nodup_append.mp hnd).2.2 y hy c List.mem_cons_self hyc
  · rw [other_other]
    exact haddr
  · exact absurd (hout ho) (by rw [hacc]; decide)
  · have hp : c.1 ∉ s.pending := hpend hacc
    obtain ⟨done, ms, hms, hexp⟩ := h.flow (c := other c) hlt hp
    have hnil := hi.empty (other c) hlt (by rw [peer_other, hown]) (by rw [owner_other, hpeer])
    rw [hnil] at hms
    obtain ⟨rfl, rfl⟩ := List.append_eq_nil_iff.mp hms
    exact Flow.append (s := { s with sent := record s a b m }) ⟨[], hnil.symm, hexp⟩

/-- The first message opens a connection, which no other one in the list will ever replace. -/
theorem Idle.open (hi : Idle s a b) (h : Inv s)
    (hfind : findConnection outgoing s a b = none)
    (hcareful : outgoing = true ∨
      ∀ c ∈ s.connections a, c.2 = false → s.opener c.1 = b → 0 ≤ (s.conn c).port) :
    Carries outgoing (openConnection { s with sent := record s a b m } a b m) a b
      (s.next, false) [] := by
  have hsame : ∀ c : Conn, c.1 ≠ s.next →
      Same s (openConnection { s with sent := record s a b m } a b m) c := fun c hc =>
    Same.history (s := s) (openConnection_same (s := { s with sent := record s a b m }) hc)
  obtain ⟨hop, hac⟩ := openConnection_new { s with sent := record s a b m } a b m
  rw [findConnection, List.find?_eq_none] at hfind
  refine ⟨Nat.lt_succ_self _, hop, hac, ?_, fun y hy hyp hyo hne => ?_,
    ⟨s.connections a, [], Function.update_self _ _ _, fun y hy => ?_⟩, ?_, fun _ => rfl,
    hi.received, fun hp => absurd List.mem_cons_self hp, fun _ => rfl⟩
  · have hsent : (openConnection { s with sent := record s a b m } a b m).sent a b = [m] := by
      have hrec := record_self s a b m
      rw [hi.sent] at hrec
      exact hrec
    rw [hsent]
    exact Function.update_self _ _ _
  · by_cases hlt : y.1 < s.next
    · rw [(hsame y (Nat.ne_of_lt hlt)).peer] at hyp
      rw [(hsame y (Nat.ne_of_lt hlt)).owner] at hyo
      rw [(hsame y (Nat.ne_of_lt hlt)).carried]
      exact hi.empty y hlt hyp hyo
    · have hcar : (openConnection { s with sent := record s a b m } a b m).carried y =
          s.carried y := Function.update_of_ne hne _ _
      rw [hcar]
      exact (h.unused (Nat.le_of_not_lt hlt)).2
  · obtain ⟨hlt, hown, hp⟩ := h.mem hy
    rw [(hsame y (Nat.ne_of_lt hlt)).peer]
    by_cases hyb : peer s y = b
    · have hcond := hfind y hy
      cases hside : y.2 with
      | true =>
        rw [h.hasAddress_opened hlt hside hyb, hside] at hcond
        simp at hcond
      | false =>
        obtain ho | hport := hcareful
        · exact .inr ⟨ho, rfl⟩
        · have hopen : s.opener y.1 = b := by
            rw [peer, hside] at hyb
            exact hyb
          have haddr := (h.hasAddress_iff hlt hp).mpr ⟨hyb, hport y hy hside hopen⟩
          rw [haddr] at hcond
          cases hout : outgoing with
          | true => exact .inr ⟨rfl, rfl⟩
          | false => simp [hout] at hcond
    · exact .inl hyb
  · simp [hasAddress, other, openConnection, newConnection]

/-- Later messages follow the first. -/
theorem Carries.append (hc : Carries outgoing s a b x done) :
    Carries outgoing (appendTo { s with sent := record s a b m } (other x) m) a b x done := by
  have hoth : other (other x) = x := other_other x
  refine ⟨hc.lt, hc.peer, hc.owner, ?_, fun y hy hyp hyo hne => ?_, hc.first, hc.address, hc.out,
    hc.received, fun hp => ?_, hc.waits⟩
  · have hcar := appendTo_carried (s := { s with sent := record s a b m }) (c := other x) m
    rw [hoth] at hcar
    rw [hcar]
    dsimp only
    rw [hc.carried]
    exact (record_self s a b m).symm
  · rw [appendTo_carried_ne m (by rw [hoth]; exact hne)]
    exact hc.only y hy hyp hyo hne
  · have hflow : Flow { s with sent := record s a b m } (other (other x)) done := by
      rw [hoth]
      exact hc.flow hp
    have happ := hflow.append (m := m)
    rw [hoth] at happ
    exact happ

theorem Pair.send_self (hp : Pair outgoing s a b) (h : Inv s) (hab : a ≠ b)
    (hcareful : findConnection outgoing s a b = none → outgoing = true ∨
      ∀ c ∈ s.connections a, c.2 = false → s.opener c.1 = b → 0 ≤ (s.conn c).port) :
    Pair outgoing (nodeSend outgoing s a b m) a b := by
  unfold nodeSend
  dsimp only
  rw [if_neg hab]
  split
  · next c hfind =>
    obtain hi | ⟨x, done, hc⟩ := hp
    · exact .inr ⟨other c, [], hi.append h hfind⟩
    · have hfind' := hc.find h
      rw [findConnection] at hfind'
      cases hfind.symm.trans hfind'
      exact .inr ⟨x, done, hc.append⟩
  · next hfind =>
    obtain hi | ⟨x, done, hc⟩ := hp
    · exact .inr ⟨_, [], hi.open h hfind (hcareful hfind)⟩
    · have hfind' := hc.find h
      cases hfind.symm.trans hfind'

/-! ### The other steps -/

theorem Frame.accept (k : Nat) : Frame s (handleNewConnection s k) a b where
  next := Nat.le_refl _
  owner := fun _ _ => rfl
  peer := fun _ _ => rfl
  sent := rfl
  received := rfl
  carried := fun _ _ _ _ => rfl
  connections := by
    by_cases hn : a = s.acceptor k
    · subst hn
      exact ⟨[(k, false)], Function.update_self _ _ _⟩
    · exact ⟨[], (Function.update_of_ne hn _ _).trans (List.append_nil _).symm⟩

theorem Pair.accept {k : Nat} (hp : Pair outgoing s a b) (h : Inv s) (hk : k ∈ s.pending) :
    Pair outgoing (handleNewConnection s k) a b := by
  obtain hi | ⟨x, done, hc⟩ := hp
  · exact .inl (hi.frame h (Frame.accept k))
  · refine .inr ⟨x, done, hc.frame h (Frame.accept k) ?_ (fun hx => ?_)
      (fun hx => hc.waits (mem_pending_accept.mp hx).1)⟩
    · -- the end of `a` is in its list, so it is not the one that is added
      obtain ⟨pre, post, hl, -⟩ := hc.first
      have hmem : other x ∈ s.connections a := by
        rw [hl]
        exact List.mem_append_right _ List.mem_cons_self
      have hne : other x ≠ (k, false) := by
        intro heq
        rw [heq] at hmem
        exact (h.mem hmem).2.2 rfl hk
      have hconn : (handleNewConnection s k).conn (other x) = s.conn (other x) :=
        Function.update_of_ne hne _ _
      rw [hasAddress, hconn]
      exact hc.address
    · by_cases hxk : x.1 = k
      · have hwaits : done = [] := hc.waits (hxk ▸ hk)
        obtain ⟨k', side⟩ := x
        obtain rfl : k' = k := hxk
        rw [hwaits]
        exact h.flow_accept hk side
      · exact (hc.flow fun hmem => hx (mem_pending_accept.mpr ⟨hmem, hxk⟩)).same
          (handleNewConnection_same hxk)

theorem Frame.read {c : Conn} {len : Nat}
    (hrec : Order.received (handleRead s n c len) a b = Order.received s a b) :
    Frame s (handleRead s n c len) a b where
  next := Nat.le_refl _
  owner := fun _ _ => rfl
  peer := fun _ _ => rfl
  sent := rfl
  received := hrec
  carried := fun _ _ _ _ => rfl
  connections := ⟨[], (List.append_nil _).symm⟩

/-- An end that carries nothing delivers nothing. -/
theorem received_of_empty {c : Conn} (len : Nat) (h : Inv s) (hc : c ∈ s.connections n)
    (hw : s.wire c ≠ []) (hempty : n = b → peer s c = a → s.carried c = []) :
    received (handleRead s n c len) a b = received s a b := by
  obtain ⟨hlt, hown, -⟩ := h.mem hc
  obtain ⟨done, hflow⟩ := h.flow hlt (h.accepted_of_wire hc hw)
  obtain ⟨ms, hgot, ms', hms, -⟩ := hflow.read (h.fits c) n len
  rw [received_got a b hgot]
  split
  · next hcond =>
    have hcar : (handleRead s n c len).carried c = [] := hempty hcond.1 hcond.2
    rw [hcar] at hms
    have hnil := (List.append_eq_nil_iff.mp (List.append_eq_nil_iff.mp hms).1).2
    rw [hnil, List.map_nil, List.append_nil]
  · rw [List.append_nil]

theorem Pair.read {c : Conn} {len : Nat} (hp : Pair outgoing s a b) (h : Inv s)
    (hc : c ∈ s.connections n) (hw : s.wire c ≠ []) :
    Pair outgoing (handleRead s n c len) a b := by
  obtain ⟨hlt, hown, hpend⟩ := h.mem hc
  obtain hi | ⟨x, done, hcar⟩ := hp
  · have hrec := received_of_empty len h hc hw fun hn hpa =>
      hi.empty c hlt hpa (hown.trans hn)
    exact .inl (hi.frame h (Frame.read hrec))
  -- a connection that has the address keeps it
  have hadr : hasAddress (handleRead s n c len) b (other x) = true := by
    have hcond := hcar.address
    by_cases hcx : other x = c
    · rw [hcx] at hcond ⊢
      have hpos := ((h.hasAddress_iff hlt hpend).mp hcond).2
      obtain ⟨hip, hport⟩ := receive_address hpos ((s.wire c).take len)
      have hconn : (handleRead s n c len).conn c = (receive (s.conn c) ((s.wire c).take len)).1 :=
        Function.update_self _ _ _
      rw [hasAddress, hconn, hip, hport]
      exact hcond
    · rw [(handleRead_same hcx).hasAddress]
      exact hcond
  by_cases hcx : c = x
  · subst hcx
    have hacc := h.accepted_of_wire hc hw
    obtain ⟨ms, hgot, hflow⟩ := (hcar.flow hacc).read (h.fits c) n len
    refine .inr ⟨c, done ++ ms, hcar.lt, hcar.peer, hcar.owner, hcar.carried, hcar.only, hcar.first,
      hadr, hcar.out, ?_, fun _ => hflow, fun hf => absurd hf hacc⟩
    rw [received_got a b hgot, if_pos ⟨hown.symm.trans hcar.owner, hcar.peer⟩, hcar.received,
      List.map_append]
  · have hrec := received_of_empty len h hc hw fun hn hpa =>
      hcar.only c hlt hpa (hown.trans hn) hcx
    refine .inr ⟨x, done, hcar.frame h (Frame.read hrec) hadr (fun hx => ?_) hcar.waits⟩
    exact (hcar.flow hx).same (handleRead_same (Ne.symm hcx))

theorem step_inv {out : Address → Bool} (h : Inv s) (ev : Event) : Inv (step out s ev) := by
  cases ev with
  | send n dest m hm =>
    rw [step, nodeSend]
    dsimp only
    have h' : Inv { s with sent := record s n dest m } := h.history _ s.got
    split
    · exact h'.history _ _
    next hnd =>
    split
    · next c hfind => exact h'.appendTo (find_spec h hfind).1 hm
    · next hfind =>
      refine h'.openConnection hnd (fun k hk ho ha => ?_) hm
      refine h.find_of_opened (out n) hk ?_
      have ho' : s.opener k = n := ho
      have ha' : s.acceptor k = dest := ha
      rw [ho', ha']
      exact hfind
  | accept k =>
    rw [step]
    split
    · next hk => exact h.handleNewConnection hk
    · exact h
  | read n c len =>
    rw [step]
    split
    · next hcond => exact h.handleRead hcond.1 hcond.2.2
    · exact h

theorem step_pair {out : Address → Bool} {ev : Event} (hp : Pair (out a) s a b) (h : Inv s)
    (hab : a ≠ b) (hcareful : Careful (out a) s a b ev) : Pair (out a) (step out s ev) a b := by
  cases ev with
  | send n dest m hm =>
    rw [step]
    by_cases hne : n = a ∧ dest = b
    · obtain ⟨rfl, rfl⟩ := hne
      exact hp.send_self h hab (hcareful rfl rfl hab)
    · exact hp.send_ne h hab hne
  | accept k =>
    rw [step]
    split
    · next hk => exact hp.accept h hk
    · exact hp
  | read n c len =>
    rw [step]
    split
    · next hcond => exact hp.read h hcond.1 hcond.2.2
    · exact hp

theorem start_inv : Inv start := by
  refine ⟨fun hc => absurd hc List.not_mem_nil, fun _ => List.nodup_nil,
    fun hk => absurd hk (Nat.not_lt_zero _), fun hk => absurd hk (Nat.not_lt_zero _),
    fun hj => absurd hj (Nat.not_lt_zero _), fun hk => absurd hk List.not_mem_nil,
    fun hc => absurd hc (Nat.not_lt_zero _), fun hk => absurd hk List.not_mem_nil,
    fun _ => ⟨rfl, rfl⟩, fun _ _ hm => absurd hm List.not_mem_nil,
    fun hk => absurd hk (Nat.not_lt_zero _)⟩

end

end

/-! ## Runs -/

def run (out : Address → Bool) (evs : List Event) : State := evs.foldl (step out) start

/-- The states of runs in which each step is careful with what `a` sends to `b`. -/
inductive CarefulRun (out : Address → Bool) (a b : Address) : State → Prop
  | start : CarefulRun out a b start
  | step {s : State} (ev : Event) : CarefulRun out a b s → Careful (out a) s a b ev →
    CarefulRun out a b (step out s ev)

section

variable {out : Address → Bool} {a b : Address} {s : State}

theorem CarefulRun.inv (h : CarefulRun out a b s) : Inv s ∧ (a ≠ b → Pair (out a) s a b) := by
  induction h with
  | start => exact ⟨start_inv, fun _ => .inl ⟨rfl, rfl, fun y hy => absurd hy (Nat.not_lt_zero _)⟩⟩
  | step ev _ hcareful ih =>
    exact ⟨step_inv ih.1 ev, fun hab => step_pair (ih.2 hab) ih.1 hab hcareful⟩

/-- Messages to the node itself are handled at once. -/
theorem received_self (h : Inv s) (hrec : received s a a = (s.sent a a).map (delivery a))
    (ev : Event) :
    received (step out s ev) a a = ((step out s ev).sent a a).map (delivery a) := by
  cases ev with
  | send n dest m hm =>
    rw [step]
    by_cases hne : n = a ∧ dest = a
    · obtain ⟨rfl, rfl⟩ := hne
      have hgot : (nodeSend (out dest) s dest dest m).got =
          Function.update s.got dest (s.got dest ++ [m].map (delivery dest)) := by
        simp [nodeSend]
      have hsent : (nodeSend (out dest) s dest dest m).sent dest dest =
          s.sent dest dest ++ [m] := by
        simp [nodeSend, record_self]
      rw [received_got dest dest hgot, hsent, List.map_append, hrec, if_pos ⟨rfl, rfl⟩]
    · have hsent : (nodeSend (out n) s n dest m).sent a a = s.sent a a := by
        unfold nodeSend
        dsimp only
        split
        · exact record_ne hne
        split <;> exact record_ne hne
      have hgot : received (nodeSend (out n) s n dest m) a a = received s a a := by
        unfold nodeSend
        dsimp only
        split
        · next hnd =>
          have hn : a ≠ n := fun hf => hne ⟨hf.symm, hnd ▸ hf.symm⟩
          rw [received, received]
          dsimp only
          rw [Function.update_of_ne hn]
        split <;> rfl
      rw [hgot, hsent, hrec]
  | accept k =>
    rw [step]
    split
    · exact hrec
    · exact hrec
  | read n c len =>
    rw [step]
    split
    · next hcond =>
      obtain ⟨hlt, hown, -⟩ := h.mem hcond.1
      have hempty : n = a → peer s c = a → s.carried c = [] := by
        -- the two ends are at different nodes
        intro hn hp
        have hne := h.ne hlt
        rw [hn] at hown
        unfold owner at hown
        unfold peer at hp
        cases hside : c.2 with
        | false =>
          rw [hside] at hown hp
          exact absurd (hp.trans hown.symm) hne
        | true =>
          rw [hside] at hown hp
          exact absurd (hown.trans hp.symm) hne
      rw [received_of_empty len h hcond.1 hcond.2.2 hempty]
      exact hrec
    · exact hrec

/-- The messages of `a` arrive at `b` in the order in which they were sent. -/
theorem received_prefix (h : CarefulRun out a b s) :
    received s a b <+: (s.sent a b).map (delivery a) := by
  by_cases hab : a = b
  · subst hab
    have hrec : received s a a = (s.sent a a).map (delivery a) := by
      induction h with
      | start => rfl
      | step ev hrun _ ih => exact received_self hrun.inv.1 ih ev
    rw [hrec]
  · obtain hi | ⟨x, done, hc⟩ := h.inv.2 hab
    · rw [hi.received]
      exact List.nil_prefix
    · rw [hc.received]
      exact hc.isPrefix.map (delivery a)

end

def nodeA : Address := ⟨1, 6879⟩

def nodeB : Address := ⟨2, 6879⟩

/-- A message with no data. -/
def signal (tag : UInt32) : Message := ⟨5, 5, tag, 0, []⟩

theorem signal_fits (tag : UInt32) : (signal tag).Fits := by
  rw [Message.Fits, signal, List.length_nil]
  decide

/-- Two messages are sent, the second on the connection of the first, and read when it has been
accepted. -/
def twoSends : List Event :=
  [.send nodeA nodeB (signal 1) (signal_fits 1), .send nodeA nodeB (signal 2) (signal_fits 2),
    .accept 0, .read nodeB (0, false) 1000]

theorem received_prefix_twoSends :
    received (run (fun _ => false) twoSends) nodeA nodeB =
        [delivery nodeA (signal 1), delivery nodeA (signal 2)] ∧
      received (run (fun _ => false) twoSends) nodeA nodeB <+:
        ((run (fun _ => false) twoSends).sent nodeA nodeB).map (delivery nodeA) := by
  have hfirst : CarefulRun (fun _ => false) nodeA nodeB (run (fun _ => false)
      [.send nodeA nodeB (signal 1) (signal_fits 1)]) := by
    refine CarefulRun.step (.send nodeA nodeB (signal 1) (signal_fits 1)) .start ?_
    intro _ _ _ _
    exact .inr fun c hc => absurd hc List.not_mem_nil
  have hsecond : CarefulRun (fun _ => false) nodeA nodeB (run (fun _ => false)
      [.send nodeA nodeB (signal 1) (signal_fits 1),
        .send nodeA nodeB (signal 2) (signal_fits 2)]) := by
    refine CarefulRun.step (.send nodeA nodeB (signal 2) (signal_fits 2)) hfirst ?_
    intro _ _ _ hnone
    exact absurd hnone (by decide +kernel)
  have haccepted := CarefulRun.step (.accept 0) hsecond trivial
  have hrun : CarefulRun (fun _ => false) nodeA nodeB (run (fun _ => false) twoSends) :=
    CarefulRun.step (.read nodeB (0, false) 1000) haccepted trivial
  exact ⟨by decide +kernel, received_prefix hrun⟩

/-- Node `A` opens a connection to `B`, and `B` one to `A` before it has read the handshake. Its
second message then takes the first connection, and overtakes the first message. -/
theorem received_out_of_order :
    ¬ ∀ (evs : List Event) (a b : Address), received (run (fun _ => false) evs) a b <+:
      ((run (fun _ => false) evs).sent a b).map (delivery a) := by
  intro h
  have hpre := h [.send nodeA nodeB (signal 1) (signal_fits 1), .accept 0,
    .send nodeB nodeA (signal 2) (signal_fits 2), .read nodeB (0, false) 1000,
    .send nodeB nodeA (signal 3) (signal_fits 3), .read nodeA (0, true) 1000] nodeB nodeA
  revert hpre
  decide +kernel

end Order
end Network
end NReduce
