import Mathlib.Data.List.Basic
import Mathlib.Logic.Function.Basic
import Mathlib.Logic.Relation
import Mathlib.Algebra.Group.Nat.Defs

/-!
# NReduce.Runtime.Chord

The ring of the nodes (`chord.c`): a node that joins asks an accepted node for its place
(FIND_SUCCESSOR), is told a predecessor and a successor (INSERT), and asks the predecessor to take
it as the successor (SET_NEXT). The predecessor accepts it, or sends it another INSERT.

No node fails here, so the links between the nodes and `chord_endpoint_exit` are left out, with the
messages to the caller and GET_TABLE, which change nothing. A handler returns the assertion that
fails, if any. The messages in flight and in the mailboxes are one list, and the next message to be
handled is any of them.
-/

namespace NReduce
namespace Runtime
namespace Chord

def mbits : Nat := 8

def keyspace : Nat := 2 ^ mbits

def nsuccessors : Nat := mbits

/-- `chordnode`. The null node has no endpoint. -/
structure Chordnode (E : Type) where
  id : Nat
  epid : Option E
  deriving DecidableEq

def Chordnode.null {E : Type} : Chordnode E := ⟨0, none⟩

/-- `chordnode_isnull` -/
def Chordnode.isnull {E : Type} (n : Chordnode E) : Bool := n.epid.isNone

inductive Msg (E : Type) where
  | findSuccessor (id : Nat) (sender : E) (hops payload : Nat)
  | gotSuccessor (successor : Chordnode E) (hops payload : Nat)
  | insert (predecessor : Option E) (successor : Chordnode E)
  | setNext (newSuccessor oldSuccessor : Chordnode E)
  | getSucclist (sender : E)
  | replySucclist (sender : E) (successors : List (Chordnode E))
  deriving DecidableEq

/-- `chord`. The fingers and successors are counted from 1. -/
structure Chord (E : Type) where
  initial : Option E
  id : Nat
  epid : E
  fingers : Nat → Chordnode E
  successors : List (Chordnode E)

/-- The function with an assertion that fails. A message has to have a destination as well. -/
inductive Assertion where
  | findSuccessor
  | gotSuccessor
  | setNext
  | send
  deriving DecidableEq

section

variable {E : Type} [DecidableEq E]

/-- A message with its destination. -/
abbrev Packet (E : Type) := E × Msg E

abbrev Handler (E : Type) := Except Assertion (Chord E × List (Packet E))

namespace Chord

def self (crd : Chord E) : Chordnode E := ⟨crd.id, some crd.epid⟩

def successor (crd : Chord E) : Chordnode E := crd.fingers 1

/-- `set_finger` -/
def setFinger (crd : Chord E) (i : Nat) (n : Chordnode E) : Chord E :=
  { crd with fingers := Function.update crd.fingers i n }

/-- `set_successor` -/
def setSuccessor (crd : Chord E) (n : Chordnode E) : Chord E := crd.setFinger 1 n

/-- `chord_clear_tables` -/
def clearTables (crd : Chord E) : Chord E :=
  { crd with fingers := fun _ => .null, successors := List.replicate nsuccessors .null }

end Chord

/-- `inrange_open` -/
def inrangeOpen (val min max : Nat) : Bool :=
  if min < max then min < val && val < max else min < val || val < max

/-- `inrange_open_closed` -/
def inrangeOpenClosed (val min max : Nat) : Bool :=
  if min < max then min < val && val ≤ max else min < val || val ≤ max

/-- The loop of `closest_preceding_finger`, from finger `findex` down. -/
def closestFrom (crd : Chord E) (id : Nat) : Nat → Chordnode E
  | 0 => crd.self
  | findex + 1 =>
    if !(crd.fingers (findex + 1)).isnull &&
        inrangeOpen (crd.fingers (findex + 1)).id crd.id id then
      crd.fingers (findex + 1)
    else closestFrom crd id findex

/-- `closest_preceding_finger` -/
def closestPrecedingFinger (crd : Chord E) (id : Nat) : Chordnode E := closestFrom crd id mbits

/-- `endpoint_send`, as the last thing that a handler does -/
def endpointSend (crd : Chord E) (dest : Option E) (m : Msg E) : Handler E :=
  match dest with
  | none => .error .send
  | some d => .ok (crd, [(d, m)])

/-- `chord_join` -/
def chordJoin (crd : Chord E) : Chord E × List (Packet E) :=
  let crd := crd.clearTables
  match crd.initial with
  | none => (crd.setSuccessor crd.self, [])
  | some initial => (crd, [(initial, .findSuccessor crd.id crd.epid 0 1)])

/-- `chord_find_successor` -/
def chordFindSuccessor (crd : Chord E) (id : Nat) (sender : E) (hops payload : Nat) : Handler E :=
  if crd.successor.isnull then .error .findSuccessor
  else if inrangeOpenClosed id crd.id crd.successor.id then
    if payload = 1 then .ok (crd, [(sender, .insert (some crd.epid) crd.successor)])
    else .ok (crd, [(sender, .gotSuccessor crd.successor hops payload)])
  else
    endpointSend crd (closestPrecedingFinger crd id).epid
      (.findSuccessor id sender (hops + 1) payload)

/-- `duplicate_detected` -/
def duplicateDetected (crd : Chord E) (rand : Nat) : Chord E × List (Packet E) :=
  chordJoin { crd with id := rand % keyspace }

/-- `chord_insert` -/
def chordInsert (crd : Chord E) (rand : Nat) (predecessor : Option E) (successor : Chordnode E) :
    Handler E :=
  if successor.id = crd.id then .ok (duplicateDetected crd rand)
  else endpointSend (crd.setSuccessor successor) predecessor (.setNext crd.self successor)

/-- `chord_set_next` -/
def chordSetNext (crd : Chord E) (newSuccessor oldSuccessor : Chordnode E) : Handler E :=
  if oldSuccessor.epid ≠ crd.successor.epid then
    if oldSuccessor.id = crd.successor.id ∨ newSuccessor.id = crd.id then .error .setNext
    else if inrangeOpenClosed newSuccessor.id crd.id crd.successor.id then
      endpointSend crd newSuccessor.epid (.insert (some crd.epid) crd.successor)
    else endpointSend crd newSuccessor.epid (.insert crd.successor.epid oldSuccessor)
  else if oldSuccessor.id ≠ crd.successor.id then .error .setNext
  else .ok (crd.setSuccessor newSuccessor, [])

/-- `chord_get_succlist` -/
def chordGetSucclist (crd : Chord E) (sender : E) : Handler E :=
  .ok (crd, [(sender, .replySucclist crd.epid (crd.successor :: crd.successors.dropLast))])

/-- `chord_reply_succlist` -/
def chordReplySucclist (crd : Chord E) (sender : E) (successors : List (Chordnode E)) : Handler E :=
  if crd.successor.epid = some sender then .ok ({ crd with successors := successors }, [])
  else .ok (crd, [])

/-- `chord_got_successor` -/
def chordGotSuccessor (crd : Chord E) (successor : Chordnode E) (payload : Nat) : Handler E :=
  if 1 < payload ∧ successor.isnull = false ∧
      (successor.id ≠ crd.id ∨ successor.epid = some crd.epid) then
    .ok (crd.setFinger payload successor, [])
  else .error .gotSuccessor

/-- `chord_stabilize` -/
def chordStabilize (crd : Chord E) (rand : Nat) : Handler E :=
  let k := 2 + rand % (mbits - 2)
  match crd.successor.epid with
  -- still joining
  | none => .ok (crd, [])
  | some e =>
    .ok (crd, [(e, .getSucclist crd.epid),
      (crd.epid, .findSuccessor (crd.id + 2 ^ (k - 1)) crd.epid 0 k)])

/-- The messages of `chord_thread`. -/
def handle (crd : Chord E) (rand : Nat) : Msg E → Handler E
  | .findSuccessor id sender hops payload => chordFindSuccessor crd id sender hops payload
  | .gotSuccessor successor _ payload => chordGotSuccessor crd successor payload
  | .insert predecessor successor => chordInsert crd rand predecessor successor
  | .setNext newSuccessor oldSuccessor => chordSetNext crd newSuccessor oldSuccessor
  | .getSucclist sender => chordGetSucclist crd sender
  | .replySucclist sender successors => chordReplySucclist crd sender successors

/-! ## The nodes -/

structure State (E : Type) where
  node : E → Option (Chord E)
  /-- in flight or in a mailbox -/
  msgs : List (Packet E)
  /-- the nodes that have been taken as successor by their predecessor, and the first one -/
  accepted : List E

/-- The node that is accepted when `m` is handled. -/
def newlyAccepted (crd : Chord E) : Msg E → List E
  | .setNext newSuccessor oldSuccessor =>
    if oldSuccessor.epid = crd.successor.epid then newSuccessor.epid.toList else []
  | _ => []

inductive Event (E : Type) where
  /-- `chord_thread` starts, with a node to join through -/
  | start (e : E) (rand : Nat) (initial : E)
  /-- the message at a place of the list is handled -/
  | deliver (i : Nat) (rand : Nat)
  /-- a STABILIZE message is handled -/
  | stabilize (e : E) (rand : Nat)

/-- What `e` does with a handler's result. -/
def finish (s : State E) (e : E) (rest : List (Packet E)) (accepted : List E) :
    Handler E → Except Assertion (State E)
  | .error f => .error f
  | .ok (crd, sent) =>
    .ok ⟨Function.update s.node e (some crd), rest ++ sent, accepted ++ s.accepted⟩

/-- A new node, which has not joined. -/
def fresh (e : E) (rand : Nat) (initial : Option E) : Chord E :=
  ⟨initial, rand % keyspace, e, fun _ => .null, List.replicate nsuccessors .null⟩

/-- An event that is not possible changes nothing. -/
def step (s : State E) : Event E → Except Assertion (State E)
  | .start e rand initial =>
    if s.node e = none ∧ initial ∈ s.accepted then
      finish s e s.msgs [] (.ok (chordJoin (fresh e rand (some initial))))
    else .ok s
  | .deliver i rand =>
    match s.msgs[i]? with
    | none => .ok s
    | some (e, m) =>
      match s.node e with
      | none => .ok { s with msgs := s.msgs.eraseIdx i }
      | some crd => finish s e (s.msgs.eraseIdx i) (newlyAccepted crd m) (handle crd rand m)
  | .stabilize e rand =>
    match s.node e with
    | none => .ok s
    | some crd => finish s e s.msgs [] (chordStabilize crd rand)

/-- The first node is alone. -/
def first (e : E) (rand : Nat) : State E :=
  ⟨Function.update (fun _ => none) e (some (chordJoin (fresh e rand none)).1), [], [e]⟩

end

end Chord
end Runtime
end NReduce
