import NReduce.Network.Framing
import Mathlib.Data.List.Nodup
import Mathlib.Logic.Function.Basic
import Mathlib.Logic.Relation

/-!
# NReduce.Runtime.Java

The thread that passes commands to the Java virtual machine (`java.c`). Commands and answers are
lines on a connection, and an answer belongs to the oldest command in a queue.

* `Javath` and its handlers, one for each kind of message.
* `System`: the thread with the I/O thread, the connections and the JVM at their other ends. The thread
  does not wait for WRITE_RESPONSE, so a request may come while the one before it is not done, and
  then an assertion of the I/O thread fails.
* `proper_of_careful`: each command gets its own answer or an error, in every run in which no failure
  leaves something behind for the next connection and no `sendbuf` is full.
-/

namespace NReduce
namespace Runtime
namespace Java

open Network (Endpointid)

def newline : UInt8 := 10

/-- `jcmd_msg`, with its source. -/
structure Jcmd where
  source : Endpointid
  ioid : Nat
  oneway : Bool
  cmd : List UInt8
  deriving DecidableEq

/-- An entry of the queue. `number` says which JCMD message it is for; the source does not have it. -/
structure Javacmd where
  number : Nat
  ioid : Nat
  oneway : Bool
  epid : Endpointid
  deriving DecidableEq

structure Javath where
  jconnected : Bool
  jconnecting : Bool
  jsendbuf : List UInt8
  jcmds : List Javacmd
  jcon : Nat
  jresponse : List UInt8
  deriving DecidableEq

/-- `jcmd_response_msg`, with its destination. -/
structure Response where
  number : Nat
  epid : Endpointid
  ioid : Nat
  error : Bool
  data : List UInt8
  deriving DecidableEq

/-- The messages that the thread sends. -/
inductive Output where
  | connect
  | write (sockid : Nat) (data : List UInt8)
  | read (sockid : Nat)
  | response (r : Response)
  deriving DecidableEq

def sendJcmdResponse (jc : Javacmd) (error : Bool) (data : List UInt8) : Output :=
  .response ⟨jc.number, jc.epid, jc.ioid, error, data⟩

def sendJavaCommands (jth : Javath) : Javath × List Output :=
  if 0 < jth.jsendbuf.length then ({ jth with jsendbuf := [] }, [.write jth.jcon jth.jsendbuf])
  else (jth, [])

def sendJavaErrors (jth : Javath) : Javath × List Output :=
  ({ jth with jcmds := [], jconnected := false, jconnecting := false },
    jth.jcmds.map (sendJcmdResponse · true []))

/-- The connection, if there was no error. -/
def javaConnectResponse (jth : Javath) : Option Nat → Javath × List Output
  | none => sendJavaErrors { jth with jconnecting := false }
  | some sockid =>
    let jth := { jth with jconnecting := false, jcon := sockid, jconnected := true }
    let (jth, out) := sendJavaCommands jth
    (jth, out ++ [.read jth.jcon])

def javaConnectionClosed (jth : Javath) : Javath × List Output := sendJavaErrors jth

/-- The loop over the bytes of the answers; `line` is what has been read since the last newline. -/
def takeLines : List UInt8 → List UInt8 → List Javacmd →
    Option (List Output × List Javacmd × List UInt8)
  | line, [], cmds => some ([], cmds, line)
  | line, b :: rest, cmds =>
    if b = newline then
      match cmds with
      | [] => none
      | jc :: cmds => do
        let (out, cmds, left) ← takeLines [] rest cmds
        return ((if jc.oneway then out else sendJcmdResponse jc false line :: out), cmds, left)
    else takeLines (line ++ [b]) rest cmds

/-- `none`: an assertion fails. -/
def javaReadResponse (jth : Javath) (data : List UInt8) : Option (Javath × List Output) :=
  if data.length = 0 then some (sendJavaErrors jth)
  else do
    let (out, cmds, left) ← takeLines [] (jth.jresponse ++ data) jth.jcmds
    return ({ jth with jcmds := cmds, jresponse := left }, out ++ [.read jth.jcon])

def javaJcmd (jth : Javath) (number : Nat) (m : Jcmd) : Javath × List Output :=
  let jth := { jth with
    jsendbuf := jth.jsendbuf ++ m.cmd ++ [newline]
    jcmds := jth.jcmds ++ [⟨number, m.ioid, m.oneway, m.source⟩] }
  if ¬ jth.jconnected ∧ ¬ jth.jconnecting then ({ jth with jconnecting := true }, [.connect])
  else if jth.jconnected then sendJavaCommands jth
  else (jth, [])

/-! ## The system -/

/-- `DEFAULT_IOSIZE` -/
def iosize : Nat := 65536

/-- A connection of the I/O thread, with the JVM at its other end. -/
structure Conn where
  /-- the text of the WRITE requests -/
  written : List UInt8 := []
  /-- the commands whose text this is -/
  lines : List Nat := []
  /-- how much of the text is in `sendbuf` -/
  buffered : Nat := 0
  /-- the answers of the JVM, one for each line -/
  answers : List (List UInt8) := []
  /-- what the thread has got of them -/
  delivered : List UInt8 := []
  /-- there is a READ request, or its READ_RESPONSE is in the mailbox -/
  reading : Bool := false
  /-- `frameids[WRITE_FRAMEADDR]` is set -/
  writing : Bool := false
  /-- nothing more is read -/
  ended : Bool := false
  /-- `connhash_lookup` finds the connection -/
  opened : Bool := false
  /-- CONNECTION_CLOSED is in the mailbox -/
  notice : Bool := false

/-- What the JVM has got. -/
def Conn.received (k : Conn) : List UInt8 := k.written.take (k.written.length - k.buffered)

def Conn.output (k : Conn) : List UInt8 := k.answers.flatMap (· ++ [newline])

/-- The thread has got the answers up to that to line `j`. -/
def Conn.Gets (k : Conn) (j : Nat) : Prop :=
  (k.answers.take (j + 1)).flatMap (· ++ [newline]) <+: k.delivered

structure System where
  jth : Javath
  /-- the JCMD messages that the thread has handled -/
  issued : List Jcmd
  /-- the commands whose text is in `jsendbuf` -/
  unsent : List Nat
  /-- CONNECT requests without a response -/
  attempts : Nat
  conns : Nat → Conn
  nconns : Nat
  responses : List Response

namespace System

def setConn (s : System) (c : Nat) (k : Conn) : System :=
  { s with conns := Function.update s.conns c k }

/-- The I/O thread, or a task, gets a message of the thread: `iothread_write` and `iothread_read`. A
request for a connection that is gone is ignored. `none`: an assertion fails. -/
def send (s : System) : Output → Option System
  | .connect => some { s with attempts := s.attempts + 1 }
  | .write c data =>
    let k := s.conns c
    if k.opened then
      if k.writing then none
      else
        let buffered := k.buffered + data.length
        some { s.setConn c { k with
            written := k.written ++ data
            lines := k.lines ++ s.unsent
            buffered := buffered
            writing := decide (iosize ≤ buffered) } with
          unsent := [] }
    else some { s with unsent := [] }
  | .read c =>
    let k := s.conns c
    if k.opened then
      if k.reading || k.ended then none else some (s.setConn c { k with reading := true })
    else some s
  | .response r => some { s with responses := s.responses ++ [r] }

/-- The thread has handled a message. -/
def handled (s : System) (r : Javath × List Output) : Option System :=
  r.2.foldlM send { s with jth := r.1 }

end System

/-- What happens next. The messages to the thread wait in its mailbox; they are handled in the order
in which they come, so an event of the I/O thread is there when the thread handles it. -/
inductive Event where
  | jcmd (m : Jcmd)
  /-- CONNECT_RESPONSE -/
  | connected
  | refused
  /-- `handle_write` and `notify_write`: the next bytes of a connection go to the JVM -/
  | wrote (c count : Nat)
  /-- the JVM answers the next line of a connection -/
  | answer (c : Nat) (line : List UInt8)
  /-- READ_RESPONSE, with some bytes -/
  | data (c : Nat) (chunk : List UInt8)
  /-- READ_RESPONSE at the end of the stream -/
  | eof (c : Nat)
  /-- the I/O thread removes a connection -/
  | lost (c : Nat)
  /-- CONNECTION_CLOSED -/
  | closed (c : Nat)

/-- An event that can happen. The JVM answers lines that it has got, and what is read are its answers. -/
def Enabled (s : System) : Event → Prop
  | .jcmd _ => True
  | .connected => 0 < s.attempts
  | .refused => 0 < s.attempts
  | .wrote c count => c < s.nconns ∧ (s.conns c).opened ∧ count ≤ (s.conns c).buffered
  | .answer c line => c < s.nconns ∧
    (s.conns c).answers.length < (s.conns c).received.count newline ∧ newline ∉ line
  | .data c chunk => c < s.nconns ∧ (s.conns c).reading ∧ chunk ≠ [] ∧
    (s.conns c).delivered ++ chunk <+: (s.conns c).output
  | .eof c => c < s.nconns ∧ (s.conns c).reading
  | .lost c => c < s.nconns ∧ (s.conns c).opened
  | .closed c => c < s.nconns ∧ (s.conns c).notice

instance (s : System) : (e : Event) → Decidable (Enabled s e)
  | .jcmd _ => inferInstanceAs (Decidable True)
  | .connected | .refused => inferInstanceAs (Decidable (_ < _))
  | .wrote .. | .answer .. | .data .. | .eof _ | .lost _ | .closed _ =>
    inferInstanceAs (Decidable (_ ∧ _))

/-- `none`: an assertion fails. -/
def step (s : System) : Event → Option System
  | .jcmd m =>
    System.handled { s with
      issued := s.issued ++ [m]
      unsent := s.unsent ++ [s.issued.length] } (javaJcmd s.jth s.issued.length m)
  | .connected =>
    System.handled { s with
      attempts := s.attempts - 1
      conns := Function.update s.conns s.nconns { opened := true }
      nconns := s.nconns + 1 } (javaConnectResponse s.jth (some s.nconns))
  | .refused => System.handled { s with attempts := s.attempts - 1 } (javaConnectResponse s.jth none)
  | .wrote c count =>
    let k := s.conns c
    let buffered := k.buffered - count
    some (s.setConn c { k with
      buffered := buffered, writing := k.writing && decide (iosize ≤ buffered) })
  | .answer c line =>
    let k := s.conns c
    some (s.setConn c { k with answers := k.answers ++ [line] })
  | .data c chunk => do
    let k := s.conns c
    let r ← javaReadResponse s.jth chunk
    System.handled (s.setConn c { k with delivered := k.delivered ++ chunk, reading := false }) r
  | .eof c => do
    let r ← javaReadResponse s.jth []
    System.handled (s.setConn c { s.conns c with reading := false, ended := true }) r
  | .lost c => some (s.setConn c { s.conns c with opened := false, notice := true })
  | .closed c =>
    System.handled (s.setConn c { s.conns c with reading := false, notice := false })
      (javaConnectionClosed s.jth)

def start : System where
  jth := ⟨false, false, [], [], 0, []⟩
  issued := []
  unsent := []
  attempts := 0
  conns _ := {}
  nconns := 0
  responses := []

/-- Each command has its answer: a response goes to the task that sent a two-way command, is an error
or the answer of the JVM to the line of this command, and is the only one; a two-way command without
a response is in the queue, and one whose answer the thread has got has the response. -/
structure Proper (s : System) : Prop where
  twoway : ∀ r ∈ s.responses, ∃ m, s.issued[r.number]? = some m ∧ m.oneway = false ∧
    r.epid = m.source ∧ r.ioid = m.ioid
  once : (s.responses.map Response.number).Nodup
  pending : ∀ k m, s.issued[k]? = some m → m.oneway = false →
    (k ∈ s.responses.map Response.number ↔ k ∉ s.jth.jcmds.map Javacmd.number)
  answer : ∀ r ∈ s.responses, r.error = false → ∃ (c j : Nat), c < s.nconns ∧
    (s.conns c).lines[j]? = some r.number ∧ (s.conns c).answers[j]? = some r.data
  delivered : ∀ (c j i : Nat) (a : List UInt8) (m : Jcmd), (s.conns c).lines[j]? = some i →
    (s.conns c).answers[j]? = some a → (s.conns c).Gets j → s.issued[i]? = some m →
    m.oneway = false →
    ⟨i, m.source, m.ioid, false, a⟩ ∈ s.responses

/-- The connection `c` is the one in use and no command in the queue is one-way, or there is neither a
connection nor an attempt. -/
def EndsCurrent (s : System) (c : Nat) : Prop :=
  (s.jth.jconnected ∧ s.jth.jcon = c ∧ ∀ jc ∈ s.jth.jcmds, jc.oneway = false) ∨
    (¬ s.jth.jconnected ∧ ¬ s.jth.jconnecting)

instance (s : System) (c : Nat) : Decidable (EndsCurrent s c) := inferInstanceAs (Decidable (_ ∨ _))

/-- A step that leaves nothing behind for the next connection, and writes on a connection only when
its `sendbuf` is not full. -/
def Careful (s : System) : Event → Prop
  | .jcmd m => newline ∉ m.cmd ∧ (s.jth.jconnected → (s.conns s.jth.jcon).opened →
    (s.conns s.jth.jcon).buffered < iosize)
  | .connected => s.unsent = s.jth.jcmds.map Javacmd.number ∧ s.jth.jresponse = []
  | .refused => ∀ jc ∈ s.jth.jcmds, jc.oneway = false
  | .eof c => EndsCurrent s c
  | .closed c => EndsCurrent s c
  | _ => True

instance (s : System) : (e : Event) → Decidable (Careful s e)
  | .jcmd _ | .connected => inferInstanceAs (Decidable (_ ∧ _))
  | .refused => inferInstanceAs (Decidable (∀ jc ∈ s.jth.jcmds, jc.oneway = false))
  | .eof c | .closed c => inferInstanceAs (Decidable (EndsCurrent s c))
  | .wrote .. | .answer .. | .data .. | .lost _ => inferInstanceAs (Decidable True)

/-! ## Lines -/

theorem takeLines_append {line l rest : List UInt8} {cmds : List Javacmd} (hl : newline ∉ l) :
    takeLines line (l ++ rest) cmds = takeLines (line ++ l) rest cmds := by
  induction l generalizing line with
  | nil => rw [List.nil_append, List.append_nil]
  | cons b l ih =>
    have hb : b ≠ newline := fun hb => hl (hb ▸ List.mem_cons_self)
    have hstep : takeLines line (b :: (l ++ rest)) cmds =
        takeLines (line ++ [b]) (l ++ rest) cmds := by
      cases cmds <;> rw [takeLines, if_neg hb]
    rw [List.cons_append, hstep, ih (fun hmem => hl (List.mem_cons_of_mem b hmem)), List.append_assoc,
      List.singleton_append]

/-- The responses to the commands `cmds`, with the answers `as`. -/
def answersFor (cmds : List Javacmd) (as : List (List UInt8)) : List Response :=
  (cmds.zip as).filterMap fun x =>
    if x.1.oneway then none else some ⟨x.1.number, x.1.epid, x.1.ioid, false, x.2⟩

/-- A part of the answers `as` is cut at the newlines. -/
theorem takeLines_spec {as : List (List UInt8)} (has : ∀ a ∈ as, newline ∉ a) {buf : List UInt8}
    (hbuf : buf <+: as.flatMap (· ++ [newline])) {cmds : List Javacmd}
    (hlen : as.length ≤ cmds.length) :
    ∃ (e : Nat) (left : List UInt8), takeLines [] buf cmds =
        some ((answersFor (cmds.take e) (as.take e)).map .response, cmds.drop e, left) ∧
      e ≤ as.length ∧ buf = (as.take e).flatMap (· ++ [newline]) ++ left ∧ newline ∉ left := by
  induction as generalizing buf cmds with
  | nil =>
    obtain rfl := List.prefix_nil.mp hbuf
    exact ⟨0, [], rfl, le_rfl, rfl, List.not_mem_nil⟩
  | cons a as ih =>
    have ha : newline ∉ a := has a List.mem_cons_self
    rw [List.flatMap_cons] at hbuf
    have hpre : a ++ [newline] <+: (a ++ [newline]) ++ as.flatMap (· ++ [newline]) :=
      List.prefix_append _ _
    by_cases hle : buf.length ≤ a.length
    · -- not even the first answer is complete
      have hbuf' : buf <+: a := by
        apply List.prefix_of_prefix_length_le hbuf _ hle
        rw [List.append_assoc]
        exact List.prefix_append _ _
      have hnl : newline ∉ buf := fun hmem => ha (hbuf'.mem hmem)
      refine ⟨0, buf, ?_, Nat.zero_le _, rfl, hnl⟩
      have hrun := @takeLines_append [] buf [] cmds hnl
      rw [List.append_nil, List.nil_append] at hrun
      rw [hrun]
      rfl
    · obtain ⟨b, rfl⟩ := List.prefix_of_prefix_length_le hpre hbuf
        (by rw [List.length_append, List.length_singleton]; omega)
      rw [List.prefix_append_right_inj] at hbuf
      cases cmds with
      | nil => cases hlen
      | cons jc cmds =>
        obtain ⟨e, left, hrun, he, rfl, hleft⟩ :=
          ih (fun a' ha' => has a' (List.mem_cons_of_mem a ha')) hbuf (Nat.le_of_succ_le_succ hlen)
        refine ⟨e + 1, left, ?_, Nat.succ_le_succ he, ?_, hleft⟩
        · rw [List.append_assoc, takeLines_append ha, List.nil_append, List.singleton_append,
            takeLines, if_pos rfl]
          simp only [hrun, Option.bind_eq_bind, Option.bind_some, List.take_succ_cons,
            List.drop_succ_cons, answersFor, List.zip_cons_cons]
          cases hone : jc.oneway with
          | true =>
            rw [List.filterMap_cons_none (by simp only [hone, if_true])]
            rfl
          | false =>
            rw [List.filterMap_cons_some (b := ⟨jc.number, jc.epid, jc.ioid, false, a⟩)
              (by simp only [hone]; rfl)]
            rfl
        · rw [List.take_succ_cons, List.flatMap_cons, List.append_assoc (a ++ [newline])]

theorem mem_answersFor {cmds : List Javacmd} {as : List (List UInt8)} {r : Response}
    (hr : r ∈ answersFor cmds as) : ∃ (i : Nat) (jc : Javacmd), cmds[i]? = some jc ∧
      as[i]? = some r.data ∧ jc.oneway = false ∧ r = ⟨jc.number, jc.epid, jc.ioid, false, r.data⟩ := by
  obtain ⟨⟨jc, a⟩, hmem, heq⟩ := List.mem_filterMap.mp hr
  obtain ⟨i, hi⟩ := List.mem_iff_getElem?.mp hmem
  obtain ⟨h1, h2⟩ := List.getElem?_zip_eq_some.mp hi
  cases hone : jc.oneway with
  | true => simp [hone] at heq
  | false =>
    simp only [hone, Bool.false_eq_true, if_false, Option.some.injEq] at heq
    subst heq
    exact ⟨i, jc, h1, h2, hone, rfl⟩

theorem answersFor_sublist (cmds : List Javacmd) (as : List (List UInt8)) :
    List.Sublist ((answersFor cmds as).map Response.number) (cmds.map Javacmd.number) := by
  induction cmds generalizing as with
  | nil => exact List.nil_sublist _
  | cons jc cmds ih =>
    cases as with
    | nil => exact List.nil_sublist _
    | cons a as =>
      have hrest := ih as
      simp only [answersFor, List.zip_cons_cons] at hrest ⊢
      cases hone : jc.oneway with
      | true =>
        rw [List.filterMap_cons_none (by simp only [hone, if_true])]
        exact hrest.cons _
      | false =>
        rw [List.filterMap_cons_some (b := ⟨jc.number, jc.epid, jc.ioid, false, a⟩)
          (by simp only [hone]; rfl)]
        exact hrest.cons_cons _

theorem answersFor_mem {cmds : List Javacmd} {as : List (List UInt8)} {i : Nat} {jc : Javacmd}
    {a : List UInt8} (hjc : cmds[i]? = some jc) (ha : as[i]? = some a) (hone : jc.oneway = false) :
    ⟨jc.number, jc.epid, jc.ioid, false, a⟩ ∈ answersFor cmds as := by
  refine List.mem_filterMap.mpr ⟨(jc, a), ?_, by simp [hone]⟩
  exact List.mem_iff_getElem?.mpr ⟨i, List.getElem?_zip_eq_some.mpr ⟨hjc, ha⟩⟩

theorem number_mem_answersFor {cmds : List Javacmd} {as : List (List UInt8)} {jc : Javacmd}
    (hlen : cmds.length ≤ as.length) (hjc : jc ∈ cmds) (hone : jc.oneway = false) :
    jc.number ∈ (answersFor cmds as).map Response.number := by
  obtain ⟨i, hi⟩ := List.mem_iff_getElem?.mp hjc
  have hlt : i < as.length := (List.getElem?_eq_some_iff.mp hi).1.trans_le hlen
  exact List.mem_map.mpr ⟨_, answersFor_mem hi (List.getElem?_eq_getElem hlt) hone, rfl⟩

/-- As many newlines as answers -/
theorem count_newline {as : List (List UInt8)} (has : ∀ a ∈ as, newline ∉ a) :
    (as.flatMap (· ++ [newline])).count newline = as.length := by
  induction as with
  | nil => rfl
  | cons a as ih =>
    rw [List.flatMap_cons, List.count_append, ih (fun b hb => has b (List.mem_cons_of_mem a hb)),
      List.count_append, List.count_eq_zero_of_not_mem (has a List.mem_cons_self), List.length_cons]
    exact Nat.add_comm 1 _

/-! ## The invariant -/

/-- The line of a command. -/
def lineOf (issued : List Jcmd) (k : Nat) : List UInt8 :=
  issued[k]?.elim [] Jcmd.cmd ++ [newline]

structure ConnOk (issued : List Jcmd) (k : Conn) : Prop where
  written : k.written = k.lines.flatMap (lineOf issued)
  known : ∀ i ∈ k.lines, i < issued.length
  answers_le : k.answers.length ≤ k.lines.length
  clean : ∀ a ∈ k.answers, newline ∉ a
  delivered : k.delivered <+: k.output
  writing : k.writing → iosize ≤ k.buffered
  reading : k.reading → k.ended = false

/-- A response belongs to a two-way command. -/
def System.Belongs (s : System) (r : Response) : Prop :=
  ∃ m, s.issued[r.number]? = some m ∧ m.oneway = false ∧ r.epid = m.source ∧ r.ioid = m.ioid

/-- A response is an error, or the answer to the line of its command. -/
def System.Answers (s : System) (r : Response) : Prop :=
  r.error = false → ∃ (c j : Nat), c < s.nconns ∧ (s.conns c).lines[j]? = some r.number ∧
    (s.conns c).answers[j]? = some r.data

/-- The answers that the thread has got on a connection are among the responses. -/
def Passed (issued : List Jcmd) (responses : List Response) (k : Conn) : Prop :=
  ∀ (j i : Nat) (a : List UInt8) (m : Jcmd), k.lines[j]? = some i → k.answers[j]? = some a →
    k.Gets j → issued[i]? = some m → m.oneway = false →
    ⟨i, m.source, m.ioid, false, a⟩ ∈ responses

/-- What holds whether or not there is a connection. -/
structure Base (s : System) : Prop where
  clean : ∀ m ∈ s.issued, newline ∉ m.cmd
  cmds : ∀ jc ∈ s.jth.jcmds, ∃ m, s.issued[jc.number]? = some m ∧ jc.oneway = m.oneway ∧
    jc.epid = m.source ∧ jc.ioid = m.ioid
  belongs : ∀ r ∈ s.responses, s.Belongs r
  answers : ∀ r ∈ s.responses, s.Answers r
  nodup : (s.responses.map Response.number ++ s.jth.jcmds.map Javacmd.number).Nodup
  all : ∀ k m, s.issued[k]? = some m → m.oneway = false →
    k ∈ s.responses.map Response.number ∨ k ∈ s.jth.jcmds.map Javacmd.number
  buf : s.jth.jsendbuf = s.unsent.flatMap (lineOf s.issued)
  unsent : ∀ k ∈ s.unsent, k < s.issued.length
  conns : ∀ c, ConnOk s.issued (s.conns c)
  passed : ∀ c, Passed s.issued s.responses (s.conns c)
  fresh : ∀ c, s.nconns ≤ c → s.conns c = {}

/-- The lines written on the connection are those of commands that are done with and of the first in
the queue; the other commands came when the connection was gone. The thread has got the answers to
the former and a part of the next. -/
structure Current (s : System) : Prop where
  lt : s.jth.jcon < s.nconns
  unsent : s.unsent = []
  attempts : s.attempts = 0
  done : ∃ l q₁ q₂, s.jth.jcmds = q₁ ++ q₂ ∧
    (s.conns s.jth.jcon).lines = l ++ q₁.map Javacmd.number ∧
    ((s.conns s.jth.jcon).opened → q₂ = []) ∧
    l.length ≤ (s.conns s.jth.jcon).answers.length ∧
    (s.conns s.jth.jcon).delivered =
      ((s.conns s.jth.jcon).answers.take l.length).flatMap (· ++ [newline]) ++ s.jth.jresponse
  response : newline ∉ s.jth.jresponse

structure Inv (s : System) : Prop where
  base : Base s
  reading : ∀ c, (s.conns c).reading → s.jth.jconnected ∧ s.jth.jcon = c
  current : s.jth.jconnected → s.jth.jconnecting = false ∧ Current s
  connecting : s.jth.jconnecting → s.attempts = 1
  idle : ¬ s.jth.jconnected → ¬ s.jth.jconnecting → s.attempts = 0 ∧ s.jth.jcmds = []

variable {s s' : System}

theorem Base.proper (h : Base s) : Proper s where
  twoway := h.belongs
  once := h.nodup.of_append_left
  pending k m hk hone := by
    constructor
    · exact fun h1 h2 => (List.nodup_append.mp h.nodup).2.2 k h1 k h2 rfl
    · exact fun hn => (h.all k m hk hone).resolve_right hn
  answer := h.answers
  delivered := h.passed

theorem foldlM_send_responses (s : System) (rs : List Response) :
    (rs.map Output.response).foldlM System.send s =
      some { s with responses := s.responses ++ rs } := by
  induction rs generalizing s with
  | nil =>
    rw [List.append_nil]
    rfl
  | cons r rs ih =>
    rw [List.map_cons, List.foldlM_cons, System.send, Option.bind_eq_bind, Option.bind_some, ih]
    simp only [List.append_assoc, List.singleton_append]

/-- The first commands of the queue get their responses. -/
theorem Base.respond {q₁ q₂ : List Javacmd} {rs : List Response} (h : Base s)
    (left : List UInt8) (hq : s.jth.jcmds = q₁ ++ q₂)
    (hsub : List.Sublist (rs.map Response.number) (q₁.map Javacmd.number))
    (hjc : ∀ r ∈ rs, ∃ jc ∈ q₁, jc.oneway = false ∧ r.number = jc.number ∧ r.epid = jc.epid ∧
      r.ioid = jc.ioid)
    (hall : ∀ jc ∈ q₁, jc.oneway = false → jc.number ∈ rs.map Response.number)
    (hans : ∀ r ∈ rs, s.Answers r) (b b' : Bool) :
    Base { s with
      jth := { s.jth with jcmds := q₂, jresponse := left, jconnected := b, jconnecting := b' }
      responses := s.responses ++ rs } where
  clean := h.clean
  cmds jc hmem := h.cmds jc (by rw [hq]; exact List.mem_append_right q₁ hmem)
  belongs r hr := by
    obtain hr | hr := List.mem_append.mp hr
    · exact h.belongs r hr
    · obtain ⟨jc, hmem, hone, hnum, hepid, hioid⟩ := hjc r hr
      obtain ⟨m, hm, h1, h2, h3⟩ := h.cmds jc (by rw [hq]; exact List.mem_append_left q₂ hmem)
      exact ⟨m, by rw [hnum]; exact hm, h1 ▸ hone, hepid.trans h2, hioid.trans h3⟩
  answers r hr := by
    obtain hr | hr := List.mem_append.mp hr
    · exact h.answers r hr
    · exact hans r hr
  nodup := by
    have hnd := h.nodup
    rw [hq, List.map_append, ← List.append_assoc] at hnd
    refine hnd.sublist ?_
    rw [List.map_append]
    exact ((List.Sublist.refl _).append hsub).append (List.Sublist.refl _)
  all k m hk hone := by
    rw [List.map_append, List.mem_append]
    obtain hk' | hk' := h.all k m hk hone
    · exact .inl (.inl hk')
    · obtain ⟨jc, hmem, rfl⟩ := List.mem_map.mp hk'
      rw [hq] at hmem
      obtain hmem | hmem := List.mem_append.mp hmem
      · obtain ⟨m', hm', h1, -⟩ := h.cmds jc (by rw [hq]; exact List.mem_append_left q₂ hmem)
        rw [hk] at hm'
        cases hm'
        exact .inl (.inr (hall jc hmem (h1.trans hone)))
      · exact .inr (List.mem_map_of_mem hmem)
  buf := h.buf
  unsent := h.unsent
  conns := h.conns
  passed c j i a m hl ha hg hm hone := List.mem_append_left rs (h.passed c j i a m hl ha hg hm hone)
  fresh := h.fresh

/-- The error responses to all commands in the queue -/
def System.errors (s : System) : List Response :=
  s.jth.jcmds.map (fun jc => ⟨jc.number, jc.epid, jc.ioid, true, []⟩)

/-- What is left after `send_java_errors` -/
def System.flushed (s : System) : System :=
  { s with
    jth := { s.jth with jcmds := [], jconnected := false, jconnecting := false }
    responses := s.responses ++ s.errors }

theorem handled_errors (s : System) : s.handled (sendJavaErrors s.jth) = some s.flushed := by
  have hmap : s.jth.jcmds.map (sendJcmdResponse · true []) = s.errors.map .response := by
    rw [System.errors, List.map_map]
    rfl
  rw [System.handled, sendJavaErrors, hmap, foldlM_send_responses]
  rfl

/-- `send_java_errors`, when all commands in the queue are two-way. -/
theorem Base.errors (h : Base s) (hone : ∀ jc ∈ s.jth.jcmds, jc.oneway = false) :
    Base s.flushed := by
  have hnum : s.errors.map Response.number = s.jth.jcmds.map Javacmd.number := by
    rw [System.errors, List.map_map]
    rfl
  apply h.respond s.jth.jresponse (List.append_nil _).symm (hnum ▸ List.Sublist.refl _)
  · intro r hr
    obtain ⟨jc, hmem, rfl⟩ := List.mem_map.mp hr
    exact ⟨jc, hmem, hone jc hmem, rfl, rfl, rfl⟩
  · intro jc hmem _
    rw [hnum]
    exact List.mem_map_of_mem hmem
  · intro r hr herr
    obtain ⟨jc, -, rfl⟩ := List.mem_map.mp hr
    cases herr

theorem lineOf_append {issued : List Jcmd} {k : Nat} (m : Jcmd) (hk : k < issued.length) :
    lineOf (issued ++ [m]) k = lineOf issued k := by
  rw [lineOf, lineOf, List.getElem?_append_left hk]

theorem lineOf_length (issued : List Jcmd) (m : Jcmd) :
    lineOf (issued ++ [m]) issued.length = m.cmd ++ [newline] := by
  rw [lineOf, List.getElem?_concat_length]
  rfl

theorem flatMap_lineOf_append {issued : List Jcmd} {l : List Nat} (m : Jcmd)
    (hl : ∀ k ∈ l, k < issued.length) :
    l.flatMap (lineOf (issued ++ [m])) = l.flatMap (lineOf issued) := by
  rw [List.flatMap_def, List.flatMap_def]
  congr 1
  exact List.map_congr_left fun k hk => lineOf_append m (hl k hk)

theorem ConnOk.issue {issued : List Jcmd} {k : Conn} (h : ConnOk issued k) (m : Jcmd) :
    ConnOk (issued ++ [m]) k where
  written := by rw [h.written, flatMap_lineOf_append m h.known]
  known i hi := (h.known i hi).trans_le (by rw [List.length_append]; exact Nat.le_add_right _ _)
  answers_le := h.answers_le
  clean := h.clean
  delivered := h.delivered
  writing := h.writing
  reading := h.reading

/-- The answers that the thread has got are whole lines of what has been delivered. -/
theorem ConnOk.lt_of_gets {issued : List Jcmd} {k : Conn} {j : Nat} (h : ConnOk issued k)
    (hj : j < k.answers.length) (hg : k.Gets j) : j < k.delivered.count newline := by
  have hclean : ∀ a ∈ k.answers.take (j + 1), newline ∉ a :=
    fun a ha => h.clean a (List.mem_of_mem_take ha)
  have hcount := count_newline hclean
  have hle := hg.sublist.count_le newline
  rw [hcount, List.length_take] at hle
  omega

/-- More lines and more answers, but nothing that is delivered. -/
theorem Passed.grow {issued : List Jcmd} {responses : List Response} {k k' : Conn}
    (h : Passed issued responses k) (hok : ConnOk issued k) (hok' : ConnOk issued k')
    (hl : k.lines <+: k'.lines) (ha : k.answers <+: k'.answers)
    (hd : k'.delivered = k.delivered) : Passed issued responses k' := by
  intro j i a m hi haj hg hm hone
  -- an answer that has been delivered has been there before
  have hlt : j < k.answers.length := by
    have h1 := hok'.lt_of_gets (List.getElem?_eq_some_iff.mp haj).1 hg
    rw [hd] at h1
    have h2 := hok.delivered.sublist.count_le newline
    rw [Conn.output, count_newline hok.clean] at h2
    exact h1.trans_le h2
  obtain ⟨t, ht⟩ := hl
  obtain ⟨u, hu⟩ := ha
  refine h j i a m ?_ ?_ ?_ hm hone
  · rw [← hi, ← ht, List.getElem?_append_left (hlt.trans_le hok.answers_le)]
  · rw [← haj, ← hu, List.getElem?_append_left hlt]
  · rw [Conn.Gets, ← hd]
    rwa [Conn.Gets, ← hu, List.take_append_of_le_length hlt] at hg

theorem Passed.issue {issued : List Jcmd} {responses : List Response} {k : Conn}
    (h : Passed issued responses k) (hok : ConnOk issued k) (m : Jcmd) :
    Passed (issued ++ [m]) responses k := by
  intro j i a m' hi ha hg hm hone
  rw [List.getElem?_append_left (hok.known i (List.mem_of_getElem? hi))] at hm
  exact h j i a m' hi ha hg hm hone

theorem System.Answers.grow {r : Response} (h : s.Answers r) (hn : s.nconns ≤ s'.nconns)
    (hl : ∀ c, (s.conns c).lines <+: (s'.conns c).lines)
    (ha : ∀ c, (s.conns c).answers <+: (s'.conns c).answers) : s'.Answers r := by
  intro herr
  obtain ⟨c, j, hc, h1, h2⟩ := h herr
  obtain ⟨t, ht⟩ := hl c
  obtain ⟨u, hu⟩ := ha c
  refine ⟨c, j, hc.trans_le hn, ?_, ?_⟩
  · rw [← ht, List.getElem?_append_left (List.getElem?_eq_some_iff.mp h1).1, h1]
  · rw [← hu, List.getElem?_append_left (List.getElem?_eq_some_iff.mp h2).1, h2]

/-- A new command is put in the queue and in the send buffer. -/
def System.queued (s : System) (m : Jcmd) : System :=
  { s with
    issued := s.issued ++ [m]
    unsent := s.unsent ++ [s.issued.length]
    jth := { s.jth with
      jsendbuf := s.jth.jsendbuf ++ m.cmd ++ [newline]
      jcmds := s.jth.jcmds ++ [⟨s.issued.length, m.ioid, m.oneway, m.source⟩] } }

/-- The other fields do not matter. -/
theorem Base.flags (h : Base s) (a : Nat) {jth : Javath} (hcmds : jth.jcmds = s.jth.jcmds)
    (hbuf : jth.jsendbuf = s.jth.jsendbuf) : Base { s with attempts := a, jth := jth } :=
  ⟨h.clean, fun jc hjc => h.cmds jc (hcmds ▸ hjc), h.belongs, h.answers, by rw [hcmds]; exact h.nodup,
    by rw [hcmds]; exact h.all, hbuf.trans h.buf, h.unsent, h.conns, h.passed, h.fresh⟩

theorem Base.queued (h : Base s) {m : Jcmd} (hm : newline ∉ m.cmd) : Base (s.queued m) := by
  have hold : ∀ {k : Nat} {m' : Jcmd}, s.issued[k]? = some m' →
      (s.issued ++ [m])[k]? = some m' := by
    intro k m' hk
    rw [List.getElem?_append_left (List.getElem?_eq_some_iff.mp hk).1, hk]
  have hlt : ∀ {k : Nat} {m' : Jcmd}, s.issued[k]? = some m' → k < s.issued.length :=
    fun hk => (List.getElem?_eq_some_iff.mp hk).1
  have hnew : (s.issued ++ [m])[s.issued.length]? = some m := List.getElem?_concat_length
  refine ⟨?_, ?_, ?_, h.answers, ?_, ?_, ?_, ?_, fun c => (h.conns c).issue m,
    fun c => (h.passed c).issue (h.conns c) m, h.fresh⟩
  · intro m' hm'
    obtain hm' | hm' := List.mem_append.mp hm'
    · exact h.clean m' hm'
    · rw [List.mem_singleton.mp hm']
      exact hm
  · intro jc hjc
    obtain hjc | hjc := List.mem_append.mp hjc
    · obtain ⟨m', hm', hrest⟩ := h.cmds jc hjc
      exact ⟨m', hold hm', hrest⟩
    · rw [List.mem_singleton.mp hjc]
      exact ⟨m, hnew, rfl, rfl, rfl⟩
  · intro r hr
    obtain ⟨m', hm', hrest⟩ := h.belongs r hr
    exact ⟨m', hold hm', hrest⟩
  · have hmap : (s.jth.jcmds ++ [(⟨s.issued.length, m.ioid, m.oneway, m.source⟩ : Javacmd)]).map
        Javacmd.number = s.jth.jcmds.map Javacmd.number ++ [s.issued.length] := List.map_append
    dsimp only [System.queued]
    rw [hmap, ← List.append_assoc, List.nodup_append]
    refine ⟨h.nodup, List.nodup_singleton _, fun k hk k' hk' heq => ?_⟩
    rw [List.mem_singleton.mp hk'] at heq
    -- all numbers so far are smaller
    obtain hk | hk := List.mem_append.mp hk
    · obtain ⟨r, hr, rfl⟩ := List.mem_map.mp hk
      obtain ⟨m', hm', -⟩ := h.belongs r hr
      exact absurd heq (hlt hm').ne
    · obtain ⟨jc, hjc, rfl⟩ := List.mem_map.mp hk
      obtain ⟨m', hm', -⟩ := h.cmds jc hjc
      exact absurd heq (hlt hm').ne
  · intro k m' hk hone
    dsimp only [System.queued] at hk ⊢
    rw [List.map_append, List.mem_append]
    by_cases hlt' : k < s.issued.length
    · rw [List.getElem?_append_left hlt'] at hk
      exact (h.all k m' hk hone).imp_right .inl
    · have hlen := (List.getElem?_eq_some_iff.mp hk).1
      rw [List.length_append, List.length_singleton] at hlen
      exact .inr (.inr (List.mem_singleton.mpr (by dsimp only; omega)))
  · dsimp only [System.queued]
    rw [List.flatMap_append, List.flatMap_singleton, flatMap_lineOf_append m h.unsent,
      lineOf_length, ← h.buf, List.append_assoc]
  · intro k hk
    dsimp only [System.queued]
    rw [List.length_append, List.length_singleton]
    obtain hk | hk := List.mem_append.mp hk
    · have := h.unsent k hk
      omega
    · rw [List.mem_singleton.mp hk]
      exact Nat.lt_succ_self _

/-- A connection only gets more lines and more answers. -/
theorem Base.setConn (h : Base s) {c n : Nat} (k : Conn) (hok : ConnOk s.issued k) (hc : c < n)
    (hn : s.nconns ≤ n) (hl : (s.conns c).lines <+: k.lines)
    (ha : (s.conns c).answers <+: k.answers) (hp : Passed s.issued s.responses k) (a : Nat)
    (jth : Javath) (hcmds : jth.jcmds = s.jth.jcmds) (hbuf : jth.jsendbuf = s.jth.jsendbuf) :
    Base { s with
      conns := Function.update s.conns c k, nconns := n, attempts := a, jth := jth } := by
  have hcase : ∀ d, Function.update s.conns c k d = s.conns d ∨
      d = c ∧ Function.update s.conns c k d = k := by
    intro d
    by_cases hd : d = c
    · subst hd
      exact .inr ⟨rfl, Function.update_self ..⟩
    · exact .inl (Function.update_of_ne hd ..)
  refine ⟨h.clean, fun jc hjc => h.cmds jc (hcmds ▸ hjc), h.belongs, fun r hr => ?_, ?_, ?_,
    hbuf.trans h.buf, h.unsent, fun d => ?_, fun d => ?_, fun d hd => ?_⟩
  · apply (h.answers r hr).grow hn
    · intro d
      dsimp only
      obtain heq | ⟨rfl, heq⟩ := hcase d
      · rw [heq]
      · rw [heq]
        exact hl
    · intro d
      dsimp only
      obtain heq | ⟨rfl, heq⟩ := hcase d
      · rw [heq]
      · rw [heq]
        exact ha
  · rw [hcmds]
    exact h.nodup
  · rw [hcmds]
    exact h.all
  · dsimp only
    obtain heq | ⟨-, heq⟩ := hcase d
    · rw [heq]
      exact h.conns d
    · rw [heq]
      exact hok
  · dsimp only
    obtain heq | ⟨-, heq⟩ := hcase d
    · rw [heq]
      exact h.passed d
    · rw [heq]
      exact hp
  · dsimp only
    obtain heq | ⟨rfl, -⟩ := hcase d
    · rw [heq]
      exact h.fresh d (hn.trans hd)
    · exact absurd hc (Nat.not_lt.mpr hd)

/-- Nothing is left to send. -/
theorem Base.sent (h : Base s) :
    Base { s with unsent := [], jth := { s.jth with jsendbuf := [] } } :=
  ⟨h.clean, h.cmds, h.belongs, h.answers, h.nodup, h.all, rfl,
    fun _ hmem => absurd hmem List.not_mem_nil, h.conns, h.passed, h.fresh⟩

/-- The connection with the text of the send buffer -/
def System.wrote (s : System) (c : Nat) : Conn :=
  { s.conns c with
    written := (s.conns c).written ++ s.jth.jsendbuf
    lines := (s.conns c).lines ++ s.unsent
    buffered := (s.conns c).buffered + s.jth.jsendbuf.length
    writing := decide (iosize ≤ (s.conns c).buffered + s.jth.jsendbuf.length) }

/-- The text in the send buffer is written on a connection. -/
theorem Base.write (h : Base s) {c : Nat} (hc : c < s.nconns) :
    Base { s.setConn c (s.wrote c) with
      unsent := [], jth := { s.jth with jsendbuf := [] } } := by
  have hok := h.conns c
  have hk : ConnOk s.issued (s.wrote c) := by
    refine ⟨?_, ?_, ?_, hok.clean, hok.delivered, of_decide_eq_true, hok.reading⟩
    · change _ ++ _ = ((s.conns c).lines ++ s.unsent).flatMap _
      rw [List.flatMap_append, hok.written, h.buf]
    · intro i hi
      obtain hi | hi := List.mem_append.mp hi
      · exact hok.known i hi
      · exact h.unsent i hi
    · change _ ≤ ((s.conns c).lines ++ s.unsent).length
      rw [List.length_append]
      exact hok.answers_le.trans (Nat.le_add_right _ _)
  have hp : Passed s.issued s.responses (s.wrote c) :=
    (h.passed c).grow hok hk (List.prefix_append _ _) (List.prefix_refl _) rfl
  exact (h.setConn _ hk hc le_rfl (List.prefix_append _ _) (List.prefix_refl _) hp s.attempts s.jth
    rfl rfl).sent

/-! ## Steps -/

theorem step_jcmd_idle {m : Jcmd} (hcon : s.jth.jconnected = false)
    (hing : s.jth.jconnecting = false) : step s (.jcmd m) =
      some { s.queued m with
        attempts := s.attempts + 1
        jth := { (s.queued m).jth with jconnecting := true } } := by
  have hcond : ¬ s.jth.jconnected ∧ ¬ s.jth.jconnecting := by simp [hcon, hing]
  rw [step, javaJcmd]
  dsimp only
  rw [if_pos hcond]
  rfl

theorem step_jcmd_connecting {m : Jcmd} (hcon : s.jth.jconnected = false)
    (hing : s.jth.jconnecting = true) : step s (.jcmd m) = some (s.queued m) := by
  have hcond : ¬ (¬ s.jth.jconnected ∧ ¬ s.jth.jconnecting) := by simp [hing]
  rw [step, javaJcmd]
  dsimp only
  rw [if_neg hcond, if_neg (by simp [hcon])]
  rfl

theorem step_jcmd_connected {m : Jcmd} (hcon : s.jth.jconnected = true) :
    step s (.jcmd m) = System.send
      { s.queued m with jth := { (s.queued m).jth with jsendbuf := [] } }
      (.write s.jth.jcon (s.queued m).jth.jsendbuf) := by
  have hpos : 0 < (s.jth.jsendbuf ++ m.cmd ++ [newline]).length := by
    rw [List.length_append]
    exact Nat.succ_pos _
  have hcond : ¬ (¬ s.jth.jconnected ∧ ¬ s.jth.jconnecting) := by simp [hcon]
  rw [step, javaJcmd]
  dsimp only
  rw [if_neg hcond, if_pos hcon, sendJavaCommands, if_pos hpos, System.handled, List.foldlM_cons,
    Option.bind_eq_bind]
  exact Option.bind_fun_some _

theorem step_jcmd_opened {m : Jcmd} (hcon : s.jth.jconnected = true)
    (hop : (s.conns s.jth.jcon).opened = true) (hwr : (s.conns s.jth.jcon).writing = false) :
    step s (.jcmd m) = some { (s.queued m).setConn s.jth.jcon ((s.queued m).wrote s.jth.jcon) with
      unsent := [], jth := { (s.queued m).jth with jsendbuf := [] } } := by
  have hop' : ((s.queued m).conns s.jth.jcon).opened = true := hop
  have hwr' : ((s.queued m).conns s.jth.jcon).writing = false := hwr
  rw [step_jcmd_connected hcon]
  exact (if_pos hop').trans (if_neg (by rw [hwr']; exact Bool.false_ne_true))

/-- The text is for a connection that is gone. -/
theorem step_jcmd_gone {m : Jcmd} (hcon : s.jth.jconnected = true)
    (hop : (s.conns s.jth.jcon).opened = false) : step s (.jcmd m) =
      some { s.queued m with
        unsent := [], jth := { (s.queued m).jth with jsendbuf := [] } } := by
  have hop' : ((s.queued m).conns s.jth.jcon).opened = false := hop
  rw [step_jcmd_connected hcon, System.send]
  simp only [hop', Bool.false_eq_true, if_false]

theorem Inv.not_reading (h : Inv s) (hcon : s.jth.jconnected = false) (c : Nat) :
    (s.conns c).reading = false := by
  rw [Bool.eq_false_iff]
  intro hc
  have hcon' := (h.reading c hc).1
  rw [hcon] at hcon'
  cases hcon'

/-- A step that starts no READ on a connection. -/
theorem Inv.reading_update (h : Inv s) {c d : Nat} {k : Conn} (hk : k.reading → (s.conns c).reading)
    (hd : (Function.update s.conns c k d).reading) : s.jth.jconnected ∧ s.jth.jcon = d := by
  apply h.reading d
  by_cases hdc : d = c
  · subst hdc
    rw [Function.update_self] at hd
    exact hk hd
  · rwa [Function.update_of_ne hdc] at hd

/-- A command comes while there is a connection. -/
theorem Inv.jcmd_connected (h : Inv s) {m : Jcmd} (hcare : Careful s (.jcmd m))
    (hcon : s.jth.jconnected = true) : ∃ s', step s (.jcmd m) = some s' ∧ Inv s' := by
  obtain ⟨hm, hroom⟩ := hcare
  have hb := h.base.queued hm
  obtain ⟨hing, hcur⟩ := h.current hcon
  obtain ⟨l, q₁, q₂, hq, hl, hgone, hle, hdel⟩ := hcur.done
  have hnot : ¬ (s.jth.jconnecting = true) := by simp [hing]
  cases hop : (s.conns s.jth.jcon).opened with
  | true =>
    -- there is room in the buffer, so no WRITE is outstanding
    have hwr : (s.conns s.jth.jcon).writing = false := by
      rw [Bool.eq_false_iff]
      exact fun hw => Nat.not_lt.mpr ((h.base.conns _).writing hw) (hroom hcon hop)
    refine ⟨_, step_jcmd_opened hcon hop hwr, hb.write hcur.lt,
      fun c hc => h.reading_update (k := (s.queued m).wrote s.jth.jcon) (fun hr => hr) hc,
      fun _ => ⟨hing, hcur.lt, rfl, hcur.attempts, ?_, hcur.response⟩,
      fun hc => absurd hc hnot, fun hc => absurd hcon hc⟩
    obtain rfl := hgone hop
    rw [List.append_nil] at hq
    subst hq
    refine ⟨l, _, [], (List.append_nil _).symm, ?_, fun _ => rfl, ?_, ?_⟩
    · simp [System.setConn, System.wrote, System.queued, hl, hcur.unsent]
    · simpa [System.setConn, System.wrote, System.queued] using hle
    · simpa [System.setConn, System.wrote, System.queued] using hdel
  | false =>
    let q := q₂ ++ [(⟨s.issued.length, m.ioid, m.oneway, m.source⟩ : Javacmd)]
    refine ⟨_, step_jcmd_gone hcon hop, hb.sent, h.reading, fun _ => ⟨hing, hcur.lt, rfl,
      hcur.attempts, ⟨l, q₁, q, ?_, hl, fun hc => ?_, hle, hdel⟩, hcur.response⟩,
      fun hc => absurd hc hnot, fun hc => absurd hcon hc⟩
    · dsimp only [System.queued]
      rw [hq, List.append_assoc]
    · have hc : (s.conns s.jth.jcon).opened = true := hc
      rw [hop] at hc
      cases hc

theorem Inv.jcmd (h : Inv s) {m : Jcmd} (hcare : Careful s (.jcmd m)) :
    ∃ s', step s (.jcmd m) = some s' ∧ Inv s' := by
  cases hcon : s.jth.jconnected with
  | true => exact h.jcmd_connected hcare hcon
  | false =>
    have hb := h.base.queued hcare.1
    have hnot : ¬ (s.jth.jconnected = true) := by simp [hcon]
    cases hing : s.jth.jconnecting with
    | true =>
      exact ⟨_, step_jcmd_connecting hcon hing, hb, h.reading, fun hc => absurd hc hnot,
        fun _ => h.connecting hing, fun _ hc => absurd hing hc⟩
    | false =>
      obtain ⟨hatt, -⟩ := h.idle hnot (by simp [hing])
      refine ⟨_, step_jcmd_idle hcon hing, hb.flags _ rfl rfl, h.reading, fun hc => absurd hc hnot,
        fun _ => ?_, fun _ hc => absurd rfl hc⟩
      change s.attempts + 1 = 1
      rw [hatt]

theorem Inv.attempting (h : Inv s) (ha : 0 < s.attempts) :
    s.jth.jconnected = false ∧ s.attempts = 1 := by
  have hcon : s.jth.jconnected = false := by
    rw [Bool.eq_false_iff]
    intro hcon
    have hzero := (h.current hcon).2.attempts
    omega
  refine ⟨hcon, ?_⟩
  cases hing : s.jth.jconnecting with
  | true => exact h.connecting hing
  | false =>
    have hzero := (h.idle (by simp [hcon]) (by simp [hing])).1
    omega

/-- The new connection has the text of the send buffer, whether or not it is empty. -/
theorem step_connected (s : System) (hbuf : s.jth.jsendbuf = [] → s.unsent = []) :
    ∃ w, (w = true → iosize ≤ s.jth.jsendbuf.length) ∧ step s .connected = some { s with
        attempts := s.attempts - 1
        conns := Function.update s.conns s.nconns {
          written := s.jth.jsendbuf, lines := s.unsent, buffered := s.jth.jsendbuf.length
          reading := true, writing := w, opened := true }
        nconns := s.nconns + 1
        unsent := []
        jth := { s.jth with
          jconnecting := false, jcon := s.nconns, jconnected := true, jsendbuf := [] } } := by
  by_cases hpos : 0 < s.jth.jsendbuf.length
  · refine ⟨decide (iosize ≤ s.jth.jsendbuf.length), of_decide_eq_true, ?_⟩
    simp [step, javaConnectResponse, sendJavaCommands, if_pos hpos, System.handled, System.send,
      System.setConn]
  · have hnil : s.jth.jsendbuf = [] := List.eq_nil_of_length_eq_zero (by omega)
    refine ⟨false, fun hc => absurd hc Bool.false_ne_true, ?_⟩
    simp [step, javaConnectResponse, sendJavaCommands, hnil, System.handled, System.send,
      System.setConn, hbuf hnil]

theorem Inv.connected (h : Inv s) (ha : 0 < s.attempts)
    (hun : s.unsent = s.jth.jcmds.map Javacmd.number) (hres : s.jth.jresponse = []) :
    ∃ s', step s .connected = some s' ∧ Inv s' := by
  obtain ⟨hcon, hatt⟩ := h.attempting ha
  have hempty : s.jth.jsendbuf = [] → s.unsent = [] := by
    intro hnil
    rw [h.base.buf, List.flatMap_eq_nil_iff] at hnil
    rw [List.eq_nil_iff_forall_not_mem]
    intro k hk
    exact absurd (hnil k hk) (List.append_ne_nil_of_right_ne_nil _ (List.cons_ne_nil _ _))
  obtain ⟨w, hw, hstep⟩ := step_connected s hempty
  have hnew : s.conns s.nconns = {} := h.base.fresh _ le_rfl
  have hk : ConnOk s.issued {
      written := s.jth.jsendbuf, lines := s.unsent, buffered := s.jth.jsendbuf.length
      reading := true, writing := w, opened := true } :=
    ⟨h.base.buf, h.base.unsent, Nat.zero_le _, fun _ hmem => absurd hmem List.not_mem_nil,
      List.prefix_refl _, hw, fun _ => rfl⟩
  have hb := h.base.setConn _ hk (Nat.lt_succ_self s.nconns) (Nat.le_succ _)
    (by rw [hnew]; exact List.nil_prefix) (by rw [hnew])
    (fun j _ a _ _ ha => absurd ha (by simp)) (s.attempts - 1)
    { s.jth with jconnecting := false, jcon := s.nconns, jconnected := true } rfl rfl
  refine ⟨_, hstep, hb.sent, fun c hc => ⟨rfl, ?_⟩, fun _ => ⟨rfl, ?_⟩, ?_, ?_⟩
  · by_contra hne
    dsimp only at hc hne
    rw [Function.update_of_ne (Ne.symm hne), h.not_reading hcon] at hc
    cases hc
  · refine ⟨Nat.lt_succ_self _, rfl, ?_, ⟨[], s.jth.jcmds, [], (List.append_nil _).symm, ?_,
      fun _ => rfl, Nat.zero_le _, ?_⟩, ?_⟩
    · change s.attempts - 1 = 0
      omega
    · simp [hun]
    · simp [hres]
    · simp [hres]
  · exact fun hc => absurd hc Bool.false_ne_true
  · exact fun hc => absurd rfl hc

/-- After `send_java_errors` there is no connection any more. -/
theorem Inv.of_errors (hb : Base s) (hone : ∀ jc ∈ s.jth.jcmds, jc.oneway = false)
    (hread : ∀ c, (s.conns c).reading = false) (hatt : s.attempts = 0) : Inv s.flushed := by
  refine ⟨hb.errors hone, fun c hc => ?_, fun hc => absurd hc Bool.false_ne_true,
    fun hc => absurd hc Bool.false_ne_true, fun _ _ => ⟨hatt, rfl⟩⟩
  have hc : (s.conns c).reading = true := hc
  rw [hread c] at hc
  cases hc

theorem Inv.refused (h : Inv s) (ha : 0 < s.attempts)
    (hone : ∀ jc ∈ s.jth.jcmds, jc.oneway = false) :
    ∃ s', step s .refused = some s' ∧ Inv s' := by
  obtain ⟨hcon, hatt⟩ := h.attempting ha
  have hb : Base { s with attempts := s.attempts - 1 } := h.base.flags _ rfl rfl
  have hzero : s.attempts - 1 = 0 := by omega
  exact ⟨_, handled_errors { s with attempts := s.attempts - 1 },
    Inv.of_errors hb hone (h.not_reading hcon) hzero⟩

/-- The end of a connection, with either notice. -/
theorem Inv.ended (h : Inv s) {c : Nat} (e n : Bool) (hcase : EndsCurrent s c) (hc : c < s.nconns) :
    Inv (s.setConn c { s.conns c with reading := false, ended := e, notice := n }).flushed := by
  have hok := h.base.conns c
  have hb : Base (s.setConn c { s.conns c with reading := false, ended := e, notice := n }) :=
    h.base.setConn { s.conns c with reading := false, ended := e, notice := n }
      ⟨hok.written, hok.known, hok.answers_le, hok.clean, hok.delivered, hok.writing,
        fun hr => absurd hr Bool.false_ne_true⟩ hc le_rfl (List.prefix_refl _)
      (List.prefix_refl _) (h.base.passed c) s.attempts s.jth rfl rfl
  have hread : (∀ d, d ≠ c → (s.conns d).reading = false) → ∀ d, ((s.setConn c
      { s.conns c with reading := false, ended := e, notice := n }).conns d).reading = false := by
    intro hne d
    by_cases hd : d = c
    · subst hd
      simp [System.setConn]
    · simp [System.setConn, hd, hne d hd]
  obtain ⟨hcon, hjcon, hone⟩ | ⟨hcon, hing⟩ := hcase
  · apply Inv.of_errors hb hone (hread _) (h.current hcon).2.attempts
    intro d hd
    rw [Bool.eq_false_iff]
    exact fun hr => hd ((h.reading d hr).2.symm.trans hjcon)
  · obtain ⟨hatt, hnil⟩ := h.idle hcon hing
    apply Inv.of_errors hb _ (hread _) hatt
    · intro jc hjc
      have hjc : jc ∈ s.jth.jcmds := hjc
      rw [hnil] at hjc
      cases hjc
    · exact fun d _ => h.not_reading (Bool.eq_false_iff.mpr hcon) d

theorem Inv.eof (h : Inv s) {c : Nat} (hc : c < s.nconns) (hcare : EndsCurrent s c) :
    ∃ s', step s (.eof c) = some s' ∧ Inv s' :=
  ⟨_, handled_errors (s.setConn c { s.conns c with reading := false, ended := true }),
    h.ended true (s.conns c).notice hcare hc⟩

theorem Inv.closed (h : Inv s) {c : Nat} (hc : c < s.nconns) (hcare : EndsCurrent s c) :
    ∃ s', step s (.closed c) = some s' ∧ Inv s' :=
  ⟨_, handled_errors (s.setConn c { s.conns c with reading := false, notice := false }),
    h.ended (s.conns c).ended false hcare hc⟩

/-- What happens to a connection outside the thread: it gets more answers, or other flags. -/
theorem Inv.outside (h : Inv s) {c : Nat} (k : Conn) (hok : ConnOk s.issued k) (hc : c < s.nconns)
    (hl : k.lines = (s.conns c).lines) (ha : (s.conns c).answers <+: k.answers)
    (hd : k.delivered = (s.conns c).delivered) (hr : k.reading = (s.conns c).reading)
    (hop : k.opened = true → (s.conns c).opened = true) : Inv (s.setConn c k) := by
  have hp := (h.base.passed c).grow (h.base.conns c) hok (by rw [hl]) ha hd
  have hb := h.base.setConn k hok hc le_rfl (by rw [hl]) ha hp s.attempts s.jth rfl rfl
  refine ⟨hb, fun d hrd => h.reading_update (fun hk => hr ▸ hk) hrd, fun hcon => ?_, h.connecting,
    h.idle⟩
  obtain ⟨hing, hcur⟩ := h.current hcon
  refine ⟨hing, hcur.lt, hcur.unsent, hcur.attempts, ?_, hcur.response⟩
  obtain ⟨l, q₁, q₂, hq, hlines, hgone, hle, hdel⟩ := hcur.done
  refine ⟨l, q₁, q₂, hq, ?_⟩
  by_cases hjc : s.jth.jcon = c
  · subst hjc
    obtain ⟨u, hu⟩ := ha
    simp only [System.setConn, Function.update_self, hl, hd, ← hu, List.length_append]
    rw [List.take_append_of_le_length hle]
    exact ⟨hlines, fun ho => hgone (hop ho), hle.trans (Nat.le_add_right _ _), hdel⟩
  · simp only [System.setConn, Function.update_of_ne hjc]
    exact ⟨hlines, hgone, hle, hdel⟩

theorem Inv.wrote (h : Inv s) {c : Nat} (count : Nat) (hc : c < s.nconns) :
    ∃ s', step s (.wrote c count) = some s' ∧ Inv s' := by
  have hok := h.base.conns c
  refine ⟨_, rfl, h.outside _ ⟨hok.written, hok.known, hok.answers_le, hok.clean, hok.delivered,
    fun hw => ?_, hok.reading⟩ hc rfl (List.prefix_refl _) rfl rfl (fun ho => ho)⟩
  exact of_decide_eq_true (Bool.and_eq_true_iff.mp hw).2

theorem Inv.lost (h : Inv s) {c : Nat} (hc : c < s.nconns) :
    ∃ s', step s (.lost c) = some s' ∧ Inv s' := by
  have hok := h.base.conns c
  exact ⟨_, rfl, h.outside _ ⟨hok.written, hok.known, hok.answers_le, hok.clean, hok.delivered,
    hok.writing, hok.reading⟩ hc rfl (List.prefix_refl _) rfl rfl
      (fun ho => absurd ho Bool.false_ne_true)⟩

/-- As many lines as commands have been written. -/
theorem ConnOk.count {k : Conn} (h : ConnOk s.issued k) (hclean : ∀ m ∈ s.issued, newline ∉ m.cmd) :
    k.written.count newline = k.lines.length := by
  have hone : ∀ i, (lineOf s.issued i).count newline = 1 := by
    intro i
    rw [lineOf, List.count_append]
    cases hi : s.issued[i]? with
    | none => rfl
    | some m =>
      have hm : newline ∉ m.cmd := hclean m (List.mem_of_getElem? hi)
      rw [Option.elim_some, List.count_eq_zero_of_not_mem hm]
      rfl
  rw [h.written, List.count_flatMap]
  have hmap : k.lines.map (List.count newline ∘ lineOf s.issued) = k.lines.map (fun _ => 1) :=
    List.map_congr_left fun i _ => hone i
  rw [hmap, List.map_const', List.sum_replicate_nat, Nat.mul_one]

theorem Inv.answer (h : Inv s) {c : Nat} {line : List UInt8} (hc : c < s.nconns)
    (hlt : (s.conns c).answers.length < (s.conns c).received.count newline)
    (hline : newline ∉ line) : ∃ s', step s (.answer c line) = some s' ∧ Inv s' := by
  have hok := h.base.conns c
  have hlt : (s.conns c).answers.length < (s.conns c).lines.length := by
    rw [← hok.count h.base.clean]
    exact hlt.trans_le ((List.take_sublist _ _).count_le newline)
  refine ⟨_, rfl, h.outside { s.conns c with answers := (s.conns c).answers ++ [line] }
    ⟨hok.written, hok.known, ?_, ?_, ?_, hok.writing, hok.reading⟩ hc rfl (List.prefix_append _ _)
    rfl rfl (fun ho => ho)⟩
  · change ((s.conns c).answers ++ [line]).length ≤ _
    rw [List.length_append]
    exact hlt
  · intro a ha
    obtain ha | ha := List.mem_append.mp ha
    · exact hok.clean a ha
    · rw [List.mem_singleton.mp ha]
      exact hline
  · refine hok.delivered.trans ?_
    rw [Conn.output, Conn.output, List.flatMap_append]
    exact List.prefix_append _ _

/-- What the thread does with the next bytes: `e` is the number of answers that end in them. -/
theorem Current.takeLines (h : Current s) (hb : Base s) {chunk : List UInt8}
    (hchunk : (s.conns s.jth.jcon).delivered ++ chunk <+: (s.conns s.jth.jcon).output) :
    ∃ (l : List Nat) (q₁ q₂ : List Javacmd) (e : Nat) (left : List UInt8),
      takeLines [] (s.jth.jresponse ++ chunk) s.jth.jcmds =
        some ((answersFor (s.jth.jcmds.take e)
          (((s.conns s.jth.jcon).answers.drop l.length).take e)).map .response,
          s.jth.jcmds.drop e, left) ∧
      s.jth.jcmds = q₁ ++ q₂ ∧
      (s.conns s.jth.jcon).lines = l ++ q₁.map Javacmd.number ∧
      ((s.conns s.jth.jcon).opened → q₂ = []) ∧ e ≤ q₁.length ∧
      l.length + e ≤ (s.conns s.jth.jcon).answers.length ∧
      ((s.conns s.jth.jcon).answers.take l.length).flatMap (· ++ [newline]) <+:
        (s.conns s.jth.jcon).delivered ∧
      (s.conns s.jth.jcon).delivered ++ chunk =
        ((s.conns s.jth.jcon).answers.take (l.length + e)).flatMap (· ++ [newline]) ++ left ∧
      newline ∉ left := by
  obtain ⟨l, q₁, q₂, hq, hl, hgone, hle, hdel⟩ := h.done
  have hok := hb.conns s.jth.jcon
  have hans := hok.answers_le
  rw [hl, List.length_append, List.length_map] at hans
  have hlen : ((s.conns s.jth.jcon).answers.drop l.length).length ≤ s.jth.jcmds.length := by
    rw [hq, List.length_append, List.length_drop]
    omega
  have hpre : s.jth.jresponse ++ chunk <+:
      ((s.conns s.jth.jcon).answers.drop l.length).flatMap (· ++ [newline]) := by
    rw [hdel, Conn.output, List.append_assoc] at hchunk
    nth_rewrite 2 [← List.take_append_drop l.length (s.conns s.jth.jcon).answers] at hchunk
    rw [List.flatMap_append, List.prefix_append_right_inj] at hchunk
    exact hchunk
  obtain ⟨e, left, hrun, he, hbuf, hleft⟩ := takeLines_spec
    (fun a ha => hok.clean a (List.mem_of_mem_drop ha)) hpre hlen
  rw [List.length_drop] at he
  refine ⟨l, q₁, q₂, e, left, hrun, hq, hl, hgone, by omega, by omega, ?_, ?_, hleft⟩
  · rw [hdel]
    exact List.prefix_append _ _
  · rw [hdel, List.append_assoc, hbuf, List.take_add, List.flatMap_append, List.append_assoc]

/-- The answers that end in the next bytes become responses, and with them all that the thread has got
of the connection are. -/
theorem Base.passed_data (h : Base s) {k : Conn} {rs : List Response} {l : List Nat}
    {q₁ : List Javacmd} {e : Nat} {left : List UInt8} (c : Nat) (hok : ConnOk s.issued k)
    (hlines : (s.conns c).lines = k.lines) (hanswers : (s.conns c).answers = k.answers)
    (hl : k.lines = l ++ q₁.map Javacmd.number) (hq : ∀ jc ∈ q₁, jc ∈ s.jth.jcmds)
    (he : l.length + e ≤ k.answers.length)
    (hold : (k.answers.take l.length).flatMap (· ++ [newline]) <+: (s.conns c).delivered)
    (hdel : k.delivered = (k.answers.take (l.length + e)).flatMap (· ++ [newline]) ++ left)
    (hleft : newline ∉ left)
    (hrs : ∀ (i : Nat) (jc : Javacmd) (a : List UInt8), i < e → q₁[i]? = some jc →
      k.answers[l.length + i]? = some a → jc.oneway = false →
      ⟨jc.number, jc.epid, jc.ioid, false, a⟩ ∈ rs) :
    Passed s.issued (s.responses ++ rs) k := by
  intro j i a m hi ha hg hm hone
  have hj : j < l.length + e := by
    have hlt := hok.lt_of_gets (List.getElem?_eq_some_iff.mp ha).1 hg
    rw [hdel, List.count_append, List.count_eq_zero_of_not_mem hleft,
      count_newline (fun b hb => hok.clean b (List.mem_of_mem_take hb)), List.length_take] at hlt
    omega
  by_cases hjl : j < l.length
  · -- an answer that had come before
    refine List.mem_append_left rs (h.passed c j i a m (hlines ▸ hi) (hanswers ▸ ha) ?_ hm hone)
    rw [Conn.Gets, hanswers]
    refine List.IsPrefix.trans ?_ hold
    obtain ⟨u, hu⟩ := List.take_prefix_take_left (l := k.answers) (Nat.succ_le_of_lt hjl)
    rw [← hu, List.flatMap_append]
    exact List.prefix_append _ _
  · obtain ⟨n, rfl⟩ : ∃ n, j = l.length + n := ⟨j - l.length, by omega⟩
    rw [hl, List.getElem?_append_right (Nat.le_add_right _ _), Nat.add_sub_cancel_left,
      List.getElem?_map, Option.map_eq_some_iff] at hi
    obtain ⟨jc, hjc, rfl⟩ := hi
    obtain ⟨m', hm', h1, h2, h3⟩ := h.cmds jc (hq jc (List.mem_of_getElem? hjc))
    rw [hm] at hm'
    cases hm'
    rw [← h2, ← h3]
    exact List.mem_append_right _ (hrs n jc a (by omega) hjc ha (h1.trans hone))

theorem Inv.data (h : Inv s) {c : Nat} {chunk : List UInt8} (hc : c < s.nconns)
    (hread : (s.conns c).reading) (hne : chunk ≠ [])
    (hchunk : (s.conns c).delivered ++ chunk <+: (s.conns c).output) :
    ∃ s', step s (.data c chunk) = some s' ∧ Inv s' := by
  obtain ⟨hcon, rfl⟩ := h.reading c hread
  obtain ⟨hing, hcur⟩ := h.current hcon
  obtain ⟨l, q₁, q₂, e, left, hrun, hq, hl, hgone, heq, hle, hold, hdel, hleft⟩ :=
    hcur.takeLines h.base hchunk
  have hok := h.base.conns s.jth.jcon
  have htake : s.jth.jcmds.take e = q₁.take e := by rw [hq, List.take_append_of_le_length heq]
  have hdrop : s.jth.jcmds.drop e = q₁.drop e ++ q₂ := by
    rw [hq, List.drop_append_of_le_length heq]
  let rs := answersFor (s.jth.jcmds.take e) (((s.conns s.jth.jcon).answers.drop l.length).take e)
  have hget : ∀ {i : Nat}, i < e → (s.jth.jcmds.take e)[i]? = q₁[i]? ∧
      (((s.conns s.jth.jcon).answers.drop l.length).take e)[i]? =
        (s.conns s.jth.jcon).answers[l.length + i]? := by
    intro i hi
    rw [htake, List.getElem?_take_of_lt hi, List.getElem?_take_of_lt hi, List.getElem?_drop]
    exact ⟨rfl, rfl⟩
  have hlt : ∀ {i : Nat} {jc : Javacmd}, (s.jth.jcmds.take e)[i]? = some jc → i < e := by
    intro i jc hi
    have := (List.getElem?_eq_some_iff.mp hi).1
    rw [List.length_take] at this
    omega
  have hlen : (s.jth.jcmds.take e).length ≤
      (((s.conns s.jth.jcon).answers.drop l.length).take e).length := by
    rw [List.length_take, List.length_take, List.length_drop]
    omega
  -- the responses are the answers to the lines of their commands
  have hans : ∀ r ∈ rs, s.Answers r := by
    intro r hr _
    obtain ⟨i, jc, hjc, ha, -, hreq⟩ := mem_answersFor hr
    obtain ⟨h1, h2⟩ := hget (hlt hjc)
    refine ⟨s.jth.jcon, l.length + i, hcur.lt, ?_, h2 ▸ ha⟩
    rw [hl, List.getElem?_append_right (Nat.le_add_right _ _), Nat.add_sub_cancel_left,
      List.getElem?_map, ← h1, hjc, hreq]
    rfl
  have hb := h.base.respond left (List.take_append_drop e s.jth.jcmds).symm
    (answersFor_sublist _ _)
    (fun r hr => by
      obtain ⟨i, jc, hjc, -, hone, hreq⟩ := mem_answersFor hr
      exact ⟨jc, List.mem_of_getElem? hjc, hone, by rw [hreq], by rw [hreq], by rw [hreq]⟩)
    (fun jc hjc hone => number_mem_answersFor hlen hjc hone) hans s.jth.jconnected s.jth.jconnecting
  let k := { s.conns s.jth.jcon with
    delivered := (s.conns s.jth.jcon).delivered ++ chunk, reading := (s.conns s.jth.jcon).opened }
  have hk : ConnOk s.issued k :=
    ⟨hok.written, hok.known, hok.answers_le, hok.clean, hchunk, hok.writing,
      fun _ => hok.reading hread⟩
  let s' : System := { s with
    jth := { s.jth with jcmds := s.jth.jcmds.drop e, jresponse := left }
    responses := s.responses ++ rs
    conns := Function.update s.conns s.jth.jcon k }
  have hstep : step s (.data s.jth.jcon chunk) = some s' := by
    have hlen0 : ¬ chunk.length = 0 := fun hz => hne (List.eq_nil_of_length_eq_zero hz)
    have hread' : javaReadResponse s.jth chunk = some
        ({ s.jth with jcmds := s.jth.jcmds.drop e, jresponse := left },
          rs.map .response ++ [.read s.jth.jcon]) := by
      rw [javaReadResponse, if_neg hlen0, hrun]
      rfl
    have hend := hok.reading hread
    simp only [step, hread', Option.bind_eq_bind, Option.bind_some, System.handled,
      List.foldlM_append, foldlM_send_responses, List.foldlM_cons, List.foldlM_nil, System.send,
      System.setConn, Function.update_self, Function.update_idem, hend, Bool.or_self]
    cases hop : (s.conns s.jth.jcon).opened <;> simp [s', k, rs, hop, hend]
  have hp : Passed s.issued (s.responses ++ rs) k := by
    refine h.base.passed_data s.jth.jcon hk rfl rfl hl ?_ hle hold hdel hleft ?_
    · intro jc hjc
      rw [hq]
      exact List.mem_append_left q₂ hjc
    · intro i jc a hi hjc ha hone
      obtain ⟨h1, h2⟩ := hget hi
      exact answersFor_mem (h1.trans hjc) (h2.trans ha) hone
  refine ⟨s', hstep, ?_, fun d hd => h.reading_update (fun _ => hread) hd, fun _ => ⟨hing, ?_⟩,
    h.connecting, fun hc' => absurd hcon hc'⟩
  · exact hb.setConn k hk hc le_rfl (List.prefix_refl _) (List.prefix_refl _) hp s.attempts _ rfl rfl
  · refine ⟨hcur.lt, hcur.unsent, hcur.attempts,
      ⟨l ++ (q₁.take e).map Javacmd.number, q₁.drop e, q₂, hdrop, ?_⟩, hleft⟩
    have hlen' : (l ++ (q₁.take e).map Javacmd.number).length = l.length + e := by
      rw [List.length_append, List.length_map, List.length_take, min_eq_left heq]
    rw [hlen']
    simp only [s', Function.update_self]
    refine ⟨?_, hgone, hle, hdel⟩
    rw [List.append_assoc, ← List.map_append, List.take_append_drop]
    exact hl

/-- No assertion fails in a careful step, and the invariant holds after it. -/
theorem Inv.step {e : Event} (h : Inv s) (hen : Enabled s e) (hcare : Careful s e) :
    ∃ s', step s e = some s' ∧ Inv s' := by
  cases e with
  | jcmd m => exact h.jcmd hcare
  | connected => exact h.connected hen hcare.1 hcare.2
  | refused => exact h.refused hen hcare
  | wrote c count => exact h.wrote count hen.1
  | answer c line => exact h.answer hen.1 hen.2.1 hen.2.2
  | data c chunk => exact h.data hen.1 hen.2.1 hen.2.2.1 hen.2.2.2
  | eof c => exact h.eof hen.1 hcare
  | lost c => exact h.lost hen.1
  | closed c => exact h.closed hen.1 hcare

/-- The runs whose steps are allowed by `ok` -/
def Runs (ok : System → Event → Prop) : System → System → Prop :=
  Relation.ReflTransGen (fun s s' => ∃ e, Enabled s e ∧ ok s e ∧ step s e = some s')

/-- The events one after another, where each is possible and allowed by `ok`. -/
def execAll (ok : System → Event → Prop) [∀ s e, Decidable (ok s e)] (s : System) :
    List Event → Option System
  | [] => some s
  | e :: es => if Enabled s e ∧ ok s e then (step s e).bind (fun s => execAll ok s es) else none

def twoway (cmd : List UInt8) : Jcmd := ⟨⟨0, 0, 5⟩, 1, false, cmd⟩

end Java
end Runtime
end NReduce
