import Mathlib.Data.List.Count
import Mathlib.Data.List.Nodup
import NReduce.Runtime.Suspend

/-!
# NReduce.Runtime.SuspendInv

What holds of a task and its I/O thread between two messages. An ioid that is used to wake a frame
is in one place: in a request or a response on the way, or kept by a connection or a listener. A
request for a connection that is gone does not count, since the I/O thread drops it. The place may
also be the hand of the thread that is at work, so that a handler is followed one move at a time.
-/

namespace NReduce
namespace Runtime
namespace Suspend

/-! ## Messages -/

namespace Request

/-- The ioid, with the name of the suspension. -/
def token : Request → Option (Nat × Ticket)
  | connect ioid t | listen ioid t | accept _ ioid t | read _ ioid t | write _ ioid _ t =>
    some (ioid, t)
  | deleteConnection _ | deleteListener _ => none

/-- The connection that the request is for. -/
def sock : Request → Option Nat
  | read sid _ _ | write sid _ _ _ | deleteConnection sid => some sid
  | _ => none

/-- What the name of the suspension has to say. -/
def Fits : Request → Prop
  | connect _ t => t.op = some .connect ∧ t.sid = 0
  | listen _ t => t.op = some .listen ∧ t.sid = 0
  | accept sid _ t => t.op = some .accept ∧ t.sid = sid
  | read sid _ t => t.op = some .read ∧ t.sid = sid
  | write sid _ _ t => t.op = some .write ∧ t.sid = sid
  | deleteConnection _ | deleteListener _ => True

/-- The request will be answered: its connection is still there. -/
def Live (io : Io) (r : Request) : Prop :=
  ∀ ioid t, r.token = some (ioid, t) → ∀ sid, r.sock = some sid → io.connections sid ≠ none

end Request

namespace Response

def token : Response → Option (Nat × Ticket)
  | connect ioid _ _ _ _ t | listen ioid _ _ _ t | accept ioid _ t | read ioid _ _ t | write ioid t =>
    some (ioid, t)
  | connectionClosed _ _ _ => none

def Fits : Response → Prop
  | connect _ error _ sid _ t => t.op = some .connect ∧ (error = true → sid = 0)
  | listen _ error sid _ t => t.op = some .listen ∧ (error = true → sid = 0)
  | accept _ _ t => t.op = some .accept
  | read _ sid _ t => t.op = some .read ∧ t.sid = sid
  | write _ t => t.op = some .write
  | connectionClosed _ _ _ => True

/-- The connection that has been read or written. -/
def about : Response → Option Nat
  | read _ _ _ t | write _ t => some t.sid
  | _ => none

def closes : Response → Option Nat
  | connectionClosed sid _ _ => some sid
  | _ => none

/-- A connection that was asked for and has been made. -/
def connects : Response → Option Nat
  | connect _ false _ sid _ _ => some sid
  | _ => none

def listens : Response → Option Nat
  | listen _ false sid _ _ => some sid
  | _ => none

/-- A socket that the task hears of. -/
def announces : Response → Option Nat
  | connect _ false _ sid _ _ | listen _ false sid _ _ | accept _ sid _ => some sid
  | _ => none

end Response

/-! ## The I/O thread by itself -/

namespace Io

def closing (io : Io) : List Nat := io.sent.filterMap Response.closes

def announced (io : Io) : List Nat := io.sent.filterMap Response.announces

structure Inv (io : Io) : Prop where
  pos : 0 < io.nextsid
  conn_sid : ∀ sid c, io.connections sid = some c → 0 < sid ∧ sid < io.nextsid
  room : ∀ sid c, io.connections sid = some c → c.frameids .write = 0 → c.sendbuf.length < iosize
  closed : ∀ sid ∈ io.closing, io.connections sid = none ∧ 0 < sid ∧ sid < io.nextsid
  -- nothing about a connection comes after the notice that it is closed
  order : io.sent.Pairwise fun a b => ∀ sid, a.closes = some sid → b.about ≠ some sid
  announced_nodup : io.announced.Nodup
  announced_lt : ∀ sid ∈ io.announced, 0 < sid ∧ sid < io.nextsid
  opening : ∀ sid c, io.connections sid = some c → c.state.opening = true → sid ∉ io.announced
  listening : ∀ sid ∈ io.sent.filterMap Response.listens,
    io.connections sid = none ∧ sid ∉ io.closing

end Io

/-! ## The ioids -/

namespace Task

/-- The frame in the slot `ioid` is there by the suspension `t`. -/
def Valid (tsk : Task) (ioid : Nat) (t : Ticket) : Prop :=
  0 < ioid ∧ (tsk.ioframes ioid).f ≠ none ∧ tsk.owner ioid = t

end Task

/-- The places of an ioid. -/
inductive Token (tsk : Task) (io : Io) (hand : List (Nat × Ticket)) : Nat → Ticket → Prop where
  | hand {ioid t} : (ioid, t) ∈ hand → Token tsk io hand ioid t
  | request {r ioid t} : r ∈ tsk.sent → r.token = some (ioid, t) → r.Live io →
      Token tsk io hand ioid t
  | response {r ioid t} : r ∈ io.sent → r.token = some (ioid, t) → Token tsk io hand ioid t
  | conn {sid c op} : io.connections sid = some c → c.frameids op ≠ 0 →
      Token tsk io hand (c.frameids op) (c.tickets op)
  | listener {sid l} : io.listeners sid = some l → l.acceptFrameid ≠ 0 →
      Token tsk io hand l.acceptFrameid l.ticket
  | wakeup {ioid t} : (ioid, t) ∈ tsk.wakeupAfterCollect → Token tsk io hand ioid t

/-- How often a suspension is named by the messages on the way and in hand. -/
def flight (tsk : Task) (io : Io) (hand : List (Nat × Ticket)) (t : Ticket) : Nat :=
  (hand.map Prod.snd).count t + (tsk.sent.filterMap Request.token |>.map Prod.snd).count t +
    (io.sent.filterMap Response.token |>.map Prod.snd).count t +
    (tsk.wakeupAfterCollect.map Prod.snd).count t

/-- The suspension `t` is kept by a connection or a listener. -/
inductive Held (io : Io) : Ticket → Prop where
  | conn {sid c op} : io.connections sid = some c → c.frameids op ≠ 0 → Held io (c.tickets op)
  | listener {sid l} : io.listeners sid = some l → l.acceptFrameid ≠ 0 → Held io l.ticket

structure Link (tsk : Task) (io : Io) (hand : List (Nat × Ticket)) : Prop where
  valid : ∀ ioid t, Token tsk io hand ioid t → tsk.Valid ioid t
  flight_le : ∀ t, flight tsk io hand t ≤ 1
  held : ∀ t, Held io t → flight tsk io hand t = 0
  -- a connect is kept by one connection; the others say which connection they are for
  held_connect : ∀ sid sid' c e, io.connections sid = some c → io.connections sid' = some e →
    c.frameids .connect ≠ 0 → e.frameids .connect ≠ 0 → c.tickets .connect = e.tickets .connect →
    sid = sid'
  fresh : ∀ t, 0 < flight tsk io hand t ∨ Held io t → t.num < tsk.tickets
  request_fits : ∀ r ∈ tsk.sent, r.Fits
  response_fits : ∀ r ∈ io.sent, r.Fits
  wakeup_fits : ∀ x ∈ tsk.wakeupAfterCollect, x.2.op = none
  conn_fits : ∀ sid c op, io.connections sid = some c → c.frameids op ≠ 0 →
    op ≠ .accept ∧ (c.tickets op).op = some op ∧ (op ≠ .connect → (c.tickets op).sid = sid)
  listener_fits : ∀ sid l, io.listeners sid = some l → l.acceptFrameid ≠ 0 →
    l.ticket.op = some .accept ∧ l.ticket.sid = sid

/-! ## The sockets -/

/-- A connection that nobody has used. -/
structure Connection.Quiet (c : Connection) : Prop where
  dontread : c.dontread = true
  sendbuf : c.sendbuf = []
  finwrite : c.finwrite = false
  l : c.l = none

/-- The task has the socket of a connection, or is about to hear of it, while the frame that asked
for it has not run again. -/
def Unused (tsk : Task) (io : Io) (sid : Nat) : Prop :=
  (∃ i so, tsk.sysobjects i = some so ∧ so.type = .connection ∧ so.sockid = sid ∧
    so.doneConnect = false ∧ so.listenerso = none) ∨
  sid ∈ io.sent.filterMap Response.connects

structure Sock (tsk : Task) (io : Io) : Prop where
  inj : ∀ i j so so', tsk.sysobjects i = some so → tsk.sysobjects j = some so' →
    so.sockid = so'.sockid → so.sockid ≠ 0 → i = j
  lt : ∀ i so, tsk.sysobjects i = some so → so.sockid < io.nextsid
  announced : ∀ i so, tsk.sysobjects i = some so → so.sockid ∉ io.announced
  opening : ∀ i so c, tsk.sysobjects i = some so → io.connections so.sockid = some c →
    c.state.opening = false
  listener : ∀ i so, tsk.sysobjects i = some so → so.type = .listener → so.sockid ≠ 0 →
    io.connections so.sockid = none ∧ so.sockid ∉ io.closing
  request_lt : ∀ r ∈ tsk.sent, ∀ sid, r.sock = some sid → sid < io.nextsid
  untouched : ∀ sid c, io.connections sid = some c → c.state.opening = true →
    c.Quiet ∧ ∀ r ∈ tsk.sent, r.sock ≠ some sid
  quiet : ∀ sid, sid ≠ 0 → Unused tsk io sid → ∃ c, io.connections sid = some c ∧ c.Quiet
  quiet_request : ∀ sid, sid ≠ 0 → Unused tsk io sid → ∀ r ∈ tsk.sent, r.sock ≠ some sid

/-- The two threads between two moves of either, with the ioids `hand` in the hand of one. -/
structure Ok (tsk : Task) (io : Io) (hand : List (Nat × Ticket)) : Prop where
  inv : io.Inv
  link : Link tsk io hand
  sock : Sock tsk io

/-! ## Moves of the I/O thread -/

section

variable {tsk : Task} {io : Io} {hand : List (Nat × Ticket)} {sid ioid : Nat} {t : Ticket}
  {c e : Connection} {op : Frameaddr}

namespace Io

theorem setConn_cases {s : Nat} {d : Connection} (h : (io.setConn sid c).connections s = some d) :
    (s = sid ∧ d = c) ∨ (s ≠ sid ∧ io.connections s = some d) := by
  simp only [setConn, Function.update_apply] at h
  split at h
  · rename_i hs
    exact .inl ⟨hs, (Option.some.inj h).symm⟩
  · rename_i hs
    exact .inr ⟨hs, h⟩

theorem removeConnection_cases {s : Nat} {d : Connection}
    (h : (io.removeConnection sid).connections s = some d) :
    s ≠ sid ∧ io.connections s = some d := by
  simp only [removeConnection, Function.update_apply] at h
  split at h
  · cases h
  · rename_i hs
    exact ⟨hs, h⟩

end Io

theorem Request.Live.of_some {io' : Io} {r : Request} (h : r.Live io')
    (hs : ∀ s, io.connections s = none → io'.connections s = none) : r.Live io :=
  fun ioid t ht s hr hn => h ioid t ht s hr (hs s hn)

/-- The connections change to `g`. What they do to the ioids is in `hl`. -/
theorem Ok.connections {hand' : List (Nat × Ticket)} {g : Nat → Option Connection}
    (h : Ok tsk io hand) (hnone : ∀ s, io.connections s = none → g s = none)
    (hopen : ∀ s d, g s = some d → d.state.opening = true →
      d.Quiet ∧ ∃ d', io.connections s = some d' ∧ d'.state.opening = true)
    (hroom : ∀ s d, g s = some d → d.frameids .write = 0 → d.sendbuf.length < iosize)
    (hquiet : ∀ s, s ≠ 0 → Unused tsk io s → ∃ d, g s = some d ∧ d.Quiet)
    (hl : Link tsk { io with connections := g } hand') :
    Ok tsk { io with connections := g } hand' := by
  have hsome : ∀ s d, g s = some d → ∃ d', io.connections s = some d' := by
    intro s d hd
    cases hs : io.connections s with
    | some d' => exact ⟨d', rfl⟩
    | none => rw [hnone s hs] at hd; cases hd
  refine ⟨⟨h.inv.pos, ?_, hroom, ?_, h.inv.order, h.inv.announced_nodup, h.inv.announced_lt, ?_,
    ?_⟩,
    hl, ⟨h.sock.inj, h.sock.lt, h.sock.announced, ?_, ?_, h.sock.request_lt, ?_, hquiet,
      h.sock.quiet_request⟩⟩
  · intro s d hd
    obtain ⟨d', hd'⟩ := hsome s d hd
    exact h.inv.conn_sid _ _ hd'
  · intro s hs
    obtain ⟨hn, hlt⟩ := h.inv.closed s hs
    exact ⟨hnone s hn, hlt⟩
  · intro s d hd ho
    obtain ⟨_, d', hd', ho'⟩ := hopen s d hd ho
    exact h.inv.opening _ _ hd' ho'
  · intro s hs
    obtain ⟨hn, hcl⟩ := h.inv.listening s hs
    exact ⟨hnone s hn, hcl⟩
  · intro i so d hso hd
    cases ho : d.state.opening with
    | false => rfl
    | true =>
      obtain ⟨_, d', hd', ho'⟩ := hopen _ d hd ho
      rw [h.sock.opening i so d' hso hd'] at ho'
      cases ho'
  · intro i so hso hty hne
    obtain ⟨hn, hcl⟩ := h.sock.listener i so hso hty hne
    exact ⟨hnone _ hn, hcl⟩
  · intro s d hd ho
    obtain ⟨hq, d', hd', ho'⟩ := hopen s d hd ho
    exact ⟨hq, (h.sock.untouched s d' hd' ho').2⟩

/-- Every ioid in the connections `g` was in the same connection before. -/
def Kept (io : Io) (g : Nat → Option Connection) : Prop :=
  ∀ s d op, g s = some d → d.frameids op ≠ 0 →
    ∃ d', io.connections s = some d' ∧ d'.frameids op = d.frameids op ∧ d'.tickets op = d.tickets op

theorem Kept.held {g : Nat → Option Connection} (hg : Kept io g)
    (h : Held { io with connections := g } t) : Held io t := by
  cases h with
  | conn hd hop =>
    obtain ⟨d', hd', hf, ht⟩ := hg _ _ _ hd hop
    rw [← ht]
    exact .conn hd' (by rw [hf]; exact hop)
  | listener hl hne => exact .listener hl hne

theorem Kept.token {g : Nat → Option Connection} (hg : Kept io g)
    (hnone : ∀ s, io.connections s = none → g s = none)
    (h : Token tsk { io with connections := g } hand ioid t) : Token tsk io hand ioid t := by
  cases h with
  | hand hm => exact .hand hm
  | request hm hr hl => exact .request hm hr (hl.of_some hnone)
  | response hm hr => exact .response hm hr
  | conn hd hop =>
    obtain ⟨d', hd', hf, ht⟩ := hg _ _ _ hd hop
    rw [← hf, ← ht]
    exact .conn hd' (by rw [hf]; exact hop)
  | listener hl hne => exact .listener hl hne
  | wakeup hm => exact .wakeup hm

/-- No ioid moves, but some may be forgotten. -/
theorem Link.kept {g : Nat → Option Connection} (h : Link tsk io hand) (hg : Kept io g)
    (hnone : ∀ s, io.connections s = none → g s = none) :
    Link tsk { io with connections := g } hand where
  valid a u hu := h.valid a u (hg.token hnone hu)
  flight_le := h.flight_le
  held u hu := h.held u (hg.held hu)
  held_connect s s' d d' hd hd' hop hop' heq := by
    obtain ⟨e, he, hf, ht⟩ := hg _ _ _ hd hop
    obtain ⟨e', he', hf', ht'⟩ := hg _ _ _ hd' hop'
    exact h.held_connect s s' e e' he he' (by rw [hf]; exact hop) (by rw [hf']; exact hop')
      (by rw [ht, ht']; exact heq)
  fresh u hu := h.fresh u (hu.imp id hg.held)
  request_fits := h.request_fits
  response_fits := h.response_fits
  wakeup_fits := h.wakeup_fits
  conn_fits s d op hd hop := by
    obtain ⟨d', hd', hf, ht⟩ := hg _ _ _ hd hop
    rw [← ht]
    exact h.conn_fits s d' op hd' (by rw [hf]; exact hop)
  listener_fits := h.listener_fits

theorem setConn_none (hc : io.connections sid = some c) (s : Nat) (hs : io.connections s = none) :
    Function.update io.connections sid (some e) s = none := by
  have hne : s ≠ sid := by
    rintro rfl
    rw [hc] at hs
    cases hs
  rw [Function.update_of_ne hne]
  exact hs

/-- The contents of the connection change to `e`, which has no ioid that `c` has not. -/
theorem kept_setConn (hc : io.connections sid = some c)
    (hf : ∀ op, e.frameids op ≠ 0 → c.frameids op = e.frameids op ∧ c.tickets op = e.tickets op) :
    Kept io (Function.update io.connections sid (some e)) := by
  intro s d op hd hop
  obtain ⟨rfl, rfl⟩ | ⟨_, hd⟩ := Io.setConn_cases hd
  · exact ⟨c, hc, (hf op hop).1, (hf op hop).2⟩
  · exact ⟨d, hd, rfl, rfl⟩

/-- The conditions of `Ok.connections` for a change of one connection. -/
theorem Ok.setConn_link {hand' : List (Nat × Ticket)} (h : Ok tsk io hand)
    (hc : io.connections sid = some c)
    (hroom : e.frameids .write = 0 → e.sendbuf.length < iosize)
    (hopen : e.state.opening = true → e.Quiet ∧ c.state.opening = true)
    (hq : Unused tsk io sid → e.Quiet) (hl : Link tsk (io.setConn sid e) hand') :
    Ok tsk (io.setConn sid e) hand' := by
  refine h.connections (setConn_none hc) ?_ ?_ ?_ hl
  · intro s d hd ho
    obtain ⟨rfl, rfl⟩ | ⟨_, hd⟩ := Io.setConn_cases hd
    · exact ⟨(hopen ho).1, c, hc, (hopen ho).2⟩
    · exact ⟨(h.sock.untouched s d hd ho).1, d, hd, ho⟩
  · intro s d hd
    obtain ⟨rfl, rfl⟩ | ⟨_, hd⟩ := Io.setConn_cases hd
    · exact hroom
    · exact h.inv.room _ _ hd
  · intro s hs hu
    by_cases hss : s = sid
    · subst hss
      exact ⟨e, by simp, hq hu⟩
    · obtain ⟨d, hd, hdq⟩ := h.sock.quiet s hs hu
      exact ⟨d, by simp [hss, hd], hdq⟩

/-- The contents of a connection change, but not the ioids in it. -/
theorem Ok.setConn (h : Ok tsk io hand) (hc : io.connections sid = some c)
    (hf : e.frameids = c.frameids) (ht : e.tickets = c.tickets)
    (hroom : e.frameids .write = 0 → e.sendbuf.length < iosize)
    (hopen : e.state.opening = true → e.Quiet ∧ c.state.opening = true)
    (hq : Unused tsk io sid → e.Quiet) : Ok tsk (io.setConn sid e) hand := by
  refine h.setConn_link hc hroom hopen hq
    (h.link.kept (kept_setConn hc fun op _ => ?_) (setConn_none hc))
  rw [hf, ht]
  exact ⟨rfl, rfl⟩

theorem flight_cons (x : Nat × Ticket) (u : Ticket) :
    flight tsk io (x :: hand) u = flight tsk io hand u + if x.2 = u then 1 else 0 := by
  simp only [flight, List.map_cons, List.count_cons, beq_iff_eq]
  omega

/-- An ioid that is nowhere comes into hand. -/
theorem Link.pick (h : Link tsk io hand) (hv : tsk.Valid ioid t) (hzero : flight tsk io hand t = 0)
    (hheld : ¬ Held io t) (hlt : t.num < tsk.tickets) : Link tsk io ((ioid, t) :: hand) where
  valid a u hu := by
    cases hu with
    | hand hm =>
      obtain heq | hm := List.mem_cons.mp hm
      · cases heq
        exact hv
      · exact h.valid a u (.hand hm)
    | request hm hr hl => exact h.valid a u (.request hm hr hl)
    | response hm hr => exact h.valid a u (.response hm hr)
    | conn hd hop => exact h.valid _ _ (.conn hd hop)
    | listener hl hne => exact h.valid _ _ (.listener hl hne)
    | wakeup hm => exact h.valid a u (.wakeup hm)
  flight_le u := by
    rw [flight_cons]
    split
    · rename_i heq
      have hz : flight tsk io hand u = 0 := heq ▸ hzero
      omega
    · exact h.flight_le u
  held u hu := by
    rw [flight_cons, h.held u hu, if_neg]
    rintro rfl
    exact hheld hu
  held_connect := h.held_connect
  fresh u hu := by
    rw [flight_cons] at hu
    split at hu
    · rename_i heq
      subst heq
      exact hlt
    · exact h.fresh u hu
  request_fits := h.request_fits
  response_fits := h.response_fits
  wakeup_fits := h.wakeup_fits
  conn_fits := h.conn_fits
  listener_fits := h.listener_fits

/-- An ioid is forgotten. -/
theorem Link.drop {x : Nat × Ticket} (h : Link tsk io (x :: hand)) : Link tsk io hand where
  valid a u hu := by
    cases hu with
    | hand hm => exact h.valid a u (.hand (List.mem_cons_of_mem _ hm))
    | request hm hr hl => exact h.valid a u (.request hm hr hl)
    | response hm hr => exact h.valid a u (.response hm hr)
    | conn hd hop => exact h.valid _ _ (.conn hd hop)
    | listener hl hne => exact h.valid _ _ (.listener hl hne)
    | wakeup hm => exact h.valid a u (.wakeup hm)
  flight_le u := by
    have := h.flight_le u
    rw [flight_cons] at this
    omega
  held u hu := by
    have := h.held u hu
    rw [flight_cons] at this
    omega
  held_connect := h.held_connect
  fresh u hu := by
    refine h.fresh u (hu.imp (fun hpos => ?_) id)
    rw [flight_cons]
    omega
  request_fits := h.request_fits
  response_fits := h.response_fits
  wakeup_fits := h.wakeup_fits
  conn_fits := h.conn_fits
  listener_fits := h.listener_fits

theorem Ok.drop {x : Nat × Ticket} (h : Ok tsk io (x :: hand)) : Ok tsk io hand :=
  ⟨h.inv, h.link.drop, h.sock⟩

/-- The I/O thread takes an ioid out of a connection. -/
theorem Ok.take (h : Ok tsk io hand) (hc : io.connections sid = some c) (hop : c.frameids op ≠ 0)
    (hroom : op = .write → c.sendbuf.length < iosize) :
    Ok tsk (io.setConn sid (c.clearFrameid op)) ((c.frameids op, c.tickets op) :: hand) := by
  have hne : ∀ {op'}, (c.clearFrameid op).frameids op' ≠ 0 → op' ≠ op := by
    rintro op' ho rfl
    simp [Connection.clearFrameid] at ho
  have hsame : ∀ {op'}, op' ≠ op → (c.clearFrameid op).frameids op' = c.frameids op' := by
    intro op' ho
    simp [Connection.clearFrameid, ho]
  have hg := kept_setConn (e := c.clearFrameid op) hc fun op' ho => ⟨(hsame (hne ho)).symm, rfl⟩
  have hk := h.link.kept hg (setConn_none hc)
  -- no other connection and no listener has it
  have hnot : ¬ Held (io.setConn sid (c.clearFrameid op)) (c.tickets op) := by
    have hfit := h.link.conn_fits sid c op hc hop
    generalize hu : c.tickets op = u
    rw [hu] at hfit
    intro hh
    cases hh with
    | @conn s d op' hd hop' =>
      have hd' := hk.conn_fits s d op' hd hop'
      have hopeq : op' = op := by
        rw [hd'.2.1] at hfit
        exact Option.some.inj hfit.2.1
      subst hopeq
      have hs : s = sid := by
        by_cases hcon : op' = .connect
        · subst hcon
          obtain ⟨e, he, hfe, hte⟩ := hg s d _ hd hop'
          exact h.link.held_connect s sid e c he hc (by rw [hfe]; exact hop') hop (by rw [hte, hu])
        · rw [← hd'.2.2 hcon, hfit.2.2 hcon]
      obtain ⟨_, rfl⟩ | ⟨hss, _⟩ := Io.setConn_cases hd
      · exact hne hop' rfl
      · exact hss hs
    | @listener s l hl hne' =>
      have hl' := h.link.listener_fits s l hl hne'
      rw [hl'.1] at hfit
      exact hfit.1 (Option.some.inj hfit.2.1).symm
  have hheld : Held io (c.tickets op) := .conn hc hop
  refine h.setConn_link hc (fun hw => ?_) (fun ho => ?_) (fun hu => ?_)
    (hk.pick (h.link.valid _ _ (.conn hc hop)) (h.link.held _ hheld) hnot
      (h.link.fresh _ (.inr hheld)))
  · by_cases ho : op = .write
    · exact hroom ho
    · rw [hsame (Ne.symm ho)] at hw
      exact h.inv.room sid c hc hw
  · have hq := (h.sock.untouched sid c hc ho).1
    exact ⟨⟨hq.dontread, hq.sendbuf, hq.finwrite, hq.l⟩, ho⟩
  · have hpos := (h.inv.conn_sid sid c hc).1
    obtain ⟨d, hd, hq⟩ := h.sock.quiet sid (by omega) hu
    rw [hc] at hd
    cases hd
    exact ⟨hq.dontread, hq.sendbuf, hq.finwrite, hq.l⟩

/-- The I/O thread puts an ioid in a connection. -/
theorem Ok.store (op : Frameaddr) (h : Ok tsk io ((ioid, t) :: hand))
    (hc : io.connections sid = some c)
    (hacc : op ≠ .accept) (hop : t.op = some op)
    (hsid : op ≠ .connect → t.sid = sid) :
    Ok tsk (io.setConn sid (c.setFrameid op ioid t)) hand := by
  have hv : tsk.Valid ioid t := h.link.valid _ _ (.hand (List.mem_cons_self ..))
  have hone : flight tsk io hand t = 0 := by
    have := h.link.flight_le t
    rw [flight_cons, if_pos rfl] at this
    omega
  have hnot : ¬ Held io t := by
    intro hh
    have := h.link.held t hh
    rw [flight_cons, if_pos rfl] at this
    omega
  have hself : (c.setFrameid op ioid t).frameids op = ioid ∧
      (c.setFrameid op ioid t).tickets op = t := by
    simp [Connection.setFrameid]
  have hother : ∀ {op'}, op' ≠ op → (c.setFrameid op ioid t).frameids op' = c.frameids op' ∧
      (c.setFrameid op ioid t).tickets op' = c.tickets op' := by
    intro op' ho
    simp [Connection.setFrameid, ho]
  -- an ioid of a connection is the one in hand, or it was there
  have hback : ∀ {s d op'}, (io.setConn sid (c.setFrameid op ioid t)).connections s = some d →
      d.frameids op' ≠ 0 → (s = sid ∧ op' = op ∧ d.frameids op' = ioid ∧ d.tickets op' = t) ∨
        ∃ d', io.connections s = some d' ∧ d'.frameids op' = d.frameids op' ∧
          d'.tickets op' = d.tickets op' := by
    intro s d op' hd hd0
    obtain ⟨rfl, rfl⟩ | ⟨_, hd⟩ := Io.setConn_cases hd
    · by_cases ho : op' = op
      · subst ho
        exact .inl ⟨rfl, rfl, hself⟩
      · exact .inr ⟨c, hc, (hother ho).1.symm, (hother ho).2.symm⟩
    · exact .inr ⟨d, hd, rfl, rfl⟩
  have hheld : ∀ {u}, Held (io.setConn sid (c.setFrameid op ioid t)) u → u = t ∨ Held io u := by
    intro u hu
    cases hu with
    | conn hd hd0 =>
      obtain ⟨_, _, _, ht⟩ | ⟨d', hd', hf, ht⟩ := hback hd hd0
      · exact .inl ht
      · rw [← ht]
        exact .inr (.conn hd' (by rw [hf]; exact hd0))
    | listener hl hne => exact .inr (.listener hl hne)
  refine h.setConn_link hc (fun hw => ?_) (fun ho => ?_) (fun hu => ?_) ⟨?_, h.link.drop.flight_le,
    ?_, ?_, ?_,
    h.link.request_fits, h.link.response_fits, h.link.wakeup_fits, ?_, h.link.listener_fits⟩
  · by_cases ho : op = .write
    · subst ho
      rw [hself.1] at hw
      have := hv.1
      omega
    · rw [(hother (Ne.symm ho)).1] at hw
      exact h.inv.room sid c hc hw
  · have hq := (h.sock.untouched sid c hc ho).1
    exact ⟨⟨hq.dontread, hq.sendbuf, hq.finwrite, hq.l⟩, ho⟩
  · have hpos := (h.inv.conn_sid sid c hc).1
    obtain ⟨d, hd, hq⟩ := h.sock.quiet sid (by omega) hu
    rw [hc] at hd
    cases hd
    exact ⟨hq.dontread, hq.sendbuf, hq.finwrite, hq.l⟩
  · intro a u hu
    cases hu with
    | hand hm => exact h.link.drop.valid a u (.hand hm)
    | request hm hr hl => exact h.link.valid a u (.request hm hr (hl.of_some (setConn_none hc)))
    | response hm hr => exact h.link.valid a u (.response hm hr)
    | conn hd hd0 =>
      obtain ⟨_, _, hf, ht⟩ | ⟨d', hd', hf, ht⟩ := hback hd hd0
      · rw [hf, ht]
        exact hv
      · rw [← hf, ← ht]
        exact h.link.valid _ _ (.conn hd' (by rw [hf]; exact hd0))
    | listener hl hne => exact h.link.valid _ _ (.listener hl hne)
    | wakeup hm => exact h.link.valid a u (.wakeup hm)
  · intro u hu
    obtain rfl | hu := hheld hu
    · exact hone
    · exact h.link.drop.held u hu
  · intro s s' d d' hd hd' hd0 hd0' heq
    obtain ⟨hs, ho, _, ht⟩ | ⟨e, he, hf, ht⟩ := hback hd hd0 <;>
      obtain ⟨hs', _, _, ht'⟩ | ⟨e', he', hf', ht'⟩ := hback hd' hd0'
    · rw [hs, hs']
    · exfalso
      apply hnot
      rw [← ht, heq, ← ht']
      exact .conn he' (by rw [hf']; exact hd0')
    · exfalso
      apply hnot
      rw [← ht', ← heq, ← ht]
      exact .conn he (by rw [hf]; exact hd0)
    · exact h.link.held_connect s s' e e' he he' (by rw [hf]; exact hd0) (by rw [hf']; exact hd0')
        (by rw [ht, ht']; exact heq)
  · intro u hu
    obtain hu | hu := hu
    · exact h.link.drop.fresh u (.inl hu)
    · obtain rfl | hu := hheld hu
      · exact h.link.fresh _ (.inl (by rw [flight_cons, if_pos rfl]; omega))
      · exact h.link.fresh u (.inr hu)
  · intro s d op' hd hd0
    obtain ⟨hs, ho, _, ht⟩ | ⟨d', hd', hf, ht⟩ := hback hd hd0
    · subst hs ho
      rw [ht]
      exact ⟨hacc, hop, hsid⟩
    · rw [← ht]
      exact h.link.conn_fits s d' op' hd' (by rw [hf]; exact hd0)

/-- The connection is removed, and the task is not told: it has never heard of it. -/
theorem Ok.remove (h : Ok tsk io hand) (hu : ¬ Unused tsk io sid) :
    Ok tsk (io.removeConnection sid) hand := by
  have hnone : ∀ s, io.connections s = none →
      Function.update io.connections sid none s = none := by
    intro s hs
    rw [Function.update_apply]
    split
    · rfl
    · exact hs
  have hback : ∀ {s d}, Function.update io.connections sid none s = some d →
      s ≠ sid ∧ io.connections s = some d :=
    fun hd => Io.removeConnection_cases hd
  refine h.connections hnone ?_ ?_ ?_ (h.link.kept ?_ hnone)
  · intro s d hd ho
    exact ⟨(h.sock.untouched s d (hback hd).2 ho).1, d, (hback hd).2, ho⟩
  · intro s d hd
    exact h.inv.room _ _ (hback hd).2
  · intro s hs hus
    have hss : s ≠ sid := by
      rintro rfl
      exact hu hus
    obtain ⟨d, hd, hq⟩ := h.sock.quiet s hs hus
    exact ⟨d, by rw [Function.update_of_ne hss]; exact hd, hq⟩
  · intro s d op hd hop
    exact ⟨d, (hback hd).2, rfl, rfl⟩

/-- What a response has to say about the sockets for it to be sent. -/
structure Sendable (tsk : Task) (io : Io) (r : Response) : Prop where
  about : ∀ sid, r.about = some sid → sid ∉ io.closing
  closes : ∀ sid, r.closes = some sid → io.connections sid = none ∧ 0 < sid ∧ sid < io.nextsid ∧
    sid ∉ io.sent.filterMap Response.listens ∧
    ∀ i so, tsk.sysobjects i = some so → so.type = .listener → so.sockid ≠ sid
  announces : ∀ sid, r.announces = some sid → 0 < sid ∧ sid < io.nextsid ∧ sid ∉ io.announced ∧
    (∀ c, io.connections sid = some c → c.state.opening = false) ∧
    ∀ i so, tsk.sysobjects i = some so → so.sockid ≠ sid
  listens : ∀ sid, r.listens = some sid → io.connections sid = none ∧ sid ∉ io.closing
  connects : ∀ sid, r.connects = some sid → (∃ c, io.connections sid = some c ∧ c.Quiet) ∧
    ∀ q ∈ tsk.sent, q.sock ≠ some sid

theorem mem_send_filterMap {α : Type} {f : Response → Option α} {r : Response} {a : α}
    (h : a ∈ (io.send r).sent.filterMap f) : a ∈ io.sent.filterMap f ∨ f r = some a := by
  rw [Io.send, List.filterMap_append, List.mem_append] at h
  refine h.imp id fun h => ?_
  obtain ⟨r', hr', hf⟩ := List.mem_filterMap.mp h
  rw [List.mem_singleton.mp hr'] at hf
  exact hf

theorem Unused.of_send {r : Response} (h : Unused tsk (io.send r) sid) :
    Unused tsk io sid ∨ r.connects = some sid := by
  obtain h | h := h
  · exact .inl (.inl h)
  · obtain h | h := mem_send_filterMap h
    · exact .inl (.inr h)
    · exact .inr h

theorem Io.Inv.send {r : Response} (h : io.Inv) (hr : Sendable tsk io r) : (io.send r).Inv where
  pos := h.pos
  conn_sid := h.conn_sid
  room := h.room
  closed sid hs := by
    obtain hs | hs := mem_send_filterMap hs
    · exact h.closed sid hs
    · obtain ⟨h1, h2, h3, _⟩ := hr.closes sid hs
      exact ⟨h1, h2, h3⟩
  order := by
    refine List.pairwise_append.mpr ⟨h.order, List.pairwise_singleton _ _, ?_⟩
    intro a ha b hb sid hclose habout
    rw [List.mem_singleton.mp hb] at habout
    exact hr.about sid habout (List.mem_filterMap.mpr ⟨a, ha, hclose⟩)
  announced_nodup := by
    rw [Io.announced, Io.send, List.filterMap_append]
    refine List.Nodup.append h.announced_nodup ?_ ?_
    · cases hr' : r.announces <;> simp [hr']
    · intro sid hs hs'
      obtain ⟨r', hr', hf⟩ := List.mem_filterMap.mp hs'
      rw [List.mem_singleton.mp hr'] at hf
      exact (hr.announces sid hf).2.2.1 hs
  announced_lt sid hs := by
    obtain hs | hs := mem_send_filterMap hs
    · exact h.announced_lt sid hs
    · exact ⟨(hr.announces sid hs).1, (hr.announces sid hs).2.1⟩
  opening sid c hc ho hs := by
    obtain hs | hs := mem_send_filterMap hs
    · exact h.opening sid c hc ho hs
    · rw [(hr.announces sid hs).2.2.2.1 c hc] at ho
      cases ho
  listening sid hs := by
    have key : io.connections sid = none ∧ sid ∉ io.closing ∧ r.closes ≠ some sid := by
      obtain hs | hs := mem_send_filterMap hs
      · obtain ⟨h1, h2⟩ := h.listening sid hs
        exact ⟨h1, h2, fun hcl => (hr.closes sid hcl).2.2.2.1 hs⟩
      · obtain ⟨h1, h2⟩ := hr.listens sid hs
        refine ⟨h1, h2, fun hcl => ?_⟩
        cases r <;> simp [Response.closes, Response.listens] at hcl hs
    refine ⟨key.1, fun hcl => ?_⟩
    obtain hcl | hcl := mem_send_filterMap hcl
    · exact key.2.1 hcl
    · exact key.2.2 hcl

theorem Sock.send {r : Response} (h : Sock tsk io) (hr : Sendable tsk io r) :
    Sock tsk (io.send r) where
  inj := h.inj
  lt := h.lt
  announced i so hso hs := by
    obtain hs | hs := mem_send_filterMap hs
    · exact h.announced i so hso hs
    · exact (hr.announces _ hs).2.2.2.2 i so hso rfl
  opening := h.opening
  listener i so hso hty hne := by
    obtain ⟨h1, h2⟩ := h.listener i so hso hty hne
    refine ⟨h1, fun hcl => ?_⟩
    obtain hcl | hcl := mem_send_filterMap hcl
    · exact h2 hcl
    · exact (hr.closes _ hcl).2.2.2.2 i so hso hty rfl
  request_lt := h.request_lt
  untouched := h.untouched
  quiet sid hs hu := by
    obtain hu | hu := hu.of_send
    · exact h.quiet sid hs hu
    · exact (hr.connects sid hu).1
  quiet_request sid hs hu := by
    obtain hu | hu := hu.of_send
    · exact h.quiet_request sid hs hu
    · exact (hr.connects sid hu).2

/-- The I/O thread sends a response, with the ioid in its hand if there is one in the response. -/
theorem Ok.reply {r : Response} (h : Ok tsk io (r.token.toList ++ hand)) (hfit : r.Fits)
    (hr : Sendable tsk io r) : Ok tsk (io.send r) hand := by
  have hfl : ∀ u, flight tsk (io.send r) hand u = flight tsk io (r.token.toList ++ hand) u := by
    intro u
    simp only [flight, Io.send, List.filterMap_append, List.map_append, List.count_append,
      List.filterMap_cons, List.filterMap_nil]
    cases r.token with
    | none => simp
    | some x =>
      simp only [Option.toList_some, List.map_cons, List.map_nil]
      omega
  have hheld : ∀ {u}, Held (io.send r) u → Held io u := by
    intro u hu
    cases hu with
    | conn hd hop => exact .conn hd hop
    | listener hl hne => exact .listener hl hne
  refine ⟨h.inv.send hr, ⟨?_, ?_, ?_, h.link.held_connect, ?_, h.link.request_fits, ?_,
    h.link.wakeup_fits, h.link.conn_fits, h.link.listener_fits⟩, h.sock.send hr⟩
  · intro a u hu
    apply h.link.valid
    cases hu with
    | hand hm => exact .hand (List.mem_append_right _ hm)
    | request hm hr hl => exact .request hm hr hl
    | response hm htok =>
      obtain hm | hm := List.mem_append.mp hm
      · exact .response hm htok
      · rw [List.mem_singleton.mp hm] at htok
        exact .hand (List.mem_append_left _ (by rw [htok]; exact List.mem_singleton_self _))
    | conn hd hop => exact .conn hd hop
    | listener hl hne => exact .listener hl hne
    | wakeup hm => exact .wakeup hm
  · intro u
    rw [hfl]
    exact h.link.flight_le u
  · intro u hu
    rw [hfl]
    exact h.link.held u (hheld hu)
  · intro u hu
    rw [hfl] at hu
    exact h.link.fresh u (hu.imp id hheld)
  · intro q hm
    obtain hm | hm := List.mem_append.mp hm
    · exact h.link.response_fits q hm
    · rw [List.mem_singleton.mp hm]
      exact hfit

/-- A new connection, without an ioid. -/
theorem Ok.addConn (h : Ok tsk io hand) (hf : ∀ op, c.frameids op = 0) (hs : c.sendbuf = [])
    (hq : c.state.opening = true → c.Quiet) :
    Ok tsk (({ io with nextsid := io.nextsid + 1 } : Io).setConn io.nextsid c) hand := by
  have hold : ∀ {s}, s < io.nextsid →
      (({ io with nextsid := io.nextsid + 1 } : Io).setConn io.nextsid c).connections s =
        io.connections s := by
    intro s hlt
    simp only [Io.setConn]
    rw [Function.update_of_ne (by omega)]
  have hback : ∀ {s d op},
      (({ io with nextsid := io.nextsid + 1 } : Io).setConn io.nextsid c).connections s = some d →
        d.frameids op ≠ 0 → io.connections s = some d := by
    intro s d op hd hop
    obtain ⟨_, rfl⟩ | ⟨_, hd⟩ := Io.setConn_cases hd
    · exact absurd (hf op) hop
    · exact hd
  have hheld : ∀ {u},
      Held (({ io with nextsid := io.nextsid + 1 } : Io).setConn io.nextsid c) u → Held io u := by
    intro u hu
    cases hu with
    | conn hd hop => exact .conn (hback hd hop) hop
    | listener hl hne => exact .listener hl hne
  have hlisten : ∀ {s}, s ∈ io.sent.filterMap Response.listens → s < io.nextsid := by
    intro s hs
    refine (h.inv.announced_lt s ?_).2
    obtain ⟨r, hr, hrs⟩ := List.mem_filterMap.mp hs
    refine List.mem_filterMap.mpr ⟨r, hr, ?_⟩
    cases r with
    | listen ioid error sid errmsg t =>
      cases error with
      | true => cases hrs
      | false => exact hrs
    | _ => cases hrs
  refine ⟨⟨by simp [Io.setConn], ?_, ?_, ?_, h.inv.order, h.inv.announced_nodup, ?_, ?_, ?_⟩,
    ⟨?_, h.link.flight_le, fun u hu => h.link.held u (hheld hu), ?_, ?_, h.link.request_fits,
      h.link.response_fits, h.link.wakeup_fits, ?_, h.link.listener_fits⟩,
    ⟨h.sock.inj, ?_, h.sock.announced, ?_, ?_, ?_, ?_, ?_, h.sock.quiet_request⟩⟩
  · intro s d hd
    obtain ⟨rfl, _⟩ | ⟨_, hd⟩ := Io.setConn_cases hd
    · exact ⟨h.inv.pos, Nat.lt_succ_self _⟩
    · exact ⟨(h.inv.conn_sid s d hd).1, Nat.lt_succ_of_lt (h.inv.conn_sid s d hd).2⟩
  · intro s d hd hw
    obtain ⟨_, rfl⟩ | ⟨_, hd⟩ := Io.setConn_cases hd
    · rw [hs]
      exact Nat.zero_lt_succ _
    · exact h.inv.room s d hd hw
  · intro s hs
    obtain ⟨h1, h2, h3⟩ := h.inv.closed s hs
    rw [hold h3]
    exact ⟨h1, h2, Nat.lt_succ_of_lt h3⟩
  · intro s hs
    exact ⟨(h.inv.announced_lt s hs).1, Nat.lt_succ_of_lt (h.inv.announced_lt s hs).2⟩
  · intro s d hd ho ha
    rw [hold (h.inv.announced_lt s ha).2] at hd
    exact h.inv.opening s d hd ho ha
  · intro s hs
    rw [hold (hlisten hs)]
    exact h.inv.listening s hs
  · intro a u hu
    apply h.link.valid
    cases hu with
    | hand hm => exact .hand hm
    | request hm hr hl =>
      refine .request hm hr fun a' u' htok s hs => ?_
      have := hl a' u' htok s hs
      rwa [hold (h.sock.request_lt _ hm s hs)] at this
    | response hm hr => exact .response hm hr
    | conn hd hop => exact .conn (hback hd hop) hop
    | listener hl hne => exact .listener hl hne
    | wakeup hm => exact .wakeup hm
  · intro s s' d d' hd hd' hop hop' heq
    exact h.link.held_connect s s' d d' (hback hd hop) (hback hd' hop') hop hop' heq
  · intro u hu
    exact h.link.fresh u (hu.imp id hheld)
  · intro s d op hd hop
    exact h.link.conn_fits s d op (hback hd hop) hop
  · intro i so hso
    exact Nat.lt_succ_of_lt (h.sock.lt i so hso)
  · intro i so d hso hd
    rw [hold (h.sock.lt i so hso)] at hd
    exact h.sock.opening i so d hso hd
  · intro i so hso hty hne
    rw [hold (h.sock.lt i so hso)]
    exact h.sock.listener i so hso hty hne
  · intro r hr s hs
    exact Nat.lt_succ_of_lt (h.sock.request_lt r hr s hs)
  · intro s d hd ho
    obtain ⟨rfl, rfl⟩ | ⟨_, hd⟩ := Io.setConn_cases hd
    · refine ⟨hq ho, fun r hr hrs => ?_⟩
      exact absurd (h.sock.request_lt r hr _ hrs) (Nat.lt_irrefl _)
    · exact h.sock.untouched s d hd ho
  · intro s hs hu
    obtain ⟨d, hd, hq⟩ := h.sock.quiet s hs hu
    exact ⟨d, by rw [hold (h.inv.conn_sid s d hd).2]; exact hd, hq⟩

/-- A socket number is taken. -/
theorem Ok.bump (h : Ok tsk io hand) : Ok tsk { io with nextsid := io.nextsid + 1 } hand where
  inv :=
    { h.inv with
      pos := Nat.succ_pos _
      conn_sid := fun s d hd =>
        ⟨(h.inv.conn_sid s d hd).1, Nat.lt_succ_of_lt (h.inv.conn_sid s d hd).2⟩
      closed := fun s hs =>
        ⟨(h.inv.closed s hs).1, (h.inv.closed s hs).2.1, Nat.lt_succ_of_lt (h.inv.closed s hs).2.2⟩
      announced_lt := fun s hs =>
        ⟨(h.inv.announced_lt s hs).1, Nat.lt_succ_of_lt (h.inv.announced_lt s hs).2⟩ }
  link :=
    { h.link with
      valid := fun a u hu => h.link.valid a u (by
        cases hu with
        | hand hm => exact .hand hm
        | request hm hr hl => exact .request hm hr hl
        | response hm hr => exact .response hm hr
        | conn hd hop => exact .conn hd hop
        | listener hl hne => exact .listener hl hne
        | wakeup hm => exact .wakeup hm)
      held := fun u hu => h.link.held u (by
        cases hu with
        | conn hd hop => exact .conn hd hop
        | listener hl hne => exact .listener hl hne)
      fresh := fun u hu => h.link.fresh u (hu.imp id fun hu => by
        cases hu with
        | conn hd hop => exact .conn hd hop
        | listener hl hne => exact .listener hl hne) }
  sock :=
    { h.sock with
      lt := fun i so hso => Nat.lt_succ_of_lt (h.sock.lt i so hso)
      request_lt := fun r hr s hs => Nat.lt_succ_of_lt (h.sock.request_lt r hr s hs) }

/-- The listeners change to `g`. What they do to the ioids is in `hl`. -/
theorem Ok.listeners {hand' : List (Nat × Ticket)} {g : Nat → Option Listener}
    (h : Ok tsk io hand) (hl : Link tsk { io with listeners := g } hand') :
    Ok tsk { io with listeners := g } hand' where
  inv := ⟨h.inv.pos, h.inv.conn_sid, h.inv.room, h.inv.closed, h.inv.order, h.inv.announced_nodup,
    h.inv.announced_lt, h.inv.opening, h.inv.listening⟩
  link := hl
  sock := ⟨h.sock.inj, h.sock.lt, h.sock.announced, h.sock.opening, h.sock.listener,
    h.sock.request_lt, h.sock.untouched, h.sock.quiet, h.sock.quiet_request⟩

theorem Link.keptListeners {g : Nat → Option Listener} (h : Link tsk io hand)
    (hg : ∀ s l, g s = some l → l.acceptFrameid ≠ 0 → io.listeners s = some l) :
    Link tsk { io with listeners := g } hand where
  valid a u hu := by
    apply h.valid
    cases hu with
    | hand hm => exact .hand hm
    | request hm hr hl => exact .request hm hr hl
    | response hm hr => exact .response hm hr
    | conn hd hop => exact .conn hd hop
    | listener hl hne => exact .listener (hg _ _ hl hne) hne
    | wakeup hm => exact .wakeup hm
  flight_le := h.flight_le
  held u hu := by
    apply h.held
    cases hu with
    | conn hd hop => exact .conn hd hop
    | listener hl hne => exact .listener (hg _ _ hl hne) hne
  held_connect := h.held_connect
  fresh u hu := by
    refine h.fresh u (hu.imp id fun hu => ?_)
    cases hu with
    | conn hd hop => exact .conn hd hop
    | listener hl hne => exact .listener (hg _ _ hl hne) hne
  request_fits := h.request_fits
  response_fits := h.response_fits
  wakeup_fits := h.wakeup_fits
  conn_fits := h.conn_fits
  listener_fits s l hl hne := h.listener_fits s l (hg s l hl hne) hne

theorem update_listener_cases {g : Nat → Option Listener} {l l' : Listener} {s : Nat}
    (h : Function.update g sid (some l) s = some l') :
    (s = sid ∧ l' = l) ∨ (s ≠ sid ∧ g s = some l') := by
  rw [Function.update_apply] at h
  split at h
  · rename_i hs
    exact .inl ⟨hs, (Option.some.inj h).symm⟩
  · rename_i hs
    exact .inr ⟨hs, h⟩

/-- The I/O thread takes an ioid from a listener. -/
theorem Ok.takeListener {l m : Listener} (h : Ok tsk io hand) (hl : io.listeners sid = some l)
    (hne : l.acceptFrameid ≠ 0) (hm : m.acceptFrameid = 0) :
    Ok tsk (io.setListener sid m) ((l.acceptFrameid, l.ticket) :: hand) := by
  have hk := h.link.keptListeners (g := Function.update io.listeners sid (some m)) (by
    intro s m' hm' hm0
    obtain ⟨_, rfl⟩ | ⟨_, hm'⟩ := update_listener_cases hm'
    · exact absurd hm hm0
    · exact hm')
  have hfit := h.link.listener_fits sid l hl hne
  have hheld : Held io l.ticket := .listener hl hne
  refine h.listeners (hk.pick (h.link.valid _ _ (.listener hl hne)) (h.link.held _ hheld) ?_
    (h.link.fresh _ (.inr hheld)))
  generalize hu : l.ticket = u
  rw [hu] at hfit
  intro hh
  cases hh with
  | @conn s d op hd hop =>
    obtain ⟨hacc, hop', _⟩ := h.link.conn_fits s d op hd hop
    rw [hfit.1] at hop'
    exact hacc (Option.some.inj hop').symm
  | @listener s m' hm' hm0 =>
    have hms := (hk.listener_fits s m' hm' hm0).2
    obtain ⟨_, rfl⟩ | ⟨hs, _⟩ := update_listener_cases hm'
    · exact hm0 hm
    · exact hs (hms.symm.trans hfit.2)

/-- The I/O thread gives an ioid to a listener. -/
theorem Ok.storeListener {l : Listener} (h : Ok tsk io ((ioid, t) :: hand))
    (hi : l.acceptFrameid = ioid) (ht : l.ticket = t) (hop : t.op = some .accept)
    (hsid : t.sid = sid) : Ok tsk (io.setListener sid l) hand := by
  have hone : flight tsk io hand t = 0 := by
    have := h.link.flight_le t
    rw [flight_cons, if_pos rfl] at this
    omega
  have hheld : ∀ {u}, Held (io.setListener sid l) u → u = t ∨ Held io u := by
    intro u hu
    cases hu with
    | conn hd hop => exact .inr (.conn hd hop)
    | listener hm hne =>
      obtain ⟨_, rfl⟩ | ⟨_, hm⟩ := update_listener_cases hm
      · exact .inl ht
      · exact .inr (.listener hm hne)
  refine h.listeners ⟨?_, h.link.drop.flight_le, ?_, h.link.held_connect, ?_, h.link.request_fits,
    h.link.response_fits, h.link.wakeup_fits, h.link.conn_fits, ?_⟩
  · intro a u hu
    apply h.link.valid
    cases hu with
    | hand hm => exact .hand (List.mem_cons_of_mem _ hm)
    | request hm hr hl => exact .request hm hr hl
    | response hm hr => exact .response hm hr
    | conn hd hop => exact .conn hd hop
    | listener hm hne =>
      obtain ⟨_, rfl⟩ | ⟨_, hm⟩ := update_listener_cases hm
      · rw [hi, ht]
        exact .hand (List.mem_cons_self ..)
      · exact .listener hm hne
    | wakeup hm => exact .wakeup hm
  · intro u hu
    obtain rfl | hu := hheld hu
    · exact hone
    · exact h.link.drop.held u hu
  · intro u hu
    obtain hu | hu := hu
    · exact h.link.drop.fresh u (.inl hu)
    · obtain rfl | hu := hheld hu
      · exact h.link.fresh _ (.inl (by rw [flight_cons, if_pos rfl]; omega))
      · exact h.link.fresh u (.inr hu)
  · intro s m hm hne
    obtain ⟨rfl, rfl⟩ | ⟨_, hm⟩ := update_listener_cases hm
    · rw [ht]
      exact ⟨hop, hsid⟩
    · exact h.link.listener_fits s m hm hne

/-- The I/O thread takes the first request. It forgets the ioid if the connection is gone. -/
theorem Ok.pop {r : Request} {rest : List Request} (h : Ok tsk io hand) (hs : tsk.sent = r :: rest)
    (hl : r.Live io) : Ok { tsk with sent := rest } io (r.token.toList ++ hand) := by
  have hmem : r ∈ tsk.sent := by rw [hs]; exact List.mem_cons_self ..
  have hsub : ∀ {q}, q ∈ rest → q ∈ tsk.sent := by
    intro q hq
    rw [hs]
    exact List.mem_cons_of_mem _ hq
  have hfl : ∀ u, flight { tsk with sent := rest } io (r.token.toList ++ hand) u =
      flight tsk io hand u := by
    intro u
    simp only [flight, hs, List.filterMap_cons, List.map_append, List.count_append]
    cases r.token with
    | none => simp
    | some x =>
      simp only [Option.toList_some, List.map_cons, List.map_nil, List.count_cons, List.count_nil]
      omega
  refine ⟨h.inv, ⟨?_, ?_, ?_, h.link.held_connect, ?_, fun q hq => h.link.request_fits q (hsub hq),
    h.link.response_fits, h.link.wakeup_fits, h.link.conn_fits, h.link.listener_fits⟩,
    ⟨h.sock.inj, h.sock.lt, h.sock.announced, h.sock.opening, h.sock.listener,
      fun q hq => h.sock.request_lt q (hsub hq),
      fun s d hd ho => ⟨(h.sock.untouched s d hd ho).1,
        fun q hq => (h.sock.untouched s d hd ho).2 q (hsub hq)⟩, h.sock.quiet,
      fun s h0 hu q hq => h.sock.quiet_request s h0 hu q (hsub hq)⟩⟩
  · intro a u hu
    apply h.link.valid
    cases hu with
    | hand hm =>
      obtain hm | hm := List.mem_append.mp hm
      · exact .request hmem (Option.mem_toList.mp hm) hl
      · exact .hand hm
    | request hm hr hl => exact .request (hsub hm) hr hl
    | response hm hr => exact .response hm hr
    | conn hd hop => exact .conn hd hop
    | listener hm hne => exact .listener hm hne
    | wakeup hm => exact .wakeup hm
  · intro u
    rw [hfl]
    exact h.link.flight_le u
  · intro u hu
    rw [hfl]
    exact h.link.held u hu
  · intro u hu
    rw [hfl] at hu
    exact h.link.fresh u hu

/-- A request for a connection that is gone is dropped. -/
theorem Ok.popDead {r : Request} {rest : List Request} (h : Ok tsk io hand)
    (hs : tsk.sent = r :: rest) : Ok { tsk with sent := rest } io hand := by
  have hsub : ∀ {q}, q ∈ rest → q ∈ tsk.sent := by
    intro q hq
    rw [hs]
    exact List.mem_cons_of_mem _ hq
  have hfl : ∀ u, flight { tsk with sent := rest } io hand u ≤ flight tsk io hand u := by
    intro u
    simp only [flight, hs, List.filterMap_cons]
    cases r.token with
    | none => exact Nat.le_refl _
    | some x =>
      simp only [List.map_cons, List.count_cons]
      omega
  refine ⟨h.inv, ⟨?_, ?_, ?_, h.link.held_connect, ?_, fun q hq => h.link.request_fits q (hsub hq),
    h.link.response_fits, h.link.wakeup_fits, h.link.conn_fits, h.link.listener_fits⟩,
    ⟨h.sock.inj, h.sock.lt, h.sock.announced, h.sock.opening, h.sock.listener,
      fun q hq => h.sock.request_lt q (hsub hq),
      fun s d hd ho => ⟨(h.sock.untouched s d hd ho).1,
        fun q hq => (h.sock.untouched s d hd ho).2 q (hsub hq)⟩, h.sock.quiet,
      fun s h0 hu q hq => h.sock.quiet_request s h0 hu q (hsub hq)⟩⟩
  · intro a u hu
    apply h.link.valid
    cases hu with
    | hand hm => exact .hand hm
    | request hm hr hl => exact .request (hsub hm) hr hl
    | response hm hr => exact .response hm hr
    | conn hd hop => exact .conn hd hop
    | listener hm hne => exact .listener hm hne
    | wakeup hm => exact .wakeup hm
  · exact fun u => Nat.le_trans (hfl u) (h.link.flight_le u)
  · intro u hu
    have := hfl u
    rw [h.link.held u hu] at this
    omega
  · intro u hu
    exact h.link.fresh u (hu.imp (fun hpos => Nat.lt_of_lt_of_le hpos (hfl u)) id)

end

end Suspend
end Runtime
end NReduce
