import NReduce.Runtime.SuspendInv

/-!
# NReduce.Runtime.SuspendIo

The I/O thread keeps every ioid in one place, whatever requests it is sent and whatever the peers
do, as long as the end of the output (a write of no bytes) does not reach it after the connection
is gone: it then sends a response although the task is woken by the notice that the connection is
closed.
-/

namespace NReduce
namespace Runtime
namespace Suspend

section

variable {tsk : Task} {io io' : Io} {hand : List (Nat × Ticket)} {sid ioid : Nat} {t : Ticket}
  {c e : Connection} {op : Frameaddr} {event : CE}

/-! ## Connections -/

theorem Ok.not_unused (h : Ok tsk io hand) (hc : io.connections sid = some c) (hq : ¬ c.Quiet) :
    ¬ Unused tsk io sid := by
  intro hu
  have hpos := (h.inv.conn_sid sid c hc).1
  obtain ⟨d, hd, hdq⟩ := h.sock.quiet sid (by omega) hu
  rw [hc] at hd
  cases hd
  exact hq hdq

/-- The task has not heard of a connection that is being made. -/
theorem Ok.not_announced (h : Ok tsk io hand) (hc : io.connections sid = some c)
    (ho : c.state.opening = true) :
    sid ∉ io.announced ∧ ∀ i so, tsk.sysobjects i = some so → so.sockid ≠ sid := by
  refine ⟨h.inv.opening sid c hc ho, ?_⟩
  rintro i so hso rfl
  rw [h.sock.opening i so c hso hc] at ho
  cases ho

theorem connects_announced {r : Response} (h : r.connects = some sid) :
    r.announces = some sid := by
  cases r with
  | connect ioid error errn sid errmsg t =>
    cases error with
    | true => cases h
    | false => exact h
  | _ => cases h

theorem Ok.not_unused_opening (h : Ok tsk io hand) (hc : io.connections sid = some c)
    (ho : c.state.opening = true) : ¬ Unused tsk io sid := by
  obtain ⟨hann, hso⟩ := h.not_announced hc ho
  rintro (⟨i, so, hi, _, hs, _⟩ | hm)
  · exact hso i so hi hs
  · obtain ⟨r, hr, hrs⟩ := List.mem_filterMap.mp hm
    exact hann (List.mem_filterMap.mpr ⟨r, hr, connects_announced hrs⟩)

/-- An event of a connection that has been made. -/
theorem CS.next_made {s s' : CS} (hs : s.opening = false) (h : s.next event = some s') :
    s' = .finished ∨
      s'.opening = false ∧ s' ≠ .finished ∧ s' ≠ .failed ∧ s' ≠ .ended ∧ event ≠ .asyncOk := by
  cases s <;> cases event <;> simp [CS.next, CS.opening] at hs h <;> subst h <;>
    simp [CS.opening]

theorem Io.setConn_setConn : (io.setConn sid c).setConn sid e = io.setConn sid e := by
  simp [Io.setConn]

theorem Io.removeConnection_setConn :
    (io.setConn sid c).removeConnection sid = io.removeConnection sid := by
  simp [Io.setConn, Io.removeConnection]

theorem Io.setConn_self (hc : io.connections sid = some c) : io.setConn sid c = io := by
  simp [Io.setConn, ← hc]

theorem Io.setConn_get : (io.setConn sid c).connections sid = some c := by
  simp [Io.setConn]

/-- `Ok.take`, for a connection that has just been changed -/
theorem Ok.take_setConn (h : Ok tsk (io.setConn sid c) hand) (hop : c.frameids op ≠ 0)
    (hroom : op = .write → c.sendbuf.length < iosize) :
    Ok tsk (io.setConn sid (c.clearFrameid op)) ((c.frameids op, c.tickets op) :: hand) := by
  have htake := h.take Io.setConn_get hop hroom
  rwa [Io.setConn_setConn] at htake

/-- The connection is removed, and the task is told. -/
theorem Ok.close (h : Ok tsk io hand) (hc : io.connections sid = some c)
    (hu : ¬ Unused tsk io sid) (error : Bool) (errmsg : String) :
    Ok tsk ((io.removeConnection sid).send (.connectionClosed sid error errmsg)) hand := by
  refine Ok.reply (r := .connectionClosed sid error errmsg) (h.remove hu) trivial ?_
  refine ⟨?_, ?_, ?_, ?_, ?_⟩
  · intro s hs
    cases hs
  · intro s hs
    cases hs
    obtain ⟨hpos, hlt⟩ := h.inv.conn_sid sid c hc
    refine ⟨by simp [Io.removeConnection], hpos, hlt, fun hl => ?_, ?_⟩
    · rw [(h.inv.listening sid hl).1] at hc
      cases hc
    · rintro i so hso hty rfl
      rw [(h.sock.listener i so hso hty (by omega)).1] at hc
      cases hc
  all_goals
    intro s hs
    cases hs

/-- `connection_fsm`, for a connection that has been made and is in use -/
theorem Ok.fsm (h : Ok tsk io hand) (event : CE) (hc : io.connections sid = some c)
    (ho : c.state.opening = false) (hu : ¬ Unused tsk io sid)
    (hok : io.connectionFsm sid c event = .ok io') : Ok tsk io' hand := by
  unfold Io.connectionFsm at hok
  cases hn : c.state.next event with
  | none => rw [hn] at hok; cases hok
  | some s =>
    rw [hn] at hok
    obtain rfl | ⟨ho', h1, h2, h3, h4⟩ := CS.next_made ho hn
    · cases hok
      exact h.close hc hu _ _
    · have hset : io' = io.setConn sid { c with state := s } := by
        cases s <;> simp_all
      rw [hset]
      exact h.setConn hc rfl rfl (h.inv.room sid c hc) (fun h' => by rw [ho'] at h'; cases h')
        (fun h' => absurd h' hu)

/-- The connection is changed before the event. -/
theorem Ok.fsm_setConn (h : Ok tsk (io.setConn sid c) hand) (ho : c.state.opening = false)
    (hu : ¬ Unused tsk io sid) (hok : io.connectionFsm sid c event = .ok io') :
    Ok tsk io' hand := by
  refine h.fsm event (by simp [Io.setConn]) ho hu ?_
  unfold Io.connectionFsm at hok ⊢
  cases hn : c.state.next event with
  | none => rw [hn] at hok; cases hok
  | some s =>
    rw [hn] at hok
    rw [← hok]
    obtain rfl | ⟨_, h1, h2, h3, h4⟩ := CS.next_made ho hn
    · simp [Io.removeConnection_setConn]
    · cases s <;> simp_all [Io.setConn_setConn]

/-- The connect fails: the task is told, and the connection is removed. -/
theorem Ok.connectFailed (h : Ok tsk io hand) (hc : io.connections sid = some c)
    (ho : c.state.opening = true) (hf : e.frameids = c.frameids) (ht : e.tickets = c.tickets)
    (hq : e.Quiet) :
    Ok tsk ((io.notifyConnect sid e true).removeConnection sid) hand := by
  have hu := h.not_unused_opening hc ho
  have hset : Ok tsk (io.setConn sid e) hand :=
    h.setConn hc hf ht (fun _ => by rw [hq.sendbuf]; exact Nat.zero_lt_succ _)
      (fun _ => ⟨hq, ho⟩) (fun h' => absurd h' hu)
  unfold Io.notifyConnect
  split
  · rename_i hpos
    have htake := hset.take_setConn (Nat.pos_iff_ne_zero.mp hpos) (fun h' => by cases h')
    have hfit := (h.link.conn_fits sid c .connect hc (by rw [← hf]; omega)).2.1
    rw [← ht] at hfit
    have hrep := Ok.reply (r := .connect (e.frameids .connect) true e.errn 0 e.errmsg
      (e.tickets .connect)) htake ⟨hfit, fun _ => rfl⟩ ⟨by simp [Response.about],
      by simp [Response.closes], by simp [Response.announces], by simp [Response.listens],
      by simp [Response.connects]⟩
    refine hrep.remove ?_
    rintro (hm | hm)
    · exact hu (.inl hm)
    · obtain hm | hm := mem_send_filterMap hm
      · exact hu (.inr hm)
      · cases hm
  · refine hset.remove hu

/-- The connection has been made: the task is told. -/
theorem Ok.connected (h : Ok tsk io hand) (hc : io.connections sid = some c)
    (ho : c.state.opening = true) :
    Ok tsk (io.notifyConnect sid { c with state := .connected } false) hand := by
  have hu := h.not_unused_opening hc ho
  have hq := (h.sock.untouched sid c hc ho).1
  have hset : Ok tsk (io.setConn sid { c with state := .connected }) hand :=
    h.setConn hc rfl rfl (h.inv.room sid c hc) (fun h' => by cases h') (fun h' => absurd h' hu)
  obtain ⟨hann, hso⟩ := h.not_announced hc ho
  obtain ⟨hpos, hlt⟩ := h.inv.conn_sid sid c hc
  unfold Io.notifyConnect
  split
  · rename_i hpos'
    have hne := Nat.pos_iff_ne_zero.mp hpos'
    refine Ok.reply (r := .connect (c.frameids .connect) false c.errn sid c.errmsg
      (c.tickets .connect)) (hset.take_setConn hne (fun h' => by cases h'))
      ⟨(h.link.conn_fits sid c .connect hc hne).2.1, by simp⟩ ⟨by simp [Response.about],
        by simp [Response.closes], ?_,
      by simp [Response.listens], ?_⟩
    · intro s hs
      cases hs
      refine ⟨hpos, hlt, hann, ?_, hso⟩
      intro d hd
      simp only [Io.setConn, Function.update_self, Option.some.injEq] at hd
      subst hd
      rfl
    · intro s hs
      cases hs
      exact ⟨⟨_, Io.setConn_get, hq.dontread, hq.sendbuf, hq.finwrite, hq.l⟩,
        (h.sock.untouched sid c hc ho).2⟩
  · exact hset

/-! ## Messages -/

theorem Ok.iothreadConnect (h : Ok tsk io ((ioid, t) :: hand)) (hop : t.op = some .connect)
    (hok : io.iothreadConnect ioid t = .ok io') : Ok tsk io' hand := by
  have hadd := h.addConn (c := { state := .waiting, dontread := true }) (fun _ => rfl) rfl
    (fun _ => ⟨rfl, rfl, rfl, rfl⟩)
  have hst := hadd.store .connect Io.setConn_get (by simp) hop (fun h' => absurd rfl h')
  rw [Io.setConn_setConn] at hst
  cases hok
  exact hst

theorem Ok.iothreadListen (h : Ok tsk io ((ioid, t) :: hand)) (hop : t.op = some .listen)
    (error : Option String) : Ok tsk (io.iothreadListen ioid error t) hand := by
  cases error with
  | some errmsg =>
    exact Ok.reply (r := .listen ioid true 0 errmsg t) h ⟨hop, fun _ => rfl⟩
      ⟨by simp [Response.about],
      by simp [Response.closes], by simp [Response.announces], by simp [Response.listens],
      by simp [Response.connects]⟩
  | none =>
    have hnext : ∀ {s}, s < io.nextsid → s ≠ io.nextsid := fun h' => Nat.ne_of_lt h'
    have hnone : io.connections io.nextsid = none := by
      cases hc : io.connections io.nextsid with
      | none => rfl
      | some d => exact absurd (h.inv.conn_sid _ d hc).2 (Nat.lt_irrefl _)
    have hadd : Ok tsk (({ io with nextsid := io.nextsid + 1 } : Io).setListener io.nextsid {})
        ((ioid, t) :: hand) := by
      have hb := h.bump
      refine hb.listeners (hb.link.keptListeners fun s l hl hne => ?_)
      obtain ⟨_, rfl⟩ | ⟨_, hl⟩ := update_listener_cases hl
      · exact absurd rfl hne
      · exact hl
    refine Ok.reply (r := .listen ioid false io.nextsid "" t) hadd ⟨hop, by simp⟩
      ⟨by simp [Response.about],
      by simp [Response.closes], ?_, ?_, by simp [Response.connects]⟩
    · intro s hs
      cases hs
      refine ⟨h.inv.pos, Nat.lt_succ_self _, fun ha => ?_, fun c hc => ?_, ?_⟩
      · exact absurd (h.inv.announced_lt _ ha).2 (Nat.lt_irrefl _)
      · exact absurd (hc.symm.trans hnone) (by simp)
      · intro i so hso
        exact hnext (h.sock.lt i so hso)
    · intro s hs
      cases hs
      exact ⟨hnone, fun hcl => absurd (h.inv.closed _ hcl).2.2 (Nat.lt_irrefl _)⟩

theorem Ok.iothreadAccept (h : Ok tsk io ((ioid, t) :: hand)) (hop : t.op = some .accept)
    (hsid : t.sid = sid) (hok : io.iothreadAccept sid ioid t = .ok io') : Ok tsk io' hand := by
  unfold Io.iothreadAccept at hok
  split at hok
  · cases hok
  · split at hok
    · cases hok
      exact h.storeListener rfl rfl hop hsid
    · cases hok

theorem Ok.iothreadRead (h : Ok tsk io ((ioid, t) :: hand)) (hc : io.connections sid = some c)
    (ho : c.state.opening = false) (hu : ¬ Unused tsk io sid) (hop : t.op = some .read)
    (hsid : t.sid = sid) (hok : io.iothreadRead sid ioid t = .ok io') : Ok tsk io' hand := by
  unfold Io.iothreadRead at hok
  rw [hc] at hok
  dsimp only at hok
  split at hok
  · cases hok
  · cases hok
    have hst := h.store .read hc (by simp) hop (fun _ => hsid)
    have hset := hst.setConn (e := { c.setFrameid .read ioid t with dontread := false })
      Io.setConn_get rfl rfl (hst.inv.room sid (c.setFrameid .read ioid t) Io.setConn_get)
      (fun h' => by
        have h'' : c.state.opening = true := h'
        rw [ho] at h''
        cases h'')
      (fun h' => absurd h' hu)
    rwa [Io.setConn_setConn] at hset

theorem Sendable.write (h : Ok tsk io hand) (hc : io.connections t.sid = some c) :
    Sendable tsk io (.write ioid t) := by
  refine ⟨fun s hs hcl => ?_, by simp [Response.closes], by simp [Response.announces],
    by simp [Response.listens], by simp [Response.connects]⟩
  cases hs
  rw [(h.inv.closed _ hcl).1] at hc
  cases hc

theorem Ok.iothreadWrite {data : List UInt8} (h : Ok tsk io ((ioid, t) :: hand))
    (hc : io.connections sid = some c) (hu : ¬ Unused tsk io sid) (hop : t.op = some .write)
    (hsid : t.sid = sid) (hok : io.iothreadWrite sid ioid data t = .ok io') : Ok tsk io' hand := by
  unfold Io.iothreadWrite at hok
  rw [hc] at hok
  dsimp only at hok
  split at hok
  · cases hok
  · rename_i hcond
    simp only [Bool.or_eq_true, decide_eq_true_eq, not_or, Bool.not_eq_true] at hcond
    obtain ⟨⟨_, ho⟩, hzero⟩ := hcond
    have hzero : c.frameids .write = 0 := by simpa using hzero
    generalize hd : (if 0 < data.length then { c with sendbuf := c.sendbuf ++ data }
      else { c with finwrite := true } : Connection) = d at hok
    have hdf : d.frameids = c.frameids ∧ d.tickets = c.tickets ∧ d.state = c.state := by
      rw [← hd]
      split <;> exact ⟨rfl, rfl, rfl⟩
    have hopen : d.state.opening = true → False := by
      rw [hdf.2.2, ho]
      simp
    by_cases hspace : d.sendbuf.length < iosize
    · have hset : Ok tsk (io.setConn sid d) ((ioid, t) :: hand) :=
        h.setConn hc hdf.1 hdf.2.1 (fun _ => hspace) (fun h' => (hopen h').elim)
          (fun h' => absurd h' hu)
      have heq : (io.setConn sid d).send (.write ioid t) = io' := by
        simpa [hspace] using hok
      rw [← heq]
      refine Ok.reply (r := .write ioid t) hset hop (Sendable.write hset (c := d) ?_)
      rw [hsid]
      exact Io.setConn_get
    · -- a write of no bytes always finds space
      have hlen : ¬ data.length = 0 := by
        intro hlen
        have hdb : d.sendbuf = c.sendbuf := by
          rw [← hd, if_neg (by omega)]
        rw [hdb] at hspace
        exact hspace (h.inv.room sid c hc hzero)
      have hlen' : ¬ data = [] := fun h' => hlen (by rw [h']; rfl)
      have heq : io.setConn sid (d.setFrameid .write ioid t) = io' := by
        simpa [hspace, hlen'] using hok
      rw [← heq]
      have hst := h.store .write hc (by simp) hop (fun _ => hsid)
      have hv := h.link.valid _ _ (.hand (List.mem_cons_self ..))
      have hset := hst.setConn (e := d.setFrameid .write ioid t) Io.setConn_get
        (by simp [Connection.setFrameid, hdf.1]) (by simp [Connection.setFrameid, hdf.2.1])
        (fun h' => by
          have h0 : ioid = 0 := by simpa [Connection.setFrameid] using h'
          have := hv.1
          omega)
        (fun h' => (hopen h').elim) (fun h' => absurd h' hu)
      rwa [Io.setConn_setConn] at hset

theorem Ok.iothreadDeleteConnection (h : Ok tsk io hand)
    (ho : ∀ c, io.connections sid = some c → c.state.opening = false) (hu : ¬ Unused tsk io sid)
    (hok : io.iothreadDeleteConnection sid = .ok io') : Ok tsk io' hand := by
  unfold Io.iothreadDeleteConnection at hok
  cases hc : io.connections sid with
  | none =>
    rw [hc] at hok
    cases hok
    exact h
  | some c =>
    rw [hc] at hok
    have ho := ho c hc
    have hset := h.setConn (e := { c with collected := true, finwrite := true }) hc rfl rfl
      (h.inv.room sid c hc)
      (fun h' => by
        have h'' : c.state.opening = true := h'
        rw [ho] at h''
        cases h'')
      (fun h' => absurd h' hu)
    exact hset.fsm_setConn ho
      (fun h' => hu (h'.imp id id)) hok

/-- The loop of `node_remove_listener` -/
theorem Ok.deleteConns {lsid : Nat} {sids : List Nat} (h : Ok tsk io hand)
    (hok : io.deleteConns lsid sids = .ok io') : Ok tsk io' hand := by
  induction sids generalizing io with
  | nil =>
    cases hok
    exact h
  | cons sid rest ih =>
    unfold Io.deleteConns at hok
    cases hc : io.connections sid with
    | none =>
      rw [hc] at hok
      exact ih h hok
    | some c =>
      rw [hc] at hok
      dsimp only at hok
      split at hok
      · rename_i hl
        cases hfsm : io.connectionFsm sid c .delete with
        | error e =>
          rw [hfsm] at hok
          cases hok
        | ok io₁ =>
          rw [hfsm] at hok
          -- a connection that was accepted is not being made, and is not one that was asked for
          have hq : ¬ c.Quiet := by
            intro hq
            rw [hq.l] at hl
            cases hl
          refine ih (h.fsm _ hc ?_ (h.not_unused hc hq) hfsm) hok
          cases ho : c.state.opening with
          | false => rfl
          | true => exact absurd (h.sock.untouched sid c hc ho).1 hq
      · exact ih h hok

theorem Ok.iothreadDeleteListener (h : Ok tsk io hand)
    (hok : io.iothreadDeleteListener sid = .ok io') : Ok tsk io' hand := by
  unfold Io.iothreadDeleteListener at hok
  split at hok
  · cases hok
    exact h
  · cases hdel : io.deleteConns sid (List.range io.nextsid) with
    | error e =>
      rw [hdel] at hok
      cases hok
    | ok io₁ =>
      rw [hdel] at hok
      cases hok
      have h₁ := h.deleteConns hdel
      refine h₁.listeners (h₁.link.keptListeners fun s l hl _ => ?_)
      rw [Function.update_apply] at hl
      split at hl
      · cases hl
      · exact hl

/-- `iothread_handle_message` -/
theorem Ok.handleMessage {r : Request} {rest : List Request} {error : Option String}
    (h : Ok tsk io []) (hs : tsk.sent = r :: rest)
    (hend : ∀ sid ioid t, r = .write sid ioid [] t → io.connections sid ≠ none)
    (hok : io.handleMessage error r = .ok io') : Ok { tsk with sent := rest } io' [] := by
  have hmem : r ∈ tsk.sent := by rw [hs]; exact List.mem_cons_self ..
  have hfit := h.link.request_fits r hmem
  -- the connection of the request is not one that nobody has used
  have hu : ∀ {s c}, r.sock = some s → io.connections s = some c →
      ¬ Unused { tsk with sent := rest } io s := by
    intro s c hrs hc hu
    have hpos := (h.inv.conn_sid s c hc).1
    exact h.sock.quiet_request s (by omega) hu r hmem hrs
  have ho : ∀ {s c}, r.sock = some s → io.connections s = some c → c.state.opening = false := by
    intro s c hrs hc
    cases ho : c.state.opening with
    | false => rfl
    | true => exact absurd hrs ((h.sock.untouched s c hc ho).2 r hmem)
  cases r with
  | connect ioid t =>
    exact Ok.iothreadConnect (h.pop hs fun _ _ _ s hs => by cases hs) hfit.1 hok
  | listen ioid t =>
    cases hok
    exact Ok.iothreadListen (h.pop hs fun _ _ _ s hs => by cases hs) hfit.1 error
  | accept sid ioid t =>
    exact Ok.iothreadAccept (h.pop hs fun _ _ _ s hs => by cases hs) hfit.1 hfit.2 hok
  | read sid ioid t =>
    cases hc : io.connections sid with
    | none =>
      have heq : io = io' := by simpa [Io.handleMessage, Io.iothreadRead, hc] using hok
      rw [← heq]
      exact h.popDead hs
    | some c =>
      refine Ok.iothreadRead (h.pop hs ?_) hc (ho rfl hc) (hu rfl hc) hfit.1 hfit.2 hok
      intro _ _ _ s hs
      cases hs
      rw [hc]
      simp
  | write sid ioid data t =>
    cases hc : io.connections sid with
    | none =>
      have hlen : data ≠ [] := by
        rintro rfl
        exact hend sid ioid t rfl hc
      have heq : io = io' := by simpa [Io.handleMessage, Io.iothreadWrite, hc, hlen] using hok
      rw [← heq]
      exact h.popDead hs
    | some c =>
      refine Ok.iothreadWrite (h.pop hs ?_) hc (hu rfl hc) hfit.1 hfit.2 hok
      intro _ _ _ s hs
      cases hs
      rw [hc]
      simp
  | deleteConnection sid =>
    cases hc : io.connections sid with
    | none =>
      have heq : io = io' := by
        simpa [Io.handleMessage, Io.iothreadDeleteConnection, hc] using hok
      rw [← heq]
      exact h.popDead hs
    | some c =>
      refine Ok.iothreadDeleteConnection (h.popDead hs) (fun d hd => ho rfl hd) (hu rfl hc) hok
  | deleteListener sid => exact Ok.iothreadDeleteListener (h.popDead hs) hok

/-! ## The peers -/

theorem Ok.connectPending {error : Option (Nat × String)} (h : Ok tsk io hand)
    (hok : io.connectPending sid error = .ok io') : Ok tsk io' hand := by
  unfold Io.connectPending at hok
  cases hc : io.connections sid with
  | none => rw [hc] at hok; cases hok
  | some c =>
    rw [hc] at hok
    dsimp only at hok
    split at hok
    · rename_i hst
      have ho : c.state.opening = true := by rw [hst]; rfl
      have hq := (h.sock.untouched sid c hc ho).1
      cases error with
      | none =>
        cases hok
        exact h.setConn hc rfl rfl (h.inv.room sid c hc)
          (fun _ => ⟨⟨hq.dontread, hq.sendbuf, hq.finwrite, hq.l⟩, ho⟩)
          (fun h' => absurd h' (h.not_unused_opening hc ho))
      | some e =>
        cases hok
        exact h.connectFailed hc ho rfl rfl ⟨hq.dontread, hq.sendbuf, hq.finwrite, hq.l⟩
    · cases hok

theorem Ok.handleConnected {error : Option (Nat × String)} (h : Ok tsk io hand)
    (hok : io.handleConnected sid error = .ok io') : Ok tsk io' hand := by
  unfold Io.handleConnected at hok
  cases hc : io.connections sid with
  | none => rw [hc] at hok; cases hok
  | some c =>
    rw [hc] at hok
    dsimp only at hok
    split at hok
    · rename_i hst
      have ho : c.state.opening = true := by rw [hst]; rfl
      have hq := (h.sock.untouched sid c hc ho).1
      cases error with
      | none =>
        have heq : io.notifyConnect sid { c with state := .connected } false = io' := by
          simpa [Io.connectionFsm, hst, CS.next] using hok
        rw [← heq]
        exact h.connected hc ho
      | some e =>
        have heq : (io.notifyConnect sid { c with errn := e.1, errmsg := e.2 }
            true).removeConnection sid = io' := by
          simpa [Io.connectionFsm, hst, CS.next] using hok
        rw [← heq]
        exact h.connectFailed hc ho rfl rfl ⟨hq.dontread, hq.sendbuf, hq.finwrite, hq.l⟩
    · cases hok

/-- `notify_read`, with the connection put back -/
theorem Ok.notifyRead (h : Ok tsk (io.setConn sid c) hand) (ho : c.state.opening = false)
    (hu : ¬ Unused tsk io sid) :
    Ok tsk ((io.notifyRead sid c).1.setConn sid (io.notifyRead sid c).2) hand ∧
      (io.notifyRead sid c).2.state = c.state ∧ ¬ Unused tsk (io.notifyRead sid c).1 sid := by
  unfold Io.notifyRead
  split
  · rename_i hpos
    have hne := Nat.pos_iff_ne_zero.mp hpos
    have hfit := h.link.conn_fits sid c .read Io.setConn_get hne
    have htake := h.take_setConn hne (fun h' => by cases h')
    have hnot : ∀ r : Response, r.connects = none → ¬ Unused tsk (io.send r) sid := by
      intro r hr hu'
      obtain hu' | hu' := hu'.of_send
      · exact hu hu'
      · rw [hr] at hu'
        cases hu'
    have hrep := Ok.reply (r := .read (c.frameids .read) sid c.recvbuf (c.tickets .read)) htake
      ⟨hfit.2.1, hfit.2.2 (by simp)⟩ ⟨?_, by simp [Response.closes], by simp [Response.announces],
        by simp [Response.listens], by simp [Response.connects]⟩
    · have hset := hrep.setConn
        (e := { c.clearFrameid .read with recvbuf := [], dontread := true }) Io.setConn_get rfl rfl
        (hrep.inv.room sid (c.clearFrameid .read) Io.setConn_get)
        (fun h' => by
          have h'' : c.state.opening = true := h'
          rw [ho] at h''
          cases h'')
        (fun h' => absurd (show Unused tsk (io.send _) sid from h') (hnot _ rfl))
      refine ⟨?_, rfl, hnot _ rfl⟩
      have heq : ((io.setConn sid (c.clearFrameid .read)).send
          (.read (c.frameids .read) sid c.recvbuf (c.tickets .read))).setConn sid
            { c.clearFrameid .read with recvbuf := [], dontread := true } =
          (io.send (.read (c.frameids .read) sid c.recvbuf (c.tickets .read))).setConn sid
            { c.clearFrameid .read with recvbuf := [], dontread := true } := by
        simp [Io.setConn, Io.send]
      rw [← heq]
      exact hset
    · intro s hs hcl
      cases hs
      have := (htake.inv.closed _ hcl).1
      rw [hfit.2.2 (by simp), Io.setConn_get] at this
      cases this
  · exact ⟨h, rfl, hu⟩

/-- `notify_write`, with the connection put back -/
theorem Ok.notifyWrite (h : Ok tsk (io.setConn sid c) hand) (hu : ¬ Unused tsk io sid) :
    Ok tsk ((io.notifyWrite c).1.setConn sid (io.notifyWrite c).2) hand ∧
      (io.notifyWrite c).2.state = c.state ∧ ¬ Unused tsk (io.notifyWrite c).1 sid := by
  unfold Io.notifyWrite
  split
  · rename_i hcond
    simp only [Bool.and_eq_true, decide_eq_true_eq] at hcond
    obtain ⟨hpos, hroom⟩ := hcond
    have hne := Nat.pos_iff_ne_zero.mp hpos
    have hfit := h.link.conn_fits sid c .write Io.setConn_get hne
    have htake := h.take_setConn hne (fun _ => hroom)
    have hrep := Ok.reply (r := .write (c.frameids .write) (c.tickets .write)) htake hfit.2.1
      (Sendable.write htake (c := c.clearFrameid .write) (by
        rw [hfit.2.2 (by simp)]
        exact Io.setConn_get))
    refine ⟨hrep, rfl, fun hu' => ?_⟩
    obtain hu' | hu' := hu'.of_send
    · exact hu hu'
    · cases hu'
  · exact ⟨h, rfl, hu⟩

theorem Ok.handleWrite {n : Nat} {error : Option (Nat × String)} (h : Ok tsk io hand)
    (hok : io.handleWrite sid n error = .ok io') : Ok tsk io' hand := by
  unfold Io.handleWrite at hok
  cases hc : io.connections sid with
  | none => rw [hc] at hok; cases hok
  | some c =>
    rw [hc] at hok
    dsimp only at hok
    split at hok
    · rename_i hcond
      simp only [Bool.and_eq_true, Bool.or_eq_true, decide_eq_true_eq] at hcond
      obtain ⟨hcan, hdata⟩ := hcond
      have ho : c.state.opening = false := by
        cases hs : c.state <;> rw [hs] at hcan <;> first | rfl | cases hcan
      have hq : ¬ c.Quiet := by
        intro hq
        rw [hq.sendbuf, hq.finwrite] at hdata
        simp at hdata
      have hu := h.not_unused hc hq
      have hopen : c.state.opening = true → False := by
        rw [ho]
        simp
      cases error with
      | some e =>
        dsimp only at hok
        split at hok
        · cases hok
        · have hset := h.setConn (e := { c with errn := e.1, errmsg := e.2 }) hc rfl rfl
            (h.inv.room sid c hc) (fun h' => (hopen h').elim) (fun h' => absurd h' hu)
          exact hset.fsm_setConn ho hu hok
      | none =>
        dsimp only at hok
        have hset := h.setConn (e := { c with sendbuf := c.sendbuf.drop n }) hc rfl rfl
          (fun h' => by
            have := h.inv.room sid c hc h'
            rw [List.length_drop]
            omega)
          (fun h' => (hopen h').elim) (fun h' => absurd h' hu)
        obtain ⟨hset, hstate, hu'⟩ := hset.notifyWrite hu
        split at hok
        · exact hset.fsm_setConn (by rw [hstate]; exact ho) hu' hok
        · cases hok
          exact hset
    · cases hok

theorem Ok.handleRead {input : Io.Input} (h : Ok tsk io hand)
    (hok : io.handleRead sid input = .ok io') : Ok tsk io' hand := by
  unfold Io.handleRead at hok
  cases hc : io.connections sid with
  | none => rw [hc] at hok; cases hok
  | some c =>
    rw [hc] at hok
    dsimp only at hok
    split at hok
    · rename_i hcond
      simp only [Bool.and_eq_true, Bool.not_eq_true'] at hcond
      obtain ⟨hcan, hdont⟩ := hcond
      have ho : c.state.opening = false := by
        cases hs : c.state <;> rw [hs] at hcan <;> first | rfl | cases hcan
      have hq : ¬ c.Quiet := by
        intro hq
        rw [hq.dontread] at hdont
        cases hdont
      have hu := h.not_unused hc hq
      have hopen : c.state.opening = true → False := by
        rw [ho]
        simp
      cases input with
      | failed errn errmsg =>
        have hset := h.setConn (e := { c with errn := errn, errmsg := errmsg }) hc rfl rfl
          (h.inv.room sid c hc) (fun h' => (hopen h').elim) (fun h' => absurd h' hu)
        exact hset.fsm_setConn ho hu hok
      | eof =>
        have hset : Ok tsk (io.setConn sid c) hand := by rwa [Io.setConn_self hc]
        obtain ⟨hset, hstate, hu'⟩ := hset.notifyRead ho hu
        exact hset.fsm_setConn (by rw [hstate]; exact ho) hu' hok
      | data bytes =>
        dsimp only at hok
        split at hok
        · cases hok
        · have hset := h.setConn (e := { c with recvbuf := c.recvbuf ++ bytes }) hc rfl rfl
            (h.inv.room sid c hc) (fun h' => (hopen h').elim) (fun h' => absurd h' hu)
          obtain ⟨hset, hstate, hu'⟩ := hset.notifyRead ho hu
          exact hset.fsm_setConn (by rw [hstate]; exact ho) hu' hok
    · cases hok

theorem Ok.handleNewConnection (h : Ok tsk io hand)
    (hok : io.handleNewConnection sid = .ok io') : Ok tsk io' hand := by
  unfold Io.handleNewConnection at hok
  cases hl : io.listeners sid with
  | none => rw [hl] at hok; cases hok
  | some l =>
    rw [hl] at hok
    dsimp only at hok
    split at hok
    · cases hok
    · split at hok
      · cases hok
      · rename_i hne
        cases hok
        have hadd := h.addConn
          (c := { state := .connected, l := some sid, dontread := true }) (fun _ => rfl) rfl
          (fun h' => by cases h')
        have htake := hadd.takeListener (l := l)
          (m := { l with acceptFrameid := 0, dontaccept := true }) hl hne rfl
        refine Ok.reply (r := .accept l.acceptFrameid io.nextsid l.ticket) htake
          (h.link.listener_fits sid l hl hne).1 ⟨by simp [Response.about],
            by simp [Response.closes], ?_, by simp [Response.listens], by simp [Response.connects]⟩
        intro s hs
        cases hs
        refine ⟨h.inv.pos, Nat.lt_succ_self _, fun ha => ?_, fun d hd => ?_, fun i so hso => ?_⟩
        · exact absurd (h.inv.announced_lt _ ha).2 (Nat.lt_irrefl _)
        · simp only [Io.setListener, Io.setConn, Function.update_self, Option.some.injEq] at hd
          subst hd
          rfl
        · exact Nat.ne_of_lt (h.sock.lt i so hso)

end

end Suspend
end Runtime
end NReduce
