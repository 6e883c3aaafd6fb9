import NReduce.Network.Events
import NReduce.Network.Iothread

/-!
# NReduce.Network.IothreadCorrect

What the functions of the I/O thread do to the node.

* `Effect`: which connections change, and who the owners can be.
* `Works`: a connection is used and stays in its state.
* `Turned`: a turn of a loop over the connections. The list changes at its end only, or the
  connection of the turn is taken from it.
-/

namespace NReduce
namespace Network
namespace Io

open Logic

variable {T : List Nat} {S : List Endpointid} {n m n' : Node} {c : Nat} {x y : Conn}

/-! ## Effects -/

/-- An endpoint that is started between two states of the node -/
def Started (n n' : Node) (e : Endpointid) : Prop :=
  e.ip = n.listenip ∧ e.port = n.listenport ∧ n.nextlocalid ≤ e.localid ∧
    e.localid < n'.nextlocalid

/-- The owners that come from outside: none at all, one of `S`, or a new console -/
def Given (S : List Endpointid) (n n' : Node) (e : Endpointid) : Prop :=
  e.localid = 0 ∨ e ∈ S ∨ Started n n' e

/-- No two listeners have one address. -/
structure Keyed (n : Node) : Prop where
  nodup : (n.listeners.map (·.key)).Nodup
  lt_next : ∀ l ∈ n.listeners, l.key < n.nextListener

/-- The same listeners, but for their other fields -/
theorem Keyed.congr (h : Keyed n) (hkeys : n'.listeners.map (·.key) = n.listeners.map (·.key))
    (hnext : n'.nextListener = n.nextListener) : Keyed n' where
  nodup := by
    rw [hkeys]
    exact h.nodup
  lt_next l hl := by
    have hmem : l.key ∈ n'.listeners.map (·.key) := List.mem_map_of_mem hl
    rw [hkeys] at hmem
    obtain ⟨l', hl', hkey⟩ := List.mem_map.mp hmem
    rw [hnext, ← hkey]
    exact h.lt_next l' hl'

/-- Only the connections `T` change, and new owners are among `S`. -/
structure Effect (T : List Nat) (S : List Endpointid) (n n' : Node) : Prop where
  listenip : n'.listenip = n.listenip
  listenport : n'.listenport = n.listenport
  nextlocalid : n.nextlocalid ≤ n'.nextlocalid
  next : n.next ≤ n'.next
  old : ∀ c, c < n.next → c ∉ T → SameConn (n.conn c) (n'.conn c)
  owner : ∀ c y, n'.conn c = some y →
    Given S n n' y.owner ∨ ∃ x, n.conn c = some x ∧ x.owner = y.owner
  attempts : Noted (fun c e => Given S n n' e ∨ ∃ x, n.conn c = some x ∧ x.owner = e) n n'
  listeners : ∀ l ∈ n'.listeners, l.owner ∈ S ∨ ∃ l' ∈ n.listeners, l'.owner = l.owner
  keyed : Keyed n → Keyed n'

theorem Around.effect (h : Around T n n') (S : List Endpointid) : Effect T S n n' where
  listenip := h.listenip
  listenport := h.listenport
  nextlocalid := by
    rw [h.nextlocalid]
    exact UInt32.le_refl _
  next := h.next
  old := h.old
  owner c y hy := by
    obtain hlt | hle := Nat.lt_or_ge c n.next
    · obtain ⟨x, hx, howner⟩ := h.owner c y hlt hy
      exact .inr ⟨x, hx, howner.symm⟩
    · exact .inl (.inl (h.new c y hle hy).1)
  attempts := h.attempts.mono fun _ _ he => he.imp_left .inl
  listeners l hl := .inr ⟨l, h.listeners ▸ hl, rfl⟩
  keyed hk := hk.congr (by rw [h.listeners]) h.nextListener

theorem Given.first (h : Given S n m e) (hm : Effect T S m n') : Given S n n' e := by
  obtain h | h | ⟨hip, hport, hle, hlt⟩ := h
  · exact .inl h
  · exact .inr (.inl h)
  · exact .inr (.inr ⟨hip, hport, hle, UInt32.lt_of_lt_of_le hlt hm.nextlocalid⟩)

theorem Given.last (h : Given S m n' e) (hm : Effect T S n m) : Given S n n' e := by
  obtain h | h | ⟨hip, hport, hle, hlt⟩ := h
  · exact .inl h
  · exact .inr (.inl h)
  · exact .inr (.inr ⟨hip.trans hm.listenip, hport.trans hm.listenport,
      UInt32.le_trans hm.nextlocalid hle, hlt⟩)

theorem Effect.trans (h : Effect T S n m) (h' : Effect T S m n') : Effect T S n n' where
  listenip := h'.listenip.trans h.listenip
  listenport := h'.listenport.trans h.listenport
  nextlocalid := UInt32.le_trans h.nextlocalid h'.nextlocalid
  next := h.next.trans h'.next
  old c hc hT := (h.old c hc hT).trans (h'.old c (hc.trans_le h.next) hT)
  owner c y hy := by
    obtain hgiven | ⟨z, hz, howner⟩ := h'.owner c y hy
    · exact .inl (hgiven.last h)
    · obtain hgiven | ⟨x, hx, howner'⟩ := h.owner c z hz
      · exact .inl (howner ▸ hgiven.first h')
      · exact .inr ⟨x, hx, howner'.trans howner⟩
  attempts := by
    refine h.attempts.trans h'.attempts (fun _ _ he => he.imp_left fun hg => hg.first h')
      fun c e he => ?_
    obtain hgiven | ⟨z, hz, howner⟩ := he
    · exact .inl (hgiven.last h)
    · obtain hgiven | ⟨x, hx, howner'⟩ := h.owner c z hz
      · exact .inl (howner ▸ hgiven.first h')
      · exact .inr ⟨x, hx, howner'.trans howner⟩
  listeners l hl := by
    obtain hl | ⟨l', hl', howner⟩ := h'.listeners l hl
    · exact .inl hl
    · obtain hl' | ⟨l'', hl'', howner'⟩ := h.listeners l' hl'
      · exact .inl (howner ▸ hl')
      · exact .inr ⟨l'', hl'', howner'.trans howner⟩
  keyed hk := h'.keyed (h.keyed hk)

theorem Effect.mono {T' : List Nat} (h : Effect T S n n') (hT : ∀ c ∈ T, c ∈ T') :
    Effect T' S n n' :=
  { h with old := fun c hc hn => h.old c hc fun hm => hn (hT c hm) }

theorem Effect.widen {S' : List Endpointid} (h : Effect T S n n') (hS : ∀ e ∈ S, e ∈ S') :
    Effect T S' n n' :=
  have hgiven : ∀ {e}, Given S n n' e → Given S' n n' e := fun he => he.imp_right (.imp_left (hS _))
  { h with
    owner := fun c y hy => (h.owner c y hy).imp_left hgiven
    attempts := h.attempts.mono fun _ _ he => he.imp_left hgiven
    listeners := fun l hl => (h.listeners l hl).imp_left (hS _) }

theorem Effect.refl (T : List Nat) (S : List Endpointid) {n : Node} (h : Books n) :
    Effect T S n n :=
  (Around.refl T h).effect S

/-! ## Messages and links -/

/-- What a function does that is about no connection -/
def Plain (n n' : Node) : Prop := Inv [] n' ∧ Frame n n'

theorem Silent.plain (h : Silent n n') (hinv : Inv [] n) : Plain n n' :=
  ⟨h.inv hinv, h.frame hinv.books⟩

theorem Plain.trans (h : Plain n m) (h' : Plain m n') : Plain n n' :=
  ⟨h'.1, h.2.trans h'.2⟩

/-- A message that is about no connection's end -/
theorem send_plain (h : Inv [] n) {dest : Endpointid} {msg : Msg} (habout : msg.about = none) :
    Safe Fault.bad (Plain n) (send n dest msg) := by
  have hsilent : Silent n (n.note (.sent dest msg)) :=
    { toSameNode := ⟨rfl, rfl, rfl, rfl, rfl, rfl, rfl, rfl⟩
      next := rfl
      conn := rfl
      connections := rfl
      server := rfl
      servers := rfl
      log := ⟨[.sent dest msg], rfl, fun x hx => List.mem_singleton.mp hx ▸ habout⟩ }
  exact (send_spec (hsilent.inv h)).mono fun n' h' => ⟨h'.1, (hsilent.frame h.books).trans h'.2⟩

theorem Silent.endpoints (n : Node) (endpoints : List Endpoint) :
    Silent n { n with endpoints := endpoints } where
  toSameNode := ⟨rfl, rfl, rfl, rfl, rfl, rfl, rfl, rfl⟩
  next := rfl
  conn := rfl
  connections := rfl
  server := rfl
  servers := rfl
  log := ⟨[], (List.append_nil n.log).symm, fun _ hx => absurd hx List.not_mem_nil⟩

theorem endpointLink_plain (h : Inv [] n) (dest : Endpointid) :
    Safe Fault.bad (Plain n) (endpointLink n dest) := by
  unfold endpointLink
  split
  · exact ⟨h, .refl h.books⟩
  · have hsilent := Silent.endpoints n (n.endpoints.map fun endpt =>
      if endpt.localid = 1 then { endpt with outlinks := dest :: endpt.outlinks } else endpt)
    exact (send_plain (hsilent.inv h) rfl).mono fun n' h' => (hsilent.plain h).trans h'

theorem gotMessage_plain (h : Inv [] n) (dest tag : UInt32) (data : List UInt8) :
    Safe Fault.bad (Plain n) (gotMessage n dest tag data) := by
  unfold gotMessage
  split
  · split
    · exact (Silent.endpoints n _).plain h
    · exact ⟨h, .refl h.books⟩
  · split
    · exact Safe.bind (Safe.require fun _ => id) fun _ _ => send_plain h rfl
    · exact ⟨h, .refl h.books⟩

/-! ## Using a connection -/

/-- The connection `c` is used. -/
structure Works (S : List Endpointid) (c : Nat) (st : CS) (n n' : Node) : Prop where
  inv : Inv [] n'
  effect : Effect [c] S n n'
  list : Grows n n' n.connections
  conn : ∃ y, n'.conn c = some y ∧ y.state = st

theorem Works.refl (S : List Endpointid) (h : Inv [] n) (hc : n.conn c = some x) :
    Works S c x.state n n :=
  ⟨h, .refl _ _ h.books, .refl n, x, hc, rfl⟩

theorem Works.trans {st st' : CS} (h : Works S c st n m) (h' : Works S c st' m n') :
    Works S c st' n n' :=
  ⟨h'.inv, h.effect.trans h'.effect, h.list.trans h.effect.next h'.list, h'.conn⟩

theorem Works.plain {st : CS} (h : Works S c st n m) (hlt : c < n.next) (h' : Plain m n') :
    Works S c st n n' := by
  obtain ⟨y, hy, hstate⟩ := h.conn
  have hsame := h'.2.old c (hlt.trans_le h.effect.next) List.not_mem_nil
  obtain ⟨z, hz, hcore⟩ := hsame.some hy
  exact ⟨h'.1, h.effect.trans ((h'.2.around _).effect S), h.list.trans h.effect.next h'.2.connections,
    z, hz, (Conn.core_state hcore).trans hstate⟩

/-- The fields that the books and the messages do not depend on -/
structure SameState (x y : Conn) : Prop where
  entry : y.entry = x.entry
  connectFrame : y.connectFrame = x.connectFrame

theorem Inv.set (h : Inv T n) (hc : n.conn c = some x) (hsame : SameState x y) :
    Inv T (n.set c y) := by
  have hstate : y.state = x.state := congrArg (fun e => e.2.1) hsame.entry
  have hget : ∀ d z, (n.set c y).conn d = some z → ∃ w, n.conn d = some w ∧ z.state = w.state ∧
      z.connectFrame = w.connectFrame := by
    intro d z hz
    by_cases hd : d = c
    · subst hd
      rw [Node.set_conn_self] at hz
      cases hz
      exact ⟨x, hc, hstate, hsame.connectFrame⟩
    · rw [n.set_conn_of_ne hd] at hz
      exact ⟨z, hz, rfl, rfl⟩
  constructor
  · exact h.books.set hc hsame.entry
  · exact h.fresh
  · intro d z hz hd
    obtain ⟨w, hw, hst, -⟩ := hget d z hz
    rw [hst]
    exact h.stable d w hw hd
  · intro d z hz hd
    obtain ⟨w, hw, hst, hframe⟩ := hget d z hz
    exact (h.live d w hw hd).congr (by rw [hst]) hframe
  · intro d hlt hnone
    by_cases hd : d = c
    · rw [hd, Node.set_conn_self] at hnone
      cases hnone
    · rw [n.set_conn_of_ne hd] at hnone
      exact h.gone d hlt hnone

/-- A new owner is among `S`. -/
theorem Effect.set (hc : n.conn c = some x)
    (howner : y.owner = x.owner ∨ y.owner ∈ S) : Effect [c] S n (n.set c y) where
  listenip := rfl
  listenport := rfl
  nextlocalid := UInt32.le_refl _
  next := le_rfl
  old d _ hd := by
    rw [n.set_conn_of_ne (by simpa using hd)]
    rfl
  owner d z hz := by
    by_cases hd : d = c
    · subst hd
      rw [Node.set_conn_self] at hz
      cases hz
      obtain howner | howner := howner
      · exact .inr ⟨x, hc, howner.symm⟩
      · exact .inl (.inr (.inl howner))
    · rw [n.set_conn_of_ne hd] at hz
      exact .inr ⟨z, hz, rfl⟩
  attempts := .refl rfl
  listeners l hl := .inr ⟨l, hl, rfl⟩
  keyed hk := hk.congr rfl rfl

theorem Works.set (h : Inv [] n) (hc : n.conn c = some x) (hsame : SameState x y)
    (howner : y.owner = x.owner ∨ y.owner ∈ S) : Works S c x.state n (n.set c y) :=
  ⟨h.set hc hsame, .set hc howner, .refl n, y, n.set_conn_self c y,
    congrArg (fun e => e.2.1) hsame.entry⟩

/-- These fields are all that the invariant is about. -/
theorem Inv.congr (h : Inv T n) (hnext : n'.next = n.next) (hconn : n'.conn = n.conn)
    (hlist : n'.connections = n.connections) (hserver : n'.server = n.server)
    (hservers : n'.servers = n.servers) (hlog : n'.log = n.log) : Inv T n' where
  books := h.books.congr (fun c => by rw [hconn]) hnext hlist hserver hservers
  fresh c hc := by
    rw [hlog]
    exact h.fresh c (hnext ▸ hc)
  stable c x hx hc := h.stable c x (hconn ▸ hx) hc
  live c x hx hc := by
    rw [hlog]
    exact h.live c x (hconn ▸ hx) hc
  gone c hc hnone := by
    rw [hlog]
    exact h.gone c (hnext ▸ hc) (hconn ▸ hnone)

theorem lt_succ_of_ne {a : UInt32} (h : a ≠ 0xffffffff) : a < a + 1 := by
  have hne : a.toNat ≠ 4294967295 := fun he => h (UInt32.toNat_inj.mp he)
  have hlt := a.toNat_lt
  rw [UInt32.lt_iff_toNat_lt, UInt32.toNat_add]
  have hone : (1 : UInt32).toNat = 1 := rfl
  omega

theorem startConsole_spec (h : Inv [] n) (hc : n.conn c = some x) :
    Safe Fault.bad (Works [] c x.state n) (startConsole n c) := by
  unfold startConsole
  rw [Node.get_bind hc]
  refine Safe.bind (Safe.require fun _ => id) fun _ hmax => ?_
  have hlt := lt_succ_of_ne hmax
  dsimp only
  have hworks : Works [] c x.state n
      ({ n with
        nextlocalid := n.nextlocalid + 1
        endpoints := n.endpoints ++ [Endpoint.mk n.nextlocalid []] }.set c
        { x with owner := ⟨n.listenip, n.listenport, n.nextlocalid⟩ }) := by
    have hinv : Inv [] { n with
        nextlocalid := n.nextlocalid + 1
        endpoints := n.endpoints ++ [Endpoint.mk n.nextlocalid []] } :=
      h.congr rfl rfl rfl rfl rfl rfl
    refine ⟨hinv.set hc ⟨rfl, rfl⟩, ?_, .refl n, _, Node.set_conn_self .., rfl⟩
    have hset := Effect.set (n := n) (S := [⟨n.listenip, n.listenport, n.nextlocalid⟩]) hc
      (y := { x with owner := ⟨n.listenip, n.listenport, n.nextlocalid⟩ })
      (.inr (List.mem_singleton_self _))
    refine ⟨rfl, rfl, UInt32.le_of_lt hlt, le_rfl, hset.old, fun d z hz => ?_,
      .refl rfl, fun l hl => .inr ⟨l, hl, rfl⟩,
      fun hk => hk.congr rfl rfl⟩
    obtain (hnull | hmem | hstarted) | hold := hset.owner d z hz
    · exact .inl (.inl hnull)
    · rw [List.mem_singleton.mp hmem]
      exact .inl (.inr (.inr ⟨rfl, rfl, UInt32.le_refl _, hlt⟩))
    · exact absurd hstarted.2.2.2 (UInt32.not_lt.mpr hstarted.2.2.1)
    · exact .inr hold
  exact (endpointLink_plain hworks.inv _).mono fun n' h' => hworks.plain (h.books.lt_next hc) h'

theorem runAction_spec (h : Inv [] n) (hc : n.conn c = some x) (a : Action) :
    Safe Fault.bad (Works [] c x.state n) (runAction c n a) := by
  have hworks := Works.refl [] h hc
  have hlt := h.books.lt_next hc
  cases a with
  | gotMessage hdr source tag size data =>
    exact (gotMessage_plain h _ _ _).mono fun n' h' => hworks.plain hlt h'
  | startConsole => exact startConsole_spec h hc
  | readResponse ioid data =>
    unfold runAction
    dsimp only
    rw [Node.get_bind hc]
    exact (send_plain h rfl).mono fun n' h' => hworks.plain hlt h'

theorem runOn_spec (h : Inv [] n) (hc : n.conn c = some x)
    (f : Connection → Connection × List Action) :
    Safe Fault.bad (Works [] c x.state n) (runOn f n c) := by
  unfold runOn
  rw [Node.get_bind hc]
  refine Safe.foldlM (P := Works [] c x.state n) (fun m a hm => ?_) _ ?_
  · obtain ⟨y, hy, hstate⟩ := hm.conn
    exact (runAction_spec hm.inv hy a).mono fun n' h' => hm.trans (hstate ▸ h')
  · exact .set h hc ⟨rfl, rfl⟩ (.inl rfl)

theorem notifyWrite_spec (h : Inv [] n) (hc : n.conn c = some x) :
    Safe Fault.bad (Works [] c x.state n) (notifyWrite n c) := by
  unfold notifyWrite
  rw [Node.get_bind hc]
  split
  · exact Safe.fault id
  · split
    · have hworks := Works.set (S := []) h hc (y := { x with writeFrame := 0 }) ⟨rfl, rfl⟩ (.inl rfl)
      exact (send_plain hworks.inv rfl).mono fun n' h' => hworks.plain (h.books.lt_next hc) h'
    · exact .refl [] h hc

/-! ## The turns -/

/-- A turn of a loop that is about the connection `c` -/
structure Turned (c : Nat) (n n' : Node) : Prop where
  inv : Inv [] n'
  effect : Effect [c] [] n n'
  list : Grows n n' n.connections ∨ n'.conn c = none ∧ Grows n n' (n.connections.erase c)

theorem Works.turned {st : CS} (h : Works [] c st n n') : Turned c n n' :=
  ⟨h.inv, h.effect, .inl h.list⟩

theorem Ended.turned (h : Ended [] c n n') : Turned c n n' :=
  ⟨h.inv, h.around.effect [], .inr ⟨h.conn, h.list⟩⟩

theorem Stays.works {st : CS} (h : Stays c x st n n') : Works [] c st n n' := by
  obtain ⟨y, hy, hstate, -⟩ := h.conn
  exact ⟨h.inv, h.around.effect [], h.list, y, hy, hstate⟩

theorem Works.turn {st : CS} (h : Works [] c st n m) (hmem : c ∈ n.connections)
    (h' : Turned c m n') : Turned c n n' := by
  refine ⟨h'.inv, h.effect.trans h'.effect, ?_⟩
  obtain hlist | ⟨hnone, new', hl', hnew'⟩ := h'.list
  · exact .inl (h.list.trans h.effect.next hlist)
  · obtain ⟨new, hl, hnew⟩ := h.list
    refine .inr ⟨hnone, new ++ new', ?_, fun d hd => ?_⟩
    · rw [hl', hl, List.erase_append_left _ hmem, List.append_assoc]
    · obtain hd | hd := List.mem_append.mp hd
      · exact hnew d hd
      · exact h.effect.next.trans (hnew' d hd)

/-- An event of a connection that has been connected -/
theorem fsm_turned (h : Inv [] n) (hc : n.conn c = some x) {event : CE} {st : CS}
    (hafter : x.state.after event = some st) : Safe Fault.bad (Turned c n) (fsm n c event) :=
  (fsm_after h hc hafter).mono fun _ h' => h'.elim (fun h'' => h''.2.turned)
    fun h'' => h''.2.works.turned

theorem writeLoop_safe : ∀ (len : Nat) (results : List Written),
    Safe Fault.bad (fun _ => True) (writeLoop len results)
  | 0, results => by cases results <;> trivial
  | _ + 1, [] => Safe.fault id
  | _ + 1, .again :: _ => trivial
  | _ + 1, .error :: _ => trivial
  | _ + 1, .bytes 0 :: _ => trivial
  | _ + 1, .bytes (_ + 1) :: rest => writeLoop_safe _ rest

theorem CS.after_of_canWrite {st : CS} (h : st.canWrite = true) :
    st.after .error = some .finished ∧ ∃ st', st.after .finwrite = some st' := by
  cases st <;> first | (cases h; done) | exact ⟨rfl, _, rfl⟩

theorem CS.after_of_canRead {st : CS} (h : st.canRead = true) :
    st.after .error = some .finished ∧ (∃ st', st.after .finread = some st') ∧
    (∃ st', st.after .read = some st' ∧ st' ≠ .finished) ∧
    ∃ st' st'', st.after .finwrite = some st' ∧ st' ≠ .finished ∧
      st'.after .finread = some st'' := by
  cases st <;> first
    | (cases h; done)
    | exact ⟨rfl, ⟨_, rfl⟩, ⟨_, rfl, by decide⟩, _, _, rfl, by decide, rfl⟩

theorem handleWrite_spec (h : Inv [] n) (hc : n.conn c = some x) (hwrite : x.state.canWrite = true)
    (hmem : c ∈ n.connections) (results : List Written) :
    Safe Fault.bad (Turned c n) (handleWrite n c results) := by
  obtain ⟨herror, st, hfinwrite⟩ := CS.after_of_canWrite hwrite
  unfold handleWrite
  rw [Node.get_bind hc]
  split
  · exact Safe.fault id
  · next len _ =>
    refine Safe.bind (writeLoop_safe len results) ?_
    rintro ⟨left, ok⟩ -
    dsimp only
    have hworks := Works.set (S := []) h hc (y := { x with sendbuf := some left }) ⟨rfl, rfl⟩ (.inl rfl)
    obtain ⟨y, hy, hstate⟩ := hworks.conn
    split
    · exact (fsm_turned hworks.inv hy (hstate.symm ▸ herror)).mono fun n' h' => hworks.turn hmem h'
    · refine Safe.bind (notifyWrite_spec hworks.inv hy) fun m hm => ?_
      rw [hstate] at hm
      have hworks' := hworks.trans hm
      obtain ⟨z, hz, hstatez⟩ := hm.conn
      rw [Node.get_bind hz]
      split
      · exact (fsm_turned hm.inv hz (hstatez.symm ▸ hfinwrite)).mono fun n' h' =>
          hworks'.turn hmem h'
      · exact hworks'.turned

theorem handleRead_spec (h : Inv [] n) (hc : n.conn c = some x) (hread : x.state.canRead = true)
    (hmem : c ∈ n.connections) (result : ReadResult) :
    Safe Fault.bad (Turned c n) (handleRead n c result) := by
  obtain ⟨herror, ⟨st, hfinread⟩, ⟨st₁, hread₁, hne₁⟩, st₂, st₃, hfinwrite, hne₂, hfinread₃⟩ :=
    CS.after_of_canRead hread
  cases result with
  | error => exact fsm_turned h hc herror
  | closed =>
    refine Safe.bind (runOn_spec h hc notifyRead) fun m hm => ?_
    obtain ⟨y, hy, hstate⟩ := hm.conn
    obtain ⟨m', hm', hsilent⟩ := handleDisconnection_spec hy
    rw [hm', ok_bind]
    have hworks := hm.plain (h.books.lt_next hc) (hsilent.plain hm.inv)
    obtain ⟨z, hz, hstatez⟩ := hworks.conn
    rw [Node.get_bind hz]
    split
    · dsimp only
      rw [pure_bind]
      exact (fsm_turned hworks.inv hz (hstatez.symm ▸ hfinread)).mono fun n' h' =>
        hworks.turn hmem h'
    · refine Safe.bind (fsm_after hworks.inv hz (hstatez.symm ▸ hfinwrite)) ?_
      rintro p (⟨hfin, -⟩ | ⟨-, hstays⟩)
      · exact absurd hfin hne₂
      have hworks' := hworks.trans hstays.works
      obtain ⟨w, hw, hstatew⟩ := hworks'.conn
      exact (fsm_turned hworks'.inv hw (hstatew.symm ▸ hfinread₃)).mono fun n' h' =>
        hworks'.turn hmem h'
  | bytes chunk =>
    refine Safe.bind (fsm_after h hc hread₁) ?_
    rintro p (⟨hfin, -⟩ | ⟨-, hstays⟩)
    · exact absurd hfin hne₁
    have hworks := hstays.works
    obtain ⟨w, hw, hstatew⟩ := hworks.conn
    refine (runOn_spec hworks.inv hw _).mono fun n' h' => ?_
    rw [hstatew] at h'
    exact (hworks.trans h').turned

theorem handleConnected_spec (h : Inv [] n) (hc : n.conn c = some x)
    (hstate : x.state = .connecting) (ok : Bool) :
    Safe Fault.bad (Turned c n) (handleConnected n c ok) := by
  cases ok with
  | true => exact (fsm_asyncOk h hc hstate).mono fun n' h' => h'.works.turned
  | false => exact (fsm_asyncFailed h hc hstate).mono fun n' h' => h'.turned

/-! ## The messages -/

/-- A socket that is waited for to become writable stays one that may be. -/
def CS.writable (st : CS) : Bool := st = connecting || st.canWrite

/-- What the messages leave of the node. New owners are among `S`. -/
structure Handled (S : List Endpointid) (n n' : Node) : Prop where
  inv : Inv [] n'
  effect : ∃ T, Effect T S n n'
  steady : ∀ c y, c < n.next → n'.conn c = some y →
    ∃ x, n.conn c = some x ∧ (x.state.writable = true → y.state.writable = true)

theorem Handled.trans (h : Handled S n m) (h' : Handled S m n') : Handled S n n' := by
  obtain ⟨T, hT⟩ := h.effect
  obtain ⟨T', hT'⟩ := h'.effect
  refine ⟨h'.inv, ⟨T ++ T', (hT.mono fun c hc => List.mem_append_left T' hc).trans
    (hT'.mono fun c hc => List.mem_append_right T hc)⟩, fun c y hc hy => ?_⟩
  obtain ⟨z, hz, hyz⟩ := h'.steady c y (hc.trans_le hT.next) hy
  obtain ⟨x, hx, hzx⟩ := h.steady c z hc hz
  exact ⟨x, hx, hyz ∘ hzx⟩

/-- Only one connection changes, and that one goes, or it stays writable if it was. -/
theorem Handled.of_effect (hinv : Inv [] n') (h : Effect [c] S n n')
    (hc : ∀ y, c < n.next → n'.conn c = some y →
      ∃ x, n.conn c = some x ∧ (x.state.writable = true → y.state.writable = true)) :
    Handled S n n' := by
  refine ⟨hinv, ⟨[c], h⟩, fun d y hd hy => ?_⟩
  by_cases hdc : d = c
  · subst hdc
    exact hc y hd hy
  · obtain ⟨x, hx, hcore⟩ := (h.old d hd (by simpa using hdc)).symm.some hy
    exact ⟨x, hx, fun hw => Conn.core_state hcore ▸ hw⟩

theorem Plain.handled (h : Plain n n') (S : List Endpointid) : Handled S n n' := by
  refine ⟨h.1, ⟨[], (h.2.around []).effect S⟩, fun c y hc hy => ?_⟩
  obtain ⟨x, hx, hcore⟩ := (h.2.old c hc List.not_mem_nil).symm.some hy
  exact ⟨x, hx, fun hw => Conn.core_state hcore ▸ hw⟩

theorem Handled.refl (h : Inv [] n) (S : List Endpointid) : Handled S n n :=
  Plain.handled ⟨h, .refl h.books⟩ S

theorem Works.handled {st : CS} (h : Works S c st n n') (hc : n.conn c = some x)
    (hst : x.state.writable = true → st.writable = true) : Handled S n n' := by
  refine .of_effect h.inv h.effect fun y _ hy => ⟨x, hc, fun hw => ?_⟩
  obtain ⟨z, hz, hstate⟩ := h.conn
  rw [hz] at hy
  cases hy
  rw [hstate]
  exact hst hw

/-- The listeners change, but the connections do not. -/
theorem Effect.listeners_only (hconn : n'.conn = n.conn) (hnext : n'.next = n.next)
    (hlog : n'.log = n.log) (hip : n'.listenip = n.listenip) (hport : n'.listenport = n.listenport)
    (hlocal : n.nextlocalid ≤ n'.nextlocalid)
    (hlisteners : ∀ l ∈ n'.listeners, l.owner ∈ S ∨ ∃ l' ∈ n.listeners, l'.owner = l.owner)
    (hkeyed : Keyed n → Keyed n') : Effect [] S n n' :=
  ⟨hip, hport, hlocal, hnext.ge, fun c _ _ => by rw [hconn]; rfl,
    fun c y hy => .inr ⟨y, hconn ▸ hy, rfl⟩, Noted.refl hlog, hlisteners, hkeyed⟩

theorem Effect.same (hconn : n'.conn = n.conn) (hnext : n'.next = n.next)
    (hlog : n'.log = n.log) (hip : n'.listenip = n.listenip) (hport : n'.listenport = n.listenport)
    (hlocal : n.nextlocalid ≤ n'.nextlocalid) (hlisteners : n'.listeners = n.listeners)
    (hkey : n'.nextListener = n.nextListener) : Effect [] S n n' :=
  .listeners_only hconn hnext hlog hip hport hlocal (fun l hl => .inr ⟨l, hlisteners ▸ hl, rfl⟩)
    fun hk => hk.congr (by rw [hlisteners]) hkey

theorem Handled.listeners (hinv : Inv [] n') (h : Effect [] S n n') : Handled S n n' := by
  refine ⟨hinv, ⟨[], h⟩, fun c y hc hy => ?_⟩
  obtain ⟨x, hx, hcore⟩ := (h.old c hc List.not_mem_nil).symm.some hy
  exact ⟨x, hx, fun hw => Conn.core_state hcore ▸ hw⟩

theorem Keyed.nodeListen (h : Keyed n) (owner : Endpointid) : Keyed (nodeListen n owner) where
  nodup := by
    rw [Io.nodeListen, List.map_append]
    refine List.nodup_append.mpr ⟨h.nodup, List.nodup_singleton _, fun k hk k' hk' => ?_⟩
    obtain ⟨l, hl, rfl⟩ := List.mem_map.mp hk
    rw [List.mem_singleton.mp hk']
    exact Nat.ne_of_lt (h.lt_next l hl)
  lt_next l hl := by
    obtain hl | hl := List.mem_append.mp hl
    · exact Nat.lt_succ_of_lt (h.lt_next l hl)
    · rw [List.mem_singleton.mp hl]
      exact Nat.lt_succ_self n.nextListener

theorem iothreadListen_spec (h : Inv [] n) (owner source : Endpointid) (ioid : Nat) (ok : Bool) :
    Safe Fault.bad (Handled [owner] n) (iothreadListen n owner ioid source ok) := by
  refine Safe.bind (endpointLink_plain h owner) fun m hm => ?_
  have hhandled := hm.handled [owner]
  split
  · have hlisten : Handled [owner] m (nodeListen m owner) := by
      refine .listeners (hm.1.congr rfl rfl rfl rfl rfl rfl)
        (.listeners_only rfl rfl rfl rfl rfl (UInt32.le_refl _) (fun l hl => ?_) ?_)
      · obtain hl | hl := List.mem_append.mp hl
        · exact .inr ⟨l, hl, rfl⟩
        · rw [List.mem_singleton.mp hl]
          exact .inl (List.mem_singleton_self owner)
      · exact fun hk => hk.nodeListen owner
    exact (send_plain hlisten.inv rfl).mono fun n' h' =>
      (hhandled.trans hlisten).trans (h'.handled _)
  · exact (send_plain hm.1 rfl).mono fun n' h' => hhandled.trans (h'.handled _)

theorem setListener_keys (n : Node) (l : Listener) :
    (setListener n l).listeners.map (·.key) = n.listeners.map (·.key) := by
  rw [setListener, List.map_map]
  refine List.map_congr_left fun l' _ => ?_
  dsimp only [Function.comp]
  split
  · next heq => exact heq.symm
  · rfl

/-- A listener that keeps its owner -/
theorem setListener_effect (h : Inv [] n) {l l' : Listener} (hl : l ∈ n.listeners)
    (howner : l'.owner = l.owner) (S : List Endpointid) :
    Inv [] (setListener n l') ∧ Effect [] S n (setListener n l') := by
  refine ⟨h.congr rfl rfl rfl rfl rfl rfl, .listeners_only rfl rfl rfl rfl rfl (UInt32.le_refl _)
    (fun k hk => .inr ?_) fun hk => hk.congr (setListener_keys n l') rfl⟩
  obtain ⟨k', hk', rfl⟩ := List.mem_map.mp hk
  split
  · exact ⟨l, hl, howner.symm⟩
  · exact ⟨k', hk', rfl⟩

theorem iothreadAccept_spec (h : Inv [] n) (id : Socketid) (ioid : Nat) (S : List Endpointid) :
    Safe Fault.bad (Handled S n) (iothreadAccept n id ioid) := by
  unfold iothreadAccept
  split
  · exact Safe.fault fun hbad => hbad
  · next l hfind =>
    refine Safe.bind (Safe.require fun _ hbad => hbad) fun _ _ => ?_
    obtain ⟨hinv, heffect⟩ := setListener_effect h (List.mem_of_find?_eq_some hfind)
      (rfl : ({ l with acceptFrame := ioid, dontaccept := false } : Listener).owner = _) S
    exact .listeners hinv heffect

/-! ### New connections -/

theorem Fresh.effect (h : Fresh n n' y)
    (howner : y.owner.localid = 0 ∨ y.owner ∈ S) : Effect [n.next] S n n' where
  listenip := h.listenip
  listenport := h.listenport
  nextlocalid := by
    rw [h.nextlocalid]
    exact UInt32.le_refl _
  next := by
    rw [h.next]
    exact Nat.le_succ _
  old c hc _ := by
    rw [h.conn, Function.update_of_ne (Nat.ne_of_lt hc)]
    rfl
  owner c z hz := by
    by_cases hc : c = n.next
    · rw [hc, h.self] at hz
      cases hz
      exact .inl (howner.elim .inl fun hS => .inr (.inl hS))
    · rw [h.conn, Function.update_of_ne hc] at hz
      exact .inr ⟨z, hz, rfl⟩
  attempts := .refl h.log
  listeners l hl := .inr ⟨l, h.listeners ▸ hl, rfl⟩
  keyed hk := hk.congr (by rw [h.listeners]) h.nextListener

/-- Nothing is known of a connection that is new. -/
theorem Handled.of_new (hinv : Inv [] n') (hT : ∀ c ∈ T, n.next ≤ c) (h : Effect T S n n') :
    Handled S n n' := by
  refine ⟨hinv, ⟨T, h⟩, fun c y hc hy => ?_⟩
  have hold := h.old c hc fun hm => absurd (hT c hm) (Nat.not_le.mpr hc)
  obtain ⟨x, hx, hcore⟩ := hold.symm.some hy
  exact ⟨x, hx, fun hw => Conn.core_state hcore ▸ hw⟩

theorem iothreadConnect_spec (h : Inv [] n) (ip : UInt32) (port : UInt16) (owner : Endpointid)
    (ioid : Nat) : Safe Fault.bad (Handled [owner] n) (iothreadConnect n ip port owner ioid) := by
  refine Safe.bind (endpointLink_plain h owner) fun m hm => ?_
  refine Safe.bind (addConnection_safe (id : ¬ Fault.bad .assertion) m ip none) ?_
  rintro _ rfl
  dsimp only
  have hadded := Fresh.added m ip none
  rw [Node.get_bind hadded.self]
  have hfresh := hadded.set { newConn m ip none with
    isreg := true, port := port.toNat, connectFrame := ioid, dontread := true, owner := owner }
  have hbooks := (hm.1.books.added ip none).set hadded.self (y := { newConn m ip none with
    isreg := true, port := port.toNat, connectFrame := ioid, dontread := true, owner := owner }) rfl
  have hinv := hfresh.inv hm.1 hbooks
  have hhist : history ((added m ip none).set m.next { newConn m ip none with
      isreg := true, port := port.toNat, connectFrame := ioid, dontread := true,
      owner := owner }).log m.next = [] := by
    rw [hfresh.log]
    exact hm.1.fresh _ le_rfl
  have heffect := hfresh.effect (S := [owner]) (.inr (List.mem_singleton_self owner))
  refine (fsm_requested hinv hfresh.self rfl (hhist ▸ .fresh rfl)).mono fun n' h' => ?_
  obtain ⟨hkept, -⟩ := h'
  exact (hm.handled _).trans (.of_new hkept.inv (by simp)
    (heffect.trans (hkept.around.effect _)))

/-- Two new connections become connected. -/
theorem Inv.connectPair {a b : Nat} {P : Node → Prop} (h : Inv [b, a] n) (hne : a ≠ b)
    (ha : n.conn a = some x) (hb : n.conn b = some y) (hx : x.state = .start) (hy : y.state = .start)
    (hhista : history n.log a = []) (hhistb : history n.log b = []) {f : Node → Except Fault Node}
    (hf : ∀ n', Inv [] n' → Around [a, b] n n' → Safe Fault.bad P (f n')) :
    Safe Fault.bad P (do
      let n ← fsm n a .clientConnected
      let n ← fsm n b .clientConnected
      f n) := by
  have hinv : Inv (a :: [b]) n := h.mono (by simp [or_comm])
  refine Safe.bind (fsm_clientConnected hinv ha hx (hhista ▸ .fresh (by rw [hx]; rfl))) fun m hm => ?_
  have hlt := h.books.lt_next hb
  have hnot : b ∉ [a] := by simpa using hne.symm
  obtain ⟨z, hz, hcore⟩ := (hm.around.old b hlt hnot).some hb
  have hstate : z.state = .start := (Conn.core_state hcore).trans hy
  have hlive : Live (history m.log b) z := by
    rw [hm.around.history b hlt hnot, hhistb]
    exact .fresh (by rw [hstate]; rfl)
  refine Safe.bind (fsm_clientConnected hm.inv hz hstate hlive) fun n' h' => ?_
  exact hf n' h'.inv ((hm.around.mono (by simp)).trans (h'.around.mono (by simp)))

theorem iothreadConnpair_spec (h : Inv [] n) (ioid : Nat) (source : Endpointid)
    (fds : Option (Nat × Nat)) :
    Safe Fault.bad (Handled [source] n) (iothreadConnpair n ioid source fds) := by
  unfold iothreadConnpair
  split
  · exact (send_plain h rfl).mono fun n' h' => h'.handled _
  · next fda fdb =>
    refine Safe.bind (addConnection_safe (id : ¬ Fault.bad .assertion) n 0 none) ?_
    rintro _ rfl
    refine Safe.bind (addConnection_safe (id : ¬ Fault.bad .assertion) (added n 0 none) 0 none) ?_
    rintro _ rfl
    dsimp only
    have hfresha := Fresh.added n 0 none
    have hfreshb := Fresh.added (added n 0 none) 0 none
    have hinva := hfresha.inv h (h.books.added 0 none)
    have hinvb := hfreshb.inv hinva (hinva.books.added 0 none)
    have hlt : n.next < (added n 0 none).next := by
      have := hfresha.next
      omega
    have hne := Nat.ne_of_lt hlt
    have hT : ∀ c ∈ [n.next, (added n 0 none).next], n.next ≤ c := by
      simpa using Nat.le_of_lt hlt
    have hnewa : Effect [n.next, (added n 0 none).next] [source] n (added n 0 none) :=
      (hfresha.effect (.inl rfl)).mono (by simp)
    have hnew := hnewa.trans
      ((hfreshb.effect (.inl rfl)).mono (by simp))
    -- the fields of the first connection, and of the second
    have ha : (added (added n 0 none) 0 none).conn n.next = some (newConn n 0 none) := by
      rw [hfreshb.conn, Function.update_of_ne hne, hfresha.self]
    rw [Node.get_bind ha]
    have hseta := hinvb.set ha (y := pairEnd (newConn n 0 none) fda source) ⟨rfl, rfl⟩
    have heffecta := hnew.trans ((Effect.set ha (y := pairEnd (newConn n 0 none) fda source)
      (.inr (List.mem_singleton_self source))).mono (by simp))
    have hb := hfreshb.self
    rw [← Node.set_conn_of_ne _ hne.symm (pairEnd (newConn n 0 none) fda source)] at hb
    rw [Node.get_bind hb]
    have hsetb := hseta.set hb (y := pairEnd (newConn (added n 0 none) 0 none) fdb source)
      ⟨rfl, rfl⟩
    have heffectb := heffecta.trans ((Effect.set hb
      (y := pairEnd (newConn (added n 0 none) 0 none) fdb source)
      (.inr (List.mem_singleton_self source))).mono (by simp))
    have hhist : ∀ c, n.next ≤ c → history (added (added n 0 none) 0 none).log c = [] := by
      intro c hc
      rw [hfreshb.log, hfresha.log]
      exact h.fresh c hc
    refine hsetb.connectPair hne (x := pairEnd (newConn n 0 none) fda source)
      (y := pairEnd (newConn (added n 0 none) 0 none) fdb source) ?_ (Node.set_conn_self ..) rfl rfl
      (hhist _ le_rfl) (hhist _ hlt.le) fun n' hinv haround => ?_
    · rw [Node.set_conn_of_ne _ hne, Node.set_conn_self]
    · have hhandled := Handled.of_new hinv hT (heffectb.trans (haround.effect _))
      exact (send_plain hinv rfl).mono fun n'' h' => hhandled.trans (h'.handled _)

/-! ### The connections of the program -/

theorem changeOwner_spec (h : Inv [] n) (hc : n.conn c = some x) (source : Endpointid) :
    Safe Fault.bad (Works [source] c x.state n) (changeOwner n c source) := by
  unfold changeOwner
  rw [Node.get_bind hc]
  split
  · exact .refl _ h hc
  · have hworks := Works.set (S := [source]) h hc (y := { x with owner := source }) ⟨rfl, rfl⟩
      (.inr (List.mem_singleton_self source))
    exact (endpointLink_plain hworks.inv source).mono fun n' h' =>
      hworks.plain (h.books.lt_next hc) h'

theorem connhashLookup_spec {id : Socketid} (h : connhashLookup n id = some c) :
    ∃ x, n.conn c = some x := by
  have hsome := List.find?_some h
  cases hc : n.conn c with
  | none => simp [hc] at hsome
  | some x => exact ⟨x, rfl⟩

theorem iothreadRead_spec (h : Inv [] n) (id : Socketid) (ioid : Nat) (source : Endpointid) :
    Safe Fault.bad (Handled [source] n) (iothreadRead n id ioid source) := by
  unfold iothreadRead
  split
  · exact .refl h _
  · next c hlookup =>
    obtain ⟨x, hc⟩ := connhashLookup_spec hlookup
    rw [Node.get_bind hc]
    refine Safe.bind (Safe.require fun _ hbad => hbad) fun _ _ => ?_
    refine Safe.bind (Safe.require fun _ hbad => hbad) fun _ _ => ?_
    refine Safe.bind (changeOwner_spec h hc source) fun m hm => ?_
    obtain ⟨y, hy, hstate⟩ := hm.conn
    rw [Node.get_bind hy]
    have hset := Works.set (S := [source]) hm.inv hy
      (y := { y with readFrame := ioid, dontread := false }) ⟨rfl, rfl⟩ (.inl rfl)
    exact (hm.trans hset).handled hc fun hw => hstate ▸ hw

theorem iothreadWrite_spec (h : Inv [] n) (id : Socketid) (ioid len : Nat) (source : Endpointid) :
    Safe Fault.bad (Handled [source] n) (iothreadWrite n id ioid len source) := by
  unfold iothreadWrite
  split
  · split
    · exact (send_plain h rfl).mono fun n' h' => h'.handled _
    · exact .refl h _
  · next c hlookup =>
    obtain ⟨x, hc⟩ := connhashLookup_spec hlookup
    rw [Node.get_bind hc]
    refine Safe.bind (Safe.require fun _ hbad => hbad) fun _ _ => ?_
    refine Safe.bind (changeOwner_spec h hc source) fun m hm => ?_
    obtain ⟨y, hy, hstate⟩ := hm.conn
    rw [Node.get_bind hy]
    refine Safe.bind (Safe.require fun _ hbad => hbad) fun _ _ => ?_
    have hset : ∀ z : Conn, SameState y z → z.owner = y.owner →
        Works [source] c y.state n (m.set c z) := fun z hz howner =>
      hm.trans (.set hm.inv hy hz (.inl howner))
    have hput := hset (if decide (y.sendbuf.getD 0 + len < m.iosize) = true then
      { y with sendbuf := some (y.sendbuf.getD 0 + len), finwrite := y.finwrite || len = 0 } else
      { y with
        sendbuf := some (y.sendbuf.getD 0 + len), finwrite := y.finwrite || len = 0
        writeFrame := ioid }) (by split <;> exact ⟨rfl, rfl⟩) (by split <;> rfl)
    dsimp only
    split
    · exact (send_plain hput.inv rfl).mono fun n' h' =>
        (hput.plain (h.books.lt_next hc) h').handled hc fun hw => hstate ▸ hw
    · exact hput.handled hc fun hw => hstate ▸ hw

theorem CS.after_finread {st : CS} (h : st.isConnected = true) (hstable : st.stable = true) :
    ∃ st', st.after .finread = some st' ∧
      (st' ≠ .finished → st.writable = true → st'.writable = true) := by
  cases st <;> first
    | (cases h; done)
    | (cases hstable; done)
    | exact ⟨_, rfl, by decide⟩

/-- The connection has been given to its owner: it is not waiting for a slot or for `connect`. -/
theorem iothreadDeleteConnection_spec (h : Inv [] n) (id : Socketid)
    (hid : ∀ c x, connhashLookup n id = some c → n.conn c = some x →
      x.state.isConnected = true) :
    Safe Fault.bad (Handled [] n) (iothreadDeleteConnection n id) := by
  unfold iothreadDeleteConnection
  split
  · exact .refl h _
  · next c hlookup =>
    obtain ⟨x, hc⟩ := connhashLookup_spec hlookup
    rw [Node.get_bind hc]
    have hset := Works.set (S := []) h hc (y := { x with collected := true, finwrite := true })
      ⟨rfl, rfl⟩ (.inl rfl)
    obtain ⟨y, hy, hstate⟩ := hset.conn
    obtain ⟨st, hafter, hwritable⟩ :=
      CS.after_finread (hid c x hlookup hc) (h.stable c x hc List.not_mem_nil)
    refine (fsm_after hset.inv hy (hstate ▸ hafter)).mono fun n' h' => ?_
    obtain ⟨-, hended⟩ | ⟨hne, hstays⟩ := h'
    · refine .of_effect hended.inv (hset.effect.trans (hended.around.effect _)) fun z _ hz => ?_
      rw [hended.conn] at hz
      cases hz
    · exact ((hset.trans hstays.works).handled hc (hwritable hne))

theorem listenerAt_safe (n : Node) (key : Nat) :
    Safe Fault.bad (fun l => l ∈ n.listeners ∧ l.key = key) (listenerAt n key) := by
  unfold listenerAt
  split
  · next l hfind => exact ⟨List.mem_of_find?_eq_some hfind, by simpa using List.find?_some hfind⟩
  · exact Safe.fault id

/-- The owner of a listener gets the connection. -/
theorem notifyAccept_spec (h : Inv [] n) (hc : n.conn c = some x) (key : Nat) :
    Safe Fault.bad (fun n' => Inv [] n' ∧ Effect [c] (n.listeners.map (·.owner)) n n')
      (notifyAccept n c key) := by
  refine Safe.bind (listenerAt_safe n key) fun l hl => ?_
  obtain ⟨hl, -⟩ := hl
  split
  · exact ⟨h, .refl _ _ h.books⟩
  · refine Safe.bind (Safe.require fun _ hbad => hbad) fun _ _ => ?_
    rw [Node.get_bind hc]
    have hworks := Works.set (S := n.listeners.map (·.owner)) h hc
      (y := { x with dontread := true, owner := l.owner, isreg := true }) ⟨rfl, rfl⟩
      (.inr (List.mem_map_of_mem hl))
    refine Safe.bind (send_plain hworks.inv rfl) fun m hm => ?_
    have hsent := hworks.plain (h.books.lt_next hc) hm
    have hlm : l ∈ m.listeners := by
      rw [hm.2.listeners]
      exact hl
    refine Safe.bind (Safe.require fun _ hbad => hbad) fun _ _ => ?_
    have hset := setListener_effect hsent.inv hlm
      (rfl : ({ l with acceptFrame := 0, dontaccept := true } : Listener).owner = _) (n.listeners.map (·.owner))
    exact ⟨hset.1, hsent.effect.trans (hset.2.mono (by simp))⟩

theorem handleNewConnection_spec (h : Inv [] n) (key : Nat) (client : Option (Nat × UInt32)) :
    Safe Fault.bad (fun n' => Inv [] n' ∧ Effect [n.next] (n.listeners.map (·.owner)) n n')
      (handleNewConnection n key client) := by
  unfold handleNewConnection
  split
  · exact ⟨h, .refl _ _ h.books⟩
  · next sock ip =>
    refine Safe.bind (addConnection_safe (id : ¬ Fault.bad .assertion) n ip (some key)) ?_
    rintro _ rfl
    dsimp only
    have hadded := Fresh.added n ip (some key)
    rw [Node.get_bind hadded.self]
    have hfresh := hadded.set { newConn n ip (some key) with sock := some sock }
    have hbooks := (h.books.added ip (some key)).set hadded.self
      (y := { newConn n ip (some key) with sock := some sock }) rfl
    have hinv := hfresh.inv h hbooks
    have hhist : history ((added n ip (some key)).set n.next { newConn n ip (some key) with
        sock := some sock }).log n.next = [] := by
      rw [hfresh.log]
      exact h.fresh _ le_rfl
    have heffect := hfresh.effect (S := n.listeners.map (·.owner)) (.inl rfl)
    refine Safe.bind (fsm_clientConnected hinv hfresh.self rfl (hhist ▸ .fresh rfl)) fun m hm => ?_
    have heffectm := heffect.trans (hm.around.effect _)
    have hlisteners : m.listeners = n.listeners := hm.around.listeners.trans hfresh.listeners
    obtain ⟨y, hy, -⟩ := hm.conn
    refine (notifyAccept_spec hm.inv hy key).mono fun n' h' => ?_
    rw [hlisteners] at h'
    exact ⟨h'.1, heffectm.trans h'.2⟩

end Io
end Network
end NReduce
