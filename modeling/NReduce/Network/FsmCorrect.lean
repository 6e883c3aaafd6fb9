import NReduce.Network.History

/-!
# NReduce.Network.FsmCorrect

What the functions that `connection_fsm` calls on its way do, up to `node_send_locked`.

* `Told`: a message about the connection has been sent, and it is in its state.
* `Ended`, `Kept`: the connection is gone, or it is in another state.
-/

namespace NReduce
namespace Network
namespace Io

open Logic

variable {T : List Nat} {n m n' : Node} {c : Nat} {x y : Conn}

/-! ## Messages about a connection -/

/-- The faults that must not occur -/
def Fault.bad : Fault → Prop
  | noListener _ | assertion | environment => False
  | _ => True

theorem Books.balanced (h : Books n) : n.balanced = true := by
  refine Bool.and_eq_true_iff.mpr ⟨?_, decide_eq_true fun c _ => ⟨?_, ?_⟩⟩
  · exact List.all_eq_true.mpr fun ip _ => List.all_eq_true.mpr fun k _ =>
      decide_eq_true (h.count k ip)
  · rw [h.mem]
    cases n.conn c <;> simp
  · refine List.all_eq_true.mpr fun ip _ => decide_eq_true ?_
    rw [h.memWaiting]
    cases n.conn c <;> simp

theorem balance_eq (h : Books n) : balance n = .ok n := by
  rw [balance, require_true h.balanced]
  rfl

theorem Safe.balance {P : Node → Prop} {r : Except Fault Node} (h : Safe Fault.bad P r)
    (hbooks : ∀ n, P n → Books n) : Safe Fault.bad P (r >>= Io.balance) := by
  refine h.bind fun n hn => ?_
  rw [balance_eq (hbooks n hn)]
  exact hn

/-- What is said of `node_send_locked` -/
def SendSpec (k : Nat) : Prop := ∀ {T : List Nat} {n : Node} {dest : Endpointid} {m : Msg},
  Inv T (n.note (.sent dest m)) →
    Safe Fault.bad (fun n' => Inv T n' ∧ Frame (n.note (.sent dest m)) n') (nodeSend k n dest m)

/-- A message about the connection has been sent. -/
structure Told (c : Nat) (x : Conn) (n n' : Node) : Prop where
  around : Around [c] n n'
  list : Grows n n' n.connections
  conn : ∃ y, n'.conn c = some y ∧ y.state = x.state ∧ y.owner = x.owner ∧
    Answered (history n'.log c) y
  connected : (history n'.log c).any Note.isConnected = (history n.log c).any Note.isConnected

theorem Told.refl (h : Books n) (hc : n.conn c = some x) (hans : Answered (history n.log c) x) :
    Told c x n n :=
  ⟨.refl _ h, .refl n, ⟨x, hc, rfl, rfl, hans⟩, rfl⟩

theorem Told.frame (h : Told c x n m) (hlt : c < n.next) (hframe : Frame m n') :
    Told c x n n' ∧ history n'.log c = history m.log c := by
  have hlt' : c < m.next := hlt.trans_le h.around.next
  have hhist := hframe.history c hlt' List.not_mem_nil
  obtain ⟨y, hy, hstate, howner, hans⟩ := h.conn
  obtain ⟨z, hz, hcore⟩ := (hframe.old c hlt' List.not_mem_nil).some hy
  refine ⟨⟨h.around.trans (hframe.around _), h.list.trans h.around.next hframe.connections,
    ⟨z, hz, ?_, ?_, ?_⟩, ?_⟩, hhist⟩
  · rw [Conn.core_state hcore, hstate]
  · rw [Conn.core_owner hcore, howner]
  · rw [hhist]
    exact hans.core hcore
  · rw [hhist, h.connected]

theorem history_told (n : Node) (c : Nat) (y : Conn) {dest : Endpointid} {msg : Msg}
    (h : msg.about = some c) : history ((n.set c y).note (.sent dest msg)).log c =
      history n.log c ++ [.sent dest msg] := by
  rw [history_note]
  exact congrArg _ (if_pos h)

/-- The message has been noted, and `node_send_locked` is still to come. -/
theorem Told.note (h : Books n) (hc : n.conn c = some x) (hstate : y.state = x.state)
    (howner : y.owner = x.owner) {dest : Endpointid} {msg : Msg} (habout : msg.about = some c)
    (hans : Answered (history n.log c ++ [.sent dest msg]) y) :
    Told c x n ((n.set c y).note (.sent dest msg)) := by
  have hlocal : Local c n ((n.set c y).note (.sent dest msg)) :=
    (Local.set hc howner).trans (Local.note _ (.inr habout) nofun)
  have hhist : history ((n.set c y).note (.sent dest msg)).log c = _ := history_told n c y habout
  refine ⟨hlocal.around h (List.mem_singleton_self c), ⟨[], (List.append_nil _).symm, nofun⟩,
    ⟨y, n.set_conn_self c y, hstate, howner, hhist ▸ hans⟩, ?_⟩
  rw [hhist]
  simp [Note.isConnected]

theorem notifyConnect_spec {k : Nat} (hsend : x.connectFrame = 0 ∨ SendSpec k) (h : Inv T n)
    (hcT : c ∈ T) (hc : n.conn c = some x) (hans : Answered (history n.log c) x) (error : Bool) :
    Safe Fault.bad (fun n' => Inv T n' ∧ Told c x n n' ∧
      (history n'.log c).countP Note.isClosed = (history n.log c).countP Note.isClosed)
      (notifyConnect (k + 1) n c error) := by
  have hlt := h.books.lt_next hc
  -- `handle_disconnection` says nothing about the connection
  have hrest : ∀ m, (Inv T m ∧ Told c x n m ∧
      (history m.log c).countP Note.isClosed = (history n.log c).countP Note.isClosed) →
      Safe Fault.bad (fun n' => Inv T n' ∧ Told c x n n' ∧
        (history n'.log c).countP Note.isClosed = (history n.log c).countP Note.isClosed)
        (if error = true then handleDisconnection m c else .ok m) := by
    rintro m ⟨hinv, htold, hclosed⟩
    cases error with
    | false => exact ⟨hinv, htold, hclosed⟩
    | true =>
      obtain ⟨y, hy, -⟩ := htold.conn
      obtain ⟨n', hn', hsilent⟩ := handleDisconnection_spec hy
      obtain ⟨htold', hhist⟩ := htold.frame hlt (hsilent.frame hinv.books)
      rw [if_pos rfl, hn']
      exact ⟨hsilent.inv hinv, htold', by rw [hhist, hclosed]⟩
  unfold notifyConnect
  rw [Node.get_bind hc]
  dsimp only
  split
  · next hpos =>
    obtain hzero | hsend := hsend
    · omega
    have hanswer : Answered (history n.log c ++
        [.sent x.owner (.connectResponse c x.connectFrame error)]) { x with connectFrame := 0 } := by
      have hresponses := hans.frame hpos
      refine ⟨?_, fun hlt => absurd hlt (Nat.lt_irrefl 0), ?_⟩
      · simp [hresponses, Note.isResponse]
      · simp [hans.removed, Note.isRemoved]
    have htold := Told.note h.books hc (y := { x with connectFrame := 0 }) rfl rfl rfl hanswer
    have hinv : Inv T ((n.set c { x with connectFrame := 0 }).note
        (.sent x.owner (.connectResponse c x.connectFrame error))) := by
      have hbooks := h.books.set hc (y := { x with connectFrame := 0 }) rfl
      have hset := Local.set hc (y := { x with connectFrame := 0 }) rfl
      refine h.of_local (hset.trans (Local.note _ (.inr rfl) fun _ _ heq => by cases heq)) (hbooks.note _) hcT hlt
        fun hnone => ?_
      rw [Node.note, Node.set_conn_self] at hnone
      cases hnone
    refine Safe.bind (hsend hinv) fun m hm => hrest m ⟨hm.1, ?_⟩
    obtain ⟨htold', hhist⟩ := htold.frame hlt hm.2
    refine ⟨htold', ?_⟩
    rw [hhist, history_told n c _ rfl]
    simp [Note.isClosed]
  · exact hrest n ⟨h, .refl h.books hc hans, rfl⟩

theorem notifyClosed_spec {k : Nat} (hsend : SendSpec k) (h : Inv T n) (hcT : c ∈ T)
    (hc : n.conn c = some x) (hans : Answered (history n.log c) x)
    (hconnected : (history n.log c).any Note.isConnected = true)
    (hclosed : (history n.log c).countP Note.isClosed = 0) (error : Bool) :
    Safe Fault.bad (fun n' => Inv T n' ∧ Told c x n n' ∧
      (history n'.log c).countP Note.isClosed = notices (history n'.log c) x)
      (notifyClosed (k + 1) n c error) := by
  have hlt := h.books.lt_next hc
  have hrest : ∀ m, (Inv T m ∧ Told c x n m ∧
      (history m.log c).countP Note.isClosed = notices (history m.log c) x) →
      Safe Fault.bad (fun n' => Inv T n' ∧ Told c x n n' ∧
        (history n'.log c).countP Note.isClosed = notices (history n'.log c) x)
        (handleDisconnection m c) := by
    rintro m ⟨hinv, htold, hclosed⟩
    obtain ⟨y, hy, -⟩ := htold.conn
    obtain ⟨n', hn', hsilent⟩ := handleDisconnection_spec hy
    obtain ⟨htold', hhist⟩ := htold.frame hlt (hsilent.frame hinv.books)
    rw [hn']
    exact ⟨hsilent.inv hinv, htold', by rw [hhist, hclosed]⟩
  unfold notifyClosed
  rw [Node.get_bind hc]
  dsimp only
  split
  · next howner =>
    have hanswer : Answered (history n.log c ++ [.sent x.owner (.connectionClosed c error)]) x := by
      refine ⟨?_, fun hlt => ?_, ?_⟩
      · simpa [Note.isResponse] using hans.responses
      · simpa [Note.isResponse] using hans.frame hlt
      · simp [hans.removed, Note.isRemoved]
    have hset : n.set c x = n := by
      rw [Node.set, ← hc, Function.update_eq_self]
    have htold := Told.note h.books hc (y := x) rfl rfl rfl hanswer
    have hhist₁ : history ((n.set c x).note (.sent x.owner (.connectionClosed c error))).log c = _ :=
      history_told n c x rfl
    rw [hset] at htold hhist₁
    have hinv : Inv T (n.note (.sent x.owner (.connectionClosed c error))) := by
      refine h.of_local (Local.note _ (.inr rfl) fun _ _ heq => by cases heq) (h.books.note _) hcT hlt fun hnone => ?_
      rw [Node.note, hc] at hnone
      cases hnone
    refine Safe.bind (hsend hinv) fun m hm => hrest m ⟨hm.1, ?_⟩
    obtain ⟨htold', hhist⟩ := htold.frame hlt hm.2
    refine ⟨htold', ?_⟩
    rw [hhist, hhist₁, notices, if_pos ⟨by simp [hconnected], howner⟩]
    simp [hclosed, Note.isClosed]
  · next howner =>
    refine hrest n ⟨h, .refl h.books hc hans, ?_⟩
    rw [hclosed, notices, if_neg fun he => howner he.2]

/-! ## The ends of a connection -/

/-- The connection `c` has been removed. -/
structure Ended (T : List Nat) (c : Nat) (n n' : Node) : Prop where
  inv : Inv T n'
  conn : n'.conn c = none
  around : Around [c] n n'
  list : Grows n n' (n.connections.erase c)

theorem Told.ended (htold : Told c x n m) (h : Inv T m) (hcT : c ∈ T)
    (hmem : c ∈ n.connections)
    (hclosed : (history m.log c).countP Note.isClosed = notices (history m.log c) x) (k : Nat) :
    Safe Fault.bad (Ended T c n) (connectionState (k + 2) m c .ended) := by
  obtain ⟨y, hy, -, howner, hans⟩ := htold.conn
  have hover : Over (history m.log c) y := by
    refine ⟨hans, hclosed.trans ?_⟩
    rw [notices, notices, howner]
  obtain ⟨n', hn', hinv, hnone, hlocal, hlist⟩ := ended_spec h hcT hy hover k
  rw [hn']
  refine ⟨hinv, hnone, htold.around.trans (hlocal.around h.books (List.mem_singleton_self c)), ?_⟩
  obtain ⟨new, hl, hnew⟩ := htold.list
  exact ⟨new, by rw [hlist, hl, List.erase_append_left _ hmem], hnew⟩

/-- A state that the connection passes through -/
theorem moved_inv (h : Inv T n) (hcT : c ∈ T) (hc : n.conn c = some x) (new : CS) :
    Inv T (moved n c x new) := by
  refine h.of_local (Local.moved hc new) (h.books.moved hc new) hcT (h.books.lt_next hc) ?_
  intro hnone
  rw [moved_conn_self] at hnone
  cases hnone

theorem moved_list (n : Node) (c : Nat) (x : Conn) {new : CS} (hw : x.state ≠ .waiting)
    (hnew : new ≠ .waiting) : (moved n c x new).connections = n.connections := by
  simp [moved, relist, hw, hnew]

theorem Ended.of_moved {new : CS} (hbooks : Books n) (hc : n.conn c = some x) (hw : x.state ≠ .waiting)
    (hnew : new ≠ .waiting) (h : Ended T c (moved n c x new) n') : Ended T c n n' where
  inv := h.inv
  conn := h.conn
  around := ((Local.moved hc new).around hbooks (List.mem_singleton_self c)).trans h.around
  list := by
    have hlist := h.list
    rw [moved_list n c x hw hnew] at hlist
    exact hlist

/-- An attempt to connect has failed. -/
theorem failed_spec {k : Nat} (hsend : x.connectFrame = 0 ∨ SendSpec (k + 1)) (h : Inv T n)
    (hcT : c ∈ T) (hc : n.conn c = some x) (hlive : Live (history n.log c) x)
    (hnot : x.state.isConnected = false) (hw : x.state ≠ .waiting) :
    Safe Fault.bad (Ended T c n) (connectionState (k + 4) n c .failed) := by
  obtain ⟨y, hy, hstate, -, hframe⟩ := moved_conn n c x .failed
  have hlog := moved_log n c x .failed (by decide)
  have hmem : c ∈ n.connections := (h.books.mem c).mpr ⟨x, hc, hw⟩
  have hans : Answered (history (moved n c x .failed).log c) y := by
    rw [hlog]
    exact ⟨hlive.responses, hframe ▸ hlive.frame, hlive.removed⟩
  unfold connectionState
  rw [changeState_eq h.books hc]
  dsimp only [bind, Except.bind]
  unfold connectionFsm
  rw [Node.get_bind hy]
  simp only [hstate]
  refine Safe.bind (notifyConnect_spec (k := k + 1) (hframe ▸ hsend) (moved_inv h hcT hc .failed)
    hcT hy hans true) ?_
  rintro m ⟨hinv, htold, hclosed⟩
  refine (htold.ended hinv hcT ?_ ?_ k).mono fun n' h' => h'.of_moved h.books hc hw (by decide)
  · rw [moved_list n c x hw (by decide)]
    exact hmem
  · have hnever : (history m.log c).any Note.isConnected = false := by
      rw [htold.connected, hlog, hlive.connected, hnot]
    rw [hclosed, hlog, hlive.closed, notices, if_neg (by simp [hnever])]

/-- A connection that has been there is closed. -/
theorem finished_spec {k : Nat} (hsend : SendSpec (k + 1)) (h : Inv T n) (hcT : c ∈ T)
    (hc : n.conn c = some x) (hlive : Live (history n.log c) x)
    (hconnected : x.state.isConnected = true) :
    Safe Fault.bad (Ended T c n) (connectionState (k + 4) n c .finished) := by
  have hw : x.state ≠ .waiting := by
    intro hw
    rw [hw] at hconnected
    cases hconnected
  obtain ⟨y, hy, hstate, -, hframe⟩ := moved_conn n c x .finished
  have hlog := moved_log n c x .finished (by decide)
  have hmem : c ∈ n.connections := (h.books.mem c).mpr ⟨x, hc, hw⟩
  have hans : Answered (history (moved n c x .finished).log c) y := by
    rw [hlog]
    exact ⟨hlive.responses, hframe ▸ hlive.frame, hlive.removed⟩
  unfold connectionState
  rw [changeState_eq h.books hc]
  dsimp only [bind, Except.bind]
  unfold connectionFsm
  rw [Node.get_bind hy]
  simp only [hstate]
  refine Safe.bind (notifyClosed_spec (k := k + 1) hsend (moved_inv h hcT hc .finished) hcT hy hans
    ?_ ?_ y.haderror) ?_
  · rw [hlog, hlive.connected, hconnected]
  · rw [hlog]
    exact hlive.closed
  · rintro m ⟨hinv, htold, hclosed⟩
    refine (htold.ended hinv hcT ?_ hclosed k).mono fun n' h' => h'.of_moved h.books hc hw (by decide)
    rw [moved_list n c x hw (by decide)]
    exact hmem

/-! ## The start of a connection -/

theorem Live.congr {h : List Note} (hx : Live h x)
    (hstate : y.state.isConnected = x.state.isConnected) (hframe : y.connectFrame = x.connectFrame) :
    Live h y :=
  ⟨⟨hx.responses, hframe ▸ hx.frame, hx.removed⟩, hstate ▸ hx.connected, hx.closed⟩

theorem Live.attempt {h : List Note} (hx : Live h x) (c : Nat) (e : Endpointid) :
    Live (h ++ [.attempt c e]) x := by
  refine ⟨⟨?_, fun hpos => ?_, ?_⟩, ?_, ?_⟩
  · simpa [Note.isResponse] using hx.responses
  · simpa [Note.isResponse] using hx.frame hpos
  · simpa [Note.isRemoved] using hx.removed
  · simpa [Note.isConnected] using hx.connected
  · simpa [Note.isClosed] using hx.closed

/-- What `initiate_connection` does to the connection -/
structure Attempted (c : Nat) (x : Conn) (n n' : Node) : Prop where
  isLocal : Local c n n'
  books : Books n'
  list : n'.connections = n.connections
  conn : ∃ y, n'.conn c = some y ∧ y.state = x.state ∧ y.owner = x.owner ∧
    y.connectFrame = x.connectFrame
  history : history n'.log c = Io.history n.log c ++ [.attempt c x.owner]

theorem initiateConnection_spec (h : Books n) (hc : n.conn c = some x) :
    Safe Fault.bad (fun r => Attempted c x n r.2) (initiateConnection n c) := by
  have hresults : ∀ (results : List Attempt) (y : Conn), y.entry = x.entry → y.owner = x.owner →
      y.connectFrame = x.connectFrame →
      Attempted c x n (({ n with results := results }.note (.attempt c x.owner)).set c y) := by
    intro results y hentry howner hframe
    have hlocal : Local c n ({ n with results := results }.note (.attempt c x.owner)) :=
      { toSameNode := ⟨rfl, rfl, rfl, rfl, rfl, rfl, rfl, rfl⟩
        next := rfl
        other := fun _ _ => rfl
        owner := fun z hz => ⟨z, hz, rfl⟩
        log := ⟨[.attempt c x.owner], rfl, fun _ hy => List.mem_singleton.mp hy ▸
          ⟨.inr rfl, fun d e he => by cases he; exact ⟨x, hc, rfl⟩⟩⟩ }
    have hbooks : Books ({ n with results := results }.note (.attempt c x.owner)) :=
      h.congr (fun _ => rfl) rfl rfl rfl rfl
    refine ⟨hlocal.trans (Local.set hc howner), hbooks.set hc hentry, rfl, ⟨y, Node.set_conn_self .., ?_,
      howner, hframe⟩, ?_⟩
    · exact congrArg (fun e => e.2.1) hentry
    · rw [Node.set, history_note]
      exact congrArg _ (if_pos rfl)
  unfold initiateConnection
  rw [Node.get_bind hc]
  split
  · exact Safe.fault id
  · next r results _ =>
    cases r with
    | noSocket => exact hresults results _ rfl rfl rfl
    | failed sock => exact hresults results _ rfl rfl rfl
    | started sock => exact hresults results _ rfl rfl rfl

/-- The connection `c` is still there, in the state `st`. -/
structure Kept (T : List Nat) (c : Nat) (x : Conn) (st : CS) (n n' : Node) : Prop where
  inv : Inv T n'
  conn : ∃ y, n'.conn c = some y ∧ y.state = st ∧ y.owner = x.owner ∧ Live (history n'.log c) y
  around : Around [c] n n'

/-- A connection that waits gets its slot. -/
theorem slotAvailable_spec {k : Nat} (hsend : x.connectFrame = 0 ∨ SendSpec (k + 1)) (h : Inv T n)
    (hcT : c ∈ T) (hc : n.conn c = some x) (hw : x.state = .waiting)
    (hlive : Live (history n.log c) x) :
    Safe Fault.bad (fun n' => Ended T c n n' ∨
      Kept T c x .connecting n n' ∧ n'.connections = n.connections ++ [c])
      (connectionFsm (k + 6) n c .slotAvailable) := by
  have hnot : c ∉ n.connections := by
    rw [h.books.mem, hc]
    simp [hw]
  obtain ⟨y, hy, hstate, howner, hframe⟩ := moved_conn n c x .ready
  have hlog := moved_log n c x .ready (by decide)
  have hlist : (moved n c x .ready).connections = n.connections ++ [c] := by
    simp [moved, relist, hw]
  have hlivey : Live (history (moved n c x .ready).log c) y := by
    rw [hlog]
    exact hlive.congr (by rw [hstate, hw]; rfl) hframe
  have hinv := moved_inv h hcT hc .ready
  have haround := (Local.moved hc .ready).around h.books (List.mem_singleton_self c)
  unfold connectionFsm
  rw [Node.get_bind hc]
  simp only [hw]
  rw [connectionState_quiet h.books hc (by rfl)]
  refine Safe.bind (P := fun m => m = moved n c x .ready) rfl ?_
  rintro _ rfl
  refine Safe.bind (initiateConnection_spec hinv.books hy) ?_
  rintro ⟨started, m⟩ ⟨hlocal, hbooks, hlist', ⟨z, hz, hstatez, hownerz, hframez⟩, hhist⟩
  rw [hlist] at hlist'
  have hlivez : Live (history m.log c) z := by
    rw [hhist]
    exact (hlivey.attempt c y.owner).congr (by rw [hstatez]) hframez
  have hinvm : Inv T m := by
    refine hinv.of_local hlocal hbooks hcT (hinv.books.lt_next hy) fun hnone => ?_
    rw [hz] at hnone
    cases hnone
  have haroundm := haround.trans (hlocal.around hinv.books (List.mem_singleton_self c))
  dsimp only
  have hready : z.state = .ready := hstatez.trans hstate
  cases started with
  | true =>
    rw [if_pos rfl]
    unfold connectionFsm
    rw [Node.get_bind hz]
    simp only [hready]
    rw [connectionState_quiet hbooks hz (by rfl)]
    obtain ⟨u, hu, hstateu, howneru, hframeu⟩ := moved_conn m c z .connecting
    refine .inr ⟨⟨moved_inv hinvm hcT hz .connecting, ⟨u, hu, hstateu, ?_, ?_⟩, ?_⟩, ?_⟩
    · rw [howneru, hownerz, howner]
    · rw [moved_log m c z _ (by decide)]
      exact hlivez.congr (by rw [hstateu, hready]; rfl) hframeu
    · exact haroundm.trans ((Local.moved hz .connecting).around hbooks (List.mem_singleton_self c))
    · rw [moved_list m c z (by rw [hready]; decide) (by decide), hlist']
  | false =>
    rw [if_neg (by decide)]
    unfold connectionFsm
    rw [Node.get_bind hz]
    simp only [hready]
    refine (failed_spec ?_ hinvm hcT hz hlivez (by rw [hready]; rfl) (by rw [hready]; decide)).mono
      fun n' h' => .inl ⟨h'.inv, h'.conn, haroundm.trans h'.around, ?_⟩
    · rw [hframez, hframe]
      exact hsend
    · obtain ⟨new, hl, hnew⟩ := h'.list
      refine ⟨new, ?_, fun d hd => haroundm.next.trans (hnew d hd)⟩
      rw [hl, hlist', List.erase_append_right _ hnot, List.erase_of_not_mem hnot]
      simp

/-! ## node_send_locked -/

/-- `add_connection` and what its caller puts into the new connection -/
structure Fresh (n n' : Node) (y : Conn) : Prop extends SameNode n n' where
  next : n'.next = n.next + 1
  conn : n'.conn = Function.update n.conn n.next (some y)
  log : n'.log = n.log
  connections : n'.connections = n.connections ++ [n.next]

theorem Fresh.added (n : Node) (ip : UInt32) (l : Option Nat) :
    Fresh n (added n ip l) (newConn n ip l) := by
  unfold Io.added getServerinfo
  split <;>
    exact ⟨⟨rfl, rfl, rfl, rfl, rfl, rfl, rfl, rfl⟩, rfl, rfl, rfl, rfl⟩

theorem Fresh.set (h : Fresh n n' y) (z : Conn) : Fresh n (n'.set n.next z) z where
  toSameNode := ⟨h.1.1, h.1.2, h.1.3, h.1.4, h.1.5, h.1.6, h.1.7, h.1.8⟩
  next := h.next
  conn := by rw [Node.set, h.conn, Function.update_idem]
  log := h.log
  connections := h.connections

theorem Fresh.self (h : Fresh n n' y) : n'.conn n.next = some y := by
  rw [h.conn, Function.update_self]

theorem Fresh.inv (h : Fresh n n' y) (hinv : Inv T n) (hbooks : Books n') :
    Inv (n.next :: T) n' := by
  have hother : ∀ c, c ≠ n.next → n'.conn c = n.conn c := fun c hc => by
    rw [h.conn, Function.update_of_ne hc]
  constructor
  · exact hbooks
  · intro c hc
    rw [h.log]
    exact hinv.fresh c (by have := h.next; omega)
  · intro c x hx hc
    have hne : c ≠ n.next := fun he => hc (he ▸ List.mem_cons_self)
    have hcT : c ∉ T := fun hm => hc (List.mem_cons_of_mem _ hm)
    exact hinv.stable c x (hother c hne ▸ hx) hcT
  · intro c x hx hc
    have hne : c ≠ n.next := fun he => hc (he ▸ List.mem_cons_self)
    have hcT : c ∉ T := fun hm => hc (List.mem_cons_of_mem _ hm)
    rw [h.log]
    exact hinv.live c x (hother c hne ▸ hx) hcT
  · intro c hc hnone
    have hne : c ≠ n.next := by
      intro he
      rw [he, h.self] at hnone
      cases hnone
    rw [h.log]
    exact hinv.gone c (by have := h.next; omega) (hother c hne ▸ hnone)

theorem Fresh.around (h : Fresh n n' y) (hbooks : Books n) (hnull : y.owner.localid = 0) :
    Around [n.next] n n' := by
  have hother : ∀ c, c ≠ n.next → n'.conn c = n.conn c := fun c hc => by
    rw [h.conn, Function.update_of_ne hc]
  exact { h.toSameNode with
    next := by rw [h.next]; exact Nat.le_succ _
    old := fun c hc _ => by rw [hother c (Nat.ne_of_lt hc)]; rfl
    history := fun c _ _ => by rw [h.log]
    owner := fun c z hc hz => ⟨z, hother c (Nat.ne_of_lt hc) ▸ hz, rfl⟩
    new := fun c z hc hz => by
      by_cases hcn : c = n.next
      · subst hcn
        rw [h.self] at hz
        cases hz
        exact ⟨hnull, fun hn => absurd (List.mem_singleton_self _) hn⟩
      · rw [hother c hcn, hbooks.fresh c hc] at hz
        cases hz
    attempts := .refl h.log }

/-- A new connection has no history. -/
theorem Live.fresh (hstate : y.state.isConnected = false) : Live [] y :=
  ⟨⟨Nat.zero_le 1, fun _ => rfl, rfl⟩, hstate.symm, rfl⟩

theorem findConnection_spec {dest : Endpointid} (h : findConnection n dest = some c) :
    ∃ x, n.conn c = some x := by
  have hsome := List.find?_some h
  cases hc : n.conn c with
  | none => simp [hc] at hsome
  | some x => exact ⟨x, rfl⟩

/-- More bytes are in the send buffer of a connection. -/
theorem Frame.setSendbuf (h : Inv T n) (hc : n.conn c = some x) (hcore : y.core = x.core) :
    Inv T (n.set c y) ∧ Frame n (n.set c y) := by
  have hlocal := Local.set hc (Conn.core_owner hcore)
  have hsame : ∀ d, SameConn (n.conn d) ((n.set c y).conn d) := by
    intro d
    by_cases hd : d = c
    · subst hd
      rw [Node.set_conn_self, hc]
      exact congrArg some hcore
    · rw [n.set_conn_of_ne hd]
      rfl
  have hbooks := h.books.set hc (Conn.core_entry hcore)
  refine ⟨⟨hbooks, h.fresh, fun d z hz hd => ?_, fun d z hz hd => ?_, fun d hlt hnone => ?_⟩,
    { hlocal.around h.books (List.mem_singleton_self c) with
      old := fun d _ _ => hsame d
      history := fun _ _ _ => rfl
      new := fun d z hd hz => ?_
      connections := .refl n }⟩
  · obtain ⟨w, hw, hwcore⟩ := (hsame d).symm.some hz
    rw [← Conn.core_state hwcore]
    exact h.stable d w hw hd
  · obtain ⟨w, hw, hwcore⟩ := (hsame d).symm.some hz
    exact (h.live d w hw hd).core hwcore.symm
  · exact h.gone d hlt ((hsame d).symm.none hnone)
  · rw [hbooks.fresh d hd] at hz
    cases hz

/-- The new connection is left to itself. -/
theorem Fresh.frame (h : Fresh n m y) (hinv : Inv T n) (hnull : y.owner.localid = 0)
    (haround : Around [n.next] m n') (hlist : Grows n n' n.connections)
    (hstate : ∀ z, n'.conn n.next = some z → z.state = .connecting) : Frame n n' := by
  have htrans := (h.around hinv.books hnull).trans haround
  refine { htrans with
    old := fun c hc _ => htrans.old c hc (by simp; omega)
    history := fun c hc _ => htrans.history c hc (by simp; omega)
    new := fun c z hc hz => ⟨(htrans.new c z hc hz).1, fun _ => ?_⟩
    connections := hlist }
  by_cases hcn : c = n.next
  · exact hstate z (hcn ▸ hz)
  · exact (htrans.new c z hc hz).2 (by simpa using hcn)

/-- `node_send_locked` from the new connection on -/
theorem Fresh.open_spec (h : Fresh n m y) (hinv : Inv T n) (hbooks : Books m)
    (hstart : y.state = .start) (hnull : y.owner.localid = 0) (hframe : y.connectFrame = 0) (k : Nat) :
    Safe Fault.bad (fun n' => Inv T n' ∧ Frame n n') (do
      let m ← connectionFsm (k + 6) m n.next .requested
      let m ← balance m
      let conn ← m.get n.next
      if conn.state = .waiting then do
        let m ← connectionFsm (k + 6) m n.next .slotAvailable
        balance m
      else pure m) := by
  have hinvm : Inv (n.next :: T) m := h.inv hinv hbooks
  have hcT : n.next ∈ n.next :: T := List.mem_cons_self
  have hhist : history m.log n.next = [] := by
    rw [h.log]
    exact hinv.fresh _ le_rfl
  have hnot : n.next ∉ n.connections := by
    rw [hinv.books.mem, hinv.books.fresh _ le_rfl]
    simp
  -- it waits, but not for long
  obtain ⟨z, hz, hwaiting, hownerz, hframez⟩ := moved_conn m n.next y .waiting
  have hlog := moved_log m n.next y .waiting (by decide)
  have hlist : (moved m n.next y .waiting).connections = n.connections := by
    simp only [moved, relist, hstart, h.connections]
    simp [List.erase_append_right _ hnot]
  have hrequested : connectionFsm (k + 6) m n.next .requested = .ok (moved m n.next y .waiting) := by
    unfold connectionFsm
    rw [Node.get_bind h.self]
    simp only [hstart]
    exact connectionState_quiet hbooks h.self (by rfl) _
  have hlive : Live (history (moved m n.next y .waiting).log n.next) z := by
    rw [hlog, hhist]
    exact .fresh (by rw [hwaiting]; rfl)
  have hinvw := moved_inv hinvm hcT h.self .waiting
  have hslot := slotAvailable_spec (k := k) (.inl (hframez.trans hframe)) hinvw hcT hz hwaiting hlive
  have haround := (Local.moved h.self .waiting).around hbooks (List.mem_singleton_self n.next)
  rw [hrequested, ok_bind, balance_eq hinvw.books, ok_bind, Node.get_bind hz, if_pos hwaiting]
  refine Safe.balance (hslot.mono fun n' hn' => ?_) fun n' h' => h'.1.books
  obtain hend | ⟨hkept, hlist'⟩ := hn'
  · refine ⟨hend.inv.pop fun x hx => ?_, h.frame hinv hnull (haround.trans hend.around) ?_ ?_⟩
    · rw [hend.conn] at hx
      cases hx
    · obtain ⟨new, hl, hnew⟩ := hend.list
      rw [hlist, List.erase_of_not_mem hnot] at hl
      refine ⟨new, hl, fun c hc => ?_⟩
      have hnext : n.next ≤ (moved m n.next y .waiting).next := by
        have : (moved m n.next y .waiting).next = n.next + 1 := h.next
        omega
      exact hnext.trans (hnew c hc)
    · intro x hx
      rw [hend.conn] at hx
      cases hx
  · obtain ⟨u, hu, hstateu, -, hliveu⟩ := hkept.conn
    refine ⟨hkept.inv.pop fun x hx => ?_, h.frame hinv hnull (haround.trans hkept.around) ?_ ?_⟩
    · rw [hu] at hx
      cases hx
      exact ⟨by rw [hstateu]; rfl, hliveu⟩
    · exact ⟨[n.next], by rw [hlist', hlist], by simp⟩
    · intro x hx
      rw [hu] at hx
      cases hx
      exact hstateu

theorem nodeSend_spec (k : Nat) : SendSpec (k + 7) := by
  intro T n dest m h
  unfold nodeSend
  refine Safe.bind (Safe.require fun _ => id) fun _ _ => ?_
  dsimp only
  generalize n.note (.sent dest m) = n₀ at h ⊢
  split
  · exact ⟨h, .refl h.books⟩
  split
  · next c hfind =>
    obtain ⟨x, hc⟩ := findConnection_spec hfind
    rw [Node.get_bind hc]
    split
    · exact Safe.fault id
    · next len hlen =>
      exact Frame.setSendbuf h hc (by simp [Conn.core, hlen])
  · refine Safe.bind (addConnection_safe (id : ¬ Fault.bad .assertion) n₀ dest.ip n₀.mainl) ?_
    rintro _ rfl
    dsimp only
    have hadded := Fresh.added n₀ dest.ip n₀.mainl
    rw [Node.get_bind hadded.self]
    have hbooks := (h.books.added dest.ip n₀.mainl).set hadded.self
      (y := { newConn n₀ dest.ip n₀.mainl with
        port := dest.port.toNat
        sendbuf := (newConn n₀ dest.ip n₀.mainl).sendbuf.map (· + 2 + msgHeaderSize + m.size) }) rfl
    exact (hadded.set _).open_spec h hbooks rfl rfl rfl k

end Io
end Network
end NReduce
