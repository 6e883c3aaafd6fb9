import NReduce.Network.Books

/-!
# NReduce.Network.History

What has been sent about a connection goes with its state.

* `Inv`: this, and the books. The connections whose events are being handled are left out.
* `Frame`: what `node_send_locked` leaves as it was. It may open a connection of its own.
* `Around`: the same for all connections but some.
-/

namespace NReduce
namespace Network
namespace Io

open Logic

/-! ## What has been sent about a connection -/

/-- The connection that a response or a notice of its end is about -/
def Msg.about : Msg → Option Nat
  | connectResponse c _ _ => some c
  | connectionClosed c _ => some c
  | _ => none

namespace Note

def about : Note → Option Nat
  | sent _ m => m.about
  | connected c => some c
  | attempt c _ => some c
  | removed c _ => some c

def isResponse : Note → Bool
  | sent _ (.connectResponse ..) => true
  | _ => false

def isClosed : Note → Bool
  | sent _ (.connectionClosed ..) => true
  | _ => false

def isConnected : Note → Bool
  | connected _ => true
  | _ => false

def isRemoved : Note → Bool
  | removed .. => true
  | _ => false

end Note

def history (log : List Note) (c : Nat) : List Note := log.filter fun x => x.about = some c

theorem history_append (log log' : List Note) (c : Nat) :
    history (log ++ log') c = history log c ++ history log' c :=
  List.filter_append ..

theorem history_other {log : List Note} {c : Nat} (h : ∀ x ∈ log, x.about ≠ some c) :
    history log c = [] :=
  List.filter_eq_nil_iff.mpr fun x hx => by simpa using h x hx

namespace CS

/-- The states of a connection between two events -/
def stable : CS → Bool
  | waiting | connecting | connected | connectedDoneWriting | accepted | acceptedDoneWriting
  | acceptedDoneReading => true
  | _ => false

/-- From `CS_CONNECTED` on -/
def isConnected : CS → Bool
  | connected | connectedDoneWriting | accepted | acceptedDoneWriting | acceptedDoneReading
  | finished => true
  | _ => false

end CS

/-- At most one response. While the number of a frame is there, none has been sent. -/
structure Answered (h : List Note) (x : Conn) : Prop where
  responses : h.countP Note.isResponse ≤ 1
  frame : 0 < x.connectFrame → h.countP Note.isResponse = 0
  removed : h.countP Note.isRemoved = 0

/-- What goes with the state of a connection -/
structure Live (h : List Note) (x : Conn) : Prop extends Answered h x where
  connected : h.any Note.isConnected = x.state.isConnected
  closed : h.countP Note.isClosed = 0

/-- How many notices of its end a connection's owner gets -/
def notices (h : List Note) (x : Conn) : Nat :=
  if h.any Note.isConnected = true ∧ x.owner.localid ≠ 0 then 1 else 0

/-- What holds of a connection that has reached `CS_END` -/
structure Over (h : List Note) (x : Conn) : Prop extends Answered h x where
  closed : h.countP Note.isClosed = notices h x

/-- What holds of a connection that has been removed -/
structure Gone (h : List Note) (x : Conn) : Prop where
  responses : h.countP Note.isResponse ≤ 1
  closed : h.countP Note.isClosed = notices h x
  removed : h.countP Note.isRemoved = 1
  state : x.state = .ended

/-- `T` are the connections whose events are being handled. -/
structure Inv (T : List Nat) (n : Node) : Prop where
  books : Books n
  fresh : ∀ c, n.next ≤ c → history n.log c = []
  stable : ∀ c x, n.conn c = some x → c ∉ T → x.state.stable = true
  live : ∀ c x, n.conn c = some x → c ∉ T → Live (history n.log c) x
  gone : ∀ c, c < n.next → n.conn c = none → ∃ x, .removed c x ∈ n.log ∧ Gone (history n.log c) x

/-! ## What stays as it is -/

/-- The connection but for the number of bytes in its send buffer -/
def Conn.core (x : Conn) : Conn := { x with sendbuf := x.sendbuf.map fun _ => 0 }

def SameConn (a b : Option Conn) : Prop := b.map Conn.core = a.map Conn.core

theorem SameConn.trans {a b c : Option Conn} (h : SameConn a b) (h' : SameConn b c) :
    SameConn a c :=
  Eq.trans h' h

theorem SameConn.symm {a b : Option Conn} (h : SameConn a b) : SameConn b a := Eq.symm h

theorem SameConn.some {a b : Option Conn} (h : SameConn a b) {x : Conn} (ha : a = some x) :
    ∃ y, b = some y ∧ y.core = x.core := by
  subst ha
  exact Option.map_eq_some_iff.mp h

theorem SameConn.none {a b : Option Conn} (h : SameConn a b) (ha : a = none) : b = none := by
  subst ha
  exact Option.map_eq_none_iff.mp h

section Core

variable {x y : Conn} (h : y.core = x.core)

include h

theorem Conn.core_entry : y.entry = x.entry := by
  have := congrArg Conn.entry h
  exact this

theorem Conn.core_state : y.state = x.state := by
  have := congrArg Conn.state h
  exact this

theorem Conn.core_owner : y.owner = x.owner := by
  have := congrArg Conn.owner h
  exact this

theorem Conn.core_connectFrame : y.connectFrame = x.connectFrame := by
  have := congrArg Conn.connectFrame h
  exact this

end Core

/-- The fields of the node that the events do not touch -/
structure SameNode (n n' : Node) : Prop where
  listenip : n'.listenip = n.listenip
  listenport : n'.listenport = n.listenport
  iosize : n'.iosize = n.iosize
  listeners : n'.listeners = n.listeners
  nextListener : n'.nextListener = n.nextListener
  mainl : n'.mainl = n.mainl
  nextlocalid : n'.nextlocalid = n.nextlocalid
  shutdown : n'.shutdown = n.shutdown

theorem SameNode.refl (n : Node) : SameNode n n := ⟨rfl, rfl, rfl, rfl, rfl, rfl, rfl, rfl⟩

theorem SameNode.trans {n m n' : Node} (h : SameNode n m) (h' : SameNode m n') : SameNode n n' :=
  ⟨h'.1.trans h.1, h'.2.trans h.2, h'.3.trans h.3, h'.4.trans h.4, h'.5.trans h.5, h'.6.trans h.6,
    h'.7.trans h.7, h'.8.trans h.8⟩

/-- What has been noted between two states: attempts have been made for connections with `p`. -/
def Noted (p : Nat → Endpointid → Prop) (n n' : Node) : Prop :=
  ∃ notes, n'.log = n.log ++ notes ∧ ∀ c e, .attempt c e ∈ notes → p c e

theorem Noted.refl {p : Nat → Endpointid → Prop} {n n' : Node} (h : n'.log = n.log) :
    Noted p n n' :=
  ⟨[], by rw [h, List.append_nil], fun _ _ he => absurd he List.not_mem_nil⟩

theorem Noted.trans {p q r : Nat → Endpointid → Prop} {n m n' : Node} (h : Noted p n m)
    (h' : Noted q m n') (hp : ∀ c e, p c e → r c e) (hq : ∀ c e, q c e → r c e) :
    Noted r n n' := by
  obtain ⟨notes, hlog, hnotes⟩ := h
  obtain ⟨notes', hlog', hnotes'⟩ := h'
  refine ⟨notes ++ notes', by rw [hlog', hlog, List.append_assoc], fun c e he => ?_⟩
  obtain he | he := List.mem_append.mp he
  · exact hp c e (hnotes c e he)
  · exact hq c e (hnotes' c e he)

theorem Noted.mono {p q : Nat → Endpointid → Prop} {n n' : Node} (h : Noted p n n')
    (hpq : ∀ c e, p c e → q c e) : Noted q n n' := by
  obtain ⟨notes, hlog, hnotes⟩ := h
  exact ⟨notes, hlog, fun c e he => hpq c e (hnotes c e he)⟩

/-- What events of the connections `T` leave as it was. The connections that are opened meanwhile
lead to other nodes and have no owner. -/
structure Around (T : List Nat) (n n' : Node) : Prop extends SameNode n n' where
  next : n.next ≤ n'.next
  old : ∀ c, c < n.next → c ∉ T → SameConn (n.conn c) (n'.conn c)
  history : ∀ c, c < n.next → c ∉ T → history n'.log c = history n.log c
  owner : ∀ c y, c < n.next → n'.conn c = some y → ∃ x, n.conn c = some x ∧ y.owner = x.owner
  new : ∀ c x, n.next ≤ c → n'.conn c = some x →
    x.owner.localid = 0 ∧ (c ∉ T → x.state = .connecting)
  attempts : Noted (fun c e => e.localid = 0 ∨ ∃ x, n.conn c = some x ∧ x.owner = e) n n'

/-- The list gets new connections at its end. -/
def Grows (n n' : Node) (l : List Nat) : Prop :=
  ∃ new, n'.connections = l ++ new ∧ ∀ c ∈ new, n.next ≤ c

/-- What `node_send_locked` leaves as it was. -/
structure Frame (n n' : Node) : Prop extends Around [] n n' where
  connections : Grows n n' n.connections

variable {T : List Nat} {n m n' : Node} {c : Nat} {x y : Conn}

theorem Around.refl (T : List Nat) {n : Node} (h : Books n) : Around T n n :=
  { SameNode.refl n with
    next := le_rfl
    old := fun _ _ _ => rfl
    history := fun _ _ _ => rfl
    owner := fun _ y _ hy => ⟨y, hy, rfl⟩
    new := fun c x hc hx => by rw [h.fresh c hc] at hx; cases hx
    attempts := .refl rfl }

theorem Around.trans (h : Around T n m) (h' : Around T m n') : Around T n n' where
  toSameNode := h.toSameNode.trans h'.toSameNode
  next := h.next.trans h'.next
  old c hc hT := (h.old c hc hT).trans (h'.old c (hc.trans_le h.next) hT)
  history c hc hT := (h'.history c (hc.trans_le h.next) hT).trans (h.history c hc hT)
  owner c y hc hy := by
    obtain ⟨z, hz, hyz⟩ := h'.owner c y (hc.trans_le h.next) hy
    obtain ⟨x, hx, hzx⟩ := h.owner c z hc hz
    exact ⟨x, hx, hyz.trans hzx⟩
  new c x hc hx := by
    obtain hlt | hle := Nat.lt_or_ge c m.next
    · obtain ⟨y, hy, howner⟩ := h'.owner c x hlt hx
      obtain ⟨hnull, hconnecting⟩ := h.new c y hc hy
      refine ⟨howner ▸ hnull, fun hT => ?_⟩
      obtain ⟨z, hz, hcore⟩ := (h'.old c hlt hT).symm.some hx
      rw [hy] at hz
      cases hz
      rw [← Conn.core_state hcore]
      exact hconnecting hT
    · exact h'.new c x hle hx
  attempts := by
    refine h.attempts.trans h'.attempts (fun _ _ => id) fun c e he => ?_
    obtain he | ⟨y, hy, hyowner⟩ := he
    · exact .inl he
    · obtain hlt | hle := Nat.lt_or_ge c n.next
      · obtain ⟨x, hx, howner⟩ := h.owner c y hlt hy
        exact .inr ⟨x, hx, howner.symm.trans hyowner⟩
      · exact .inl (hyowner ▸ (h.new c y hle hy).1)

theorem Around.mono {T' : List Nat} (h : Around T n n') (hT : ∀ c ∈ T, c ∈ T') : Around T' n n' :=
  { h with
    old := fun c hc hn => h.old c hc fun hm => hn (hT c hm)
    history := fun c hc hn => h.history c hc fun hm => hn (hT c hm)
    new := fun c x hc hx => ⟨(h.new c x hc hx).1, fun hn => (h.new c x hc hx).2 fun hm =>
      hn (hT c hm)⟩ }

theorem Grows.trans {l : List Nat} (h : Grows n m l) (hnext : n.next ≤ m.next)
    (h' : Grows m n' m.connections) : Grows n n' l := by
  obtain ⟨new, hl, hnew⟩ := h
  obtain ⟨new', hl', hnew'⟩ := h'
  refine ⟨new ++ new', by rw [hl', hl, List.append_assoc], fun c hc => ?_⟩
  obtain hc | hc := List.mem_append.mp hc
  · exact hnew c hc
  · exact hnext.trans (hnew' c hc)

theorem Grows.refl (n : Node) : Grows n n n.connections := ⟨[], by simp, nofun⟩

theorem Frame.refl {n : Node} (h : Books n) : Frame n n := ⟨Around.refl [] h, Grows.refl n⟩

theorem Frame.trans (h : Frame n m) (h' : Frame m n') : Frame n n' :=
  ⟨h.toAround.trans h'.toAround, h.connections.trans h.next h'.connections⟩

theorem Frame.around (h : Frame n n') (T : List Nat) : Around T n n' :=
  h.toAround.mono fun _ hc => absurd hc List.not_mem_nil

/-! ## The invariant over the pure steps -/

theorem history_note (n : Node) (x : Note) (c : Nat) :
    history (n.note x).log c = history n.log c ++ if x.about = some c then [x] else [] := by
  rw [Node.note, history_append]
  congr 1
  simp only [history, List.filter_cons, List.filter_nil]
  split <;> rename_i h
  · rw [if_pos (of_decide_eq_true h)]
  · rw [if_neg fun he => h (decide_eq_true he)]

theorem Answered.core {h : List Note} (hx : Answered h x) (hcore : y.core = x.core) :
    Answered h y :=
  ⟨hx.responses, by rw [Conn.core_connectFrame hcore]; exact hx.frame, hx.removed⟩

theorem Live.core {h : List Note} (hx : Live h x) (hcore : y.core = x.core) : Live h y :=
  ⟨hx.toAnswered.core hcore, by rw [Conn.core_state hcore]; exact hx.connected, hx.closed⟩

/-- Only the connection `c` changes, and it keeps its owner. -/
structure Local (c : Nat) (n n' : Node) : Prop extends SameNode n n' where
  next : n'.next = n.next
  other : ∀ d, d ≠ c → n'.conn d = n.conn d
  owner : ∀ y, n'.conn c = some y → ∃ x, n.conn c = some x ∧ y.owner = x.owner
  log : ∃ notes, n'.log = n.log ++ notes ∧ ∀ x ∈ notes, (x.about = none ∨ x.about = some c) ∧
    ∀ d e, x = .attempt d e → ∃ y, n.conn d = some y ∧ y.owner = e

theorem Local.trans (h : Local c n m) (h' : Local c m n') : Local c n n' where
  toSameNode := h.toSameNode.trans h'.toSameNode
  next := h'.next.trans h.next
  other d hd := (h'.other d hd).trans (h.other d hd)
  owner y hy := by
    obtain ⟨z, hz, hyz⟩ := h'.owner y hy
    obtain ⟨x, hx, hzx⟩ := h.owner z hz
    exact ⟨x, hx, hyz.trans hzx⟩
  log := by
    obtain ⟨notes, hlog, hnotes⟩ := h.log
    obtain ⟨notes', hlog', hnotes'⟩ := h'.log
    refine ⟨notes ++ notes', by rw [hlog', hlog, List.append_assoc], fun x hx => ?_⟩
    obtain hx | hx := List.mem_append.mp hx
    · exact hnotes x hx
    · refine ⟨(hnotes' x hx).1, fun d e he => ?_⟩
      obtain ⟨y, hy, howner⟩ := (hnotes' x hx).2 d e he
      by_cases hd : d = c
      · subst hd
        obtain ⟨z, hz, hyz⟩ := h.owner y hy
        exact ⟨z, hz, hyz.symm.trans howner⟩
      · exact ⟨y, h.other d hd ▸ hy, howner⟩

theorem Local.history (h : Local c n n') {d : Nat} (hd : d ≠ c) :
    Io.history n'.log d = Io.history n.log d := by
  obtain ⟨notes, hlog, hnotes⟩ := h.log
  rw [hlog, history_append, @history_other notes, List.append_nil]
  intro x hx he
  obtain hx | hx := (hnotes x hx).1
  · rw [hx] at he
    cases he
  · rw [hx] at he
    exact hd (Option.some.inj he).symm

theorem Local.around (h : Local c n n') (hbooks : Books n) (hc : c ∈ T) : Around T n n' := by
  have hne : ∀ d, d ∉ T → d ≠ c := fun d hd he => hd (he ▸ hc)
  have howner : ∀ d y, n'.conn d = some y → ∃ x, n.conn d = some x ∧ y.owner = x.owner := by
    intro d y hy
    by_cases hd : d = c
    · subst hd
      exact h.owner y hy
    · exact ⟨y, h.other d hd ▸ hy, rfl⟩
  exact { h.toSameNode with
    next := h.next.ge
    old := fun d _ hd => by rw [h.other d (hne d hd)]; rfl
    history := fun d _ hd => h.history (hne d hd)
    owner := fun d y _ hy => howner d y hy
    new := fun d y hlt hy => by
      obtain ⟨x, hx, -⟩ := howner d y hy
      rw [hbooks.fresh d hlt] at hx
      cases hx
    attempts := by
      obtain ⟨notes, hlog, hnotes⟩ := h.log
      exact ⟨notes, hlog, fun d e he => .inr ((hnotes _ he).2 d e rfl)⟩ }

theorem Inv.of_local (h : Inv T n) (hlocal : Local c n n') (hbooks : Books n') (hcT : c ∈ T)
    (hlt : c < n.next) (hgone : n'.conn c = none →
      ∃ x, .removed c x ∈ n'.log ∧ Gone (Io.history n'.log c) x) : Inv T n' := by
  have hne : ∀ d, d ∉ T → d ≠ c := fun d hd he => hd (he ▸ hcT)
  constructor
  · exact hbooks
  · intro d hd
    have hdc : d ≠ c := fun he => absurd hlt (Nat.not_lt.mpr (he ▸ hlocal.next ▸ hd))
    rw [hlocal.history hdc]
    exact h.fresh d (hlocal.next ▸ hd)
  · exact fun d x hx hd => h.stable d x (hlocal.other d (hne d hd) ▸ hx) hd
  · intro d x hx hd
    rw [hlocal.history (hne d hd)]
    exact h.live d x (hlocal.other d (hne d hd) ▸ hx) hd
  · intro d hd hnone
    by_cases hdc : d = c
    · subst hdc
      exact hgone hnone
    · obtain ⟨x, hx, hover⟩ := h.gone d (hlocal.next ▸ hd) (hlocal.other d hdc ▸ hnone)
      obtain ⟨notes, hlog, -⟩ := hlocal.log
      refine ⟨x, hlog ▸ List.mem_append_left _ hx, ?_⟩
      rw [hlocal.history hdc]
      exact hover

theorem Local.set (hc : n.conn c = some x) (howner : y.owner = x.owner) :
    Local c n (n.set c y) where
  toSameNode := ⟨rfl, rfl, rfl, rfl, rfl, rfl, rfl, rfl⟩
  next := rfl
  other _ hd := n.set_conn_of_ne hd y
  owner z hz := by
    rw [Node.set_conn_self] at hz
    cases hz
    exact ⟨x, hc, howner⟩
  log := ⟨[], (List.append_nil n.log).symm, fun _ hx => absurd hx List.not_mem_nil⟩

theorem Local.note (n : Node) {note : Note} (habout : note.about = none ∨ note.about = some c)
    (hattempt : ∀ d e, note = .attempt d e → ∃ y, n.conn d = some y ∧ y.owner = e) :
    Local c n (n.note note) where
  toSameNode := ⟨rfl, rfl, rfl, rfl, rfl, rfl, rfl, rfl⟩
  next := rfl
  other _ _ := rfl
  owner z hz := ⟨z, hz, rfl⟩
  log := ⟨[note], rfl, fun _ hy => List.mem_singleton.mp hy ▸ ⟨habout, hattempt⟩⟩

theorem moved_conn (n : Node) (c : Nat) (x : Conn) (new : CS) :
    ∃ y, (moved n c x new).conn c = some y ∧ y.state = new ∧ y.owner = x.owner ∧
      y.connectFrame = x.connectFrame := by
  refine ⟨_, moved_conn_self n c x new, rfl, ?_⟩
  unfold createConnectionBuffers
  split
  · split <;> exact ⟨rfl, rfl⟩
  · exact ⟨rfl, rfl⟩

theorem Local.moved (hc : n.conn c = some x) (new : CS) : Local c n (moved n c x new) where
  toSameNode := ⟨rfl, rfl, rfl, rfl, rfl, rfl, rfl, rfl⟩
  next := rfl
  other _ hd := moved_conn_of_ne n x new hd
  owner z hz := by
    obtain ⟨y, hy, -, howner, -⟩ := moved_conn n c x new
    rw [hy] at hz
    cases hz
    exact ⟨x, hc, howner⟩
  log := by
    refine ⟨_, rfl, fun y hy => ?_⟩
    split at hy
    · rw [List.mem_singleton.mp hy]
      exact ⟨.inr rfl, nofun⟩
    · cases hy

theorem Local.dropped (n : Node) (c : Nat) (x : Conn) : Local c n (dropped n c x) where
  toSameNode := ⟨rfl, rfl, rfl, rfl, rfl, rfl, rfl, rfl⟩
  next := rfl
  other _ hd := Function.update_of_ne hd ..
  owner z hz := by
    have hself : (Io.dropped n c x).conn c = none := Function.update_self ..
    rw [hself] at hz
    cases hz
  log := ⟨[.removed c x], rfl, fun _ hy => List.mem_singleton.mp hy ▸ ⟨.inr rfl, nofun⟩⟩

theorem Inv.mono {T' : List Nat} (h : Inv T n) (hT : ∀ c ∈ T, c ∈ T') : Inv T' n :=
  { h with
    stable := fun d x hx hd => h.stable d x hx fun hm => hd (hT d hm)
    live := fun d x hx hd => h.live d x hx fun hm => hd (hT d hm) }

/-- A connection's event is handled. -/
theorem Inv.push (h : Inv T n) (c : Nat) : Inv (c :: T) n := h.mono fun _ => List.mem_cons_of_mem c

/-- The event has been handled. -/
theorem Inv.pop (h : Inv (c :: T) n)
    (hc : ∀ x, n.conn c = some x → x.state.stable = true ∧ Live (Io.history n.log c) x) :
    Inv T n where
  books := h.books
  fresh := h.fresh
  stable d x hx hd := by
    by_cases hdc : d = c
    · exact (hc x (hdc ▸ hx)).1
    · exact h.stable d x hx (by simp [hdc, hd])
  live d x hx hd := by
    by_cases hdc : d = c
    · subst hdc
      exact (hc x hx).2
    · exact h.live d x hx (by simp [hdc, hd])
  gone := h.gone

/-! ## The transitions that call nothing else -/

/-- Nothing happens in these states without an event. -/
def CS.quiet : CS → Bool
  | failed | finished | ended => false
  | _ => true

theorem connectionFsm_auto (hc : n.conn c = some x) (hquiet : x.state.quiet = true) (k : Nat) :
    connectionFsm (k + 1) n c .auto = .ok n := by
  unfold connectionFsm
  rw [Node.get_eq hc]
  dsimp only [bind, Except.bind]
  cases hstate : x.state <;> first | rfl | (rw [hstate] at hquiet; cases hquiet)

theorem connectionState_quiet (h : Books n) (hc : n.conn c = some x) {new : CS}
    (hquiet : new.quiet = true) (k : Nat) :
    connectionState (k + 2) n c new = .ok (moved n c x new) := by
  obtain ⟨y, hy, hstate, -⟩ := moved_conn n c x new
  unfold connectionState
  rw [changeState_eq h hc]
  exact connectionFsm_auto hy (hstate ▸ hquiet) k

/-- What becomes of a connection that ends -/
theorem connectionState_ended (h : Books n) (hc : n.conn c = some x) (k : Nat) :
    connectionState (k + 2) n c .ended =
      .ok (dropped (moved n c x .ended) c
        { x with flag := fun k => k.holds .ended, state := .ended }) := by
  have hy := moved_conn_self n c x .ended
  rw [if_neg (by decide)] at hy
  unfold connectionState
  rw [changeState_eq h hc]
  dsimp only [bind, Except.bind]
  unfold connectionFsm
  rw [Node.get_eq hy]
  exact removeConnection_eq (h.moved hc .ended) hy rfl

theorem Over.gone {h : List Note} (hover : Over h x) (hy : y.owner = x.owner)
    (hend : y.state = .ended) : Gone (h ++ [.removed c y]) y := by
  have hnotices : notices (h ++ [.removed c y]) y = notices h x := by
    simp [notices, hy, Note.isConnected]
  constructor
  · simpa [Note.isResponse] using hover.responses
  · rw [hnotices, ← hover.closed]
    simp [Note.isClosed]
  · simp [hover.removed, Note.isRemoved]
  · exact hend

theorem moved_log (n : Node) (c : Nat) (x : Conn) (new : CS) (h : new ≠ .connected) :
    (moved n c x new).log = n.log := by
  simp [moved, h]

theorem moved_ended_list (h : Books n) (hc : n.conn c = some x) :
    (moved n c x .ended).connections.erase c = n.connections.erase c := by
  by_cases hw : x.state = .waiting
  · have hnot : c ∉ n.connections := by
      rw [h.mem, hc]
      simp [hw]
    simp [moved, relist, hw, List.erase_append_right _ hnot, List.erase_of_not_mem hnot]
  · simp [moved, relist, hw]

/-- A connection of which all has been said is removed. -/
theorem ended_spec (h : Inv T n) (hcT : c ∈ T) (hc : n.conn c = some x)
    (hover : Over (history n.log c) x) (k : Nat) :
    ∃ n', connectionState (k + 2) n c .ended = .ok n' ∧ Inv T n' ∧ n'.conn c = none ∧
      Local c n n' ∧ n'.connections = n.connections.erase c := by
  refine ⟨_, connectionState_ended h.books hc k, ?_, Function.update_self .., ?_,
    moved_ended_list h.books hc⟩
  · have hy := moved_conn_self n c x .ended
    rw [if_neg (by decide)] at hy
    have hlocal := (Local.moved hc .ended).trans (Local.dropped (moved n c x .ended) c
      { x with flag := fun k => k.holds .ended, state := .ended })
    refine h.of_local hlocal ((h.books.moved hc .ended).dropped hy rfl) hcT (h.books.lt_next hc) ?_
    intro _
    refine ⟨{ x with flag := fun k => k.holds .ended, state := .ended },
      List.mem_append_right _ (List.mem_singleton_self _), ?_⟩
    rw [dropped, history_append, moved_log n c x _ (by decide)]
    have hself : history [.removed c { x with flag := fun k => k.holds .ended, state := .ended }] c =
        [.removed c { x with flag := fun k => k.holds .ended, state := .ended }] := by
      simp [history, Note.about]
    rw [hself]
    exact hover.gone rfl rfl
  · exact (Local.moved hc .ended).trans (Local.dropped _ c _)

/-! ## Messages about nothing -/

/-- Only notes about no connection are added. -/
structure Silent (n n' : Node) : Prop extends SameNode n n' where
  next : n'.next = n.next
  conn : n'.conn = n.conn
  connections : n'.connections = n.connections
  server : n'.server = n.server
  servers : n'.servers = n.servers
  log : ∃ notes, n'.log = n.log ++ notes ∧ ∀ x ∈ notes, x.about = none

theorem Silent.history (h : Silent n n') (c : Nat) : Io.history n'.log c = Io.history n.log c := by
  obtain ⟨notes, hlog, hnotes⟩ := h.log
  rw [hlog, history_append, @history_other notes c fun x hx => by simp [hnotes x hx],
    List.append_nil]

theorem Silent.inv (h : Silent n n') (hinv : Inv T n) : Inv T n' where
  books := hinv.books.congr (fun c => by rw [h.conn]) h.next h.connections h.server h.servers
  fresh c hc := by
    rw [h.history]
    exact hinv.fresh c (h.next ▸ hc)
  stable c x hx hc := hinv.stable c x (h.conn ▸ hx) hc
  live c x hx hc := by
    rw [h.history]
    exact hinv.live c x (h.conn ▸ hx) hc
  gone c hc hnone := by
    obtain ⟨x, hx, hgone⟩ := hinv.gone c (h.next ▸ hc) (h.conn ▸ hnone)
    obtain ⟨notes, hlog, -⟩ := h.log
    refine ⟨x, hlog ▸ List.mem_append_left _ hx, ?_⟩
    rw [h.history]
    exact hgone

theorem Silent.frame (h : Silent n n') (hbooks : Books n) : Frame n n' where
  toSameNode := h.toSameNode
  next := h.next.ge
  old c _ _ := by rw [h.conn]; rfl
  history c _ _ := h.history c
  owner c y _ hy := ⟨y, h.conn ▸ hy, rfl⟩
  new c x hc hx := by
    rw [h.conn, hbooks.fresh c hc] at hx
    cases hx
  attempts := by
    obtain ⟨notes, hlog, hnotes⟩ := h.log
    exact ⟨notes, hlog, fun _ _ he => nomatch hnotes _ he⟩
  connections := ⟨[], by rw [h.connections, List.append_nil], nofun⟩

theorem handleDisconnection_spec (hc : n.conn c = some x) :
    ∃ n', handleDisconnection n c = .ok n' ∧ Silent n n' := by
  unfold handleDisconnection
  rw [Node.get_eq hc]
  dsimp only [bind, Except.bind]
  split
  · exact ⟨n, rfl, ⟨rfl, rfl, rfl, rfl, rfl, rfl, rfl, rfl⟩, rfl, rfl, rfl, rfl, rfl,
      [], (List.append_nil _).symm, fun _ hx => absurd hx List.not_mem_nil⟩
  · refine ⟨_, rfl, ⟨rfl, rfl, rfl, rfl, rfl, rfl, rfl, rfl⟩, rfl, rfl, rfl, rfl, rfl, _, rfl, ?_⟩
    intro note hnote
    obtain ⟨endpt, -, hnote⟩ := List.mem_flatMap.mp hnote
    obtain ⟨e, -, rfl⟩ := List.mem_map.mp hnote
    rfl

end Io
end Network
end NReduce
