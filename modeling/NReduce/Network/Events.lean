import NReduce.Network.FsmCorrect

/-!
# NReduce.Network.Events

What the events do that the other files give to `connection_fsm`.

* `CS.after`: the states of a connection that has been connected.
-/

namespace NReduce
namespace Network
namespace Io

open Logic

variable {T : List Nat} {n m n' : Node} {c : Nat} {x y : Conn}

/-! ## The events from outside -/

/-- The states that a connection goes to once it has been connected -/
def CS.after : CS → CE → Option CS
  | connected, .error => some finished
  | connected, .delete => some finished
  | connected, .read => some accepted
  | connected, .finread => some acceptedDoneReading
  | connected, .finwrite => some connectedDoneWriting
  | connectedDoneWriting, .error => some finished
  | connectedDoneWriting, .delete => some finished
  | connectedDoneWriting, .finread => some finished
  | connectedDoneWriting, .finwrite => some connectedDoneWriting
  | connectedDoneWriting, .read => some acceptedDoneWriting
  | accepted, .error => some finished
  | accepted, .delete => some finished
  | accepted, .read => some accepted
  | accepted, .finread => some acceptedDoneReading
  | accepted, .finwrite => some acceptedDoneWriting
  | acceptedDoneWriting, .error => some finished
  | acceptedDoneWriting, .delete => some finished
  | acceptedDoneWriting, .finwrite => some acceptedDoneWriting
  | acceptedDoneWriting, .read => some acceptedDoneWriting
  | acceptedDoneWriting, .finread => some finished
  | acceptedDoneReading, .error => some finished
  | acceptedDoneReading, .delete => some finished
  | acceptedDoneReading, .finread => some acceptedDoneReading
  | acceptedDoneReading, .finwrite => some finished
  | _, _ => none

theorem connectionFsm_after (hc : n.conn c = some x) {event : CE} {st : CS}
    (hafter : x.state.after event = some st) (k : Nat) :
    connectionFsm (k + 1) n c event = if st = x.state then .ok n else
      connectionState k (if event = .error then n.set c { x with haderror := true } else n) c st := by
  unfold connectionFsm
  rw [Node.get_bind hc]
  cases hstate : x.state <;> cases event <;> simp only [hstate, CS.after] at hafter <;>
    cases hafter <;> rfl

theorem CS.after_connected {st st' : CS} {event : CE} (h : st.after event = some st') :
    st.isConnected = true ∧ st'.isConnected = true ∧
      (st' = .finished ∨ st'.quiet = true ∧ st'.stable = true ∧ st' ≠ .connected) := by
  cases st <;> cases event <;> cases h <;> decide

/-- The connection stays on the list, in the state `st`. -/
structure Stays (c : Nat) (x : Conn) (st : CS) (n n' : Node) : Prop extends
    Kept [] c x st n n' where
  list : Grows n n' n.connections

theorem Ended.pop (h : Ended [c] c n n') : Ended [] c n n' :=
  { h with
    inv := h.inv.pop fun x hx => by
      rw [h.conn] at hx
      cases hx }

theorem Kept.pop {st : CS} (h : Kept [c] c x st n n') (hst : st.stable = true) :
    Kept [] c x st n n' :=
  { h with
    inv := by
      obtain ⟨y, hy, hstate, -, hlive⟩ := h.conn
      refine h.inv.pop fun z hz => ?_
      rw [hy] at hz
      cases hz
      exact ⟨hstate ▸ hst, hlive⟩ }

theorem Kept.refl (h : Inv [] n) (hc : n.conn c = some x) : Kept [] c x x.state n n :=
  ⟨h, ⟨x, hc, rfl, rfl, h.live c x hc List.not_mem_nil⟩, .refl _ h.books⟩

/-- A state in which the connection stays for the time being -/
theorem moved_kept (h : Inv T n) (hcT : c ∈ T) (hc : n.conn c = some x)
    (hlive : Live (history n.log c) x) (st : CS) (hconnected : st.isConnected = x.state.isConnected)
    (hst : st ≠ .connected) : Kept T c x st n (moved n c x st) := by
  obtain ⟨y, hy, hstate, howner, hframe⟩ := moved_conn n c x st
  refine ⟨moved_inv h hcT hc st, ⟨y, hy, hstate, howner, ?_⟩,
    (Local.moved hc st).around h.books (List.mem_singleton_self c)⟩
  rw [moved_log n c x st hst]
  exact hlive.congr (by rw [hstate, hconnected]) hframe

/-- It becomes connected. -/
theorem moved_connected (h : Inv T n) (hcT : c ∈ T) (hc : n.conn c = some x)
    (hlive : Live (history n.log c) x) :
    Kept T c x .connected n (moved n c x .connected) := by
  obtain ⟨y, hy, hstate, howner, hframe⟩ := moved_conn n c x .connected
  refine ⟨moved_inv h hcT hc .connected, ⟨y, hy, hstate, howner, ?_⟩,
    (Local.moved hc .connected).around h.books (List.mem_singleton_self c)⟩
  have hlog : (moved n c x .connected).log = n.log ++ [.connected c] := by simp [moved]
  have hself : history [.connected c] c = [.connected c] := by simp [history, Note.about]
  rw [hlog, history_append, hself]
  refine ⟨⟨?_, fun hpos => ?_, ?_⟩, ?_, ?_⟩
  · simpa [Note.isResponse] using hlive.responses
  · simpa [Note.isResponse] using hlive.frame (hframe ▸ hpos)
  · simpa [Note.isRemoved] using hlive.removed
  · simp [Note.isConnected, hstate, CS.isConnected]
  · simpa [Note.isClosed] using hlive.closed

/-- The books are looked at behind the event. -/
theorem fsm_safe {P : Node → Prop} {event : CE}
    (h : Safe Fault.bad P (connectionFsm maxDepth n c event)) (hbooks : ∀ n', P n' → Books n') :
    Safe Fault.bad P (fsm n c event) :=
  Safe.balance h hbooks

theorem fsm_after (h : Inv [] n) (hc : n.conn c = some x) {event : CE} {st : CS}
    (hafter : x.state.after event = some st) :
    Safe Fault.bad (fun n' => st = .finished ∧ Ended [] c n n' ∨ st ≠ .finished ∧
      Stays c x st n n') (fsm n c event) := by
  have hlive := h.live c x hc List.not_mem_nil
  obtain ⟨hconnected, hconnected', hst⟩ := CS.after_connected hafter
  have hw : x.state ≠ .waiting := by
    intro hw
    rw [hw] at hconnected
    cases hconnected
  refine fsm_safe ?_ fun n' h' => h'.elim (fun h'' => h''.2.inv.books) fun h'' => h''.2.inv.books
  rw [maxDepth, connectionFsm_after hc hafter]
  split
  · next heq =>
    refine .inr ⟨?_, heq ▸ .refl h hc, .refl n⟩
    intro hfin
    have := h.stable c x hc List.not_mem_nil
    rw [← heq, hfin] at this
    cases this
  · -- `haderror` has no part in the books
    have herror : ∃ m y, (if event = .error then n.set c { x with haderror := true } else n) = m ∧
        Inv [c] m ∧ m.conn c = some y ∧ y.state = x.state ∧ y.owner = x.owner ∧
        Live (history m.log c) y ∧ Around [c] n m ∧ m.connections = n.connections ∧
        m.next = n.next := by
      split
      · refine ⟨_, _, rfl, ?_, n.set_conn_self c _, rfl, rfl, hlive.congr rfl rfl, ?_, rfl, rfl⟩
        · have hset := Local.set hc (y := { x with haderror := true }) rfl
          have hbooks := h.books.set hc (y := { x with haderror := true }) rfl
          refine (h.push c).of_local hset hbooks (List.mem_singleton_self c) (h.books.lt_next hc) ?_
          intro hnone
          rw [Node.set_conn_self] at hnone
          cases hnone
        · have hset := Local.set hc (y := { x with haderror := true }) rfl
          exact hset.around h.books (List.mem_singleton_self c)
      · exact ⟨n, x, rfl, h.push c, hc, rfl, rfl, hlive, .refl _ h.books, rfl, rfl⟩
    obtain ⟨m, y, hm, hinv, hy, hstate, howner, hlivey, haround, hlist, hnext⟩ := herror
    rw [hm]
    obtain rfl | ⟨hquiet, hstable, hnot⟩ := hst
    · refine (finished_spec (nodeSend_spec 5) hinv (List.mem_singleton_self c) hy hlivey
        (hstate ▸ hconnected)).mono fun n' h' => .inl ⟨rfl, h'.pop.inv, h'.conn,
          haround.trans h'.around, ?_⟩
      obtain ⟨new, hl, hnew⟩ := h'.list
      exact ⟨new, hlist ▸ hl, fun d hd => hnext ▸ hnew d hd⟩
    · rw [connectionState_quiet hinv.books hy hquiet]
      have hkept := moved_kept hinv (List.mem_singleton_self c) hy hlivey
        st (by rw [hconnected', hstate, hconnected]) hnot
      have hwaiting : st ≠ .waiting := by
        intro hs
        rw [hs] at hconnected'
        cases hconnected'
      refine .inr ⟨?_, ⟨(hkept.pop hstable).inv, ?_, haround.trans hkept.around⟩, [], ?_, nofun⟩
      · intro hfin
        rw [hfin] at hquiet
        cases hquiet
      · obtain ⟨z, hz, hstatez, hownerz, hlivez⟩ := hkept.conn
        exact ⟨z, hz, hstatez, hownerz.trans howner, hlivez⟩
      · rw [moved_list m c y (hstate ▸ hw) hwaiting, hlist, List.append_nil]

theorem Live.over {h : List Note} (hlive : Live h x) (hnot : x.state.isConnected = false) :
    Over h x := by
  refine ⟨hlive.toAnswered, hlive.closed.trans ?_⟩
  rw [notices, hlive.connected, hnot, if_neg (by simp)]

theorem fsm_delete (h : Inv [] n) (hc : n.conn c = some x) :
    Safe Fault.bad (Ended [] c n) (fsm n c .delete) := by
  have hlive := h.live c x hc List.not_mem_nil
  have hstable := h.stable c x hc List.not_mem_nil
  -- nobody is told of a connection that has not been there
  have hended : x.state.isConnected = false →
      Safe Fault.bad (Ended [] c n) (connectionState 15 n c .ended) := by
    intro hnot
    obtain ⟨n', hn', hinv, hnone, hlocal, hlist⟩ :=
      ended_spec (h.push c) (List.mem_singleton_self c) hc (hlive.over hnot) 13
    rw [hn']
    refine ⟨?_, hnone, hlocal.around h.books (List.mem_singleton_self c), [], ?_, nofun⟩
    · exact hinv.pop fun y hy => by
        rw [hnone] at hy
        cases hy
    · rw [hlist, List.append_nil]
  have hopen : x.state.after .delete = some .finished → _ := fun hafter =>
    (fsm_after h hc hafter).mono fun n' h' => h'.elim And.right fun h'' => absurd rfl h''.1
  cases hstate : x.state with
  | waiting =>
    refine fsm_safe ?_ fun n' h' => h'.inv.books
    unfold maxDepth connectionFsm
    rw [Node.get_bind hc]
    simp only [hstate]
    exact hended (by rw [hstate]; rfl)
  | connecting =>
    refine fsm_safe ?_ fun n' h' => h'.inv.books
    unfold maxDepth connectionFsm
    rw [Node.get_bind hc]
    simp only [hstate]
    exact hended (by rw [hstate]; rfl)
  | connected => exact hopen (by rw [hstate]; rfl)
  | connectedDoneWriting => exact hopen (by rw [hstate]; rfl)
  | accepted => exact hopen (by rw [hstate]; rfl)
  | acceptedDoneWriting => exact hopen (by rw [hstate]; rfl)
  | acceptedDoneReading => exact hopen (by rw [hstate]; rfl)
  | _ =>
    rw [hstate] at hstable
    cases hstable

theorem fsm_slotAvailable (h : Inv [] n) (hc : n.conn c = some x) (hw : x.state = .waiting) :
    Safe Fault.bad (fun n' => Inv [] n' ∧ Around [c] n n') (fsm n c .slotAvailable) := by
  have hlive := h.live c x hc List.not_mem_nil
  refine fsm_safe ?_ fun n' h' => h'.1.books
  refine (slotAvailable_spec (k := 10) (.inr (nodeSend_spec 4)) (h.push c)
    (List.mem_singleton_self c) hc hw hlive).mono fun n' h' => ?_
  obtain hend | ⟨hkept, -⟩ := h'
  · exact ⟨hend.pop.inv, hend.around⟩
  · exact ⟨(hkept.pop rfl).inv, hkept.around⟩

theorem fsm_asyncFailed (h : Inv [] n) (hc : n.conn c = some x) (hstate : x.state = .connecting) :
    Safe Fault.bad (Ended [] c n) (fsm n c .asyncFailed) := by
  have hlive := h.live c x hc List.not_mem_nil
  refine fsm_safe ?_ fun n' h' => h'.inv.books
  unfold maxDepth connectionFsm
  rw [Node.get_bind hc]
  simp only [hstate]
  exact (failed_spec (k := 11) (.inr (nodeSend_spec 5)) (h.push c) (List.mem_singleton_self c) hc
    hlive (by rw [hstate]; rfl) (by rw [hstate]; decide)).mono fun _ h' => h'.pop

theorem fsm_asyncOk (h : Inv [] n) (hc : n.conn c = some x) (hstate : x.state = .connecting) :
    Safe Fault.bad (Stays c x .connected n) (fsm n c .asyncOk) := by
  have hlive := h.live c x hc List.not_mem_nil
  have hcT := List.mem_singleton_self c
  have hkept := moved_connected (h.push c) hcT hc hlive
  obtain ⟨y, hy, hstatey, howner, hlivey⟩ := hkept.conn
  refine fsm_safe ?_ fun n' h' => h'.inv.books
  unfold maxDepth connectionFsm
  rw [Node.get_bind hc]
  simp only [hstate]
  rw [connectionState_quiet h.books hc (by rfl)]
  refine Safe.bind (P := fun m => m = moved n c x .connected) rfl ?_
  rintro _ rfl
  refine (notifyConnect_spec (k := 14) (.inr (nodeSend_spec 7)) hkept.inv hcT hy hlivey.toAnswered
    false).mono fun n' h' => ?_
  obtain ⟨hinv, htold, hclosed⟩ := h'
  obtain ⟨z, hz, hstatez, hownerz, hans⟩ := htold.conn
  have hlivez : Live (history n'.log c) z := by
    refine ⟨hans, ?_, hclosed.trans hlivey.closed⟩
    rw [htold.connected, hlivey.connected, hstatez]
  have hlist := htold.list
  rw [moved_list n c x (by rw [hstate]; decide) (by decide)] at hlist
  refine ⟨⟨hinv.pop fun w hw => ?_, ⟨z, hz, hstatez.trans hstatey, hownerz.trans howner, hlivez⟩,
    hkept.around.trans htold.around⟩, hlist⟩
  rw [hz] at hw
  cases hw
  exact ⟨by rw [hstatez, hstatey]; rfl, hlivez⟩

/-- A connection that a client or `socketpair` has made -/
theorem fsm_clientConnected (h : Inv (c :: T) n) (hc : n.conn c = some x) (hstate : x.state = .start)
    (hlive : Live (history n.log c) x) :
    Safe Fault.bad (Kept T c x .connected n) (fsm n c .clientConnected) := by
  have hkept := moved_connected h List.mem_cons_self hc hlive
  obtain ⟨y, hy, hstatey, -, hlivey⟩ := hkept.conn
  refine fsm_safe ?_ fun n' h' => h'.inv.books
  unfold maxDepth connectionFsm
  rw [Node.get_bind hc]
  simp only [hstate]
  rw [connectionState_quiet h.books hc (by rfl)]
  refine ⟨hkept.inv.pop fun z hz => ?_, hkept.conn, hkept.around⟩
  rw [hy] at hz
  cases hz
  exact ⟨by rw [hstatey]; rfl, hlivey⟩

theorem fsm_requested (h : Inv [c] n) (hc : n.conn c = some x) (hstate : x.state = .start)
    (hlive : Live (history n.log c) x) :
    Safe Fault.bad (fun n' => Kept [] c x .waiting n n' ∧
      n'.connections = n.connections.erase c) (fsm n c .requested) := by
  have hkept := moved_kept h (List.mem_singleton_self c) hc hlive .waiting
    (by rw [hstate]; rfl) (by decide)
  refine fsm_safe ?_ fun n' h' => h'.1.inv.books
  unfold maxDepth connectionFsm
  rw [Node.get_bind hc]
  simp only [hstate]
  rw [connectionState_quiet h.books hc (by rfl)]
  exact ⟨hkept.pop rfl, by simp [moved, relist, hstate]⟩

theorem send_spec {dest : Endpointid} {m : Msg} (h : Inv T (n.note (.sent dest m))) :
    Safe Fault.bad (fun n' => Inv T n' ∧ Frame (n.note (.sent dest m)) n') (send n dest m) :=
  nodeSend_spec 9 h

end Io
end Network
end NReduce
