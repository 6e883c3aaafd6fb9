import NReduce.Network.Channel
import NReduce.Network.Walk

/-!
# NReduce.Network.BooksRun

The books over the runs of the I/O thread.

* `Sound`: the invariant of the thread. It says of each place in the code which connections the
  thread holds a pointer or a descriptor of, and what it relies on about them.
* `Meets`: a program does not delete a connection that it has not been given.
-/

namespace NReduce
namespace Network
namespace Io

open Logic

variable {s : State} {T : List Nat} {S : List Endpointid} {n n' : Node} {c : Nat} {x : Conn}

/-- The connection that the next turn is about -/
def Pc.cursor : Pc → Option Nat
  | .exiting _ c | .removing _ c _ | .writing c | .reading c => c
  | _ => none

/-- The connections that may be written to before `select` is called again -/
def Pc.toWrite (n : Node) : Pc → Nat → Prop
  | .messages, _ | .exiting .., _ | .exitingListeners .., _ => True
  | .removing _ _ ret, _ => ret ≠ .done
  | .writing c, d => d ∈ rest n c
  | _, _ => False

structure Sound (s : State) : Prop where
  inv : Inv [] s.node
  keyed : Keyed s.node
  cursor : ∀ c, s.pc.cursor = some c → c ∈ s.node.connections
  known : ∀ c ∈ s.writefds, c < s.node.next
  writable : ∀ c ∈ s.writefds, s.pc.toWrite s.node c →
    ∀ x, s.node.conn c = some x → x.state.writable = true

def Input.deletes : Input → Option Socketid
  | .message _ (.deleteConnection id) => some id
  | _ => none

/-- The endpoints that may own more after a message -/
def Input.owners : Input → List Endpointid
  | .message _ (.listen owner _ _) | .message _ (.connect _ _ owner _) => [owner]
  | .message source (.connpair ..) | .message source (.read ..) | .message source (.write ..) =>
    [source]
  | _ => []

/-- A connection is deleted when it has been given to the program: it does not wait for a slot or
for `connect`. -/
def Meets (s : State) (i : Input) : Prop :=
  s.pc = .messages → ∀ id ∈ i.deletes, ∀ c ∈ connhashLookup s.node id, ∀ x ∈ s.node.conn c,
    x.state ≠ .waiting ∧ x.state ≠ .connecting

instance (s : State) (i : Input) : Decidable (Meets s i) :=
  inferInstanceAs (Decidable (s.pc = .messages → ∀ id ∈ i.deletes,
    ∀ c ∈ connhashLookup s.node id, ∀ x ∈ s.node.conn c,
      x.state ≠ .waiting ∧ x.state ≠ .connecting))

/-! ## Parts of the invariant -/

/-- The invariant is kept, and new owners are among `S`. -/
structure Follows (S : List Endpointid) (s s' : State) : Prop where
  sound : Sound s'
  effect : ∃ T, Effect T S s.node s'.node

theorem Follows.widen {S' : List Endpointid} {s' : State} (h : Follows S s s')
    (hS : ∀ e ∈ S, e ∈ S') : Follows S' s s' := by
  obtain ⟨T, hT⟩ := h.effect
  exact ⟨h.sound, T, hT.widen hS⟩

/-- Nothing is to be written, and there is no pointer. -/
theorem Sound.idle (h : Sound s) (hn : Inv [] n') (heffect : Effect T S s.node n') (pc : Pc)
    (hcursor : pc.cursor = none) (hwrite : ∀ c, ¬ pc.toWrite n' c) :
    Follows S s { s with node := n', pc := pc } where
  sound := {
    inv := hn
    keyed := heffect.keyed h.keyed
    cursor := fun c hc => by
      rw [hcursor] at hc
      cases hc
    known := fun c hc => (h.known c hc).trans_le heffect.next
    writable := fun c _ hw => absurd hw (hwrite c) }
  effect := ⟨T, heffect⟩

theorem Sound.stop (h : Sound s) (pc : Pc) (hcursor : pc.cursor = none)
    (hwrite : ∀ c, ¬ pc.toWrite s.node c) : Follows S s { s with pc := pc } :=
  h.idle h.inv (.refl [] S h.inv.books) pc hcursor hwrite

/-- The thread is somewhere else. -/
theorem Sound.go (h : Sound s) {pc : Pc}
    (hcursor : ∀ c, pc.cursor = some c → c ∈ s.node.connections)
    (hwrite : ∀ c, pc.toWrite s.node c → s.pc.toWrite s.node c) :
    Follows S s { s with pc := pc } where
  sound := ⟨h.inv, h.keyed, hcursor, h.known, fun c hc hw => h.writable c hc (hwrite c hw)⟩
  effect := ⟨[], .refl _ _ h.inv.books⟩

theorem mem_of_head? (n : Node) : ∀ c, n.connections.head? = some c → c ∈ n.connections :=
  fun _ => List.mem_of_mem_head?

/-- A message has been handled. -/
theorem Sound.handled (h : Sound s) (hpc : s.pc = .messages) (hn : Handled S s.node n') :
    Follows S s { s with node := n' } := by
  obtain ⟨T, hT⟩ := hn.effect
  refine ⟨⟨hn.inv, hT.keyed h.keyed, fun c hc => ?_, fun c hc => (h.known c hc).trans_le hT.next,
    fun c hc _ y hy => ?_⟩, T, hT⟩
  · rw [hpc] at hc
    cases hc
  · obtain ⟨x, hcx, hxy⟩ := hn.steady c y (h.known c hc) hy
    exact hxy (h.writable c hc (by rw [hpc]; trivial) x hcx)

/-- The connection `c` is where it was, or it has been removed. -/
def Cleared (c : Nat) (n n' : Node) : Prop := n' = n ∨ Ended [] c n n'

theorem Cleared.turned (h : Cleared c n n') (hinv : Inv [] n) : Turned c n n' := by
  obtain rfl | h := h
  · exact ⟨hinv, .refl _ _ hinv.books, .inl (.refl _)⟩
  · exact h.turned

theorem clear_spec (h : Inv [] n) (hc : n.conn c = some x) (b : Prop) [Decidable b] :
    Safe Fault.bad (Cleared c n) (if b then fsm n c .delete else pure n) := by
  split
  · exact (fsm_delete h hc).mono fun _ => .inr
  · exact .inl rfl

/-- A turn of a loop that only removes connections -/
theorem Sound.clear (h : Sound s) (hmem : c ∈ s.node.connections) (next : Option Nat → Pc)
    (hnext : ∀ d, (next d).cursor = d)
    (hwrite : ∀ n d c, (next d).toWrite n c → s.pc.toWrite s.node c)
    {b : Conn → Prop} [DecidablePred b] :
    Safe Fault.bad (Follows S s)
      (turn s c next fun conn => if b conn then fsm s.node c .delete else pure s.node) := by
  refine (turn_spec h.inv hmem next _ (R := Cleared c s.node)
    (fun x hx => clear_spec h.inv hx (b x)) fun n' h' => h'.turned h.inv).mono ?_
  rintro _ ⟨n', d, rfl, hcleared, honward⟩
  have hturned := hcleared.turned h.inv
  refine ⟨⟨hturned.inv, hturned.effect.keyed h.keyed, fun e he => honward.mem e (hnext d ▸ he),
    fun e he => (h.known e he).trans_le hturned.effect.next, fun e he hw y hy => ?_⟩,
    [c], hturned.effect.widen fun _ he => absurd he List.not_mem_nil⟩
  have hx := h.writable e he (hwrite n' d e hw)
  obtain rfl | hended := hcleared
  · exact hx y hy
  · by_cases hec : e = c
    · rw [hec, hended.conn] at hy
      cases hy
    · have hold := hturned.effect.old e (h.known e he) (by simpa using hec)
      obtain ⟨x, hcx, hcore⟩ := hold.symm.some hy
      rw [← Conn.core_state hcore]
      exact hx x hcx

/-- A turn of one of the loops of `ioloop` -/
theorem Sound.serve (h : Sound s) (hmem : c ∈ s.node.connections) (next : Option Nat → Pc)
    (hnext : ∀ d, (next d).cursor = d)
    (hwrite : ∀ n d e, (next d).toWrite n e → e ∈ rest n d ∧ s.pc = .writing (some c))
    {body : Conn → Except Fault Node}
    (hbody : ∀ x, s.node.conn c = some x → Safe Fault.bad (Turned c s.node) (body x)) :
    Safe Fault.bad (Follows S s) (turn s c next body) := by
  refine (turn_spec h.inv hmem next body hbody fun _ => id).mono ?_
  rintro _ ⟨n', d, rfl, hturned, honward⟩
  refine ⟨⟨hturned.inv, hturned.effect.keyed h.keyed, fun e he => honward.mem e (hnext d ▸ he),
    fun e he => (h.known e he).trans_le hturned.effect.next, fun e he hw y hy => ?_⟩,
    [c], hturned.effect.widen fun _ he => absurd he List.not_mem_nil⟩
  obtain ⟨hrest, hpc⟩ := hwrite n' d e hw
  obtain hnew | ⟨hec, hrest⟩ := honward.before e hrest
  · exact absurd (h.known e he) (Nat.not_lt.mpr hnew)
  · have hold := hturned.effect.old e (h.known e he) (by simpa using hec)
    obtain ⟨x, hcx, hcore⟩ := hold.symm.some hy
    rw [← Conn.core_state hcore]
    exact h.writable e he (by rw [hpc]; exact hrest) x hcx

/-! ## One step -/

theorem handleMessage_sound (h : Sound s) (hpc : s.pc = .messages) (source : Endpointid) (m : Request)
    (hmeets : Meets s (.message source m)) :
    Safe Fault.bad (Follows (Input.message source m).owners s) (handleMessage s source m) := by
  have hdone : ∀ {S : List Endpointid} {r : Except Fault Node}, Safe Fault.bad (Handled S s.node) r →
      Safe Fault.bad (Follows S s) (do pure { s with node := ← r }) := fun hr =>
    Safe.bind hr fun n' hn' => h.handled hpc hn'
  have hall : ∀ c, s.pc.toWrite s.node c := fun c => by
    rw [hpc]
    trivial
  cases m with
  | endpointExit epid => exact h.go (mem_of_head? s.node) fun c _ => hall c
  | listen owner ioid ok => exact hdone (iothreadListen_spec h.inv owner source ioid ok)
  | accept sockid ioid => exact hdone (iothreadAccept_spec h.inv sockid ioid [])
  | connect ip port owner ioid => exact hdone (iothreadConnect_spec h.inv ip port owner ioid)
  | connpair ioid fds => exact hdone (iothreadConnpair_spec h.inv ioid source fds)
  | read sockid ioid => exact hdone (iothreadRead_spec h.inv sockid ioid source)
  | write sockid ioid len => exact hdone (iothreadWrite_spec h.inv sockid ioid len source)
  | deleteConnection sockid =>
    refine hdone (iothreadDeleteConnection_spec h.inv sockid fun c x hlookup hc => ?_)
    obtain ⟨hwaiting, hconnecting⟩ := hmeets hpc sockid rfl c hlookup x hc
    have hstable := h.inv.stable c x hc List.not_mem_nil
    cases hstate : x.state <;> simp_all [CS.stable, CS.isConnected]
  | deleteListener sockid =>
    unfold handleMessage
    dsimp only
    split
    · exact h.go (mem_of_head? s.node) fun c _ => hall c
    · exact ⟨h, [], .refl _ _ h.inv.books⟩

theorem State.loop_cursor (s : State) : s.loop.cursor = none := by
  unfold State.loop
  split <;> rfl

theorem State.loop_toWrite (s : State) (n : Node) (c : Nat) : ¬ s.loop.toWrite n c := by
  unfold State.loop
  split <;> exact id

theorem Keyed.filter (h : Keyed n) (p : Listener → Bool) :
    Keyed { n with listeners := n.listeners.filter p } where
  nodup := h.nodup.sublist (List.filter_sublist.map _)
  lt_next l hl := h.lt_next l (List.mem_of_mem_filter hl)

theorem removeListener_effect (h : Inv [] n) (key : Nat) (S : List Endpointid) :
    Inv [] { n with listeners := n.listeners.filter fun l => l.key ≠ key } ∧
      Effect [] S n { n with listeners := n.listeners.filter fun l => l.key ≠ key } :=
  ⟨h.congr rfl rfl rfl rfl rfl rfl, .listeners_only rfl rfl rfl rfl rfl (UInt32.le_refl _)
    (fun l hl => .inr ⟨l, List.mem_of_mem_filter hl, rfl⟩) fun hk => hk.filter _⟩

/-- `connect_pending` -/
theorem pending_sound (h : Sound s) {ip : UInt32} {servers : List UInt32}
    (hpc : s.pc = .pending (ip :: servers)) (result : Result) :
    Safe Fault.bad (Follows S s) (advance s result) := by
  have hgo : Follows S s { s with pc := .pending servers } :=
    h.stop (.pending servers) rfl fun _ => id
  unfold advance
  simp only [hpc]
  split
  · next c _ hw =>
    split
    · have hmem : c ∈ (s.node.server ip).waitingConnections := by
        rw [hw]
        exact List.mem_cons_self
      obtain ⟨x, hc, hstate, -⟩ := (h.inv.books.memWaiting ip c).mp hmem
      have hflag : x.flag .waiting = true := by
        rw [h.inv.books.flag c x .waiting hc, hstate]
        rfl
      rw [Node.get_bind hc, require_true hflag, ok_bind]
      refine Safe.bind (fsm_slotAvailable h.inv hc hstate) fun n' hn' => ?_
      exact hpc ▸ h.idle hn'.1 (hn'.2.effect S) (.pending (ip :: servers)) rfl fun _ => id
    · exact hgo
  · exact hgo

theorem advance_sound (h : Sound s) (result : Result) :
    Safe Fault.bad (Follows (s.node.listeners.map (·.owner)) s) (advance s result) := by
  cases hpc : s.pc with
  | select =>
    unfold advance
    simp only [hpc]
    exact h.stop s.loop s.loop_cursor (s.loop_toWrite _)
  | messages =>
    unfold advance
    simp only [hpc]
    exact h.go (mem_of_head? s.node) fun c _ => by rw [hpc]; trivial
  | exiting e cursor =>
    unfold advance
    simp only [hpc]
    cases cursor with
    | none => exact h.go (fun _ heq => by cases heq) fun c _ => by rw [hpc]; trivial
    | some c =>
      exact h.clear (h.cursor c (by rw [hpc]; rfl)) (.exiting e) (fun _ => rfl) fun _ _ c _ => by
        rw [hpc]
        trivial
  | exitingListeners e cursor =>
    unfold advance
    simp only [hpc]
    cases cursor with
    | none => exact h.go (fun _ heq => by cases heq) fun c _ => by rw [hpc]; trivial
    | some key =>
      refine Safe.bind (listenerAt_safe s.node key) fun l _ => ?_
      split
      · exact h.go (mem_of_head? s.node) fun c _ => by rw [hpc]; trivial
      · exact h.go (fun _ heq => by cases heq) fun c _ => by rw [hpc]; trivial
  | removing key cursor ret =>
    unfold advance
    simp only [hpc]
    cases cursor with
    | none =>
      refine Safe.bind (listenerAt_safe s.node key) fun l _ => ?_
      obtain ⟨hinv, heffect⟩ := removeListener_effect h.inv key (s.node.listeners.map (·.owner))
      refine ⟨⟨hinv, heffect.keyed h.keyed, fun c hc => ?_, h.known, fun c hc hw => ?_⟩, [], heffect⟩
      · cases ret <;> cases hc
      · refine h.writable c hc ?_
        rw [hpc]
        cases ret with
        | done => exact hw.elim
        | _ => exact fun heq => by cases heq
    | some c =>
      exact h.clear (h.cursor c (by rw [hpc]; rfl)) (.removing key · ret) (fun _ => rfl) fun _ _ c hret => by
        rw [hpc]
        exact hret
  | writing cursor =>
    unfold advance
    simp only [hpc]
    cases cursor with
    | none => exact h.go (mem_of_head? s.node) fun c hw => hw.elim
    | some c =>
      have hmem := h.cursor c (by rw [hpc]; rfl)
      refine h.serve hmem .writing (fun _ => rfl) (fun _ _ _ hw => ⟨hw, hpc⟩) fun x hc => ?_
      split
      · next hset =>
        have hwritable := h.writable c hset.2 (by rw [hpc]; exact mem_rest hmem) x hc
        cases result with
        | connected ok =>
          dsimp only
          split
          · next hconnecting => exact handleConnected_spec h.inv hc hconnecting ok
          · exact Safe.fault id
        | write results =>
          dsimp only
          split
          · exact Safe.fault id
          · next hnot =>
            have hwrite : x.state.canWrite = true := by simpa [CS.writable, hnot] using hwritable
            exact handleWrite_spec h.inv hc hwrite hmem results
        | _ => exact Safe.fault id
      · exact (Works.refl [] h.inv hc).turned
  | reading cursor =>
    unfold advance
    simp only [hpc]
    cases cursor with
    | none => exact h.go (fun _ heq => by cases heq) fun c hw => hw.elim
    | some c =>
      have hmem := h.cursor c (by rw [hpc]; rfl)
      refine h.serve hmem .reading (fun _ => rfl) (fun _ _ _ hw => False.elim hw) fun x hc => ?_
      split
      · next hset =>
        cases result with
        | read r => exact handleRead_spec h.inv hc hset.2.2 hmem r
        | _ => exact Safe.fault id
      · exact (Works.refl [] h.inv hc).turned
  | accepting cursor =>
    unfold advance
    simp only [hpc]
    cases cursor with
    | none =>
      have hinv : Inv [] { s.node with toclose := [] } := h.inv.congr rfl rfl rfl rfl rfl rfl
      exact h.idle hinv (.same rfl rfl rfl rfl rfl (UInt32.le_refl _) rfl rfl) (.pending s.node.servers) rfl fun _ => id
    | some key =>
      refine Safe.bind (listenerAt_safe s.node key) fun l _ => ?_
      split
      · cases result with
        | accept client =>
          refine Safe.bind (handleNewConnection_spec h.inv key client) fun n' hn' => ?_
          exact h.idle hn'.1 hn'.2 (.accepting (nextListener n' key)) rfl fun _ => id
        | _ => exact Safe.fault id
      · exact h.stop (.accepting (nextListener s.node key)) rfl fun _ => id
  | pending servers =>
    cases servers with
    | nil =>
      unfold advance
      simp only [hpc]
      exact h.stop s.loop s.loop_cursor (s.loop_toWrite _)
    | cons ip servers => exact pending_sound h hpc result
  | joined =>
    unfold advance
    simp only [hpc]
    exact h.stop .closing rfl fun _ => id
  | closing =>
    unfold advance
    simp only [hpc]
    split
    · next c _ hl =>
      have hmem : c ∈ s.node.connections := by
        rw [hl]
        exact List.mem_cons_self
      obtain ⟨x, hc, -⟩ := (h.inv.books.mem c).mp hmem
      refine Safe.bind (fsm_delete h.inv hc) fun n' hn' => ?_
      exact hpc ▸ h.idle hn'.inv (hn'.around.effect _) .closing rfl fun _ => id
    · exact h.stop (.closingWaiting s.node.servers) rfl fun _ => id
  | closingWaiting servers =>
    unfold advance
    simp only [hpc]
    cases servers with
    | nil =>
      dsimp only
      split
      · exact ⟨⟨h.inv, h.keyed, mem_of_head? s.node, h.known, fun _ _ hw => absurd rfl hw⟩,
          [], .refl _ _ h.inv.books⟩
      · exact h.stop .done rfl fun _ => id
    | cons ip servers =>
      dsimp only
      split
      · next c _ hl =>
        have hmem : c ∈ (s.node.server ip).waitingConnections := by
          rw [hl]
          exact List.mem_cons_self
        obtain ⟨x, hc, -⟩ := (h.inv.books.memWaiting ip c).mp hmem
        refine Safe.bind (fsm_delete h.inv hc) fun n' hn' => ?_
        exact hpc ▸ h.idle hn'.inv (hn'.around.effect _) (.closingWaiting (ip :: servers)) rfl fun _ => id
      · exact h.stop (.closingWaiting servers) rfl fun _ => id
  | done =>
    unfold advance
    simp only [hpc]
    exact Safe.fault id

theorem step_follows (h : Sound s) {i : Input} (hmeets : Meets s i) :
    Safe Fault.bad (Follows (i.owners ++ s.node.listeners.map (·.owner)) s) (step s i) := by
  have hfree : s.pc.free = true → s.pc.cursor = none ∧ ∀ n c, ¬ s.pc.toWrite n c := by
    cases hpc : s.pc <;> first | exact fun _ => ⟨rfl, fun _ _ => id⟩ | exact fun hf => nomatch hf
  cases i with
  | threads endpoints nextlocalid =>
    unfold step
    dsimp only
    split
    · next hcond =>
      obtain ⟨hcursor, hwrite⟩ := hfree hcond.1
      have hinv : Inv [] { s.node with endpoints := endpoints, nextlocalid := nextlocalid } :=
        h.inv.congr rfl rfl rfl rfl rfl rfl
      exact h.idle hinv (.same rfl rfl rfl rfl rfl hcond.2 rfl rfl) s.pc hcursor (hwrite _)
    · exact Safe.fault id
  | send dest size =>
    unfold step
    dsimp only
    split
    · next hf =>
      obtain ⟨hcursor, hwrite⟩ := hfree hf
      refine Safe.bind (send_plain h.inv rfl) fun n' hn' => ?_
      exact h.idle hn'.1 ((hn'.2.around []).effect _) s.pc hcursor (hwrite _)
    · exact Safe.fault id
  | shutdown =>
    unfold step
    dsimp only
    split
    · next hf =>
      obtain ⟨hcursor, hwrite⟩ := hfree hf
      have hinv : Inv [] { s.node with shutdown := true } := h.inv.congr rfl rfl rfl rfl rfl rfl
      exact h.idle hinv (.same rfl rfl rfl rfl rfl (UInt32.le_refl _) rfl rfl) s.pc hcursor (hwrite _)
    · exact Safe.fault id
  | results results =>
    refine ⟨⟨h.inv.congr rfl rfl rfl rfl rfl rfl, h.keyed.congr rfl rfl, h.cursor, h.known,
      fun c hc hw => h.writable c hc ?_⟩, [], .same rfl rfl rfl rfl rfl (UInt32.le_refl _) rfl rfl⟩
    cases hpc : s.pc <;> rw [hpc] at hw <;> exact hw
  | select readfds writefds listenfds =>
    unfold step
    dsimp only
    split
    · next hcond =>
      have hwrite : ∀ c ∈ writefds, ∃ x, s.node.conn c = some x ∧ x.state.writable = true := by
        intro c hc
        have hmay := hcond.2.2.1 c hc
        unfold mayWrite at hmay
        split at hmay
        · next x hx =>
          refine ⟨x, hx, ?_⟩
          simp only [CS.writable, Bool.and_eq_true, Bool.or_eq_true] at hmay ⊢
          exact hmay.2.imp_right And.left
        · cases hmay
      refine ⟨⟨h.inv, h.keyed, nofun, fun c hc => ?_, fun c hc _ y hy => ?_⟩, [],
        .refl _ _ h.inv.books⟩
      · obtain ⟨x, hx, -⟩ := hwrite c hc
        exact h.inv.books.lt_next hx
      · obtain ⟨x, hx, hw⟩ := hwrite c hc
        have hxy : some x = some y := hx.symm.trans hy
        cases hxy
        exact hw
    · exact Safe.fault id
  | message source m =>
    unfold step
    dsimp only
    split
    · next hpc =>
      exact (handleMessage_sound h hpc source m hmeets).mono fun _ h' =>
        h'.widen fun _ => List.mem_append_left _
    · exact Safe.fault id
  | next result =>
    exact (advance_sound h result).mono fun _ h' => h'.widen fun _ => List.mem_append_right _

theorem fsm_finread_invalid (hc : n.conn c = some x)
    (hstate : x.state = .waiting ∨ x.state = .connecting) :
    fsm n c .finread = .error (.invalidEvent x.state .finread) := by
  unfold fsm maxDepth connectionFsm
  rw [Node.get_bind hc]
  obtain hstate | hstate := hstate <;> simp only [hstate] <;> rfl

theorem step_sound (h : Sound s) {i : Input} (hmeets : Meets s i) :
    Safe Fault.bad Sound (step s i) :=
  (step_follows h hmeets).mono fun _ => Follows.sound

/-- The condition is exact: without it the event does not fit the state. -/
theorem step_invalid {i : Input} (h : ¬ Meets s i) :
    ∃ st, step s i = .error (.invalidEvent st .finread) := by
  unfold Meets at h
  push Not at h
  obtain ⟨hpc, id, hid, c, hlookup, x, hc, hstate⟩ := h
  have hstate' : x.state = .waiting ∨ x.state = .connecting := by
    by_cases hw : x.state = .waiting
    · exact .inl hw
    · exact .inr (hstate hw)
  have hdelete : iothreadDeleteConnection s.node id = .error (.invalidEvent x.state .finread) := by
    unfold iothreadDeleteConnection
    rw [hlookup]
    dsimp only
    rw [Node.get_bind hc]
    exact fsm_finread_invalid (x := { x with collected := true, finwrite := true })
      (Node.set_conn_self ..) hstate'
  refine ⟨x.state, ?_⟩
  cases i with
  | message source m =>
    cases m with
    | deleteConnection id' =>
      cases hid
      unfold step handleMessage
      dsimp only
      rw [if_pos hpc, hdelete]
      rfl
    | _ => cases hid
  | _ => cases hid

/-! ## Runs -/

/-- There is no connection yet. -/
theorem Inv.of_none (hconn : ∀ c, n.conn c = none) (hnext : n.next = 0)
    (hlist : n.connections = []) (hserver : ∀ ip, n.server ip = ⟨fun _ => 0, []⟩)
    (hlog : n.log = []) : Inv [] n := by
  have hsome : ∀ {c x} {p : Prop}, n.conn c = some x → p := fun {c _ _} hc => by
    rw [hconn c] at hc
    cases hc
  refine ⟨⟨fun k ip => ?_, fun _ _ _ => hsome, ?_, fun c => ?_, fun ip => ?_, fun ip c => ?_,
    fun c _ => hconn c, fun _ _ => hsome⟩, fun _ _ => ?_, fun _ _ hc _ => hsome hc,
    fun _ _ hc _ => hsome hc, fun c hc => ?_⟩
  · rw [hserver, tally, hnext]
    rfl
  · rw [hlist]
    exact List.nodup_nil
  · rw [hlist]
    exact ⟨nofun, fun ⟨_, hc, _⟩ => hsome hc⟩
  · rw [hserver]
    exact List.nodup_nil
  · rw [hserver]
    exact ⟨nofun, fun ⟨_, hc, _⟩ => hsome hc⟩
  · rw [hlog]
    rfl
  · rw [hnext] at hc
    exact absurd hc (Nat.not_lt_zero c)

theorem Initial.sound (h : Initial s) : Sound s := by
  obtain ⟨listenip, listenport, outgoing, iosize, rfl⟩ := h
  have hkeyed : Keyed (Node.initial listenip listenport outgoing iosize) :=
    ⟨List.nodup_singleton 0, fun l hl => List.mem_singleton.mp hl ▸ Nat.zero_lt_one⟩
  exact ⟨.of_none (fun _ => rfl) rfl rfl (fun _ => rfl) rfl, hkeyed, fun _ hc => (nomatch hc),
    fun _ hc => absurd hc List.not_mem_nil, fun _ hc => absurd hc List.not_mem_nil⟩

/-- A step that meets the condition -/
def MeetingStep (s : State) (i : Input) (s' : State) : Prop := Meets s i ∧ step s i = .ok s'

theorem Run.sound {tr : List Input} (h : Run Initial MeetingStep s tr) : Sound s :=
  h.invariant (I := fun s _ => Sound s) (fun _ => Initial.sound) fun _ _ _ _ _ hsound hstep =>
    (step_sound hsound hstep.1).ok_of hstep.2

/-- What the node keeps and has told about its connections -/
structure InOrder (n : Node) : Prop where
  count : ∀ k ip, (n.server ip).count k = tally n k ip
  waiting : ∀ ip c, c ∈ (n.server ip).waitingConnections ↔
    ∃ x, n.conn c = some x ∧ x.state = .waiting ∧ x.si = ip
  listed : ∀ c, c ∈ n.connections ↔ ∃ x, n.conn c = some x ∧ x.state ≠ .waiting
  nodup : n.connections.Nodup ∧ ∀ ip, (n.server ip).waitingConnections.Nodup
  responses : ∀ c, (history n.log c).countP Note.isResponse ≤ 1
  there : ∀ c x, n.conn c = some x → (history n.log c).countP Note.isRemoved = 0 ∧
    (history n.log c).countP Note.isClosed = 0
  removed : ∀ c, c < n.next → n.conn c = none → ∃ x, .removed c x ∈ n.log ∧ x.state = .ended ∧
    (history n.log c).countP Note.isRemoved = 1 ∧
    (history n.log c).countP Note.isClosed = notices (history n.log c) x

theorem Inv.inOrder (h : Inv [] n) : InOrder n where
  count := h.books.count
  waiting := h.books.memWaiting
  listed := h.books.mem
  nodup := ⟨h.books.nodup, h.books.nodupWaiting⟩
  responses c := by
    obtain hlt | hle := Nat.lt_or_ge c n.next
    · cases hc : n.conn c with
      | some x => exact (h.live c x hc List.not_mem_nil).responses
      | none =>
        obtain ⟨x, -, hx⟩ := h.gone c hlt hc
        exact hx.responses
    · rw [h.fresh c hle]
      exact Nat.zero_le 1
  there c x hx :=
    have hlive := h.live c x hx List.not_mem_nil
    ⟨hlive.removed, hlive.closed⟩
  removed c hlt hc := by
    obtain ⟨x, hmem, hx⟩ := h.gone c hlt hc
    exact ⟨x, hmem, hx.state, hx.removed, hx.closed⟩

/-- As long as no program deletes a connection that it has not been given, the books are right, and
no event finds a connection that is gone or a state that it does not fit. -/
theorem inOrder_of_meetingStep {tr : List Input} (h : Run Initial MeetingStep s tr) :
    InOrder s.node ∧ ∀ i, Meets s i ↔ ∀ f, step s i = .error f → ¬ f.bad := by
  refine ⟨(Run.sound h).inv.inOrder, fun i => ⟨fun hmeets _ => ?_, fun hgood => ?_⟩⟩
  · exact (step_sound (Run.sound h) hmeets).not_bad
  · by_contra hnot
    obtain ⟨st, hst⟩ := step_invalid hnot
    exact hgood _ hst trivial

theorem run_of_steps {init : State → Prop} {p : State → Input → Prop} [∀ s i, Decidable (p s i)]
    {s' : State} {tr is : List Input} (h : Run init (fun s i s' => p s i ∧ step s i = .ok s') s tr)
    (hs : steps p s is = .ok s') :
    Run init (fun s i s' => p s i ∧ step s i = .ok s') s' (tr ++ is) := by
  induction is generalizing s tr with
  | nil =>
    cases hs
    rwa [List.append_nil]
  | cons i is ih =>
    unfold steps at hs
    by_cases hp : p s i
    · rw [require_true hp, ok_bind] at hs
      cases hstep : step s i with
      | ok s₁ =>
        rw [hstep, ok_bind] at hs
        rw [List.append_cons]
        exact ih (h.next ⟨hp, hstep⟩) hs
      | error f =>
        rw [hstep] at hs
        cases hs
    · rw [require, if_neg hp] at hs
      cases hs

/-- A pair of connections is made. The first one is written to and deleted; its data go out in the
next round, and then it ends. -/
def pairDeleted : List Input :=
  [.select [] [] [], .message ⟨1, 2, 5⟩ (.connpair 9 (some (3, 4))),
    .message ⟨1, 2, 5⟩ (.write ⟨⟨1, 2, 1⟩, 3⟩ 9 7),
    .message ⟨1, 2, 5⟩ (.deleteConnection ⟨⟨1, 2, 1⟩, 3⟩)] ++
  List.replicate 11 (.next .none) ++
  [.select [] [0] [], .next .none, .next (.write [.bytes 7])]

theorem inOrder_pairDeleted : ∃ s, steps Meets (.initial 1 2 false 10) pairDeleted = .ok s ∧
    InOrder s.node ∧ ∀ i, Meets s i ↔ ∀ f, step s i = .error f → ¬ f.bad := by
  have hok : (steps Meets (.initial 1 2 false 10) pairDeleted).isOk = true := by decide +kernel
  cases hs : steps Meets (.initial 1 2 false 10) pairDeleted with
  | ok s =>
    exact ⟨s, rfl, inOrder_of_meetingStep (run_of_steps (.start ⟨1, 2, false, 10, rfl⟩) hs)⟩
  | error f =>
    rw [hs] at hok
    cases hok

/-- A connection waits for its slot. -/
def oneWaiting : List Input :=
  [.select [] [] [], .message ⟨1, 2, 5⟩ (.connect 7 80 ⟨1, 2, 5⟩ 9)]

def Fault.of (r : Except Fault State) : Option Fault :=
  match r with
  | .ok _ => none
  | .error f => some f

/-- Its number has not been given to the program, which deletes it all the same. -/
theorem not_inOrder_oneWaiting : ¬ ∀ s tr, Run Initial (fun s i s' => step s i = .ok s') s tr →
    InOrder s.node ∧ ∀ i f, step s i = .error f → ¬ f.bad := by
  intro h
  have hfault : Fault.of (do
      let s ← steps (fun _ _ => True) (.initial 1 2 false 10) oneWaiting
      step s (.message ⟨1, 2, 5⟩ (.deleteConnection ⟨⟨1, 2, 1⟩, 3⟩))) =
        some (.invalidEvent .waiting .finread) := by decide +kernel
  have hok : (steps (fun _ _ => True) (.initial 1 2 false 10) oneWaiting).isOk = true := by
    decide +kernel
  cases hs : steps (fun _ _ => True) (.initial 1 2 false 10) oneWaiting with
  | error f =>
    rw [hs] at hok
    cases hok
  | ok s =>
    have hstart : Initial (.initial 1 2 false 10) := ⟨1, 2, false, 10, rfl⟩
    have hrun := (run_of_steps (.start hstart) hs).mono (fun _ h => h) fun _ _ _ h => h.2
    rw [hs, ok_bind] at hfault
    cases hstep : step s (.message ⟨1, 2, 5⟩ (.deleteConnection ⟨⟨1, 2, 1⟩, 3⟩)) with
    | ok s' =>
      rw [hstep] at hfault
      cases hfault
    | error f =>
      rw [hstep] at hfault
      cases hfault
      exact (h s _ hrun).2 _ _ hstep trivial

end Io
end Network
end NReduce
