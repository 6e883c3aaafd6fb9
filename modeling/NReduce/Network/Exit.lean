import NReduce.Network.BooksRun

/-!
# NReduce.Network.Exit

What an endpoint owns after its exit has been handled.

* `Released`: nothing. It stays so as long as no message brings the endpoint in again.
* `Leaving`: what it may still own while `node_handle_endpoint_exit` goes through the two lists.

The connections that wait for a slot are on neither list.
-/

namespace NReduce
namespace Network
namespace Io

open Logic

variable {s s' : State} {T : List Nat} {S : List Endpointid} {n n' : Node} {c : Nat} {x : Conn}
  {e : Endpointid}

/-- No connection and no listener belongs to the endpoint. -/
structure Released (n : Node) (e : Endpointid) : Prop where
  conn : ∀ c x, n.conn c = some x → x.owner ≠ e
  listener : ∀ l ∈ n.listeners, l.owner ≠ e

/-- An endpoint of this node has been started. -/
structure Known (n : Node) (e : Endpointid) : Prop where
  localid : e.localid ≠ 0
  started : e.ip = n.listenip → e.port = n.listenport → e.localid < n.nextlocalid

/-- What happens without the endpoint -/
def Apart (e : Endpointid) : Node → Node → Prop := Noted fun _ owner => owner ≠ e

theorem Known.effect (h : Known n e) (heffect : Effect T S n n') : Known n' e where
  localid := h.localid
  started hip hport := UInt32.lt_of_lt_of_le
    (h.started (hip.trans heffect.listenip) (hport.trans heffect.listenport)) heffect.nextlocalid

theorem Known.not_given (h : Known n e) (hS : e ∉ S) : ¬ Given S n n' e := by
  rintro (hnull | hmem | ⟨hip, hport, hle, -⟩)
  · exact h.localid hnull
  · exact hS hmem
  · exact absurd (h.started hip hport) (UInt32.not_lt.mpr hle)

theorem Effect.owned (h : Effect T S n n') (hknown : Known n e) (hS : e ∉ S) {y : Conn}
    (hy : n'.conn c = some y) (howner : y.owner = e) : ∃ x, n.conn c = some x ∧ x.owner = e := by
  obtain hgiven | ⟨x, hx, hxy⟩ := h.owner c y hy
  · exact absurd (howner ▸ hgiven) (hknown.not_given hS)
  · exact ⟨x, hx, hxy.trans howner⟩

theorem Released.effect (h : Released n e) (hknown : Known n e) (hS : e ∉ S)
    (heffect : Effect T S n n') : Released n' e ∧ Apart e n n' := by
  refine ⟨⟨fun c y hy howner => ?_, fun l hl howner => ?_⟩,
    heffect.attempts.mono fun c owner hatt howner => ?_⟩
  · obtain ⟨x, hx, hxe⟩ := heffect.owned hknown hS hy howner
    exact h.conn c x hx hxe
  · obtain hmem | ⟨l', hl', hll'⟩ := heffect.listeners l hl
    · exact hS (howner ▸ hmem)
    · exact h.listener l' hl' (hll'.trans howner)
  · obtain hgiven | ⟨x, hx, hxe⟩ := hatt
    · exact hknown.not_given hS (howner ▸ hgiven)
    · exact h.conn c x hx (hxe.trans howner)

/-- Any step -/
def Step (s : State) (i : Input) (s' : State) : Prop := step s i = .ok s'

theorem Sound.follows (h : Sound s) {i : Input} (hstep : Step s i s') :
    Follows (i.owners ++ s.node.listeners.map (·.owner)) s s' := by
  refine (step_follows h ?_).ok_of hstep
  by_contra hnot
  obtain ⟨st, hst⟩ := step_invalid hnot
  rw [Step, hst] at hstep
  cases hstep

theorem Run.step_sound {tr : List Input} (h : Run Initial Step s tr) : Sound s :=
  h.invariant (I := fun s _ => Sound s) (fun _ => Initial.sound) fun _ _ _ _ _ hsound hstep =>
    (hsound.follows hstep).sound

/-- Nothing comes back. -/
theorem released_run {s₂ : State} (hsound : Sound s) (hknown : Known s.node e)
    (h : Released s.node e) {tr : List Input} (hrun : Run (· = s) Step s₂ tr)
    (hquiet : ∀ i ∈ tr, e ∉ i.owners) : Released s₂.node e ∧ Apart e s.node s₂.node := by
  have hall := hrun.invariant (I := fun s₂ tr => (∀ i ∈ tr, e ∉ i.owners) →
      Sound s₂ ∧ Known s₂.node e ∧ Released s₂.node e ∧ Apart e s.node s₂.node) ?_ ?_
  · exact (hall hquiet).2.2
  · rintro _ rfl -
    exact ⟨hsound, hknown, h, .refl rfl⟩
  · intro m tr i m' _ ih hstep hquiet
    obtain ⟨hm, hknownm, hreleased, hapart⟩ := ih fun i hi => hquiet i (List.mem_append_left _ hi)
    obtain ⟨hsound', T, hT⟩ := hm.follows hstep
    have hS : e ∉ i.owners ++ m.node.listeners.map (·.owner) := by
      intro hmem
      obtain hmem | hmem := List.mem_append.mp hmem
      · exact hquiet i (by simp) hmem
      · obtain ⟨l, hl, howner⟩ := List.mem_map.mp hmem
        exact hreleased.listener l hl howner
    obtain ⟨hreleased', hapart'⟩ := hreleased.effect hknownm hS hT
    exact ⟨hsound', hknownm.effect hT, hreleased',
      hapart.trans hapart' (fun _ _ => id) fun _ _ => id⟩

/-! ## node_handle_endpoint_exit -/

/-- The thread handles the exit of the endpoint, or it has done so. -/
def Pc.handles (e : Endpointid) : Pc → Prop
  | .exiting e' _ | .exitingListeners e' _ | .removing _ _ (.exiting e' _) => e' = e
  | .messages => True
  | _ => False

/-- The connections that wait for a slot are left alone. -/
def WaitingStay (n n' : Node) : Prop := ∀ c x, n.conn c = some x → x.state = .waiting →
  ∃ y, n'.conn c = some y ∧ y.state = .waiting ∧ y.owner = x.owner

theorem WaitingStay.refl (n : Node) : WaitingStay n n := fun _ x hx hw => ⟨x, hx, hw, rfl⟩

theorem WaitingStay.trans {m : Node} (h : WaitingStay n m) (h' : WaitingStay m n') :
    WaitingStay n n' := by
  intro c x hx hw
  obtain ⟨y, hy, hwy, howner⟩ := h c x hx hw
  obtain ⟨z, hz, hwz, howner'⟩ := h' c y hy hwy
  exact ⟨z, hz, hwz, howner'.trans howner⟩

def keys (n : Node) : List Nat := n.listeners.map (·.key)

/-- What the endpoint still owns -/
def Leaving (e : Endpointid) (n : Node) : Pc → Prop
  | .exiting _ cursor => ∀ c x, n.conn c = some x → x.owner = e → c ∈ rest n cursor
  | .exitingListeners _ cursor => (∀ c x, n.conn c = some x → x.owner ≠ e) ∧
    ∃ pre post, keys n = pre ++ post ∧ cursor = post.head? ∧
      ∀ l ∈ n.listeners, l.owner = e → l.key ∈ post
  | .removing key _ (.exiting _ next) => (∀ c x, n.conn c = some x → x.owner ≠ e) ∧
    ∃ pre post, keys n = pre ++ key :: post ∧ next = post.head? ∧
      ∀ l ∈ n.listeners, l.owner = e → l.key ∈ key :: post
  | _ => Released n e

theorem Leaving.results (results : List Attempt) (pc : Pc) (h : Leaving e n pc) :
    Leaving e { n with results := results } pc := by
  cases pc with
  | removing key cursor ret => cases ret <;> first | exact h | exact ⟨h.conn, h.listener⟩
  | exiting e' cursor => exact h
  | exitingListeners e' cursor => exact h
  | _ => exact ⟨h.conn, h.listener⟩

/-- One step of the way through the lists -/
structure Passes (e : Endpointid) (s s' : State) : Prop where
  handles : s'.pc.handles e
  waiting : WaitingStay s.node s'.node
  leaving : Leaving e s.node s.pc → Leaving e s'.node s'.pc

theorem isOwner_self (h : e.localid ≠ 0) : isOwner e e = true := by simp [isOwner, h]

theorem Cleared.waitingStay (h : Cleared c n n') (hinv : Inv [] n) (hmem : c ∈ n.connections) :
    WaitingStay n n' := by
  intro d x hx hw
  have hne : d ≠ c := by
    rintro rfl
    obtain ⟨y, hy, hnot⟩ := (hinv.books.mem d).mp hmem
    rw [hx] at hy
    cases hy
    exact hnot hw
  have hold := (h.turned hinv).effect.old d (hinv.books.lt_next hx) (by simpa using hne)
  obtain ⟨y, hy, hcore⟩ := hold.some hx
  exact ⟨y, hy, (Conn.core_state hcore).trans hw, Conn.core_owner hcore⟩

theorem exiting_passes (h : Sound s) (hknown : Known s.node e) {cursor : Option Nat}
    (hpc : s.pc = .exiting e cursor) (result : Result) :
    Safe Fault.bad (Passes e s) (advance s result) := by
  unfold advance
  simp only [hpc]
  cases cursor with
  | none =>
    refine ⟨rfl, .refl _, fun hleaving => ?_⟩
    rw [hpc] at hleaving
    refine ⟨fun c x hx howner => ?_, [], keys s.node, rfl, rfl, fun l hl _ => List.mem_map_of_mem hl⟩
    exact absurd (hleaving c x hx howner) List.not_mem_nil
  | some c =>
    have hmem := h.cursor c (by rw [hpc]; rfl)
    refine (turn_spec h.inv hmem (.exiting e) _
      (R := fun n' => Cleared c s.node n' ∧ ∀ x, s.node.conn c = some x → x.owner = e →
        n'.conn c = none) (fun x hx => ?_) fun n' h' => h'.1.turned h.inv).mono ?_
    · split
      · exact (fsm_delete h.inv hx).mono fun n' hended => ⟨.inr hended, fun _ _ _ => hended.conn⟩
      · next hnot =>
        refine ⟨.inl rfl, fun y hy howner => absurd ?_ hnot⟩
        rw [hx] at hy
        cases hy
        rw [howner]
        exact isOwner_self hknown.localid
    · rintro _ ⟨n', d, rfl, ⟨hcleared, hgone⟩, honward⟩
      refine ⟨rfl, hcleared.waitingStay h.inv hmem, fun hleaving b y hy howner => ?_⟩
      rw [hpc] at hleaving
      have hturned := hcleared.turned h.inv
      obtain ⟨x, hx, hxe⟩ := hturned.effect.owned hknown List.not_mem_nil hy howner
      have hrest := hleaving b x hx hxe
      have hlt := h.inv.books.lt_next hx
      have hbc : b ≠ c := by
        rintro rfl
        rw [hgone x hx hxe] at hy
        cases hy
      obtain ⟨z, hz, hcore⟩ := (hturned.effect.old b hlt (by simpa using hbc)).some hx
      rw [hy] at hz
      cases hz
      have hlist : b ∈ s.node.connections := (List.dropWhile_sublist _).subset hrest
      obtain ⟨w, hw, hnot⟩ := (h.inv.books.mem b).mp hlist
      rw [hx] at hw
      cases hw
      have hmem' := (hturned.inv.books.mem b).mpr ⟨y, hy, Conn.core_state hcore ▸ hnot⟩
      exact (honward.left b hmem' hlt hrest).resolve_left hbc

theorem exitingListeners_passes (h : Sound s) (hknown : Known s.node e) {cursor : Option Nat}
    (hpc : s.pc = .exitingListeners e cursor) (result : Result) :
    Safe Fault.bad (Passes e s) (advance s result) := by
  unfold advance
  simp only [hpc]
  cases cursor with
  | none =>
    refine ⟨trivial, .refl _, fun hleaving => ?_⟩
    rw [hpc] at hleaving
    obtain ⟨hconn, pre, post, -, hhead, hl⟩ := hleaving
    rw [List.head?_eq_none_iff.mp hhead.symm] at hl
    exact ⟨hconn, fun l hmem howner => absurd (hl l hmem howner) List.not_mem_nil⟩
  | some key =>
    refine Safe.bind (listenerAt_safe s.node key) fun l hl => ?_
    obtain ⟨hl, hkey⟩ := hl
    have hsplit : ∀ {pre post : List Nat}, keys s.node = pre ++ post → some key = post.head? →
        ∃ post', post = key :: post' ∧ nextListener s.node key = post'.head? := by
      intro pre post hkeys hhead
      obtain ⟨post', rfl⟩ := List.head?_eq_some_iff.mp hhead.symm
      have hnodup := h.keyed.nodup
      rw [show s.node.listeners.map (·.key) = _ from hkeys] at hnodup
      have hpre : key ∉ pre := fun hmem =>
        (List.nodup_append.mp hnodup).2.2 key hmem key List.mem_cons_self rfl
      refine ⟨post', rfl, ?_⟩
      rw [nextListener, show s.node.listeners.map (·.key) = _ from hkeys, dropWhile_ne hpre,
        List.tail_cons]
    split
    · refine ⟨rfl, .refl _, fun hleaving => ?_⟩
      rw [hpc] at hleaving
      obtain ⟨hconn, pre, post, hkeys, hhead, howns⟩ := hleaving
      obtain ⟨post', rfl, hnext⟩ := hsplit hkeys hhead
      exact ⟨hconn, pre, post', hkeys, hnext, howns⟩
    · next hnot =>
      refine ⟨rfl, .refl _, fun hleaving => ?_⟩
      rw [hpc] at hleaving
      obtain ⟨hconn, pre, post, hkeys, hhead, howns⟩ := hleaving
      obtain ⟨post', rfl, hnext⟩ := hsplit hkeys hhead
      refine ⟨hconn, pre ++ [key], post', by rw [hkeys]; simp, hnext, fun l' hl' howner => ?_⟩
      refine (List.mem_cons.mp (howns l' hl' howner)).resolve_left fun hkey' => hnot ?_
      have heq : l' = l := List.inj_on_of_nodup_map h.keyed.nodup hl' hl (hkey'.trans hkey.symm)
      rw [← heq, howner]
      exact isOwner_self hknown.localid

theorem removing_passes (h : Sound s) (hknown : Known s.node e) {key : Nat}
    {cursor next : Option Nat} (hpc : s.pc = .removing key cursor (.exiting e next))
    (result : Result) : Safe Fault.bad (Passes e s) (advance s result) := by
  unfold advance
  simp only [hpc]
  cases cursor with
  | none =>
    refine Safe.bind (listenerAt_safe s.node key) fun l _ => ?_
    refine ⟨rfl, .refl _, fun hleaving => ?_⟩
    rw [hpc] at hleaving
    obtain ⟨hconn, pre, post, hkeys, hhead, howns⟩ := hleaving
    have hnodup := h.keyed.nodup
    rw [show s.node.listeners.map (·.key) = _ from hkeys] at hnodup
    refine ⟨hconn, pre, post, ?_, hhead, fun l hl howner => ?_⟩
    · have hfilter : ∀ k ∈ pre ++ post, k ≠ key := fun k hk he => by
        rw [List.nodup_middle] at hnodup
        exact (List.nodup_cons.mp hnodup).1 (he ▸ hk)
      have hkeys' : keys { s.node with listeners := s.node.listeners.filter fun l => l.key ≠ key } =
          (keys s.node).filter fun k => k ≠ key := by
        rw [keys, keys, List.filter_map]
        rfl
      rw [hkeys', hkeys, List.filter_append, List.filter_cons_of_neg (by simp), ← List.filter_append]
      exact List.filter_eq_self.mpr fun k hk => by simpa using hfilter k hk
    · obtain ⟨hl, hne⟩ := List.mem_filter.mp hl
      exact (List.mem_cons.mp (howns l hl howner)).resolve_left (by simpa using hne)
  | some c =>
    have hmem := h.cursor c (by rw [hpc]; rfl)
    refine (turn_spec h.inv hmem (.removing key · (.exiting e next)) _ (R := Cleared c s.node)
      (fun x hx => clear_spec h.inv hx _) fun n' h' => h'.turned h.inv).mono ?_
    rintro _ ⟨n', d, rfl, hcleared, -⟩
    refine ⟨rfl, hcleared.waitingStay h.inv hmem, fun hleaving => ?_⟩
    rw [hpc] at hleaving
    obtain ⟨hconn, pre, post, hkeys, hhead, howns⟩ := hleaving
    have hlisteners : n'.listeners = s.node.listeners := by
      obtain rfl | hended := hcleared
      · rfl
      · exact hended.around.listeners
    refine ⟨fun b y hy howner => ?_, pre, post, by rw [keys, hlisteners]; exact hkeys, hhead,
      hlisteners ▸ howns⟩
    obtain ⟨x, hx, hxe⟩ := (hcleared.turned h.inv).effect.owned hknown List.not_mem_nil hy howner
    exact hconn b x hx hxe

/-- A step before the handler returns -/
def Handling (s : State) (i : Input) (s' : State) : Prop := s.pc ≠ .messages ∧ Step s i s'

theorem Handling.passes (h : Sound s) (hknown : Known s.node e) (hhandles : s.pc.handles e)
    {i : Input} (hstep : Handling s i s') : Passes e s s' := by
  obtain ⟨hne, hstep⟩ := hstep
  have hfree : s.pc.free = false ∧ s.pc ≠ .select := by
    cases hpc : s.pc <;> rw [hpc] at hhandles <;> first | exact hhandles.elim | exact ⟨rfl, nofun⟩
  cases i with
  | results results =>
    cases hstep
    exact ⟨hhandles, .refl _, .results results s.pc⟩
  | next result =>
    cases hpc : s.pc with
    | exiting e' cursor =>
      rw [hpc] at hhandles
      cases hhandles
      exact (exiting_passes h hknown hpc result).ok_of hstep
    | exitingListeners e' cursor =>
      rw [hpc] at hhandles
      cases hhandles
      exact (exitingListeners_passes h hknown hpc result).ok_of hstep
    | removing key cursor ret =>
      rw [hpc] at hhandles
      cases ret with
      | exiting e' next =>
        cases hhandles
        exact (removing_passes h hknown hpc result).ok_of hstep
      | _ => exact hhandles.elim
    | messages => exact absurd hpc hne
    | _ =>
      rw [hpc] at hhandles
      exact hhandles.elim
  | _ =>
    unfold Step step at hstep
    simp [hfree, hne] at hstep

/-- The handler goes through both lists. What it leaves to the endpoint are the connections that
wait. -/
theorem handling_run {s₁ s₂ : State} (hsound : Sound s₁) (hknown : Known s₁.node e)
    (hhandles : s₁.pc.handles e) {tr : List Input} (hrun : Run (· = s₁) Handling s₂ tr) :
    Sound s₂ ∧ Known s₂.node e ∧ Passes e s₁ s₂ := by
  refine hrun.invariant (I := fun s₂ _ => Sound s₂ ∧ Known s₂.node e ∧ Passes e s₁ s₂) ?_ ?_
  · rintro _ rfl
    exact ⟨hsound, hknown, hhandles, .refl _, id⟩
  · rintro m _ i m' - ⟨hm, hknownm, hpasses⟩ hstep
    obtain ⟨hsound', T, hT⟩ := hm.follows hstep.2
    have hpasses' := hstep.passes hm hknownm hpasses.handles
    exact ⟨hsound', hknownm.effect hT, hpasses'.handles, hpasses.waiting.trans hpasses'.waiting,
      hpasses'.leaving ∘ hpasses.leaving⟩

/-- When the handler has returned, the endpoint owns nothing and gets nothing any more, exactly if
none of its connections waited for a slot. The endpoint has been started before, and it sends
nothing after its end. -/
theorem released_iff_none_waiting {tr tr₁ : List Input} {source : Endpointid} {s₁ s₂ : State}
    (hrun : Run Initial Step s tr) (hknown : Known s.node e)
    (hexit : Step s (.message source (.endpointExit e)) s₁)
    (hhandler : Run (· = s₁) Handling s₂ tr₁) (hdone : s₂.pc = .messages) :
    (∀ s₃ tr₂, Run (· = s₂) Step s₃ tr₂ → (∀ i ∈ tr₂, e ∉ i.owners) →
      Released s₃.node e ∧ Apart e s₂.node s₃.node) ↔
    ∀ c x, s.node.conn c = some x → x.owner = e → x.state ≠ .waiting := by
  have hsound := Run.step_sound hrun
  have hs₁ : s₁ = { s with pc := .exiting e s.node.connections.head? } := by
    unfold Step step at hexit
    dsimp only at hexit
    split at hexit
    · cases hexit
      rfl
    · cases hexit
  subst hs₁
  have hsound₁ := (hsound.follows hexit).sound
  obtain ⟨hsound₂, hknown₂, hpasses⟩ := handling_run hsound₁ hknown rfl hhandler
  constructor
  · intro hreleased c x hx howner hwaiting
    obtain ⟨y, hy, -, hownery⟩ := hpasses.waiting c x hx hwaiting
    have := (hreleased s₂ [] (.start rfl) (fun _ hi => absurd hi List.not_mem_nil)).1
    exact this.conn c y hy (hownery.trans howner)
  · intro hnone s₃ tr₂ hrun₂ hquiet
    have hleaving : Leaving e s.node (.exiting e s.node.connections.head?) := by
      intro c x hx howner
      rw [rest_head?]
      exact (hsound.inv.books.mem c).mpr ⟨x, hx, hnone c x hx howner⟩
    have hreleased := hpasses.leaving hleaving
    rw [hdone] at hreleased
    exact released_run hsound₂ hknown₂ hreleased hrun₂ hquiet

/-! ### Two exits -/

/-- The states before the exit of the endpoint and after its handling -/
def exitAfter (before handler : List Input) (e : Endpointid) : Except Fault (State × State) := do
  let s ← steps (fun _ _ => True) (.initial 1 2 false 10) before
  let s₁ ← step s (.message e (.endpointExit e))
  let s₂ ← steps (fun s _ => s.pc ≠ .messages) s₁ handler
  pure (s, s₂)

theorem exitAfter_run (before handler : List Input) (e : Endpointid) (q : State → State → Bool)
    (h : (exitAfter before handler e).toOption.any (fun r => q r.1 r.2) = true) :
    ∃ s s₁ s₂, Run Initial Step s before ∧ Step s (.message e (.endpointExit e)) s₁ ∧
      Run (· = s₁) Handling s₂ handler ∧ q s s₂ = true := by
  unfold exitAfter at h
  cases hs : steps (fun _ _ => True) (.initial 1 2 false 10) before with
  | error f =>
    rw [hs] at h
    cases h
  | ok s =>
    rw [hs, ok_bind] at h
    cases hs₁ : step s (.message e (.endpointExit e)) with
    | error f =>
      rw [hs₁] at h
      cases h
    | ok s₁ =>
      rw [hs₁, ok_bind] at h
      cases hs₂ : steps (fun s _ => s.pc ≠ .messages) s₁ handler with
      | error f =>
        rw [hs₂] at h
        cases h
      | ok s₂ =>
        rw [hs₂, ok_bind] at h
        have hstart : Initial (.initial 1 2 false 10) := ⟨1, 2, false, 10, rfl⟩
        have hstart₁ : Run (· = s₁) (fun s i s' => s.pc ≠ .messages ∧ step s i = .ok s') s₁ [] :=
          .start rfl
        refine ⟨s, s₁, s₂, ?_, hs₁, run_of_steps hstart₁ hs₂, h⟩
        exact (run_of_steps (.start hstart) hs).mono (fun _ h => h) fun _ _ _ h => h.2

/-- An endpoint with a pair of connections and a listener -/
def ownsThree : List Input :=
  [.threads [⟨1, []⟩, ⟨5, []⟩] 6, .select [] [] [],
    .message ⟨1, 2, 5⟩ (.connpair 9 (some (3, 4))), .message ⟨1, 2, 5⟩ (.listen ⟨1, 2, 5⟩ 9 true)]

/-- The endpoint is known, its exit has been handled, and none of its two connections waits. -/
def leavesNothing (s s₂ : State) : Bool :=
  s.node.next = 2 && s.node.nextlocalid = 6 && s.node.listeners.length = 2 &&
    (List.range 2).all (fun c => (s.node.conn c).all fun x => x.state ≠ .waiting) &&
    s₂.pc = .messages

theorem released_ownsThree : ∃ s s₂, Run Initial Step s ownsThree ∧
    s.node.next = 2 ∧ s.node.listeners.length = 2 ∧
    ∀ s₃ tr₂, Run (· = s₂) Step s₃ tr₂ → (∀ i ∈ tr₂, (⟨1, 2, 5⟩ : Endpointid) ∉ i.owners) →
      Released s₃.node ⟨1, 2, 5⟩ ∧ Apart ⟨1, 2, 5⟩ s₂.node s₃.node := by
  obtain ⟨s, s₁, s₂, hrun, hexit, hhandler, hq⟩ :=
    exitAfter_run ownsThree (List.replicate 7 (.next .none)) ⟨1, 2, 5⟩ leavesNothing
      (by decide +kernel)
  simp only [leavesNothing, Bool.and_eq_true, decide_eq_true_eq, List.all_eq_true,
    List.mem_range] at hq
  obtain ⟨⟨⟨⟨hnext, hlocalid⟩, hlisteners⟩, hwaiting⟩, hdone⟩ := hq
  have hknown : Known s.node ⟨1, 2, 5⟩ := ⟨by decide, fun _ _ => by rw [hlocalid]; decide⟩
  refine ⟨s, s₂, hrun, hnext, hlisteners,
    (released_iff_none_waiting hrun hknown hexit hhandler hdone).mpr fun c x hx _ => ?_⟩
  have hlt : c < 2 := hnext ▸ (Run.step_sound hrun).inv.books.lt_next hx
  have hnot := hwaiting c hlt
  rw [hx] at hnot
  simpa using hnot

/-- A connection waits for its slot. -/
def ownsWaiting : List Input :=
  [.threads [⟨1, []⟩, ⟨5, []⟩] 6, .select [] [] [],
    .message ⟨1, 2, 5⟩ (.connect 7 80 ⟨1, 2, 5⟩ 9)]

/-- The endpoint is known, its exit has been handled, and its connection still waits. -/
def leavesWaiting (s s₂ : State) : Bool :=
  s.node.nextlocalid = 6 && s₂.pc = .messages &&
    (s₂.node.conn 0).any fun x => x.state = .waiting && x.owner = ⟨1, 2, 5⟩

theorem not_released_ownsWaiting : ¬ ∀ (e : Endpointid) (source : Endpointid) (s s₁ s₂ s₃ : State)
    (tr tr₁ tr₂ : List Input), Run Initial Step s tr → Known s.node e →
    Step s (.message source (.endpointExit e)) s₁ → Run (· = s₁) Handling s₂ tr₁ →
    s₂.pc = .messages → Run (· = s₂) Step s₃ tr₂ → (∀ i ∈ tr₂, e ∉ i.owners) →
    Released s₃.node e ∧ Apart e s₂.node s₃.node := by
  intro h
  obtain ⟨s, s₁, s₂, hrun, hexit, hhandler, hq⟩ :=
    exitAfter_run ownsWaiting (List.replicate 3 (.next .none)) ⟨1, 2, 5⟩ leavesWaiting
      (by decide +kernel)
  simp only [leavesWaiting, Bool.and_eq_true, decide_eq_true_eq, Option.any_eq_true] at hq
  obtain ⟨⟨hlocalid, hdone⟩, x, hx, -, howner⟩ := hq
  have hknown : Known s.node ⟨1, 2, 5⟩ := ⟨by decide, fun _ _ => by rw [hlocalid]; decide⟩
  have hreleased := h _ _ _ _ _ _ _ _ _ hrun hknown hexit hhandler hdone (.start rfl)
    (fun _ hi => absurd hi List.not_mem_nil)
  exact hreleased.1.conn 0 x hx howner

end Io
end Network
end NReduce
