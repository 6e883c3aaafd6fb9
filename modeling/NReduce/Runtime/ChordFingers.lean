import NReduce.Runtime.ChordLookup

/-!
# NReduce.Runtime.ChordFingers

Stabilisation of a ring that nobody joins: the nodes ask for their fingers and set them.

* `Steady`: the states that are reached, with the fingers that have been set on the way.
* `Held`  : what holds of them. A query asks for the place of a finger of its sender, and an answer
  names what the ring answers.
* `fingers_right_iff`: when a finger that has been set is the right one. The place is not taken
  modulo the number of identifiers, so beyond the last one the first node of all is taken.
-/

namespace NReduce
namespace Runtime
namespace Chord

open Logic

variable {E : Type} [DecidableEq E] {s s' s₀ : State E} {e d : E} {c c' : Chord E}
  {R R' : List (E × Nat)}

/-- The finger that is set when a message is handled -/
def refreshes : Option (Packet E) → List (E × Nat)
  | some (e, .gotSuccessor _ _ payload) => [(e, payload)]
  | _ => []

/-- Nobody is joining, and nobody has asked for a finger yet. -/
structure Settled (s : State E) : Prop extends Stable s where
  member : ∀ {e c}, s.node e = some c → e ∈ s.accepted
  quiet : ∀ p ∈ s.msgs, (∃ a, p.2 = .getSucclist a) ∨ ∃ a l, p.2 = .replySucclist a l

/-- The nodes stabilise and handle messages in any order. -/
inductive Steady (s₀ : State E) : State E → List (E × Nat) → Prop
  | start : Settled s₀ → Steady s₀ s₀ []
  | stabilize {s s' : State E} {R : List (E × Nat)} {e : E} {rand : Nat} : Steady s₀ s R →
      step s (.stabilize e rand) = .ok s' → Steady s₀ s' R
  | deliver {s s' : State E} {R : List (E × Nat)} {i rand : Nat} : Steady s₀ s R →
      step s (.deliver i rand) = .ok s' → Steady s₀ s' (refreshes s.msgs[i]? ++ R)

/-- Where finger `k` of a node points to -/
def fingerStart (id k : Nat) : Nat := id + 2 ^ (k - 1)

/-- Queries of the nodes, and answers to them -/
def FingerPacket (s : State E) : Packet E → Prop
  | (d, .findSuccessor id sender _ k) => d ∈ s.accepted ∧ sender ∈ s.accepted ∧ 2 ≤ k ∧ k < mbits ∧
    ∃ x, s.ident sender = some x ∧ id = fingerStart x k
  | (d, .gotSuccessor n _ k) => d ∈ s.accepted ∧ 2 ≤ k ∧ k < mbits ∧
    ∃ x, s.ident d = some x ∧ s.answers (fingerStart x k) n
  | (_, .insert _ _) | (_, .setNext _ _) => False
  | (_, .getSucclist _) | (_, .replySucclist _ _) => True

structure Held (s₀ s : State E) (R : List (E × Nat)) : Prop extends Stable s where
  same : SameRing s₀ s
  member : ∀ {e c}, s.node e = some c → e ∈ s.accepted
  packet : ∀ p ∈ s.msgs, FingerPacket s p
  refreshed : ∀ e k, (e, k) ∈ R → 2 ≤ k ∧ k < mbits ∧
    ∃ c, s.node e = some c ∧ s.answers (fingerStart c.id k) (c.fingers k)

omit [DecidableEq E] in
theorem Settled.held (h : Settled s) : Held s s [] where
  toStable := h.toStable
  same := .refl s
  member := h.member
  packet p hp := by
    obtain ⟨d, m⟩ := p
    obtain ⟨a, ha⟩ | ⟨a, l, ha⟩ := h.quiet _ hp <;> cases ha <;> trivial
  refreshed _ _ hR := absurd hR List.not_mem_nil

omit [DecidableEq E] in
theorem SameRing.packet (h : SameRing s s') {p : Packet E} (hp : FingerPacket s p) :
    FingerPacket s' p := by
  obtain ⟨d, m⟩ := p
  cases m with
  | findSuccessor id sender hops k => rwa [FingerPacket, h.accepted, h.ident]
  | gotSuccessor n hops k =>
    obtain ⟨hd, h2, hk, x, hx, hans⟩ := hp
    exact ⟨h.accepted ▸ hd, h2, hk, x, h.ident ▸ hx, h.answers.mpr hans⟩
  | insert _ _ => exact hp
  | setNext _ _ => exact hp
  | getSucclist _ => trivial
  | replySucclist _ _ => trivial

omit [DecidableEq E] in
theorem SameRing.ring (h : SameRing s s') {l : List E} (hl : Ring s l) : Ring s' l := by
  unfold Ring at hl ⊢
  rwa [h.accepted, h.ident, h.succ]

/-- A node may change all but its place on the ring. -/
theorem sameRing_update {msgs : List (Packet E)} (hc : s.node e = some c) (hid : c'.id = c.id)
    (hsucc : c'.successor = c.successor) :
    SameRing s ⟨Function.update s.node e (some c'), msgs, s.accepted⟩ := by
  refine ⟨rfl, funext fun x => ?_, funext fun x => ?_⟩ <;> by_cases hx : x = e
  · subst hx
    simp [State.ident, hc, hid]
  · simp [State.ident, Function.update_of_ne hx]
  · subst hx
    simp [State.succ, hc, hsucc]
  · simp [State.succ, Function.update_of_ne hx]

theorem Held.update (h : Held s₀ s R) {msgs : List (Packet E)} (hc : s.node e = some c)
    (hid : c'.id = c.id) (hepid : c'.epid = c.epid) (hsucc : c'.successor = c.successor)
    (hfingers : ∀ k, c'.fingers k = c.fingers k ∨
      s.answers (fingerStart c.id k) (c'.fingers k))
    (hmsgs : ∀ p ∈ msgs, FingerPacket s p)
    (hR : ∀ a k, (a, k) ∈ R' → (a, k) ∈ R ∨
      a = e ∧ 2 ≤ k ∧ k < mbits ∧ s.answers (fingerStart c.id k) (c'.fingers k)) :
    Held s₀ ⟨Function.update s.node e (some c'), msgs, s.accepted⟩ R' := by
  have hsame : SameRing s ⟨Function.update s.node e (some c'), msgs, s.accepted⟩ :=
    sameRing_update hc hid hsucc
  refine ⟨⟨fun {a b} hb => ?_, ?_, ?_, fun {a b} ha hb k h2 hk => ?_⟩, h.same.trans hsame,
    fun {a b} hb => ?_, fun p hp => hsame.packet (hmsgs p hp), fun a k hak => ?_⟩
  · obtain ⟨rfl, rfl⟩ | ⟨-, hb⟩ := node_update hb
    · exact hepid.trans (h.epid hc)
    · exact h.epid hb
  · obtain ⟨l, hl⟩ := h.ring
    exact ⟨l, hsame.ring hl⟩
  · rw [hsame.ids]
    exact h.bound
  · rw [hsame.known]
    obtain ⟨rfl, rfl⟩ | ⟨-, hb⟩ := node_update hb
    · obtain heq | hans := hfingers k
      · rw [heq]
        exact h.fingers ha hc k h2 hk
      · exact .inr hans.1
    · exact h.fingers ha hb k h2 hk
  · obtain ⟨rfl, rfl⟩ | ⟨-, hb⟩ := node_update hb
    · exact h.member hc
    · exact h.member hb
  · by_cases hae : a = e
    · subst hae
      have hans : 2 ≤ k ∧ k < mbits ∧ s.answers (fingerStart c.id k) (c'.fingers k) := by
        obtain hold | ⟨-, hnew⟩ := hR a k hak
        · obtain ⟨h2, hk, b, hb, hans⟩ := h.refreshed a k hold
          rw [hc] at hb
          cases hb
          refine ⟨h2, hk, ?_⟩
          obtain heq | hans' := hfingers k
          · rwa [heq]
          · exact hans'
        · exact hnew
      refine ⟨hans.1, hans.2.1, c', Function.update_self .., ?_⟩
      rw [hsame.answers, hid]
      exact hans.2.2
    · obtain hold | ⟨rfl, -⟩ := hR a k hak
      · obtain ⟨h2, hk, b, hb, hans⟩ := h.refreshed a k hold
        refine ⟨h2, hk, b, ?_, hsame.answers.mpr hans⟩
        exact (Function.update_of_ne hae ..).trans hb
      · exact absurd rfl hae

/-- A node that leaves itself as it is -/
theorem Held.reply (h : Held s₀ s R) {msgs : List (Packet E)} (hc : s.node e = some c)
    (hmsgs : ∀ p ∈ msgs, FingerPacket s p) :
    Held s₀ ⟨Function.update s.node e (some c), msgs, s.accepted⟩ R :=
  h.update hc rfl rfl rfl (fun _ => .inl rfl) hmsgs fun _ _ => .inl

omit [DecidableEq E] in
theorem Ring.distinct {l : List E} (h : Ring s l) {a b : E} {x : Nat} (ha : a ∈ s.accepted)
    (hb : b ∈ s.accepted) (hxa : s.ident a = some x) (hxb : s.ident b = some x) : a = b := by
  obtain ⟨hmem, hsorted, -⟩ := h
  obtain ⟨i, hi, rfl⟩ := List.mem_iff_getElem.mp ((hmem a).mpr ha)
  obtain ⟨j, hj, rfl⟩ := List.mem_iff_getElem.mp ((hmem b).mpr hb)
  have hnot : ∀ {i j : Nat} (hi : i < l.length) (hj : j < l.length), s.ident l[i] = some x →
      s.ident l[j] = some x → ¬ i < j := by
    intro i j hi hj hxi hxj hij
    obtain ⟨p, q, hp, hq, hlt⟩ := List.pairwise_iff_getElem.mp hsorted i j hi hj hij
    rw [hxi] at hp
    rw [hxj] at hq
    cases hp
    cases hq
    exact Nat.lt_irrefl _ hlt
  have hij := hnot hi hj hxa hxb
  have hji := hnot hj hi hxb hxa
  obtain rfl : i = j := by omega
  rfl

/-! ## The steps -/

/-- The assertion holds, and the node sets the finger to what the ring answers. -/
theorem Held.got (h : Held s₀ s R) (hc : s.node e = some c) {i hops k : Nat} {n : Chordnode E}
    (hi : s.msgs[i]? = some (e, .gotSuccessor n hops k)) :
    ∃ s', finish s e (s.msgs.eraseIdx i) [] (chordGotSuccessor c n k) = .ok s' ∧
      Held s₀ s' ((e, k) :: R) := by
  obtain ⟨he, h2, hk, x, hx, hans⟩ := h.packet _ (List.mem_of_getElem? hi)
  rw [ident_of_node hc] at hx
  cases hx
  have hassert : 1 < k ∧ n.isnull = false ∧ (n.id ≠ c.id ∨ n.epid = some c.epid) := by
    refine ⟨h2, hans.1.not_null, ?_⟩
    by_cases hid : n.id = c.id
    · obtain ⟨z, hz, hacc, hzid⟩ := hans.1
      obtain ⟨l, hl⟩ := h.ring
      obtain rfl := hl.distinct he hacc (ident_of_node hc) (hid ▸ hzid)
      exact .inr (hz.trans (congrArg some (h.epid hc).symm))
    · exact .inl hid
  rw [chordGotSuccessor, if_pos hassert]
  refine ⟨_, rfl, ?_⟩
  have hne : ∀ j, j ≠ k → (c.setFinger k n).fingers j = c.fingers j := fun j hj =>
    Function.update_of_ne hj ..
  have hself : (c.setFinger k n).fingers k = n := Function.update_self ..
  refine h.update hc rfl rfl (hne 1 (by omega)) (fun j => ?_) (fun p hp => ?_) (fun a j haj => ?_)
  · by_cases hj : j = k
    · subst hj
      rw [hself]
      exact .inr hans
    · exact .inl (hne j hj)
  · rw [List.append_nil] at hp
    exact h.packet p (List.mem_of_mem_eraseIdx hp)
  · obtain heq | hold := List.mem_cons.mp haj
    · cases heq
      rw [hself]
      exact .inr ⟨rfl, h2, hk, hans⟩
    · exact .inl hold

omit [DecidableEq E] in
theorem Held.sent (h : Held s₀ s R) {i : Nat} {sent : List (Packet E)}
    (hsent : ∀ p ∈ sent, FingerPacket s p) : ∀ p ∈ s.msgs.eraseIdx i ++ sent, FingerPacket s p := by
  intro p hp
  obtain hp | hp := List.mem_append.mp hp
  · exact h.packet p (List.mem_of_mem_eraseIdx hp)
  · exact hsent p hp

theorem Held.find (h : Held s₀ s R) (hc : s.node e = some c) {i id hops k : Nat} {sender : E}
    (hi : s.msgs[i]? = some (e, .findSuccessor id sender hops k)) :
    ∃ s', finish s e (s.msgs.eraseIdx i) [] (chordFindSuccessor c id sender hops k) = .ok s' ∧
      Held s₀ s' R := by
  obtain ⟨he, hsender, h2, hk, x, hx, rfl⟩ := h.packet _ (List.mem_of_getElem? hi)
  obtain ⟨c', hc', -, ⟨hans, hfind⟩ | ⟨d, y, hd, -, -, hfind⟩⟩ :=
    h.toStable.find he (fingerStart x k) sender hops k <;> rw [hc] at hc' <;> cases hc'
  · rw [hfind]
    refine ⟨_, rfl, h.reply hc (h.sent fun p hp => ?_)⟩
    obtain rfl := List.mem_singleton.mp hp
    rw [answerPacket, if_neg (by omega)]
    exact ⟨hsender, h2, hk, x, hx, hans⟩
  · rw [hfind]
    refine ⟨_, rfl, h.reply hc (h.sent fun p hp => ?_)⟩
    obtain rfl := List.mem_singleton.mp hp
    exact ⟨hd, hsender, h2, hk, x, hx, rfl⟩

/-- No assertion fails. -/
theorem Held.deliver (h : Held s₀ s R) (i rand : Nat) :
    ∃ s', step s (.deliver i rand) = .ok s' ∧ Held s₀ s' (refreshes s.msgs[i]? ++ R) := by
  cases hi : s.msgs[i]? with
  | none => exact ⟨s, by simp only [step, hi], h⟩
  | some p =>
    obtain ⟨e, m⟩ := p
    have hpacket := h.packet _ (List.mem_of_getElem? hi)
    cases hc : s.node e with
    | none =>
      refine ⟨_, by simp only [step, hi, hc]; rfl, ?_⟩
      have hR : refreshes (some (e, m)) = [] := by
        cases m with
        | gotSuccessor n hops k =>
          obtain ⟨c, hc', -⟩ := h.next hpacket.1
          rw [hc] at hc'
          cases hc'
        | _ => rfl
      rw [hR]
      exact { h with
        same := h.same.trans ⟨rfl, rfl, rfl⟩
        packet := fun p hp => h.packet p (List.mem_of_mem_eraseIdx hp) }
    | some c =>
      have hstep : step s (.deliver i rand) =
          finish s e (s.msgs.eraseIdx i) (newlyAccepted c m) (handle c rand m) := by
        simp only [step, hi, hc]
      rw [hstep]
      cases m with
      | findSuccessor id sender hops k => exact h.find hc hi
      | gotSuccessor n hops k => exact h.got hc hi
      | insert _ _ => exact hpacket.elim
      | setNext _ _ => exact hpacket.elim
      | getSucclist sender =>
        refine ⟨_, rfl, h.reply hc (h.sent fun p hp => ?_)⟩
        obtain rfl := List.mem_singleton.mp hp
        trivial
      | replySucclist sender successors =>
        have hnil : ∀ p ∈ ([] : List (Packet E)), FingerPacket s p := fun p hp =>
          absurd hp List.not_mem_nil
        simp only [handle, chordReplySucclist]
        split
        · exact ⟨_, rfl, h.update hc rfl rfl rfl (fun _ => .inl rfl) (h.sent hnil)
            fun _ _ => .inl⟩
        · exact ⟨_, rfl, h.reply hc (h.sent hnil)⟩

theorem Held.stabilize (h : Held s₀ s R) (e : E) (rand : Nat) :
    ∃ s', step s (.stabilize e rand) = .ok s' ∧ Held s₀ s' R := by
  unfold step
  dsimp only
  cases hc : s.node e with
  | none => exact ⟨s, rfl, h⟩
  | some c =>
    have he := h.member hc
    obtain ⟨c', hc', ⟨z, hz, hzacc, -⟩, -⟩ := h.next he
    rw [hc] at hc'
    cases hc'
    dsimp only
    rw [chordStabilize, hz]
    refine ⟨_, rfl, h.reply hc fun p hp => ?_⟩
    obtain hp | hp := List.mem_append.mp hp
    · exact h.packet p hp
    · obtain rfl | rfl : p = _ ∨ p = _ := by simpa using hp
      · trivial
      · have hlt : rand % (mbits - 2) < mbits - 2 := Nat.mod_lt _ (by decide)
        have hk : 2 + rand % (mbits - 2) < mbits := by omega
        rw [h.epid hc]
        refine ⟨he, he, by omega, hk, c.id, ident_of_node hc, ?_⟩
        rw [fingerStart, show 2 + rand % (mbits - 2) - 1 = 1 + rand % (mbits - 2) by omega]

theorem Steady.held (h : Steady s₀ s R) : Held s₀ s R := by
  induction h with
  | start h => exact h.held
  | @stabilize s s' R e rand _ hstep ih =>
    obtain ⟨t, ht, hheld⟩ := ih.stabilize e rand
    rw [ht] at hstep
    cases hstep
    exact hheld
  | @deliver s s' R i rand _ hstep ih =>
    obtain ⟨t, ht, hheld⟩ := ih.deliver i rand
    rw [ht] at hstep
    cases hstep
    exact hheld

/-! ## Right fingers -/

/-- The node at the place where finger `k` of a node points to, by the definition of Chord -/
def RightFinger (s : State E) (c : Chord E) (k : Nat) : Prop :=
  Known s (c.fingers k) ∧
    Circle.First keyspace s.ids (fingerStart c.id k % keyspace) (c.fingers k).id

/-- A finger that has been set is the right one exactly if it points to an identifier below
`KEYSPACE`, or no identifier of the ring is in front of the place beyond it. The last finger is
never set. -/
theorem fingers_right_iff (h : Steady s₀ s R) :
    (∀ e k, (e, k) ∈ R → k < mbits ∧ ∃ c, s.node e = some c ∧ (RightFinger s c k ↔
      fingerStart c.id k < keyspace ∨ ∀ x, s₀.ids x → fingerStart c.id k - keyspace ≤ x)) := by
  intro e k hek
  have hheld := h.held
  obtain ⟨h2, hk, c, hc, hknown, hfirst⟩ := hheld.refreshed e k hek
  refine ⟨hk, c, hc, ?_⟩
  have he := ids_of_node (hheld.member hc) hc
  have hcid : c.id < keyspace := hheld.bound _ he
  have hpow : 2 ^ (k - 1) < keyspace := Nat.pow_lt_pow_right (by decide) (by omega)
  rw [← hheld.same.ids]
  split at hfirst
  · next hlt =>
    refine ⟨fun _ => .inl hlt, fun _ => ⟨hknown, ?_⟩⟩
    rwa [Nat.mod_eq_of_lt hlt]
  · next hge =>
    have hmod : fingerStart c.id k % keyspace = fingerStart c.id k - keyspace := by
      rw [Nat.mod_eq_sub_mod (by omega), Nat.mod_eq_of_lt]
      unfold fingerStart
      omega
    have hva : fingerStart c.id k - keyspace ≤ c.id := by
      unfold fingerStart
      omega
    have hiff := Circle.first_iff_of_first_zero hheld.bound hfirst he hva
    rw [RightFinger, hmod]
    constructor
    · exact fun hright => .inr (hiff.mp hright.2)
    · exact fun hcond => ⟨hknown, hiff.mpr (hcond.resolve_left hge)⟩

theorem threeNodes_settled : Settled threeNodes where
  toStable := threeNodes_stable
  member {e c} h := by
    match e, h with
    | 0, rfl | 1, rfl | 2, rfl => decide
  quiet _ hp := absurd hp List.not_mem_nil

/-- The node with the identifier 5 asks for finger 2. -/
theorem fingers_right_iff_three : ∃ s, Steady threeNodes s [(0, 2)] ∧
    ∀ e k, (e, k) ∈ [(0, 2)] → k < mbits ∧ ∃ c, s.node e = some c ∧ (RightFinger s c k ↔
      fingerStart c.id k < keyspace ∨
        ∀ x, threeNodes.ids x → fingerStart c.id k - keyspace ≤ x) := by
  have h₁ := (Steady.start threeNodes_settled).stabilize
    (show step threeNodes (.stabilize 0 0) = .ok _ from rfl)
  have h₂ := h₁.deliver (show step _ (.deliver 1 0) = .ok _ from rfl)
  have h₃ := h₂.deliver (show step _ (.deliver 1 0) = .ok _ from rfl)
  exact ⟨_, h₃, fingers_right_iff h₃⟩

/-- The node with the identifier 200 asks for finger 7, at 264. It is told 5, and not 10. -/
theorem fingers_wrong_three : ¬ ∀ (s₀ s : State Nat) (R : List (Nat × Nat)), Steady s₀ s R →
    ∀ e k, (e, k) ∈ R → ∃ c, s.node e = some c ∧ RightFinger s c k := by
  intro h
  have h₁ := (Steady.start threeNodes_settled).stabilize
    (show step threeNodes (.stabilize 2 5) = .ok _ from rfl)
  have h₂ := h₁.deliver (show step _ (.deliver 1 0) = .ok _ from rfl)
  have h₃ := h₂.deliver (show step _ (.deliver 1 0) = .ok _ from rfl)
  obtain ⟨c, hc, -, -, hfirst⟩ := h _ _ _ h₃ 2 7 (List.mem_singleton_self _)
  cases hc
  exact absurd (hfirst 10 ⟨1, by decide, rfl⟩) (by decide)

end Chord
end Runtime
end NReduce
