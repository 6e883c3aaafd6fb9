import NReduce.Logic.Circle
import NReduce.Runtime.ChordRing

/-!
# NReduce.Runtime.ChordLookup

The way of a query (FIND_SUCCESSOR) through a stable ring, from one node to another one that is
nearer to the identifier asked for, until a node answers.

* `Stable`: the successors are the ring, and the other fingers are null or nodes of it.
* `Route` : the nodes that handle a query, one after the other. Their other fingers may change on
  the way.
* `lookup_correct`: every query has a route, which ends with the right answer.
-/

namespace NReduce
namespace Runtime
namespace Chord

open Logic

theorem inrangeOpen_between {v a b : Nat} : inrangeOpen v a b = true ↔ Circle.Between v a b :=
  inrangeOpen_iff

theorem inrangeOpenClosed_upto {v a b : Nat} :
    inrangeOpenClosed v a b = true ↔ Circle.Upto v a b :=
  inrangeOpenClosed_iff

variable {E : Type} [DecidableEq E] {s s' : State E} {e d : E} {c : Chord E}

/-- The identifiers of the nodes on the ring -/
def State.ids (s : State E) (x : Nat) : Prop := ∃ e ∈ s.accepted, s.ident e = some x

structure Stable (s : State E) : Prop where
  epid : ∀ {e c}, s.node e = some c → c.epid = e
  ring : ∃ l, Ring s l
  bound : ∀ x, s.ids x → x < keyspace
  fingers : ∀ {e c}, e ∈ s.accepted → s.node e = some c → ∀ k, 2 ≤ k → k ≤ mbits →
    (c.fingers k).isnull = true ∨ Known s (c.fingers k)

/-- What a node of a stable ring has as its successor -/
structure Next (s : State E) (c : Chord E) : Prop where
  known : Known s c.successor
  gap : ∀ x, s.ids x → ¬ Circle.Between x c.id c.successor.id

omit [DecidableEq E] in
theorem Ring.next {l : List E} (h : Ring s l) (he : e ∈ s.accepted) :
    ∃ c, s.node e = some c ∧ Next s c := by
  obtain ⟨hmem, hsorted, hsucc⟩ := h
  obtain ⟨i, hi, rfl⟩ := List.mem_iff_getElem.mp ((hmem e).mpr he)
  have hlt : (i + 1) % l.length < l.length := Nat.mod_lt _ (by omega)
  obtain ⟨n, hn, hepid, hid⟩ := hsucc i _ _ (List.getElem?_eq_getElem hi)
    (List.getElem?_eq_getElem hlt)
  obtain ⟨c, hc, rfl⟩ := Option.map_eq_some_iff.mp hn
  refine ⟨c, hc, ⟨_, hepid, (hmem _).mp (List.getElem_mem hlt), hid⟩, ?_⟩
  rintro x ⟨b, hb, hx⟩ hbetween
  obtain ⟨j, hj, rfl⟩ := List.mem_iff_getElem.mp ((hmem b).mpr hb)
  have hmono : ∀ {i j : Nat} (hi : i < l.length) (hj : j < l.length), i < j →
      ∃ p q, s.ident l[i] = some p ∧ s.ident l[j] = some q ∧ p < q := fun hi hj hij =>
    List.pairwise_iff_getElem.mp hsorted _ _ hi hj hij
  have hci : s.ident l[i] = some c.id := ident_of_node hc
  unfold Circle.Between at hbetween
  by_cases hlast : i + 1 < l.length
  · -- the next node in the list
    have hnext : (i + 1) % l.length = i + 1 := Nat.mod_eq_of_lt hlast
    simp only [hnext] at hid
    obtain ⟨p, q, hp, hq, hpq⟩ := hmono hi hlast (Nat.lt_succ_self i)
    rw [hci] at hp
    rw [hid] at hq
    cases hp
    cases hq
    obtain hji | rfl | hji : j < i ∨ j = i ∨ i < j := by omega
    · obtain ⟨p', q', hp', hq', hlt'⟩ := hmono hj hi hji
      rw [hx] at hp'
      rw [hci] at hq'
      cases hp'
      cases hq'
      omega
    · rw [hci] at hx
      cases hx
      omega
    · obtain rfl | hij : j = i + 1 ∨ i + 1 < j := by omega
      · rw [hid] at hx
        cases hx
        omega
      · obtain ⟨p', q', hp', hq', hlt'⟩ := hmono hlast hj hij
        rw [hid] at hp'
        rw [hx] at hq'
        cases hp'
        cases hq'
        omega
  · -- the last node, whose successor is the first one
    have hzero : (i + 1) % l.length = 0 := by
      rw [show i + 1 = l.length by omega, Nat.mod_self]
    simp only [hzero] at hid
    have hle : x ≤ c.id := by
      obtain rfl | hji : j = i ∨ j < i := by omega
      · rw [hci] at hx
        cases hx
        exact Nat.le_refl _
      · obtain ⟨p', q', hp', hq', hlt'⟩ := hmono hj hi hji
        rw [hx] at hp'
        rw [hci] at hq'
        cases hp'
        cases hq'
        omega
    have hge : c.successor.id ≤ x := by
      obtain rfl | hj0 := Nat.eq_zero_or_pos j
      · rw [hid] at hx
        cases hx
        exact Nat.le_refl _
      · obtain ⟨p', q', hp', hq', hlt'⟩ := hmono (by omega) hj hj0
        rw [hid] at hp'
        rw [hx] at hq'
        cases hp'
        cases hq'
        omega
    omega

omit [DecidableEq E] in
theorem Stable.next (h : Stable s) (he : e ∈ s.accepted) : ∃ c, s.node e = some c ∧ Next s c := by
  obtain ⟨l, hl⟩ := h.ring
  exact hl.next he

omit [DecidableEq E] in
theorem ids_of_node (he : e ∈ s.accepted) (hc : s.node e = some c) : s.ids c.id :=
  ⟨e, he, ident_of_node hc⟩

omit [DecidableEq E] in
theorem Known.ids {n : Chordnode E} (h : Known s n) : s.ids n.id := by
  obtain ⟨z, -, hz, hid⟩ := h
  exact ⟨z, hz, hid⟩

/-! ## One node -/

/-- The first node of the ring at or after an identifier. An identifier beyond the last one counts
like the first one. -/
def State.answers (s : State E) (id : Nat) (n : Chordnode E) : Prop :=
  Known s n ∧ Circle.First keyspace s.ids (if id < keyspace then id else 0) n.id

omit [DecidableEq E] in
theorem Stable.answer (h : Stable s) (he : e ∈ s.accepted) (hc : s.node e = some c)
    (hnext : Next s c) {id : Nat} (hrange : inrangeOpenClosed id c.id c.successor.id = true) :
    s.answers id c.successor := by
  rw [inrangeOpenClosed_upto] at hrange
  refine ⟨hnext.known, ?_⟩
  split
  · next hid =>
    exact Circle.first_of_upto h.bound hnext.known.ids (ids_of_node he hc) hnext.gap hid hrange
  · next hid =>
    exact Circle.first_of_upto_beyond h.bound hnext.known.ids hnext.gap (by omega) hrange

omit [DecidableEq E] in
theorem closestFrom_finger {id n : Nat} (hnull : (c.fingers 1).isnull = false)
    (hone : inrangeOpen (c.fingers 1).id c.id id = true) (hn : 1 ≤ n) :
    ∃ k, 1 ≤ k ∧ k ≤ n ∧ closestFrom c id n = c.fingers k ∧ (c.fingers k).isnull = false ∧
      inrangeOpen (c.fingers k).id c.id id = true := by
  induction n with
  | zero => omega
  | succ n ih =>
    rw [closestFrom]
    split
    · next hcond =>
      rw [Bool.and_eq_true, Bool.not_eq_true'] at hcond
      exact ⟨n + 1, by omega, Nat.le_refl _, rfl, hcond⟩
    · next hcond =>
      obtain rfl | hpos := Nat.eq_zero_or_pos n
      · exact absurd (by simp [hnull, hone]) hcond
      · obtain ⟨k, h1, hk, hrest⟩ := ih hpos
        exact ⟨k, h1, by omega, hrest⟩

omit [DecidableEq E] in
theorem Known.not_null {n : Chordnode E} (h : Known s n) : n.isnull = false := by
  obtain ⟨z, hz, -⟩ := h
  rw [Chordnode.isnull, hz]
  rfl

omit [DecidableEq E] in
/-- A node that does not answer knows one on the ring that is nearer. -/
theorem Stable.closer (h : Stable s) (he : e ∈ s.accepted) (hc : s.node e = some c)
    (hnext : Next s c) {id : Nat} (hrange : ¬ inrangeOpenClosed id c.id c.successor.id = true) :
    Known s (closestPrecedingFinger c id) ∧
      Circle.turn keyspace (closestPrecedingFinger c id).id id <
        Circle.turn keyspace c.id id := by
  have hone := Circle.between_of_not_upto (fun hup => hrange (inrangeOpenClosed_upto.mpr hup))
  obtain ⟨k, h1, hk, hfinger, hnull, hbetween⟩ := closestFrom_finger (n := mbits)
    hnext.known.not_null (inrangeOpen_between.mpr hone) (by decide)
  rw [closestPrecedingFinger, hfinger]
  have hknown : Known s (c.fingers k) := by
    obtain rfl | hk2 : k = 1 ∨ 2 ≤ k := by omega
    · exact hnext.known
    · refine (h.fingers he hc k hk2 hk).resolve_left fun hn => ?_
      rw [hnull] at hn
      cases hn
  exact ⟨hknown, Circle.turn_lt (h.bound _ (ids_of_node he hc)) (h.bound _ hknown.ids)
    (inrangeOpen_between.mp hbetween)⟩

/-- The answer of the node before the identifier -/
def answerPacket (p : E) (z : Chordnode E) (sender : E) (hops payload : Nat) : Packet E :=
  (sender, if payload = 1 then .insert (some p) z else .gotSuccessor z hops payload)

omit [DecidableEq E] in
/-- What a node of a stable ring does with a query: it answers, or passes the query on. -/
theorem Stable.find (h : Stable s) (he : e ∈ s.accepted) (id : Nat) (sender : E)
    (hops payload : Nat) : ∃ c, s.node e = some c ∧ Next s c ∧
      ((s.answers id c.successor ∧ chordFindSuccessor c id sender hops payload =
          .ok (c, [answerPacket e c.successor sender hops payload])) ∨
        ∃ d k, d ∈ s.accepted ∧ s.ident d = some k ∧
          Circle.turn keyspace k id < Circle.turn keyspace c.id id ∧
          chordFindSuccessor c id sender hops payload =
            .ok (c, [(d, .findSuccessor id sender (hops + 1) payload)])) := by
  obtain ⟨c, hc, hnext⟩ := h.next he
  refine ⟨c, hc, hnext, ?_⟩
  have hnull : ¬ c.successor.isnull = true := by
    rw [hnext.known.not_null]
    decide
  rw [chordFindSuccessor, if_neg hnull]
  by_cases hrange : inrangeOpenClosed id c.id c.successor.id = true
  · refine .inl ⟨h.answer he hc hnext hrange, ?_⟩
    rw [if_pos hrange, answerPacket, h.epid hc]
    split <;> rfl
  · obtain ⟨⟨d, hd, hacc, hid⟩, hturn⟩ := h.closer he hc hnext hrange
    refine .inr ⟨d, _, hacc, hid, hturn, ?_⟩
    rw [if_neg hrange, hd, endpointSend]

/-! ## The way of a query -/

/-- The node handles the packet whenever it finds it, with no change of its own, and sends one
packet. -/
def Handles (s : State E) (p q : Packet E) : Prop :=
  ∀ msgs i rand, msgs[i]? = some p →
    step { s with msgs := msgs } (.deliver i rand) =
      .ok { s with msgs := msgs.eraseIdx i ++ [q] }

theorem handles_of_find {id hops payload : Nat} {sender : E} {q : Packet E}
    (hc : s.node e = some c)
    (h : chordFindSuccessor c id sender hops payload = .ok (c, [q])) :
    Handles s (e, .findSuccessor id sender hops payload) q := by
  intro msgs i rand hi
  simp only [step, hi, hc, handle, h, finish, newlyAccepted, List.nil_append]
  rw [Function.update_eq_self_iff.mpr hc.symm]

/-- The query is handled by the nodes of the list, and the last one sends the answer. `s k` is the
state in which the query is handled that has been passed on `k` times. -/
inductive Route (s : Nat → State E) (id : Nat) (sender : E) (payload : Nat) :
    Nat → List E → Packet E → Prop
  | answer {hops : Nat} {p : E} {a : Packet E} :
      Handles (s hops) (p, .findSuccessor id sender hops payload) a →
      Route s id sender payload hops [p] a
  | pass {hops : Nat} {e d : E} {path : List E} {a : Packet E} :
      Handles (s hops) (e, .findSuccessor id sender hops payload)
        (d, .findSuccessor id sender (hops + 1) payload) →
      Route s id sender payload (hops + 1) (d :: path) a →
      Route s id sender payload hops (e :: d :: path) a

/-- The same ring at another time -/
structure SameRing (s s' : State E) : Prop where
  accepted : s'.accepted = s.accepted
  ident : s'.ident = s.ident
  succ : s'.succ = s.succ

omit [DecidableEq E] in
theorem SameRing.refl (s : State E) : SameRing s s := ⟨rfl, rfl, rfl⟩

omit [DecidableEq E] in
theorem SameRing.trans {s₁ s₂ s₃ : State E} (h : SameRing s₁ s₂) (h' : SameRing s₂ s₃) :
    SameRing s₁ s₃ :=
  ⟨h'.accepted.trans h.accepted, h'.ident.trans h.ident, h'.succ.trans h.succ⟩

omit [DecidableEq E] in
theorem SameRing.ids (h : SameRing s s') : s'.ids = s.ids := by
  funext x
  simp only [State.ids, h.accepted, h.ident]

omit [DecidableEq E] in
theorem SameRing.known (h : SameRing s s') {n : Chordnode E} : Known s' n ↔ Known s n := by
  simp only [Known, h.accepted, h.ident]

omit [DecidableEq E] in
theorem SameRing.answers (h : SameRing s s') {id : Nat} {n : Chordnode E} :
    s'.answers id n ↔ s.answers id n := by
  simp only [State.answers, h.known, h.ids]

/-- A query that is sent to a node of a stable ring is passed on from node to node, to none of them
twice, until one answers, once: with its successor, which is the first node at or after the
identifier. -/
theorem lookup_correct {s : Nat → State E} (hstable : ∀ k, Stable (s k))
    (hsame : ∀ k, SameRing (s 0) (s k)) (hd : d ∈ (s 0).accepted) {id : Nat}
    (hid : id < keyspace) (sender : E) (payload : Nat) :
    ∃ path p z, Route s id sender payload 0 (d :: path)
        (answerPacket p z sender path.length payload) ∧
      (d :: path).Nodup ∧ (∀ e ∈ d :: path, e ∈ (s 0).accepted) ∧
      (d :: path).getLast? = some p ∧ (s 0).succ p = some z ∧ Known (s 0) z ∧
      Circle.First keyspace (s 0).ids id z.id := by
  have hroute : ∀ n hops d k, d ∈ (s 0).accepted → (s 0).ident d = some k →
      Circle.turn keyspace k id ≤ n →
      ∃ path p z, Route s id sender payload hops (d :: path)
          (answerPacket p z sender (hops + path.length) payload) ∧
        (d :: path).Nodup ∧ (∀ e ∈ d :: path, e ∈ (s 0).accepted ∧
          ∃ x, (s 0).ident e = some x ∧ Circle.turn keyspace x id ≤ n) ∧
        (d :: path).getLast? = some p ∧ (s 0).succ p = some z ∧ (s 0).answers id z := by
    intro n
    induction n using Nat.strong_induction_on with
    | _ n ih =>
      intro hops d k hd hk hn
      have hsameh := hsame hops
      have hacc : d ∈ (s hops).accepted := hsameh.accepted ▸ hd
      obtain ⟨c, hc, hnext, ⟨hans, hfind⟩ | ⟨e, x, he, hx, hturn, hfind⟩⟩ :=
        (hstable hops).find hacc id sender hops payload
      · refine ⟨[], d, c.successor, .answer (handles_of_find hc hfind), List.nodup_singleton d,
          ?_, rfl, ?_, hsameh.answers.mp hans⟩
        · intro e he
          obtain rfl := List.mem_singleton.mp he
          exact ⟨hd, k, hk, hn⟩
        · rw [← hsameh.succ]
          exact succ_of_node hc
      · have hck : c.id = k := by
          have := hsameh.ident ▸ ident_of_node hc
          rw [hk] at this
          exact (Option.some.inj this).symm
        rw [hck] at hturn
        rw [hsameh.accepted] at he
        rw [hsameh.ident] at hx
        obtain ⟨path, p, z, hr, hnodup, hmem, hlast, hsucc, hans⟩ :=
          ih _ (by omega) (hops + 1) e x he hx (Nat.le_refl _)
        refine ⟨e :: path, p, z, ?_, List.nodup_cons.mpr ⟨fun hin => ?_, hnodup⟩, ?_, ?_, hsucc,
          hans⟩
        · rw [List.length_cons, show hops + (path.length + 1) = hops + 1 + path.length by omega]
          exact .pass (handles_of_find hc hfind) hr
        · -- the nodes to come are nearer
          obtain ⟨-, y, hy, hle⟩ := hmem d hin
          rw [hk] at hy
          cases hy
          omega
        · intro a ha
          obtain rfl | ha := List.mem_cons.mp ha
          · exact ⟨hd, k, hk, hn⟩
          · obtain ⟨hacc', y, hy, hle⟩ := hmem a ha
            exact ⟨hacc', y, hy, by omega⟩
        · rw [List.getLast?_cons_cons]
          exact hlast
  obtain ⟨c, hc, -⟩ := (hstable 0).next hd
  obtain ⟨path, p, z, hr, hnodup, hmem, hlast, hsucc, hknown, hfirst⟩ :=
    hroute _ 0 d c.id hd (ident_of_node hc) (Nat.le_refl _)
  rw [if_pos hid] at hfirst
  rw [Nat.zero_add] at hr
  exact ⟨path, p, z, hr, hnodup, fun e he => (hmem e he).1, hlast, hsucc, hknown, hfirst⟩

/-! ## A ring of three nodes -/

/-- The nodes with the identifiers 5, 10 and 200. They know their successors only. -/
def threeNodes : State Nat where
  node
    | 0 => some ⟨none, 5, 0, Function.update (fun _ => .null) 1 ⟨10, some 1⟩, []⟩
    | 1 => some ⟨none, 10, 1, Function.update (fun _ => .null) 1 ⟨200, some 2⟩, []⟩
    | 2 => some ⟨none, 200, 2, Function.update (fun _ => .null) 1 ⟨5, some 0⟩, []⟩
    | _ => none
  msgs := []
  accepted := [0, 1, 2]

theorem threeNodes_stable : Stable threeNodes where
  epid {e c} h := by
    obtain _ | _ | _ | e := e <;> cases h <;> rfl
  ring := by
    refine ⟨[0, 1, 2], fun e => Iff.rfl, ?_, fun i a b ha hb => ?_⟩
    · simp [threeNodes, State.ident]
    · obtain _ | _ | _ | i := i
      iterate 3
        · cases ha
          cases hb
          exact ⟨_, rfl, rfl, rfl⟩
      · cases ha
  bound := by
    rintro x ⟨e, he, hx⟩
    obtain _ | _ | _ | e := e <;> cases hx <;> decide
  fingers {e c} _ h k hk _ := by
    have hk1 : k ≠ 1 := by omega
    obtain _ | _ | _ | e := e <;> cases h
    iterate 3
      · exact .inl (by simp [Function.update_of_ne hk1, Chordnode.null, Chordnode.isnull])

/-- Node 0 is asked for 15, and node 1 answers. -/
theorem lookup_correct_three : ∃ path p z,
    Route (fun _ => threeNodes) 15 0 2 0 (0 :: path) (answerPacket p z 0 path.length 2) ∧
      (0 :: path).Nodup ∧ (∀ e ∈ 0 :: path, e ∈ threeNodes.accepted) ∧
      (0 :: path).getLast? = some p ∧ threeNodes.succ p = some z ∧ Known threeNodes z ∧
      Circle.First keyspace threeNodes.ids 15 z.id :=
  lookup_correct (s := fun _ => threeNodes) (fun _ => threeNodes_stable) (fun _ => .refl _)
    (by decide) (by decide) 0 2

end Chord
end Runtime
end NReduce
