import Mathlib.Data.List.Basic
import Mathlib.Data.List.Count
import Mathlib.Data.List.Dedup
import NReduce.Runtime.Chord

/-!
# NReduce.Runtime.ChordRing

What holds of the nodes of `chord.c` in all reachable states.

* `Inv`: each accepted node points at the next accepted one, and a message of a join carries a place
  where the joining node fits, though perhaps no longer the closest one. A joining node has one such
  message in flight (`token`).
* `ring_of_reachable`: the successors of the accepted nodes are one ring in the order of the ids,
  and the assertions of `chord_set_next` hold.
* `asserts_of_calm`: the other assertions hold as long as no joining node that has the id of an
  accepted node has a query of its own in flight.
-/

namespace NReduce
namespace Runtime
namespace Chord

/-! ## Ranges -/

section

variable {a b v x y : Nat}

theorem inrangeOpen_iff :
    inrangeOpen v a b = true ↔ (a < b ∧ a < v ∧ v < b) ∨ (b ≤ a ∧ (a < v ∨ v < b)) := by
  unfold inrangeOpen
  split <;> simp <;> omega

theorem inrangeOpenClosed_iff :
    inrangeOpenClosed v a b = true ↔ (a < b ∧ a < v ∧ v ≤ b) ∨ (b ≤ a ∧ (a < v ∨ v ≤ b)) := by
  unfold inrangeOpenClosed
  split <;> simp <;> omega

theorem inrangeOpen_of_closed (h : inrangeOpenClosed v a b = true) (hne : v ≠ b) :
    inrangeOpen v a b = true := by
  rw [inrangeOpenClosed_iff] at h
  rw [inrangeOpen_iff]
  omega

theorem not_inrangeOpen_left : ¬ inrangeOpen a a b = true := by
  rw [inrangeOpen_iff]
  omega

theorem not_inrangeOpen_right : ¬ inrangeOpen b a b = true := by
  rw [inrangeOpen_iff]
  omega

/-- A point of a range cuts it in two. -/
theorem not_inrangeOpen_lower (hv : inrangeOpen v a b = true) (hx : ¬ inrangeOpen x a b = true) :
    ¬ inrangeOpen x a v = true := by
  rw [inrangeOpen_iff] at *
  omega

theorem not_inrangeOpen_upper (hv : inrangeOpen v a b = true) (hx : ¬ inrangeOpen x a b = true) :
    ¬ inrangeOpen x v b = true := by
  rw [inrangeOpen_iff] at *
  omega

/-- Two ranges without each other's lower end have no point in common. -/
theorem not_inrangeOpen_both (hne : a ≠ x) (hx : ¬ inrangeOpen x a b = true)
    (ha : ¬ inrangeOpen a x y = true) (hv : inrangeOpen v a b = true) :
    ¬ inrangeOpen v x y = true := by
  rw [inrangeOpen_iff] at *
  omega

/-- A point past the end of a range that is part of another one. -/
theorem inrangeOpenClosed_rest (hv : inrangeOpen v a y = true) (hy : ¬ inrangeOpen y a b = true)
    (hn : ¬ inrangeOpenClosed v a b = true) : inrangeOpenClosed v b y = true := by
  rw [inrangeOpen_iff] at *
  rw [inrangeOpenClosed_iff] at *
  omega

end

/-! ## The invariant -/

section

variable {E : Type} [DecidableEq E]

def State.ident (s : State E) (e : E) : Option Nat := (s.node e).map (·.id)

def State.succ (s : State E) (e : E) : Option (Chordnode E) := (s.node e).map (·.successor)

/-- An accepted node with its id. -/
def Known (s : State E) (n : Chordnode E) : Prop :=
  ∃ e, n.epid = some e ∧ e ∈ s.accepted ∧ s.ident e = some n.id

/-- The packet is about the join of `j`. -/
def isToken (j : E) : Packet E → Bool
  | (_, .findSuccessor _ sender _ payload) => payload = 1 && sender = j
  | (d, .insert _ _) => d = j
  | (_, .setNext newSuccessor _) => newSuccessor.epid = some j
  | _ => false

/-- A query about a place in the ring goes to accepted nodes, one about a finger also to the node
itself. A place that is told to a node has it between the two others, which are accepted. -/
def PacketOk (s : State E) : Packet E → Prop
  | (d, .findSuccessor id sender _ payload) =>
    1 ≤ payload ∧ (d ∈ s.accepted ∨ payload ≠ 1 ∧ d = sender) ∧
      (payload = 1 → sender ∉ s.accepted ∧ s.ident sender = some id)
  | (_, .gotSuccessor successor _ payload) => 1 < payload ∧ Known s successor
  | (d, .insert predecessor successor) =>
    d ∉ s.accepted ∧ ∃ p i k, predecessor = some p ∧ p ∈ s.accepted ∧ s.ident p = some i ∧
      s.ident d = some k ∧ Known s successor ∧ inrangeOpenClosed k i successor.id = true
  | (d, .setNext newSuccessor oldSuccessor) =>
    d ∈ s.accepted ∧ ∃ j i, newSuccessor.epid = some j ∧ j ∉ s.accepted ∧
      s.ident j = some newSuccessor.id ∧ s.succ j = some oldSuccessor ∧ s.ident d = some i ∧
      Known s oldSuccessor ∧ inrangeOpen newSuccessor.id i oldSuccessor.id = true
  | (_, .getSucclist _) => True
  | (_, .replySucclist _ _) => True

structure Inv (s : State E) : Prop where
  epid : ∀ {e c}, s.node e = some c → c.epid = e
  join : ∀ {e c}, s.node e = some c → e ∉ s.accepted → ∃ i ∈ s.accepted, c.initial = some i
  started : ∀ {e}, e ∈ s.accepted → ∃ c, s.node e = some c
  distinct : ∀ {a b}, a ∈ s.accepted → b ∈ s.accepted → s.ident a = s.ident b → a = b
  fingers : ∀ {e c}, s.node e = some c → ∀ k, (c.fingers k).epid = none ∨ Known s (c.fingers k)
  succ : ∀ {e c}, e ∈ s.accepted → s.node e = some c → Known s c.successor
  /-- no accepted node is between a node and its successor -/
  gap : ∀ {a b c k}, a ∈ s.accepted → s.node a = some c → b ∈ s.accepted → s.ident b = some k →
    ¬ inrangeOpen k c.id c.successor.id = true
  packet : ∀ p ∈ s.msgs, PacketOk s p
  /-- a node has one packet about its join in flight, until it is accepted -/
  token : ∀ j, s.msgs.countP (isToken j) + (if j ∈ s.accepted then 1 else 0) ≤
    if (s.node j).isSome then 1 else 0

variable {s s' : State E}

omit [DecidableEq E] in
theorem ident_of_node {e : E} {c : Chord E} (h : s.node e = some c) : s.ident e = some c.id := by
  rw [State.ident, h]
  rfl

omit [DecidableEq E] in
theorem succ_of_node {e : E} {c : Chord E} (h : s.node e = some c) :
    s.succ e = some c.successor := by
  rw [State.succ, h]
  rfl

omit [DecidableEq E] in
@[simp] theorem successor_setSuccessor (c : Chord E) (n : Chordnode E) :
    (c.setSuccessor n).successor = n := by
  simp [Chord.setSuccessor, Chord.setFinger, Chord.successor]

omit [DecidableEq E] in
theorem Known.mono {n : Chordnode E} (h : Known s n)
    (hacc : ∀ x ∈ s.accepted, x ∈ s'.accepted ∧ s'.ident x = s.ident x) : Known s' n := by
  obtain ⟨e, he, hmem, hid⟩ := h
  exact ⟨e, he, (hacc e hmem).1, (hacc e hmem).2.trans hid⟩

/-- Packets stay right when accepted nodes keep their ids and the nodes whose join they are about
are as before. -/
theorem PacketOk.mono {p : Packet E} (h : PacketOk s p)
    (hacc : ∀ x ∈ s.accepted, x ∈ s'.accepted ∧ s'.ident x = s.ident x)
    (htok : ∀ x, isToken x p = true → x ∉ s.accepted →
      x ∉ s'.accepted ∧ s'.ident x = s.ident x ∧ s'.succ x = s.succ x) : PacketOk s' p := by
  obtain ⟨d, m⟩ := p
  cases m with
  | findSuccessor id sender hops payload =>
    obtain ⟨hpos, hd, hone⟩ := h
    refine ⟨hpos, hd.imp (fun hd => (hacc d hd).1) (fun hd => hd), fun hp => ?_⟩
    obtain ⟨hs, hid⟩ := hone hp
    obtain ⟨hs', hid', -⟩ := htok sender (by simp [isToken, hp]) hs
    exact ⟨hs', hid'.trans hid⟩
  | gotSuccessor successor hops payload => exact ⟨h.1, h.2.mono hacc⟩
  | insert predecessor successor =>
    obtain ⟨hd, p, i, k, hp, hpacc, hi, hk, hsucc, hrange⟩ := h
    obtain ⟨hd', hid', -⟩ := htok d (by simp [isToken]) hd
    exact ⟨hd', p, i, k, hp, (hacc p hpacc).1, (hacc p hpacc).2.trans hi, hid'.trans hk,
      hsucc.mono hacc, hrange⟩
  | setNext newSuccessor oldSuccessor =>
    obtain ⟨hd, j, i, hj, hjacc, hjid, hjsucc, hi, hold, hrange⟩ := h
    obtain ⟨hj', hid', hsucc'⟩ := htok j (by simp [isToken, hj]) hjacc
    exact ⟨(hacc d hd).1, j, i, hj, hj', hid'.trans hjid, hsucc'.trans hjsucc,
      (hacc d hd).2.trans hi, hold.mono hacc, hrange⟩
  | getSucclist sender => trivial
  | replySucclist sender successors => trivial

/-- The accepted node of an id. -/
theorem Inv.known_eq (h : Inv s) {n n' : Chordnode E} (hn : Known s n) (hn' : Known s n') :
    n.epid = n'.epid ↔ n.id = n'.id := by
  obtain ⟨e, he, hmem, hid⟩ := hn
  obtain ⟨e', he', hmem', hid'⟩ := hn'
  rw [he, he', Option.some_inj]
  constructor
  · intro heq
    rw [heq, hid'] at hid
    exact (Option.some.inj hid).symm
  · intro heq
    rw [heq, ← hid'] at hid
    exact h.distinct hmem hmem' hid

/-- Only the messages change. -/
theorem Inv.send (h : Inv s) {l : List (Packet E)} (hl : ∀ p ∈ l, PacketOk s p)
    (hcount : ∀ j, l.countP (isToken j) ≤ s.msgs.countP (isToken j)) :
    Inv { s with msgs := l } where
  epid := h.epid
  join := h.join
  started := h.started
  distinct := h.distinct
  fingers := h.fingers
  succ := h.succ
  gap := h.gap
  packet := fun p hp => (hl p hp).mono (fun _ hx => ⟨hx, rfl⟩) (fun _ _ hx => ⟨hx, rfl, rfl⟩)
  token := fun j => Nat.le_trans (Nat.add_le_add_right (hcount j) _) (h.token j)

omit [DecidableEq E] in
/-- A packet that is taken out of the list. -/
theorem countP_eraseIdx {l : List (Packet E)} {i : Nat} {p : Packet E} (f : Packet E → Bool)
    (h : l[i]? = some p) :
    l.countP f = (l.eraseIdx i).countP f + if f p = true then 1 else 0 := by
  induction l generalizing i with
  | nil => cases h
  | cons x l ih =>
    cases i with
    | zero =>
      cases h
      exact List.countP_cons
    | succ i =>
      rw [List.getElem?_cons_succ] at h
      rw [List.eraseIdx_cons_succ, List.countP_cons, List.countP_cons, ih h]
      omega

section

variable {e : E} {c c' : Chord E} {l : List (Packet E)}

theorem ident_update (he : s.node e = some c) (hid : e ∈ s.accepted → c'.id = c.id) {x : E}
    (hx : x ∈ s.accepted) :
    State.ident ⟨Function.update s.node e (some c'), l, s.accepted⟩ x = s.ident x := by
  by_cases hxe : x = e
  · subst hxe
    simp [State.ident, he, hid hx]
  · simp [State.ident, Function.update_of_ne hxe]

theorem PacketOk.update {p : Packet E} (h : PacketOk s p) (he : s.node e = some c)
    (hid : e ∈ s.accepted → c'.id = c.id)
    (hsame : isToken e p = true → e ∉ s.accepted → c'.id = c.id ∧ c'.successor = c.successor) :
    PacketOk ⟨Function.update s.node e (some c'), l, s.accepted⟩ p := by
  refine h.mono (fun x hx => ⟨hx, ident_update he hid hx⟩) (fun x htok hx => ⟨hx, ?_⟩)
  by_cases hxe : x = e
  · subst hxe
    obtain ⟨hid', hsucc'⟩ := hsame htok hx
    simp [State.ident, State.succ, he, hid', hsucc']
  · simp [State.ident, State.succ, Function.update_of_ne hxe]

/-- A node is the one that changes, or as before. -/
theorem node_update {x : E} {y : Chord E} (h : Function.update s.node e (some c') x = some y) :
    (x = e ∧ y = c') ∨ (x ≠ e ∧ s.node x = some y) := by
  by_cases hxe : x = e
  · subst hxe
    rw [Function.update_self] at h
    exact .inl ⟨rfl, (Option.some.inj h).symm⟩
  · rw [Function.update_of_ne hxe] at h
    exact .inr ⟨hxe, h⟩

/-- The tables of a node change. -/
theorem Inv.update (h : Inv s) (he : s.node e = some c) (hepid : c'.epid = c.epid)
    (hinit : c'.initial = c.initial) (hid : e ∈ s.accepted → c'.id = c.id)
    (hsucc : e ∈ s.accepted → c'.successor = c.successor)
    (hfing : ∀ k, (c'.fingers k).epid = none ∨ Known s (c'.fingers k))
    (hl : ∀ p ∈ l, PacketOk ⟨Function.update s.node e (some c'), l, s.accepted⟩ p)
    (hcount : ∀ j, l.countP (isToken j) ≤ s.msgs.countP (isToken j)) :
    Inv ⟨Function.update s.node e (some c'), l, s.accepted⟩ := by
  have hident : ∀ {x}, x ∈ s.accepted →
      State.ident ⟨Function.update s.node e (some c'), l, s.accepted⟩ x = s.ident x :=
    fun hx => ident_update he hid hx
  have hknown : ∀ {n}, Known s n → Known ⟨Function.update s.node e (some c'), l, s.accepted⟩ n :=
    fun hn => hn.mono fun x hx => ⟨hx, hident hx⟩
  refine ⟨fun hx => ?_, fun hx hacc => ?_, fun {x} hx => ?_, fun ha hb hab => ?_, fun hx k => ?_,
    fun hacc hx => ?_, fun ha hx hb hk => ?_, hl, fun j => ?_⟩
  · obtain ⟨rfl, rfl⟩ | ⟨-, hx⟩ := node_update hx
    · exact hepid.trans (h.epid he)
    · exact h.epid hx
  · obtain ⟨rfl, rfl⟩ | ⟨-, hx⟩ := node_update hx
    · rw [hinit]
      exact h.join he hacc
    · exact h.join hx hacc
  · by_cases hxe : x = e
    · subst hxe
      exact ⟨c', Function.update_self _ _ _⟩
    · obtain ⟨y, hy⟩ := h.started hx
      exact ⟨y, (Function.update_of_ne hxe _ _).trans hy⟩
  · rw [hident ha, hident hb] at hab
    exact h.distinct ha hb hab
  · obtain ⟨rfl, rfl⟩ | ⟨-, hx⟩ := node_update hx
    · exact (hfing k).imp id hknown
    · exact (h.fingers hx k).imp id hknown
  · obtain ⟨rfl, rfl⟩ | ⟨-, hx⟩ := node_update hx
    · rw [hsucc hacc]
      exact hknown (h.succ hacc he)
    · exact hknown (h.succ hacc hx)
  · rw [hident hb] at hk
    obtain ⟨rfl, rfl⟩ | ⟨-, hx⟩ := node_update hx
    · rw [hid ha, hsucc ha]
      exact h.gap ha he hb hk
    · exact h.gap ha hx hb hk
  · refine Nat.le_trans (Nat.add_le_add_right (hcount j) _) (Nat.le_trans (h.token j) ?_)
    by_cases hje : j = e
    · subst hje
      simp [he]
    · simp [Function.update_of_ne hje]

/-- A node is taken as successor. -/
theorem Inv.accept {j : E} {n : Chordnode E} (h : Inv s) (he : s.node e = some c)
    (heacc : e ∈ s.accepted) (hj : n.epid = some j) (hjacc : j ∉ s.accepted)
    (hjid : s.ident j = some n.id) (hjsucc : s.succ j = some c.successor)
    (hrange : inrangeOpen n.id c.id c.successor.id = true)
    (hl : ∀ p ∈ l, PacketOk s p ∧ isToken j p = false)
    (hcount : ∀ x, l.countP (isToken x) + (if x = j then 1 else 0) ≤ s.msgs.countP (isToken x)) :
    Inv ⟨Function.update s.node e (some (c.setSuccessor n)), l, j :: s.accepted⟩ := by
  have hej : j ≠ e := fun hje => hjacc (hje ▸ heacc)
  obtain ⟨cj, hcj⟩ : ∃ cj, s.node j = some cj := by
    rw [State.ident, Option.map_eq_some_iff] at hjid
    obtain ⟨cj, hcj, -⟩ := hjid
    exact ⟨cj, hcj⟩
  have hcjid : cj.id = n.id := by
    rw [ident_of_node hcj] at hjid
    exact Option.some.inj hjid
  have hcjsucc : cj.successor = c.successor := by
    rw [succ_of_node hcj] at hjsucc
    exact Option.some.inj hjsucc
  have hsucc : (c.setSuccessor n).successor = n := successor_setSuccessor c n
  have hident : ∀ x, State.ident
      ⟨Function.update s.node e (some (c.setSuccessor n)), l, j :: s.accepted⟩ x = s.ident x := by
    intro x
    by_cases hxe : x = e
    · subst hxe
      simp [State.ident, he, Chord.setSuccessor, Chord.setFinger]
    · simp [State.ident, Function.update_of_ne hxe]
  have hacc : ∀ x ∈ s.accepted, x ∈ j :: s.accepted ∧ State.ident
      ⟨Function.update s.node e (some (c.setSuccessor n)), l, j :: s.accepted⟩ x = s.ident x :=
    fun x hx => ⟨List.mem_cons_of_mem j hx, hident x⟩
  have hknown : ∀ {n'}, Known s n' → Known
      ⟨Function.update s.node e (some (c.setSuccessor n)), l, j :: s.accepted⟩ n' :=
    fun hn => hn.mono hacc
  have hnknown : Known
      ⟨Function.update s.node e (some (c.setSuccessor n)), l, j :: s.accepted⟩ n :=
    ⟨j, hj, List.mem_cons_self, (hident j).trans hjid⟩
  -- no accepted node has the new id, as none is in the range
  have hnew : ∀ {x}, x ∈ s.accepted → s.ident x ≠ s.ident j := by
    intro x hx hid
    exact h.gap heacc he hx (hid.trans hjid) hrange
  refine ⟨fun hx => ?_, fun hx hxacc => ?_, fun {x} hx => ?_, fun {a b} ha hb hab => ?_,
    fun hx k => ?_, fun {x y} hxacc hx => ?_, fun {a b x k} ha hx hb hk => ?_, fun p hp => ?_,
    fun x => ?_⟩
  · obtain ⟨rfl, rfl⟩ | ⟨-, hx⟩ := node_update hx
    · exact h.epid (c := c) he
    · exact h.epid hx
  · rw [List.mem_cons, not_or] at hxacc
    obtain ⟨rfl, rfl⟩ | ⟨-, hx⟩ := node_update hx
    · exact absurd heacc hxacc.2
    · obtain ⟨i, hi, hinit⟩ := h.join hx hxacc.2
      exact ⟨i, List.mem_cons_of_mem j hi, hinit⟩
  · by_cases hxe : x = e
    · subst hxe
      exact ⟨_, Function.update_self _ _ _⟩
    · obtain ⟨y, hy⟩ : ∃ y, s.node x = some y := by
        obtain rfl | hx := List.mem_cons.mp hx
        · exact ⟨cj, hcj⟩
        · exact h.started hx
      exact ⟨y, (Function.update_of_ne hxe _ _).trans hy⟩
  · rw [hident a, hident b] at hab
    obtain rfl | ha' := List.mem_cons.mp ha
    · obtain rfl | hb' := List.mem_cons.mp hb
      · rfl
      · exact absurd hab.symm (hnew hb')
    · obtain rfl | hb' := List.mem_cons.mp hb
      · exact absurd hab (hnew ha')
      · exact h.distinct ha' hb' hab
  · obtain ⟨rfl, rfl⟩ | ⟨-, hx⟩ := node_update hx
    · by_cases hk : k = 1
      · subst hk
        exact .inr (hsucc.symm ▸ hnknown)
      · have hfk : (c.setSuccessor n).fingers k = c.fingers k := Function.update_of_ne hk _ _
        rw [hfk]
        exact (h.fingers he k).imp id hknown
    · exact (h.fingers hx k).imp id hknown
  · obtain ⟨rfl, rfl⟩ | ⟨hxe, hx'⟩ := node_update hx
    · exact hsucc.symm ▸ hnknown
    · obtain rfl | hxacc' := List.mem_cons.mp hxacc
      · rw [hcj] at hx'
        cases hx'
        rw [hcjsucc]
        exact hknown (h.succ heacc he)
      · exact hknown (h.succ hxacc' hx')
  · rw [hident b] at hk
    -- the range of the predecessor is cut, that of the new node is the rest of it
    obtain ⟨rfl, rfl⟩ | ⟨hxe, hx'⟩ := node_update hx
    · rw [hsucc]
      obtain rfl | hb' := List.mem_cons.mp hb
      · rw [hjid] at hk
        cases hk
        exact not_inrangeOpen_right
      · exact not_inrangeOpen_lower hrange (h.gap heacc he hb' hk)
    · obtain rfl | ha' := List.mem_cons.mp ha
      · rw [hcj] at hx'
        cases hx'
        rw [hcjsucc, hcjid]
        obtain rfl | hb' := List.mem_cons.mp hb
        · rw [hjid] at hk
          cases hk
          exact not_inrangeOpen_left
        · exact not_inrangeOpen_upper hrange (h.gap heacc he hb' hk)
      · obtain rfl | hb' := List.mem_cons.mp hb
        · rw [hjid] at hk
          cases hk
          have hne : c.id ≠ x.id := by
            intro hid
            refine hxe (h.distinct ha' heacc ?_)
            rw [ident_of_node hx', ident_of_node he, hid]
          exact not_inrangeOpen_both hne (h.gap heacc he ha' (ident_of_node hx'))
            (h.gap ha' hx' heacc (ident_of_node he)) hrange
        · exact h.gap ha' hx' hb' hk
  · obtain ⟨hok, htok⟩ := hl p hp
    refine hok.mono hacc fun x hx hxacc => ?_
    have hxj : x ≠ j := by
      rintro rfl
      rw [htok] at hx
      cases hx
    have hxe : x ≠ e := fun hxe => hxacc (hxe ▸ heacc)
    refine ⟨?_, hident x, ?_⟩
    · rw [List.mem_cons, not_or]
      exact ⟨hxj, hxacc⟩
    · simp [State.succ, Function.update_of_ne hxe]
  · have hx := h.token x
    have hcx := hcount x
    by_cases hxj : x = j
    · subst hxj
      rw [if_neg hjacc] at hx
      simp only [List.mem_cons, true_or, if_true, Function.update_of_ne hej] at hcx ⊢
      omega
    · have hmem : x ∈ j :: s.accepted ↔ x ∈ s.accepted := by
        rw [List.mem_cons]
        exact or_iff_right hxj
      have hsome : (Function.update s.node e (some (c.setSuccessor n)) x).isSome =
          (s.node x).isSome := by
        by_cases hxe : x = e
        · subst hxe
          simp [he]
        · rw [Function.update_of_ne hxe]
      simp only [hmem, hsome]
      rw [if_neg hxj] at hcx
      omega

/-- A node starts to join. -/
theorem Inv.start {rand : Nat} {initial : E} (h : Inv s) (hnone : s.node e = none)
    (hinit : initial ∈ s.accepted) :
    Inv ⟨Function.update s.node e (some (fresh e rand (some initial))),
      s.msgs ++ [(initial, .findSuccessor (rand % keyspace) e 0 1)], s.accepted⟩ := by
  have heacc : e ∉ s.accepted := by
    intro hmem
    obtain ⟨c, hc⟩ := h.started hmem
    rw [hnone] at hc
    cases hc
  have htok : s.msgs.countP (isToken e) = 0 := by
    have ht := h.token e
    rw [hnone, if_neg heacc] at ht
    exact Nat.le_zero.mp ht
  have hne : ∀ {x}, x ∈ s.accepted → x ≠ e := fun hx hxe => heacc (hxe ▸ hx)
  have hident : ∀ {x}, x ≠ e → State.ident
      ⟨Function.update s.node e (some (fresh e rand (some initial))),
        s.msgs ++ [(initial, .findSuccessor (rand % keyspace) e 0 1)], s.accepted⟩ x =
      s.ident x := by
    intro x hx
    simp [State.ident, Function.update_of_ne hx]
  have hknown : ∀ {n}, Known s n → Known
      ⟨Function.update s.node e (some (fresh e rand (some initial))),
        s.msgs ++ [(initial, .findSuccessor (rand % keyspace) e 0 1)], s.accepted⟩ n :=
    fun hn => hn.mono fun x hx => ⟨hx, hident (hne hx)⟩
  refine ⟨fun hx => ?_, fun hx hacc => ?_, fun hx => ?_, fun ha hb hab => ?_, fun hx k => ?_,
    fun hacc hx => ?_, fun ha hx hb hk => ?_, fun p hp => ?_, fun j => ?_⟩
  · obtain ⟨rfl, rfl⟩ | ⟨-, hx'⟩ := node_update hx
    · rfl
    · exact h.epid hx'
  · obtain ⟨rfl, rfl⟩ | ⟨-, hx'⟩ := node_update hx
    · exact ⟨initial, hinit, rfl⟩
    · exact h.join hx' hacc
  · obtain ⟨y, hy⟩ := h.started hx
    exact ⟨y, (Function.update_of_ne (hne hx) _ _).trans hy⟩
  · rw [hident (hne ha), hident (hne hb)] at hab
    exact h.distinct ha hb hab
  · obtain ⟨rfl, rfl⟩ | ⟨-, hx'⟩ := node_update hx
    · exact .inl rfl
    · exact (h.fingers hx' k).imp id hknown
  · obtain ⟨rfl, rfl⟩ | ⟨-, hx'⟩ := node_update hx
    · exact absurd hacc heacc
    · exact hknown (h.succ hacc hx')
  · rw [hident (hne hb)] at hk
    obtain ⟨rfl, rfl⟩ | ⟨-, hx'⟩ := node_update hx
    · exact absurd ha heacc
    · exact h.gap ha hx' hb hk
  · obtain hp' | hp' := List.mem_append.mp hp
    · refine (h.packet p hp').mono (fun x hx => ⟨hx, hident (hne hx)⟩)
        fun x hx hxacc => ⟨hxacc, ?_⟩
      -- the new node has had no packet
      have hxe : x ≠ e := by
        rintro rfl
        have hpos : 0 < s.msgs.countP (isToken x) := List.countP_pos_iff.mpr ⟨p, hp', hx⟩
        omega
      exact ⟨hident hxe, by simp [State.succ, Function.update_of_ne hxe]⟩
    · rw [List.mem_singleton] at hp'
      subst hp'
      refine ⟨Nat.le_refl 1, .inl hinit, fun _ => ⟨heacc, ?_⟩⟩
      simp [State.ident, fresh]
  · have hj := h.token j
    rw [List.countP_append, List.countP_singleton]
    by_cases hje : j = e
    · subst hje
      rw [htok, if_neg heacc]
      simp [isToken]
    · have hno : isToken j (initial, .findSuccessor (rand % keyspace) e 0 1) = false := by
        simp [isToken, Ne.symm hje]
      rw [hno]
      simpa [Function.update_of_ne hje] using hj

/-! ## Messages -/

variable {i : Nat} {p : Packet E} {sent : List (Packet E)}

theorem Inv.rest (h : Inv s) {q : Packet E} (hq : q ∈ s.msgs.eraseIdx i) : PacketOk s q :=
  h.packet q (List.mem_of_mem_eraseIdx hq)

theorem countP_sent (hi : s.msgs[i]? = some p) {j : E}
    (htok : sent.countP (isToken j) ≤ if isToken j p = true then 1 else 0) :
    (s.msgs.eraseIdx i ++ sent).countP (isToken j) ≤ s.msgs.countP (isToken j) := by
  rw [countP_eraseIdx (isToken j) hi, List.countP_append]
  omega

/-- The join of `j` is in no other packet. -/
theorem Inv.rest_token (h : Inv s) (hi : s.msgs[i]? = some p) {j : E} (hj : isToken j p = true)
    {q : Packet E} (hq : q ∈ s.msgs.eraseIdx i) : isToken j q = false := by
  have ht := h.token j
  rw [countP_eraseIdx (isToken j) hi, if_pos hj] at ht
  have hle : (if (s.node j).isSome = true then 1 else 0) ≤ 1 := by split <;> omega
  have hzero : (s.msgs.eraseIdx i).countP (isToken j) = 0 := by omega
  have hall := List.countP_eq_zero.mp hzero q hq
  exact Bool.eq_false_iff.mpr hall

/-- The node keeps its place. -/
theorem Inv.reply (h : Inv s) (he : s.node e = some c) (hi : s.msgs[i]? = some p)
    (hepid : c'.epid = c.epid) (hinit : c'.initial = c.initial) (hid : c'.id = c.id)
    (hsucc : c'.successor = c.successor)
    (hfing : ∀ k, (c'.fingers k).epid = none ∨ Known s (c'.fingers k))
    (hsent : ∀ q ∈ sent, PacketOk s q)
    (htok : ∀ j, sent.countP (isToken j) ≤ if isToken j p = true then 1 else 0) :
    Inv ⟨Function.update s.node e (some c'), s.msgs.eraseIdx i ++ sent, s.accepted⟩ := by
  refine h.update he hepid hinit (fun _ => hid) (fun _ => hsucc) hfing (fun q hq => ?_)
    (fun j => countP_sent hi (htok j))
  have hok : PacketOk s q := by
    obtain hq | hq := List.mem_append.mp hq
    · exact h.rest hq
    · exact hsent q hq
  exact hok.update he (fun _ => hid) (fun _ _ => ⟨hid, hsucc⟩)

omit [DecidableEq E] in
theorem closestFrom_spec (c : Chord E) (id n : Nat) :
    closestFrom c id n = c.self ∨
      ∃ k, closestFrom c id n = c.fingers k ∧ (c.fingers k).epid ≠ none := by
  induction n with
  | zero => exact .inl rfl
  | succ n ih =>
    rw [closestFrom]
    split
    · next hcond =>
      rw [Bool.and_eq_true, Bool.not_eq_true'] at hcond
      refine .inr ⟨n + 1, rfl, fun hnone => ?_⟩
      rw [Chordnode.isnull, hnone] at hcond
      cases hcond.1
    · exact ih

/-- A query is passed on to an accepted node or to the node itself. -/
theorem Inv.closest (h : Inv s) (he : s.node e = some c) (id : Nat) :
    ∃ d, (closestPrecedingFinger c id).epid = some d ∧ (d = e ∨ d ∈ s.accepted) := by
  obtain hself | ⟨k, hk, hne⟩ := closestFrom_spec c id mbits
  · refine ⟨e, ?_, .inl rfl⟩
    rw [closestPrecedingFinger, hself, Chord.self, h.epid he]
  · obtain hnone | ⟨d, hd, hacc, -⟩ := h.fingers he k
    · exact absurd hnone hne
    · refine ⟨d, ?_, .inr hacc⟩
      rw [closestPrecedingFinger, hk, hd]

/-- A result that is right, or an assertion that is not known to hold. -/
def Good : Except Assertion (State E) → Prop
  | .ok s => Inv s
  | .error f => f = .findSuccessor ∨ f = .gotSuccessor

theorem good_find {id hops payload : Nat} {sender : E} (h : Inv s) (he : s.node e = some c)
    (hi : s.msgs[i]? = some (e, .findSuccessor id sender hops payload)) :
    Good (finish s e (s.msgs.eraseIdx i) [] (chordFindSuccessor c id sender hops payload)) := by
  obtain ⟨hpos, hd, hone⟩ := h.packet _ (List.mem_of_getElem? hi)
  unfold chordFindSuccessor
  split
  · exact .inl rfl
  next hnull =>
  have hknown : Known s c.successor := by
    obtain hnone | hknown := h.fingers he 1
    · refine absurd ?_ hnull
      rw [Chordnode.isnull, Chord.successor, hnone]
      rfl
    · exact hknown
  split
  · next hrange =>
    split
    · next hp =>
      obtain ⟨hs, hid⟩ := hone hp
      have hacc : e ∈ s.accepted := hd.resolve_right fun hf => hf.1 hp
      refine h.reply he hi rfl rfl rfl rfl (h.fingers he) (fun q hq => ?_) (fun j => ?_)
      · rw [List.mem_singleton] at hq
        subst hq
        exact ⟨hs, e, c.id, id, by rw [h.epid he], hacc, ident_of_node he, hid, hknown, hrange⟩
      · rw [List.countP_singleton]
        simp [isToken, hp]
    · next hp =>
      refine h.reply he hi rfl rfl rfl rfl (h.fingers he) (fun q hq => ?_) (fun j => ?_)
      · rw [List.mem_singleton] at hq
        subst hq
        exact ⟨by omega, hknown⟩
      · rw [List.countP_singleton]
        simp [isToken]
  · obtain ⟨d, hclosest, hdest⟩ := h.closest he id
    rw [hclosest, endpointSend]
    refine h.reply he hi rfl rfl rfl rfl (h.fingers he) (fun q hq => ?_) (fun j => ?_)
    · rw [List.mem_singleton] at hq
      subst hq
      refine ⟨hpos, ?_, hone⟩
      obtain rfl | hdest := hdest
      · exact hd
      · exact .inl hdest
    · rw [List.countP_singleton]
      simp [isToken]

theorem good_got {hops payload : Nat} {n : Chordnode E} (h : Inv s) (he : s.node e = some c)
    (hi : s.msgs[i]? = some (e, .gotSuccessor n hops payload)) :
    Good (finish s e (s.msgs.eraseIdx i) [] (chordGotSuccessor c n payload)) := by
  obtain ⟨hp, hknown⟩ := h.packet _ (List.mem_of_getElem? hi)
  unfold chordGotSuccessor
  split
  · refine h.reply he hi rfl rfl rfl ?_ (fun k => ?_) (fun q hq => ?_) (fun j => ?_)
    · exact Function.update_of_ne (by omega) _ _
    · by_cases hk : k = payload
      · subst hk
        simpa [Chord.setFinger] using .inr hknown
      · simpa [Chord.setFinger, Function.update_of_ne hk] using h.fingers he k
    · exact absurd hq List.not_mem_nil
    · simp
  · exact .inr rfl

theorem good_insert {rand : Nat} {predecessor : Option E} {n : Chordnode E} (h : Inv s)
    (he : s.node e = some c) (hi : s.msgs[i]? = some (e, .insert predecessor n)) :
    Good (finish s e (s.msgs.eraseIdx i) [] (chordInsert c rand predecessor n)) := by
  obtain ⟨heacc, p, ip, k, hpred, hpacc, hip, hk, hknown, hrange⟩ :=
    h.packet _ (List.mem_of_getElem? hi)
  have htoken : isToken e (e, .insert predecessor n) = true := by simp [isToken]
  rw [ident_of_node he] at hk
  cases hk
  unfold chordInsert
  split
  · -- the id is taken
    obtain ⟨initial, hinit, hci⟩ := h.join he heacc
    simp only [duplicateDetected, chordJoin, Chord.clearTables, hci, finish, h.epid he]
    refine h.update he (h.epid he).symm hci.symm (fun hf => absurd hf heacc)
      (fun hf => absurd hf heacc) (fun _ => .inl rfl) (fun q hq => ?_) (fun j => countP_sent hi ?_)
    · obtain hq | hq := List.mem_append.mp hq
      · refine (h.rest hq).update he (fun hf => absurd hf heacc) fun ht _ => ?_
        rw [h.rest_token hi htoken hq] at ht
        cases ht
      · rw [List.mem_singleton] at hq
        subst hq
        refine ⟨Nat.le_refl 1, .inl hinit, fun _ => ⟨heacc, ?_⟩⟩
        simp [State.ident]
    · rw [List.countP_singleton]
      simp [isToken]
  · next hne =>
    subst hpred
    have hep : e ≠ p := fun hep => heacc (hep ▸ hpacc)
    rw [endpointSend]
    refine h.update he rfl rfl (fun _ => rfl) (fun hf => absurd hf heacc) (fun k => ?_)
      (fun q hq => ?_) (fun j => countP_sent hi ?_)
    · by_cases hk : k = 1
      · subst hk
        simpa [Chord.setSuccessor, Chord.setFinger] using .inr hknown
      · simpa [Chord.setSuccessor, Chord.setFinger, Function.update_of_ne hk] using h.fingers he k
    · obtain hq | hq := List.mem_append.mp hq
      · refine (h.rest hq).update he (fun hf => absurd hf heacc) fun ht _ => ?_
        rw [h.rest_token hi htoken hq] at ht
        cases ht
      · rw [List.mem_singleton] at hq
        subst hq
        refine ⟨hpacc, e, ip, ?_, heacc, ?_, ?_, ?_, ?_, ?_⟩
        · rw [Chord.self, h.epid he]
        · simp [State.ident, Chord.self, Chord.setSuccessor, Chord.setFinger]
        · simp [State.succ]
        · exact (ident_update he (fun hf => absurd hf heacc) hpacc).trans hip
        · exact hknown.mono fun x hx => ⟨hx, ident_update he (fun hf => absurd hf heacc) hx⟩
        · exact inrangeOpen_of_closed hrange (Ne.symm hne)
    · rw [List.countP_singleton]
      simp [isToken, Chord.self, h.epid he]

theorem good_setNext {n o : Chordnode E} (h : Inv s) (he : s.node e = some c)
    (hi : s.msgs[i]? = some (e, .setNext n o)) :
    Good
      (finish s e (s.msgs.eraseIdx i) (newlyAccepted c (.setNext n o)) (chordSetNext c n o)) := by
  obtain ⟨heacc, j, k, hj, hjacc, hjid, hjsucc, hk, hold, hrange⟩ :=
    h.packet _ (List.mem_of_getElem? hi)
  rw [ident_of_node he] at hk
  cases hk
  have htoken : isToken j (e, .setNext n o) = true := by simp [isToken, hj]
  have hsucc := h.succ heacc he
  have heq := h.known_eq hold hsucc
  -- the old successor is an accepted node, so it is not in the gap
  have hgap : ¬ inrangeOpen o.id c.id c.successor.id = true := by
    obtain ⟨x, -, hx, hxid⟩ := hold
    exact h.gap heacc he hx hxid
  rw [newlyAccepted, chordSetNext]
  by_cases hmatch : o.epid = c.successor.epid
  · have hid : o.id = c.successor.id := heq.mp hmatch
    have hos : o = c.successor := by
      obtain ⟨oid, oepid⟩ := o
      cases hcs : c.successor
      rw [hcs] at hid hmatch
      cases hid
      cases hmatch
      rfl
    rw [if_neg (not_not.mpr hmatch), if_neg (not_not.mpr hid), if_pos hmatch, hj]
    refine h.accept he heacc hj hjacc hjid (hos ▸ hjsucc) (hos ▸ hrange)
      (fun q hq => ?_) (fun x => ?_)
    · rw [List.append_nil] at hq
      exact ⟨h.rest hq, h.rest_token hi htoken hq⟩
    · rw [List.append_nil, countP_eraseIdx (isToken x) hi]
      simp [isToken, hj, eq_comm]
  · have hne : c.successor.id ≠ o.id := fun hid => hmatch (heq.mpr hid.symm)
    have hself : n.id ≠ c.id := by
      intro hid
      rw [hid] at hrange
      exact not_inrangeOpen_left hrange
    have hasserts : ¬ (o.id = c.successor.id ∨ n.id = c.id) := by
      rw [not_or]
      exact ⟨Ne.symm hne, hself⟩
    rw [if_neg hmatch, if_pos hmatch, if_neg hasserts, hj]
    -- the token goes back to the joining node
    have htok : ∀ (a : Option E) (b : Chordnode E) (x : E),
        [((j, .insert a b) : Packet E)].countP (isToken x) ≤
          if isToken x (e, .setNext n o) = true then 1 else 0 := by
      intro a b x
      rw [List.countP_singleton]
      simp [isToken, hj]
    split
    · next hin =>
      refine h.reply he hi rfl rfl rfl rfl (h.fingers he) (fun q hq => ?_) (htok _ _)
      rw [List.mem_singleton] at hq
      subst hq
      exact ⟨hjacc, e, c.id, n.id, by rw [h.epid he], heacc, ident_of_node he, hjid, hsucc, hin⟩
    · next hin =>
      refine h.reply he hi rfl rfl rfl rfl (h.fingers he) (fun q hq => ?_) (htok _ _)
      rw [List.mem_singleton] at hq
      subst hq
      obtain ⟨x, hx, hxacc, hxid⟩ := hsucc
      exact ⟨hjacc, x, c.successor.id, n.id, hx, hxacc, hxid, hjid, hold,
        inrangeOpenClosed_rest hrange hgap hin⟩

theorem good_getSucclist {sender : E} (h : Inv s) (he : s.node e = some c)
    (hi : s.msgs[i]? = some (e, .getSucclist sender)) :
    Good (finish s e (s.msgs.eraseIdx i) [] (chordGetSucclist c sender)) := by
  refine h.reply he hi rfl rfl rfl rfl (h.fingers he) (fun q hq => ?_) (fun j => ?_)
  · rw [List.mem_singleton] at hq
    subst hq
    trivial
  · rw [List.countP_singleton]
    simp [isToken]

theorem good_replySucclist {sender : E} {successors : List (Chordnode E)} (h : Inv s)
    (he : s.node e = some c) (hi : s.msgs[i]? = some (e, .replySucclist sender successors)) :
    Good (finish s e (s.msgs.eraseIdx i) [] (chordReplySucclist c sender successors)) := by
  unfold chordReplySucclist
  split
  · exact h.reply he hi rfl rfl rfl rfl (fun k => h.fingers he k)
      (fun q hq => absurd hq List.not_mem_nil) (fun j => Nat.zero_le _)
  · exact h.reply he hi rfl rfl rfl rfl (h.fingers he) (fun q hq => absurd hq List.not_mem_nil)
      (fun j => Nat.zero_le _)

theorem good_stabilize {rand : Nat} (h : Inv s) (he : s.node e = some c) :
    Good (finish s e s.msgs [] (chordStabilize c rand)) := by
  have hsame : ∀ {l}, (∀ q ∈ l, PacketOk s q) →
      (∀ j, l.countP (isToken j) ≤ s.msgs.countP (isToken j)) →
      Inv ⟨Function.update s.node e (some c), l, s.accepted⟩ := by
    intro l hl hcount
    exact h.update he rfl rfl (fun _ => rfl) (fun _ => rfl) (h.fingers he)
      (fun q hq => (hl q hq).update he (fun _ => rfl) (fun _ _ => ⟨rfl, rfl⟩)) hcount
  unfold chordStabilize
  dsimp only
  split
  · refine hsame (fun q hq => ?_) (fun j => ?_)
    · rw [List.append_nil] at hq
      exact h.packet q hq
    · exact Nat.le_of_eq (congrArg (List.countP (isToken j)) (List.append_nil s.msgs))
  · refine hsame (fun q hq => ?_) (fun j => ?_)
    · obtain hq | hq := List.mem_append.mp hq
      · exact h.packet q hq
      · rw [List.mem_pair] at hq
        obtain rfl | rfl := hq
        · trivial
        · exact ⟨by omega, .inr ⟨by omega, rfl⟩, fun hf => by omega⟩
    · rw [List.countP_append]
      have hk : ¬ 2 + rand % (mbits - 2) = 1 := by omega
      simp [isToken, hk]

end

theorem step_good (h : Inv s) (ev : Event E) : Good (step s ev) := by
  cases ev with
  | start e rand initial =>
    rw [step]
    split
    · next hcond => exact h.start hcond.1 hcond.2
    · exact h
  | deliver i rand =>
    rw [step]
    split
    · exact h
    next e m hi =>
    split
    · exact h.send (fun p hp => h.rest hp) (fun j => (List.eraseIdx_sublist _ _).countP_le)
    next c he =>
    cases m with
    | findSuccessor id sender hops payload => exact good_find h he hi
    | gotSuccessor n hops payload => exact good_got h he hi
    | insert predecessor n => exact good_insert h he hi
    | setNext n o => exact good_setNext h he hi
    | getSucclist sender => exact good_getSucclist h he hi
    | replySucclist sender successors => exact good_replySucclist h he hi
  | stabilize e rand =>
    rw [step]
    split
    · exact h
    next c he => exact good_stabilize h he

theorem first_inv (e : E) (rand : Nat) : Inv (first e rand) := by
  have hnode : ∀ {x y}, (first e rand).node x = some y →
      x = e ∧ y = (chordJoin (fresh e rand none)).1 := by
    intro x y hxy
    by_cases hxe : x = e
    · subst hxe
      simp only [first, Function.update_self, Option.some_inj] at hxy
      exact ⟨rfl, hxy.symm⟩
    · simp [first, Function.update_of_ne hxe] at hxy
  have hacc : ∀ {x}, x ∈ (first e rand).accepted → x = e := fun hx => List.mem_singleton.mp hx
  have hknown : Known (first e rand) (chordJoin (fresh e rand none)).1.successor := by
    refine ⟨e, ?_, List.mem_singleton_self e, ?_⟩
    · simp [chordJoin, fresh, Chord.clearTables, Chord.self]
    · simp [first, State.ident, chordJoin, fresh, Chord.clearTables, Chord.self, Chord.setSuccessor,
        Chord.setFinger, Chord.successor]
  refine ⟨fun hx => ?_, fun hx hxacc => ?_, fun {x} hx => ?_, fun ha hb _ => ?_, fun hx k => ?_,
    fun _ hx => ?_, fun ha hx hb hk => ?_, fun p hp => absurd hp List.not_mem_nil, fun j => ?_⟩
  · obtain ⟨rfl, rfl⟩ := hnode hx
    rfl
  · obtain ⟨rfl, rfl⟩ := hnode hx
    exact absurd (List.mem_singleton_self _) hxacc
  · obtain rfl := hacc hx
    exact ⟨(chordJoin (fresh x rand none)).1, by simp [first]⟩
  · rw [hacc ha, hacc hb]
  · obtain ⟨rfl, rfl⟩ := hnode hx
    by_cases hk : k = 1
    · subst hk
      exact .inr hknown
    · refine .inl ?_
      simp [chordJoin, fresh, Chord.clearTables, Chord.setSuccessor, Chord.setFinger,
        Function.update_of_ne hk, Chordnode.null]
  · obtain ⟨rfl, rfl⟩ := hnode hx
    exact hknown
  · obtain ⟨rfl, rfl⟩ := hnode hx
    obtain rfl := hacc hb
    rw [ident_of_node hx] at hk
    cases hk
    exact not_inrangeOpen_left
  · by_cases hj : j = e
    · subst hj
      simp [first]
    · simp [first, hj]

/-! ## Runs -/

/-- The states that the nodes can be in, before an assertion fails. -/
inductive Reachable : State E → Prop
  | first (e : E) (rand : Nat) : Reachable (first e rand)
  | step {s s' : State E} {ev : Event E} : Reachable s → step s ev = .ok s' → Reachable s'

theorem Reachable.inv (h : Reachable s) : Inv s := by
  induction h with
  | first e rand => exact first_inv e rand
  | @step s s' ev _ hstep ih =>
    have hgood := step_good ih ev
    rw [hstep] at hgood
    exact hgood

def run (s : State E) : List (Event E) → Except Assertion (State E)
  | [] => .ok s
  | ev :: evs =>
    match step s ev with
    | .ok s' => run s' evs
    | .error f => .error f

theorem reachable_of_run {evs : List (Event E)} (h : Reachable s) (hrun : run s evs = .ok s') :
    Reachable s' := by
  induction evs generalizing s with
  | nil =>
    cases hrun
    exact h
  | cons ev evs ih =>
    rw [run] at hrun
    split at hrun
    · next hstep => exact ih (h.step hstep) hrun
    · cases hrun

theorem reachable_of_run_error {f : Assertion} (h : Reachable s) (evs : List (Event E))
    (hrun : run s evs = .error f) :
    ∃ (s' : State E) (ev : Event E), Reachable s' ∧ step s' ev = .error f := by
  induction evs generalizing s with
  | nil => cases hrun
  | cons ev evs ih =>
    rw [run] at hrun
    split at hrun
    · next hstep => exact ih (h.step hstep) hrun
    · next hstep =>
      cases hrun
      exact ⟨s, ev, h, hstep⟩

/-- The accepted nodes in the order of their ids, each of which has the next one as successor, and
the last one the first. -/
def Ring (s : State E) (l : List E) : Prop :=
  (∀ e, e ∈ l ↔ e ∈ s.accepted) ∧
    l.Pairwise (fun a b => ∃ i k, s.ident a = some i ∧ s.ident b = some k ∧ i < k) ∧
    ∀ i a b, l[i]? = some a → l[(i + 1) % l.length]? = some b →
      ∃ n, s.succ a = some n ∧ n.epid = some b ∧ s.ident b = some n.id

def State.key (s : State E) (e : E) : Nat := (s.ident e).getD 0

theorem Inv.key (h : Inv s) {e : E} (he : e ∈ s.accepted) : s.ident e = some (s.key e) := by
  obtain ⟨c, hc⟩ := h.started he
  rw [State.key, ident_of_node hc]
  rfl

/-- The accepted nodes, sorted by id. -/
def State.sorted (s : State E) : List E :=
  s.accepted.dedup.mergeSort (fun a b => s.key a ≤ s.key b)

theorem mem_sorted {e : E} : e ∈ s.sorted ↔ e ∈ s.accepted := by
  rw [State.sorted, List.mem_mergeSort, List.mem_dedup]

theorem Inv.sorted_lt (h : Inv s) : s.sorted.Pairwise (fun a b => s.key a < s.key b) := by
  have hle : s.sorted.Pairwise (fun a b => s.key a ≤ s.key b) := by
    have hp : s.sorted.Pairwise (fun a b => decide (s.key a ≤ s.key b) = true) := by
      refine List.pairwise_mergeSort (fun a b c hab hbc => ?_) (fun a b => ?_) _
      · rw [decide_eq_true_iff] at hab hbc ⊢
        exact Nat.le_trans hab hbc
      · rw [Bool.or_eq_true, decide_eq_true_iff, decide_eq_true_iff]
        exact Nat.le_total _ _
    exact hp.imp (fun hab => of_decide_eq_true hab)
  have hnd : s.sorted.Nodup := (List.mergeSort_perm _ _).nodup_iff.mpr (List.nodup_dedup _)
  refine (hle.and hnd).imp_of_mem fun ha hb hab => ?_
  refine Nat.lt_of_le_of_ne hab.1 fun heq => hab.2 ?_
  refine h.distinct (mem_sorted.mp ha) (mem_sorted.mp hb) ?_
  rw [h.key (mem_sorted.mp ha), h.key (mem_sorted.mp hb), heq]

/-- The successor of an accepted node is accepted, with no other one between the two. -/
theorem Inv.next (h : Inv s) {a : E} (ha : a ∈ s.accepted) :
    ∃ n z, s.succ a = some n ∧ n.epid = some z ∧ s.ident z = some n.id ∧ z ∈ s.accepted ∧
      ∀ x ∈ s.accepted, ¬ inrangeOpen (s.key x) (s.key a) (s.key z) = true := by
  obtain ⟨c, hc⟩ := h.started ha
  obtain ⟨z, hz, hzacc, hzid⟩ := h.succ ha hc
  refine ⟨c.successor, z, succ_of_node hc, hz, hzid, hzacc, fun x hx => ?_⟩
  have hka : s.key a = c.id := by
    rw [State.key, ident_of_node hc]
    rfl
  have hkz : s.key z = c.successor.id := by
    rw [State.key, hzid]
    rfl
  rw [hka, hkz]
  exact h.gap ha hc hx (h.key hx)

theorem Inv.ring (h : Inv s) : Ring s s.sorted := by
  have hlt := h.sorted_lt
  refine ⟨fun e => mem_sorted, hlt.imp_of_mem fun ha hb hab => ?_, fun i a b ha hb => ?_⟩
  · exact ⟨_, _, h.key (mem_sorted.mp ha), h.key (mem_sorted.mp hb), hab⟩
  · have hacc := mem_sorted.mp (List.mem_of_getElem? ha)
    have hbcc := mem_sorted.mp (List.mem_of_getElem? hb)
    obtain ⟨n, z, hn, hz, hzid, hzacc, hgap⟩ := h.next hacc
    obtain ⟨k, hk⟩ := List.mem_iff_getElem?.mp (mem_sorted.mpr hzacc)
    have hmono : ∀ {i j : Nat} {a b}, s.sorted[i]? = some a → s.sorted[j]? = some b → i < j →
        s.key a < s.key b := by
      intro i j a b hi hj hij
      obtain ⟨hi', rfl⟩ := List.getElem?_eq_some_iff.mp hi
      obtain ⟨hj', rfl⟩ := List.getElem?_eq_some_iff.mp hj
      exact List.pairwise_iff_getElem.mp hlt i j hi' hj' hij
    have hik : i < s.sorted.length := (List.getElem?_eq_some_iff.mp ha).1
    have hkl : k < s.sorted.length := (List.getElem?_eq_some_iff.mp hk).1
    have hgapb := hgap b hbcc
    rw [inrangeOpen_iff] at hgapb
    -- the successor is at the place where the next one is
    have hplace : k = (i + 1) % s.sorted.length := by
      by_cases hi : i + 1 < s.sorted.length
      · rw [Nat.mod_eq_of_lt hi] at hb ⊢
        have hab := hmono ha hb (Nat.lt_succ_self i)
        by_contra hne
        obtain hki | hki | hki : k < i ∨ k = i ∨ i + 1 < k := by omega
        · have := hmono hk ha hki
          omega
        · subst hki
          rw [ha] at hk
          cases hk
          omega
        · have := hmono hb hk hki
          omega
      · have hil : i + 1 = s.sorted.length := by omega
        rw [hil, Nat.mod_self] at hb ⊢
        by_contra hne
        have hbk := hmono hb hk (Nat.pos_of_ne_zero hne)
        by_cases hki : k = i
        · subst hki
          rw [ha] at hk
          cases hk
          omega
        · have := hmono hk ha (by omega)
          omega
    rw [← hplace, hk] at hb
    cases hb
    exact ⟨n, hn, hz, hzid⟩

/-- In all reachable states the accepted nodes are one ring in the order of their ids, and the
assertions of `chord_set_next` hold of each message. -/
theorem ring_of_reachable (h : Reachable s) :
    (∃ l, Ring s l) ∧ ∀ ev, step s ev ≠ .error .setNext := by
  refine ⟨⟨s.sorted, h.inv.ring⟩, fun ev hev => ?_⟩
  have hgood := step_good h.inv ev
  rw [hev] at hgood
  obtain hf | hf := hgood <;> cases hf

/-- A second node joins. -/
theorem ring_of_reachable_two :
    ∃ s : State Nat, s.accepted = [1, 0] ∧ (∃ l, Ring s l) ∧ ∀ ev, step s ev ≠ .error .setNext := by
  obtain ⟨s, hrun, hacc⟩ : ∃ s, run (first 0 10)
      [.start 1 5 0, .deliver 0 0, .deliver 0 0, .deliver 0 0] = .ok s ∧ s.accepted = [1, 0] :=
    ⟨_, rfl, rfl⟩
  exact ⟨s, hacc, ring_of_reachable (reachable_of_run (.first 0 10) hrun)⟩

/-! ## The other assertions -/

/-- The packet is a query of `j` about a finger, or the answer to one. -/
def isQuery (j : E) : Packet E → Bool
  | (_, .findSuccessor _ sender _ payload) => payload ≠ 1 && sender = j
  | (d, .gotSuccessor _ _ _) => d = j
  | _ => false

/-- A joining node that has the id of an accepted node has no query of its own in flight. -/
def Calm (s : State E) : Prop :=
  ∀ j c, s.node j = some c → j ∉ s.accepted → ∀ a ∈ s.accepted, s.ident a = some c.id →
    ∀ p ∈ s.msgs, isQuery j p = false

/-- The states of runs in which all states before a step are calm. -/
inductive CalmReachable : State E → Prop
  | first (e : E) (rand : Nat) : CalmReachable (first e rand)
  | step {s s' : State E} {ev : Event E} :
    CalmReachable s → Calm s → step s ev = .ok s' → CalmReachable s'

theorem CalmReachable.reachable (h : CalmReachable s) : Reachable s := by
  induction h with
  | first e rand => exact .first e rand
  | step _ _ hstep ih => exact .step ih hstep

/-- A node that is asked has a successor. -/
def Ready (s : State E) : Prop :=
  ∀ d id sender hops payload, (d, .findSuccessor id sender hops payload) ∈ s.msgs →
    ∃ c, s.node d = some c ∧ c.successor.epid ≠ none

omit [DecidableEq E] in
theorem Known.epid_ne {n : Chordnode E} (h : Known s n) : n.epid ≠ none := by
  obtain ⟨e, he, -⟩ := h
  rw [he]
  exact Option.some_ne_none e

theorem Inv.ready_accepted (h : Inv s) {d : E} (hd : d ∈ s.accepted) :
    ∃ c, s.node d = some c ∧ c.successor.epid ≠ none := by
  obtain ⟨c, hc⟩ := h.started hd
  exact ⟨c, hc, (h.succ hd hc).epid_ne⟩

/-- Queries that are new go to accepted nodes or to the node itself, which keeps a successor. -/
theorem Ready.update {e : E} {c c' : Chord E} {l : List (Packet E)} {acc : List E} (h : Ready s)
    (he : s.node e = some c) (hinv : Inv ⟨Function.update s.node e (some c'), l, acc⟩)
    (hnew : ∀ d id sender hops payload, (d, .findSuccessor id sender hops payload) ∈ l →
      d ∈ acc ∨ (d, .findSuccessor id sender hops payload) ∈ s.msgs ∨
        (d = e ∧ c'.successor.epid ≠ none))
    (hkeep : ∀ id sender hops payload, (e, .findSuccessor id sender hops payload) ∈ s.msgs →
      (e, .findSuccessor id sender hops payload) ∈ l → e ∉ acc → c.successor.epid ≠ none →
      c'.successor.epid ≠ none) :
    Ready ⟨Function.update s.node e (some c'), l, acc⟩ := by
  intro d id sender hops payload hmem
  by_cases hacc : d ∈ acc
  · exact hinv.ready_accepted hacc
  obtain hd | hold | ⟨rfl, hne⟩ := hnew d id sender hops payload hmem
  · exact absurd hd hacc
  · obtain ⟨x, hx, hxne⟩ := h d id sender hops payload hold
    by_cases hde : d = e
    · subst hde
      rw [he] at hx
      cases hx
      exact ⟨c', Function.update_self _ _ _, hkeep id sender hops payload hold hmem hacc hxne⟩
    · exact ⟨x, (Function.update_of_ne hde _ _).trans hx, hxne⟩
  · exact ⟨c', Function.update_self _ _ _, hne⟩

omit [DecidableEq E] in
/-- The queries that are left, and those of the packets that are sent. -/
theorem mem_sent {i : Nat} {sent : List (Packet E)} {q : Packet E}
    (hq : q ∈ s.msgs.eraseIdx i ++ sent) : q ∈ s.msgs ∨ q ∈ sent :=
  (List.mem_append.mp hq).imp List.mem_of_mem_eraseIdx id

/-- The node keeps its successor and sends no query. -/
theorem Ready.reply {e : E} {c c' : Chord E} {i : Nat} {sent : List (Packet E)} (hr : Ready s)
    (he : s.node e = some c) (hsucc : c'.successor = c.successor)
    (hsent : ∀ d id sender hops payload, (d, .findSuccessor id sender hops payload) ∉ sent)
    (hinv : Inv ⟨Function.update s.node e (some c'), s.msgs.eraseIdx i ++ sent, s.accepted⟩) :
    Ready ⟨Function.update s.node e (some c'), s.msgs.eraseIdx i ++ sent, s.accepted⟩ := by
  refine hr.update he hinv (fun d id sender hops payload hmem => ?_)
    (fun _ _ _ _ _ _ _ hc => hsucc.symm ▸ hc)
  obtain hmem | hmem := mem_sent hmem
  · exact .inr (.inl hmem)
  · exact absurd hmem (hsent d id sender hops payload)

theorem Ready.find {e : E} {c : Chord E} {i id hops payload : Nat} {sender : E} (hr : Ready s)
    (h : Inv s) (he : s.node e = some c)
    (hstep : finish s e (s.msgs.eraseIdx i) [] (chordFindSuccessor c id sender hops payload) =
      .ok s') (hinv : Inv s') : Ready s' := by
  unfold chordFindSuccessor at hstep
  split at hstep
  · cases hstep
  next hnull =>
  have hne : c.successor.epid ≠ none := by
    intro hnone
    rw [Chordnode.isnull, hnone] at hnull
    exact hnull rfl
  split at hstep
  · split at hstep
    · cases hstep
      exact hr.reply he rfl (fun _ _ _ _ _ hmem => (nomatch List.mem_singleton.mp hmem)) hinv
    · cases hstep
      exact hr.reply he rfl (fun _ _ _ _ _ hmem => (nomatch List.mem_singleton.mp hmem)) hinv
  · obtain ⟨x, hclosest, hx⟩ := h.closest he id
    rw [hclosest, endpointSend] at hstep
    cases hstep
    refine hr.update he hinv (fun d id sender hops payload hmem => ?_) (fun _ _ _ _ _ _ _ hc => hc)
    obtain hmem | hmem := mem_sent hmem
    · exact .inr (.inl hmem)
    · cases List.mem_singleton.mp hmem
      obtain rfl | hacc := hx
      · exact .inr (.inr ⟨rfl, hne⟩)
      · exact .inl hacc

theorem Ready.got {e : E} {c : Chord E} {i hops payload : Nat} {n : Chordnode E} (hr : Ready s)
    (h : Inv s) (he : s.node e = some c)
    (hi : s.msgs[i]? = some (e, .gotSuccessor n hops payload))
    (hstep : finish s e (s.msgs.eraseIdx i) [] (chordGotSuccessor c n payload) = .ok s')
    (hinv : Inv s') : Ready s' := by
  obtain ⟨hp, -⟩ := h.packet _ (List.mem_of_getElem? hi)
  have hsucc : (c.setFinger payload n).successor = c.successor :=
    Function.update_of_ne (by omega) _ _
  unfold chordGotSuccessor at hstep
  split at hstep
  · cases hstep
    exact hr.reply he hsucc (fun _ _ _ _ _ => List.not_mem_nil) hinv
  · cases hstep

theorem Ready.insert {e : E} {c : Chord E} {i rand : Nat} {predecessor : Option E}
    {n : Chordnode E} (hr : Ready s) (hcalm : Calm s) (h : Inv s) (he : s.node e = some c)
    (hi : s.msgs[i]? = some (e, .insert predecessor n))
    (hstep : finish s e (s.msgs.eraseIdx i) [] (chordInsert c rand predecessor n) = .ok s')
    (hinv : Inv s') : Ready s' := by
  obtain ⟨heacc, p, ip, k, hpred, hpacc, hip, hk, hknown, hrange⟩ :=
    h.packet _ (List.mem_of_getElem? hi)
  unfold chordInsert at hstep
  split at hstep
  · next hid =>
    -- with no query of its own in flight, the node is not asked while it has no successor
    obtain ⟨initial, hinit, hci⟩ := h.join he heacc
    simp only [duplicateDetected, chordJoin, Chord.clearTables, hci, finish] at hstep
    cases hstep
    refine hr.update he hinv (fun d id sender hops payload hmem => ?_)
      (fun id sender hops payload hmem _ _ _ => ?_)
    · obtain hmem | hmem := mem_sent hmem
      · exact .inr (.inl hmem)
      · cases List.mem_singleton.mp hmem
        exact .inl hinit
    · obtain ⟨a, -, hacc, haid⟩ := hknown
      rw [hid] at haid
      have hq := hcalm e c he heacc a hacc haid _ hmem
      obtain ⟨-, hd, -⟩ := h.packet _ hmem
      obtain ⟨hp, rfl⟩ := hd.resolve_left heacc
      simp [isQuery, hp] at hq
  · subst hpred
    rw [endpointSend] at hstep
    cases hstep
    refine hr.update he hinv (fun d id sender hops payload hmem => ?_)
      (fun _ _ _ _ _ _ _ _ => ?_)
    · obtain hmem | hmem := mem_sent hmem
      · exact .inr (.inl hmem)
      · cases List.mem_singleton.mp hmem
    · rw [successor_setSuccessor]
      exact hknown.epid_ne

theorem Ready.setNext {e : E} {c : Chord E} {i : Nat} {n o : Chordnode E} (hr : Ready s)
    (h : Inv s) (he : s.node e = some c) (hi : s.msgs[i]? = some (e, .setNext n o))
    (hstep : finish s e (s.msgs.eraseIdx i) (newlyAccepted c (.setNext n o)) (chordSetNext c n o) =
      .ok s') (hinv : Inv s') : Ready s' := by
  obtain ⟨heacc, j, k, hj, -⟩ := h.packet _ (List.mem_of_getElem? hi)
  rw [newlyAccepted, chordSetNext] at hstep
  by_cases hmatch : o.epid = c.successor.epid
  · rw [if_neg (not_not.mpr hmatch), if_pos hmatch] at hstep
    split at hstep
    · cases hstep
    · cases hstep
      refine hr.update he hinv (fun d id sender hops payload hmem => ?_)
        (fun _ _ _ _ _ _ hf _ => absurd (List.mem_append_right _ heacc) hf)
      obtain hmem | hmem := mem_sent hmem
      · exact .inr (.inl hmem)
      · exact absurd hmem List.not_mem_nil
  · rw [if_neg hmatch, if_pos hmatch] at hstep
    split at hstep
    · cases hstep
    · rw [hj] at hstep
      split at hstep <;> cases hstep <;>
        exact hr.reply he rfl (fun _ _ _ _ _ hmem => (nomatch List.mem_singleton.mp hmem)) hinv

theorem Ready.stabilize {e : E} {c : Chord E} {rand : Nat} (hr : Ready s) (he : s.node e = some c)
    (h : Inv s) (hstep : finish s e s.msgs [] (chordStabilize c rand) = .ok s') (hinv : Inv s') :
    Ready s' := by
  unfold chordStabilize at hstep
  dsimp only at hstep
  split at hstep
  · cases hstep
    refine hr.update he hinv (fun d id sender hops payload hmem => ?_) (fun _ _ _ _ _ _ _ hc => hc)
    rw [List.append_nil] at hmem
    exact .inr (.inl hmem)
  · next x hx =>
    cases hstep
    refine hr.update he hinv (fun d id sender hops payload hmem => ?_) (fun _ _ _ _ _ _ _ hc => hc)
    obtain hmem | hmem := List.mem_append.mp hmem
    · exact .inr (.inl hmem)
    · rw [List.mem_pair] at hmem
      obtain hmem | hmem := hmem
      · cases hmem
      · cases hmem
        exact .inr (.inr ⟨h.epid he, by rw [hx]; exact Option.some_ne_none x⟩)

theorem step_ready {ev : Event E} (h : Inv s) (hcalm : Calm s) (hr : Ready s)
    (hstep : step s ev = .ok s') : Ready s' := by
  have hinv : Inv s' := by
    have hgood := step_good h ev
    rw [hstep] at hgood
    exact hgood
  cases ev with
  | start e rand initial =>
    rw [step] at hstep
    split at hstep
    · next hcond =>
      cases hstep
      intro d id sender hops payload hmem
      obtain hmem | hmem := List.mem_append.mp hmem
      · obtain ⟨c, hc, hne⟩ := hr d id sender hops payload hmem
        have hde : d ≠ e := by
          rintro rfl
          rw [hcond.1] at hc
          cases hc
        exact ⟨c, (Function.update_of_ne hde _ _).trans hc, hne⟩
      · cases List.mem_singleton.mp hmem
        exact hinv.ready_accepted hcond.2
    · cases hstep
      exact hr
  | deliver i rand =>
    rw [step] at hstep
    split at hstep
    · cases hstep
      exact hr
    next e m hi =>
    split at hstep
    · cases hstep
      exact fun d id sender hops payload hmem =>
        hr d id sender hops payload (List.mem_of_mem_eraseIdx hmem)
    next c he =>
    cases m with
    | findSuccessor id sender hops payload => exact hr.find h he hstep hinv
    | gotSuccessor n hops payload => exact hr.got h he hi hstep hinv
    | insert predecessor n => exact hr.insert hcalm h he hi hstep hinv
    | setNext n o => exact hr.setNext h he hi hstep hinv
    | getSucclist sender =>
      cases hstep
      exact hr.reply he rfl (fun _ _ _ _ _ hmem => (nomatch List.mem_singleton.mp hmem)) hinv
    | replySucclist sender successors =>
      rw [handle, chordReplySucclist] at hstep
      split at hstep <;> cases hstep <;>
        exact hr.reply he rfl (fun _ _ _ _ _ => List.not_mem_nil) hinv
  | stabilize e rand =>
    rw [step] at hstep
    split at hstep
    · cases hstep
      exact hr
    next c he => exact hr.stabilize he h hstep hinv

theorem CalmReachable.ready (h : CalmReachable s) : Ready s := by
  induction h with
  | first e rand => exact fun _ _ _ _ _ hmem => absurd hmem List.not_mem_nil
  | step hrun hcalm hstep ih => exact step_ready hrun.reachable.inv hcalm ih hstep

theorem handle_ok_of_ready {e : E} {c : Chord E} {m : Msg E} (rand : Nat) (h : Inv s)
    (hcalm : Calm s) (hr : Ready s) (he : s.node e = some c) (hm : (e, m) ∈ s.msgs) :
    handle c rand m ≠ .error .findSuccessor ∧ handle c rand m ≠ .error .gotSuccessor := by
  have hsend : ∀ (c : Chord E) (d : Option E) (m : Msg E),
      endpointSend c d m ≠ .error .findSuccessor ∧ endpointSend c d m ≠ .error .gotSuccessor := by
    intro c d m
    cases d <;> simp [endpointSend]
  cases m with
  | findSuccessor id sender hops payload =>
    obtain ⟨x, hx, hne⟩ := hr e id sender hops payload hm
    rw [he] at hx
    cases hx
    have hnull : ¬ c.successor.isnull = true := by
      rw [Chordnode.isnull, Option.isNone_iff_eq_none]
      exact hne
    rw [handle, chordFindSuccessor, if_neg hnull]
    split
    · split <;> exact ⟨fun hf => (nomatch hf), fun hf => (nomatch hf)⟩
    · exact hsend _ _ _
  | gotSuccessor n hops payload =>
    obtain ⟨hp, hknown⟩ := h.packet _ hm
    have hnull : n.isnull = false := by
      rw [Chordnode.isnull, ← Bool.not_eq_true, Option.isNone_iff_eq_none]
      exact hknown.epid_ne
    have hself : n.id ≠ c.id ∨ n.epid = some c.epid := by
      by_cases hid : n.id = c.id
      · -- an accepted node is known by its id, and a joining one has no answer to get
        obtain ⟨a, ha, hacc, haid⟩ := hknown
        rw [hid] at haid
        by_cases heacc : e ∈ s.accepted
        · rw [ha, h.epid he, h.distinct hacc heacc (haid.trans (ident_of_node he).symm)]
          exact .inr rfl
        · have hq := hcalm e c he heacc a hacc haid _ hm
          simp [isQuery] at hq
      · exact .inl hid
    rw [handle, chordGotSuccessor, if_pos ⟨hp, hnull, hself⟩]
    exact ⟨fun hf => (nomatch hf), fun hf => (nomatch hf)⟩
  | insert predecessor n =>
    rw [handle, chordInsert]
    split
    · exact ⟨fun hf => (nomatch hf), fun hf => (nomatch hf)⟩
    · exact hsend _ _ _
  | setNext n o =>
    rw [handle, chordSetNext]
    split
    · split
      · exact ⟨fun hf => (nomatch hf), fun hf => (nomatch hf)⟩
      · split <;> exact hsend _ _ _
    · split <;> exact ⟨fun hf => (nomatch hf), fun hf => (nomatch hf)⟩
  | getSucclist sender => exact ⟨fun hf => (nomatch hf), fun hf => (nomatch hf)⟩
  | replySucclist sender successors =>
    rw [handle, chordReplySucclist]
    split <;> exact ⟨fun hf => (nomatch hf), fun hf => (nomatch hf)⟩

theorem finish_error {e : E} {rest : List (Packet E)} {acc : List E} {r : Handler E}
    {f : Assertion} (h : finish s e rest acc r = .error f) : r = .error f := by
  cases r with
  | error g =>
    cases h
    rfl
  | ok x => cases h

/-- As long as no joining node with the id of an accepted one has a query of its own in flight, all
assertions hold. -/
theorem asserts_of_calm (h : CalmReachable s) (hcalm : Calm s) (ev : Event E) (f : Assertion) :
    step s ev ≠ .error f := by
  intro hstep
  have hinv := h.reachable.inv
  have hf : f = .findSuccessor ∨ f = .gotSuccessor := by
    have hgood := step_good hinv ev
    rw [hstep] at hgood
    exact hgood
  cases ev with
  | start e rand initial =>
    rw [step] at hstep
    split at hstep <;> cases hstep
  | deliver i rand =>
    rw [step] at hstep
    split at hstep
    · cases hstep
    next e m hi =>
    split at hstep
    · cases hstep
    next c he =>
    obtain ⟨hfind, hgot⟩ :=
      handle_ok_of_ready rand hinv hcalm h.ready he (List.mem_of_getElem? hi)
    obtain rfl | rfl := hf
    · exact hfind (finish_error hstep)
    · exact hgot (finish_error hstep)
  | stabilize e rand =>
    rw [step] at hstep
    split at hstep
    · cases hstep
    next c he =>
    have herror := finish_error hstep
    unfold chordStabilize at herror
    dsimp only at herror
    split at herror <;> cases herror

/-- `Calm`, one packet after the other. -/
def State.calm (s : State E) : Bool :=
  s.msgs.all fun p => match p with
    | (_, .findSuccessor _ sender _ payload) => payload = 1 || settled sender
    | (d, .gotSuccessor _ _ _) => settled d
    | _ => true
where
  settled (j : E) : Bool :=
    j ∈ s.accepted || (s.node j).all fun c => s.accepted.all fun a => s.ident a ≠ some c.id

theorem calm_of_calm (h : s.calm = true) : Calm s := by
  intro j c hj hacc a ha hid p hp
  have hsettled : State.calm.settled s j = false := by
    simp only [State.calm.settled, Bool.or_eq_false_iff, decide_eq_false hacc, hj, Option.all_some,
      true_and]
    exact List.all_eq_false.mpr ⟨a, ha, by simp [hid]⟩
  have hpacket := List.all_eq_true.mp h p hp
  obtain ⟨d, m⟩ := p
  cases m with
  | findSuccessor id sender hops payload =>
    by_contra hq
    simp only [isQuery, Bool.not_eq_false, Bool.and_eq_true, decide_eq_true_eq] at hq
    obtain ⟨hpay, rfl⟩ := hq
    simp [hsettled, hpay] at hpacket
  | gotSuccessor successor hops payload =>
    by_contra hq
    simp only [isQuery, Bool.not_eq_false, decide_eq_true_eq] at hq
    subst hq
    simp [hsettled] at hpacket
  | _ => rfl

/-- A run, where each state is calm. -/
def calmRun (s : State E) : List (Event E) → Option (State E)
  | [] => if s.calm then some s else none
  | ev :: evs =>
    if s.calm then
      match step s ev with
      | .ok s' => calmRun s' evs
      | .error _ => none
    else none

theorem calmReachable_of_calmRun {s' : State E} {evs : List (Event E)} (h : CalmReachable s)
    (hrun : calmRun s evs = some s') : CalmReachable s' ∧ Calm s' := by
  induction evs generalizing s with
  | nil =>
    rw [calmRun, Option.ite_none_right_eq_some] at hrun
    obtain ⟨hcalm, hs⟩ := hrun
    cases hs
    exact ⟨h, calm_of_calm hcalm⟩
  | cons ev evs ih =>
    rw [calmRun, Option.ite_none_right_eq_some] at hrun
    obtain ⟨hcalm, hrest⟩ := hrun
    split at hrest
    · next s₁ hs₁ => exact ih (.step h (calm_of_calm hcalm) hs₁) hrest
    · cases hrest

end

/-- Nodes 1 and 2 choose the same id, and node 1 is accepted first. -/
def sameId : List (Event Nat) :=
  [.start 1 5 0, .start 2 5 0, .deliver 0 0, .deliver 0 0, .deliver 0 0, .deliver 1 0]

/-- The accepted nodes look for fingers. Node 2 finds that its id is taken, and joins with another
one. -/
def otherId : List (Event Nat) :=
  [.stabilize 0 3, .stabilize 1 8] ++ List.replicate 16 (.deliver 0 7)

theorem asserts_of_calm_sameId : ∃ s s' : State Nat,
    calmRun (first 0 10) sameId = some s ∧
    (s.accepted, s.ident 1, s.ident 2) = ([1, 0], some 5, some 5) ∧
    calmRun s otherId = some s' ∧
    (s'.accepted, s'.ident 1, s'.ident 2) = ([2, 1, 0], some 5, some 7) ∧
    (∀ ev f, step s ev ≠ .error f) ∧ ∀ ev f, step s' ev ≠ .error f := by
  have hsame : (calmRun (first 0 10) sameId).map (fun s => (s.accepted, s.ident 1, s.ident 2)) =
      some ([1, 0], some 5, some 5) := by
    decide +kernel
  obtain ⟨s, hs, hids⟩ := Option.map_eq_some_iff.mp hsame
  have hother : ((calmRun (first 0 10) sameId).bind (calmRun · otherId)).map
      (fun s => (s.accepted, s.ident 1, s.ident 2)) = some ([2, 1, 0], some 5, some 7) := by
    decide +kernel
  rw [hs, Option.bind_some] at hother
  obtain ⟨s', hs', hids'⟩ := Option.map_eq_some_iff.mp hother
  obtain ⟨hreach, hcalm⟩ := calmReachable_of_calmRun (.first 0 10) hs
  obtain ⟨hreach', hcalm'⟩ := calmReachable_of_calmRun hreach hs'
  exact ⟨s, s', hs, hids, hs', hids', fun ev f => asserts_of_calm hreach hcalm ev f,
    fun ev f => asserts_of_calm hreach' hcalm' ev f⟩

/-- Nodes 1 and 2 join with the same id, and node 2 is accepted first. Node 1 has a successor, and
queries, when it finds out: it then is asked by itself with no successor, or told of node 2 with the
id that it takes. Messages from one node to another stay in order. -/
theorem asserts_of_clash :
    (∃ (s : State Nat) (ev : Event Nat), Reachable s ∧ step s ev = .error .findSuccessor) ∧
      ∃ (s : State Nat) (ev : Event Nat), Reachable s ∧ step s ev = .error .gotSuccessor := by
  constructor
  · exact reachable_of_run_error (.first 0 10) [.start 1 5 0, .start 2 5 0, .deliver 0 0,
      .deliver 0 0, .deliver 1 0, .deliver 1 0, .deliver 0 0, .deliver 0 0, .stabilize 1 0,
      .deliver 0 100, .deliver 1 0] rfl
  · exact reachable_of_run_error (.first 0 10) [.start 1 5 0, .start 2 5 0, .deliver 0 0,
      .deliver 0 0, .deliver 1 0, .deliver 1 0, .deliver 0 0, .stabilize 1 5, .deliver 2 0,
      .deliver 0 0, .deliver 0 0, .deliver 0 0, .deliver 0 5, .deliver 0 0, .deliver 0 0] rfl

end Chord
end Runtime
end NReduce
