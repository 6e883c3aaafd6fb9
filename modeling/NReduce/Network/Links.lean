import Mathlib.Data.List.Basic
import Mathlib.Data.List.Nodup
import Mathlib.Logic.Function.Basic
import Mathlib.Logic.Relation

/-!
# NReduce.Network.Links

Links between endpoints (`node.c`). An endpoint that has a link to another one is told when the
other one exits. LINK, UNLINK and ENDPOINT_EXIT messages cross on the way between two nodes; on one
node they are handled at once.

* `State`, `step`: endpoints on any number of nodes. No endpoint is added during a run: one that is
  started later can be there from the start, as nobody has its id before.
* `View`: what concerns the link from one endpoint to another. A step of the system is some steps of
  `View.Step` for each pair (`step_view`), so the invariant is about one pair.
* `link_notice`: a link leads to a notice in all reachable states, and an endpoint without a link
  gets no notice but those that are in flight when its last message about the link has been handled.
-/

namespace NReduce
namespace Network
namespace Links

/-- The endpoint that a message names is its source. -/
inductive Msg where
  | link
  | unlink
  | exit
  deriving DecidableEq

/-! ## One pair -/

/-- The link from `a` to `b`. -/
structure View where
  /-- `a` and `b` are live -/
  la : Bool
  lb : Bool
  /-- `b` is in the outlinks of `a` -/
  out : Bool
  /-- how often `a` is in the inlinks of `b` -/
  cnt : Nat
  /-- in flight from `a` to `b`, and back -/
  q : List Msg
  r : List Msg
  /-- the notices about `b` that `a` has got -/
  got : Nat
  deriving DecidableEq

namespace View

/-- `b` gets a message of `a`. -/
def takeQ (v : View) : Msg → View
  | .link => if v.lb then { v with cnt := v.cnt + 1 } else { v with r := v.r ++ [.exit] }
  | .unlink => if v.lb then { v with cnt := v.cnt - 1 } else v
  | .exit => if v.lb then { v with cnt := v.cnt - 1 } else v

/-- `a` gets a message of `b`. -/
def takeR (v : View) : Msg → View
  | .link => if v.la then v else { v with q := v.q ++ [.exit] }
  | .unlink => v
  | .exit => if v.la then { v with out := false, got := v.got + 1 } else v

/-- `a` links to `b`. -/
def link (v : View) : View :=
  if v.out then v else { v with out := true, q := v.q ++ [.link] }

inductive Step : View → View → Prop
  | unlink {v : View} : v.la = true → Step v { v with out := false, q := v.q ++ [.unlink] }
  | exitA {v : View} (n : Nat) :
    Step v { v with la := false, out := false, got := 0, q := v.q ++ List.replicate n .exit }
  | exitB {v : View} :
    Step v { v with lb := false, cnt := 0, r := v.r ++ List.replicate v.cnt .exit }
  | takeQ {v : View} {m : Msg} {q : List Msg} : v.q = m :: q → Step v ({ v with q := q }.takeQ m)
  | takeR {v : View} {m : Msg} {r : List Msg} : v.r = m :: r → Step v ({ v with r := r }.takeR m)
  | sendR {v : View} {m : Msg} : m ≠ .exit → Step v { v with r := v.r ++ [m] }

/-- How often `a` is in the inlinks of `b` when the messages `q` have arrived. -/
def arrive : List Msg → Nat → Nat
  | [], n => n
  | .link :: q, n => arrive q (n + 1)
  | .unlink :: q, n => arrive q (n - 1)
  | .exit :: q, n => arrive q (n - 1)

theorem arrive_append (q q' : List Msg) (n : Nat) :
    arrive (q ++ q') n = arrive q' (arrive q n) := by
  induction q generalizing n with
  | nil => rfl
  | cons m q ih => cases m <;> exact ih _

structure Inv (v : View) : Prop where
  /-- a notice is sent by an endpoint that has gone -/
  exit_q : .exit ∈ v.q → v.la = false
  exit_r : .exit ∈ v.r → v.lb = false
  /-- when all has arrived, the inlinks are as the outlinks -/
  count : v.la = true → v.lb = true → arrive v.q v.cnt = if v.out then 1 else 0
  /-- the last message about a link is LINK -/
  last : v.la = true → v.out = true → v.q = [] ∨ v.q.getLast? = some .link
  /-- an endpoint that has gone has no inlinks -/
  dead : v.lb = false → v.cnt = 0
  /-- a link to an endpoint that has gone -/
  gone : v.la = true → v.lb = false → v.out = true → .exit ∈ v.r ∨ v.q.getLast? = some .link

variable {v v' : View}

theorem Inv.link (h : Inv v) (hla : v.la = true) : Inv v.link := by
  unfold View.link
  cases hout : v.out with
  | true => exact h
  | false =>
    have hlast : (v.q ++ [Msg.link]).getLast? = some .link := List.getLast?_concat
    refine ⟨fun hmem => ?_, h.exit_r, fun _ hlb => ?_, fun _ _ => .inr hlast, h.dead,
      fun _ _ _ => .inr hlast⟩
    · obtain hmem | hmem := List.mem_append.mp hmem
      · exact h.exit_q hmem
      · cases List.mem_singleton.mp hmem
    · have hcount := h.count hla hlb
      rw [hout] at hcount
      simp only [Bool.false_eq_true, if_false] at hcount ⊢
      rw [arrive_append, hcount]
      rfl

/-- The rest of the messages ends as all of them do. -/
theorem last_tail {m : Msg} {q : List Msg} (h : (m :: q).getLast? = some .link) :
    q = [] ∨ q.getLast? = some .link := by
  cases q with
  | nil => exact .inl rfl
  | cons m' q =>
    rw [List.getLast?_cons_cons] at h
    exact .inr h

theorem Inv.takeQ {m : Msg} {q : List Msg} (h : Inv v) (hq : v.q = m :: q) :
    Inv ({ v with q := q }.takeQ m) := by
  have hexit : .exit ∈ q → v.la = false :=
    fun hmem => h.exit_q (by rw [hq]; exact List.mem_cons_of_mem m hmem)
  have hlast : v.la = true → v.out = true → q = [] ∨ q.getLast? = some .link := by
    intro hla hout
    have hl := h.last hla hout
    rw [hq] at hl
    obtain hl | hl := hl
    · cases hl
    · exact last_tail hl
  have hcount := h.count
  have hgone := h.gone
  rw [hq] at hcount hgone
  -- with no link among the rest, the message was the last one
  have hrest : m ≠ .link → v.la = true → v.lb = false → v.out = true →
      .exit ∈ v.r ∨ q.getLast? = some .link := by
    intro hm hla hlb hout
    obtain hr | hl := hgone hla hlb hout
    · exact .inl hr
    · cases q with
      | nil => exact absurd (Option.some.inj hl) hm
      | cons m' q => exact .inr (by rwa [List.getLast?_cons_cons] at hl)
  have hr := h.exit_r
  cases hlb : v.lb with
  | true =>
    rw [hlb] at hr
    cases m with
    | link =>
      exact ⟨hexit, hr, fun hla _ => hcount hla hlb, hlast, fun hf => (nomatch hf),
        fun _ hf => (nomatch hf)⟩
    | unlink =>
      exact ⟨hexit, hr, fun hla _ => hcount hla hlb, hlast, fun hf => (nomatch hf),
        fun _ hf => (nomatch hf)⟩
    | exit =>
      exact ⟨hexit, hr, fun hla _ => hcount hla hlb, hlast, fun hf => (nomatch hf),
        fun _ hf => (nomatch hf)⟩
  | false =>
    have hdead : v.cnt = 0 := h.dead hlb
    cases m with
    | link =>
      exact ⟨hexit, fun _ => rfl, fun _ hf => (nomatch hf), hlast, fun _ => hdead,
        fun _ _ _ => .inl (List.mem_append_right _ (List.mem_singleton_self _))⟩
    | unlink =>
      exact ⟨hexit, fun _ => rfl, fun _ hf => (nomatch hf), hlast, fun _ => hdead,
        fun hla _ => hrest (by decide) hla hlb⟩
    | exit =>
      exact ⟨hexit, fun _ => rfl, fun _ hf => (nomatch hf), hlast, fun _ => hdead,
        fun hla _ => hrest (by decide) hla hlb⟩

theorem Inv.takeR {m : Msg} {r : List Msg} (h : Inv v) (hr : v.r = m :: r) :
    Inv ({ v with r := r }.takeR m) := by
  have hexit : .exit ∈ r → v.lb = false :=
    fun hmem => h.exit_r (by rw [hr]; exact List.mem_cons_of_mem m hmem)
  have hgone := h.gone
  have hq := h.exit_q
  have hcount := h.count
  have hlast := h.last
  rw [hr] at hgone
  -- what is taken is not the notice
  have hrest : m ≠ .exit → v.la = true → v.lb = false → v.out = true →
      .exit ∈ r ∨ v.q.getLast? = some .link := by
    intro hm hla hlb hout
    obtain hmem | hl := hgone hla hlb hout
    · exact .inl ((List.mem_cons.mp hmem).resolve_left (Ne.symm hm))
    · exact .inr hl
  cases hla : v.la with
  | true =>
    rw [hla] at hq
    cases m with
    | link =>
      exact ⟨hq, hexit, fun _ => hcount hla, fun _ => hlast hla, h.dead,
        fun _ => hrest (by decide) hla⟩
    | unlink =>
      exact ⟨hq, hexit, fun _ => hcount hla, fun _ => hlast hla, h.dead,
        fun _ => hrest (by decide) hla⟩
    | exit =>
      have hlb : v.lb = false := h.exit_r (by rw [hr]; exact List.mem_cons_self)
      exact ⟨hq, hexit, fun _ hf => (nomatch hlb.symm.trans hf), fun _ hf => (nomatch hf),
        h.dead, fun _ _ hf => (nomatch hf)⟩
  | false =>
    cases m with
    | link =>
      exact ⟨fun _ => rfl, hexit, fun hf => (nomatch hf), fun hf => (nomatch hf), h.dead,
        fun hf => (nomatch hf)⟩
    | unlink =>
      exact ⟨fun _ => rfl, hexit, fun hf => (nomatch hf), fun hf => (nomatch hf), h.dead,
        fun hf => (nomatch hf)⟩
    | exit =>
      exact ⟨fun _ => rfl, hexit, fun hf => (nomatch hf), fun hf => (nomatch hf), h.dead,
        fun hf => (nomatch hf)⟩

theorem Inv.step (h : Inv v) (hs : Step v v') : Inv v' := by
  cases hs with
  | unlink hla =>
    refine ⟨fun hmem => ?_, h.exit_r, fun _ hlb => ?_, fun _ hf => (nomatch hf), h.dead,
      fun _ _ hf => (nomatch hf)⟩
    · obtain hmem | hmem := List.mem_append.mp hmem
      · exact h.exit_q hmem
      · cases List.mem_singleton.mp hmem
    · have hcount : arrive v.q v.cnt ≤ 1 := by
        rw [h.count hla hlb]
        cases v.out <;> decide
      dsimp only
      rw [arrive_append]
      exact Nat.sub_eq_zero_of_le hcount
  | exitA n =>
    exact ⟨fun _ => rfl, h.exit_r, fun hf => (nomatch hf), fun hf => (nomatch hf), h.dead,
      fun hf => (nomatch hf)⟩
  | exitB =>
    refine ⟨h.exit_q, fun _ => rfl, fun _ hf => (nomatch hf), h.last, fun _ => rfl,
      fun hla _ hout => ?_⟩
    cases hlb : v.lb with
    | false =>
      obtain hr | hq := h.gone hla hlb hout
      · exact .inl (List.mem_append_left _ hr)
      · exact .inr hq
    | true =>
      -- a link that has arrived is answered now, any other is the last in flight
      obtain hq | hq := h.last hla hout
      · have hcnt : v.cnt = 1 := by
          have hcount := h.count hla hlb
          rw [hq, hout] at hcount
          exact hcount
        refine .inl (List.mem_append_right _ ?_)
        rw [hcnt]
        exact List.mem_singleton_self _
      · exact .inr hq
  | takeQ hq => exact h.takeQ hq
  | takeR hr => exact h.takeR hr
  | sendR hm =>
    refine ⟨h.exit_q, fun hmem => ?_, h.count, h.last, h.dead, fun hla hlb hout => ?_⟩
    · obtain hmem | hmem := List.mem_append.mp hmem
      · exact h.exit_r hmem
      · exact absurd (List.mem_singleton.mp hmem) (Ne.symm hm)
    · obtain hr | hq := h.gone hla hlb hout
      · exact .inl (List.mem_append_left _ hr)
      · exact .inr hq

abbrev Steps : View → View → Prop := Relation.ReflTransGen Step

theorem Inv.steps (h : Inv v) (hs : Steps v v') : Inv v' := by
  induction hs with
  | refl => exact h
  | tail _ hstep ih => exact ih.step hstep

/-- The notices that `a` can still get, and those that it has got. -/
def weight (v : View) : Nat := v.got + v.r.count .exit + v.q.count .link + v.cnt

theorem weight_takeQ (v : View) (m : Msg) :
    (v.takeQ m).weight ≤ { v with q := m :: v.q }.weight ∧ (v.takeQ m).out = v.out := by
  cases m with
  | link =>
    cases hlb : v.lb with
    | true =>
      simp only [View.takeQ, hlb, if_true, weight, List.count_cons_self]
      exact ⟨by omega, trivial⟩
    | false =>
      simp only [View.takeQ, hlb, Bool.false_eq_true, if_false, weight, List.count_cons_self,
        List.count_append, List.count_nil]
      exact ⟨by omega, trivial⟩
  | unlink =>
    have hc : (Msg.unlink :: v.q).count .link = v.q.count .link := rfl
    cases hlb : v.lb with
    | true =>
      simp only [View.takeQ, hlb, if_true, weight, hc]
      exact ⟨by omega, trivial⟩
    | false =>
      simp only [View.takeQ, hlb, Bool.false_eq_true, if_false, weight, hc]
      exact ⟨Nat.le_refl _, trivial⟩
  | exit =>
    have hc : (Msg.exit :: v.q).count .link = v.q.count .link := rfl
    cases hlb : v.lb with
    | true =>
      simp only [View.takeQ, hlb, if_true, weight, hc]
      exact ⟨by omega, trivial⟩
    | false =>
      simp only [View.takeQ, hlb, Bool.false_eq_true, if_false, weight, hc]
      exact ⟨Nat.le_refl _, trivial⟩

theorem weight_takeR (v : View) (m : Msg) :
    (v.takeR m).weight ≤ { v with r := m :: v.r }.weight ∧
      (v.out = false → (v.takeR m).out = false) := by
  cases m with
  | link =>
    have hc : (Msg.link :: v.r).count .exit = v.r.count .exit := rfl
    cases hla : v.la with
    | true =>
      simp only [View.takeR, hla, if_true, weight, hc]
      exact ⟨Nat.le_refl _, id⟩
    | false =>
      simp only [View.takeR, hla, Bool.false_eq_true, if_false, weight, hc, List.count_append]
      exact ⟨Nat.le_refl _, id⟩
  | unlink => exact ⟨Nat.le_refl _, id⟩
  | exit =>
    cases hla : v.la with
    | true =>
      simp only [View.takeR, hla, if_true, weight, List.count_cons_self]
      exact ⟨by omega, fun _ => trivial⟩
    | false =>
      simp only [View.takeR, hla, Bool.false_eq_true, if_false, weight, List.count_cons_self]
      exact ⟨by omega, id⟩

/-- No step adds a notice or a link. -/
theorem Step.weight_le (hs : Step v v') :
    v'.weight ≤ v.weight ∧ (v.out = false → v'.out = false) := by
  cases hs with
  | unlink hla =>
    refine ⟨?_, fun _ => rfl⟩
    simp [weight, List.count_append]
  | exitA n =>
    refine ⟨?_, fun _ => rfl⟩
    simp [weight, List.count_append, List.count_replicate]
  | exitB =>
    refine ⟨?_, id⟩
    simp only [weight, List.count_append, List.count_replicate_self]
    omega
  | @takeQ m q hq =>
    have h := weight_takeQ { v with q := q } m
    dsimp only at h
    rw [← hq] at h
    exact ⟨h.1, fun hout => h.2.trans hout⟩
  | @takeR m r hr =>
    have h := weight_takeR { v with r := r } m
    dsimp only at h
    rw [← hr] at h
    exact h
  | @sendR m hm =>
    have hc : [m].count .exit = 0 := List.count_eq_zero.mpr (by simpa using Ne.symm hm)
    refine ⟨?_, id⟩
    simp only [weight, List.count_append, hc]
    exact Nat.le_refl _

theorem Steps.weight_le (hs : Steps v v') :
    v'.weight ≤ v.weight ∧ (v.out = false → v'.out = false) := by
  induction hs with
  | refl => exact ⟨Nat.le_refl _, id⟩
  | tail _ hstep ih =>
    exact ⟨Nat.le_trans hstep.weight_le.1 ih.1, fun hout => hstep.weight_le.2 (ih.2 hout)⟩

theorem got_le_weight (v : View) : v.got ≤ v.weight := by
  unfold weight
  omega

/-- With no link and no message about one in flight, only notices in flight are to come. -/
theorem Inv.weight_quiet (h : Inv v) (hla : v.la = true) (hout : v.out = false)
    (hl : .link ∉ v.q) (hu : .unlink ∉ v.q) : v.weight = v.got + v.r.count .exit := by
  have hq : v.q = [] := by
    refine List.eq_nil_iff_forall_not_mem.mpr fun m hm => ?_
    cases m with
    | link => exact hl hm
    | unlink => exact hu hm
    | exit => exact absurd (hla.symm.trans (h.exit_q hm)) (by decide)
  have hcnt : v.cnt = 0 := by
    cases hlb : v.lb with
    | true =>
      have hcount := h.count hla hlb
      rw [hq, hout] at hcount
      exact hcount
    | false => exact h.dead hlb
  rw [weight, hq, hcnt]
  rfl

theorem takeQ_exit (v : View) (l : List Msg) :
    { v.takeQ .exit with q := (v.takeQ .exit).q ++ l } = { v with q := v.q ++ l }.takeQ .exit := by
  cases hlb : v.lb <;> simp [View.takeQ, hlb]

theorem takeR_exit (v : View) (l : List Msg) :
    { v.takeR .exit with r := (v.takeR .exit).r ++ l } = { v with r := v.r ++ l }.takeR .exit := by
  cases hla : v.la <;> simp [View.takeR, hla]

end View

/-! ## The system -/

section

variable {E N : Type} [DecidableEq E] [DecidableEq N] (node : E → N)

structure State (E : Type) where
  /-- the endpoint is in the list of its node -/
  live : E → Bool
  inlinks : E → List E
  outlinks : E → List E
  /-- the endpoints that the ENDPOINT_EXIT messages name which have come to the mailbox -/
  mailbox : E → List E
  /-- in flight from one endpoint to another one -/
  channel : E → E → List Msg

/-- `endpoint_add_message` -/
def endpointAddMessage (s : State E) (source endpt : E) : Msg → State E
  | .link =>
    { s with inlinks := Function.update s.inlinks endpt (source :: s.inlinks endpt) }
  | .unlink =>
    { s with inlinks := Function.update s.inlinks endpt ((s.inlinks endpt).erase source) }
  | .exit =>
    { s with
      inlinks := Function.update s.inlinks endpt ((s.inlinks endpt).erase source)
      outlinks := Function.update s.outlinks endpt ((s.outlinks endpt).erase source)
      mailbox := Function.update s.mailbox endpt (s.mailbox endpt ++ [source]) }

/-- `got_message`, which answers a LINK to an endpoint that has gone. `nodeSend` sends the
answer. -/
def gotMessage (nodeSend : State E → E → E → Msg → State E) (s : State E) (source dest : E)
    (m : Msg) : State E :=
  if s.live dest then endpointAddMessage s source dest m
  else match m with
    | .link => nodeSend s dest source .exit
    | .unlink => s
    | .exit => s

def setChannel (s : State E) (source dest : E) (l : List Msg) : State E :=
  { s with
    channel := Function.update s.channel source (Function.update (s.channel source) dest l) }

def enqueue (s : State E) (source dest : E) (m : Msg) : State E :=
  setChannel s source dest (s.channel source dest ++ [m])

/-- `node_send_locked` for ENDPOINT_EXIT, which is never answered -/
def nodeSendExit (s : State E) (source dest : E) (m : Msg) : State E :=
  if node source = node dest then gotMessage (fun s _ _ _ => s) s source dest m
  else enqueue s source dest m

/-- `node_send_locked` -/
def nodeSend (s : State E) (source dest : E) (m : Msg) : State E :=
  if node source = node dest then gotMessage (nodeSendExit node) s source dest m
  else enqueue s source dest m

/-- `endpoint_link_locked` -/
def endpointLink (s : State E) (endpt dest : E) : State E :=
  if dest ∈ s.outlinks endpt then s
  else
    nodeSend node
      { s with outlinks := Function.update s.outlinks endpt (dest :: s.outlinks endpt) }
      endpt dest .link

/-- `endpoint_unlink_locked` -/
def endpointUnlink (s : State E) (endpt dest : E) : State E :=
  nodeSend node
    { s with outlinks := Function.update s.outlinks endpt ((s.outlinks endpt).erase dest) }
    endpt dest .unlink

/-- The messages that `endpoint_thread` sends when its function has returned. -/
def sendExits (s : State E) (endpt : E) : List E → State E
  | [] => s
  | link :: l => sendExits (if endpt = link then s else nodeSend node s endpt link .exit) endpt l

def remove (s : State E) (endpt : E) : State E :=
  { s with
    live := Function.update s.live endpt false
    inlinks := Function.update s.inlinks endpt []
    outlinks := Function.update s.outlinks endpt []
    mailbox := Function.update s.mailbox endpt [] }

/-- `endpoint_thread` -/
def endpointThread (s : State E) (endpt : E) : State E :=
  remove (sendExits node s endpt (s.inlinks endpt)) endpt

inductive Event (E : Type) where
  | link (endpt dest : E)
  | unlink (endpt dest : E)
  | exit (endpt : E)
  /-- the oldest message in flight from `source` to `dest` arrives -/
  | deliver (source dest : E)
  deriving DecidableEq

def step (s : State E) : Event E → State E
  | .link endpt dest => if s.live endpt then endpointLink node s endpt dest else s
  | .unlink endpt dest => if s.live endpt then endpointUnlink node s endpt dest else s
  | .exit endpt => if s.live endpt then endpointThread node s endpt else s
  | .deliver source dest =>
    match s.channel source dest with
    | [] => s
    | m :: l => gotMessage (nodeSendExit node) (setChannel s source dest l) source dest m

def run (s : State E) (es : List (Event E)) : State E := es.foldl (step node) s

/-- No links yet. -/
def start (live : E → Bool) : State E :=
  ⟨live, fun _ => [], fun _ => [], fun _ => [], fun _ _ => []⟩

/-- What concerns the link from `a` to `b`. -/
def view (s : State E) (a b : E) : View :=
  ⟨s.live a, s.live b, decide (b ∈ s.outlinks a), (s.inlinks b).count a, s.channel a b,
    s.channel b a, (s.mailbox a).count b⟩

/-- Nothing is in flight on one node, and an endpoint has no two links to another one. -/
structure Tidy (s : State E) : Prop where
  empty : ∀ a b, node a = node b → s.channel a b = []
  nodup : ∀ a, (s.outlinks a).Nodup

variable {node} {s : State E} {a b : E}

/-! ### Messages and views -/

theorem view_eq {v : View} (hla : s.live a = v.la) (hlb : s.live b = v.lb)
    (hout : b ∈ s.outlinks a ↔ v.out = true) (hcnt : (s.inlinks b).count a = v.cnt)
    (hq : s.channel a b = v.q) (hr : s.channel b a = v.r)
    (hgot : (s.mailbox a).count b = v.got) : view s a b = v := by
  have hdec : decide (b ∈ s.outlinks a) = v.out := by
    rw [Bool.eq_iff_iff, decide_eq_true_iff]
    exact hout
  rw [view, hla, hlb, hdec, hcnt, hq, hr, hgot]

theorem view_addMessage_ne {source endpt : E} (m : Msg) (hab : ¬ (source = a ∧ endpt = b))
    (hba : ¬ (source = b ∧ endpt = a)) :
    view (endpointAddMessage s source endpt m) a b = view s a b := by
  have hin : ((endpointAddMessage s source endpt m).inlinks b).count a =
      (s.inlinks b).count a := by
    by_cases hb : b = endpt
    · have ha : source ≠ a := fun h => hab ⟨h, hb.symm⟩
      cases m <;>
        simp [endpointAddMessage, hb, List.count_erase_of_ne ha.symm, ha]
    · cases m <;> simp [endpointAddMessage, Function.update_of_ne hb]
  have hout : b ∈ (endpointAddMessage s source endpt m).outlinks a ↔ b ∈ s.outlinks a := by
    by_cases ha : a = endpt
    · have hb : b ≠ source := fun h => hba ⟨h.symm, ha.symm⟩
      cases m <;> simp [endpointAddMessage, ha, List.mem_erase_of_ne hb]
    · cases m <;> simp [endpointAddMessage, Function.update_of_ne ha]
  have hgot : ((endpointAddMessage s source endpt m).mailbox a).count b =
      (s.mailbox a).count b := by
    by_cases ha : a = endpt
    · have hb : source ≠ b := fun h => hba ⟨h, ha.symm⟩
      cases m <;> simp [endpointAddMessage, ha, List.count_append, hb]
    · cases m <;> simp [endpointAddMessage, Function.update_of_ne ha]
  refine view_eq ?_ ?_ (hout.trans decide_eq_true_iff.symm) hin ?_ ?_ hgot <;> cases m <;> rfl

theorem view_addMessage_takeQ (m : Msg) (hab : a ≠ b) (hlive : s.live b = true) :
    view (endpointAddMessage s a b m) a b = (view s a b).takeQ m := by
  cases m <;>
    refine view_eq ?_ ?_ ?_ ?_ ?_ ?_ ?_ <;>
      simp [view, endpointAddMessage, View.takeQ, hlive, hab]

theorem view_addMessage_takeR (m : Msg) (hab : a ≠ b) (hlive : s.live a = true)
    (hnodup : (s.outlinks a).Nodup) :
    view (endpointAddMessage s b a m) a b = (view s a b).takeR m := by
  have hmem : b ∉ (s.outlinks a).erase b := hnodup.not_mem_erase
  cases m <;>
    refine view_eq ?_ ?_ ?_ ?_ ?_ ?_ ?_ <;>
      simp [view, endpointAddMessage, View.takeR, hlive, Ne.symm hab, hmem, List.count_append]

theorem view_setChannel_ne {source dest : E} (l : List Msg) (hab : ¬ (source = a ∧ dest = b))
    (hba : ¬ (source = b ∧ dest = a)) : view (setChannel s source dest l) a b = view s a b := by
  have hchan : ∀ x y, ¬ (source = x ∧ dest = y) →
      (setChannel s source dest l).channel x y = s.channel x y := by
    intro x y hxy
    by_cases hx : x = source
    · subst hx
      have hy : y ≠ dest := fun h => hxy ⟨rfl, h.symm⟩
      simp [setChannel, Function.update_of_ne hy]
    · simp [setChannel, Function.update_of_ne hx]
  exact view_eq rfl rfl decide_eq_true_iff.symm rfl (hchan a b hab) (hchan b a hba) rfl

theorem view_setChannel_q (l : List Msg) (hab : a ≠ b) :
    view (setChannel s a b l) a b = { view s a b with q := l } := by
  refine view_eq rfl rfl decide_eq_true_iff.symm rfl ?_ ?_ rfl
  · simp [setChannel]
  · simp [setChannel, Function.update_of_ne (Ne.symm hab), view]

theorem view_setChannel_r (l : List Msg) (hab : a ≠ b) :
    view (setChannel s b a l) a b = { view s a b with r := l } := by
  refine view_eq rfl rfl decide_eq_true_iff.symm rfl ?_ ?_ rfl
  · simp [setChannel, Function.update_of_ne hab, view]
  · simp [setChannel]

omit [DecidableEq N] in
theorem Tidy.takeQ (h : Tidy node s) (hnode : node a = node b) (m : Msg) :
    View.Steps { view s a b with q := s.channel a b ++ [m] } ((view s a b).takeQ m) := by
  have hq : s.channel a b = [] := h.empty a b hnode
  have hview : { view s a b with q := [] } = view s a b := by rw [view, hq]
  have hstep : View.Step { view s a b with q := [m] } ({ view s a b with q := [] }.takeQ m) :=
    View.Step.takeQ (v := { view s a b with q := [m] }) rfl
  rw [hq]
  rw [hview] at hstep
  exact .single hstep

omit [DecidableEq N] in
theorem Tidy.takeR (h : Tidy node s) (hnode : node b = node a) (m : Msg) :
    View.Steps { view s a b with r := s.channel b a ++ [m] } ((view s a b).takeR m) := by
  have hr : s.channel b a = [] := h.empty b a hnode
  have hview : { view s a b with r := [] } = view s a b := by rw [view, hr]
  have hstep : View.Step { view s a b with r := [m] } ({ view s a b with r := [] }.takeR m) :=
    View.Step.takeR (v := { view s a b with r := [m] }) rfl
  rw [hr]
  rw [hview] at hstep
  exact .single hstep

section

variable {reply : State E → E → E → Msg → State E}

theorem gotMessage_live {source dest : E} (m : Msg) (hlive : s.live dest = true) :
    gotMessage reply s source dest m = endpointAddMessage s source dest m := by
  cases m <;> simp [gotMessage, hlive]

theorem gotMessage_gone {source dest : E} (m : Msg) (hlive : s.live dest = false) :
    gotMessage reply s source dest m =
      match m with
      | .link => reply s dest source .exit
      | .unlink => s
      | .exit => s := by
  cases m <;> simp [gotMessage, hlive]

theorem view_gotMessage_ne {source dest : E} (m : Msg) (hab : ¬ (source = a ∧ dest = b))
    (hba : ¬ (source = b ∧ dest = a))
    (hreply : view (reply s dest source .exit) a b = view s a b) :
    view (gotMessage reply s source dest m) a b = view s a b := by
  cases hlive : s.live dest with
  | true =>
    rw [gotMessage_live m hlive]
    exact view_addMessage_ne m hab hba
  | false =>
    rw [gotMessage_gone m hlive]
    cases m with
    | link => exact hreply
    | unlink => rfl
    | exit => rfl

theorem gotMessage_takeQ (m : Msg) (hab : a ≠ b)
    (hreply : View.Steps { view s a b with r := s.channel b a ++ [.exit] }
      (view (reply s b a .exit) a b) ∨ m = .exit) :
    View.Steps ((view s a b).takeQ m) (view (gotMessage reply s a b m) a b) := by
  cases hlive : s.live b with
  | true =>
    rw [gotMessage_live m hlive, view_addMessage_takeQ m hab hlive]
  | false =>
    have hlb : ¬ (view s a b).lb = true := by
      rw [Bool.not_eq_true]
      exact hlive
    rw [gotMessage_gone m hlive]
    cases m with
    | link =>
      rw [View.takeQ, if_neg hlb]
      obtain hr | hf := hreply
      · exact hr
      · cases hf
    | unlink => rw [View.takeQ, if_neg hlb]
    | exit => rw [View.takeQ, if_neg hlb]

theorem gotMessage_takeR (m : Msg) (hab : a ≠ b) (hnodup : (s.outlinks a).Nodup)
    (hreply : View.Steps { view s a b with q := s.channel a b ++ [.exit] }
      (view (reply s a b .exit) a b) ∨ m = .exit) :
    View.Steps ((view s a b).takeR m) (view (gotMessage reply s b a m) a b) := by
  cases hlive : s.live a with
  | true =>
    rw [gotMessage_live m hlive, view_addMessage_takeR m hab hlive hnodup]
  | false =>
    have hla : ¬ (view s a b).la = true := by
      rw [Bool.not_eq_true]
      exact hlive
    rw [gotMessage_gone m hlive]
    cases m with
    | link =>
      rw [View.takeR, if_neg hla]
      obtain hr | hf := hreply
      · exact hr
      · cases hf
    | unlink => exact .refl
    | exit => rw [View.takeR, if_neg hla]

end

theorem view_nodeSendExit_ne {source dest : E} (m : Msg) (hab : ¬ (source = a ∧ dest = b))
    (hba : ¬ (source = b ∧ dest = a)) :
    view (nodeSendExit node s source dest m) a b = view s a b := by
  unfold nodeSendExit
  split
  · exact view_gotMessage_ne m hab hba rfl
  · exact view_setChannel_ne _ hab hba

theorem nodeSendExit_q (h : Tidy node s) (hab : a ≠ b) :
    View.Steps { view s a b with q := s.channel a b ++ [.exit] }
      (view (nodeSendExit node s a b .exit) a b) := by
  unfold nodeSendExit
  split
  · next hnode => exact (h.takeQ hnode .exit).trans (gotMessage_takeQ .exit hab (.inr rfl))
  · rw [enqueue, view_setChannel_q _ hab]

theorem nodeSendExit_r (h : Tidy node s) (hab : a ≠ b) :
    View.Steps { view s a b with r := s.channel b a ++ [.exit] }
      (view (nodeSendExit node s b a .exit) a b) := by
  unfold nodeSendExit
  split
  · next hnode =>
    exact (h.takeR hnode .exit).trans (gotMessage_takeR .exit hab (h.nodup a) (.inr rfl))
  · rw [enqueue, view_setChannel_r _ hab]

theorem view_nodeSend_ne {source dest : E} (m : Msg) (hab : ¬ (source = a ∧ dest = b))
    (hba : ¬ (source = b ∧ dest = a)) :
    view (nodeSend node s source dest m) a b = view s a b := by
  unfold nodeSend
  split
  · exact view_gotMessage_ne m hab hba
      (view_nodeSendExit_ne .exit (fun h => hba h.symm) (fun h => hab h.symm))
  · exact view_setChannel_ne _ hab hba

theorem nodeSend_q (h : Tidy node s) (m : Msg) (hab : a ≠ b) :
    View.Steps { view s a b with q := s.channel a b ++ [m] }
      (view (nodeSend node s a b m) a b) := by
  unfold nodeSend
  split
  · next hnode =>
    exact (h.takeQ hnode m).trans (gotMessage_takeQ m hab (.inl (nodeSendExit_r h hab)))
  · rw [enqueue, view_setChannel_q _ hab]

theorem nodeSend_r (h : Tidy node s) (m : Msg) (hab : a ≠ b) :
    View.Steps { view s a b with r := s.channel b a ++ [m] }
      (view (nodeSend node s b a m) a b) := by
  unfold nodeSend
  split
  · next hnode =>
    exact (h.takeR hnode m).trans
      (gotMessage_takeR m hab (h.nodup a) (.inl (nodeSendExit_q h hab)))
  · rw [enqueue, view_setChannel_r _ hab]

/-! ### Tidy states -/

omit [DecidableEq N] in
theorem Tidy.addMessage (h : Tidy node s) (source endpt : E) (m : Msg) :
    Tidy node (endpointAddMessage s source endpt m) := by
  cases m with
  | link => exact ⟨h.empty, h.nodup⟩
  | unlink => exact ⟨h.empty, h.nodup⟩
  | exit =>
    refine ⟨h.empty, fun c => ?_⟩
    by_cases hc : c = endpt
    · rw [hc]
      dsimp only [endpointAddMessage]
      rw [Function.update_self]
      exact (h.nodup endpt).erase source
    · dsimp only [endpointAddMessage]
      rw [Function.update_of_ne hc]
      exact h.nodup c

omit [DecidableEq N] in
theorem Tidy.setChannel {source dest : E} (h : Tidy node s) (l : List Msg)
    (hnode : node source ≠ node dest) : Tidy node (setChannel s source dest l) := by
  refine ⟨fun x y hxy => ?_, h.nodup⟩
  by_cases hx : x = source
  · subst hx
    have hy : y ≠ dest := fun hy => hnode (hy ▸ hxy)
    simp only [Links.setChannel, Function.update_self, Function.update_of_ne hy]
    exact h.empty x y hxy
  · simp only [Links.setChannel, Function.update_of_ne hx]
    exact h.empty x y hxy

omit [DecidableEq N] in
theorem Tidy.gotMessage {reply : State E → E → E → Msg → State E} {source dest : E}
    (h : Tidy node s) (m : Msg) (hreply : Tidy node (reply s dest source .exit)) :
    Tidy node (gotMessage reply s source dest m) := by
  cases hlive : s.live dest with
  | true =>
    rw [gotMessage_live m hlive]
    exact h.addMessage source dest m
  | false =>
    rw [gotMessage_gone m hlive]
    cases m with
    | link => exact hreply
    | unlink => exact h
    | exit => exact h

theorem Tidy.nodeSendExit (h : Tidy node s) (source dest : E) (m : Msg) :
    Tidy node (nodeSendExit node s source dest m) := by
  unfold Links.nodeSendExit
  split
  · exact h.gotMessage m h
  · next hnode => exact h.setChannel _ hnode

theorem Tidy.nodeSend (h : Tidy node s) (source dest : E) (m : Msg) :
    Tidy node (nodeSend node s source dest m) := by
  unfold Links.nodeSend
  split
  · exact h.gotMessage m (h.nodeSendExit dest source .exit)
  · next hnode => exact h.setChannel _ hnode

omit [DecidableEq N] in
theorem Tidy.setOutlinks (h : Tidy node s) (endpt : E) {l : List E} (hl : l.Nodup) :
    Tidy node { s with outlinks := Function.update s.outlinks endpt l } := by
  refine ⟨h.empty, fun c => ?_⟩
  by_cases hc : c = endpt
  · rw [hc]
    dsimp only
    rw [Function.update_self]
    exact hl
  · dsimp only
    rw [Function.update_of_ne hc]
    exact h.nodup c

omit [DecidableEq N] in
theorem Tidy.remove (h : Tidy node s) (endpt : E) : Tidy node (remove s endpt) := by
  obtain ⟨hempty, hnodup⟩ := h.setOutlinks endpt List.nodup_nil
  exact ⟨hempty, hnodup⟩

theorem Tidy.sendExits (h : Tidy node s) (endpt : E) (l : List E) :
    Tidy node (sendExits node s endpt l) := by
  induction l generalizing s with
  | nil => exact h
  | cons link l ih =>
    rw [Links.sendExits]
    apply ih
    split
    · exact h
    · exact h.nodeSend endpt link .exit

omit [DecidableEq E] [DecidableEq N] in
/-- A message is in flight between two nodes. -/
theorem Tidy.node_ne {source dest : E} {m : Msg} {l : List Msg} (h : Tidy node s)
    (hq : s.channel source dest = m :: l) : node source ≠ node dest := by
  intro hnode
  rw [h.empty source dest hnode] at hq
  cases hq

theorem Tidy.step (h : Tidy node s) (e : Event E) : Tidy node (step node s e) := by
  cases e with
  | link endpt dest =>
    rw [Links.step]
    split
    · unfold endpointLink
      split
      · exact h
      · next hmem =>
        exact (h.setOutlinks endpt (List.nodup_cons.mpr ⟨hmem, h.nodup endpt⟩)).nodeSend _ _ _
    · exact h
  | unlink endpt dest =>
    rw [Links.step]
    split
    · exact (h.setOutlinks endpt ((h.nodup endpt).erase dest)).nodeSend _ _ _
    · exact h
  | exit endpt =>
    rw [Links.step]
    split
    · exact (h.sendExits endpt _).remove endpt
    · exact h
  | deliver source dest =>
    rw [Links.step]
    split
    · exact h
    · next m l hq =>
      have hpop := h.setChannel l (h.node_ne hq)
      exact hpop.gotMessage m (hpop.nodeSendExit dest source .exit)

/-! ### The end of an endpoint -/

theorem view_remove_a (hab : a ≠ b) :
    view (remove s a) a b = { view s a b with la := false, out := false, got := 0 } := by
  refine view_eq ?_ ?_ ?_ ?_ rfl rfl ?_ <;> simp [remove, view, Function.update_of_ne (Ne.symm hab)]

theorem view_remove_b (hab : a ≠ b) :
    view (remove s b) a b = { view s a b with lb := false, cnt := 0 } := by
  refine view_eq ?_ ?_ ?_ ?_ rfl rfl ?_ <;> simp [remove, view, Function.update_of_ne hab]

theorem view_remove_ne {c : E} (ha : a ≠ c) (hb : b ≠ c) : view (remove s c) a b = view s a b := by
  refine view_eq ?_ ?_ ?_ ?_ rfl rfl ?_ <;>
    simp [remove, view, Function.update_of_ne ha, Function.update_of_ne hb]

theorem remove_nodeSend {endpt link : E} (hne : endpt ≠ link) :
    remove (nodeSend node s endpt link .exit) endpt =
      nodeSend node (remove s endpt) endpt link .exit := by
  have hlive : (remove s endpt).live link = s.live link := Function.update_of_ne (Ne.symm hne) _ _
  unfold nodeSend
  split
  · cases h : s.live link with
    | true =>
      rw [gotMessage_live _ h, gotMessage_live _ (hlive.trans h)]
      simp only [remove, endpointAddMessage, Function.update_of_ne (Ne.symm hne),
        Function.update_comm hne]
    | false => rw [gotMessage_gone _ h, gotMessage_gone _ (hlive.trans h)]
  · rfl

theorem remove_sendExits (endpt : E) (l : List E) :
    remove (sendExits node s endpt l) endpt = sendExits node (remove s endpt) endpt l := by
  induction l generalizing s with
  | nil => rfl
  | cons link l ih =>
    rw [sendExits, sendExits, ih]
    split
    · rfl
    · next hne => rw [remove_nodeSend hne]

theorem view_sendExits_ne {endpt : E} (ha : endpt ≠ a) (hb : endpt ≠ b) (l : List E) :
    view (sendExits node s endpt l) a b = view s a b := by
  induction l generalizing s with
  | nil => rfl
  | cons link l ih =>
    rw [sendExits, ih]
    split
    · rfl
    · exact view_nodeSend_ne .exit (fun h => ha h.1) (fun h => hb h.1)

theorem view_nodeSend_exit_q (hab : a ≠ b) :
    view (nodeSend node s a b .exit) a b =
      if node a = node b then (view s a b).takeQ .exit
      else { view s a b with q := s.channel a b ++ [.exit] } := by
  unfold nodeSend
  split
  · cases hlive : s.live b with
    | true => rw [gotMessage_live _ hlive, view_addMessage_takeQ .exit hab hlive]
    | false =>
      have hlb : ¬ (view s a b).lb = true := by
        rw [Bool.not_eq_true]
        exact hlive
      rw [gotMessage_gone _ hlive, View.takeQ, if_neg hlb]
  · exact view_setChannel_q _ hab

theorem view_nodeSend_exit_r (hab : a ≠ b) (hnodup : (s.outlinks a).Nodup) :
    view (nodeSend node s b a .exit) a b =
      if node b = node a then (view s a b).takeR .exit
      else { view s a b with r := s.channel b a ++ [.exit] } := by
  unfold nodeSend
  split
  · cases hlive : s.live a with
    | true => rw [gotMessage_live _ hlive, view_addMessage_takeR .exit hab hlive hnodup]
    | false =>
      have hla : ¬ (view s a b).la = true := by
        rw [Bool.not_eq_true]
        exact hlive
      rw [gotMessage_gone _ hlive, View.takeR, if_neg hla]
  · exact view_setChannel_r _ hab

theorem sendExits_q (h : Tidy node s) (hab : a ≠ b) (l : List E) :
    View.Steps { view s a b with q := s.channel a b ++ List.replicate (l.count b) .exit }
      (view (sendExits node s a l) a b) := by
  induction l generalizing s with
  | nil =>
    rw [List.count_nil, List.replicate_zero, List.append_nil]
    exact .refl
  | cons link l ih =>
    rw [sendExits]
    by_cases ha : a = link
    · rw [if_pos ha, List.count_cons_of_ne (by rw [← ha]; exact hab)]
      exact ih h
    · rw [if_neg ha]
      refine Relation.ReflTransGen.trans ?_ (ih (h.nodeSend a link .exit))
      have hchan : (nodeSend node s a link .exit).channel a b =
          (view (nodeSend node s a link .exit) a b).q := rfl
      rw [hchan]
      by_cases hb : link = b
      · subst hb
        rw [List.count_cons_self, List.replicate_succ, view_nodeSend_exit_q hab]
        split
        · next hnode =>
          -- on one node the first of them has arrived
          have hq : (view s a link).q = [] := h.empty a link hnode
          rw [h.empty a link hnode, View.takeQ_exit, hq]
          exact .single (View.Step.takeQ rfl)
        · rw [List.append_assoc]
          exact .refl
      · rw [List.count_cons_of_ne hb,
          view_nodeSend_ne .exit (fun h => hb h.2) (fun h => hab h.1)]
        exact .refl

theorem sendExits_r (h : Tidy node s) (hab : a ≠ b) (l : List E) :
    View.Steps { view s a b with r := s.channel b a ++ List.replicate (l.count a) .exit }
      (view (sendExits node s b l) a b) := by
  induction l generalizing s with
  | nil =>
    rw [List.count_nil, List.replicate_zero, List.append_nil]
    exact .refl
  | cons link l ih =>
    rw [sendExits]
    by_cases hb : b = link
    · rw [if_pos hb, List.count_cons_of_ne (by rw [← hb]; exact Ne.symm hab)]
      exact ih h
    · rw [if_neg hb]
      refine Relation.ReflTransGen.trans ?_ (ih (h.nodeSend b link .exit))
      have hchan : (nodeSend node s b link .exit).channel b a =
          (view (nodeSend node s b link .exit) a b).r := rfl
      rw [hchan]
      by_cases ha : link = a
      · subst ha
        rw [List.count_cons_self, List.replicate_succ, view_nodeSend_exit_r hab (h.nodup link)]
        split
        · next hnode =>
          have hr : (view s link b).r = [] := h.empty b link hnode
          rw [h.empty b link hnode, View.takeR_exit, hr]
          exact .single (View.Step.takeR rfl)
        · rw [List.append_assoc]
          exact .refl
      · rw [List.count_cons_of_ne ha,
          view_nodeSend_ne .exit (fun h => hab h.1.symm) (fun h => ha h.2)]
        exact .refl

theorem endpointThread_view (h : Tidy node s) (hab : a ≠ b) (endpt : E) :
    View.Steps (view s a b) (view (endpointThread node s endpt) a b) := by
  have hrem := h.remove endpt
  rw [endpointThread, remove_sendExits]
  by_cases ha : endpt = a
  · subst ha
    refine Relation.ReflTransGen.trans ?_ (sendExits_q hrem hab _)
    rw [view_remove_a hab]
    exact .single (View.Step.exitA _)
  · by_cases hb : endpt = b
    · subst hb
      refine Relation.ReflTransGen.trans ?_ (sendExits_r hrem hab _)
      rw [view_remove_b hab]
      exact .single View.Step.exitB
    · rw [view_sendExits_ne ha hb, view_remove_ne (Ne.symm ha) (Ne.symm hb)]

/-! ### A step for one pair -/

theorem setOutlinks_view {endpt dest : E} {l : List E}
    (hl : ∀ x, x ≠ dest → (x ∈ l ↔ x ∈ s.outlinks endpt)) (hab : ¬ (endpt = a ∧ dest = b)) :
    view { s with outlinks := Function.update s.outlinks endpt l } a b = view s a b := by
  refine view_eq rfl rfl ?_ rfl rfl rfl rfl
  by_cases ha : a = endpt
  · have hb : b ≠ dest := fun h => hab ⟨ha.symm, h.symm⟩
    subst ha
    simp only [Function.update_self, view, decide_eq_true_eq]
    exact hl b hb
  · simp only [Function.update_of_ne ha, view, decide_eq_true_eq]

/-- The steps of the pair when the system takes a step, other than that of a new link. -/
theorem step_view (h : Tidy node s) (hab : a ≠ b) {e : Event E} (he : e ≠ .link a b) :
    View.Steps (view s a b) (view (step node s e) a b) := by
  cases e with
  | link endpt dest =>
    rw [step]
    split
    · unfold endpointLink
      split
      · exact .refl
      · next hmem =>
        have hne : ¬ (endpt = a ∧ dest = b) := by
          rintro ⟨rfl, rfl⟩
          exact he rfl
        have hview := setOutlinks_view (s := s) (l := dest :: s.outlinks endpt)
          (fun x hx => by rw [List.mem_cons]; exact or_iff_right hx) hne
        have htidy := h.setOutlinks endpt (List.nodup_cons.mpr ⟨hmem, h.nodup endpt⟩)
        by_cases hba : endpt = b ∧ dest = a
        · obtain ⟨rfl, rfl⟩ := hba
          refine Relation.ReflTransGen.trans ?_ (nodeSend_r htidy .link hab)
          rw [hview]
          exact .single (View.Step.sendR (by decide))
        · rw [view_nodeSend_ne .link hne hba, hview]
    · exact .refl
  | unlink endpt dest =>
    rw [step]
    split
    · next hlive =>
      have htidy := h.setOutlinks endpt ((h.nodup endpt).erase dest)
      unfold endpointUnlink
      by_cases hne : endpt = a ∧ dest = b
      · obtain ⟨rfl, rfl⟩ := hne
        refine Relation.ReflTransGen.trans ?_ (nodeSend_q htidy .unlink hab)
        have hview : view { s with
            outlinks := Function.update s.outlinks endpt ((s.outlinks endpt).erase dest) }
            endpt dest = { view s endpt dest with out := false } := by
          refine view_eq rfl rfl ?_ rfl rfl rfl rfl
          simp [(h.nodup endpt).not_mem_erase]
        rw [hview]
        exact .single (View.Step.unlink hlive)
      · have hview := setOutlinks_view (s := s) (l := (s.outlinks endpt).erase dest)
          (fun x hx => List.mem_erase_of_ne hx) hne
        by_cases hba : endpt = b ∧ dest = a
        · obtain ⟨rfl, rfl⟩ := hba
          refine Relation.ReflTransGen.trans ?_ (nodeSend_r htidy .unlink hab)
          rw [hview]
          exact .single (View.Step.sendR (by decide))
        · rw [view_nodeSend_ne .unlink hne hba, hview]
    · exact .refl
  | exit endpt =>
    rw [step]
    split
    · exact endpointThread_view h hab endpt
    · exact .refl
  | deliver source dest =>
    rw [step]
    split
    · exact .refl
    · next m l hq =>
      have htidy := h.setChannel l (h.node_ne hq)
      by_cases hne : source = a ∧ dest = b
      · obtain ⟨rfl, rfl⟩ := hne
        refine Relation.ReflTransGen.trans ?_
          (gotMessage_takeQ m hab (.inl (nodeSendExit_r htidy hab)))
        rw [view_setChannel_q l hab]
        exact .single (View.Step.takeQ hq)
      · by_cases hba : source = b ∧ dest = a
        · obtain ⟨rfl, rfl⟩ := hba
          refine Relation.ReflTransGen.trans ?_
            (gotMessage_takeR m hab (htidy.nodup dest) (.inl (nodeSendExit_q htidy hab)))
          rw [view_setChannel_r l hab]
          exact .single (View.Step.takeR hq)
        · rw [view_gotMessage_ne m hne hba
            (view_nodeSendExit_ne .exit (fun h => hba h.symm) (fun h => hne h.symm)),
            view_setChannel_ne l hne hba]

theorem link_view (h : Tidy node s) (hab : a ≠ b) (hlive : s.live a = true) :
    View.Steps (view s a b).link (view (step node s (.link a b)) a b) := by
  rw [step, if_pos hlive, endpointLink]
  split
  · next hmem =>
    have hout : (view s a b).out = true := decide_eq_true hmem
    rw [View.link, if_pos hout]
  · next hmem =>
    have hout : ¬ (view s a b).out = true := by
      rw [Bool.not_eq_true]
      exact decide_eq_false hmem
    have htidy := h.setOutlinks a (List.nodup_cons.mpr ⟨hmem, h.nodup a⟩)
    refine Relation.ReflTransGen.trans ?_ (nodeSend_q htidy .link hab)
    have hview : view { s with outlinks := Function.update s.outlinks a (b :: s.outlinks a) } a b =
        { view s a b with out := true } := by
      refine view_eq rfl rfl ?_ rfl rfl rfl rfl
      simp
    rw [View.link, if_neg hout, hview]
    exact .refl

theorem step_inv (h : Tidy node s) (hab : a ≠ b) (hinv : (view s a b).Inv) (e : Event E) :
    (view (step node s e) a b).Inv := by
  by_cases he : e = .link a b
  · subst he
    cases hlive : s.live a with
    | true => exact (hinv.link hlive).steps (link_view h hab hlive)
    | false =>
      rw [step, if_neg (by rw [hlive]; exact Bool.false_ne_true)]
      exact hinv
  · exact hinv.steps (step_view h hab he)

omit [DecidableEq E] [DecidableEq N] in
theorem start_tidy (node : E → N) (live : E → Bool) : Tidy node (start live) :=
  ⟨fun _ _ _ => rfl, fun _ => List.nodup_nil⟩

theorem start_inv (live : E → Bool) (a b : E) : (view (start live) a b).Inv where
  exit_q := fun hmem => absurd hmem List.not_mem_nil
  exit_r := fun hmem => absurd hmem List.not_mem_nil
  count := fun _ _ => rfl
  last := fun _ _ => .inl rfl
  dead := fun _ => rfl
  gone := fun _ _ hout => absurd hout Bool.false_ne_true

/-! ## Runs -/

theorem run_inv (h : Tidy node s) (hab : a ≠ b) (hinv : (view s a b).Inv) (es : List (Event E)) :
    Tidy node (run node s es) ∧ (view (run node s es) a b).Inv := by
  induction es generalizing s with
  | nil => exact ⟨h, hinv⟩
  | cons e es ih => exact ih (h.step e) (step_inv h hab hinv e)

theorem run_view (h : Tidy node s) (hab : a ≠ b) {es : List (Event E)} (hes : .link a b ∉ es) :
    View.Steps (view s a b) (view (run node s es) a b) := by
  induction es generalizing s with
  | nil => exact .refl
  | cons e es ih =>
    rw [List.mem_cons, not_or] at hes
    exact (step_view h hab (Ne.symm hes.1)).trans (ih (h.step e) hes.2)

/-- A LINK that is not followed by an UNLINK is in flight. -/
def LinkPending (q : List Msg) : Prop := ∃ l l', q = l ++ .link :: l' ∧ .unlink ∉ l'

theorem linkPending_of_last {q : List Msg} (h : q.getLast? = some .link) : LinkPending q := by
  obtain ⟨l, hl⟩ := List.getLast?_eq_some_iff.mp h
  exact ⟨l, [], hl, List.not_mem_nil⟩

/-- An endpoint with a link is told. -/
theorem View.Inv.notice {v : View} (h : v.Inv) (hla : v.la = true) (hout : v.out = true) :
    (v.lb = true ∧ 0 < v.cnt) ∨ LinkPending v.q ∨ .exit ∈ v.r := by
  cases hlb : v.lb with
  | true =>
    obtain hq | hlast := h.last hla hout
    · have hcount := h.count hla hlb
      rw [hq, hout] at hcount
      have hcnt : v.cnt = 1 := hcount
      exact .inl ⟨rfl, by omega⟩
    · exact .inr (.inl (linkPending_of_last hlast))
  | false =>
    obtain hr | hlast := h.gone hla hlb hout
    · exact .inr (.inr hr)
    · exact .inr (.inl (linkPending_of_last hlast))

variable (node)

/-- A link leads to a notice: in all reachable states the other endpoint knows of the link, or it is
about to, or the notice is in flight. An endpoint with no link to `b` gets, until it links again,
only the notices in flight, one for each LINK in flight and those for which it is in the inlinks of
`b`. When no message of it about a link is in flight either, only the notices in flight are left. -/
theorem link_notice (live : E → Bool) (es : List (Event E)) (a b : E) :
    let s := run node (start live) es
    a ≠ b →
      (s.live a = true → b ∈ s.outlinks a →
        (s.live b = true ∧ a ∈ s.inlinks b) ∨ LinkPending (s.channel a b) ∨
          .exit ∈ s.channel b a) ∧
      ∀ es', .link a b ∉ es' → b ∉ s.outlinks a →
        ((run node s es').mailbox a).count b ≤ (s.mailbox a).count b +
          (s.channel b a).count .exit + (s.channel a b).count .link + (s.inlinks b).count a ∧
        (s.live a = true → .link ∉ s.channel a b → .unlink ∉ s.channel a b →
          ((run node s es').mailbox a).count b ≤
            (s.mailbox a).count b + (s.channel b a).count .exit) := by
  intro s hab
  obtain ⟨htidy, hinv⟩ := run_inv (start_tidy node live) hab (start_inv live a b) es
  refine ⟨fun hlive hmem => ?_, fun es' hes hmem => ?_⟩
  · obtain ⟨hlb, hcnt⟩ | hrest := hinv.notice hlive (decide_eq_true hmem)
    · exact .inl ⟨hlb, List.count_pos_iff.mp hcnt⟩
    · exact .inr hrest
  · have hle := (run_view htidy hab hes).weight_le.1
    have hgot := Nat.le_trans (View.got_le_weight (view (run node s es') a b)) hle
    refine ⟨hgot, fun hlive hl hu => ?_⟩
    rw [hinv.weight_quiet hlive (decide_eq_false hmem) hl hu] at hgot
    exact hgot

theorem link_notice_two :
    let s := run id (start fun _ => true) [.link false true, .deliver false true]
    true ∈ s.outlinks false ∧
      ((s.live true = true ∧ false ∈ s.inlinks true) ∨ LinkPending (s.channel false true) ∨
        .exit ∈ s.channel true false) :=
  ⟨by decide, (link_notice id (fun _ => true) [.link false true, .deliver false true] false true
    (by decide)).1 rfl (by decide)⟩

/-- The endpoint that was linked to exits before the UNLINK arrives. Its notice is none of those
that were in flight when the link was taken back, and answers no LINK. -/
theorem notice_of_unlinked :
    ¬ ∀ (live : Bool → Bool) (es es' : List (Event Bool)) (a b : Bool), .link a b ∉ es' →
      let s := run id (start live) (es ++ [.unlink a b])
      ((run id s es').mailbox a).count b ≤ (s.mailbox a).count b +
        (s.channel b a).count .exit + (s.channel a b).count .link := by
  intro h
  have hle := h (fun _ => true) [.link false true, .deliver false true]
    [.exit true, .deliver true false] false true (by decide)
  revert hle
  decide

end

end Links
end Network
end NReduce
