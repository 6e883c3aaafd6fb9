import NReduce.Runtime.Delivery
import Mathlib.Algebra.Order.BigOperators.Group.Finset

/-!
# NReduce.Runtime.PauseRounds

Successive pause rounds of a group: `pause_all`, the exchange of GOTPAUSE messages, PAUSEACK and
`resume_all`.

The rounds are counted along a run: a task is in its round `k` from its `k`-th RESUME on, and the
`k`-th GOTPAUSE of a task to another was announced by the `k`-th PAUSE that it handled.

Main results:
* `pauseInv_run`: how the counters of all parties and the messages in flight are related, in every
  state of every run.
* `pause_rounds`: the assertion of `interpreter_gotpause` holds exactly when no RESUME is in flight
  to the task.
-/

namespace NReduce
namespace Runtime

open Network

variable {n : Nat} {W : Work n}

/-! ## Counting the rounds of a run -/

/-- The messages with which the collector pauses and resumes a task. -/
inductive Control where
  | pause
  | resume
  deriving DecidableEq

def control {V : Type} : Msg n V → Option Control
  | .pause => some .pause
  | .resume => some .resume
  | _ => none

def isGotpause {V : Type} : Msg n V → Option Unit
  | .gotpause => some ()
  | _ => none

def isPauseack {V : Type} : Msg n V → Option Unit
  | .pauseack => some ()
  | _ => none

/-- Task `i` handled a PAUSE or RESUME of the collector. -/
def Event.handled (i : Fin n) (c : Control) (e : Event W) : Bool :=
  match e.took with
  | some (none, m) => e.actor = some i ∧ control m = some c
  | _ => false

/-- Task `i` handled a GOTPAUSE of task `j`. -/
def Event.counted (i j : Fin n) (e : Event W) : Bool :=
  match e.took with
  | some (some k, m) => e.actor = some i ∧ k = j ∧ isGotpause m = some ()
  | _ => false

/-- The PAUSEACK messages that task `i` sent in a step. -/
def Event.acks (i : Fin n) (e : Event W) : Nat :=
  if e.actor = some i then ((Channels.sentTo e.out none).filterMap isPauseack).length else 0

/-- The collector received a PAUSEACK of task `i`. -/
def Event.acked (i : Fin n) (e : Event W) : Bool :=
  match e.took with
  | some (some k, m) => e.actor = none ∧ k = i ∧ isPauseack m = some ()
  | _ => false

/-- The PAUSE messages that task `i` handled. -/
def pauses (tr : List (Event W)) (i : Fin n) : Nat := tr.countP (Event.handled i .pause)

/-- The RESUME messages that task `i` handled. -/
def resumes (tr : List (Event W)) (i : Fin n) : Nat := tr.countP (Event.handled i .resume)

/-- The GOTPAUSE messages of task `j` that task `i` handled. -/
def gots (tr : List (Event W)) (i j : Fin n) : Nat := tr.countP (Event.counted i j)

/-- The PAUSEACK messages that task `i` sent. -/
def acks (tr : List (Event W)) (i : Fin n) : Nat := (tr.map (Event.acks i)).sum

/-- The PAUSEACK messages of task `i` that the collector received. -/
def acked (tr : List (Event W)) (i : Fin n) : Nat := tr.countP (Event.acked i)

/-! ## What is in flight -/

/-- The PAUSE and RESUME messages on their way to a task. -/
def Group.controls (s : Group W) (i : Fin n) : List Control :=
  (s.chan none (some i)).filterMap control

/-- The GOTPAUSE messages on their way from `j` to `i`. -/
def Group.announced (s : Group W) (j i : Fin n) : Nat :=
  ((s.chan (some j) (some i)).filterMap isGotpause).length

/-- The PAUSEACK messages on their way from `i`. -/
def Group.unreceived (s : Group W) (i : Fin n) : Nat :=
  ((s.chan (some i) none).filterMap isPauseack).length

/-- The other tasks whose GOTPAUSE of the current round task `i` has counted. -/
def seen (tr : List (Event W)) (i : Fin n) : Finset (Fin n) :=
  Finset.univ.filter (fun j => j ≠ i ∧ gots tr i j = resumes tr i + 1)

/-- Where a task stands in the rounds, by the messages of the collector on their way to it. -/
inductive Place (gc : Collector n) (paused : Bool) (pauses resumes : Nat) : List Control → Prop where
  | running : gc.ingc = false → paused = false → pauses = gc.gciter → resumes = gc.gciter →
      Place gc paused pauses resumes []
  | paused : gc.ingc = true → paused = true → pauses = gc.gciter → resumes + 1 = gc.gciter →
      Place gc paused pauses resumes []
  | resuming : gc.ingc = false → paused = true → pauses = gc.gciter → resumes + 1 = gc.gciter →
      Place gc paused pauses resumes [.resume]
  | pausing : gc.ingc = true → 0 < gc.waiting → paused = false → pauses + 1 = gc.gciter →
      resumes + 1 = gc.gciter → Place gc paused pauses resumes [.pause]
  | behind : gc.ingc = true → 0 < gc.waiting → paused = true → pauses + 1 = gc.gciter →
      resumes + 2 = gc.gciter → Place gc paused pauses resumes [.resume, .pause]

/-- The invariant of the pause rounds. -/
structure PauseInv (s : Group W) (tr : List (Event W)) : Prop where
  waiting_ingc : 0 < s.gc.waiting → s.gc.ingc = true
  place : ∀ i, Place s.gc (s.task i).paused (pauses tr i) (resumes tr i) (s.controls i)
  announced : ∀ i j, s.announced j i + gots tr i j = if j = i then 0 else pauses tr j
  round : ∀ i j, j ≠ i → resumes tr i ≤ gots tr i j ∧ gots tr i j ≤ resumes tr i + 1
  gotpause : ∀ i, (s.task i).gotpause = (seen tr i).card
  /-- a task is resumed only when it has seen the pause of all others -/
  full : ∀ i, Control.resume ∈ s.controls i → (seen tr i).card = n - 1
  answered : ∀ i,
    acks tr i + (if (s.task i).paused ∧ (seen tr i).card ≠ n - 1 then 1 else 0) = pauses tr i
  unreceived : ∀ i, s.unreceived i + acked tr i = acks tr i
  received : ∀ i, acked tr i ≤ s.gc.gciter ∧ s.gc.gciter ≤ acked tr i + 1
  waiting : s.gc.waiting = ∑ i, (s.gc.gciter - acked tr i)

/-! ## The history after a step -/

theorem pauses_concat (tr : List (Event W)) (e : Event W) (i : Fin n) :
    pauses (tr ++ [e]) i = pauses tr i + if e.handled i .pause then 1 else 0 := by
  simp [pauses, List.countP_append, List.countP_singleton]

theorem resumes_concat (tr : List (Event W)) (e : Event W) (i : Fin n) :
    resumes (tr ++ [e]) i = resumes tr i + if e.handled i .resume then 1 else 0 := by
  simp [resumes, List.countP_append, List.countP_singleton]

theorem gots_concat (tr : List (Event W)) (e : Event W) (i j : Fin n) :
    gots (tr ++ [e]) i j = gots tr i j + if e.counted i j then 1 else 0 := by
  simp [gots, List.countP_append, List.countP_singleton]

theorem acks_concat (tr : List (Event W)) (e : Event W) (i : Fin n) :
    acks (tr ++ [e]) i = acks tr i + e.acks i := by
  simp [acks]

theorem acked_concat (tr : List (Event W)) (e : Event W) (i : Fin n) :
    acked (tr ++ [e]) i = acked tr i + if e.acked i then 1 else 0 := by
  simp [acked, List.countP_append, List.countP_singleton]

/-- A view of a channel that a step neither takes from nor adds to. -/
theorem filterMap_deliver_same {β : Type} (f : Msg n W.Msg → Option β) {s : Group W} {e : Event W}
    (h : e.Fits s) {a b : Party n}
    (htook : ∀ m, e.took = some (a, m) → b = e.actor → f m = none)
    (hout : a = e.actor → ∀ m, (b, m) ∈ e.out → f m = none) :
    ((s.deliver e).chan a b).filterMap f = (s.chan a b).filterMap f := by
  rw [chan_deliver, List.filterMap_append]
  have h2 : (if a = e.actor then Channels.sentTo e.out b else []).filterMap f = [] := by
    split
    · rename_i ha
      rw [List.filterMap_eq_nil_iff]
      exact fun m hm => hout ha m (Channels.mem_sentTo.mp hm)
    · rfl
  rw [h2, List.append_nil]
  cases ht : e.took with
  | none => rfl
  | some jm =>
    obtain ⟨j, m⟩ := jm
    simp only
    split
    · rename_i hc
      obtain ⟨rest, hr⟩ := h j m ht
      have hm := htook m (by rw [ht, hc.1]) hc.2
      rw [hc.1, hc.2, hr, List.tail_cons, List.filterMap_cons_none hm]
    · rfl

/-- A view of a channel from which a step takes a message, without adding to it. -/
theorem filterMap_deliver_take {β : Type} (f : Msg n W.Msg → Option β) {s : Group W} {e : Event W}
    (h : e.Fits s) {a : Party n} {m : Msg n W.Msg} {x : β} (htook : e.took = some (a, m))
    (hm : f m = some x) (ha : a ≠ e.actor) :
    (s.chan a e.actor).filterMap f = x :: ((s.deliver e).chan a e.actor).filterMap f := by
  obtain ⟨rest, hr⟩ := h a m htook
  rw [chan_deliver, htook, if_neg ha, hr, List.filterMap_cons_some hm]
  simp

/-- A view of a channel that a step adds to, without taking from it. -/
theorem filterMap_deliver_send {β : Type} (f : Msg n W.Msg → Option β) {s : Group W} {e : Event W}
    {b : Party n} (htook : ∀ m, e.took = some (e.actor, m) → b ≠ e.actor) :
    ((s.deliver e).chan e.actor b).filterMap f =
      (s.chan e.actor b).filterMap f ++ (Channels.sentTo e.out b).filterMap f := by
  rw [chan_deliver, if_pos rfl, List.filterMap_append]
  congr 1
  cases ht : e.took with
  | none => rfl
  | some jm =>
    obtain ⟨j, m⟩ := jm
    simp only
    split
    · rename_i hc
      exact absurd hc.2 (htook m (by rw [ht, hc.1]))
    · rfl

/-! ## Steps that have no part in the rounds -/

/-- Messages that have no part in the pauses. -/
def unpaused {V : Type} : Msg n V → Bool
  | .pause | .pauseack | .gotpause | .resume => false
  | _ => true

theorem control_unpaused {V : Type} {m : Msg n V} (h : unpaused m = true) : control m = none := by
  cases m <;> simp_all [unpaused, control]

theorem isGotpause_unpaused {V : Type} {m : Msg n V} (h : unpaused m = true) :
    isGotpause m = none := by
  cases m <;> simp_all [unpaused, isGotpause]

theorem isPauseack_unpaused {V : Type} {m : Msg n V} (h : unpaused m = true) :
    isPauseack m = none := by
  cases m <;> simp_all [unpaused, isPauseack]

/-- A step that takes and sends no message of the pauses. -/
structure Event.Unpaused (e : Event W) : Prop where
  took : ∀ j m, e.took = some (j, m) → unpaused m = true
  out : ∀ d ∈ e.out, unpaused d.2 = true

theorem Event.Unpaused.handled {e : Event W} (h : e.Unpaused) (i : Fin n) (c : Control) :
    e.handled i c = false := by
  unfold Event.handled
  split
  · rename_i m ht
    simp [control_unpaused (h.took _ _ ht)]
  · rfl

theorem Event.Unpaused.counted {e : Event W} (h : e.Unpaused) (i j : Fin n) :
    e.counted i j = false := by
  unfold Event.counted
  split
  · rename_i m ht
    simp [isGotpause_unpaused (h.took _ _ ht)]
  · rfl

theorem Event.Unpaused.acked {e : Event W} (h : e.Unpaused) (i : Fin n) : e.acked i = false := by
  unfold Event.acked
  split
  · rename_i m ht
    simp [isPauseack_unpaused (h.took _ _ ht)]
  · rfl

theorem Event.Unpaused.acks {e : Event W} (h : e.Unpaused) (i : Fin n) : e.acks i = 0 := by
  unfold Event.acks
  split
  · rw [List.length_eq_zero_iff, List.filterMap_eq_nil_iff]
    exact fun m hm => isPauseack_unpaused (h.out _ (Channels.mem_sentTo.mp hm))
  · rfl

/-- The history of the rounds is the same after the step. -/
structure SameHistory (tr tr' : List (Event W)) : Prop where
  pauses : ∀ i, pauses tr' i = pauses tr i
  resumes : ∀ i, resumes tr' i = resumes tr i
  gots : ∀ i j, gots tr' i j = gots tr i j
  acks : ∀ i, acks tr' i = acks tr i
  acked : ∀ i, acked tr' i = acked tr i

theorem Event.Unpaused.history {e : Event W} (h : e.Unpaused) (tr : List (Event W)) :
    SameHistory tr (tr ++ [e]) where
  pauses i := by simp [pauses_concat, h.handled]
  resumes i := by simp [resumes_concat, h.handled]
  gots i j := by simp [gots_concat, h.counted]
  acks i := by simp [acks_concat, h.acks]
  acked i := by simp [acked_concat, h.acked]

theorem SameHistory.seen {tr tr' : List (Event W)} (h : SameHistory tr tr') (i : Fin n) :
    seen tr' i = seen tr i := by
  simp only [Runtime.seen, h.gots, h.resumes]

/-- The fields of a task that the rounds use are as before. -/
structure SamePause (t t' : Task W) : Prop where
  paused : t'.paused = t.paused
  gotpause : t'.gotpause = t.gotpause

/-- The fields of the collector that the rounds use are as before. -/
structure SameRound (gc gc' : Collector n) : Prop where
  ingc : gc'.ingc = gc.ingc
  waiting : gc'.waiting = gc.waiting
  gciter : gc'.gciter = gc.gciter

theorem Place.congr {gc gc' : Collector n} (h : SameRound gc gc') {paused : Bool} {p r : Nat}
    {l : List Control} (hp : Place gc paused p r l) : Place gc' paused p r l := by
  cases hp with
  | running h1 h2 h3 h4 => exact .running (h.ingc ▸ h1) h2 (h.gciter ▸ h3) (h.gciter ▸ h4)
  | paused h1 h2 h3 h4 => exact .paused (h.ingc ▸ h1) h2 (h.gciter ▸ h3) (h.gciter ▸ h4)
  | resuming h1 h2 h3 h4 => exact .resuming (h.ingc ▸ h1) h2 (h.gciter ▸ h3) (h.gciter ▸ h4)
  | pausing h1 h2 h3 h4 h5 =>
    exact .pausing (h.ingc ▸ h1) (h.waiting ▸ h2) h3 (h.gciter ▸ h4) (h.gciter ▸ h5)
  | behind h1 h2 h3 h4 h5 =>
    exact .behind (h.ingc ▸ h1) (h.waiting ▸ h2) h3 (h.gciter ▸ h4) (h.gciter ▸ h5)

/-- The three views of the channels do not change in a step without messages of the pauses. -/
theorem Event.Unpaused.views {s : Group W} {e : Event W} (h : e.Unpaused) (hf : e.Fits s) :
    (s.deliver e).controls = s.controls ∧ (s.deliver e).announced = s.announced ∧
      (s.deliver e).unreceived = s.unreceived := by
  have hsame : ∀ {β : Type} (f : Msg n W.Msg → Option β), (∀ m, unpaused m = true → f m = none) →
      ∀ a b, ((s.deliver e).chan a b).filterMap f = (s.chan a b).filterMap f := by
    intro β f hz a b
    exact filterMap_deliver_same f hf (fun m ht _ => hz m (h.took a m ht))
      (fun _ m hm => hz m (h.out _ hm))
  refine ⟨?_, ?_, ?_⟩
  · funext i
    exact hsame control (fun m => control_unpaused) _ _
  · funext j i
    simp only [Group.announced, hsame isGotpause (fun m => isGotpause_unpaused)]
  · funext i
    simp only [Group.unreceived, hsame isPauseack (fun m => isPauseack_unpaused)]

theorem PauseInv.neutral_step {s s' : Group W} {tr : List (Event W)} {e : Event W}
    (h : PauseInv s tr) (hf : e.Fits s) (hu : e.Unpaused) (hchan : s'.chan = (s.deliver e).chan)
    (htask : ∀ i, SamePause (s.task i) (s'.task i)) (hgc : SameRound s.gc s'.gc) :
    PauseInv s' (tr ++ [e]) := by
  have hh := hu.history tr
  obtain ⟨hc, ha, hr⟩ := hu.views hf
  have hc' : s'.controls = s.controls := by
    rw [← hc]
    funext i
    unfold Group.controls
    rw [hchan]
  have ha' : s'.announced = s.announced := by
    rw [← ha]
    funext j i
    unfold Group.announced
    rw [hchan]
  have hr' : s'.unreceived = s.unreceived := by
    rw [← hr]
    funext i
    unfold Group.unreceived
    rw [hchan]
  refine ⟨?_, fun i => ?_, fun i j => ?_, fun i j hj => ?_, fun i => ?_, fun i hi => ?_,
    fun i => ?_, fun i => ?_, fun i => ?_, ?_⟩
  · rw [hgc.waiting, hgc.ingc]
    exact h.waiting_ingc
  · rw [(htask i).paused, hh.pauses, hh.resumes, hc']
    exact (h.place i).congr hgc
  · rw [ha', hh.gots, hh.pauses]
    exact h.announced i j
  · rw [hh.resumes, hh.gots]
    exact h.round i j hj
  · rw [(htask i).gotpause, hh.seen]
    exact h.gotpause i
  · rw [hh.seen]
    exact h.full i (hc' ▸ hi)
  · rw [(htask i).paused, hh.seen, hh.acks, hh.pauses]
    exact h.answered i
  · rw [hr', hh.acked, hh.acks]
    exact h.unreceived i
  · rw [hgc.gciter, hh.acked]
    exact h.received i
  · rw [hgc.waiting, hgc.gciter, h.waiting]
    simp only [hh.acked]

/-! ## The sends of the handlers -/

theorem sentTo_toOthers {V : Type} (m : Msg n V) (i k : Fin n) :
    Channels.sentTo (toOthers i m) (some k) = if k = i then [] else [m] := by
  have h : ((List.finRange n).filter (fun j => j ≠ i)).filter (fun j => j = k) =
      if k = i then [] else [k] := by
    rw [List.filter_comm, List.filter_eq,
      List.count_eq_one_of_mem (List.nodup_finRange n) (List.mem_finRange k)]
    by_cases hk : k = i <;> simp [hk]
  have hmap : Channels.sentTo (toOthers i m) (some k) =
      (((List.finRange n).filter (fun j => j ≠ i)).filter (fun j => j = k)).map (fun _ => m) := by
    simp [Channels.sentTo, toOthers, List.filter_map, Function.comp_def]
  rw [hmap, h]
  split <;> rfl

theorem sentTo_toOthers_none {V : Type} (m : Msg n V) (i : Fin n) :
    Channels.sentTo (toOthers i m) none = [] := by
  rw [Channels.sentTo, List.map_eq_nil_iff, List.filter_eq_nil_iff]
  intro d hd
  obtain ⟨j, -, rfl⟩ := List.mem_map.mp hd
  simp

theorem sentTo_maybePauseack (t : Task W) (k : Fin n) :
    Channels.sentTo (maybePauseack t) (some k) = [] := by
  unfold maybePauseack
  split <;> simp [Channels.sentTo_cons]

theorem sentTo_maybePauseack_none (t : Task W) :
    Channels.sentTo (maybePauseack t) none =
      if t.paused ∧ n - 1 = t.gotpause then [.pauseack] else [] := by
  unfold maybePauseack
  split <;> simp [Channels.sentTo_cons]

/-! ## How many announcements a task has seen -/

theorem seen_subset (tr : List (Event W)) (i : Fin n) : seen tr i ⊆ Finset.univ.erase i := by
  intro j hj
  rw [seen, Finset.mem_filter] at hj
  exact Finset.mem_erase.mpr ⟨hj.2.1, Finset.mem_univ j⟩

theorem card_others (i : Fin n) : (Finset.univ.erase i).card = n - 1 := by
  rw [Finset.card_erase_of_mem (Finset.mem_univ i), Finset.card_univ, Fintype.card_fin]

theorem card_seen_le (tr : List (Event W)) (i : Fin n) : (seen tr i).card ≤ n - 1 := by
  rw [← card_others i]
  exact Finset.card_le_card (seen_subset tr i)

theorem card_seen_eq {tr : List (Event W)} {i : Fin n} :
    (seen tr i).card = n - 1 ↔ ∀ j, j ≠ i → gots tr i j = resumes tr i + 1 := by
  constructor
  · intro h j hj
    have heq : seen tr i = Finset.univ.erase i :=
      Finset.eq_of_subset_of_card_le (seen_subset tr i) (by rw [card_others, h])
    have hm : j ∈ seen tr i := heq ▸ Finset.mem_erase.mpr ⟨hj, Finset.mem_univ j⟩
    rw [seen, Finset.mem_filter] at hm
    exact hm.2.2
  · intro h
    rw [← card_others i]
    congr 1
    apply Finset.Subset.antisymm (seen_subset tr i)
    intro j hj
    rw [seen, Finset.mem_filter]
    exact ⟨Finset.mem_univ j, (Finset.mem_erase.mp hj).1, h j (Finset.mem_erase.mp hj).1⟩

theorem Place.pauses_le {gc : Collector n} {paused : Bool} {p r : Nat} {l : List Control}
    (h : Place gc paused p r l) : p ≤ gc.gciter := by
  cases h <;> omega

/-! ## Steps of the rounds -/

theorem handled_self (i k : Fin n) (c c' : Control) (m : Msg n W.Msg) (pending : List (Gaddr n))
    (out : Sends n W.Msg) (hm : control m = some c') :
    Event.handled k c (W := W) ⟨some i, some (none, m), pending, out⟩ = decide (i = k ∧ c' = c) := by
  simp [Event.handled, hm]

theorem PauseInv.pause_step {s : Group W} {tr : List (Event W)} {i : Fin n}
    {rest : List (Msg n W.Msg)} {t' : Task W} {out : Sends n W.Msg} (h : PauseInv s tr)
    (hch : s.chan none (some i) = .pause :: rest)
    (hp : interpreterPause i (s.task i) = some (t', out)) :
    PauseInv ((s.setTask i t').deliver ⟨some i, some (none, .pause), [], out⟩)
      (tr ++ [⟨some i, some (none, .pause), [], out⟩]) := by
  set e : Event W := ⟨some i, some (none, .pause), [], out⟩ with he
  have hfits : e.Fits s := fits_handle hch
  unfold interpreterPause at hp
  split at hp
  · cases hp
  rename_i hnp
  cases hp
  set t' : Task W := { s.task i with gc := true, paused := true } with ht'
  -- the history
  have hpauses : ∀ k, pauses (tr ++ [e]) k = pauses tr k + if i = k then 1 else 0 := by
    intro k
    rw [pauses_concat, handled_self i k .pause .pause _ _ _ rfl]
    simp
  have hresumes : ∀ k, resumes (tr ++ [e]) k = resumes tr k := by
    intro k
    rw [resumes_concat, handled_self i k .resume .pause _ _ _ rfl]
    simp
  have hgots : ∀ k j, gots (tr ++ [e]) k j = gots tr k j := by
    intro k j
    rw [gots_concat]
    simp [Event.counted, he]
  have hacked : ∀ k, acked (tr ++ [e]) k = acked tr k := by
    intro k
    rw [acked_concat]
    simp [Event.acked, he]
  have hseen : ∀ k, seen (tr ++ [e]) k = seen tr k := by
    intro k
    simp only [seen, hgots, hresumes]
  have hsentAck : ((Channels.sentTo e.out none).filterMap isPauseack).length =
      if (seen tr i).card = n - 1 then 1 else 0 := by
    have hg : t'.gotpause = (seen tr i).card := h.gotpause i
    simp only [he, Channels.sentTo_append, sentTo_toOthers_none, List.nil_append,
      sentTo_maybePauseack_none]
    rw [hg]
    by_cases hc : (seen tr i).card = n - 1
    · simp [t', hc, isPauseack]
    · simp [hc, Ne.symm hc]
  have hacks : ∀ k, acks (tr ++ [e]) k =
      acks tr k + if k = i ∧ (seen tr i).card = n - 1 then 1 else 0 := by
    intro k
    rw [acks_concat]
    by_cases hk : k = i
    · subst hk
      simp only [Event.acks, true_and]
      rw [if_pos (by rfl), hsentAck]
    · simp [Event.acks, he, hk, Ne.symm hk]
  -- the channels
  have hcontrols : s.controls i = .pause :: ((s.setTask i t').deliver e).controls i :=
    filterMap_deliver_take control hfits rfl rfl (by simp [he])
  have hcontrols' : ∀ k, k ≠ i → ((s.setTask i t').deliver e).controls k = s.controls k := by
    intro k hk
    refine filterMap_deliver_same control hfits (fun m _ hb => ?_) (fun ha => ?_)
    · exact absurd (Option.some.inj hb) hk
    · cases ha
  have hannounced : ∀ j k, ((s.setTask i t').deliver e).announced j k =
      s.announced j k + if j = i ∧ k ≠ i then 1 else 0 := by
    intro j k
    by_cases hj : j = i
    · subst hj
      have hsend := filterMap_deliver_send isGotpause (s := s) (e := e) (b := some k) (fun m ht => by
        simp [he] at ht)
      show (((s.deliver e).chan (some j) (some k)).filterMap isGotpause).length = _
      rw [show (some j : Party n) = e.actor from rfl, hsend, List.length_append]
      simp only [he, Channels.sentTo_append, sentTo_toOthers, sentTo_maybePauseack, List.append_nil]
      by_cases hk : k = j <;> simp [hk, Group.announced, isGotpause]
    · have hsame := filterMap_deliver_same isGotpause hfits (a := some j) (b := some k)
        (fun m ht _ => by simp [he] at ht) (fun ha => absurd (Option.some.inj ha) hj)
      show (((s.deliver e).chan (some j) (some k)).filterMap isGotpause).length = _
      rw [hsame]
      simp [Group.announced, hj]
  have hunreceived : ∀ k, ((s.setTask i t').deliver e).unreceived k =
      s.unreceived k + if k = i ∧ (seen tr i).card = n - 1 then 1 else 0 := by
    intro k
    show (((s.deliver e).chan (some k) none).filterMap isPauseack).length = _
    by_cases hk : k = i
    · subst hk
      have hsend := filterMap_deliver_send isPauseack (s := s) (e := e) (b := none) (fun m ht => by
        simp [he])
      rw [show (some k : Party n) = e.actor from rfl, hsend, List.length_append, hsentAck]
      simp [Group.unreceived, he]
    · have hsame := filterMap_deliver_same isPauseack hfits (a := some k) (b := none)
        (fun m ht _ => by simp [he] at ht) (fun ha => absurd (Option.some.inj ha) hk)
      rw [hsame]
      simp [Group.unreceived, hk]
  have hself : ((s.setTask i t').deliver e).task i = t' := setTask_self s i t'
  have htask : ∀ k, k ≠ i → ((s.setTask i t').deliver e).task k = s.task k :=
    fun k hk => setTask_other s t' hk
  have hplace := h.place i
  rw [hcontrols] at hplace
  generalize hl : ((s.setTask i t').deliver e).controls i = l at hplace
  have hpl : l = [] ∧ s.gc.ingc = true ∧ pauses tr i + 1 = s.gc.gciter ∧
      resumes tr i + 1 = s.gc.gciter := by
    cases hplace with
    | pausing h1 _ _ h4 h5 => exact ⟨rfl, h1, h4, h5⟩
  obtain ⟨rfl, hin, hpi, hri⟩ := hpl
  refine ⟨h.waiting_ingc, fun k => ?_, fun k j => ?_, fun k j hj => ?_, fun k => ?_, fun k hk => ?_,
    fun k => ?_, fun k => ?_, fun k => ?_, ?_⟩
  · by_cases hk : k = i
    · subst hk
      rw [hl, hself, hpauses, hresumes, if_pos rfl]
      exact .paused hin rfl hpi hri
    · rw [hcontrols' k hk, htask k hk, hpauses, hresumes, if_neg (Ne.symm hk)]
      exact h.place k
  · have := h.announced k j
    rw [hannounced, hgots, hpauses]
    by_cases hj : j = i
    · subst hj
      by_cases hk : k = j
      · subst hk
        simpa using this
      · rw [if_pos ⟨rfl, hk⟩, if_pos rfl]
        rw [if_neg (Ne.symm hk)] at this ⊢
        omega
    · rw [if_neg (fun hc => hj hc.1), if_neg (Ne.symm hj)]
      simpa using this
  · rw [hresumes, hgots]
    exact h.round k j hj
  · rw [hseen]
    by_cases hk : k = i
    · subst hk
      rw [hself]
      exact h.gotpause k
    · rw [htask k hk]
      exact h.gotpause k
  · rw [hseen]
    by_cases hki : k = i
    · subst hki
      rw [hl] at hk
      simp at hk
    · rw [hcontrols' k hki] at hk
      exact h.full k hk
  · rw [hseen, hacks, hpauses]
    have := h.answered k
    by_cases hk : k = i
    · subst hk
      rw [hself]
      simp only [hnp, Bool.false_eq_true, false_and, if_false, Nat.add_zero] at this
      by_cases hc : (seen tr k).card = n - 1 <;> simp [hc, t', this]
    · rw [htask k hk, if_neg (fun hc => hk hc.1), if_neg (Ne.symm hk)]
      exact this
  · rw [hunreceived, hacked, hacks]
    have := h.unreceived k
    omega
  · rw [hacked]
    exact h.received k
  · show s.gc.waiting = ∑ k, (s.gc.gciter - acked (tr ++ [e]) k)
    rw [h.waiting]
    simp only [hacked]

/-- A GOTPAUSE on its way to a task that has counted one of the same sender in its current round:
then the RESUME of that round is on its way too. -/
theorem PauseInv.ahead {s : Group W} {tr : List (Event W)} (h : PauseInv s tr) {i j : Fin n}
    (hann : 0 < s.announced j i) (hgot : gots tr i j = resumes tr i + 1) :
    Control.resume ∈ s.controls i := by
  have h1 := h.announced i j
  have h2 := (h.place j).pauses_le
  have h3 := h.place i
  have hji : j ≠ i := by
    rintro rfl
    simp only [if_pos] at h1
    omega
  rw [if_neg hji] at h1
  cases h3l : s.controls i with
  | nil =>
    rw [h3l] at h3
    cases h3 <;> omega
  | cons c l =>
    rw [h3l] at h3
    cases h3 with
    | resuming _ _ _ _ => simp
    | pausing _ _ _ _ _ => omega
    | behind _ _ _ _ _ => simp

theorem PauseInv.announced_ne {s : Group W} {tr : List (Event W)} (h : PauseInv s tr) {i j : Fin n}
    (hann : 0 < s.announced j i) : j ≠ i := by
  rintro rfl
  have := h.announced j j
  simp only [if_pos] at this
  omega

/-- The assertion of `interpreter_gotpause` holds exactly when the task has handled the RESUME of
the round before. -/
theorem PauseInv.gotpause_ok {s : Group W} {tr : List (Event W)} (h : PauseInv s tr) {i j : Fin n}
    (hann : 0 < s.announced j i) :
    (s.task i).gotpause + 1 ≤ n - 1 ↔ Control.resume ∉ s.controls i := by
  rw [h.gotpause]
  constructor
  · intro hlt hr
    have := h.full i hr
    omega
  · intro hr
    have hne : (seen tr i).card ≠ n - 1 := by
      intro hc
      exact hr (h.ahead hann (card_seen_eq.mp hc j (h.announced_ne hann)))
    have := card_seen_le tr i
    omega

/-- A GOTPAUSE that is handled without a failed assertion is the one of the current round. -/
theorem PauseInv.current {s : Group W} {tr : List (Event W)} (h : PauseInv s tr) {i j : Fin n}
    (hann : 0 < s.announced j i) (hle : (s.task i).gotpause + 1 ≤ n - 1) :
    gots tr i j = resumes tr i := by
  have hnr := (h.gotpause_ok hann).mp hle
  have h1 := h.round i j (h.announced_ne hann)
  have h2 : gots tr i j ≠ resumes tr i + 1 := fun hc => hnr (h.ahead hann hc)
  omega

theorem PauseInv.gotpause_step {s : Group W} {tr : List (Event W)} {i j : Fin n}
    {rest : List (Msg n W.Msg)} {t' : Task W} {out : Sends n W.Msg} (h : PauseInv s tr)
    (hch : s.chan (some j) (some i) = .gotpause :: rest)
    (hp : interpreterGotpause (s.task i) = some (t', out)) :
    PauseInv ((s.setTask i t').deliver ⟨some i, some (some j, .gotpause), [], out⟩)
      (tr ++ [⟨some i, some (some j, .gotpause), [], out⟩]) := by
  set e : Event W := ⟨some i, some (some j, .gotpause), [], out⟩ with he
  have hfits : e.Fits s := fits_handle hch
  unfold interpreterGotpause at hp
  simp only at hp
  split at hp
  case isFalse => cases hp
  rename_i hle
  cases hp
  set t' : Task W := { s.task i with gotpause := (s.task i).gotpause + 1 } with ht'
  have hann : 0 < s.announced j i := by
    simp [Group.announced, hch, isGotpause]
  have hji := h.announced_ne hann
  have hnr := (h.gotpause_ok hann).mp hle
  have hgot := h.current hann hle
  have hpauses : ∀ k, pauses (tr ++ [e]) k = pauses tr k := by
    intro k
    rw [pauses_concat]
    simp [Event.handled, he]
  have hresumes : ∀ k, resumes (tr ++ [e]) k = resumes tr k := by
    intro k
    rw [resumes_concat]
    simp [Event.handled, he]
  have hgots : ∀ k l, gots (tr ++ [e]) k l = gots tr k l + if k = i ∧ l = j then 1 else 0 := by
    intro k l
    have hc : e.counted k l = decide (k = i ∧ l = j) := by
      simp only [Event.counted, he, isGotpause, Option.some.injEq, and_true]
      exact decide_eq_decide.mpr ⟨fun hx => ⟨hx.1.symm, hx.2.symm⟩, fun hx => ⟨hx.1.symm, hx.2.symm⟩⟩
    rw [gots_concat, hc]
    simp
  have hacked : ∀ k, acked (tr ++ [e]) k = acked tr k := by
    intro k
    rw [acked_concat]
    simp [Event.acked, he]
  have hseen : seen (tr ++ [e]) i = insert j (seen tr i) := by
    ext k
    simp only [seen, Finset.mem_filter, Finset.mem_univ, true_and, Finset.mem_insert, hgots, hresumes]
    by_cases hk : k = j
    · subst hk
      simp [hji, hgot]
    · simp [hk]
  have hseen' : ∀ k, k ≠ i → seen (tr ++ [e]) k = seen tr k := by
    intro k hk
    simp only [seen, hgots, hresumes, hk, false_and, if_false, Nat.add_zero]
  have hcard : (seen (tr ++ [e]) i).card = (seen tr i).card + 1 := by
    rw [hseen, Finset.card_insert_of_notMem]
    simp [seen, hgot]
  have hgp : t'.gotpause = (seen (tr ++ [e]) i).card := by
    rw [hcard, ← h.gotpause]
  have hsentAck : ((Channels.sentTo e.out none).filterMap isPauseack).length =
      if (s.task i).paused ∧ (seen (tr ++ [e]) i).card = n - 1 then 1 else 0 := by
    simp only [he, sentTo_maybePauseack_none]
    rw [hgp]
    by_cases hc : (s.task i).paused = true ∧ (seen (tr ++ [e]) i).card = n - 1
    · rw [if_pos hc, if_pos ⟨hc.1, hc.2.symm⟩]
      rfl
    · rw [if_neg hc, if_neg (fun hx => hc ⟨hx.1, hx.2.symm⟩)]
      rfl
  have hacks : ∀ k, acks (tr ++ [e]) k = acks tr k +
      if k = i ∧ (s.task i).paused ∧ (seen (tr ++ [e]) i).card = n - 1 then 1 else 0 := by
    intro k
    rw [acks_concat]
    by_cases hk : k = i
    · subst hk
      simp only [Event.acks, true_and]
      rw [if_pos (by rfl), hsentAck]
    · simp [Event.acks, he, hk, Ne.symm hk]
  have hcontrols : ∀ k, ((s.setTask i t').deliver e).controls k = s.controls k := by
    intro k
    refine filterMap_deliver_same control hfits (fun m ht _ => ?_) (fun ha => ?_)
    · simp [he] at ht
    · cases ha
  have hannounced : s.announced j i = ((s.setTask i t').deliver e).announced j i + 1 := by
    have := filterMap_deliver_take isGotpause hfits (a := some j) rfl rfl
      (by simpa [he] using hji)
    show ((s.chan (some j) (some i)).filterMap isGotpause).length = _
    rw [show (some i : Party n) = e.actor from rfl, this, List.length_cons]
    rfl
  have hannounced' : ∀ l k, ¬ (l = j ∧ k = i) →
      ((s.setTask i t').deliver e).announced l k = s.announced l k := by
    intro l k hlk
    have := filterMap_deliver_same isGotpause hfits (a := some l) (b := some k)
      (fun m ht hb => by
        simp only [he, Option.some.injEq, Prod.mk.injEq] at ht hb
        exact absurd ⟨ht.1.symm, hb⟩ hlk)
      (fun _ m hm => by
        have hm' := Channels.mem_sentTo.mpr hm
        simp [he, sentTo_maybePauseack] at hm')
    show (((s.deliver e).chan (some l) (some k)).filterMap isGotpause).length = _
    rw [this]
    rfl
  have hunreceived : ∀ k, ((s.setTask i t').deliver e).unreceived k = s.unreceived k +
      if k = i ∧ (s.task i).paused ∧ (seen (tr ++ [e]) i).card = n - 1 then 1 else 0 := by
    intro k
    show (((s.deliver e).chan (some k) none).filterMap isPauseack).length = _
    by_cases hk : k = i
    · subst hk
      have hsend := filterMap_deliver_send isPauseack (s := s) (e := e) (b := none) (fun m ht => by
        simp [he])
      rw [show (some k : Party n) = e.actor from rfl, hsend, List.length_append, hsentAck]
      simp [Group.unreceived, he]
    · have hsame := filterMap_deliver_same isPauseack hfits (a := some k) (b := none)
        (fun m _ hb => by simp [he] at hb) (fun ha => absurd (Option.some.inj ha) hk)
      rw [hsame]
      simp [Group.unreceived, hk]
  have hself : ((s.setTask i t').deliver e).task i = t' := setTask_self s i t'
  have htask : ∀ k, k ≠ i → ((s.setTask i t').deliver e).task k = s.task k :=
    fun k hk => setTask_other s t' hk
  have hpaused : ∀ k, (((s.setTask i t').deliver e).task k).paused = (s.task k).paused := by
    intro k
    by_cases hk : k = i
    · subst hk
      rw [hself]
    · rw [htask k hk]
  refine ⟨h.waiting_ingc, fun k => ?_, fun k l => ?_, fun k l hl => ?_, fun k => ?_, fun k hk => ?_,
    fun k => ?_, fun k => ?_, fun k => ?_, ?_⟩
  · rw [hcontrols, hpaused, hpauses, hresumes]
    exact h.place k
  · rw [hgots, hpauses]
    have := h.announced k l
    by_cases hkl : k = i ∧ l = j
    · obtain ⟨rfl, rfl⟩ := hkl
      rw [if_pos ⟨rfl, rfl⟩]
      omega
    · rw [if_neg hkl, hannounced' l k (fun hc => hkl ⟨hc.2, hc.1⟩)]
      exact this
  · rw [hresumes, hgots]
    have := h.round k l hl
    by_cases hkl : k = i ∧ l = j
    · obtain ⟨rfl, rfl⟩ := hkl
      rw [if_pos ⟨rfl, rfl⟩, hgot]
      omega
    · rw [if_neg hkl]
      exact this
  · by_cases hk : k = i
    · subst hk
      rw [hself]
      exact hgp
    · rw [htask k hk, hseen' k hk]
      exact h.gotpause k
  · rw [hcontrols] at hk
    by_cases hki : k = i
    · subst hki
      exact absurd hk hnr
    · rw [hseen' k hki]
      exact h.full k hk
  · rw [hpaused, hacks, hpauses]
    have := h.answered k
    by_cases hk : k = i
    · subst hk
      have hne : (seen tr k).card ≠ n - 1 := by
        have := card_seen_le (tr ++ [e]) k
        omega
      cases hpk : (s.task k).paused with
      | false => simpa [hpk] using this
      | true =>
        simp only [hpk, hne, ne_eq, not_false_eq_true, and_self, if_true] at this
        by_cases hc : (seen (tr ++ [e]) k).card = n - 1 <;> simp [hc, this]
    · rw [hseen' k hk, if_neg (fun hc => hk hc.1)]
      simpa using this
  · rw [hunreceived, hacked, hacks]
    have := h.unreceived k
    omega
  · rw [hacked]
    exact h.received k
  · show s.gc.waiting = ∑ k, (s.gc.gciter - acked (tr ++ [e]) k)
    rw [h.waiting]
    simp only [hacked]

theorem PauseInv.resume_step {s : Group W} {tr : List (Event W)} {i : Fin n}
    {rest : List (Msg n W.Msg)} (h : PauseInv s tr)
    (hch : s.chan none (some i) = .resume :: rest) :
    PauseInv ((s.setTask i (interpreterResume (s.task i))).deliver
      ⟨some i, some (none, .resume), [], []⟩) (tr ++ [⟨some i, some (none, .resume), [], []⟩]) := by
  set e : Event W := ⟨some i, some (none, .resume), [], []⟩ with he
  set t' := interpreterResume (s.task i) with ht'
  have hfits : e.Fits s := fits_handle hch
  have hpauses : ∀ k, pauses (tr ++ [e]) k = pauses tr k := by
    intro k
    rw [pauses_concat, handled_self i k .pause .resume _ _ _ rfl]
    simp
  have hresumes : ∀ k, resumes (tr ++ [e]) k = resumes tr k + if i = k then 1 else 0 := by
    intro k
    rw [resumes_concat, handled_self i k .resume .resume _ _ _ rfl]
    simp
  have hgots : ∀ k j, gots (tr ++ [e]) k j = gots tr k j := by
    intro k j
    rw [gots_concat]
    simp [Event.counted, he]
  have hacks : ∀ k, acks (tr ++ [e]) k = acks tr k := by
    intro k
    rw [acks_concat]
    simp [Event.acks, he]
  have hacked : ∀ k, acked (tr ++ [e]) k = acked tr k := by
    intro k
    rw [acked_concat]
    simp [Event.acked, he]
  have hcontrols : s.controls i = .resume :: ((s.setTask i t').deliver e).controls i :=
    filterMap_deliver_take control hfits rfl rfl (by simp [he])
  have hcontrols' : ∀ k, k ≠ i → ((s.setTask i t').deliver e).controls k = s.controls k := by
    intro k hk
    refine filterMap_deliver_same control hfits (fun m _ hb => ?_) (fun ha => ?_)
    · exact absurd (Option.some.inj hb) hk
    · cases ha
  have hannounced : ∀ j k, ((s.setTask i t').deliver e).announced j k = s.announced j k := by
    intro j k
    have := filterMap_deliver_same isGotpause hfits (a := some j) (b := some k)
      (fun m ht _ => by simp [he] at ht) (fun _ m hm => by simp [he] at hm)
    show (((s.deliver e).chan (some j) (some k)).filterMap isGotpause).length = _
    rw [this]
    rfl
  have hunreceived : ∀ k, ((s.setTask i t').deliver e).unreceived k = s.unreceived k := by
    intro k
    have := filterMap_deliver_same isPauseack hfits (a := some k) (b := none)
      (fun m ht _ => by simp [he] at ht) (fun _ m hm => by simp [he] at hm)
    show (((s.deliver e).chan (some k) none).filterMap isPauseack).length = _
    rw [this]
    rfl
  -- all announcements of the round have been counted; none of the next one has
  have hfull := card_seen_eq.mp (h.full i (by rw [hcontrols]; simp))
  have hseen : seen (tr ++ [e]) i = ∅ := by
    ext j
    simp only [seen, Finset.mem_filter, Finset.mem_univ, true_and, hgots, hresumes, if_pos,
      Finset.notMem_empty, iff_false, not_and]
    intro hj
    have := hfull j hj
    omega
  have hseen' : ∀ k, k ≠ i → seen (tr ++ [e]) k = seen tr k := by
    intro k hk
    simp only [seen, hgots, hresumes, Ne.symm hk, if_false, Nat.add_zero]
  have hself : ((s.setTask i t').deliver e).task i = t' := setTask_self s i t'
  have htask : ∀ k, k ≠ i → ((s.setTask i t').deliver e).task k = s.task k :=
    fun k hk => setTask_other s t' hk
  have hplace := h.place i
  rw [hcontrols] at hplace
  refine ⟨h.waiting_ingc, fun k => ?_, fun k j => ?_, fun k j hj => ?_, fun k => ?_, fun k hk => ?_,
    fun k => ?_, fun k => ?_, fun k => ?_, ?_⟩
  · by_cases hk : k = i
    · subst hk
      rw [hself, hpauses, hresumes, if_pos rfl]
      generalize ((s.setTask k t').deliver e).controls k = l at hplace
      cases hplace with
      | resuming h1 _ h3 h4 => exact .running h1 rfl h3 h4
      | behind h1 h2 _ h4 h5 => exact .pausing h1 h2 rfl h4 h5
    · rw [hcontrols' k hk, htask k hk, hpauses, hresumes, if_neg (Ne.symm hk)]
      exact h.place k
  · rw [hannounced, hgots, hpauses]
    exact h.announced k j
  · rw [hresumes, hgots]
    by_cases hk : k = i
    · subst hk
      have := hfull j hj
      rw [if_pos rfl]
      omega
    · rw [if_neg (Ne.symm hk)]
      exact h.round k j hj
  · by_cases hk : k = i
    · subst hk
      rw [hself, hseen]
      rfl
    · rw [htask k hk, hseen' k hk]
      exact h.gotpause k
  · by_cases hki : k = i
    · subst hki
      exfalso
      generalize ((s.setTask k t').deliver e).controls k = l at hplace hk
      cases hplace with
      | resuming _ _ _ _ => simp at hk
      | behind _ _ _ _ _ => simp at hk
    · rw [hcontrols' k hki] at hk
      rw [hseen' k hki]
      exact h.full k hk
  · rw [hacks, hpauses]
    have := h.answered k
    by_cases hk : k = i
    · subst hk
      rw [hself]
      rw [card_seen_eq.mpr hfull] at this
      simpa [t', interpreterResume] using this
    · rw [htask k hk, hseen' k hk]
      exact this
  · rw [hunreceived, hacked, hacks]
    exact h.unreceived k
  · rw [hacked]
    exact h.received k
  · show s.gc.waiting = ∑ k, (s.gc.gciter - acked (tr ++ [e]) k)
    rw [h.waiting]
    simp only [hacked]

/-! ## Steps of the collector -/

/-- When the collector waits for nobody, it has an acknowledgement of every task for every round. -/
theorem PauseInv.all_acked {s : Group W} {tr : List (Event W)} (h : PauseInv s tr)
    (hw : s.gc.waiting = 0) (i : Fin n) : acked tr i = s.gc.gciter := by
  have h1 := h.waiting
  rw [hw] at h1
  have h2 := (Finset.sum_eq_zero_iff.mp h1.symm) i (Finset.mem_univ i)
  have h3 := (h.received i).1
  omega

theorem PauseInv.acks_le {s : Group W} {tr : List (Event W)} (h : PauseInv s tr) (i : Fin n) :
    acks tr i ≤ pauses tr i := by
  have := h.answered i
  omega

/-- Once all have acknowledged the round, every task is paused, or is about to be resumed, and has
seen the pause of all others. -/
theorem PauseInv.all_paused {s : Group W} {tr : List (Event W)} (h : PauseInv s tr)
    (hw : s.gc.waiting = 0) (hin : s.gc.ingc = true) (i : Fin n) :
    s.controls i = [] ∧ (s.task i).paused = true ∧ pauses tr i = s.gc.gciter ∧
      resumes tr i + 1 = s.gc.gciter ∧ (seen tr i).card = n - 1 := by
  have h1 := h.all_acked hw i
  have h2 := h.unreceived i
  have h3 := h.answered i
  have h4 := h.place i
  have h5 := h4.pauses_le
  cases hc : s.controls i with
  | nil =>
    rw [hc] at h4
    cases h4 with
    | running hf _ _ _ => simp [hin] at hf
    | paused _ hp hpi hri =>
      refine ⟨rfl, hp, hpi, hri, ?_⟩
      by_contra hne
      simp only [hp, hne, ne_eq, not_false_eq_true, and_self, if_true] at h3
      omega
  | cons c l =>
    rw [hc] at h4
    cases h4 with
    | resuming hf _ _ _ => simp [hin] at hf
    | pausing _ hw' _ _ _ => omega
    | behind _ hw' _ _ _ => omega

/-- The history and the channels between tasks do not change in a step of the collector that
receives no PAUSEACK. -/
theorem collector_history (tr : List (Event W)) (took : Option (Party n × Msg n W.Msg))
    (out : Sends n W.Msg) (hm : ∀ j m, took = some (j, m) → isPauseack m = none) :
    SameHistory tr (tr ++ [⟨none, took, [], out⟩]) where
  pauses i := by
    rw [pauses_concat]
    unfold Event.handled
    split <;> split <;> simp_all
  resumes i := by
    rw [resumes_concat]
    unfold Event.handled
    split <;> split <;> simp_all
  gots i j := by
    rw [gots_concat]
    unfold Event.counted
    split <;> split <;> simp_all
  acks i := by
    rw [acks_concat]
    simp [Event.acks]
  acked i := by
    rw [acked_concat]
    unfold Event.acked
    split <;> split <;> simp_all

theorem collector_announced {s : Group W} {took : Option (Party n × Msg n W.Msg)}
    {out : Sends n W.Msg} (hf : Event.Fits ⟨none, took, [], out⟩ s) (j i : Fin n) :
    (s.deliver ⟨none, took, [], out⟩).announced j i = s.announced j i := by
  unfold Group.announced
  rw [filterMap_deliver_same isGotpause hf (fun m _ hb => by cases hb) (fun ha => by cases ha)]

theorem collector_unreceived {s : Group W} {took : Option (Party n × Msg n W.Msg)}
    {out : Sends n W.Msg} (hf : Event.Fits ⟨none, took, [], out⟩ s)
    (hm : ∀ j m, took = some (j, m) → isPauseack m = none) (i : Fin n) :
    (s.deliver ⟨none, took, [], out⟩).unreceived i = s.unreceived i := by
  unfold Group.unreceived
  rw [filterMap_deliver_same isPauseack hf (fun m ht _ => hm _ m ht) (fun ha => by cases ha)]

theorem collector_controls {s : Group W} {took : Option (Party n × Msg n W.Msg)}
    {out : Sends n W.Msg} (i : Fin n) :
    (s.deliver ⟨none, took, [], out⟩).controls i =
      s.controls i ++ (Channels.sentTo out (some i)).filterMap control :=
  filterMap_deliver_send control (s := s) (e := ⟨none, took, [], out⟩) (b := some i)
    (fun m _ => by simp)

theorem PauseInv.timeout_step {s : Group W} {tr : List (Event W)} {gc : Collector n}
    {out : Sends n W.Msg} (h : PauseInv s tr) (ht : gcTimeout s.gc = some (gc, out)) :
    PauseInv ({ s with gc := gc }.deliver ⟨none, none, [], out⟩)
      (tr ++ [⟨none, none, [], out⟩]) := by
  unfold gcTimeout at ht
  split at ht
  · cases ht
  rename_i hin
  cases ht
  set e : Event W := ⟨none, none, [], toAll .pause⟩ with he
  have hw : s.gc.waiting = 0 := by
    by_contra hc
    exact hin (h.waiting_ingc (by omega))
  have hfits : e.Fits s := fits_none _ _ _ _
  have hh : SameHistory tr (tr ++ [e]) := collector_history tr none _ (fun j m hc => by cases hc)
  have hcontrols : ∀ i, (s.deliver e).controls i = s.controls i ++ [.pause] := by
    intro i
    rw [collector_controls, sentTo_toAll]
    rfl
  refine ⟨fun _ => rfl, fun i => ?_, fun i j => ?_, fun i j hj => ?_, fun i => ?_, fun i hi => ?_,
    fun i => ?_, fun i => ?_, fun i => ?_, ?_⟩
  · rw [hh.pauses, hh.resumes]
    show Place _ (s.task i).paused _ _ ((s.deliver e).controls i)
    rw [hcontrols]
    have hp := h.place i
    have hpos : 0 < n := i.pos
    generalize s.controls i = l at hp
    cases hp with
    | running h1 h2 h3 h4 =>
      exact .pausing rfl hpos h2 (congrArg (· + 1) h3) (congrArg (· + 1) h4)
    | paused h1 _ _ _ => exact absurd h1 hin
    | resuming h1 h2 h3 h4 =>
      exact .behind rfl hpos h2 (congrArg (· + 1) h3) (congrArg (· + 1) h4)
    | pausing h1 _ _ _ _ => exact absurd h1 hin
    | behind h1 _ _ _ _ => exact absurd h1 hin
  · rw [hh.gots, hh.pauses]
    show (s.deliver e).announced j i + _ = _
    rw [collector_announced hfits]
    exact h.announced i j
  · rw [hh.resumes, hh.gots]
    exact h.round i j hj
  · rw [hh.seen]
    exact h.gotpause i
  · rw [hh.seen]
    refine h.full i ?_
    have hi' : Control.resume ∈ (s.deliver e).controls i := hi
    rw [hcontrols] at hi'
    simpa using hi'
  · rw [hh.seen, hh.acks, hh.pauses]
    exact h.answered i
  · rw [hh.acked, hh.acks]
    show (s.deliver e).unreceived i + _ = _
    rw [collector_unreceived hfits (fun j m hc => by cases hc)]
    exact h.unreceived i
  · rw [hh.acked, h.all_acked hw i]
    exact ⟨by simp, by simp⟩
  · show n = ∑ i, (s.gc.gciter + 1 - acked (tr ++ [e]) i)
    simp only [hh.acked, h.all_acked hw]
    simp

theorem PauseInv.resumeAll_step {s : Group W} {tr : List (Event W)} {i : Fin n}
    {rest : List (Msg n W.Msg)} {gc : Collector n} (h : PauseInv s tr)
    (hch : s.chan (some i) none = .sweepack :: rest) (hin : s.gc.ingc = true)
    (hw : s.gc.waiting = 0) (hgc : gc.ingc = false) (hwait : gc.waiting = 0)
    (hiter : gc.gciter = s.gc.gciter) :
    PauseInv ({ s with gc := gc }.deliver
        ⟨none, some (some i, .sweepack), [], toAll .checkallrefs ++ toAll .resume⟩)
      (tr ++ [⟨none, some (some i, .sweepack), [], toAll .checkallrefs ++ toAll .resume⟩]) := by
  set e : Event W :=
    ⟨none, some (some i, .sweepack), [], toAll .checkallrefs ++ toAll .resume⟩ with he
  have hfits : e.Fits s := fits_receive hch
  have hnot : ∀ (j : Party n) (m : Msg n W.Msg), some (some i, Msg.sweepack) = some (j, m) →
      isPauseack m = none := by
    intro j m hc
    simp only [Option.some.injEq, Prod.mk.injEq] at hc
    rw [← hc.2]
    rfl
  have hh : SameHistory tr (tr ++ [e]) := collector_history tr _ _ hnot
  have hcontrols : ∀ k, (s.deliver e).controls k = s.controls k ++ [.resume] := by
    intro k
    rw [collector_controls, Channels.sentTo_append, sentTo_toAll, sentTo_toAll]
    rfl
  refine ⟨fun hc => by simp [hwait] at hc, fun k => ?_, fun k j => ?_, fun k j hj => ?_, fun k => ?_,
    fun k _ => ?_, fun k => ?_, fun k => ?_, fun k => ?_, ?_⟩
  · rw [hh.pauses, hh.resumes]
    show Place gc (s.task k).paused _ _ ((s.deliver e).controls k)
    obtain ⟨h1, h2, h3, h4, -⟩ := h.all_paused hw hin k
    rw [hcontrols, h1]
    exact .resuming hgc h2 (by omega) (by omega)
  · rw [hh.gots, hh.pauses]
    show (s.deliver e).announced j k + _ = _
    rw [collector_announced hfits]
    exact h.announced k j
  · rw [hh.resumes, hh.gots]
    exact h.round k j hj
  · rw [hh.seen]
    exact h.gotpause k
  · rw [hh.seen]
    exact (h.all_paused hw hin k).2.2.2.2
  · rw [hh.seen, hh.acks, hh.pauses]
    exact h.answered k
  · rw [hh.acked, hh.acks]
    show (s.deliver e).unreceived k + _ = _
    rw [collector_unreceived hfits hnot]
    exact h.unreceived k
  · rw [hh.acked]
    show _ ≤ gc.gciter ∧ gc.gciter ≤ _
    rw [hiter]
    exact h.received k
  · show gc.waiting = ∑ k, (gc.gciter - acked (tr ++ [e]) k)
    rw [hwait, hiter]
    simp only [hh.acked, h.all_acked hw]
    simp

theorem PauseInv.pauseack_step {s : Group W} {tr : List (Event W)} {i : Fin n}
    {rest : List (Msg n W.Msg)} {gc : Collector n} {out : Sends n W.Msg} (h : PauseInv s tr)
    (hch : s.chan (some i) none = .pauseack :: rest) (hpos : 0 < s.gc.waiting)
    (hgc : gc.ingc = s.gc.ingc) (hwait : gc.waiting = s.gc.waiting - 1)
    (hiter : gc.gciter = s.gc.gciter) (hout : ∀ d ∈ out, control d.2 = none) :
    PauseInv ({ s with gc := gc }.deliver ⟨none, some (some i, .pauseack), [], out⟩)
      (tr ++ [⟨none, some (some i, .pauseack), [], out⟩]) := by
  set e : Event W := ⟨none, some (some i, .pauseack), [], out⟩ with he
  have hfits : e.Fits s := fits_receive hch
  have hpauses : ∀ k, pauses (tr ++ [e]) k = pauses tr k := by
    intro k
    rw [pauses_concat]
    simp [Event.handled, he]
  have hresumes : ∀ k, resumes (tr ++ [e]) k = resumes tr k := by
    intro k
    rw [resumes_concat]
    simp [Event.handled, he]
  have hgots : ∀ k j, gots (tr ++ [e]) k j = gots tr k j := by
    intro k j
    rw [gots_concat]
    simp [Event.counted, he]
  have hacks : ∀ k, acks (tr ++ [e]) k = acks tr k := by
    intro k
    rw [acks_concat]
    simp [Event.acks, he]
  have hacked : ∀ k, acked (tr ++ [e]) k = acked tr k + if i = k then 1 else 0 := by
    intro k
    rw [acked_concat]
    simp [Event.acked, he, isPauseack]
  have hseen : ∀ k, seen (tr ++ [e]) k = seen tr k := by
    intro k
    simp only [seen, hgots, hresumes]
  have hcontrols : ∀ k, (s.deliver e).controls k = s.controls k := by
    intro k
    have hnil : (Channels.sentTo out (some k)).filterMap control = [] := by
      rw [List.filterMap_eq_nil_iff]
      exact fun m hm => hout _ (Channels.mem_sentTo.mp hm)
    rw [collector_controls, hnil, List.append_nil]
  have hunreceived : ∀ k, (s.deliver e).unreceived k + (if i = k then 1 else 0) = s.unreceived k := by
    intro k
    by_cases hk : i = k
    · subst hk
      have := filterMap_deliver_take isPauseack hfits (a := some i) rfl rfl (by simp [he])
      rw [if_pos rfl]
      show _ = ((s.chan (some i) none).filterMap isPauseack).length
      rw [show (none : Party n) = e.actor from rfl, this, List.length_cons]
      rfl
    · have hsame := filterMap_deliver_same isPauseack hfits (a := some k) (b := none)
        (fun m ht _ => by
          simp only [he, Option.some.injEq, Prod.mk.injEq] at ht
          exact absurd ht.1 hk)
        (fun ha => by cases ha)
      rw [if_neg hk, Nat.add_zero]
      unfold Group.unreceived
      rw [hsame]
  -- the acknowledgement that arrives is one of the current round
  have hless : acked tr i + 1 ≤ s.gc.gciter := by
    have h1 := hunreceived i
    have h2 := h.unreceived i
    have h3 := h.acks_le i
    have h4 := (h.place i).pauses_le
    rw [if_pos rfl] at h1
    omega
  have hsum : ∑ k, (s.gc.gciter - acked (tr ++ [e]) k) + 1 = ∑ k, (s.gc.gciter - acked tr k) := by
    rw [← Finset.sum_erase_add _ _ (Finset.mem_univ i),
      ← Finset.sum_erase_add _ (fun k => s.gc.gciter - acked tr k) (Finset.mem_univ i)]
    have h1 : ∑ k ∈ Finset.univ.erase i, (s.gc.gciter - acked (tr ++ [e]) k) =
        ∑ k ∈ Finset.univ.erase i, (s.gc.gciter - acked tr k) := by
      apply Finset.sum_congr rfl
      intro k hk
      rw [hacked, if_neg (Finset.ne_of_mem_erase hk).symm, Nat.add_zero]
    rw [h1, hacked, if_pos rfl]
    omega
  have hwaiting : gc.waiting = ∑ k, (s.gc.gciter - acked (tr ++ [e]) k) := by
    have := h.waiting
    omega
  refine ⟨fun hc => ?_, fun k => ?_, fun k j => ?_, fun k j hj => ?_, fun k => ?_, fun k hk => ?_,
    fun k => ?_, fun k => ?_, fun k => ?_, ?_⟩
  · show gc.ingc = true
    rw [hgc]
    exact h.waiting_ingc hpos
  · rw [hpauses, hresumes]
    show Place gc (s.task k).paused _ _ ((s.deliver e).controls k)
    rw [hcontrols]
    -- the last acknowledgement: nobody has a PAUSE left to handle
    have hend : gc.waiting = 0 → pauses tr k = s.gc.gciter := by
      intro hz
      rw [hz] at hwaiting
      have h1 := (Finset.sum_eq_zero_iff.mp hwaiting.symm) k (Finset.mem_univ k)
      have h2 := h.unreceived k
      have h3 := hunreceived k
      have h4 := h.acks_le k
      have h5 := (h.place k).pauses_le
      rw [hacked] at h1
      by_cases hk : i = k
      · rw [if_pos hk] at h1 h3
        omega
      · rw [if_neg hk] at h1 h3
        omega
    have hp := h.place k
    generalize s.controls k = l at hp
    cases hp with
    | running h1 h2 h3 h4 => exact .running (hgc ▸ h1) h2 (by omega) (by omega)
    | paused h1 h2 h3 h4 => exact .paused (hgc ▸ h1) h2 (by omega) (by omega)
    | resuming h1 h2 h3 h4 => exact .resuming (hgc ▸ h1) h2 (by omega) (by omega)
    | pausing h1 h2 h3 h4 h5 =>
      refine .pausing (hgc ▸ h1) ?_ h3 (by omega) (by omega)
      by_contra hz
      have := hend (by omega)
      omega
    | behind h1 h2 h3 h4 h5 =>
      refine .behind (hgc ▸ h1) ?_ h3 (by omega) (by omega)
      by_contra hz
      have := hend (by omega)
      omega
  · rw [hgots, hpauses]
    show (s.deliver e).announced j k + _ = _
    rw [collector_announced hfits]
    exact h.announced k j
  · rw [hresumes, hgots]
    exact h.round k j hj
  · rw [hseen]
    exact h.gotpause k
  · rw [hseen]
    have hk' : Control.resume ∈ (s.deliver e).controls k := hk
    rw [hcontrols] at hk'
    exact h.full k hk'
  · rw [hseen, hacks, hpauses]
    exact h.answered k
  · rw [hacked, hacks]
    show (s.deliver e).unreceived k + _ = _
    have h1 := hunreceived k
    have h2 := h.unreceived k
    omega
  · rw [hacked]
    show _ ≤ gc.gciter ∧ gc.gciter ≤ _
    rw [hiter]
    have h1 := h.received k
    by_cases hk : i = k
    · subst hk
      rw [if_pos rfl]
      omega
    · rw [if_neg hk]
      exact h1
  · show gc.waiting = ∑ k, (gc.gciter - acked (tr ++ [e]) k)
    rw [hiter]
    exact hwaiting

/-! ## The invariant in every run -/

theorem PauseInv.initial {s : Group W} (h : Initial s) : PauseInv s [] := by
  have hgc := h.gc
  have htask : ∀ i, (s.task i).paused = false ∧ (s.task i).gotpause = 0 := by
    intro i
    obtain ⟨w, hw⟩ := h.task i
    rw [hw]
    exact ⟨rfl, rfl⟩
  have hseen : ∀ i, seen ([] : List (Event W)) i = ∅ := by
    intro i
    simp [seen, gots, resumes]
  refine ⟨fun hc => ?_, fun i => ?_, fun i j => ?_, fun i j _ => ?_, fun i => ?_, fun i hi => ?_,
    fun i => ?_, fun i => ?_, fun i => ?_, ?_⟩
  · simp [hgc] at hc
  · have hc : s.controls i = [] := by simp [Group.controls, h.chan]
    rw [hc, hgc]
    exact .running rfl (htask i).1 rfl rfl
  · simp [Group.announced, h.chan, gots, pauses]
  · simp [resumes, gots]
  · rw [(htask i).2, hseen]
    rfl
  · simp [Group.controls, h.chan] at hi
  · simp [(htask i).1, acks, pauses]
  · simp [Group.unreceived, h.chan, acked, acks]
  · simp [acked, hgc]
  · simp [acked, hgc]

theorem unpaused_asWork {V : Type} {out : List (Fin n × V)} {d : Party n × Msg n V}
    (h : d ∈ asWork out) : unpaused d.2 = true := by
  obtain ⟨x, -, rfl⟩ := List.mem_map.mp h
  rfl

/-- Handlers of messages that are not of the pauses. -/
theorem Handles.unpaused_spec {i : Fin n} {t t' : Task W} {j : Party n} {m : Msg n W.Msg}
    {pending : List (Gaddr n)} {out : Sends n W.Msg} (h : Handles i t j m pending t' out)
    (hm : unpaused m = true) : SamePause t t' ∧ ∀ d ∈ out, unpaused d.2 = true := by
  cases h with
  | pause _ => simp [unpaused] at hm
  | gotpause _ => simp [unpaused] at hm
  | resume => simp [unpaused] at hm
  | startdistgc h =>
    unfold interpreterStartdistgc at h
    split at h
    · cases h
    · cases h
      refine ⟨⟨rfl, rfl⟩, fun d hd => ?_⟩
      rw [List.mem_singleton.mp hd]
      rfl
  | markroots _ hs =>
    unfold startMarking at hs
    split at hs
    · cases hs
      exact ⟨⟨rfl, rfl⟩, fun d => unpaused_asWork⟩
    · cases hs
  | markentry _ _ hs =>
    unfold startMarking at hs
    split at hs
    · cases hs
      exact ⟨⟨rfl, rfl⟩, fun d => unpaused_asWork⟩
    · cases hs
  | sweep _ hs =>
    unfold interpreterSweep at hs
    split at hs
    · cases hs
      refine ⟨⟨rfl, rfl⟩, fun d hd => ?_⟩
      rcases List.mem_append.mp hd with hd | hd
      · exact unpaused_asWork hd
      · rw [List.mem_singleton.mp hd]
        rfl
    · cases hs
  | checkallrefs _ => exact ⟨⟨rfl, rfl⟩, fun d => unpaused_asWork⟩
  | work _ => exact ⟨⟨rfl, rfl⟩, fun d => unpaused_asWork⟩

theorem samePause_setTask {s : Group W} {i : Fin n} {t' : Task W} (h : SamePause (s.task i) t')
    (k : Fin n) : SamePause (s.task k) ((s.setTask i t').task k) := by
  by_cases hk : k = i
  · subst hk
    rw [setTask_self]
    exact h
  · rw [setTask_other s t' hk]
    exact ⟨rfl, rfl⟩

theorem unpaused_toAll {V : Type} {m : Msg n V} (hm : unpaused m = true) :
    ∀ d ∈ toAll m, unpaused d.2 = true := by
  intro d hd
  rw [mem_toAll hd]
  exact hm

theorem unpaused_none {a : Party n} {pending : List (Gaddr n)} {out : Sends n W.Msg}
    (h : ∀ d ∈ out, unpaused d.2 = true) : Event.Unpaused (W := W) ⟨a, none, pending, out⟩ := by
  refine ⟨?_, h⟩
  intro j m ht
  cases ht

theorem unpaused_took {a j : Party n} {m : Msg n W.Msg} {pending : List (Gaddr n)}
    {out : Sends n W.Msg} (hm : unpaused m = true) (h : ∀ d ∈ out, unpaused d.2 = true) :
    Event.Unpaused (W := W) ⟨a, some (j, m), pending, out⟩ := by
  refine ⟨?_, h⟩
  intro j' m' ht
  simp only [Option.some.injEq, Prod.mk.injEq] at ht
  rw [← ht.2]
  exact hm

theorem PauseInv.receive_step {s : Group W} {tr : List (Event W)} {i : Fin n} {m : Msg n W.Msg}
    {rest : List (Msg n W.Msg)} {gc : Collector n} {out : Sends n W.Msg} (h : PauseInv s tr)
    (hch : s.chan (some i) none = m :: rest) (hr : gcReceive s.gc m = some (gc, out)) :
    PauseInv ({ s with gc := gc }.deliver ⟨none, some (some i, m), [], out⟩)
      (tr ++ [⟨none, some (some i, m), [], out⟩]) := by
  have hneutral : unpaused m = true → (∀ d ∈ out, unpaused d.2 = true) → SameRound s.gc gc →
      PauseInv ({ s with gc := gc }.deliver ⟨none, some (some i, m), [], out⟩)
        (tr ++ [⟨none, some (some i, m), [], out⟩]) := by
    intro hm ho hgc
    exact h.neutral_step (fits_receive hch) (unpaused_took hm ho) rfl (fun k => ⟨rfl, rfl⟩) hgc
  unfold gcReceive at hr
  split at hr
  · rename_i hwait
    cases m <;> simp only [reduceCtorEq] at hr
    split at hr
    · rename_i hone
      cases hr
      refine h.pauseack_step hch hwait rfl (by simp only [hone]) rfl (fun d hd => ?_)
      rw [mem_toAll hd]
      rfl
    · cases hr
      exact h.pauseack_step hch hwait rfl rfl rfl (by simp)
  · rename_i hwait
    cases m <;> simp only [reduceCtorEq] at hr
    case startdistgcack =>
      split at hr
      · split at hr
        · cases hr
          exact hneutral rfl (unpaused_toAll rfl) ⟨rfl, rfl, rfl⟩
        · cases hr
          exact hneutral rfl (by simp) ⟨rfl, rfl, rfl⟩
      · cases hr
    case update k counts =>
      split at hr
      · split at hr
        · cases hr
          exact hneutral rfl (unpaused_toAll rfl) ⟨rfl, rfl, rfl⟩
        · cases hr
          exact hneutral rfl (by simp) ⟨rfl, rfl, rfl⟩
      · cases hr
    case sweepack =>
      split at hr
      · rename_i hc
        split at hr
        · split at hr
          · cases hr
            have hw : s.gc.waiting = 0 := by omega
            exact h.resumeAll_step hch hc.1 hw rfl hw rfl
          · cases hr
        · cases hr
          exact hneutral rfl (by simp) ⟨rfl, rfl, rfl⟩
      · cases hr

theorem continueMarking_unpaused {t t' : Task W} {out : Sends n W.Msg}
    (h : continueMarking t = some (t', out)) :
    SamePause t t' ∧ ∀ d ∈ out, unpaused d.2 = true := by
  unfold continueMarking at h
  cases hm : t.marking with
  | none => simp [hm] at h
  | some pid =>
    simp only [hm] at h
    split at h
    · rename_i hlt
      unfold sendMarkMessage at h
      split at h
      · cases h
        exact ⟨⟨rfl, rfl⟩, by simp⟩
      · cases h
        refine ⟨⟨rfl, rfl⟩, fun d hd => ?_⟩
        rw [List.mem_singleton.mp hd]
        rfl
    · cases h
      refine ⟨⟨rfl, rfl⟩, fun d hd => ?_⟩
      rw [List.mem_singleton.mp hd]
      rfl

theorem PauseInv.step {s s' : Group W} {tr : List (Event W)} {e : Event W} (h : PauseInv s tr)
    (hs : Step s e s') : PauseInv s' (tr ++ [e]) := by
  cases hs with
  | timeout ht => exact h.timeout_step ht
  | receive hch hr => exact h.receive_step hch hr
  | @handle i j m rest pending t' out hch _ hh =>
    by_cases hm : unpaused m = true
    · obtain ⟨hsame, hout⟩ := hh.unpaused_spec hm
      exact h.neutral_step (fits_handle hch) (unpaused_took hm hout) rfl (samePause_setTask hsame)
        ⟨rfl, rfl, rfl⟩
    · cases hh with
      | pause hp => exact h.pause_step hch hp
      | gotpause hp => exact h.gotpause_step hch hp
      | resume => exact h.resume_step hch
      | startdistgc _ => exact absurd rfl hm
      | markroots _ _ => exact absurd rfl hm
      | markentry _ _ _ => exact absurd rfl hm
      | sweep _ _ => exact absurd rfl hm
      | checkallrefs _ => exact absurd rfl hm
      | work _ => exact absurd rfl hm
  | mark hc =>
    obtain ⟨hsame, hout⟩ := continueMarking_unpaused hc
    exact h.neutral_step (fits_none s _ [] _) (unpaused_none hout) rfl (samePause_setTask hsame)
      ⟨rfl, rfl, rfl⟩
  | external _ _ =>
    exact h.neutral_step (fits_none s _ [] _) (unpaused_none (fun d => unpaused_asWork)) rfl
      (samePause_setTask ⟨rfl, rfl⟩) ⟨rfl, rfl, rfl⟩
  | evaluate _ _ _ =>
    exact h.neutral_step (fits_none s _ [] _) (unpaused_none (fun d => unpaused_asWork)) rfl
      (samePause_setTask ⟨rfl, rfl⟩) ⟨rfl, rfl, rfl⟩

theorem pauseInv_run {s : Group W} {tr : List (Event W)} (h : GroupRun W s tr) : PauseInv s tr :=
  Run.invariant (I := PauseInv) (fun _ h0 => PauseInv.initial h0) (fun _ _ _ _ _ hi hs => hi.step hs) h

/-! ## What the messages of the rounds meet -/

theorem Step.counted_inv {s s' : Group W} {e : Event W} {i j : Fin n} (hs : Step s e s')
    (hc : e.counted i j = true) :
    0 < s.announced j i ∧ (s.task i).gotpause + 1 ≤ n - 1 := by
  unfold Event.counted at hc
  split at hc
  · rename_i k m ht
    simp only [decide_eq_true_eq] at hc
    obtain ⟨ha, rfl, hm⟩ := hc
    obtain ⟨rest, hr⟩ := hs.fits _ _ ht
    rw [ha] at hr
    refine ⟨?_, ?_⟩
    · simp [Group.announced, hr, List.filterMap_cons_some hm]
    · cases m <;> simp only [isGotpause, reduceCtorEq] at hm
      cases hs with
      | timeout _ => cases ht
      | receive _ _ => cases ha
      | mark _ => cases ht
      | external _ _ => cases ht
      | evaluate _ _ _ => cases ht
      | handle _ _ hh =>
        cases ha
        cases ht
        cases hh with
        | gotpause hp =>
          unfold interpreterGotpause at hp
          simp only at hp
          split at hp
          · assumption
          · cases hp
  · cases hc

theorem Step.handled_inv {s s' : Group W} {e : Event W} {i : Fin n} {c : Control}
    (hs : Step s e s') (hc : e.handled i c = true) : ∃ l, s.controls i = c :: l := by
  unfold Event.handled at hc
  split at hc
  · rename_i m ht
    simp only [decide_eq_true_eq] at hc
    obtain ⟨rest, hr⟩ := hs.fits _ _ ht
    rw [hc.1] at hr
    exact ⟨rest.filterMap control, by rw [Group.controls, hr, List.filterMap_cons_some hc.2]⟩
  · cases hc

/-- A task that is about to handle a RESUME has counted one GOTPAUSE of each other task in the
round that ends, and has sent one PAUSEACK in it. -/
theorem PauseInv.round_ends {s : Group W} {tr : List (Event W)} (h : PauseInv s tr) {i : Fin n}
    {l : List Control} (hc : s.controls i = .resume :: l) :
    (∀ j, j ≠ i → gots tr i j = resumes tr i + 1) ∧ pauses tr i = resumes tr i + 1 ∧
      acks tr i = resumes tr i + 1 := by
  have hfull := h.full i (by simp [hc])
  have hplace := h.place i
  rw [hc] at hplace
  have hp : pauses tr i = resumes tr i + 1 := by
    cases hplace <;> omega
  have hans := h.answered i
  rw [if_neg (fun hn => hn.2 hfull)] at hans
  exact ⟨card_seen_eq.mp hfull, hp, by omega⟩

/-- A task that is about to handle a PAUSE has answered every PAUSE before it, in as many rounds. -/
theorem PauseInv.round_starts {s : Group W} {tr : List (Event W)} (h : PauseInv s tr) {i : Fin n}
    {l : List Control} (hc : s.controls i = .pause :: l) :
    pauses tr i = resumes tr i ∧ acks tr i = resumes tr i := by
  have hplace := h.place i
  rw [hc] at hplace
  cases hplace with
  | pausing _ _ hp h4 h5 =>
    have hans := h.answered i
    rw [hp] at hans
    simp only [Bool.false_eq_true, false_and, if_false, Nat.add_zero] at hans
    omega

/-- The rounds of a run do not interfere. Round `k` of a task starts with its `k`-th PAUSE, whose
GOTPAUSE messages are the `k`-th that it sends to each other task, and ends with its `k`-th
RESUME. -/
structure RoundsApart (tr : List (Event W)) : Prop where
  /-- the `k`-th GOTPAUSE of another task is counted in round `k` -/
  counted : ∀ tr₁ e tr₂ i j, tr = tr₁ ++ e :: tr₂ → e.counted i j = true →
    gots tr₁ i j = resumes tr₁ i
  /-- `k` messages of each other task have been counted when the `k`-th RESUME erases the count -/
  erased : ∀ tr₁ e tr₂ i, tr = tr₁ ++ e :: tr₂ → e.handled i .resume = true →
    ∀ j, j ≠ i → gots tr₁ i j = resumes tr₁ i + 1
  /-- `k` messages PAUSEACK have been sent when round `k` ends … -/
  ended : ∀ tr₁ e tr₂ i, tr = tr₁ ++ e :: tr₂ → e.handled i .resume = true →
    pauses tr₁ i = resumes tr₁ i + 1 ∧ acks tr₁ i = resumes tr₁ i + 1
  /-- … and no other when the next round starts -/
  started : ∀ tr₁ e tr₂ i, tr = tr₁ ++ e :: tr₂ → e.handled i .pause = true →
    pauses tr₁ i = resumes tr₁ i ∧ acks tr₁ i = resumes tr₁ i

theorem roundsApart_run {s : Group W} {tr : List (Event W)} (h : GroupRun W s tr) :
    RoundsApart tr := by
  refine ⟨?_, ?_, ?_, ?_⟩
  · intro tr₁ e tr₂ i j htr hc
    obtain ⟨s₁, s₂, hr, hs⟩ := h.split htr
    obtain ⟨hann, hle⟩ := hs.counted_inv hc
    exact (pauseInv_run hr).current hann hle
  · intro tr₁ e tr₂ i htr hc
    obtain ⟨s₁, s₂, hr, hs⟩ := h.split htr
    obtain ⟨l, hl⟩ := hs.handled_inv hc
    exact ((pauseInv_run hr).round_ends hl).1
  · intro tr₁ e tr₂ i htr hc
    obtain ⟨s₁, s₂, hr, hs⟩ := h.split htr
    obtain ⟨l, hl⟩ := hs.handled_inv hc
    exact ((pauseInv_run hr).round_ends hl).2
  · intro tr₁ e tr₂ i htr hc
    obtain ⟨s₁, s₂, hr, hs⟩ := h.split htr
    obtain ⟨l, hl⟩ := hs.handled_inv hc
    exact (pauseInv_run hr).round_starts hl

theorem mem_controls {s : Group W} {i : Fin n} :
    Control.resume ∈ s.controls i ↔ Msg.resume ∈ s.chan none (some i) := by
  rw [Group.controls, List.mem_filterMap]
  constructor
  · rintro ⟨m, hm, hc⟩
    cases m <;> simp only [control, reduceCtorEq, Option.some.injEq] at hc
    exact hm
  · exact fun h => ⟨_, h, rfl⟩

theorem interpreterGotpause_isSome (t : Task W) :
    (interpreterGotpause t).isSome ↔ t.gotpause + 1 ≤ n - 1 := by
  unfold interpreterGotpause
  simp only
  split <;> simp_all

/-- In every state of every run, the assertion of `interpreter_gotpause` holds for a GOTPAUSE that
has arrived exactly when no RESUME is on its way to the task; and as long as it holds, the rounds
do not interfere. -/
theorem pause_rounds {s : Group W} {tr : List (Event W)} (h : GroupRun W s tr) :
    (∀ i j rest, s.chan (some j) (some i) = .gotpause :: rest →
      ((interpreterGotpause (s.task i)).isSome ↔ Msg.resume ∉ s.chan none (some i))) ∧
    (∀ i j, j ≠ i → s.announced j i + gots tr i j = pauses tr j) ∧
    RoundsApart tr := by
  have hinv := pauseInv_run h
  refine ⟨fun i j rest hch => ?_, fun i j hj => ?_, roundsApart_run h⟩
  · have hann : 0 < s.announced j i := by
      simp [Group.announced, hch, isGotpause]
    rw [interpreterGotpause_isSome, hinv.gotpause_ok hann, mem_controls]
  · have := hinv.announced i j
    rwa [if_neg hj] at this

/-- Two tasks that hold no references and send no messages of their own. -/
def idleTasks : Work 2 where
  State := Unit
  Msg := Empty
  handle := fun _ _ _ _ _ _ => False
  external := fun _ _ _ _ => False
  evaluate := fun _ _ _ _ => False
  collectStart := fun _ _ pending _ out => pending = [] ∧ out = []
  markEntry := fun _ _ _ _ _ _ _ => False
  writeMarks := fun w _ _ => w
  collectEnd := fun _ _ _ out => out = []
  checkRefs := fun _ _ out => out = []

def idleTasks.init : Group idleTasks :=
  { gc := {}, task := fun _ => { work := () }, chan := fun _ _ => [] }

/-- Two runs with a whole round, after which task 1 is resumed, and is paused again before task 0 is
resumed or after that. -/
theorem idleTasks_rounds :
    (∃ (s : Group idleTasks) (tr : List (Event idleTasks)), GroupRun idleTasks s tr ∧
      s.chan (some 1) (some 0) = [.gotpause] ∧ interpreterGotpause (s.task 0) = none) ∧
    ∃ (s : Group idleTasks) (tr : List (Event idleTasks)), GroupRun idleTasks s tr ∧
      s.chan (some 1) (some 0) = [.gotpause] ∧ s.chan none (some 0) = [] ∧
      (∀ i, pauses tr i = 2 ∧ resumes tr i = 1) ∧ gots tr 0 1 = 1 ∧ gots tr 1 0 = 2 := by
  have r0 : GroupRun idleTasks idleTasks.init [] := .start ⟨rfl, fun _ => ⟨(), rfl⟩, fun _ _ => rfl⟩
  have r1 := r0.next (.timeout rfl)
  have r2 := r1.next (.handle (i := 0) (j := none) rfl rfl (.pause rfl))
  have r3 := r2.next (.handle (i := 1) (j := none) rfl rfl (.pause rfl))
  have r4 := r3.next (.handle (i := 1) (j := some 0) rfl rfl (.gotpause rfl))
  have r5 := r4.next (.handle (i := 0) (j := some 1) rfl rfl (.gotpause rfl))
  have r6 := r5.next (.receive (i := 0) rfl rfl)
  have r7 := r6.next (.receive (i := 1) rfl rfl)
  have r8 := r7.next (.handle (i := 0) (j := none) rfl rfl (.startdistgc rfl))
  have r9 := r8.next (.handle (i := 1) (j := none) rfl rfl (.startdistgc rfl))
  have r10 := r9.next (.receive (i := 0) rfl rfl)
  have r11 := r10.next (.receive (i := 1) rfl rfl)
  have r12 := r11.next (.handle (i := 0) (j := none) rfl rfl
    (.markroots (w := ()) ⟨rfl, rfl⟩ rfl))
  have r13 := r12.next (.mark (i := 0) rfl)
  have r14 := r13.next (.mark (i := 0) rfl)
  have r15 := r14.next (.mark (i := 0) rfl)
  have r16 := r15.next (.handle (i := 1) (j := none) rfl rfl
    (.markroots (w := ()) ⟨rfl, rfl⟩ rfl))
  have r17 := r16.next (.mark (i := 1) rfl)
  have r18 := r17.next (.mark (i := 1) rfl)
  have r19 := r18.next (.mark (i := 1) rfl)
  have r20 := r19.next (.receive (i := 0) rfl rfl)
  have r21 := r20.next (.receive (i := 1) rfl rfl)
  have r22 := r21.next (.handle (i := 0) (j := none) rfl rfl (.sweep (w := ()) rfl rfl))
  have r23 := r22.next (.handle (i := 1) (j := none) rfl rfl (.sweep (w := ()) rfl rfl))
  have r24 := r23.next (.receive (i := 0) rfl rfl)
  have r25 := r24.next (.receive (i := 1) rfl rfl)
  have r26 := r25.next (.handle (i := 1) (j := none) rfl rfl (.checkallrefs rfl))
  have r27 := r26.next (.handle (i := 1) (j := none) rfl rfl .resume)
  constructor
  · have r28 := r27.next (.timeout rfl)
    have r29 := r28.next (.handle (i := 1) (j := none) rfl rfl (.pause rfl))
    exact ⟨_, _, r29, rfl, rfl⟩
  · have r28 := r27.next (.handle (i := 0) (j := none) rfl rfl (.checkallrefs rfl))
    have r29 := r28.next (.handle (i := 0) (j := none) rfl rfl .resume)
    have r30 := r29.next (.timeout rfl)
    have r31 := r30.next (.handle (i := 1) (j := none) rfl rfl (.pause rfl))
    have r32 := r31.next (.handle (i := 0) (j := none) rfl rfl (.pause rfl))
    have r33 := r32.next (.handle (i := 1) (j := some 0) rfl rfl (.gotpause rfl))
    refine ⟨_, _, r33, rfl, rfl, fun i => ?_, rfl, rfl⟩
    match i with
    | 0 => exact ⟨rfl, rfl⟩
    | 1 => exact ⟨rfl, rfl⟩

/-- In the second round of two tasks, with one GOTPAUSE counted. -/
theorem pause_rounds_secondRound : ∃ (s : Group idleTasks) (tr : List (Event idleTasks)),
    GroupRun idleTasks s tr ∧ (∀ i, pauses tr i = 2 ∧ resumes tr i = 1) ∧
    gots tr 0 1 = 1 ∧ gots tr 1 0 = 2 ∧ s.chan (some 1) (some 0) = [.gotpause] ∧
    (interpreterGotpause (s.task 0)).isSome ∧ s.announced 1 0 + gots tr 0 1 = pauses tr 1 ∧
    RoundsApart tr := by
  obtain ⟨s, tr, hr, hchan, hcontrol, hcounts, hgots, hgots'⟩ := idleTasks_rounds.2
  obtain ⟨hgot, hann, hapart⟩ := pause_rounds hr
  have hresume : Msg.resume ∉ s.chan none (some 0) := by
    rw [hcontrol]
    exact List.not_mem_nil
  exact ⟨s, tr, hr, hcounts, hgots, hgots', hchan, (hgot 0 1 [] hchan).mpr hresume,
    hann 0 1 (by decide), hapart⟩

/-- Task 1 is resumed and paused again, and its GOTPAUSE of the second round reaches task 0 before
the RESUME of the first. -/
theorem pause_rounds_overtaken : ∃ (s : Group idleTasks) (tr : List (Event idleTasks)),
    GroupRun idleTasks s tr ∧ s.chan (some 1) (some 0) = [.gotpause] ∧
    interpreterGotpause (s.task 0) = none :=
  idleTasks_rounds.1

end Runtime
end NReduce
