import NReduce.Runtime.Inflight

/-!
# NReduce.Runtime.Accounting

The accounting of addresses in flight along a run of a group. For each ordered pair of tasks, the
messages with addresses that one has sent to the other are, in order, those whose ACK has been
handled, those whose ACK is in flight, and those that are in flight themselves.

Main result: `inflight_exact`.
-/

namespace NReduce
namespace Runtime

open Logic Network

variable {n : Nat}

/-- The addresses written into a message. -/
def Msg.addrs : Msg n (WMsg n) → List (Gaddr n)
  | .markentry addrs => addrs
  | .work m => m.addrs
  | _ => []

def addrsIn (m : Msg n (WMsg n)) : Option (List (Gaddr n)) :=
  if m.addrs = [] then none else some m.addrs

/-- `count` and `naddrs` of an ACK. -/
def ackIn : Msg n (WMsg n) → Option (Nat × Nat)
  | .work (.ack count naddrs _) => some (count, naddrs)
  | _ => none

section

variable {e : Env n} {gc : Heap n → Heap n → Prop}

/-! ## What has been sent and acknowledged -/

/-- The address lists of the messages with addresses that `t` sends to `d` in a step. -/
def Event.lists (t d : Fin n) (ev : Event (interp e gc)) : List (List (Gaddr n)) :=
  if ev.actor = some t then (Channels.sentTo ev.out (some d)).filterMap addrsIn else []

/-- `t` handles an ACK of `d`. -/
def Event.ackTaken (t d : Fin n) (ev : Event (interp e gc)) : Bool :=
  match ev.took with
  | some (some j, m) => ev.actor = some t ∧ j = d ∧ (ackIn m).isSome
  | _ => false

/-- The address lists of the messages with addresses that `t` has sent to `d`, in order. -/
def sentBy (tr : List (Event (interp e gc))) (t d : Fin n) : List (List (Gaddr n)) :=
  tr.flatMap (Event.lists t d)

/-- The number of messages ACK of `d` that `t` has handled. -/
def ackedBy (tr : List (Event (interp e gc))) (t d : Fin n) : Nat :=
  tr.countP (Event.ackTaken t d)

/-- The address lists of the messages from `t` to `d` whose ACK `t` has not handled. -/
def unacked (tr : List (Event (interp e gc))) (t d : Fin n) : List (List (Gaddr n)) :=
  (sentBy tr t d).drop (ackedBy tr t d)

/-- The address lists of the messages from `t` to `d` that are in flight. -/
def Group.flight (s : Group (interp e gc)) (t d : Fin n) : List (List (Gaddr n)) :=
  (s.chan (some t) (some d)).filterMap addrsIn

/-- The messages ACK from `d` to `t` that are in flight. -/
def Group.ackFlight (s : Group (interp e gc)) (d t : Fin n) : List (Nat × Nat) :=
  (s.chan (some d) (some t)).filterMap ackIn

/-- The invariant. -/
structure Balanced (s : Group (interp e gc)) (tr : List (Event (interp e gc))) : Prop where
  settled : ∀ t, (s.task t).work.acct.Settled
  addrs : ∀ t d, (s.task t).work.acct.inflightAddrs d = (unacked tr t d).flatMap List.reverse
  counts : ∀ t d, (s.task t).work.acct.unackMsgAcount d = (unacked tr t d).map List.length
  acked : ∀ t d, ackedBy tr t d ≤ (sentBy tr t d).length
  /-- first the messages whose ACK is in flight, then those that are in flight themselves -/
  split : ∀ t d, ∃ l, unacked tr t d = l ++ s.flight t d ∧
    s.ackFlight d t = l.map (fun a => (1, a.length))

/-- What a step of task `t` does to its accounting. -/
structure Accounted (t : Fin n) (ev : Event (interp e gc)) (a a' : Acct n) : Prop where
  settled : a'.Settled
  addrs : ∀ d, a'.inflightAddrs d =
    (if ev.ackTaken t d then (a.inflightAddrs d).drop ((a.unackMsgAcount d).take 1).sum
      else a.inflightAddrs d) ++ (ev.lists t d).flatMap List.reverse
  counts : ∀ d, a'.unackMsgAcount d =
    (if ev.ackTaken t d then (a.unackMsgAcount d).drop 1 else a.unackMsgAcount d) ++
      (ev.lists t d).map List.length
  /-- the ACK of the message that it took -/
  acks : ∀ d, (Channels.sentTo ev.out (some d)).filterMap ackIn =
    (ev.takenFrom addrsIn (some d) (some t)).map (fun l => (1, l.length))

/-! ## The invariant is kept -/

theorem sentBy_concat (tr : List (Event (interp e gc))) (ev : Event (interp e gc)) (t d : Fin n) :
    sentBy (tr ++ [ev]) t d = sentBy tr t d ++ ev.lists t d := by
  simp [sentBy]

theorem ackedBy_concat (tr : List (Event (interp e gc))) (ev : Event (interp e gc)) (t d : Fin n) :
    ackedBy (tr ++ [ev]) t d = ackedBy tr t d + if ev.ackTaken t d then 1 else 0 := by
  simp [ackedBy, List.countP_append, List.countP_singleton]

theorem addrsIn_ack {m : Msg n (WMsg n)} {x : Nat × Nat} (h : ackIn m = some x) :
    addrsIn m = none := by
  cases m with
  | work w =>
    cases w with
    | ack count naddrs fromtype => rfl
    | _ => simp [ackIn] at h
  | _ => simp [ackIn] at h

theorem Event.takenFrom_ack {ev : Event (interp e gc)} {t d : Fin n} (h : ev.ackTaken t d = true) :
    (∃ x, ev.takenFrom ackIn (some d) (some t) = [x]) ∧
      ∀ a b, ev.takenFrom addrsIn a b = [] := by
  unfold Event.ackTaken at h
  split at h
  · rename_i j m ht
    simp only [decide_eq_true_eq] at h
    obtain ⟨ha, rfl, hm⟩ := h
    obtain ⟨x, hx⟩ := Option.isSome_iff_exists.mp hm
    refine ⟨⟨x, ?_⟩, fun a b => ?_⟩
    · simp [Event.takenFrom, ht, ha, hx]
    · simp [Event.takenFrom, ht, addrsIn_ack hx]
  · cases h

theorem Event.takenFrom_noack {ev : Event (interp e gc)} {t d : Fin n}
    (h : ev.ackTaken t d = false) : ev.takenFrom ackIn (some d) (some t) = [] := by
  unfold Event.takenFrom
  cases ht : ev.took with
  | none => rfl
  | some jm =>
    obtain ⟨j, m⟩ := jm
    simp only
    split
    · rename_i hc
      obtain ⟨rfl, ha⟩ := hc
      have hm : ackIn m = none := by
        simpa [Event.ackTaken, ht, ha] using h
      simp [hm]
    · rfl

/-- One pair of tasks, where `t` sends and `d` acknowledges. -/
theorem Balanced.split_step {s s' : Group (interp e gc)} {tr : List (Event (interp e gc))}
    {ev : Event (interp e gc)} (h : Balanced s tr) (hf : ev.Fits s)
    (hchan : s'.chan = (s.deliver ev).chan) (t d : Fin n)
    (hacks : ev.actor = some d → (Channels.sentTo ev.out (some t)).filterMap ackIn =
      (ev.takenFrom addrsIn (some t) (some d)).map (fun l => (1, l.length))) :
    ∃ l, unacked tr t d ++ ev.lists t d =
        (if ev.ackTaken t d then (unacked tr t d ++ ev.lists t d).take 1 else []) ++
          (l ++ s'.flight t d) ∧
      s'.ackFlight d t = l.map (fun a => (1, a.length)) ∧
      (ev.ackTaken t d = true → unacked tr t d ≠ []) := by
  obtain ⟨l, hl, hack⟩ := h.split t d
  have hflight := view_deliver addrsIn hf (some t) (some d)
  have hackf := view_deliver ackIn hf (some d) (some t)
  rw [← hchan] at hflight hackf
  -- an acknowledgement is sent for exactly the message that is taken
  have hnew : (if ev.actor = some d then (Channels.sentTo ev.out (some t)).filterMap ackIn else []) =
      (ev.takenFrom addrsIn (some t) (some d)).map (fun l => (1, l.length)) := by
    by_cases hd : ev.actor = some d
    · rw [if_pos hd, hacks hd]
    · rw [if_neg hd]
      unfold Event.takenFrom
      cases ev.took with
      | none => rfl
      | some jm => simp [hd]
  rw [hnew] at hackf
  change s.ackFlight d t ++ _ = _ ++ s'.ackFlight d t at hackf
  change s.flight t d ++ ev.lists t d = _ ++ s'.flight t d at hflight
  rw [hack, ← List.map_append] at hackf
  have hall : unacked tr t d ++ ev.lists t d =
      (l ++ ev.takenFrom addrsIn (some t) (some d)) ++ s'.flight t d := by
    rw [hl, List.append_assoc, hflight, List.append_assoc]
  cases hk : ev.ackTaken t d with
  | false =>
    rw [Event.takenFrom_noack hk, List.nil_append] at hackf
    exact ⟨_, by simpa using hall, hackf.symm, fun hc => by cases hc⟩
  | true =>
    obtain ⟨⟨x, hx⟩, hnone⟩ := Event.takenFrom_ack hk
    rw [hx, hnone, List.append_nil, List.singleton_append] at hackf
    rw [hnone, List.append_nil] at hall
    cases l with
    | nil => simp at hackf
    | cons a l' =>
      rw [List.map_cons, List.cons.injEq] at hackf
      refine ⟨l', ?_, hackf.2.symm, fun _ => by simp [hl]⟩
      rw [hall]
      simp

theorem unacked_concat {s : Group (interp e gc)} {tr : List (Event (interp e gc))}
    (h : Balanced s tr) (ev : Event (interp e gc)) (t d : Fin n) :
    unacked (tr ++ [ev]) t d =
      (unacked tr t d ++ ev.lists t d).drop (if ev.ackTaken t d then 1 else 0) := by
  rw [unacked, unacked, sentBy_concat, ackedBy_concat, ← List.drop_drop,
    List.drop_append_of_le_length (h.acked t d)]

/-- The invariant is kept by every step that accounts for what it does. -/
theorem Balanced.step {s s' : Group (interp e gc)} {tr : List (Event (interp e gc))}
    {ev : Event (interp e gc)} (h : Balanced s tr) (hf : ev.Fits s)
    (hchan : s'.chan = (s.deliver ev).chan)
    (hself : ∀ t, ev.actor = some t → Accounted t ev (s.task t).work.acct (s'.task t).work.acct)
    (hother : ∀ t, ev.actor ≠ some t → (s'.task t).work.acct = (s.task t).work.acct) :
    Balanced s' (tr ++ [ev]) := by
  have hstep := fun t d => h.split_step hf hchan t d (fun hd => (hself d hd).acks t)
  have hidle : ∀ t d, ev.actor ≠ some t → ev.lists t d = [] ∧ ev.ackTaken t d = false := by
    intro t d ht
    refine ⟨if_neg ht, ?_⟩
    unfold Event.ackTaken
    split
    · simp [ht]
    · rfl
  have hun : ∀ t d, ev.actor ≠ some t → unacked (tr ++ [ev]) t d = unacked tr t d := by
    intro t d ht
    rw [unacked_concat h]
    simp [(hidle t d ht).1, (hidle t d ht).2]
  refine ⟨fun t => ?_, fun t d => ?_, fun t d => ?_, fun t d => ?_, fun t d => ?_⟩
  · by_cases ht : ev.actor = some t
    · exact (hself t ht).settled
    · rw [hother t ht]
      exact h.settled t
  · by_cases ht : ev.actor = some t
    · rw [(hself t ht).addrs d, unacked_concat h, h.addrs, h.counts]
      cases hk : ev.ackTaken t d with
      | false => simp
      | true =>
        obtain ⟨-, -, -, hne⟩ := hstep t d
        cases hu : unacked tr t d with
        | nil => exact absurd hu (hne hk)
        | cons a l => simp
    · rw [hother t ht, hun t d ht]
      exact h.addrs t d
  · by_cases ht : ev.actor = some t
    · rw [(hself t ht).counts d, unacked_concat h, h.counts]
      cases hk : ev.ackTaken t d with
      | false => simp
      | true =>
        obtain ⟨-, -, -, hne⟩ := hstep t d
        cases hu : unacked tr t d with
        | nil => exact absurd hu (hne hk)
        | cons a l => simp
    · rw [hother t ht, hun t d ht]
      exact h.counts t d
  · rw [ackedBy_concat, sentBy_concat, List.length_append]
    have hle := h.acked t d
    obtain ⟨-, -, -, hne⟩ := hstep t d
    split
    · rename_i hk
      have : ackedBy tr t d < (sentBy tr t d).length := by
        by_contra hlt
        exact hne hk (List.drop_eq_nil_of_le (by omega))
      omega
    · omega
  · obtain ⟨l, hl, hack, -⟩ := hstep t d
    refine ⟨l, ?_, hack⟩
    rw [unacked_concat h]
    cases hk : ev.ackTaken t d with
    | false => simpa [hk] using hl
    | true =>
      rw [hk, if_pos rfl] at hl
      have := List.take_append_drop 1 (unacked tr t d ++ ev.lists t d)
      rw [if_pos rfl]
      exact List.append_cancel_left (this.trans hl)

/-! ## The steps of a group -/

theorem sentTo_asWork {V : Type} (out : List (Fin n × V)) (d : Fin n) :
    Channels.sentTo (asWork out) (some d) = (Channels.sentTo out d).map Msg.work := by
  simp [Channels.sentTo, asWork, List.filter_map, Function.comp_def]

theorem lists_asWork (out : List (Fin n × WMsg n)) (d : Fin n) :
    (Channels.sentTo (asWork out) (some d)).filterMap addrsIn = sentLists out d := by
  rw [sentTo_asWork, List.filterMap_map, sentLists]
  induction Channels.sentTo out d with
  | nil => rfl
  | cons m l ih =>
    have hm : (addrsIn ∘ Msg.work) m = if m.addrs = [] then none else some m.addrs := rfl
    rw [List.map_cons]
    by_cases h : m.addrs = []
    · rw [List.filterMap_cons_none (by rw [hm, if_pos h]), ih, List.filter_cons_of_neg (by simp [h])]
    · rw [List.filterMap_cons_some (by rw [hm, if_neg h]), ih, List.filter_cons_of_pos (by simp [h])]

/-- The ACK messages to `d`, of a list of them. -/
def acksTo (acks : List (Fin n × Nat × Nat)) (d : Fin n) : List (Nat × Nat) :=
  acks.filterMap (fun x => if x.1 = d then some x.2 else none)

theorem ackIn_work (d : Fin n) (m : WMsg n) : ackIn (.work m) = (ackOf (d, m)).map Prod.snd := by
  cases m <;> rfl

theorem ackOf_dest {d : Fin n} {m : WMsg n} {x : Fin n × Nat × Nat} (h : ackOf (d, m) = some x) :
    x.1 = d := by
  cases m <;> simp only [ackOf, reduceCtorEq, Option.some.injEq] at h
  rw [← h]

theorem acks_asWork (out : List (Fin n × WMsg n)) (d : Fin n) :
    (Channels.sentTo (asWork out) (some d)).filterMap ackIn = acksTo (out.filterMap ackOf) d := by
  rw [sentTo_asWork, List.filterMap_map, acksTo]
  induction out with
  | nil => rfl
  | cons x l ih =>
    obtain ⟨d', m⟩ := x
    have hm : (ackIn ∘ Msg.work) m = (ackOf (d', m)).map Prod.snd := ackIn_work d' m
    rw [Channels.sentTo_cons]
    cases hx : ackOf (d', m) with
    | none =>
      rw [hx, Option.map_none] at hm
      rw [List.filterMap_cons_none hx, ← ih]
      split
      · rw [List.filterMap_cons_none hm]
      · rfl
    | some y =>
      rw [hx, Option.map_some] at hm
      rw [List.filterMap_cons_some hx]
      have hy := ackOf_dest hx
      by_cases hd : d' = d
      · rw [if_pos hd, List.filterMap_cons_some hm, ih,
          List.filterMap_cons_some (by rw [if_pos (hy.trans hd)])]
      · rw [if_neg hd, ih, List.filterMap_cons_none (by rw [if_neg (fun hc => hd (hy ▸ hc))])]

/-- A step that sends what a program of the task sends, from the accounting `base` after the message
was taken. -/
theorem accounted_ledger {t : Fin n} {took : Option (Party n × Msg n (WMsg n))}
    {pending : List (Gaddr n)} {a base r : Acct n} {acks : List (Fin n × Nat × Nat)}
    (hl : Ledger base [] 0 acks r)
    (haddrs : ∀ d, base.inflightAddrs d =
      if Event.ackTaken t d (⟨some t, took, pending, asWork r.sent⟩ : Event (interp e gc)) then
        (a.inflightAddrs d).drop ((a.unackMsgAcount d).take 1).sum else a.inflightAddrs d)
    (hcounts : ∀ d, base.unackMsgAcount d =
      if Event.ackTaken t d (⟨some t, took, pending, asWork r.sent⟩ : Event (interp e gc)) then
        (a.unackMsgAcount d).drop 1 else a.unackMsgAcount d)
    (hacks : ∀ d, acksTo acks d =
      (Event.takenFrom addrsIn (some d) (some t)
        (⟨some t, took, pending, asWork r.sent⟩ : Event (interp e gc))).map
          (fun l => (1, l.length))) :
    Accounted t (⟨some t, took, pending, asWork r.sent⟩ : Event (interp e gc)) a
      { r with sent := [] } := by
  have hlists : ∀ d, Event.lists t d
      (⟨some t, took, pending, asWork r.sent⟩ : Event (interp e gc)) = sentLists r.sent d := by
    intro d
    rw [Event.lists, if_pos rfl]
    exact lists_asWork r.sent d
  refine ⟨⟨hl.inflight, hl.naddrsread, rfl⟩, fun d => ?_, fun d => ?_, fun d => ?_⟩
  · rw [hlists, ← haddrs]
    exact hl.addrs d
  · rw [hlists, ← hcounts]
    exact hl.counts d
  · rw [← hacks, ← hl.acks]
    exact acks_asWork r.sent d

theorem acksTo_ackFor (j d : Fin n) (k : Nat) :
    acksTo (ackFor j k) d = if j = d ∧ 0 < k then [(1, k)] else [] := by
  unfold acksTo ackFor
  by_cases hk : 0 < k <;> by_cases hj : j = d <;> simp [hk, hj]

theorem takenFrom_handle (t d : Fin n) (j : Party n) (m : Msg n (WMsg n)) (pending : List (Gaddr n))
    (out : Sends n (WMsg n)) :
    (Event.takenFrom addrsIn (some d) (some t)
        (⟨some t, some (j, m), pending, out⟩ : Event (interp e gc))).map (fun l => (1, l.length)) =
      if j = some d ∧ m.addrs ≠ [] then [(1, m.addrs.length)] else [] := by
  unfold Event.takenFrom addrsIn
  by_cases hj : j = some d <;> by_cases hm : m.addrs = [] <;> simp [hj, hm]

/-- A step that takes no message with addresses and no ACK, and sends none of either. -/
theorem accounted_silent {t : Fin n} {took : Option (Party n × Msg n (WMsg n))}
    {pending : List (Gaddr n)} {out : Sends n (WMsg n)} {a : Acct n} (ha : a.Settled)
    (htook : ∀ j m, took = some (j, m) → m.addrs = [] ∧ ackIn m = none)
    (hout : ∀ d ∈ out, addrsIn d.2 = none ∧ ackIn d.2 = none) :
    Accounted t (⟨some t, took, pending, out⟩ : Event (interp e gc)) a a := by
  have hno : ∀ d, Event.ackTaken t d (⟨some t, took, pending, out⟩ : Event (interp e gc)) = false := by
    intro d
    unfold Event.ackTaken
    split
    · rename_i j m ht
      simp [(htook _ _ ht).2]
    · rfl
  have hlists : ∀ d, Event.lists t d (⟨some t, took, pending, out⟩ : Event (interp e gc)) = [] := by
    intro d
    rw [Event.lists, if_pos rfl, List.filterMap_eq_nil_iff]
    exact fun m hm => (hout _ (Channels.mem_sentTo.mp hm)).1
  have hacks : ∀ d, (Channels.sentTo out (some d)).filterMap ackIn = [] := by
    intro d
    rw [List.filterMap_eq_nil_iff]
    exact fun m hm => (hout _ (Channels.mem_sentTo.mp hm)).2
  refine ⟨ha, fun d => ?_, fun d => ?_, fun d => ?_⟩
  · rw [hno, hlists]
    simp
  · rw [hno, hlists]
    simp
  · show (Channels.sentTo out (some d)).filterMap ackIn = _
    rw [hacks]
    cases took with
    | none => rfl
    | some jm =>
      obtain ⟨j, m⟩ := jm
      rw [takenFrom_handle]
      simp [(htook j m rfl).1]

/-- A step that takes no message with addresses and no ACK, and runs a program of the task. -/
theorem accounted_program {t : Fin n} {took : Option (Party n × Msg n (WMsg n))}
    {pending : List (Gaddr n)} {m : InterpM n Unit} {w w' : Interp n}
    {out : List (Fin n × WMsg n)} (hw : w.acct.Settled) (hrun : Runs m w w' out)
    (hm : Triple (InLedger w.acct [] 0 []) m (fun _ => InLedger w.acct [] 0 []))
    (htook : ∀ j m, took = some (j, m) → m.addrs = [] ∧ ackIn m = none) :
    Accounted t (⟨some t, took, pending, asWork out⟩ : Event (interp e gc)) w.acct w'.acct := by
  obtain ⟨r, hr, rfl, rfl⟩ := hrun
  have hl := hm w hw.ledger () r hr
  have hno : ∀ d, Event.ackTaken t d
      (⟨some t, took, pending, asWork r.acct.sent⟩ : Event (interp e gc)) = false := by
    intro d
    unfold Event.ackTaken
    split
    · rename_i j m ht
      simp [(htook _ _ ht).2]
    · rfl
  refine accounted_ledger hl (fun d => ?_) (fun d => ?_) (fun d => ?_)
  · simp [hno]
  · simp [hno]
  · cases took with
    | none => rfl
    | some jm =>
      obtain ⟨j, m⟩ := jm
      rw [takenFrom_handle]
      simp [(htook j m rfl).1, acksTo]

/-- A step that handles a message of another task. -/
theorem accounted_message {t j dest : Fin n} {deleted pending : List (Gaddr n)} {m : WMsg n}
    {w w' : Interp n} {out : List (Fin n × WMsg n)} (hw : w.acct.Settled)
    (hrun : Runs (handleMessage e t j dest deleted m) w w' out)
    (hone : ∀ count naddrs ty, m = .ack count naddrs ty → count = 1) :
    Accounted t (⟨some t, some (some j, .work m), pending, asWork out⟩ : Event (interp e gc))
      w.acct w'.acct := by
  obtain ⟨r, hr, rfl, rfl⟩ := hrun
  have hl := handleMessage_ledger e t j dest deleted m hw w rfl () r hr
  have htaken : ∀ d, Event.ackTaken t d
      (⟨some t, some (some j, .work m), pending, asWork r.acct.sent⟩ : Event (interp e gc)) =
        decide (j = d ∧ (ackIn (.work m)).isSome = true) := by
    intro d
    simp [Event.ackTaken]
  refine accounted_ledger hl (fun d => ?_) (fun d => ?_) (fun d => ?_)
  · rw [htaken]
    cases m with
    | ack count naddrs ty =>
      cases hone count naddrs ty rfl
      simp [Acct.take, Acct.removeAcked, ackIn, eq_comm]
    | _ => simp [Acct.take, ackIn]
  · rw [htaken]
    cases m with
    | ack count naddrs ty =>
      cases hone count naddrs ty rfl
      simp [Acct.take, Acct.removeAcked, ackIn, eq_comm]
    | _ => simp [Acct.take, ackIn]
  · rw [takenFrom_handle, acksTo_ackFor]
    simp [Msg.addrs, List.length_pos_iff]

/-- A step that handles a MARKENTRY message. -/
theorem accounted_marks {t j : Fin n} {addrs pending : List (Gaddr n)} {w w' : Interp n}
    {out : List (Fin n × WMsg n)} (hw : w.acct.Settled) (hrun : Runs (readMarks j addrs) w w' out) :
    Accounted t (⟨some t, some (some j, .markentry addrs), pending, asWork out⟩ :
      Event (interp e gc)) w.acct w'.acct := by
  obtain ⟨r, hr, rfl, rfl⟩ := hrun
  have hl := readMarks_ledger j addrs w hw.ledger () r hr
  have hno : ∀ d, Event.ackTaken t d (⟨some t, some (some j, .markentry addrs), pending,
      asWork r.acct.sent⟩ : Event (interp e gc)) = false := by
    intro d
    simp [Event.ackTaken, ackIn]
  refine accounted_ledger hl (fun d => ?_) (fun d => ?_) (fun d => ?_)
  · simp [hno]
  · simp [hno]
  · rw [takenFrom_handle, acksTo_ackFor]
    simp [Msg.addrs, List.length_pos_iff]

/-- Messages to the collector are not accounted. -/
theorem Accounted.congr_out {t : Fin n} {took : Option (Party n × Msg n (WMsg n))}
    {pending : List (Gaddr n)} {out out' : Sends n (WMsg n)} {a a' : Acct n}
    (h : Accounted t (⟨some t, took, pending, out⟩ : Event (interp e gc)) a a')
    (hout : ∀ d, Channels.sentTo out' (some d) = Channels.sentTo out (some d)) :
    Accounted t (⟨some t, took, pending, out'⟩ : Event (interp e gc)) a a' := by
  have hlists : ∀ d, Event.lists t d (⟨some t, took, pending, out'⟩ : Event (interp e gc)) =
      Event.lists t d (⟨some t, took, pending, out⟩ : Event (interp e gc)) := by
    intro d
    simp only [Event.lists, hout]
  refine ⟨h.settled, fun d => ?_, fun d => ?_, fun d => ?_⟩
  · rw [hlists]
    exact h.addrs d
  · rw [hlists]
    exact h.counts d
  · have := h.acks d
    rw [← hout] at this
    exact this

/-- `send_mark_messages`, for one task. -/
theorem accounted_writeMarks {t j : Fin n} {addrs : List (Gaddr n)} {w : Interp n}
    (hw : w.acct.Settled) (haddrs : addrs ≠ []) :
    Accounted t (⟨some t, none, [], [(some j, .markentry addrs)]⟩ : Event (interp e gc)) w.acct
      ((interp e gc).writeMarks w j addrs).acct := by
  have hlists : ∀ d, Event.lists t d (⟨some t, none, [], [(some j, .markentry addrs)]⟩ :
      Event (interp e gc)) = if d = j then [addrs] else [] := by
    intro d
    rw [Event.lists, if_pos rfl]
    by_cases hd : d = j
    · subst hd
      simp [Channels.sentTo, addrsIn, Msg.addrs, haddrs]
    · simp [Channels.sentTo, hd, Ne.symm hd]
  refine ⟨⟨rfl, hw.naddrsread, hw.sent⟩, fun d => ?_, fun d => ?_, fun d => ?_⟩
  · rw [hlists]
    by_cases hd : d = j <;> simp [Acct.account, Event.ackTaken, hd, hw.inflight]
  · rw [hlists]
    by_cases hd : d = j <;> simp [Acct.account, Event.ackTaken, hd, hw.inflight, haddrs]
  · show (Channels.sentTo [(some j, Msg.markentry addrs)] (some d)).filterMap ackIn = []
    rw [List.filterMap_eq_nil_iff]
    intro m hm
    have := Channels.mem_sentTo.mp hm
    rw [List.mem_singleton, Prod.mk.injEq] at this
    rw [this.2]
    rfl

theorem accounted_mark {t : Fin n} {k k' : Task (interp e gc)} {out : Sends n (WMsg n)}
    (hw : k.work.acct.Settled) (hc : continueMarking k = some (k', out)) :
    Accounted t (⟨some t, none, [], out⟩ : Event (interp e gc)) k.work.acct k'.work.acct := by
  have hsilent : ∀ out : Sends n (WMsg n), (∀ d ∈ out, addrsIn d.2 = none ∧ ackIn d.2 = none) →
      Accounted t (⟨some t, none, [], out⟩ : Event (interp e gc)) k.work.acct k.work.acct :=
    fun out h => accounted_silent hw (fun j m ht => by cases ht) h
  unfold continueMarking at hc
  cases hm : k.marking with
  | none => simp [hm] at hc
  | some pid =>
    simp only [hm] at hc
    split at hc
    · unfold sendMarkMessage at hc
      split at hc
      · cases hc
        exact hsilent [] (by simp)
      · rename_i hne
        cases hc
        exact accounted_writeMarks hw hne
    · cases hc
      refine hsilent _ (fun d hd => ?_)
      rw [List.mem_singleton.mp hd]
      exact ⟨rfl, rfl⟩

theorem markReplicas_ledger {base : Acct n} (l : List (Fin n × List (Gaddr n))) :
    Triple (InLedger base [] 0 []) (markReplicas l) (fun _ => InLedger base [] 0 []) :=
  sendRaw_ledger (fun _ => rfl) (fun _ _ => rfl) l

theorem sweepReferences_ledger {base : Acct n} (l l' : List (Fin n × List (Gaddr n))) :
    Triple (InLedger base [] 0 []) (sweepReferences l l') (fun _ => InLedger base [] 0 []) :=
  Triple.bind (sendRaw_ledger (fun _ => rfl) (fun _ _ => rfl) l) (fun _ => markReplicas_ledger l')

/-- Messages of the collector and of the pauses: no addresses, no ACK. -/
theorem silent_took {j' : Party n} {m' : Msg n (WMsg n)} (h : m'.addrs = [] ∧ ackIn m' = none) :
    ∀ j m, some (j', m') = some (j, m) → m.addrs = [] ∧ ackIn m = none := by
  intro j m he
  simp only [Option.some.injEq, Prod.mk.injEq] at he
  rw [← he.2]
  exact h

/-- `handle_message` accounts for what it does. -/
theorem accounted_handles {t : Fin n} {k k' : Task (interp e gc)} {j : Party n}
    {m : Msg n (interp e gc).Msg} {pending : List (Gaddr n)} {out : Sends n (interp e gc).Msg}
    (hw : k.work.acct.Settled) (hh : Handles t k j m pending k' out)
    (hone : ∀ count naddrs ty, m = .work (.ack count naddrs ty) → count = 1) :
    Accounted t (⟨some t, some (j, m), pending, out⟩ : Event (interp e gc)) k.work.acct
      k'.work.acct := by
  cases hh with
  | pause hp =>
    unfold interpreterPause at hp
    split at hp
    · cases hp
    · cases hp
      refine accounted_silent hw (silent_took ⟨rfl, rfl⟩) (fun d hd => ?_)
      rcases List.mem_append.mp hd with hd | hd
      · rw [mem_toOthers hd]
        exact ⟨rfl, rfl⟩
      · unfold maybePauseack at hd
        split at hd
        · rw [List.mem_singleton.mp hd]
          exact ⟨rfl, rfl⟩
        · cases hd
  | gotpause hp =>
    unfold interpreterGotpause at hp
    simp only at hp
    split at hp
    · cases hp
      refine accounted_silent hw (silent_took ⟨rfl, rfl⟩) (fun d hd => ?_)
      unfold maybePauseack at hd
      split at hd
      · rw [List.mem_singleton.mp hd]
        exact ⟨rfl, rfl⟩
      · cases hd
    · cases hp
  | resume => exact accounted_silent hw (silent_took ⟨rfl, rfl⟩) (by simp)
  | startdistgc hp =>
    unfold interpreterStartdistgc at hp
    split at hp
    · cases hp
    · cases hp
      refine accounted_silent hw (silent_took ⟨rfl, rfl⟩) (fun d hd => ?_)
      rw [List.mem_singleton.mp hd]
      exact ⟨rfl, rfl⟩
  | markroots hcs hs =>
    obtain ⟨h, replicas, -, hrun⟩ := hcs
    unfold startMarking at hs
    split at hs
    · cases hs
      exact accounted_program (w := { k.work with heap := h }) hw hrun
        (markReplicas_ledger replicas) (silent_took ⟨rfl, rfl⟩)
    · cases hs
  | markentry hme _ hs =>
    unfold startMarking at hs
    split at hs
    · cases hs
      exact accounted_marks hw hme
    · cases hs
  | sweep hce hs =>
    obtain ⟨h, deletions, replicas, -, hrun⟩ := hce
    unfold interpreterSweep at hs
    split at hs
    · cases hs
      refine (accounted_program (w := { k.work with heap := h }) hw hrun
        (sweepReferences_ledger deletions replicas) (silent_took ⟨rfl, rfl⟩)).congr_out (fun d => ?_)
      simp [Channels.sentTo_append, Channels.sentTo_cons]
    · cases hs
  | checkallrefs hcr =>
    obtain ⟨refs, hrun⟩ := hcr
    exact accounted_program hw hrun (postRaw_ledger (fun _ => rfl) (fun _ _ => rfl) refs)
      (silent_took ⟨rfl, rfl⟩)
  | work hwk =>
    obtain ⟨dest, deleted, hrun⟩ := hwk
    exact accounted_message hw hrun (fun count naddrs ty hm => hone count naddrs ty (by rw [hm]))

/-! ## Runs -/

/-- The runs of a group whose tasks start with nothing in flight. -/
abbrev InterpRun (e : Env n) (gc : Heap n → Heap n → Prop) :
    Group (interp e gc) → List (Event (interp e gc)) → Prop :=
  Run (fun s => Initial s ∧ ∀ i, (s.task i).work.acct = {}) Step

theorem Balanced.initial {s : Group (interp e gc)} (h : Initial s)
    (ha : ∀ i, (s.task i).work.acct = {}) : Balanced s [] := by
  refine ⟨fun t => ?_, fun t d => ?_, fun t d => ?_, fun t d => ?_, fun t d => ⟨[], ?_, ?_⟩⟩
  · rw [ha]
    exact ⟨rfl, rfl, rfl⟩
  · rw [ha]
    rfl
  · rw [ha]
    rfl
  · exact Nat.le_refl 0
  · simp [unacked, sentBy, Group.flight, h.chan]
  · simp [Group.ackFlight, h.chan]

/-- Every ACK in flight acknowledges one message. -/
theorem Balanced.ack_one {s : Group (interp e gc)} {tr : List (Event (interp e gc))}
    (h : Balanced s tr) {t d : Fin n} {count naddrs : Nat} {ty : Tag}
    {rest : List (Msg n (WMsg n))} (hch : s.chan (some d) (some t) = .work (.ack count naddrs ty) :: rest) :
    ∃ l ls, unacked tr t d = l :: ls ∧ count = 1 ∧ naddrs = l.length := by
  obtain ⟨l, hl, hack⟩ := h.split t d
  have hhead : s.ackFlight d t = (count, naddrs) :: rest.filterMap ackIn := by
    rw [Group.ackFlight, hch]
    rfl
  rw [hhead] at hack
  cases l with
  | nil => cases hack
  | cons a l =>
    rw [List.map_cons, List.cons.injEq, Prod.mk.injEq] at hack
    exact ⟨a, l ++ s.flight t d, hl, hack.1.1, hack.1.2⟩

theorem setTask_acct {s : Group (interp e gc)} {i t : Fin n} (k : Task (interp e gc))
    (h : some i ≠ some t) : ((s.setTask i k).task t).work.acct = (s.task t).work.acct := by
  rw [setTask_other s k (fun hc => h (by rw [hc]))]

/-- Every step of a group accounts for what it does. -/
theorem balanced_step {s s' : Group (interp e gc)} {tr : List (Event (interp e gc))}
    {ev : Event (interp e gc)} (h : Balanced s tr) (hs : Step s ev s') :
    Balanced s' (tr ++ [ev]) := by
  refine h.step hs.fits hs.chan_eq (fun t ht => ?_) (fun t ht => ?_)
  · cases hs with
    | timeout _ => cases ht
    | receive _ _ => cases ht
    | handle hch _ hh =>
      cases ht
      rw [deliver_task, setTask_self]
      refine accounted_handles (h.settled t) hh (fun count naddrs ty hm => ?_)
      subst hm
      cases hh with
      | work _ =>
        obtain ⟨l, ls, -, h1, -⟩ := h.ack_one hch
        exact h1
    | mark hc =>
      cases ht
      rw [deliver_task, setTask_self]
      exact accounted_mark (h.settled t) hc
    | external _ hx =>
      cases ht
      rw [deliver_task, setTask_self]
      cases hx with
      | distribute dist hrun =>
        exact accounted_program (h.settled t) hrun (distributeTo_ledger e t dist _)
          (fun j m hc => by cases hc)
      | response f hrun =>
        exact accounted_program (h.settled t) hrun (onHeap_ledger _) (fun j m hc => by cases hc)
    | evaluate _ _ hx =>
      cases ht
      rw [deliver_task, setTask_self]
      cases hx with
      | act a hrun =>
        exact accounted_program (h.settled t) hrun (act_ledger e t a) (fun j m hc => by cases hc)
      | mutate f _ ha hout =>
        rw [ha, hout]
        exact accounted_silent (h.settled t) (fun j m hc => by cases hc) (by simp [asWork])
      | collect hp replicas _ hrun =>
        exact accounted_program (w := { (s.task t).work with heap := hp }) (h.settled t) hrun
          (markReplicas_ledger replicas) (fun j m hc => by cases hc)
  · cases hs with
    | timeout _ => rfl
    | receive _ _ => rfl
    | handle _ _ _ => exact setTask_acct _ ht
    | mark _ => exact setTask_acct _ ht
    | external _ _ => exact setTask_acct _ ht
    | evaluate _ _ _ => exact setTask_acct _ ht

theorem balanced_run {s : Group (interp e gc)} {tr : List (Event (interp e gc))}
    (h : InterpRun e gc s tr) : Balanced s tr :=
  Run.invariant (I := Balanced) (fun _ h0 => Balanced.initial h0.1 h0.2)
    (fun _ _ _ _ _ hi hs => balanced_step hi hs) h

theorem unacked_ne_nil (tr : List (Event (interp e gc))) (t d : Fin n) :
    ∀ l ∈ unacked tr t d, l ≠ [] := by
  intro l hl
  obtain ⟨ev, -, hl⟩ := List.mem_flatMap.mp (List.mem_of_mem_drop hl)
  unfold Event.lists at hl
  split at hl
  · obtain ⟨m, -, hm⟩ := List.mem_filterMap.mp hl
    unfold addrsIn at hm
    split at hm
    · cases hm
    · cases hm
      assumption
  · cases hl

/-- The assertions of `interpreter_ack` hold when the oldest message has as many addresses as the
ACK says. -/
theorem interpreterAck_ok {w : Interp n} {src : Fin n} {k : Nat} {ks : List Nat} (hk : 0 < k)
    (hc : w.acct.unackMsgAcount src = k :: ks) (hlen : k ≤ (w.acct.inflightAddrs src).length) :
    interpreterAck src 1 k w = some ((), { w with acct := w.acct.removeAcked src 1 }) := by
  unfold interpreterAck
  rw [check_true hk, pure_bind, get_apply, check_true (by simp [hc]), pure_bind, check_true rfl,
    pure_bind, check_true (by simp [hc]), pure_bind, check_true (by simpa [hc] using hlen), pure_bind]
  rfl

/-- In every state of every run, `inflight_addrs` holds the addresses of the messages that have not
been acknowledged, message by message in the order of sending and each message from its last address
to its first, and `unack_msg_acount` their numbers. The messages ACK in flight are those of the
oldest of these messages, and an ACK that has arrived removes the addresses of the oldest. -/
theorem inflight_exact {s : Group (interp e gc)} {tr : List (Event (interp e gc))}
    (h : InterpRun e gc s tr) (t d : Fin n) :
    (s.task t).work.acct.inflightAddrs d = (unacked tr t d).flatMap List.reverse ∧
    (s.task t).work.acct.unackMsgAcount d = (unacked tr t d).map List.length ∧
    (s.task t).work.acct.inflight = [] ∧
    (∃ l, unacked tr t d = l ++ s.flight t d ∧ s.ackFlight d t = l.map (fun a => (1, a.length))) ∧
    ∀ count naddrs ty rest, s.chan (some d) (some t) = .work (.ack count naddrs ty) :: rest →
      ∃ l ls w, unacked tr t d = l :: ls ∧ naddrs = l.length ∧
        interpreterAck d count naddrs (s.task t).work = some ((), w) ∧
        w.acct.inflightAddrs d = ls.flatMap List.reverse ∧
        w.acct.unackMsgAcount d = ls.map List.length := by
  have hb := balanced_run h
  refine ⟨hb.addrs t d, hb.counts t d, (hb.settled t).inflight, hb.split t d, ?_⟩
  intro count naddrs ty rest hch
  obtain ⟨l, ls, hu, rfl, rfl⟩ := hb.ack_one hch
  have haddrs := hb.addrs t d
  have hcounts := hb.counts t d
  rw [hu] at haddrs hcounts
  have hpos : 0 < l.length :=
    List.length_pos_iff.mpr (unacked_ne_nil tr t d l (by simp [hu]))
  have hlen : l.length ≤ ((s.task t).work.acct.inflightAddrs d).length := by
    rw [haddrs]
    simp
  refine ⟨l, ls, _, hu, rfl, interpreterAck_ok hpos hcounts hlen, ?_, ?_⟩
  · simp [Acct.removeAcked, haddrs, hcounts]
  · simp [Acct.removeAcked, hcounts]

end

end Runtime
end NReduce
