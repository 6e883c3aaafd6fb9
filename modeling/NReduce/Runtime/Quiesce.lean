import NReduce.Runtime.PauseRounds
import NReduce.Runtime.Sending
import NReduce.Runtime.Simulate

/-!
# NReduce.Runtime.Quiesce

Whether a pause stops the messages with addresses: FETCH, RESPOND and SCHEDULE.

A task announces its pause with GOTPAUSE behind all that it has sent. What it sends after that
depends on the messages that it handles while it is paused.

* `Calm`: a paused task answers no FETCH request and gives no sparks away.
* `pause_barrier`: in the runs with calm steps no such message is in flight, from one task to
  another, once all have acknowledged the pause.
* `pause_barrier_answered`: without this there is one.
-/

namespace NReduce
namespace Runtime

open Logic Network

variable {n : Nat}

/-! ## Calm steps -/

/-- What a collection does to a heap: globals and new frames that are not marked are removed, and
pointers skip the indirections. -/
structure Collects (h h' : Heap n) : Prop where
  globals : ∀ g glo, h'.globals g = some glo → ∃ p, h.globals g = some { glo with p := p }
  frames : ∀ f, (∃ data, h'.frames f = { h.frames f with data := data }) ∨
    (h.frames f).state = .new ∧ h'.frames f = { h.frames f with c := none, state := .unallocated }
  tables : h'.addrhash.Sublist h.addrhash ∧ h'.targethash.Sublist h.targethash ∧
    h'.physhash.Sublist h.physhash
  queues : h'.runq = h.runq ∧ h'.sparklist = h.sparklist ∧ h'.ioframes = h.ioframes
  counters : h'.nextlid = h.nextlid ∧ h'.nglobals = h.nglobals ∧ h'.nfetching = h.nfetching

theorem Collects.plain {h h' : Heap n} (hc : Collects h h') (hp : h.Plain) : h'.Plain := by
  intro g glo hg
  obtain ⟨p, hg'⟩ := hc.globals g glo hg
  have hw := hp g _ hg'
  exact hw

/-- The messages with addresses of objects. -/
def WMsg.carrier : WMsg n → Bool
  | .fetch _ _ => true
  | .respond _ _ => true
  | .schedule _ => true
  | _ => false

def Msg.carrier : Msg n (WMsg n) → Bool
  | .work m => m.carrier
  | _ => false

/-- Task `tid` answers a message of `src` with addresses. -/
def Answers (e : Env n) (tid src : Fin n) (h : Heap n) : WMsg n → Prop
  | .fetch target _ => src ≠ tid ∧ ¬ h.Awaits target
  | .fish reqtsk _ => 0 < fishSparks e tid reqtsk h ∧ h.sparklist ≠ []
  | _ => False

variable {e : Env n} {gc : Heap n → Heap n → Prop}

/-- A step of a task that is paused neither answers a FETCH request nor gives a spark away. -/
structure Calm (s : Group (interp e gc)) (ev : Event (interp e gc)) : Prop where
  handled : ∀ i j m, ev.actor = some i → ev.took = some (some j, .work m) →
    (s.task i).paused = true → ¬ Answers e i j (s.task i).work.heap m
  /-- a message DISTRIBUTE -/
  distributed : ∀ i dist w out, ev.actor = some i → ev.took = none → ev.out = asWork out →
    Runs (interpreterDistribute e i dist) (s.task i).work w out → (s.task i).paused = true →
    (s.task i).work.heap.sparklist = [] ∨ ∀ dest, dest ≠ i → dist dest = 0

/-! ## What a step sends -/

section

variable {S : Fin n × WMsg n → Prop} {w w' : Interp n} {out : List (Fin n × WMsg n)}

theorem settled_sending (hp : w.heap.Plain) (hset : w.acct.Settled) : Sending S w := by
  refine ⟨hp, fun d hd => ?_⟩
  rw [hset.sent] at hd
  cases hd

theorem runs_sending {m : InterpM n Unit} {P : Interp n → Prop}
    (hm : Triple P m (fun _ => Sending S)) (hw : P w) (h : Runs m w w' out) :
    w'.heap.Plain ∧ ∀ d ∈ out, S d := by
  obtain ⟨r, hr, rfl, rfl⟩ := h
  have hs := hm w hw () r hr
  exact ⟨hs.plain, hs.sent⟩

end

/-- A message of a collection or an acknowledgement, or one that the task sends itself. -/
def Silent (tid : Fin n) (d : Fin n × WMsg n) : Prop := d.1 ≠ tid → d.2.carrier = false

theorem handle_silent {i j dest : Fin n} {deleted : List (Gaddr n)} {m : WMsg n}
    {w w' : Interp n} {out : List (Fin n × WMsg n)} (hp : w.heap.Plain) (hset : w.acct.Settled)
    (ha : ¬ Answers e i j w.heap m) (h : Runs (handleMessage e i j dest deleted m) w w' out) :
    ∀ d ∈ out, Silent i d := by
  have hsend : Sending (Silent i) w := settled_sending hp hset
  have hack : ∀ k t, Silent i (j, .ack 1 k t) := fun _ _ _ => rfl
  cases m with
  | fish reqtsk age =>
    refine (runs_sending (interpreterFish_quiet e i j reqtsk dest age hack (fun _ _ => rfl) ?_)
      ⟨hsend, rfl⟩ h).2
    by_contra hc
    rw [not_or] at hc
    exact ha ⟨Nat.pos_of_ne_zero hc.1, hc.2⟩
  | fetch target store =>
    by_cases hj : j = i
    · refine (runs_sending (interpreterFetch_sending e i j target store hack ?_) hsend h).2
      exact fun o hne => absurd hj hne
    · refine (runs_sending (interpreterFetch_quiet e i j target store hack ?_) ⟨hsend, rfl⟩ h).2
      by_contra hc
      exact ha ⟨hj, hc⟩
  | respond store o =>
    exact (runs_sending (interpreterRespond_sending e i j store o hack) hsend h).2
  | schedule l => exact (runs_sending (interpreterSchedule_sending e i j l hack) hsend h).2
  | ack count naddrs t => exact (runs_sending (interpreterAck_sending j count naddrs) hsend h).2
  | haveReplicas l =>
    exact (runs_sending (Keeps.when (fun _ => msgSend_sending (fun _ => rfl))) hsend h).2
  | deleteReplicas l => exact (runs_sending (Keeps.ret _) hsend h).2
  | checkrefs l => exact (runs_sending (Keeps.ret _) hsend h).2

theorem distribute_silent {i : Fin n} {dist : Fin n → Nat} {w w' : Interp n}
    {out : List (Fin n × WMsg n)} (hp : w.heap.Plain) (hset : w.acct.Settled)
    (hd : w.heap.sparklist = [] ∨ ∀ dest, dest ≠ i → dist dest = 0)
    (h : Runs (interpreterDistribute e i dist) w w' out) : ∀ d ∈ out, Silent i d := by
  have hsend : Sending (Silent i) w := settled_sending hp hset
  rcases hd with hd | hd
  · obtain ⟨r, hr, rfl, rfl⟩ := h
    rw [distributeTo_none e i dist _ hd hr]
    exact hsend.sent
  · exact (runs_sending (distributeTo_self e i dist hd (fun _ hne => absurd rfl hne) _) hsend h).2

/-- The messages of a step that go to other tasks have no addresses of objects. -/
def Quiet (i : Fin n) (out : Sends n (WMsg n)) : Prop :=
  ∀ d ∈ out, d.1 ≠ some i → d.2.carrier = false

theorem quiet_asWork {i : Fin n} {out : List (Fin n × WMsg n)} (h : ∀ d ∈ out, Silent i d) :
    Quiet i (asWork out) := by
  intro d hd hne
  obtain ⟨d', hd', rfl⟩ := List.mem_map.mp hd
  exact h d' hd' (fun he => hne (congrArg some he))

theorem quiet_append {i : Fin n} {out out' : Sends n (WMsg n)} (h : Quiet i out)
    (h' : Quiet i out') : Quiet i (out ++ out') := by
  intro d hd
  rcases List.mem_append.mp hd with hd | hd
  · exact h d hd
  · exact h' d hd

theorem quiet_of_unwork {i : Fin n} {out : Sends n (WMsg n)}
    (h : ∀ d ∈ out, d.2.carrier = false) : Quiet i out := fun d hd _ => h d hd

theorem maybePauseack_quiet (i : Fin n) (t : Task (interp e gc)) : Quiet i (maybePauseack t) := by
  refine quiet_of_unwork (fun d hd => ?_)
  unfold maybePauseack at hd
  split at hd
  · rw [List.mem_singleton.mp hd]
    rfl
  · cases hd

theorem startMarking_work {i : Fin n} {k : Nat} {pending : List (Gaddr n)}
    {t t' : Task (interp e gc)} (h : startMarking i k pending t = some t') : t'.work = t.work := by
  unfold startMarking at h
  split at h
  · cases h
    rfl
  · cases h

theorem collected_sending {w : Interp n} {h : Heap n} (hp : h.Plain) (hset : w.acct.Settled) :
    Sending (fun d => d.2.carrier = false) { w with heap := h } :=
  settled_sending (w := { w with heap := h }) hp hset

theorem sweepReferences_sending {S : Fin n × WMsg n → Prop} (hd : ∀ d l, S (d, .deleteReplicas l))
    (hr : ∀ d l, S (d, .haveReplicas l)) (deletions replicas : List (Fin n × List (Gaddr n))) :
    Keeps (Sending S) (sweepReferences deletions replicas) :=
  Keeps.bind (sendRaw_sending hd deletions) (fun _ => sendRaw_sending hr replicas)

/-- What a message does to the heap of a task, and what the task sends. -/
structure HandledQuietly (i : Fin n) (t t' : Task (interp e gc)) (out : Sends n (WMsg n))
    (answers : Prop) : Prop where
  plain : t'.work.heap.Plain
  quiet : ¬ answers → Quiet i out

/-- The message that a step takes is one that the task answers. -/
def MsgAnswers (e : Env n) (i : Fin n) (h : Heap n) : Party n → Msg n (WMsg n) → Prop
  | some j, .work m => Answers e i j h m
  | _, _ => False

theorem handles_quietly {i : Fin n} {t t' : Task (interp e Collects)} {j : Party n}
    {m : Msg n (interp e Collects).Msg} {pending : List (Gaddr n)}
    {out : Sends n (interp e Collects).Msg} (hh : Handles i t j m pending t' out)
    (hp : t.work.heap.Plain) (hset : t.work.acct.Settled) :
    HandledQuietly i t t' out (MsgAnswers e i t.work.heap j m) := by
  have hall : Sending (fun _ => True) t.work := settled_sending hp hset
  cases hh with
  | pause hr =>
    unfold interpreterPause at hr
    split at hr
    · cases hr
    · cases hr
      refine ⟨hp, fun _ => quiet_append (quiet_of_unwork (fun d hd => ?_)) (maybePauseack_quiet i _)⟩
      rw [mem_toOthers hd]
      rfl
  | gotpause hr =>
    unfold interpreterGotpause at hr
    simp only at hr
    split at hr
    · cases hr
      exact ⟨hp, fun _ => maybePauseack_quiet i _⟩
    · cases hr
  | resume => exact ⟨hp, fun _ d hd => by cases hd⟩
  | startdistgc hr =>
    unfold interpreterStartdistgc at hr
    split at hr
    · cases hr
    · cases hr
      refine ⟨hp, fun _ => quiet_of_unwork (fun d hd => ?_)⟩
      rw [List.mem_singleton.mp hd]
      rfl
  | markroots hw hm =>
    obtain ⟨h, replicas, hgc, hr⟩ := hw
    have hcol := runs_sending (sendRaw_sending (fun _ _ => rfl) replicas)
      (collected_sending (hgc.plain hp) hset) hr
    have ht := startMarking_work hm
    exact ⟨ht ▸ hcol.1, fun _ => quiet_asWork (fun d hd _ => hcol.2 d hd)⟩
  | markentry hw ha hm =>
    have hmark := runs_sending (readMarks_sending _ _ (fun _ _ => rfl))
      (settled_sending (S := fun d => d.2.carrier = false) hp hset) hw
    have ht := startMarking_work hm
    exact ⟨ht ▸ hmark.1, fun _ => quiet_asWork (fun d hd _ => hmark.2 d hd)⟩
  | sweep hw hr =>
    obtain ⟨h, deletions, replicas, hgc, hs⟩ := hw
    have hcol := runs_sending (sweepReferences_sending (fun _ _ => rfl) (fun _ _ => rfl)
      deletions replicas) (collected_sending (hgc.plain hp) hset) hs
    unfold interpreterSweep at hr
    split at hr
    · cases hr
      refine ⟨hcol.1, fun _ => quiet_append (quiet_asWork (fun d hd _ => hcol.2 d hd))
        (quiet_of_unwork (fun d hd => ?_))⟩
      rw [List.mem_singleton.mp hd]
      rfl
    · cases hr
  | checkallrefs hw =>
    obtain ⟨refs, hr⟩ := hw
    have hpost := runs_sending (postRaw_sending (fun _ _ => rfl) refs)
      (settled_sending (S := fun d => d.2.carrier = false) hp hset) hr
    exact ⟨hp, fun _ => quiet_asWork (fun d hd _ => hpost.2 d hd)⟩
  | work hw =>
    obtain ⟨dest, deleted, hr⟩ := hw
    refine ⟨(runs_sending (handleMessage_sending e i _ dest deleted _ (fun _ => trivial)) hall hr).1,
      fun ha => quiet_asWork (handle_silent hp hset ha hr)⟩

theorem continueMarking_quiet {i : Fin n} {t t' : Task (interp e gc)}
    {out : Sends n (interp e gc).Msg} (h : continueMarking t = some (t', out)) :
    t'.work.heap = t.work.heap ∧ Quiet i out := by
  unfold continueMarking at h
  cases hm : t.marking with
  | none => simp [hm] at h
  | some pid =>
    simp only [hm] at h
    split at h
    · unfold sendMarkMessage at h
      split at h
      · cases h
        exact ⟨rfl, fun d hd => by cases hd⟩
      · cases h
        refine ⟨rfl, quiet_of_unwork (fun d hd => ?_)⟩
        rw [List.mem_singleton.mp hd]
        rfl
    · cases h
      refine ⟨rfl, quiet_of_unwork (fun d hd => ?_)⟩
      rw [List.mem_singleton.mp hd]
      rfl

theorem plain_setTask {s : Group (interp e gc)} {i : Fin n} {t' : Task (interp e gc)}
    (hp : ∀ k, (s.task k).work.heap.Plain) (ht : t'.work.heap.Plain) (k : Fin n) :
    ((s.setTask i t').task k).work.heap.Plain := by
  by_cases hk : k = i
  · rw [hk, setTask_self]
    exact ht
  · rw [setTask_other s t' hk]
    exact hp k

section Steps

variable {s s' : Group (interp e Collects)} {ev : Event (interp e Collects)}

theorem step_plain (hs : Step s ev s') (hp : ∀ k, (s.task k).work.heap.Plain)
    (hset : ∀ k, (s.task k).work.acct.Settled) (k : Fin n) : (s'.task k).work.heap.Plain := by
  have hall : ∀ i, Sending (fun _ => True) (s.task i).work :=
    fun i => settled_sending (hp i) (hset i)
  cases hs with
  | timeout _ => exact hp k
  | receive _ _ => exact hp k
  | @handle i j m rest pending t' out _ _ hh =>
    exact plain_setTask hp (handles_quietly hh (hp i) (hset i)).plain k
  | @mark i t' out hc =>
    refine plain_setTask hp ?_ k
    rw [(continueMarking_quiet (i := i) hc).1]
    exact hp i
  | @external i w out _ hx =>
    refine plain_setTask hp ?_ k
    cases hx with
    | distribute dist hr =>
      exact (runs_sending (distributeTo_sending e i dist (fun _ => trivial) _) (hall i) hr).1
    | response f hr =>
      exact (runs_sending (onHeap_sending (retrieveBlockedFrame_plain f)) (hall i) hr).1
  | @evaluate i w out _ _ hx =>
    refine plain_setTask hp ?_ k
    cases hx with
    | act a hr => exact (runs_sending (act_sending (fun _ => trivial) e i a) (hall i) hr).1
    | mutate f hm _ _ =>
      refine (hp i).congr ?_
      rw [hm.same]
    | collect h replicas hgc hr =>
      exact (runs_sending (sendRaw_sending (fun _ _ => rfl) replicas)
        (collected_sending (hgc.plain (hp i)) (hset i)) hr).1

/-- A paused task sends nothing with addresses in a calm step. -/
theorem step_quiet (hs : Step s ev s') (hc : Calm s ev) (hp : ∀ k, (s.task k).work.heap.Plain)
    (hset : ∀ k, (s.task k).work.acct.Settled) {i : Fin n} (hi : ev.actor = some i)
    (hpaused : (s.task i).paused = true) : Quiet i ev.out := by
  cases hs with
  | timeout _ => cases hi
  | receive _ _ => cases hi
  | @handle i j m rest pending t' out _ _ hh =>
    cases hi
    refine (handles_quietly hh (hp i) (hset i)).quiet (fun ha => ?_)
    cases j with
    | none => exact ha
    | some j =>
      cases m with
      | work m => exact hc.handled i j m rfl rfl hpaused ha
      | _ => exact ha
  | mark hm =>
    cases hi
    exact (continueMarking_quiet hm).2
  | external _ hx =>
    cases hi
    cases hx with
    | distribute dist hr =>
      exact quiet_asWork (distribute_silent (hp i) (hset i)
        (hc.distributed i dist _ _ rfl rfl rfl hr hpaused) hr)
    | response f hr =>
      have hsend : Sending (fun d => d.2.carrier = false) (s.task i).work :=
        settled_sending (hp i) (hset i)
      exact quiet_asWork (fun d hd _ =>
        (runs_sending (onHeap_sending (retrieveBlockedFrame_plain f)) hsend hr).2 d hd)
  | evaluate _ hun _ =>
    cases hi
    rw [hpaused] at hun
    cases hun

/-! ## Runs with calm steps -/

/-- Every message with addresses has a GOTPAUSE behind it. -/
def Flushed (l : List (Msg n (WMsg n))) : Prop :=
  ∀ l₁ m l₂, l = l₁ ++ m :: l₂ → m.carrier = true → Msg.gotpause ∈ l₂

theorem Flushed.tail {l : List (Msg n (WMsg n))} (h : Flushed l) : Flushed l.tail := by
  intro l₁ m l₂ hl hm
  cases l with
  | nil => simp at hl
  | cons m' l => exact h (m' :: l₁) m l₂ (by rw [← List.cons_append.symm, ← hl]; rfl) hm

theorem Flushed.append {l out : List (Msg n (WMsg n))} (h : Flushed l)
    (hout : ∀ m ∈ out, m.carrier = false) : Flushed (l ++ out) := by
  intro l₁ m l₂ hl hm
  rcases List.append_eq_append_iff.mp hl with ⟨as, h1, h2⟩ | ⟨bs, h1, h2⟩
  · have : m ∈ out := by
      rw [h2]
      simp
    rw [hout m this] at hm
    cases hm
  · cases bs with
    | nil =>
      have : m ∈ out := by
        rw [← List.nil_append out, ← h2]
        simp
      rw [hout m this] at hm
      cases hm
    | cons b bs =>
      rw [List.cons_append, List.cons.injEq] at h2
      obtain ⟨rfl, rfl⟩ := h2
      exact List.mem_append_left _ (h l₁ m bs h1 hm)

theorem flushed_gotpause (l : List (Msg n (WMsg n))) : Flushed (l ++ [.gotpause]) := by
  intro l₁ m l₂ hl hm
  rcases List.eq_nil_or_concat l₂ with rfl | ⟨l₂', last, rfl⟩
  · obtain ⟨-, h2⟩ := List.append_inj' hl rfl
    cases h2
    cases hm
  · have h2 : l ++ [Msg.gotpause] = (l₁ ++ m :: l₂') ++ [last] := by simpa using hl
    obtain ⟨-, h3⟩ := List.append_inj' h2 rfl
    cases h3
    simp

/-- A task that is paused was so before, or has just announced it to all others. -/
theorem step_paused (hs : Step s ev s') {j : Fin n} (hj : (s'.task j).paused = true) :
    (s.task j).paused = true ∨ ev.actor = some j ∧ ∀ i, i ≠ j →
      Channels.sentTo ev.out (some i) = [.gotpause] := by
  have hother : ∀ {i : Fin n} {t' : Task (interp e Collects)},
      (t'.paused = true → (s.task i).paused = true) → ((s.setTask i t').task j).paused = true →
      (s.task j).paused = true := by
    intro i t' ht hp
    by_cases hji : j = i
    · rw [hji, setTask_self] at hp
      rw [hji]
      exact ht hp
    · rwa [setTask_other s t' hji] at hp
  cases hs with
  | timeout _ => exact Or.inl hj
  | receive _ _ => exact Or.inl hj
  | mark hc =>
    have hsame := (continueMarking_unpaused hc).1
    exact Or.inl (hother (fun ht => hsame.paused ▸ ht) hj)
  | @external i w out _ _ =>
    have hsame : ({ s.task i with work := w } : Task (interp e Collects)).paused = true →
      (s.task i).paused = true := fun ht => ht
    exact Or.inl (hother hsame hj)
  | @evaluate i w out _ _ _ =>
    have hsame : ({ s.task i with work := w } : Task (interp e Collects)).paused = true →
      (s.task i).paused = true := fun ht => ht
    exact Or.inl (hother hsame hj)
  | @handle i jm m rest pending t' out _ _ hh =>
    by_cases hm : unpaused m = true
    · have hsame := (hh.unpaused_spec hm).1
      exact Or.inl (hother (fun ht => hsame.paused ▸ ht) hj)
    · cases hh with
      | pause hr =>
        by_cases hji : j = i
        · refine Or.inr ⟨congrArg some hji.symm, fun k hk => ?_⟩
          unfold interpreterPause at hr
          split at hr
          · cases hr
          · cases hr
            have hki : k ≠ i := hji ▸ hk
            rw [Channels.sentTo_append, sentTo_toOthers, sentTo_maybePauseack, if_neg hki,
              List.append_nil]
        · left
          rwa [deliver_task, setTask_other s t' hji] at hj
      | gotpause hr =>
        refine Or.inl (hother (fun ht => ?_) hj)
        unfold interpreterGotpause at hr
        simp only at hr
        split at hr
        · cases hr
          exact ht
        · cases hr
      | resume =>
        refine Or.inl (hother (fun ht => ?_) hj)
        cases ht
      | startdistgc _ => exact absurd rfl hm
      | markroots _ _ => exact absurd rfl hm
      | markentry _ _ _ => exact absurd rfl hm
      | sweep _ _ => exact absurd rfl hm
      | checkallrefs _ => exact absurd rfl hm
      | work _ => exact absurd rfl hm

/-- What a paused task has sent with addresses is followed by the announcement of its pause. -/
structure BarrierInv (s : Group (interp e Collects)) : Prop where
  plain : ∀ k, (s.task k).work.heap.Plain
  flushed : ∀ i j, j ≠ i → (s.task j).paused = true → Flushed (s.chan (some j) (some i))

theorem BarrierInv.step (h : BarrierInv s) (hset : ∀ k, (s.task k).work.acct.Settled)
    (hs : Step s ev s') (hc : Calm s ev) : BarrierInv s' := by
  refine ⟨step_plain hs h.plain hset, fun i j hji hj => ?_⟩
  have hchan : s'.chan (some j) (some i) = ((s.deliver ev).chan (some j) (some i)) := by
    rw [hs.chan_eq]
  rw [hchan, chan_deliver]
  rcases step_paused hs hj with hp | ⟨ha, hsent⟩
  · have hl := h.flushed i j hji hp
    refine Flushed.append ?_ (fun m hm => ?_)
    · split
      · split
        · exact hl.tail
        · exact hl
      · exact hl
    · split at hm
      · rename_i ha
        refine step_quiet hs hc h.plain hset ha.symm hp _ (Channels.mem_sentTo.mp hm) ?_
        exact fun he => hji (Option.some.inj he).symm
      · cases hm
  · rw [if_pos ha.symm, hsent i hji.symm]
    exact flushed_gotpause _

end Steps

/-- The runs of a group whose steps are calm. -/
abbrev CalmRun (e : Env n) :
    Group (interp e Collects) → List (Event (interp e Collects)) → Prop :=
  Run (fun s => Initial s ∧ ∀ i, (s.task i).work.acct = {} ∧ Started i (s.task i).work.heap)
    (fun s ev s' => Step s ev s' ∧ Calm s ev)

section Runs

variable {s : Group (interp e Collects)} {tr : List (Event (interp e Collects))}

theorem CalmRun.interpRun (h : CalmRun e s tr) : InterpRun e Collects s tr :=
  h.mono (fun _ hs => ⟨hs.1, fun i => (hs.2 i).1⟩) (fun _ _ _ hs => hs.1)

theorem CalmRun.groupRun (h : CalmRun e s tr) : GroupRun (interp e Collects) s tr :=
  h.mono (fun _ hs => hs.1) (fun _ _ _ hs => hs.1)

theorem barrierInv_run (h : CalmRun e s tr) : BarrierInv s := by
  refine Run.invariant (I := fun s _ => BarrierInv s) (fun s hs => ⟨fun k g glo hg => ?_,
    fun i j _ _ => ?_⟩) (fun s tr ev s' hr hi hs => ?_) h
  · rw [(hs.2 k).2.globals] at hg
    cases hg
  · intro l₁ m l₂ hl
    rw [hs.1.chan] at hl
    simp at hl
  · exact hi.step (balanced_run (CalmRun.interpRun hr)).settled hs.1 hs.2

end Runs

/-- In the runs whose steps are calm, every task is paused once all have acknowledged the pause, and
no message with addresses is in flight between tasks; and until it handles RESUME, a paused task
sends none. -/
theorem pause_barrier {s : Group (interp e Collects)} {tr : List (Event (interp e Collects))}
    (h : CalmRun e s tr) :
    (s.gc.ingc = true → s.gc.waiting = 0 →
      (∀ i, (s.task i).paused = true) ∧
      ∀ i j, j ≠ i → ∀ m ∈ s.chan (some j) (some i), m.carrier = false) ∧
    ∀ ev s' i, Step s ev s' → Calm s ev → ev.actor = some i → (s.task i).paused = true →
      ∀ d ∈ ev.out, d.1 ≠ some i → d.2.carrier = false := by
  have hinv := pauseInv_run h.groupRun
  have hb := barrierInv_run h
  refine ⟨fun hin hw => ⟨fun i => (hinv.all_paused hw hin i).2.1, fun i j hji m hm => ?_⟩,
    fun ev s' i hs hc hi hp => step_quiet hs hc hb.plain (balanced_run h.interpRun).settled hi hp⟩
  -- all announcements of the round have been counted, so the channel has none behind `m`
  obtain ⟨-, hpj, hpauses, -, -⟩ := hinv.all_paused hw hin j
  obtain ⟨-, -, -, hres, hcard⟩ := hinv.all_paused hw hin i
  have hgots : gots tr i j = resumes tr i + 1 := card_seen_eq.mp hcard j hji
  have hann := hinv.announced i j
  rw [if_neg hji, hgots, hpauses, hres] at hann
  have hnone : s.announced j i = 0 := by omega
  by_contra hcar
  rw [Bool.not_eq_false] at hcar
  obtain ⟨l₁, l₂, hl⟩ := List.append_of_mem hm
  have hgot := hb.flushed i j hji hpj l₁ m l₂ hl hcar
  rw [Group.announced, List.length_eq_zero_iff, List.filterMap_eq_nil_iff] at hnone
  have := hnone .gotpause (by rw [hl]; simp [hgot])
  cases this

/-- `Awaits` -/
def Heap.awaits (h : Heap n) (target : Gaddr n) : Bool :=
  (h.addrhashLookup target).any fun g => (h.globals g).any fun glo =>
    (h.resolve glo.p).any fun p => (h.frameOf p).any fun f => (h.frames f).state = .active

theorem Heap.awaits_sound {h : Heap n} {target : Gaddr n} (ha : h.awaits target = true) :
    h.Awaits target := by
  simp only [Heap.awaits, Option.any_eq_true, decide_eq_true_eq] at ha
  obtain ⟨g, hg, glo, hglo, p, hp, f, hf, hst⟩ := ha
  exact ⟨g, glo, p, f, hg, hglo, hp, hf, hst⟩

/-- Task `tid` does not answer a message of `src` with addresses. -/
def silent (e : Env n) (tid src : Fin n) (h : Heap n) : WMsg n → Bool
  | .fetch target _ => src = tid || h.awaits target
  | .fish reqtsk _ => fishSparks e tid reqtsk h = 0 || h.sparklist.isEmpty
  | _ => true

theorem not_answers_of_silent {tid src : Fin n} {h : Heap n} {m : WMsg n}
    (hs : silent e tid src h m = true) : ¬ Answers e tid src h m := by
  intro ha
  cases m with
  | fetch target store =>
    obtain ⟨hne, hnot⟩ := ha
    simp only [silent, Bool.or_eq_true, decide_eq_true_eq] at hs
    exact hs.elim hne (fun h => hnot (Heap.awaits_sound h))
  | fish reqtsk age =>
    obtain ⟨hpos, hne⟩ := ha
    simp only [silent, Bool.or_eq_true, decide_eq_true_eq, List.isEmpty_iff] at hs
    exact hs.elim hpos.ne' hne
  | _ => exact ha

/-- A paused task does not answer the message that it takes with addresses. -/
def Move.calm (s : Group (interp e gc)) : Move n → Bool
  | .work i j _ =>
    !(s.task i).paused || match s.chan (some j) (some i) with
      | .work m :: _ => silent e i j (s.task i).work.heap m
      | _ => true
  | _ => true

theorem handled_event {s s' : Group (interp e gc)} {i : Fin n} {j : Party n}
    {m : Msg n (WMsg n)} {r : Option (Task (interp e gc) × Sends n (WMsg n))}
    {ev : Event (interp e gc)} (h : s.handled i j m r = some (s', ev)) :
    ev.actor = some i ∧ ev.took = some (j, m) := by
  unfold Group.handled at h
  split at h
  · obtain ⟨⟨t', out⟩, -, he⟩ := Option.map_eq_some_iff.mp h
    cases he
    exact ⟨rfl, rfl⟩
  · cases h

/-- Which moves take messages, and which tasks go on by themselves. -/
theorem exec_event {s s' : Group (interp e gc)} {mv : Move n} {ev : Event (interp e gc)}
    (h : exec s mv = some (s', ev)) :
    (∀ i j m, ev.actor = some i → ev.took = some (some j, .work m) →
      ∃ dest rest, mv = .work i j dest ∧ s.chan (some j) (some i) = .work m :: rest) ∧
    ∀ i, ev.actor = some i → ev.took = none → (s.task i).paused = false := by
  have hother : (∃ j m, ev.took = some (j, m) ∧ ∀ w, m ≠ .work w) ∨ ev.actor = none →
      (∀ i j m, ev.actor = some i → ev.took = some (some j, .work m) →
        ∃ dest rest, mv = .work i j dest ∧ s.chan (some j) (some i) = .work m :: rest) ∧
      ∀ i, ev.actor = some i → ev.took = none → (s.task i).paused = false := by
    rintro (⟨j', m', ht, hm⟩ | hn)
    · rw [ht]
      refine ⟨fun i j m _ hw => ?_, fun i _ hw => ?_⟩
      · cases hw
        exact absurd rfl (hm m)
      · cases hw
    · rw [hn]
      refine ⟨fun i j m hi _ => ?_, fun i hi _ => ?_⟩
      · cases hi
      · cases hi
  cases mv with
  | timeout =>
    obtain ⟨⟨g, out⟩, -, he⟩ := Option.map_eq_some_iff.mp h
    cases he
    exact hother (.inr rfl)
  | receive i =>
    simp only [exec] at h
    split at h
    · obtain ⟨⟨g, out⟩, -, he⟩ := Option.map_eq_some_iff.mp h
      cases he
      exact hother (.inr rfl)
    · cases h
  | control i =>
    simp only [exec] at h
    split at h
    · exact hother (.inl ⟨_, _, (handled_event h).2, fun w hw => by cases hw⟩)
    · exact hother (.inl ⟨_, _, (handled_event h).2, fun w hw => by cases hw⟩)
    · cases h
  | gotpause i j =>
    simp only [exec] at h
    split at h
    · exact hother (.inl ⟨_, _, (handled_event h).2, fun w hw => by cases hw⟩)
    · cases h
  | work i j dest =>
    simp only [exec] at h
    split at h
    · next m rest hch =>
      obtain ⟨ha, ht⟩ := handled_event h
      rw [ha, ht]
      refine ⟨fun i' j' m' hi hm => ?_, fun _ _ hn => ?_⟩
      · cases hi
        cases hm
        exact ⟨dest, rest, rfl, hch⟩
      · cases hn
    · cases h
  | evaluate i a =>
    simp only [exec] at h
    split at h
    · next hcond =>
      obtain ⟨⟨w, out⟩, -, he⟩ := Option.map_eq_some_iff.mp h
      cases he
      refine ⟨fun _ _ _ _ hw => ?_, fun i' hi _ => ?_⟩
      · cases hw
      · cases hi
        exact hcond.2
    · cases h

theorem calm_of_exec {s s' : Group (interp e gc)} {mv : Move n} {ev : Event (interp e gc)}
    (h : exec s mv = some (s', ev)) (hc : mv.calm s = true) : Calm s ev := by
  obtain ⟨htook, hown⟩ := exec_event h
  refine ⟨fun i j m ha ht hp => ?_, fun i dist w out ha ht _ _ hp => ?_⟩
  · obtain ⟨dest, rest, rfl, hch⟩ := htook i j m ha ht
    rw [Move.calm, hp, hch] at hc
    exact not_answers_of_silent hc
  · rw [hown i ha ht] at hp
    cases hp

/-- All moves are calm. -/
def calmAll : List (Move n) → Group (interp e gc) → Bool
  | [], _ => true
  | mv :: mvs, s => mv.calm s && (exec s mv).all (fun r => calmAll mvs r.1)

theorem calmRun_of_calmAll {mvs : List (Move n)} {s s' : Group (interp e Collects)}
    {tr tr' : List (Event (interp e Collects))} (hr : CalmRun e s tr)
    (h : execAll mvs (s, tr) = some (s', tr')) (hc : calmAll mvs s = true) : CalmRun e s' tr' := by
  induction mvs generalizing s tr with
  | nil =>
    cases h
    exact hr
  | cons mv mvs ih =>
    unfold execAll at h
    split at h
    · next s₁ ev hx =>
      rw [calmAll, Bool.and_eq_true, hx] at hc
      exact ih (.next hr ⟨exec_step hx, calm_of_exec hx hc.1⟩) h hc.2
    · cases h

/-- Task 1 asks task 0 for work, gets a spark and then the address of its argument, for which it sends
a FETCH request. Task 0 is paused when it takes the request, and the frame that is asked for is
active, so that there is no answer before both have acknowledged the pause. -/
def fetchMoves : List (Move 2) :=
  sparkMoves ++ [.evaluate 1 (.fish 0), .work 0 1 1, .work 1 0 0, .work 0 1 1,
    .evaluate 1 (.eval 0 0), .timeout, .control 0, .work 0 1 1, .control 1, .gotpause 0 1,
    .gotpause 1 0, .work 1 0 0, .receive 0, .receive 1]

theorem pause_barrier_fetchMoves : ∃ s tr,
    execAll fetchMoves (startGroup Collects, []) = some (s, tr) ∧ CalmRun smallEnv s tr ∧
    s.gc.ingc = true ∧ s.gc.waiting = 0 ∧ (∀ i, (s.task i).paused = true) ∧
    ∀ i j, j ≠ i → ∀ m ∈ s.chan (some j) (some i), m.carrier = false := by
  have hmoves : (execAll fetchMoves (startGroup Collects, [])).map (fun r =>
      (r.1.gc.ingc, r.1.gc.waiting)) = some (true, 0) := by
    decide +kernel
  obtain ⟨⟨s, tr⟩, hx, hgc⟩ := Option.map_eq_some_iff.mp hmoves
  obtain ⟨hin, hw⟩ := Prod.mk.inj hgc
  have hc : CalmRun smallEnv s tr :=
    calmRun_of_calmAll (.start (startGroup_starts Collects)) hx (by decide +kernel)
  exact ⟨s, tr, hx, hc, hin, hw, (pause_barrier hc).1 hin hw⟩

/-- Task 0 has announced its pause when it gets the FISH request that task 1 has sent before its own:
the spark that it gives is in flight when both have acknowledged the pause. -/
theorem pause_barrier_answered : ¬ ∀ s tr, StartedRun smallEnv Collects s tr →
    s.gc.ingc = true → s.gc.waiting = 0 →
    ∀ i j, j ≠ i → ∀ m ∈ s.chan (some j) (some i), m.carrier = false := by
  intro h
  obtain ⟨s, tr, hr, hp⟩ := reaches (startGroup_started Collects)
    (sparkMoves ++ [.evaluate 1 (.fish 0), .timeout, .control 0, .work 0 1 1, .control 1,
      .gotpause 1 0, .gotpause 0 1, .receive 0, .receive 1])
    (fun s _ => s.gc.ingc && (s.gc.waiting == 0 &&
      (s.chan (some 0) (some 1)).any Msg.carrier)) (by decide +kernel)
  simp only [Bool.and_eq_true, beq_iff_eq, List.any_eq_true] at hp
  obtain ⟨hin, hw, m, hm, hcar⟩ := hp
  rw [h s tr hr hin hw 1 0 (by decide) m hm] at hcar
  cases hcar

end Runtime
end NReduce
