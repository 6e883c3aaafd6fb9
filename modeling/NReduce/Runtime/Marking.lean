import NReduce.Network.Counting
import NReduce.Runtime.Delivery
import Mathlib.Algebra.Order.BigOperators.Group.Finset

/-!
# NReduce.Runtime.Marking

The marking phase of a distributed collection: when the counts of the collector are all zero, the
marking is complete.

The messages MARKROOTS and MARKENTRY with their addresses, the UPDATE messages and the counts of
`gc_thread` are an instance of `Network.Count`: handling a message begins a piece of work,
`send_mark_messages` sends, `send_update` reports. Between the phases nothing of this is in flight.

Main results:
* `markInv_run`: the invariant of the marking phase, in every state of every run.
* `sweep_complete`: what holds when the collector goes on to send SWEEP.
-/

namespace NReduce
namespace Runtime

open Network

variable {n : Nat} {W : Work n}

/-! ## The group as the counting sees it -/

/-- How many marks a message asks for. -/
def markWeight {V : Type} : Msg n V → Nat
  | .markroots => 1
  | .markentry addrs => addrs.length
  | _ => 0

/-- The counts of an UPDATE message. -/
def reported {V : Type} : Msg n V → Option (Fin n → Int)
  | .update _ counts => some counts
  | _ => none

/-- Messages that have no part in the marking and sweeping. -/
def plain {V : Type} : Msg n V → Bool
  | .markroots | .markentry _ | .update _ _ | .sweep | .sweepack => false
  | _ => true

def sweepWeight {V : Type} : Msg n V → Nat
  | .sweep => 1
  | _ => 0

def sweepackWeight {V : Type} : Msg n V → Nat
  | .sweepack => 1
  | _ => 0

def Group.counting (s : Group W) : Count (Fin n) where
  count := s.gc.count
  flight := fun j => Channels.load markWeight s.chan (some j)
  reports := fun i => (s.chan (some i) none).filterMap reported
  current := fun i => if (s.task i).marking.isSome then some (s.task i).gcsent else none

/-- The collector has sent MARKROOTS and waits for the marking to end. -/
def Collector.Marking (gc : Collector n) : Prop :=
  gc.ingc = true ∧ gc.markDone = false ∧ gc.waiting = 0 ∧ gc.remStartacks = 0

/-- The addresses given to `add_pending_mark` since the collection was started. -/
def requested (tr : List (Event W)) : List (Gaddr n) :=
  tr.foldl (fun req e => if e.actor.isNone && e.took.isNone then [] else req ++ e.pending) []

theorem requested_concat (tr : List (Event W)) (e : Event W) :
    requested (tr ++ [e]) =
      if e.actor.isNone && e.took.isNone then [] else requested tr ++ e.pending := by
  simp [requested]

/-- Nothing of the marking is in flight and nobody is at it. -/
def Group.Quiet (s : Group W) : Prop :=
  (∀ i, s.counting.flight i = 0) ∧ (∀ i, s.counting.reports i = []) ∧
    ∀ i, s.counting.current i = none

/-- The SWEEP messages that are not acknowledged. -/
def Group.sweepsLeft (s : Group W) : Nat :=
  (∑ i, Channels.load sweepWeight s.chan (some i)) + Channels.load sweepackWeight s.chan none

/-- A requested mark that is not lost: it waits to be sent, is in flight to its owner, or is set. -/
def Group.Accounted (s : Group W) (a : Gaddr n) : Prop :=
  a ∈ (s.task a.tid).dmb ∨
    (∃ p addrs, Msg.markentry addrs ∈ s.chan p (some a.tid) ∧ a ∈ addrs) ∨
    ∃ i, a ∈ (s.task i).distmarks a.tid

/-- The fields of a task between the steps of its marking handlers. -/
structure Task.Tidy (t : Task W) : Prop where
  idle : t.marking = none → t.gcsent = (fun _ => 0) ∧ ∀ j, t.distmarks j = []
  sent : ∀ pid, t.marking = some pid → ∀ j : Fin n, j.val < pid → t.distmarks j = []

structure MarkInv (s : Group W) (req : List (Gaddr n)) : Prop where
  quiet : ¬ s.gc.Marking → s.Quiet
  counting : s.gc.Marking → s.counting.Inv
  early : s.gc.ingc = true → s.gc.markDone = false → ¬ s.gc.Marking → req = []
  tidy : ∀ i, (s.task i).Tidy
  filled : ∀ a b addrs, Msg.markentry addrs ∈ s.chan a b → addrs ≠ []
  sweeps : s.sweepsLeft = s.gc.remSweepacks
  swept : s.gc.markDone = false → s.gc.remSweepacks = 0
  accounted : s.gc.Marking → ∀ a ∈ req, s.Accounted a

/-! ## Steps that have no part in the marking -/

theorem markWeight_plain {V : Type} {m : Msg n V} (h : plain m = true) : markWeight m = 0 := by
  cases m <;> simp_all [plain, markWeight]

theorem reported_plain {V : Type} {m : Msg n V} (h : plain m = true) : reported m = none := by
  cases m <;> simp_all [plain, reported]

theorem sweepWeight_plain {V : Type} {m : Msg n V} (h : plain m = true) : sweepWeight m = 0 := by
  cases m <;> simp_all [plain, sweepWeight]

theorem sweepackWeight_plain {V : Type} {m : Msg n V} (h : plain m = true) :
    sweepackWeight m = 0 := by
  cases m <;> simp_all [plain, sweepackWeight]

/-- Only plain messages are taken and sent. -/
structure Event.Plain (e : Event W) : Prop where
  took : ∀ j m, e.took = some (j, m) → plain m = true
  out : ∀ d ∈ e.out, plain d.2 = true

theorem load_deliver_plain {f : Msg n W.Msg → Nat} {s : Group W} {e : Event W} (h : e.Fits s)
    (hp : e.Plain) (hf : ∀ m, plain m = true → f m = 0) (b : Party n) :
    Channels.load f (s.deliver e).chan b = Channels.load f s.chan b := by
  have hl := load_deliver f h b
  rw [sum_sentTo_zero (fun d hd => hf _ (hp.out d hd))] at hl
  have : e.tookWeight f b = 0 := by
    unfold Event.tookWeight
    cases ht : e.took with
    | none => rfl
    | some jm => simp [hf _ (hp.took jm.1 jm.2 ht)]
  omega

theorem filterMap_sentTo_none {out : Sends n W.Msg} (h : ∀ d ∈ out, reported d.2 = none)
    (b : Party n) : (Channels.sentTo out b).filterMap reported = [] := by
  rw [List.filterMap_eq_nil_iff]
  exact fun m hm => h _ (Channels.mem_sentTo.mp hm)

theorem reports_deliver_plain {s : Group W} {e : Event W} (h : e.Fits s) (hp : e.Plain)
    (i : Fin n) : (s.deliver e).counting.reports i = s.counting.reports i := by
  simp only [Group.counting, chan_deliver, List.filterMap_append]
  have h2 : (if some i = e.actor then Channels.sentTo e.out none else []).filterMap reported =
      [] := by
    split
    · exact filterMap_sentTo_none (fun d hd => reported_plain (hp.out d hd)) none
    · rfl
  rw [h2, List.append_nil]
  cases ht : e.took with
  | none => rfl
  | some jm =>
    obtain ⟨j, m⟩ := jm
    simp only
    split
    · rename_i hc
      obtain ⟨rest, hr⟩ := h j m ht
      rw [hc.1, hc.2, hr, List.tail_cons,
        List.filterMap_cons_none (reported_plain (hp.took j m ht))]
    · rfl

/-- The fields that the marking uses are as before. -/
structure SameMarks (t t' : Task W) : Prop where
  gcsent : t'.gcsent = t.gcsent
  distmarks : t'.distmarks = t.distmarks
  marking : t'.marking = t.marking
  dmb : t'.dmb = t.dmb

theorem SameMarks.refl (t : Task W) : SameMarks t t := ⟨rfl, rfl, rfl, rfl⟩

theorem SameMarks.tidy {t t' : Task W} (h : SameMarks t t') (ht : t.Tidy) : t'.Tidy := by
  refine ⟨fun hm => ?_, fun pid hm j hj => ?_⟩
  · rw [h.gcsent, h.distmarks]
    exact ht.idle (h.marking ▸ hm)
  · rw [h.distmarks]
    exact ht.sent pid (h.marking ▸ hm) j hj

/-- The collector as the marking sees it. -/
structure SamePhase (gc gc' : Collector n) : Prop where
  marking : gc'.Marking ↔ gc.Marking
  count : gc'.count = gc.count
  markDone : gc'.markDone = gc.markDone
  remSweepacks : gc'.remSweepacks = gc.remSweepacks

theorem SamePhase.refl (gc : Collector n) : SamePhase gc gc := ⟨Iff.rfl, rfl, rfl, rfl⟩

theorem MarkInv.plain_step {s s' : Group W} {req req' : List (Gaddr n)} {e : Event W}
    (h : MarkInv s req) (hfits : e.Fits s) (hp : e.Plain) (hchan : s'.chan = (s.deliver e).chan)
    (htask : ∀ i, SameMarks (s.task i) (s'.task i)) (hgc : SamePhase s.gc s'.gc)
    (hearly : s'.gc.ingc = true → s'.gc.markDone = false → ¬ s'.gc.Marking → req' = [])
    (hreq : s'.gc.Marking → req' = req) : MarkInv s' req' := by
  have hview : s'.counting = s.counting := by
    have h1 : s'.counting.flight = s.counting.flight := by
      funext i
      simp only [Group.counting, hchan]
      exact load_deliver_plain hfits hp (fun m => markWeight_plain) (some i)
    have h2 : s'.counting.reports = s.counting.reports := by
      funext i
      rw [← reports_deliver_plain hfits hp i]
      simp only [Group.counting, hchan]
    have h3 : s'.counting.current = s.counting.current := by
      funext i
      simp only [Group.counting, (htask i).marking, (htask i).gcsent]
    have h4 : s'.counting.count = s.counting.count := hgc.count
    cases hs : s'.counting
    cases hs' : s.counting
    simp_all
  refine ⟨?_, ?_, hearly, fun i => (htask i).tidy (h.tidy i), ?_, ?_, ?_, ?_⟩
  · intro hm
    have := h.quiet (fun hq => hm (hgc.marking.mpr hq))
    unfold Group.Quiet at this ⊢
    rwa [hview]
  · intro hm
    rw [hview]
    exact h.counting (hgc.marking.mp hm)
  · intro a b addrs hm
    rw [hchan] at hm
    rcases mem_chan_deliver hm with hm | hm
    · exact h.filled a b addrs hm
    · exact absurd (hp.out _ hm) (by simp [plain])
  · rw [hgc.remSweepacks, ← h.sweeps]
    simp only [Group.sweepsLeft, hchan]
    rw [load_deliver_plain hfits hp (fun m => sweepackWeight_plain)]
    congr 1
    exact Finset.sum_congr rfl (fun i _ => load_deliver_plain hfits hp (fun m => sweepWeight_plain) _)
  · intro hd
    rw [hgc.remSweepacks]
    exact h.swept (hgc.markDone ▸ hd)
  · intro hm a ha
    rw [hreq hm] at ha
    rcases h.accounted (hgc.marking.mp hm) a ha with h1 | ⟨p, addrs, h1, h2⟩ | ⟨i, h1⟩
    · exact Or.inl ((htask a.tid).dmb ▸ h1)
    · refine Or.inr (Or.inl ⟨p, addrs, ?_, h2⟩)
      rw [hchan]
      refine mem_deliver_of_mem hfits h1 (fun j m' ht he => ?_)
      have := hp.took j m' ht
      rw [he] at this
      simp [plain] at this
    · exact Or.inr (Or.inr ⟨i, (htask i).distmarks ▸ h1⟩)

theorem plain_asWork {V : Type} {out : List (Fin n × V)} {d : Party n × Msg n V}
    (h : d ∈ asWork out) : plain d.2 = true := by
  obtain ⟨x, -, rfl⟩ := List.mem_map.mp h
  rfl

/-! ## Handling MARKROOTS and MARKENTRY -/

/-- What the start of a marking handler does. -/
theorem startMarking_some {i : Fin n} {took : Nat} {pending : List (Gaddr n)} {t t' : Task W}
    (h : startMarking i took pending t = some t') :
    t'.marking = some 0 ∧ t'.distmarks = (fun j => pending.filter (fun a => a.tid = j)) ∧
      t'.gcsent = (fun j => if j = i then t.gcsent j - took else t.gcsent j) ∧ t'.dmb = t.dmb := by
  unfold startMarking at h
  split at h
  · cases h
    exact ⟨rfl, rfl, rfl, rfl⟩
  · cases h

/-- Something of the marking is in flight: the collector is in the marking phase. -/
theorem MarkInv.marking_of_flight {s : Group W} {req : List (Gaddr n)} (h : MarkInv s req)
    {j : Party n} {i : Fin n} {m : Msg n W.Msg} (hm : m ∈ s.chan j (some i))
    (hw : 0 < markWeight m) : s.gc.Marking := by
  by_contra hn
  have h0 : Channels.load markWeight s.chan (some i) = 0 := (h.quiet hn).1 i
  rw [Channels.load_eq_zero] at h0
  have := h0 j m hm
  omega

theorem MarkInv.begin_step {s : Group W} {req pending : List (Gaddr n)} {i : Fin n} {j : Party n}
    {m : Msg n W.Msg} {rest : List (Msg n W.Msg)} {t' : Task W} {out : Sends n W.Msg}
    (h : MarkInv s req) (hch : s.chan j (some i) = m :: rest) (hidle : (s.task i).marking = none)
    (hw : 0 < markWeight m) (hsweep : sweepWeight m = 0) (hplain : ∀ d ∈ out, plain d.2 = true)
    (hmarking : t'.marking = some 0)
    (hdist : t'.distmarks = fun k => pending.filter (fun a => a.tid = k))
    (hsent : t'.gcsent = fun k => if k = i then -(markWeight m : Int) else 0)
    (hdmb : (s.task i).dmb ⊆ t'.dmb)
    (htaken : ∀ addrs, m = .markentry addrs → ∀ a ∈ addrs, a ∈ t'.dmb ∧ a.tid = i) :
    MarkInv ((s.setTask i t').deliver ⟨some i, some (j, m), pending, out⟩) (req ++ pending) := by
  set e : Event W := ⟨some i, some (j, m), pending, out⟩ with he
  have hfits : e.Fits s := fits_handle hch
  have hmem : m ∈ s.chan j (some i) := by simp [hch]
  have hmark := h.marking_of_flight hmem hw
  have hzero : ∀ (f : Msg n W.Msg → Nat), (∀ m, plain m = true → f m = 0) → ∀ b,
      ((Channels.sentTo e.out b).map f).sum = 0 :=
    fun f hf b => sum_sentTo_zero (fun d hd => hf _ (hplain d hd)) b
  have hload : ∀ (f : Msg n W.Msg → Nat), (∀ m, plain m = true → f m = 0) → ∀ b,
      Channels.load f (s.deliver e).chan b + (if b = some i then f m else 0) =
        Channels.load f s.chan b := by
    intro f hf b
    have := load_deliver f hfits b
    rw [hzero f hf b] at this
    exact this
  have hchan : ((s.setTask i t').deliver e).chan = (s.deliver e).chan := rfl
  have htask : ∀ k, k ≠ i → ((s.setTask i t').deliver e).task k = s.task k :=
    fun k hk => setTask_other s t' hk
  have hself : ((s.setTask i t').deliver e).task i = t' := setTask_self s i t'
  refine ⟨fun hn => absurd hmark hn, fun _ => ?_, fun _ _ hn => absurd hmark hn, ?_, ?_, ?_,
    h.swept, fun _ => ?_⟩
  · have hcur : s.counting.current i = none := by simp [Group.counting, hidle]
    refine (h.counting hmark).begin hw hcur ?_ ?_ rfl ?_ ?_ ?_
    · have := hload markWeight (fun m => markWeight_plain) (some i)
      simp only [if_pos] at this
      exact this.symm
    · intro k hk
      have := hload markWeight (fun m => markWeight_plain) (some k)
      rw [if_neg (fun hc => hk (Option.some.inj hc))] at this
      exact this
    · funext k
      simp only [Group.counting, chan_deliver, setTask_chan, he, List.filterMap_append]
      rw [if_neg (by simp)]
      by_cases hk : some k = some i
      · rw [if_pos hk, filterMap_sentTo_none (fun d hd => reported_plain (hplain d hd)),
          List.append_nil]
      · rw [if_neg hk, List.filterMap_nil, List.append_nil]
    · simp only [Group.counting, hself, hmarking, hsent]
      rfl
    · intro k hk
      simp only [Group.counting, htask k hk]
  · intro k
    by_cases hk : k = i
    · subst hk
      rw [hself]
      refine ⟨fun hc => by simp [hmarking] at hc, fun pid hp k hk => ?_⟩
      rw [hmarking] at hp
      cases hp
      omega
    · rw [htask k hk]
      exact h.tidy k
  · intro a b addrs hm
    rcases mem_chan_deliver hm with hm | hm
    · exact h.filled a b addrs hm
    · exact absurd (hplain _ hm) (by simp [plain])
  · show (s.setTask i t' |>.deliver e).sweepsLeft = s.gc.remSweepacks
    rw [← h.sweeps]
    simp only [Group.sweepsLeft, hchan]
    have hack := hload sweepackWeight (fun m => sweepackWeight_plain) none
    rw [if_neg (by simp), Nat.add_zero] at hack
    rw [hack]
    congr 1
    apply Finset.sum_congr rfl
    intro k _
    have := hload sweepWeight (fun m => sweepWeight_plain) (some k)
    rw [hsweep] at this
    simpa using this
  · intro a ha
    rcases List.mem_append.mp ha with ha | ha
    · rcases h.accounted hmark a ha with h1 | ⟨p, addrs, h1, h2⟩ | ⟨k, h1⟩
      · left
        by_cases hk : a.tid = i
        · rw [hk] at h1 ⊢
          rw [hself]
          exact hdmb h1
        · rw [htask _ hk]
          exact h1
      · by_cases htk : m = .markentry addrs
        · obtain ⟨h3, h4⟩ := htaken addrs htk a h2
          left
          rw [h4, hself]
          exact h3
        · refine Or.inr (Or.inl ⟨p, addrs, ?_, h2⟩)
          rw [hchan]
          refine mem_deliver_of_mem hfits h1 (fun j' m' ht hc => htk ?_)
          simp only [he, Option.some.injEq, Prod.mk.injEq] at ht
          rw [ht.2, hc]
      · -- the handler starts with no marks to send, so these are marks of another task
        have hki : k ≠ i := by
          rintro rfl
          rw [((h.tidy k).idle hidle).2] at h1
          simp at h1
        exact Or.inr (Or.inr ⟨k, by rw [htask k hki]; exact h1⟩)
    · refine Or.inr (Or.inr ⟨i, ?_⟩)
      rw [hself, hdist]
      simp [ha]

/-! ## The rest of a marking handler -/

theorem MarkInv.marking_of_current {s : Group W} {req : List (Gaddr n)} (h : MarkInv s req)
    {i : Fin n} (hm : (s.task i).marking ≠ none) : s.gc.Marking := by
  by_contra hn
  have h0 := (h.quiet hn).2.2 i
  simp only [Group.counting] at h0
  split at h0
  · cases h0
  · rename_i hc
    exact hm (by simpa using hc)

/-- What one turn of the loop of `send_mark_messages` does: the marks for `j` are sent. -/
theorem sendMarkMessage_spec {j : Fin n} {t t' : Task W} {out : Sends n W.Msg}
    (h : sendMarkMessage j t = (t', out)) :
    t'.gcsent = (fun k => if k = j then t.gcsent k + (t.distmarks j).length else t.gcsent k) ∧
      t'.distmarks = (fun k => if k = j then [] else t.distmarks k) ∧ t'.dmb = t.dmb ∧
      out = if t.distmarks j = [] then [] else [(some j, .markentry (t.distmarks j))] := by
  unfold sendMarkMessage at h
  split at h
  · rename_i hnil
    cases h
    refine ⟨?_, ?_, rfl, (if_pos hnil).symm⟩
    · funext k
      simp [hnil]
    · funext k
      by_cases hk : k = j
      · simp [hk, hnil]
      · simp [hk]
  · rename_i hnil
    cases h
    exact ⟨rfl, rfl, rfl, (if_neg hnil).symm⟩

theorem MarkInv.send_step {s : Group W} {req : List (Gaddr n)} {i j : Fin n} {t' : Task W}
    {out : Sends n W.Msg} (h : MarkInv s req) (hmarking : (s.task i).marking = some j.val)
    (hmarking' : t'.marking = some (j.val + 1))
    (hsent : t'.gcsent = fun k => if k = j then (s.task i).gcsent k + ((s.task i).distmarks j).length
      else (s.task i).gcsent k)
    (hdist : t'.distmarks = fun k => if k = j then [] else (s.task i).distmarks k)
    (hdmb : t'.dmb = (s.task i).dmb)
    (hout : out = if (s.task i).distmarks j = [] then []
      else [(some j, .markentry ((s.task i).distmarks j))]) :
    MarkInv ((s.setTask i t').deliver ⟨some i, none, [], out⟩) req := by
  set e : Event W := ⟨some i, none, [], out⟩ with he
  set l := (s.task i).distmarks j with hl
  have hfits : e.Fits s := fun j' m' ht => by cases ht
  have hmark := h.marking_of_current (i := i) (by rw [hmarking]; simp)
  have hchan : ((s.setTask i t').deliver e).chan = (s.deliver e).chan := rfl
  have htask : ∀ k, k ≠ i → ((s.setTask i t').deliver e).task k = s.task k :=
    fun k hk => setTask_other s t' hk
  have hself : ((s.setTask i t').deliver e).task i = t' := setTask_self s i t'
  have hmsgs : ∀ d ∈ out, d = (some j, .markentry l) ∧ l ≠ [] := by
    intro d hd
    rw [hout] at hd
    split at hd
    · simp at hd
    · rename_i hnil
      exact ⟨List.mem_singleton.mp hd, hnil⟩
  have hsum : ∀ (f : Msg n W.Msg → Nat), (∀ addrs, f (.markentry addrs) = 0) → ∀ b,
      Channels.load f (s.deliver e).chan b = Channels.load f s.chan b := by
    intro f hf b
    have := load_deliver f hfits b
    rw [sum_sentTo_zero (fun d hd => by rw [(hmsgs d hd).1]; exact hf _)] at this
    exact this
  refine ⟨fun hn => absurd hmark hn, fun _ => ?_, fun _ _ hn => absurd hmark hn, ?_, ?_, ?_,
    h.swept, fun _ => ?_⟩
  · have hcur : s.counting.current i = some (s.task i).gcsent := by
      simp [Group.counting, hmarking]
    have hflight : ∀ k, Channels.load markWeight (s.deliver e).chan (some k) =
        Channels.load markWeight s.chan (some k) + if k = j then l.length else 0 := by
      intro k
      have h1 : Channels.load markWeight (s.deliver e).chan (some k) =
          Channels.load markWeight s.chan (some k) +
            ((Channels.sentTo out (some k)).map markWeight).sum := load_deliver markWeight hfits (some k)
      rw [h1, hout]
      congr 1
      by_cases hnil : l = []
      · simp [hnil]
      · by_cases hk : k = j
        · simp [hnil, hk, Channels.sentTo_cons, markWeight]
        · simp [hnil, hk, Channels.sentTo_cons, Ne.symm hk]
    refine (h.counting hmark).send (j := j) (w := l.length) hcur ?_ ?_ rfl ?_ ?_ ?_
    · have := hflight j
      rwa [if_pos rfl] at this
    · intro k hk
      have := hflight k
      rwa [if_neg hk] at this
    · funext k
      simp only [Group.counting, chan_deliver, setTask_chan, he, List.filterMap_append]
      have : (if some k = some i then Channels.sentTo out none else []).filterMap reported = [] := by
        split
        · exact filterMap_sentTo_none (fun d hd => by rw [(hmsgs d hd).1]; rfl) none
        · rfl
      rw [this, List.append_nil]
    · simp only [Group.counting, hself, hmarking', hsent]
      rfl
    · intro k hk
      simp only [Group.counting, htask k hk]
  · intro k
    by_cases hk : k = i
    · subst hk
      rw [hself]
      refine ⟨fun hc => by simp [hmarking'] at hc, fun pid hp k' hk' => ?_⟩
      rw [hmarking'] at hp
      cases hp
      rw [hdist]
      by_cases hkj : k' = j
      · simp [hkj]
      · have hlt : k'.val < j.val := by
          have : k'.val ≠ j.val := fun hc => hkj (Fin.ext hc)
          omega
        simp only [if_neg hkj]
        exact (h.tidy k).sent j.val hmarking k' hlt
    · rw [htask k hk]
      exact h.tidy k
  · intro a b addrs hm
    rcases mem_chan_deliver hm with hm | hm
    · exact h.filled a b addrs hm
    · obtain ⟨h1, h2⟩ := hmsgs _ hm
      cases h1
      exact h2
  · show (s.setTask i t' |>.deliver e).sweepsLeft = s.gc.remSweepacks
    rw [← h.sweeps]
    simp only [Group.sweepsLeft, hchan, hsum sweepackWeight (fun _ => rfl),
      hsum sweepWeight (fun _ => rfl)]
  · intro a ha
    rcases h.accounted hmark a ha with h1 | ⟨p, addrs, h1, h2⟩ | ⟨k, h1⟩
    · left
      by_cases hk : a.tid = i
      · rw [hk] at h1 ⊢
        rw [hself, hdmb]
        exact h1
      · rw [htask _ hk]
        exact h1
    · refine Or.inr (Or.inl ⟨p, addrs, ?_, h2⟩)
      rw [hchan]
      exact mem_deliver_of_mem hfits h1 (fun j' m' ht => by cases ht)
    · by_cases hk : k = i
      · subst hk
        by_cases hj : a.tid = j
        · -- the marks of this turn are now in flight
          refine Or.inr (Or.inl ⟨some k, l, ?_, by rw [hl, ← hj]; exact h1⟩)
          have hnil : l ≠ [] := by
            intro hc
            rw [hj, ← hl, hc] at h1
            simp at h1
          rw [hchan, chan_deliver, hj]
          apply List.mem_append_right
          rw [if_pos rfl]
          apply Channels.mem_sentTo.mpr
          simp [he, hout, hnil]
        · refine Or.inr (Or.inr ⟨k, ?_⟩)
          rw [hself, hdist]
          simp only [if_neg hj]
          exact h1
      · exact Or.inr (Or.inr ⟨k, by rw [htask k hk]; exact h1⟩)

theorem MarkInv.update_step {s : Group W} {req : List (Gaddr n)} {i : Fin n} (h : MarkInv s req)
    {pid : Nat} (hmarking : (s.task i).marking = some pid) (hpid : ¬ pid < n) :
    MarkInv ((s.setTask i (sendUpdate (s.task i)).1).deliver
      ⟨some i, none, [], (sendUpdate (s.task i)).2⟩) req := by
  set e : Event W := ⟨some i, none, [], (sendUpdate (s.task i)).2⟩ with he
  set t' := (sendUpdate (s.task i)).1 with ht'
  have hfits : e.Fits s := fun j' m' ht => by cases ht
  have hmark := h.marking_of_current (i := i) (by rw [hmarking]; simp)
  have hchan : ((s.setTask i t').deliver e).chan = (s.deliver e).chan := rfl
  have htask : ∀ k, k ≠ i → ((s.setTask i t').deliver e).task k = s.task k :=
    fun k hk => setTask_other s t' hk
  have hself : ((s.setTask i t').deliver e).task i = t' := setTask_self s i t'
  have hnone : ∀ j, (s.task i).distmarks j = [] :=
    fun j => (h.tidy i).sent pid hmarking j (by omega)
  have hload : ∀ (f : Msg n W.Msg → Nat), (∀ k c, f (.update k c) = 0) → ∀ b,
      Channels.load f (s.deliver e).chan b = Channels.load f s.chan b := by
    intro f hf b
    have := load_deliver f hfits b
    rw [sum_sentTo_zero (fun d hd => by
      rw [List.mem_singleton.mp hd]
      exact hf _ _)] at this
    exact this
  refine ⟨fun hn => absurd hmark hn, fun _ => ?_, fun _ _ hn => absurd hmark hn, ?_, ?_, ?_,
    h.swept, fun _ => ?_⟩
  · have hcur : s.counting.current i = some (s.task i).gcsent := by
      simp [Group.counting, hmarking]
    refine (h.counting hmark).report hcur ?_ rfl ?_ ?_ ?_ ?_
    · funext k
      simp only [Group.counting, hchan]
      exact hload markWeight (fun _ _ => rfl) (some k)
    · simp [Group.counting, chan_deliver, he, sendUpdate, Channels.sentTo_cons, reported]
    · intro k hk
      have : some k ≠ some i := fun hc => hk (Option.some.inj hc)
      simp [Group.counting, chan_deliver, he, hk]
    · have hend : t'.marking = none := rfl
      simp only [Group.counting, hself, hend]
      rfl
    · intro k hk
      simp only [Group.counting, htask k hk]
  · intro k
    by_cases hk : k = i
    · subst hk
      rw [hself]
      exact ⟨fun _ => ⟨rfl, hnone⟩, fun pid' hp => by cases hp⟩
    · rw [htask k hk]
      exact h.tidy k
  · intro a b addrs hm
    rcases mem_chan_deliver hm with hm | hm
    · exact h.filled a b addrs hm
    · cases List.mem_singleton.mp hm
  · show (s.setTask i t' |>.deliver e).sweepsLeft = s.gc.remSweepacks
    rw [← h.sweeps]
    simp only [Group.sweepsLeft, hchan, hload sweepackWeight (fun _ _ => rfl),
      hload sweepWeight (fun _ _ => rfl)]
  · intro a ha
    rcases h.accounted hmark a ha with h1 | ⟨p, addrs, h1, h2⟩ | ⟨k, h1⟩
    · left
      by_cases hk : a.tid = i
      · rw [hk] at h1 ⊢
        rw [hself]
        exact h1
      · rw [htask _ hk]
        exact h1
    · refine Or.inr (Or.inl ⟨p, addrs, ?_, h2⟩)
      rw [hchan]
      exact mem_deliver_of_mem hfits h1 (fun j' m' ht => by cases ht)
    · have hk : k ≠ i := by
        rintro rfl
        rw [hnone] at h1
        simp at h1
      exact Or.inr (Or.inr ⟨k, by rw [htask k hk]; exact h1⟩)

/-! ## Sweeping -/

theorem MarkInv.not_marking_of_sweep {s : Group W} {req : List (Gaddr n)} (h : MarkInv s req)
    (hw : 0 < s.sweepsLeft) : ¬ s.gc.Marking := by
  intro hm
  have h1 := h.sweeps
  rw [h.swept hm.2.1] at h1
  omega

theorem sweepsLeft_pos {s : Group W} {j : Party n} {i : Fin n} (h : Msg.sweep ∈ s.chan j (some i)) :
    0 < s.sweepsLeft := by
  have h1 : 0 < Channels.load sweepWeight s.chan (some i) := by
    by_contra hc
    have h0 : Channels.load sweepWeight s.chan (some i) = 0 := by omega
    rw [Channels.load_eq_zero] at h0
    exact absurd (h0 j _ h) (by simp [sweepWeight])
  have h2 : Channels.load sweepWeight s.chan (some i) ≤
      ∑ k, Channels.load sweepWeight s.chan (some k) :=
    Finset.single_le_sum (f := fun k => Channels.load sweepWeight s.chan (some k))
      (fun _ _ => Nat.zero_le _) (Finset.mem_univ i)
  unfold Group.sweepsLeft
  omega

theorem MarkInv.sweep_step {s : Group W} {req : List (Gaddr n)} {i : Fin n}
    {rest : List (Msg n W.Msg)} {t' : Task W} {out : Sends n W.Msg} (h : MarkInv s req)
    (hch : s.chan none (some i) = .sweep :: rest) (hplain : ∀ d ∈ out, plain d.2 = true)
    (htidy : t'.Tidy) (hmarking : t'.marking = none) :
    MarkInv ((s.setTask i t').deliver
      ⟨some i, some (none, .sweep), [], out ++ [(none, .sweepack)]⟩) req := by
  set e : Event W := ⟨some i, some (none, .sweep), [], out ++ [(none, .sweepack)]⟩ with he
  have hfits : e.Fits s := fits_handle hch
  have hmem : Msg.sweep ∈ s.chan none (some i) := by simp [hch]
  have hnot := h.not_marking_of_sweep (sweepsLeft_pos hmem)
  have hdone : ¬ (s.gc.markDone = false) := by
    intro hd
    have h1 := h.sweeps
    rw [h.swept hd] at h1
    have h2 := sweepsLeft_pos hmem
    omega
  have hchan : ((s.setTask i t').deliver e).chan = (s.deliver e).chan := rfl
  have htask : ∀ k, k ≠ i → ((s.setTask i t').deliver e).task k = s.task k :=
    fun k hk => setTask_other s t' hk
  have hself : ((s.setTask i t').deliver e).task i = t' := setTask_self s i t'
  have hsent : ∀ (f : Msg n W.Msg → Nat), (∀ m, plain m = true → f m = 0) → ∀ b,
      ((Channels.sentTo e.out b).map f).sum = if b = none then f .sweepack else 0 := by
    intro f hf b
    simp only [he, Channels.sentTo_append, List.map_append, List.sum_append,
      sum_sentTo_zero (fun d hd => hf _ (hplain d hd)), Channels.sentTo_cons, Channels.sentTo_nil]
    by_cases hb : b = none <;> simp [hb, eq_comm]
  have hload : ∀ (f : Msg n W.Msg → Nat), (∀ m, plain m = true → f m = 0) → ∀ b,
      Channels.load f (s.deliver e).chan b + (if b = some i then f .sweep else 0) =
        Channels.load f s.chan b + if b = none then f .sweepack else 0 := by
    intro f hf b
    have := load_deliver f hfits b
    rw [hsent f hf b] at this
    exact this
  obtain ⟨hq1, hq2, hq3⟩ := h.quiet hnot
  refine ⟨fun _ => ⟨?_, ?_, ?_⟩, fun hm => absurd hm hnot, fun _ hd => absurd hd hdone, ?_, ?_, ?_,
    h.swept, fun hm => absurd hm hnot⟩
  · intro k
    have h1 := hload markWeight (fun m => markWeight_plain) (some k)
    have h2 := hq1 k
    simp only [markWeight, ite_self, Nat.add_zero] at h1
    exact h1.trans h2
  · intro k
    rw [← hq2 k]
    simp only [Group.counting, chan_deliver, setTask_chan, he, List.filterMap_append]
    have : (if some k = some i then Channels.sentTo (out ++ [(none, .sweepack)]) none
        else []).filterMap reported = [] := by
      split
      · refine filterMap_sentTo_none (fun d hd => ?_) none
        rcases List.mem_append.mp hd with hd | hd
        · exact reported_plain (hplain d hd)
        · rw [List.mem_singleton.mp hd]
          rfl
      · rfl
    rw [this, List.append_nil, if_neg (by simp)]
  · intro k
    by_cases hk : k = i
    · subst hk
      simp only [Group.counting, hself, hmarking]
      rfl
    · rw [← hq3 k]
      simp only [Group.counting, htask k hk]
  · intro k
    by_cases hk : k = i
    · subst hk
      rw [hself]
      exact htidy
    · rw [htask k hk]
      exact h.tidy k
  · intro a b addrs hm
    rcases mem_chan_deliver hm with hm | hm
    · exact h.filled a b addrs hm
    · rcases List.mem_append.mp hm with hm | hm
      · exact absurd (hplain _ hm) (by simp [plain])
      · cases List.mem_singleton.mp hm
  · show (s.setTask i t' |>.deliver e).sweepsLeft = s.gc.remSweepacks
    rw [← h.sweeps]
    simp only [Group.sweepsLeft, hchan]
    have hack := hload sweepackWeight (fun m => sweepackWeight_plain) none
    simp only [sweepackWeight, if_pos, reduceCtorEq, if_false, Nat.add_zero] at hack
    have hsw : ∑ k, Channels.load sweepWeight (s.deliver e).chan (some k) + 1 =
        ∑ k, Channels.load sweepWeight s.chan (some k) := by
      have hone : ∑ k : Fin n, (if k = i then 1 else 0) = 1 := by simp
      rw [← hone, ← Finset.sum_add_distrib]
      apply Finset.sum_congr rfl
      intro k _
      have := hload sweepWeight (fun m => sweepWeight_plain) (some k)
      simpa [sweepWeight] using this
    omega

/-! ## Steps of the collector -/

/-- A message received by the collector leaves the loads at the tasks as they are, but for what the
collector sends. -/
theorem load_receive (f : Msg n W.Msg → Nat) {s : Group W} {i : Fin n} {m : Msg n W.Msg}
    {rest : List (Msg n W.Msg)} (hch : s.chan (some i) none = m :: rest) (out : Sends n W.Msg)
    (k : Fin n) :
    Channels.load f (s.deliver ⟨none, some (some i, m), [], out⟩).chan (some k) =
      Channels.load f s.chan (some k) + ((Channels.sentTo out (some k)).map f).sum := by
  exact load_deliver f (fits_receive hch) (some k)

theorem load_receive_none (f : Msg n W.Msg → Nat) {s : Group W} {i : Fin n} {m : Msg n W.Msg}
    {rest : List (Msg n W.Msg)} (hch : s.chan (some i) none = m :: rest) (out : Sends n W.Msg) :
    Channels.load f (s.deliver ⟨none, some (some i, m), [], out⟩).chan none + f m =
      Channels.load f s.chan none + ((Channels.sentTo out none).map f).sum := by
  have := load_deliver f (@fits_receive _ _ s i m rest out hch) none
  simpa [Event.tookWeight] using this

theorem reports_receive (s : Group W) (i : Fin n) (m : Msg n W.Msg) (out : Sends n W.Msg)
    (k : Fin n) :
    (s.deliver ⟨none, some (some i, m), [], out⟩).counting.reports k =
      ((if k = i then (s.chan (some k) none).tail else s.chan (some k) none).filterMap reported) := by
  simp only [Group.counting, chan_deliver, reduceCtorEq, if_false, List.append_nil]
  by_cases hk : k = i <;> simp [hk]

/-- The last STARTDISTGCACK: the roots are marked and counted. -/
theorem MarkInv.start_step {s : Group W} {req : List (Gaddr n)} {i : Fin n}
    {rest : List (Msg n W.Msg)} {gc : Collector n} (h : MarkInv s req)
    (hch : s.chan (some i) none = .startdistgcack :: rest) (hin : s.gc.ingc = true)
    (hdone : s.gc.markDone = false) (hrem : 0 < s.gc.remStartacks)
    (hcount : gc.count = fun _ => 1) (hsw : gc.remSweepacks = s.gc.remSweepacks) (hmark : gc.Marking) :
    MarkInv ({ s with gc := gc }.deliver
      ⟨none, some (some i, .startdistgcack), [], toAll .markroots⟩) req := by
  have hnot : ¬ s.gc.Marking := fun hm => by
    have := hm.2.2.2
    omega
  have hreq := h.early hin hdone hnot
  obtain ⟨hq1, hq2, hq3⟩ := h.quiet hnot
  set e : Event W := ⟨none, some (some i, .startdistgcack), [], toAll .markroots⟩ with he
  have hchan : ({ s with gc := gc }.deliver e).chan = (s.deliver e).chan := rfl
  refine ⟨fun hn => absurd hmark hn, fun _ => ?_, fun _ _ hn => absurd hmark hn, h.tidy, ?_, ?_, ?_,
    fun _ => ?_⟩
  · refine Count.Inv.start (fun k => ?_) (fun k => ?_) (fun k => hq3 k)
    · have h1 := load_receive markWeight hch (toAll .markroots) k
      have h2 := hq1 k
      simp only [sum_toAll, markWeight] at h1
      simp only [Group.counting] at h2
      show gc.count k = (Channels.load markWeight (s.deliver e).chan (some k) : Nat)
      rw [hcount, h1, h2]
      rfl
    · have h1 := hq2 k
      have h2 := reports_receive s i .startdistgcack (toAll .markroots) k
      show (s.deliver e).counting.reports k = []
      rw [h2]
      by_cases hk : k = i
      · subst hk
        simp only [if_pos]
        simp only [Group.counting, hch, List.filterMap_cons, reported] at h1
        rw [hch]
        exact h1
      · simp only [if_neg hk]
        exact h1
  · intro a b addrs hm
    rcases mem_chan_deliver hm with hm | hm
    · exact h.filled a b addrs hm
    · have := mem_toAll hm
      simp at this
  · show (s.deliver e).sweepsLeft = gc.remSweepacks
    rw [hsw, ← h.sweeps]
    have h1 := load_receive_none sweepackWeight hch (toAll .markroots)
    simp only [sentTo_toAll_none, List.map_nil, List.sum_nil, sweepackWeight, Nat.add_zero] at h1
    simp only [Group.sweepsLeft]
    rw [h1]
    congr 1
    apply Finset.sum_congr rfl
    intro k _
    have := load_receive sweepWeight hch (toAll .markroots) k
    simp only [sum_toAll, sweepWeight, Nat.add_zero] at this
    exact this
  · intro hd
    show gc.remSweepacks = 0
    rw [hsw]
    exact h.swept hdone
  · rw [hreq]
    simp

/-- Adding an UPDATE keeps the counting, whether or not the counts become zero. -/
theorem MarkInv.collect {s : Group W} {req : List (Gaddr n)} {i : Fin n} {k : Nat}
    {counts : Fin n → Int} {rest : List (Msg n W.Msg)} {gc : Collector n} {m : Msg n W.Msg}
    {out : Sends n W.Msg} (h : MarkInv s req)
    (hch : s.chan (some i) none = .update k counts :: rest) (hmark : s.gc.Marking)
    (hcount : gc.count = fun j => s.gc.count j + counts j) (hout : out = toAll m ∨ out = [])
    (hw : markWeight m = 0) :
    ({ s with gc := gc }.deliver ⟨none, some (some i, .update k counts), [], out⟩).counting.Inv := by
  have hsum : ∀ j : Fin n, ((Channels.sentTo out (some j)).map markWeight).sum = 0 := by
    intro j
    rcases hout with rfl | rfl
    · rw [sum_toAll, hw]
    · rfl
  have hrep : s.counting.reports i = counts :: rest.filterMap reported := by
    simp [Group.counting, hch, reported]
  refine (h.counting hmark).collect hrep ?_ ?_ ?_ ?_ ?_
  · have := reports_receive s i (.update k counts) out i
    rw [if_pos rfl, hch] at this
    exact this
  · intro j hj
    have := reports_receive s i (.update k counts) out j
    rw [if_neg hj] at this
    exact this
  · intro j
    show gc.count j = s.gc.count j + counts j
    rw [hcount]
  · funext j
    have := load_receive markWeight hch out j
    rw [hsum j] at this
    exact this
  · rfl

theorem MarkInv.marking_of_update {s : Group W} {req : List (Gaddr n)} (h : MarkInv s req)
    {i : Fin n} {k : Nat} {counts : Fin n → Int} {rest : List (Msg n W.Msg)}
    (hch : s.chan (some i) none = .update k counts :: rest) : s.gc.Marking := by
  by_contra hn
  have := (h.quiet hn).2.1 i
  simp [Group.counting, hch, reported] at this

/-- An UPDATE after which the marking goes on. -/
theorem MarkInv.update_goes_on {s : Group W} {req : List (Gaddr n)} {i : Fin n} {k : Nat}
    {counts : Fin n → Int} {rest : List (Msg n W.Msg)} (h : MarkInv s req)
    (hch : s.chan (some i) none = .update k counts :: rest) :
    MarkInv ({ s with gc := { s.gc with count := fun j => s.gc.count j + counts j } }.deliver
      ⟨none, some (some i, .update k counts), [], []⟩) req := by
  have hmark := h.marking_of_update hch
  set e : Event W := ⟨none, some (some i, .update k counts), [], []⟩
  refine ⟨fun hn => absurd hmark hn, fun _ => ?_, fun _ _ hn => absurd hmark hn, h.tidy, ?_, ?_,
    h.swept, fun _ a ha => ?_⟩
  · exact h.collect (m := .sweep) hch hmark rfl (Or.inr rfl) rfl
  · intro a b addrs hm
    rcases mem_chan_deliver hm with hm | hm
    · exact h.filled a b addrs hm
    · exact absurd hm List.not_mem_nil
  · show (s.deliver e).sweepsLeft = s.gc.remSweepacks
    rw [← h.sweeps]
    have h1 := load_receive_none sweepackWeight hch []
    simp only [Channels.sentTo_nil, List.map_nil, List.sum_nil, sweepackWeight, Nat.add_zero] at h1
    simp only [Group.sweepsLeft]
    rw [h1]
    congr 1
    apply Finset.sum_congr rfl
    intro j _
    exact load_receive sweepWeight hch [] j
  · rcases h.accounted hmark a ha with h1 | ⟨p, addrs, h1, h2⟩ | h1
    · exact Or.inl h1
    · refine Or.inr (Or.inl ⟨p, addrs, ?_, h2⟩)
      refine mem_deliver_of_mem (fits_receive hch) h1 (fun j' m' ht => ?_)
      simp only [Option.some.injEq, Prod.mk.injEq] at ht
      rw [← ht.2]
      simp
    · exact Or.inr (Or.inr h1)

/-- The UPDATE with which the marking ends. -/
theorem MarkInv.update_ends {s : Group W} {req : List (Gaddr n)} {i : Fin n} {k : Nat}
    {counts : Fin n → Int} {rest : List (Msg n W.Msg)} {gc : Collector n} (h : MarkInv s req)
    (hch : s.chan (some i) none = .update k counts :: rest)
    (hcount : gc.count = fun j => s.gc.count j + counts j)
    (hzero : ∀ j, s.gc.count j + counts j = 0) (hdone : gc.markDone = true)
    (hrem : gc.remSweepacks = n) :
    MarkInv ({ s with gc := gc }.deliver ⟨none, some (some i, .update k counts), [], toAll .sweep⟩)
      req := by
  have hmark := h.marking_of_update hch
  have hnot : ¬ gc.Marking := fun hm => absurd (hdone.symm.trans hm.2.1) (by simp)
  set e : Event W := ⟨none, some (some i, .update k counts), [], toAll .sweep⟩
  have hinv : ({ s with gc := gc }.deliver e).counting.Inv :=
    h.collect hch hmark hcount (Or.inl rfl) rfl
  refine ⟨fun _ => ?_, fun hm => absurd hm hnot, fun _ hd => ?_, h.tidy, ?_, ?_, fun hd => ?_,
    fun hm => absurd hm hnot⟩
  · apply hinv.finished
    intro j
    show gc.count j = 0
    rw [hcount]
    exact hzero j
  · simp [hdone] at hd
  · intro a b addrs hm
    rcases mem_chan_deliver hm with hm | hm
    · exact h.filled a b addrs hm
    · have := mem_toAll hm
      simp at this
  · show (s.deliver e).sweepsLeft = gc.remSweepacks
    have hleft := h.sweeps
    rw [h.swept hmark.2.1] at hleft
    have h1 := load_receive_none sweepackWeight hch (toAll .sweep)
    simp only [sentTo_toAll_none, List.map_nil, List.sum_nil, sweepackWeight, Nat.add_zero] at h1
    have h2 : ∑ j, Channels.load sweepWeight (s.deliver e).chan (some j) =
        ∑ j, Channels.load sweepWeight s.chan (some j) + n := by
      have hone : ∑ j : Fin n, (Channels.load sweepWeight s.chan (some j) + 1) =
          ∑ j, Channels.load sweepWeight s.chan (some j) + n := by
        simp [Finset.sum_add_distrib]
      rw [← hone]
      apply Finset.sum_congr rfl
      intro j _
      have := load_receive sweepWeight hch (toAll .sweep) j
      simp only [sum_toAll, sweepWeight] at this
      exact this
    simp only [Group.sweepsLeft] at hleft ⊢
    rw [h1, h2, hrem]
    omega
  · simp [hdone] at hd

/-- A SWEEPACK, the last one included. -/
theorem MarkInv.sweepack_step {s : Group W} {req : List (Gaddr n)} {i : Fin n}
    {rest : List (Msg n W.Msg)} {gc : Collector n} {out : Sends n W.Msg} (h : MarkInv s req)
    (hch : s.chan (some i) none = .sweepack :: rest) (hdone : s.gc.markDone = true)
    (hrem : s.gc.remSweepacks = gc.remSweepacks + 1)
    (hgc : gc.markDone = true ∨ gc.ingc = false ∧ gc.remSweepacks = 0)
    (hplain : ∀ d ∈ out, plain d.2 = true) :
    MarkInv ({ s with gc := gc }.deliver ⟨none, some (some i, .sweepack), [], out⟩) req := by
  have hnot : ¬ s.gc.Marking := fun hm => by
    have := hm.2.1
    simp [hdone] at this
  have hnot' : ¬ gc.Marking := fun hm => by
    rcases hgc with hd | ⟨hd, -⟩
    · simp [hm.2.1] at hd
    · simp [hm.1] at hd
  obtain ⟨hq1, hq2, hq3⟩ := h.quiet hnot
  set e : Event W := ⟨none, some (some i, .sweepack), [], out⟩
  have hzero : ∀ (f : Msg n W.Msg → Nat), (∀ m, plain m = true → f m = 0) → ∀ b,
      ((Channels.sentTo out b).map f).sum = 0 :=
    fun f hf b => sum_sentTo_zero (fun d hd => hf _ (hplain d hd)) b
  refine ⟨fun _ => ⟨fun j => ?_, fun j => ?_, fun j => hq3 j⟩, fun hm => absurd hm hnot',
    fun hi hd => ?_, h.tidy, ?_, ?_, fun hd => ?_, fun hm => absurd hm hnot'⟩
  · have h1 := load_receive markWeight hch out j
    rw [hzero markWeight (fun m => markWeight_plain), Nat.add_zero] at h1
    exact h1.trans (hq1 j)
  · have h1 := reports_receive s i .sweepack out j
    refine Eq.trans h1 ?_
    have h2 := hq2 j
    by_cases hj : j = i
    · subst hj
      simp only [Group.counting, hch, List.filterMap_cons, reported] at h2
      rw [if_pos rfl, hch]
      exact h2
    · rw [if_neg hj]
      exact h2
  · rcases hgc with hd' | ⟨hd', -⟩
    · exact absurd (hd'.symm.trans hd) (by simp)
    · exact absurd (hd'.symm.trans hi) (by simp)
  · intro a b addrs hm
    rcases mem_chan_deliver hm with hm | hm
    · exact h.filled a b addrs hm
    · exact absurd (hplain _ hm) (by simp [plain])
  · show (s.deliver e).sweepsLeft = gc.remSweepacks
    have hleft := h.sweeps
    have h1 : Channels.load sweepackWeight (s.deliver e).chan none + 1 =
        Channels.load sweepackWeight s.chan none + _ :=
      load_receive_none sweepackWeight hch out
    rw [hzero sweepackWeight (fun m => sweepackWeight_plain)] at h1
    have h2 : ∑ j, Channels.load sweepWeight (s.deliver e).chan (some j) =
        ∑ j, Channels.load sweepWeight s.chan (some j) := by
      apply Finset.sum_congr rfl
      intro j _
      have := load_receive sweepWeight hch out j
      rw [hzero sweepWeight (fun m => sweepWeight_plain), Nat.add_zero] at this
      exact this
    simp only [Group.sweepsLeft] at hleft ⊢
    rw [h2]
    omega
  · rcases hgc with hd' | ⟨-, hr⟩
    · exact absurd (hd'.symm.trans hd) (by simp)
    · exact hr

/-! ## The invariant in every run -/

theorem MarkInv.initial {s : Group W} (h : Initial s) : MarkInv s [] := by
  have hload : ∀ (f : Msg n W.Msg → Nat) b, Channels.load f s.chan b = 0 := by
    intro f b
    rw [Channels.load_eq_zero]
    intro a m hm
    rw [h.chan] at hm
    simp at hm
  have hnot : ¬ s.gc.Marking := fun hm => by
    have := hm.1
    simp [h.gc] at this
  have htask : ∀ i, (s.task i).marking = none ∧ (s.task i).gcsent = (fun _ => 0) ∧
      ∀ j, (s.task i).distmarks j = [] := by
    intro i
    obtain ⟨w, hw⟩ := h.task i
    rw [hw]
    exact ⟨rfl, rfl, fun _ => rfl⟩
  refine ⟨fun _ => ⟨fun i => hload _ _, fun i => ?_, fun i => ?_⟩, fun hm => absurd hm hnot,
    fun _ _ _ => rfl, fun i => ⟨fun _ => (htask i).2, fun pid hp => ?_⟩, ?_, ?_, ?_,
    fun hm => absurd hm hnot⟩
  · simp [Group.counting, h.chan]
  · simp [Group.counting, (htask i).1]
  · rw [(htask i).1] at hp
    cases hp
  · intro a b addrs hm
    rw [h.chan] at hm
    simp at hm
  · simp [Group.sweepsLeft, hload, h.gc]
  · simp [h.gc]

/-- Handlers that have no part in the marking keep its fields and send plain messages. -/
theorem Handles.plain_spec {i : Fin n} {t t' : Task W} {j : Party n} {m : Msg n W.Msg}
    {pending : List (Gaddr n)} {out : Sends n W.Msg} (h : Handles i t j m pending t' out)
    (hm : plain m = true) :
    SameMarks t t' ∧ pending = [] ∧ ∀ d ∈ out, plain d.2 = true := by
  have hack : ∀ u : Task W, ∀ d ∈ maybePauseack u, plain d.2 = true := by
    intro u d hd
    unfold maybePauseack at hd
    split at hd
    · rw [List.mem_singleton.mp hd]
      rfl
    · simp at hd
  cases h with
  | pause h =>
    unfold interpreterPause at h
    split at h
    · cases h
    · cases h
      refine ⟨⟨rfl, rfl, rfl, rfl⟩, rfl, fun d hd => ?_⟩
      rcases List.mem_append.mp hd with hd | hd
      · rw [mem_toOthers hd]
        rfl
      · exact hack _ d hd
  | gotpause h =>
    unfold interpreterGotpause at h
    simp only at h
    split at h
    · cases h
      exact ⟨⟨rfl, rfl, rfl, rfl⟩, rfl, hack _⟩
    · cases h
  | resume => exact ⟨⟨rfl, rfl, rfl, rfl⟩, rfl, by simp⟩
  | startdistgc h =>
    unfold interpreterStartdistgc at h
    split at h
    · cases h
    · cases h
      refine ⟨⟨rfl, rfl, rfl, rfl⟩, rfl, fun d hd => ?_⟩
      rw [List.mem_singleton.mp hd]
      rfl
  | checkallrefs _ => exact ⟨SameMarks.refl t, rfl, fun d => plain_asWork⟩
  | work _ => exact ⟨⟨rfl, rfl, rfl, rfl⟩, rfl, fun d => plain_asWork⟩
  | markroots _ _ => simp [plain] at hm
  | markentry _ _ _ => simp [plain] at hm
  | sweep _ _ => simp [plain] at hm

theorem plain_none {a : Party n} {pending : List (Gaddr n)} {out : Sends n W.Msg}
    (h : ∀ d ∈ out, plain d.2 = true) : Event.Plain (W := W) ⟨a, none, pending, out⟩ := by
  refine ⟨?_, h⟩
  intro j m ht
  cases ht

theorem sameMarks_setTask {s : Group W} {i : Fin n} {t' : Task W} (h : SameMarks (s.task i) t')
    (k : Fin n) : SameMarks (s.task k) ((s.setTask i t').task k) := by
  by_cases hk : k = i
  · subst hk
    rw [setTask_self]
    exact h
  · rw [setTask_other s t' hk]
    exact SameMarks.refl _

theorem MarkInv.handle_step {s : Group W} {req pending : List (Gaddr n)} {i : Fin n} {j : Party n}
    {m : Msg n W.Msg} {rest : List (Msg n W.Msg)} {t' : Task W} {out : Sends n W.Msg}
    (h : MarkInv s req) (hch : s.chan j (some i) = m :: rest) (hidle : (s.task i).marking = none)
    (hh : Handles i (s.task i) j m pending t' out) :
    MarkInv ((s.setTask i t').deliver ⟨some i, some (j, m), pending, out⟩) (req ++ pending) := by
  by_cases hm : plain m = true
  · obtain ⟨hsame, rfl, hout⟩ := hh.plain_spec hm
    rw [List.append_nil]
    refine h.plain_step (fits_handle hch) ⟨fun j' m' ht => ?_, hout⟩ rfl
      (sameMarks_setTask hsame) (SamePhase.refl _) h.early (fun _ => rfl)
    simp only [Option.some.injEq, Prod.mk.injEq] at ht
    rw [← ht.2]
    exact hm
  · have hzero : (s.task i).gcsent = fun _ => 0 := ((h.tidy i).idle hidle).1
    cases hh with
    | pause _ => exact absurd rfl hm
    | gotpause _ => exact absurd rfl hm
    | resume => exact absurd rfl hm
    | startdistgc _ => exact absurd rfl hm
    | checkallrefs _ => exact absurd rfl hm
    | work _ => exact absurd rfl hm
    | markroots _ hs =>
      obtain ⟨h1, h2, h3, h4⟩ := startMarking_some hs
      refine h.begin_step hch hidle Nat.one_pos rfl (fun d => plain_asWork) h1 h2 ?_ ?_ ?_
      · rw [h3]
        funext k
        simp [hzero, markWeight]
      · rw [h4]
        exact List.Subset.refl _
      · intro addrs he
        cases he
    | @markentry _ j addrs _ _ _ _ ho hs =>
      obtain ⟨h1, h2, h3, h4⟩ := startMarking_some hs
      have hpos : 0 < addrs.length := by
        apply List.length_pos_of_ne_nil
        apply h.filled (some j) (some i) addrs
        simp [hch]
      refine h.begin_step hch hidle hpos rfl (fun d => plain_asWork) h1 h2 ?_ ?_ ?_
      · rw [h3]
        funext k
        simp [hzero, markWeight]
      · rw [h4]
        exact List.subset_append_right _ _
      · intro addrs' he a ha
        cases he
        rw [h4]
        exact ⟨List.mem_append_left _ ha, ho a ha⟩
    | sweep _ hs =>
      unfold interpreterSweep at hs
      split at hs
      · cases hs
        rw [List.append_nil]
        exact h.sweep_step hch (fun d => plain_asWork)
          ⟨fun _ => (h.tidy i).idle hidle, fun pid hp => by rw [hidle] at hp; cases hp⟩ hidle
      · cases hs

theorem MarkInv.mark_step {s : Group W} {req : List (Gaddr n)} {i : Fin n} {t' : Task W}
    {out : Sends n W.Msg} (h : MarkInv s req) (hc : continueMarking (s.task i) = some (t', out)) :
    MarkInv ((s.setTask i t').deliver ⟨some i, none, [], out⟩) req := by
  unfold continueMarking at hc
  cases hm : (s.task i).marking with
  | none => simp [hm] at hc
  | some pid =>
    simp only [hm] at hc
    split at hc
    · rename_i hlt
      cases hs : sendMarkMessage ⟨pid, hlt⟩ (s.task i) with
      | mk u out' =>
        rw [hs] at hc
        cases hc
        obtain ⟨h1, h2, h3, h4⟩ := sendMarkMessage_spec hs
        exact h.send_step (j := ⟨pid, hlt⟩) hm rfl h1 h2 h3 h4
    · rename_i hlt
      cases hc
      exact h.update_step hm hlt

theorem MarkInv.receive_step {s : Group W} {req : List (Gaddr n)} {i : Fin n} {m : Msg n W.Msg}
    {rest : List (Msg n W.Msg)} {gc : Collector n} {out : Sends n W.Msg} (h : MarkInv s req)
    (hch : s.chan (some i) none = m :: rest) (hr : gcReceive s.gc m = some (gc, out)) :
    MarkInv ({ s with gc := gc }.deliver ⟨none, some (some i, m), [], out⟩) req := by
  have hpos : 0 < n := i.pos
  -- steps before the marking phase: nothing but plain messages
  have hbefore : plain m = true → (∀ d ∈ out, plain d.2 = true) → SamePhase s.gc gc →
      gc.ingc = s.gc.ingc → MarkInv ({ s with gc := gc }.deliver ⟨none, some (some i, m), [], out⟩) req := by
    intro hp ho hgc hin
    refine h.plain_step (fits_receive hch) ⟨fun j' m' ht => ?_, ho⟩ rfl
      (fun k => SameMarks.refl _) hgc (fun h1 h2 h3 => ?_) (fun _ => rfl)
    · simp only [Option.some.injEq, Prod.mk.injEq] at ht
      rw [← ht.2]
      exact hp
    · exact h.early (hin ▸ h1) (hgc.markDone ▸ h2) (fun hm => h3 (hgc.marking.mpr hm))
  unfold gcReceive at hr
  split at hr
  · rename_i hwait
    have hnot : ¬ s.gc.Marking := fun hm => by
      have := hm.2.2.1
      omega
    cases m <;> simp only [reduceCtorEq] at hr
    split at hr
    · cases hr
      refine hbefore rfl (fun d hd => by rw [mem_toAll hd]; rfl)
        ⟨⟨fun hm => ?_, fun hm => absurd hm hnot⟩, rfl, rfl, rfl⟩ rfl
      exact absurd hm.2.2.2 (by simp only; omega)
    · cases hr
      refine hbefore rfl (by simp) ⟨⟨fun hm => ?_, fun hm => absurd hm hnot⟩, rfl, rfl, rfl⟩ rfl
      exact absurd hm.2.2.1 (by simp only; omega)
  · rename_i hwait
    cases m <;> simp only [reduceCtorEq] at hr
    case startdistgcack =>
      split at hr
      · rename_i hc
        obtain ⟨hin, hdone, hrem⟩ := hc
        simp only [Bool.not_eq_true] at hdone
        split at hr
        · cases hr
          exact h.start_step hch hin hdone hrem rfl rfl ⟨hin, hdone, by simp only; omega, rfl⟩
        · cases hr
          refine hbefore rfl (by simp) ⟨⟨fun hm => ?_, fun hm => ?_⟩, rfl, rfl, rfl⟩ rfl
          · exact absurd hm.2.2.2 (by simp only; omega)
          · exact absurd hm.2.2.2 (by omega)
      · cases hr
    case update k counts =>
      split at hr
      · split at hr
        · rename_i hz
          cases hr
          exact h.update_ends hch rfl hz rfl rfl
        · cases hr
          exact h.update_goes_on hch
      · cases hr
    case sweepack =>
      split at hr
      · rename_i hc
        obtain ⟨hin, hdone, hrem⟩ := hc
        split at hr
        · split at hr
          · cases hr
            refine h.sweepack_step hch hdone (by simp only; omega) (Or.inr ⟨rfl, rfl⟩)
              (fun d hd => ?_)
            rcases List.mem_append.mp hd with hd | hd <;> rw [mem_toAll hd] <;> rfl
          · cases hr
        · cases hr
          exact h.sweepack_step hch hdone (by simp only; omega) (Or.inl hdone) (by simp)
      · cases hr

theorem MarkInv.step {s s' : Group W} {tr : List (Event W)} {e : Event W}
    (h : MarkInv s (requested tr)) (hs : Step s e s') : MarkInv s' (requested (tr ++ [e])) := by
  rw [requested_concat]
  cases hs with
  | timeout ht =>
    rename_i gc out
    unfold gcTimeout at ht
    split at ht
    · cases ht
    · rename_i hin
      cases ht
      have hnot : ¬ s.gc.Marking := fun hm => hin hm.1
      simp only [Option.isNone_none, Bool.and_self, if_true]
      by_cases hn : n = 0
      · -- no tasks: nobody is waited for
        subst hn
        refine ⟨fun _ => ⟨fun i => i.elim0, fun i => i.elim0, fun i => i.elim0⟩,
          fun _ => Count.Inv.start (fun i => i.elim0) (fun i => i.elim0) (fun i => i.elim0),
          fun _ _ _ => rfl, fun i => i.elim0, ?_, ?_, h.swept, fun _ a ha => by simp at ha⟩
        · intro a b addrs hm
          rcases mem_chan_deliver hm with hm | hm
          · exact h.filled a b addrs hm
          · have := mem_toAll hm
            simp at this
        · have := h.sweeps
          simpa [Group.sweepsLeft, Group.deliver, toAll, Channels.sendAll] using this
      · have hplain : ∀ d ∈ (toAll .pause : Sends n W.Msg), plain d.2 = true := by
          intro d hd
          rw [mem_toAll hd]
          rfl
        refine h.plain_step (fits_none s none [] _) (plain_none hplain) rfl (fun k => SameMarks.refl _)
          ⟨⟨fun hm => ?_, fun hm => absurd hm hnot⟩, rfl, rfl, rfl⟩ (fun _ _ _ => rfl) (fun hm => ?_)
        · exact absurd hm.2.2.1 hn
        · exact absurd hm.2.2.1 hn
  | receive hch hr =>
    simp only [Option.isNone_none, Option.isNone_some, Bool.and_false, Bool.false_eq_true, if_false,
      List.append_nil]
    exact h.receive_step hch hr
  | handle hch hidle hh =>
    simp only [Option.isNone_some, Bool.false_and, Bool.false_eq_true, if_false]
    exact h.handle_step hch hidle hh
  | mark hc =>
    simp only [Option.isNone_some, Bool.false_and, Bool.false_eq_true, if_false, List.append_nil]
    exact h.mark_step hc
  | external _ _ =>
    simp only [Option.isNone_some, Bool.false_and, Bool.false_eq_true, if_false, List.append_nil]
    exact h.plain_step (fits_none s _ [] _) (plain_none (fun d => plain_asWork)) rfl (sameMarks_setTask ⟨rfl, rfl, rfl, rfl⟩) (SamePhase.refl _) h.early
      (fun _ => rfl)
  | evaluate _ _ _ =>
    simp only [Option.isNone_some, Bool.false_and, Bool.false_eq_true, if_false, List.append_nil]
    exact h.plain_step (fits_none s _ [] _) (plain_none (fun d => plain_asWork)) rfl (sameMarks_setTask ⟨rfl, rfl, rfl, rfl⟩) (SamePhase.refl _) h.early
      (fun _ => rfl)

theorem markInv_run {s : Group W} {tr : List (Event W)} (h : GroupRun W s tr) :
    MarkInv s (requested tr) :=
  Run.invariant (I := fun s tr => MarkInv s (requested tr)) (fun _ h0 => MarkInv.initial h0)
    (fun _ _ _ _ _ hi hs => hi.step hs) h

/-! ## Where the messages of the marking go -/

/-- Marks go to tasks and UPDATE messages from tasks to the collector. -/
structure Routed (a b : Party n) (m : Msg n W.Msg) : Prop where
  mark : markWeight m ≠ 0 → b ≠ none
  update : reported m ≠ none → a ≠ none ∧ b = none

theorem Routed.of_plain {a b : Party n} {m : Msg n W.Msg} (h : plain m = true) : Routed a b m :=
  ⟨fun hw => absurd (markWeight_plain h) hw, fun hr => absurd (reported_plain h) hr⟩

theorem routed_toAll {a : Party n} {m : Msg n W.Msg} (hr : reported m = none) :
    ∀ d ∈ toAll m, Routed a d.1 d.2 := by
  intro d hd
  obtain ⟨i, -, rfl⟩ := List.mem_map.mp hd
  exact ⟨fun _ => by simp, fun h => absurd hr h⟩

theorem Handles.routed {i : Fin n} {t t' : Task W} {j : Party n} {m : Msg n W.Msg}
    {pending : List (Gaddr n)} {out : Sends n W.Msg} (h : Handles i t j m pending t' out) :
    ∀ d ∈ out, Routed (some i) d.1 d.2 := by
  by_cases hm : plain m = true
  · exact fun d hd => Routed.of_plain ((h.plain_spec hm).2.2 d hd)
  · cases h with
    | pause _ => exact absurd rfl hm
    | gotpause _ => exact absurd rfl hm
    | resume => exact absurd rfl hm
    | startdistgc _ => exact absurd rfl hm
    | checkallrefs _ => exact absurd rfl hm
    | work _ => exact absurd rfl hm
    | markroots _ _ => exact fun d hd => Routed.of_plain (plain_asWork hd)
    | markentry _ _ _ => exact fun d hd => Routed.of_plain (plain_asWork hd)
    | sweep _ hs =>
      unfold interpreterSweep at hs
      split at hs
      · cases hs
        intro d hd
        rcases List.mem_append.mp hd with hd | hd
        · exact Routed.of_plain (plain_asWork hd)
        · rw [List.mem_singleton.mp hd]
          exact ⟨fun hw => absurd rfl hw, fun hr => absurd rfl hr⟩
      · cases hs

theorem gcReceive_routed {gc gc' : Collector n} {m : Msg n W.Msg} {out : Sends n W.Msg}
    (h : gcReceive gc m = some (gc', out)) : ∀ d ∈ out, Routed none d.1 d.2 := by
  unfold gcReceive at h
  split at h
  · cases m <;> simp only [reduceCtorEq] at h
    split at h <;> cases h
    · exact routed_toAll rfl
    · simp
  · cases m <;> simp only [reduceCtorEq] at h
    case startdistgcack =>
      split at h
      · split at h <;> cases h
        · exact routed_toAll rfl
        · simp
      · cases h
    case update =>
      split at h
      · split at h <;> cases h
        · exact routed_toAll rfl
        · simp
      · cases h
    case sweepack =>
      split at h
      · split at h
        · split at h
          · cases h
            intro d hd
            rcases List.mem_append.mp hd with hd | hd
            · exact routed_toAll rfl d hd
            · exact routed_toAll rfl d hd
          · cases h
        · cases h
          simp
      · cases h

theorem continueMarking_routed {i : Fin n} {t t' : Task W} {out : Sends n W.Msg}
    (h : continueMarking t = some (t', out)) : ∀ d ∈ out, Routed (some i) d.1 d.2 := by
  unfold continueMarking at h
  cases hm : t.marking with
  | none => simp [hm] at h
  | some pid =>
    simp only [hm] at h
    split at h
    · rename_i hlt
      cases hs : sendMarkMessage ⟨pid, hlt⟩ t with
      | mk u out' =>
        rw [hs] at h
        cases h
        obtain ⟨-, -, -, ho⟩ := sendMarkMessage_spec hs
        intro d hd
        rw [ho] at hd
        split at hd
        · simp at hd
        · rw [List.mem_singleton.mp hd]
          exact ⟨fun _ => by simp, fun hr => absurd rfl hr⟩
    · cases h
      intro d hd
      rw [List.mem_singleton.mp hd]
      exact ⟨fun hw => absurd rfl hw, fun _ => ⟨by simp, rfl⟩⟩

theorem continueMarking_sweepless {t t' : Task W} {out : Sends n W.Msg}
    (h : continueMarking t = some (t', out)) (b : Party n) : (b, Msg.sweep) ∉ out := by
  unfold continueMarking at h
  cases hm : t.marking with
  | none => simp [hm] at h
  | some pid =>
    simp only [hm] at h
    split at h
    · rename_i hlt
      cases hs : sendMarkMessage ⟨pid, hlt⟩ t with
      | mk u out' =>
        rw [hs] at h
        cases h
        obtain ⟨-, -, -, ho⟩ := sendMarkMessage_spec hs
        rw [ho]
        split <;> simp
    · cases h
      simp

theorem Step.routed {s s' : Group W} {e : Event W} (h : Step s e s') :
    ∀ d ∈ e.out, Routed e.actor d.1 d.2 := by
  cases h with
  | timeout ht =>
    unfold gcTimeout at ht
    split at ht
    · cases ht
    · cases ht
      exact routed_toAll rfl
  | receive _ hr => exact gcReceive_routed hr
  | handle _ _ hh => exact hh.routed
  | mark hc => exact continueMarking_routed hc
  | external _ _ => exact fun d hd => Routed.of_plain (plain_asWork hd)
  | evaluate _ _ _ => exact fun d hd => Routed.of_plain (plain_asWork hd)

theorem routed_run {s : Group W} {tr : List (Event W)} (h : GroupRun W s tr) :
    ∀ a b m, m ∈ s.chan a b → Routed a b m := by
  refine Run.invariant (I := fun s _ => ∀ a b m, m ∈ s.chan a b → Routed a b m) ?_ ?_ h
  · intro s h0 a b m hm
    rw [h0.chan] at hm
    simp at hm
  · intro s tr e s' _ ih hs a b m hm
    rw [hs.chan_eq, chan_deliver] at hm
    rcases List.mem_append.mp hm with hm | hm
    · refine ih a b m ?_
      revert hm
      cases e.took with
      | none => exact id
      | some jm =>
        simp only
        split
        · exact List.mem_of_mem_tail
        · exact id
    · by_cases ha : a = e.actor
      · rw [if_pos ha] at hm
        rw [ha]
        exact hs.routed _ (Channels.mem_sentTo.mp hm)
      · simp [ha] at hm

/-! ## The end of the marking -/

/-- A message of the marking phase: MARKROOTS, MARKENTRY or UPDATE. -/
def ofMarking {V : Type} : Msg n V → Bool
  | .markroots | .markentry _ | .update _ _ => true
  | _ => false

/-- Only the collector sends SWEEP, when an UPDATE makes all counts zero. -/
theorem Step.sweep_sent {s s' : Group W} {e : Event W} (h : Step s e s') {b : Party n}
    (hsweep : (b, Msg.sweep) ∈ e.out) :
    s.gc.markDone = false ∧ s'.gc.markDone = true ∧ (∀ i, s'.gc.count i = 0) ∧ e.actor = none ∧
      s'.task = s.task ∧ e.pending = [] ∧ ∃ i k counts, e.took = some (some i, .update k counts) := by
  have hwork : ∀ out : List (Fin n × W.Msg), (b, Msg.sweep) ∉ asWork out := by
    intro out hm
    exact absurd (plain_asWork hm) (by simp [plain])
  cases h with
  | timeout ht =>
    unfold gcTimeout at ht
    split at ht
    · cases ht
    · cases ht
      have := mem_toAll hsweep
      simp at this
  | @receive gc out i m rest hch hr =>
    unfold gcReceive at hr
    split at hr
    · cases m <;> simp only [reduceCtorEq] at hr
      split at hr <;> cases hr
      · have := mem_toAll hsweep
        simp at this
      · simp at hsweep
    · cases m <;> simp only [reduceCtorEq] at hr
      case startdistgcack =>
        split at hr
        · split at hr <;> cases hr
          · have := mem_toAll hsweep
            simp at this
          · simp at hsweep
        · cases hr
      case update k counts =>
        split at hr
        · rename_i hc
          split at hr
          · rename_i hz
            cases hr
            exact ⟨by simpa using hc.2.1, rfl, hz, rfl, rfl, rfl, i, k, counts, rfl⟩
          · cases hr
            simp at hsweep
        · cases hr
      case sweepack =>
        split at hr
        · split at hr
          · split at hr
            · cases hr
              rcases List.mem_append.mp hsweep with hm | hm
              · have := mem_toAll hm
                simp at this
              · have := mem_toAll hm
                simp at this
            · cases hr
          · cases hr
            simp at hsweep
        · cases hr
  | @handle i j m rest pending t' out hch hidle hh =>
    by_cases hm : plain m = true
    · exact absurd ((hh.plain_spec hm).2.2 _ hsweep) (by simp [plain])
    · cases hh with
      | pause _ => exact absurd rfl hm
      | gotpause _ => exact absurd rfl hm
      | resume => exact absurd rfl hm
      | startdistgc _ => exact absurd rfl hm
      | checkallrefs _ => exact absurd rfl hm
      | work _ => exact absurd rfl hm
      | markroots _ _ => exact absurd hsweep (hwork _)
      | markentry _ _ _ => exact absurd hsweep (hwork _)
      | sweep _ hs =>
        unfold interpreterSweep at hs
        split at hs
        · cases hs
          rcases List.mem_append.mp hsweep with hd | hd
          · exact absurd hd (hwork _)
          · simp at hd
        · cases hs
  | mark hc =>
    have := continueMarking_sweepless hc
    exact absurd hsweep (this b)
  | external _ _ => exact absurd hsweep (hwork _)
  | evaluate _ _ _ => exact absurd hsweep (hwork _)

/-- When the counts are all zero and the collector sends SWEEP, the marking is complete: no
MARKROOTS, MARKENTRY or UPDATE is in flight, no task is inside a marking handler or has marks to
send, and every mark requested since the collection started is set at the owner. -/
theorem sweep_complete {s s' : Group W} {tr : List (Event W)} {e : Event W} (h : GroupRun W s tr)
    (hs : Step s e s') {b : Party n} (hsweep : (b, Msg.sweep) ∈ e.out) :
    (∀ x y m, m ∈ s'.chan x y → ofMarking m = false) ∧
    (∀ i, (s'.task i).marking = none ∧ ∀ j, (s'.task i).distmarks j = []) ∧
    ∀ a ∈ requested (tr ++ [e]), a ∈ (s'.task a.tid).dmb := by
  have hrun' : GroupRun W s' (tr ++ [e]) := Run.next h hs
  have hinv := markInv_run h
  have hinv' := markInv_run hrun'
  obtain ⟨hd, hd', -, hactor, htask, hpend, i, k, counts, htook⟩ := hs.sweep_sent hsweep
  have hnot : ¬ s'.gc.Marking := fun hm => absurd (hd'.symm.trans hm.2.1) (by simp)
  obtain ⟨hq1, hq2, hq3⟩ := hinv'.quiet hnot
  have hflight : ∀ x y m, m ∈ s'.chan x y → ofMarking m = false := by
    intro x y m hm
    have hr := routed_run hrun' x y m hm
    have hmark : markWeight m = 0 := by
      by_contra hw
      obtain ⟨j, rfl⟩ := Option.ne_none_iff_exists'.mp (hr.mark hw)
      exact hw ((Channels.load_eq_zero markWeight s'.chan).mp (hq1 j) x m hm)
    have hrep : reported m = none := by
      by_contra hc
      obtain ⟨hx, rfl⟩ := hr.update hc
      obtain ⟨j, rfl⟩ := Option.ne_none_iff_exists'.mp hx
      exact hc (List.filterMap_eq_nil_iff.mp (hq2 j) m hm)
    cases m with
    | markroots => simp [markWeight] at hmark
    | markentry addrs =>
      have := hinv'.filled x y addrs hm
      simp only [markWeight, List.length_eq_zero_iff] at hmark
      exact absurd hmark this
    | update k counts => simp [reported] at hrep
    | _ => rfl
  have hidle : ∀ j, (s'.task j).marking = none := by
    intro j
    have := hq3 j
    simp only [Group.counting] at this
    split at this
    · cases this
    · rename_i hc
      simpa using hc
  refine ⟨hflight, fun j => ⟨hidle j, ((hinv'.tidy j).idle (hidle j)).2⟩, fun a ha => ?_⟩
  -- the request was accounted for before the last UPDATE, and nothing is left to be done
  have hmarking : s.gc.Marking := by
    by_contra hn
    have hmem : Msg.update k counts ∈ s.chan (some i) none := by
      obtain ⟨rest, hr⟩ := hs.fits _ _ htook
      rw [hactor] at hr
      simp [hr]
    have := List.filterMap_eq_nil_iff.mp ((hinv.quiet hn).2.1 i) _ hmem
    simp [reported] at this
  have hreq : requested (tr ++ [e]) = requested tr := by
    rw [requested_concat, htook, hpend]
    simp
  rw [hreq] at ha
  rcases hinv.accounted hmarking a ha with h1 | ⟨p, addrs, h1, h2⟩ | ⟨j, h1⟩
  · rw [htask]
    exact h1
  · exfalso
    have hm : Msg.markentry addrs ∈ s'.chan p (some a.tid) := by
      rw [hs.chan_eq]
      refine mem_deliver_of_mem hs.fits h1 (fun j' m' ht => ?_)
      rw [htook] at ht
      simp only [Option.some.injEq, Prod.mk.injEq] at ht
      rw [← ht.2]
      simp
    have := hflight _ _ _ hm
    simp [ofMarking] at this
  · exfalso
    have := ((hinv'.tidy j).idle (hidle j)).2 a.tid
    rw [htask] at this
    rw [this] at h1
    simp at h1

/-- Two tasks that only take part in collections; task 0 holds a reference to object 5 of
task 1. -/
def twoTasks : Work 2 where
  State := Unit
  Msg := Empty
  handle := fun _ _ _ _ _ _ => False
  external := fun _ _ _ _ => False
  evaluate := fun _ _ _ _ => False
  collectStart := fun i _ pending _ out => pending = (if i = 0 then [⟨1, 5⟩] else []) ∧ out = []
  markEntry := fun _ _ _ _ pending _ out => pending = [] ∧ out = []
  writeMarks := fun w _ _ => w
  collectEnd := fun _ _ _ out => out = []
  checkRefs := fun _ _ out => out = []

def twoTasks.init : Group twoTasks := { gc := {}, task := fun _ => { work := () }, chan := fun _ _ => [] }

theorem sweep_complete_twoTasks : ∃ (s s' : Group twoTasks) (tr : List (Event twoTasks))
    (e : Event twoTasks), GroupRun twoTasks s tr ∧ Step s e s' ∧ (some 0, Msg.sweep) ∈ e.out ∧
    (∀ x y m, m ∈ s'.chan x y → ofMarking m = false) ∧
    requested (tr ++ [e]) = [⟨1, 5⟩] ∧ ⟨1, 5⟩ ∈ (s'.task 1).dmb := by
  have r0 : GroupRun twoTasks twoTasks.init [] := .start ⟨rfl, fun _ => ⟨(), rfl⟩, fun _ _ => rfl⟩
  have r1 := r0.next (.timeout rfl)
  have r2 := r1.next (.handle (i := 0) (j := none) rfl rfl (.pause rfl))
  have r3 := r2.next (.handle (i := 1) (j := none) rfl rfl (.pause rfl))
  have r4 := r3.next (.handle (i := 1) (j := some 0) rfl rfl (.gotpause rfl))
  have r5 := r4.next (.handle (i := 0) (j := some 1) rfl rfl (.gotpause rfl))
  have r6 := r5.next (.receive (i := 0) rfl rfl)
  have r7 := r6.next (.receive (i := 1) rfl rfl)
  have r8 := r7.next (.handle (i := 0) (j := none) rfl rfl (.startdistgc rfl))
  have r9 := r8.next (.handle (i := 1) (j := none) rfl rfl (.startdistgc rfl))
  have r10 := r9.next (.receive (i := 0) rfl rfl)
  have r11 := r10.next (.receive (i := 1) rfl rfl)
  have r12 := r11.next (.handle (i := 0) (j := none) rfl rfl
    (.markroots (w := ()) ⟨rfl, rfl⟩ rfl))
  have r13 := r12.next (.mark (i := 0) rfl)
  have r14 := r13.next (.mark (i := 0) rfl)
  have r15 := r14.next (.mark (i := 0) rfl)
  have r16 := r15.next (.handle (i := 1) (j := none) rfl rfl
    (.markroots (w := ()) ⟨rfl, rfl⟩ rfl))
  have r17 := r16.next (.mark (i := 1) rfl)
  have r18 := r17.next (.mark (i := 1) rfl)
  have r19 := r18.next (.mark (i := 1) rfl)
  have r20 := r19.next (.handle (i := 1) (j := some 0) rfl rfl
    (.markentry (w := ()) ⟨rfl, rfl⟩ (by decide) rfl))
  have r21 := r20.next (.mark (i := 1) rfl)
  have r22 := r21.next (.mark (i := 1) rfl)
  have r23 := r22.next (.mark (i := 1) rfl)
  have r24 := r23.next (.receive (i := 1) rfl rfl)
  have r25 := r24.next (.receive (i := 1) rfl rfl)
  refine ⟨_, _, _, _, r25, .receive (i := 0) rfl rfl, mem_toAll_self 0 .sweep, ?_⟩
  have hc := sweep_complete r25 (.receive (i := 0) rfl rfl) (mem_toAll_self 0 .sweep)
  exact ⟨hc.1, rfl, hc.2.2 ⟨1, 5⟩ (List.mem_singleton.mpr rfl)⟩

end Runtime
end NReduce
