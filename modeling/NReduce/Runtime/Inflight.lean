import NReduce.Runtime.Handlers
import NReduce.Runtime.Delivery

/-!
# NReduce.Runtime.Inflight

The accounting of addresses in flight is exact: for each other task, `inflight_addrs` holds the
addresses of the messages that it has not acknowledged yet, message by message, and
`unack_msg_acount` their numbers.

* `Ledger`: the accounting in the middle of a handler, by the addresses written since the last
  message was sent, the addresses read, and the messages sent so far.
* `Balanced`: the accounting of a group between two steps, by what every task has sent, what is in
  flight and which acknowledgements are.
-/

namespace NReduce
namespace Runtime

open Logic Network

variable {n : Nat}

/-! ## The addresses of a message -/

def Ref.addrs : Ref n → List (Gaddr n)
  | .number _ => []
  | .nil => []
  | .remote a => [a]

def Elements.addrs : Elements (Ref n) → List (Gaddr n)
  | .bytes _ => []
  | .pntrs l => l.flatMap Ref.addrs

/-- In the order in which they are written. -/
def Obj.addrs : Obj n → List (Gaddr n)
  | .ref r => r.addrs
  | .cons a head tail => a :: (head.addrs ++ tail.addrs)
  | .aref a _ elements tail => a :: (elements.addrs ++ tail.addrs)
  | .array a elements => a :: elements.addrs
  | .frame a _ fetchers data _ => a :: (fetchers ++ data.flatMap Ref.addrs)
  | .cap a _ _ _ _ _ data => a :: data.flatMap Ref.addrs
  | .sysobject a _ _ _ => [a]

/-- One frame of a SCHEDULE message. -/
def itemAddrs (item : Gaddr n × Obj n) : List (Gaddr n) := item.1 :: item.2.addrs

def WMsg.addrs : WMsg n → List (Gaddr n)
  | .fetch target store => [target, store]
  | .respond store obj => store :: obj.addrs
  | .schedule frames => frames.flatMap itemAddrs
  | _ => []

/-- An ACK, with its destination, `count` and `naddrs`. -/
def ackOf : Fin n × WMsg n → Option (Fin n × Nat × Nat)
  | (d, .ack count naddrs _) => some (d, count, naddrs)
  | _ => none

/-- The address lists of the messages to `d` that have addresses. -/
def sentLists (out : List (Fin n × WMsg n)) (d : Fin n) : List (List (Gaddr n)) :=
  ((Channels.sentTo out d).map WMsg.addrs).filter (· ≠ [])

theorem sentLists_append (out out' : List (Fin n × WMsg n)) (d : Fin n) :
    sentLists (out ++ out') d = sentLists out d ++ sentLists out' d := by
  simp [sentLists, Channels.sentTo_append]

theorem sentLists_single (dest : Fin n) (m : WMsg n) (d : Fin n) :
    sentLists [(dest, m)] d = if d = dest ∧ m.addrs ≠ [] then [m.addrs] else [] := by
  simp only [sentLists, Channels.sentTo_cons, Channels.sentTo_nil]
  by_cases hd : dest = d <;> by_cases hm : m.addrs = [] <;> simp [hd, hm, eq_comm]

/-! ## The accounting inside a handler -/

/-- From `base`, the accounting at the start of a handler: `ws` are the addresses written since the
last message, `k` the number of addresses read, `acks` the acknowledgements sent. -/
structure Ledger (base : Acct n) (ws : List (Gaddr n)) (k : Nat) (acks : List (Fin n × Nat × Nat))
    (a : Acct n) : Prop where
  inflight : a.inflight = ws.reverse
  naddrsread : a.naddrsread = k
  addrs : ∀ d, a.inflightAddrs d =
    base.inflightAddrs d ++ (sentLists a.sent d).flatMap List.reverse
  counts : ∀ d, a.unackMsgAcount d =
    base.unackMsgAcount d ++ (sentLists a.sent d).map List.length
  acks : a.sent.filterMap ackOf = acks

/-- The same, of the state of a task. -/
def InLedger (base : Acct n) (ws : List (Gaddr n)) (k : Nat) (acks : List (Fin n × Nat × Nat))
    (s : Interp n) : Prop := Ledger base ws k acks s.acct

section Writing

variable {α : Type} {base : Acct n} {ws : List (Gaddr n)} {k : Nat}
  {acks : List (Fin n × Nat × Nat)}

/-- What a handler does to the heap is not accounted. -/
theorem onHeap_ledger (m : HeapM n α) :
    Triple (InLedger base ws k acks) (onHeap m) (fun _ => InLedger base ws k acks) :=
  Triple.zoom (R := fun _ _ => True) (S := fun _ _ _ => True) (fun _ _ _ _ _ _ => trivial)
    (fun _ _ => trivial) (fun _ hs _ _ _ => hs)

theorem check_ledger (b : Prop) [Decidable b] :
    Triple (InLedger base ws k acks) (check b) (fun _ => InLedger base ws k acks) :=
  Triple.check (fun _ _ hs => hs)

theorem need_ledger (o : Option α) :
    Triple (InLedger base ws k acks) (need o) (fun _ => InLedger base ws k acks) :=
  Triple.need (fun _ _ _ hs => hs)

theorem writeGaddr_ledger (a : Gaddr n) :
    Triple (InLedger base ws k acks) (writeGaddr a)
      (fun _ => InLedger base (ws ++ [a]) k acks) := by
  refine Triple.update (fun s hs => ?_)
  exact ⟨by simp [hs.inflight], hs.naddrsread, hs.addrs, hs.counts, hs.acks⟩

theorem writeGaddrs_ledger : ∀ (as : List (Gaddr n)) {ws : List (Gaddr n)},
    Triple (InLedger base ws k acks) (writeGaddrs as)
      (fun _ => InLedger base (ws ++ as) k acks)
  | [], ws => by
    refine Triple.ret () (fun s hs => ?_)
    rwa [List.append_nil]
  | a :: as, ws => by
    refine Triple.bind (writeGaddr_ledger a) (fun _ => ?_)
    refine (writeGaddrs_ledger as).conseq (fun s hs => hs) (fun _ s hs => ?_)
    rwa [List.append_assoc] at hs

theorem writeObjectAddress_ledger (tid : Fin n) (p : Pntr) :
    Triple (InLedger base ws k acks) (writeObjectAddress tid p)
      (fun a => InLedger base (ws ++ [a]) k acks) := by
  unfold writeObjectAddress
  refine Triple.look (fun s => ?_)
  split
  · refine Triple.bind (onHeap_ledger _) (fun glo => ?_)
    refine Triple.bind (check_ledger _) (fun _ => ?_)
    refine Triple.bind (writeGaddr_ledger _) (fun _ => ?_)
    exact Triple.ret _ (fun _ hs => hs)
  · refine Triple.bind (onHeap_ledger _) (fun a => ?_)
    refine Triple.bind (writeGaddr_ledger _) (fun _ => ?_)
    exact Triple.ret _ (fun _ hs => hs)

theorem writeObjectRef_ledger (tid : Fin n) (p : Pntr) :
    Triple (InLedger base ws k acks) (writeObjectRef tid p)
      (fun r => InLedger base (ws ++ r.addrs) k acks) := by
  unfold writeObjectRef
  refine Triple.look (fun s => ?_)
  split
  · refine Triple.bind (onHeap_ledger _) (fun glo => ?_)
    refine Triple.bind (check_ledger _) (fun _ => ?_)
    refine Triple.bind (check_ledger _) (fun _ => ?_)
    refine Triple.bind (writeGaddr_ledger _) (fun _ => ?_)
    exact Triple.ret _ (fun _ hs => hs)
  · refine Triple.bind (onHeap_ledger _) (fun a => ?_)
    refine Triple.bind (check_ledger _) (fun _ => ?_)
    refine Triple.bind (writeGaddr_ledger _) (fun _ => ?_)
    exact Triple.ret _ (fun _ hs => hs)

/-- The addresses of a reference that may not be there. -/
def simpleAddrs : Option (Ref n) → List (Gaddr n)
  | some r => r.addrs
  | none => []

theorem writeSimple_ledger (tid : Fin n) (p : Pntr) :
    Triple (InLedger base ws k acks) (writeSimple tid p)
      (fun r => InLedger base (ws ++ simpleAddrs r) k acks) := by
  unfold writeSimple
  refine Triple.look (fun s => ?_)
  have hnone : ∀ (r : Option (Ref n)), simpleAddrs r = [] →
      Triple (InLedger base ws k acks) (pure r : InterpM n (Option (Ref n)))
        (fun r => InLedger base (ws ++ simpleAddrs r) k acks) := by
    intro r hr
    refine Triple.ret r (fun s hs => ?_)
    rwa [hr, List.append_nil]
  cases p with
  | number d => exact hnone _ rfl
  | cell c i =>
    simp only
    split
    · exact hnone _ rfl
    · refine Triple.bind (onHeap_ledger _) (fun glo => ?_)
      refine Triple.bind (writeGaddr_ledger _) (fun _ => ?_)
      exact Triple.ret _ (fun _ hs => hs)
    · refine Triple.bind (onHeap_ledger _) (fun a => ?_)
      refine Triple.bind (writeGaddr_ledger _) (fun _ => ?_)
      exact Triple.ret _ (fun _ hs => hs)
    · exact Triple.fail
    · exact Triple.fail
    · exact hnone _ rfl

theorem writeRef_ledger (tid : Fin n) (p : Pntr) :
    Triple (InLedger base ws k acks) (writeRef tid p)
      (fun r => InLedger base (ws ++ r.addrs) k acks) := by
  unfold writeRef
  refine Triple.bind (onHeap_ledger _) (fun p => ?_)
  refine Triple.bind (writeSimple_ledger tid p) (fun r => ?_)
  cases r with
  | some r => exact Triple.ret r (fun _ hs => hs)
  | none =>
    refine (writeObjectRef_ledger tid p).conseq (fun s hs => ?_) (fun _ _ h => h)
    rwa [simpleAddrs, List.append_nil] at hs

theorem writeRefs_ledger (tid : Fin n) : ∀ (ps : List Pntr) {ws : List (Gaddr n)},
    Triple (InLedger base ws k acks) (writeRefs tid ps)
      (fun rs => InLedger base (ws ++ rs.flatMap Ref.addrs) k acks)
  | [], ws => by
    refine Triple.ret [] (fun s hs => ?_)
    rwa [List.flatMap_nil, List.append_nil]
  | p :: ps, ws => by
    refine Triple.bind (writeRef_ledger tid p) (fun r => ?_)
    refine Triple.bind (writeRefs_ledger tid ps) (fun rs => ?_)
    refine Triple.ret _ (fun s hs => ?_)
    rwa [List.flatMap_cons, ← List.append_assoc]

theorem writeElements_ledger (tid : Fin n) (els : Elements Pntr) :
    Triple (InLedger base ws k acks) (writeElements tid els)
      (fun r => InLedger base (ws ++ r.addrs) k acks) := by
  cases els with
  | bytes b =>
    refine Triple.ret _ (fun s hs => ?_)
    rwa [Elements.addrs, List.append_nil]
  | pntrs l =>
    refine Triple.bind (writeRefs_ledger tid l) (fun rs => ?_)
    exact Triple.ret _ (fun _ hs => hs)

theorem writeBuildarrayFrame_ledger (e : Env n) (tid : Fin n) (c index arr : Nat) (tail : Pntr) :
    Triple (InLedger base ws k acks) (writeBuildarrayFrame e tid c index arr tail)
      (fun o => InLedger base (ws ++ o.addrs) k acks) := by
  unfold writeBuildarrayFrame
  refine Triple.bind (writeObjectAddress_ledger tid _) (fun a => ?_)
  refine Triple.bind (writeRefs_ledger tid _) (fun data => ?_)
  refine Triple.ret _ (fun s hs => ?_)
  rw [List.append_assoc] at hs
  exact hs

theorem writeAref_ledger (e : Env n) (tid : Fin n) (c index arr : Nat) (tail : Pntr) :
    Triple (InLedger base ws k acks) (writeAref e tid c index arr tail)
      (fun o => InLedger base (ws ++ o.addrs) k acks) := by
  unfold writeAref arefArray
  refine Triple.bind (R := fun _ => InLedger base ws k acks) (Triple.look (fun s => ?_))
    (fun elements => ?_)
  · split
    · exact Triple.ret _ (fun _ hs => hs)
    · exact Triple.fail
  refine Triple.ite (fun _ => writeBuildarrayFrame_ledger e tid c index arr tail) (fun _ => ?_)
  refine Triple.bind (writeObjectAddress_ledger tid _) (fun a => ?_)
  refine Triple.bind (check_ledger _) (fun _ => ?_)
  refine Triple.bind (check_ledger _) (fun _ => ?_)
  refine Triple.bind (writeElements_ledger tid elements) (fun els => ?_)
  refine Triple.bind (writeRef_ledger tid tail) (fun t => ?_)
  refine Triple.bind (onHeap_ledger _) (fun _ => ?_)
  refine Triple.ret _ (fun s hs => ?_)
  simpa only [Obj.addrs, List.append_assoc, List.nil_append, List.cons_append] using hs

theorem writeArray_ledger (tid : Fin n) (c index : Nat) (elements : Elements Pntr) :
    Triple (InLedger base ws k acks) (writeArray tid c index elements)
      (fun o => InLedger base (ws ++ o.addrs) k acks) := by
  unfold writeArray
  refine Triple.bind (check_ledger _) (fun _ => ?_)
  refine Triple.bind (writeObjectAddress_ledger tid _) (fun a => ?_)
  refine Triple.bind (writeElements_ledger tid elements) (fun els => ?_)
  refine Triple.bind (onHeap_ledger _) (fun _ => ?_)
  refine Triple.ret _ (fun s hs => ?_)
  simpa only [Obj.addrs, List.append_assoc, List.nil_append, List.cons_append] using hs

theorem writeFrame_ledger (e : Env n) (tid : Fin n) (c index f : Nat) :
    Triple (InLedger base ws k acks) (writeFrame e tid c index f)
      (fun o => InLedger base (ws ++ o.addrs) k acks) := by
  unfold writeFrame
  refine Triple.bind (writeObjectAddress_ledger tid _) (fun a => ?_)
  refine Triple.bind (onHeap_ledger _) (fun fr => ?_)
  refine Triple.bind (check_ledger _) (fun _ => ?_)
  refine Triple.bind (check_ledger _) (fun _ => ?_)
  refine Triple.bind (check_ledger _) (fun _ => ?_)
  refine Triple.bind (check_ledger _) (fun _ => ?_)
  refine Triple.bind (check_ledger _) (fun _ => ?_)
  refine Triple.bind (writeGaddrs_ledger fr.wq.fetchers) (fun _ => ?_)
  refine Triple.bind (onHeap_ledger _) (fun _ => ?_)
  refine Triple.bind (writeRefs_ledger tid _) (fun data => ?_)
  refine Triple.ret _ (fun s hs => ?_)
  simpa only [Obj.addrs, List.append_assoc, List.nil_append, List.cons_append] using hs

theorem writeObject_ledger (e : Env n) (tid : Fin n) (c index : Nat) :
    Triple (InLedger base ws k acks) (writeObject e tid c index)
      (fun o => InLedger base (ws ++ o.addrs) k acks) := by
  unfold writeObject
  refine Triple.look (fun s => ?_)
  split
  · exact writeAref_ledger e tid c index _ _
  · exact writeArray_ledger tid c index _
  · refine Triple.bind (writeObjectAddress_ledger tid _) (fun a => ?_)
    refine Triple.bind (writeRef_ledger tid _) (fun h => ?_)
    refine Triple.bind (writeRef_ledger tid _) (fun t => ?_)
    refine Triple.ret _ (fun s hs => ?_)
    simpa only [Obj.addrs, List.append_assoc, List.nil_append, List.cons_append] using hs
  · exact writeFrame_ledger e tid c index _
  · refine Triple.bind (writeObjectAddress_ledger tid _) (fun a => ?_)
    refine Triple.bind (writeRefs_ledger tid _) (fun data => ?_)
    refine Triple.ret _ (fun s hs => ?_)
    simpa only [Obj.addrs, List.append_assoc, List.nil_append, List.cons_append] using hs
  · refine Triple.bind (writeObjectAddress_ledger tid _) (fun a => ?_)
    exact Triple.ret _ (fun _ hs => hs)
  · exact Triple.fail

/-- `write_pntr` accounts for the addresses of the object it writes, and for no other. -/
theorem writePntr_ledger (e : Env n) (tid : Fin n) (p : Pntr) :
    Triple (InLedger base ws k acks) (writePntr e tid p)
      (fun o => InLedger base (ws ++ o.addrs) k acks) := by
  unfold writePntr
  refine Triple.bind (onHeap_ledger _) (fun p => ?_)
  refine Triple.bind (writeSimple_ledger tid p) (fun r => ?_)
  cases r with
  | some r => exact Triple.ret _ (fun _ hs => hs)
  | none =>
    simp only [simpleAddrs, List.append_nil]
    cases p with
    | number d => exact Triple.fail
    | cell c index =>
      refine Triple.look (fun s => ?_)
      refine Triple.bind (Triple.when (fun _ => onHeap_ledger _) (fun _ _ hs => hs)) (fun _ => ?_)
      exact writeObject_ledger e tid c index

end Writing

/-! ## Sending and receiving -/

section Handling

variable {α : Type} {base : Acct n} {k : Nat} {acks : List (Fin n × Nat × Nat)}

/-- A message takes the addresses that were written for it. -/
theorem msgSend_ledger (dest : Fin n) (m : WMsg n) :
    Triple (InLedger base m.addrs k acks) (msgSend dest m)
      (fun _ => InLedger base [] k (acks ++ (ackOf (dest, m)).toList)) := by
  refine Triple.update (fun s hs => ⟨rfl, hs.naddrsread, fun d => ?_, fun d => ?_, ?_⟩)
  · have h := hs.addrs d
    simp only [Acct.account, Acct.post, sentLists_append, sentLists_single, hs.inflight]
    by_cases hd : d = dest <;> by_cases hm : m.addrs = [] <;> simp [hd, hm, h]
    all_goals (subst hd; simp [h])
  · have h := hs.counts d
    simp only [Acct.account, Acct.post, sentLists_append, sentLists_single, hs.inflight]
    by_cases hd : d = dest <;> by_cases hm : m.addrs = [] <;> simp [hd, hm, h]
    all_goals (subst hd; simp [h])
  · simp only [Acct.account, Acct.post, List.filterMap_append, hs.acks]
    cases h : ackOf (dest, m) <;> simp [h]

theorem msgSend_plain (dest : Fin n) {m : WMsg n} (hm : ackOf (dest, m) = none) :
    Triple (InLedger base m.addrs k acks) (msgSend dest m) (fun _ => InLedger base [] k acks) := by
  refine Triple.conseq (msgSend_ledger dest m) (fun s hs => hs) (fun _ s hs => ?_)
  rwa [hm, Option.toList_none, List.append_nil] at hs

theorem readGaddr_ledger {ws : List (Gaddr n)} :
    Triple (InLedger base ws k acks) readGaddr (fun _ => InLedger base ws (k + 1) acks) := by
  refine Triple.update (fun s hs => ?_)
  exact ⟨hs.inflight, by simp [hs.naddrsread], hs.addrs, hs.counts, hs.acks⟩

theorem readGaddrs_ledger : ∀ (as : List (Gaddr n)) {k : Nat},
    Triple (InLedger base [] k acks) (readGaddrs as)
      (fun _ => InLedger base [] (k + as.length) acks)
  | [], k => Triple.ret () (fun _ hs => hs)
  | a :: as, k => by
    refine Triple.bind readGaddr_ledger (fun _ => ?_)
    refine (readGaddrs_ledger as).conseq (fun s hs => hs) (fun _ s hs => ?_)
    rwa [Nat.add_assoc, Nat.add_comm 1] at hs

theorem readRef_ledger (tid : Fin n) (r : Ref n) :
    Triple (InLedger base [] k acks) (readRef tid r)
      (fun _ => InLedger base [] (k + r.addrs.length) acks) := by
  cases r with
  | number d => exact Triple.ret _ (fun _ hs => hs)
  | nil => exact Triple.ret _ (fun _ hs => hs)
  | remote a =>
    refine Triple.bind readGaddr_ledger (fun _ => ?_)
    refine Triple.look (fun s => ?_)
    split
    · refine Triple.bind (onHeap_ledger _) (fun glo => ?_)
      exact Triple.ret _ (fun _ hs => hs)
    · refine Triple.bind (check_ledger _) (fun _ => ?_)
      refine Triple.bind (onHeap_ledger _) (fun c => ?_)
      refine Triple.bind (onHeap_ledger _) (fun g => ?_)
      refine Triple.bind (onHeap_ledger _) (fun _ => ?_)
      exact Triple.ret _ (fun _ hs => hs)

theorem readRefs_ledger (tid : Fin n) : ∀ (rs : List (Ref n)) {k : Nat},
    Triple (InLedger base [] k acks) (readRefs tid rs)
      (fun _ => InLedger base [] (k + (rs.flatMap Ref.addrs).length) acks)
  | [], k => Triple.ret [] (fun _ hs => hs)
  | r :: rs, k => by
    refine Triple.bind (readRef_ledger tid r) (fun p => ?_)
    refine Triple.bind (readRefs_ledger tid rs) (fun ps => ?_)
    refine Triple.ret _ (fun s hs => ?_)
    rwa [List.flatMap_cons, List.length_append, ← Nat.add_assoc]

theorem readElements_ledger (tid : Fin n) (els : Elements (Ref n)) :
    Triple (InLedger base [] k acks) (readElements tid els)
      (fun _ => InLedger base [] (k + els.addrs.length) acks) := by
  cases els with
  | bytes b => exact Triple.ret _ (fun _ hs => hs)
  | pntrs l =>
    refine Triple.bind (readRefs_ledger tid l) (fun rs => ?_)
    exact Triple.ret _ (fun _ hs => hs)

theorem newObject_ledger (v : Cell n) :
    Triple (InLedger base [] k acks) (newObject v) (fun _ => InLedger base [] k acks) := by
  refine Triple.bind (onHeap_ledger _) (fun c => ?_)
  exact Triple.ret _ (fun _ hs => hs)

theorem readFrame_ledger (e : Env n) (tid : Fin n) (address : Nat) (fetchers : List (Gaddr n))
    (data : List (Ref n)) (origin : Option (Origin n)) :
    Triple (InLedger base [] k acks) (readFrame e tid address fetchers data origin)
      (fun _ => InLedger base [] (k + fetchers.length + (data.flatMap Ref.addrs).length) acks) := by
  unfold readFrame
  refine Triple.bind (onHeap_ledger _) (fun f => ?_)
  refine Triple.bind (onHeap_ledger _) (fun c => ?_)
  refine Triple.bind (readGaddrs_ledger fetchers) (fun _ => ?_)
  refine Triple.bind (check_ledger _) (fun _ => ?_)
  refine Triple.bind (readRefs_ledger tid data) (fun l => ?_)
  refine Triple.bind (onHeap_ledger _) (fun fr => ?_)
  refine Triple.bind (onHeap_ledger _) (fun _ => ?_)
  exact Triple.ret _ (fun _ hs => hs)

/-- The body of an object has all its addresses but the first. -/
theorem readBody_ledger (e : Env n) (tid : Fin n) (o : Obj n) :
    Triple (InLedger base [] k acks) (readBody e tid o)
      (fun _ => InLedger base [] (k + (o.addrs.length - 1)) acks) := by
  cases o with
  | ref r => exact Triple.fail
  | cons a head tail =>
    refine Triple.bind (readRef_ledger tid head) (fun h => ?_)
    refine Triple.bind (readRef_ledger tid tail) (fun t => ?_)
    refine (newObject_ledger _).conseq (fun s hs => hs) (fun _ s hs => ?_)
    simpa [Obj.addrs, Nat.add_assoc] using hs
  | aref a index elements tail =>
    refine Triple.bind (check_ledger _) (fun _ => ?_)
    refine Triple.bind (check_ledger _) (fun _ => ?_)
    refine Triple.bind (readElements_ledger tid elements) (fun els => ?_)
    refine Triple.bind (readRef_ledger tid tail) (fun t => ?_)
    refine Triple.bind (onHeap_ledger _) (fun arr => ?_)
    refine Triple.bind (onHeap_ledger _) (fun c => ?_)
    refine Triple.ret _ (fun s hs => ?_)
    simpa [Obj.addrs, Nat.add_assoc] using hs
  | array a elements =>
    refine Triple.bind (check_ledger _) (fun _ => ?_)
    refine Triple.bind (check_ledger _) (fun _ => ?_)
    refine Triple.bind (readElements_ledger tid elements) (fun els => ?_)
    refine (newObject_ledger _).conseq (fun s hs => hs) (fun _ s hs => ?_)
    simpa [Obj.addrs] using hs
  | frame a address fetchers data origin =>
    refine (readFrame_ledger e tid address fetchers data origin).conseq (fun s hs => hs)
      (fun _ s hs => ?_)
    simpa [Obj.addrs, Nat.add_assoc] using hs
  | cap a arity address fno fileno lineno data =>
    refine Triple.bind (check_ledger _) (fun _ => ?_)
    refine Triple.bind (readRefs_ledger tid data) (fun l => ?_)
    refine (newObject_ledger _).conseq (fun s hs => hs) (fun _ s hs => ?_)
    simpa [Obj.addrs] using hs
  | sysobject a type ownertid sockid =>
    refine Triple.bind (check_ledger _) (fun _ => ?_)
    exact newObject_ledger _

theorem respondAll_ledger (e : Env n) (tid : Fin n) (obj : Pntr) : ∀ fts : List (Gaddr n),
    Triple (InLedger base [] k acks) (respondAll e tid obj fts) (fun _ => InLedger base [] k acks)
  | [] => Triple.ret () (fun _ hs => hs)
  | ft :: fts => by
    unfold respondAll
    refine Triple.look (fun s => ?_)
    refine Triple.bind (check_ledger _) (fun _ => ?_)
    refine Triple.bind (writeGaddr_ledger ft) (fun _ => ?_)
    refine Triple.bind (writePntr_ledger e tid obj) (fun o => ?_)
    refine Triple.bind (msgSend_plain ft.tid (m := .respond ft o) rfl) (fun _ => ?_)
    exact respondAll_ledger e tid obj fts

theorem resumeWaiters_ledger (e : Env n) (tid : Fin n) (w : Waitable) (obj : Pntr) :
    Triple (InLedger base [] k acks) (resumeWaiters e tid w obj)
      (fun _ => InLedger base [] k acks) := by
  unfold resumeWaiters
  refine Triple.bind (onHeap_ledger _) (fun _ => ?_)
  refine Triple.bind (onHeap_ledger _) (fun wq => ?_)
  refine Triple.when (fun _ => ?_) (fun _ _ hs => hs)
  unfold resumeFetchers
  refine Triple.bind (onHeap_ledger _) (fun obj => ?_)
  refine Triple.bind (onHeap_ledger _) (fun wq => ?_)
  refine Triple.bind (respondAll_ledger e tid obj _) (fun _ => ?_)
  refine Triple.bind (onHeap_ledger _) (fun wq => ?_)
  exact onHeap_ledger _

theorem responseForFetchingRef_ledger (e : Env n) (tid : Fin n) (target : Nat) (obj : Pntr) :
    Triple (InLedger base [] k acks) (responseForFetchingRef e tid target obj)
      (fun _ => InLedger base [] k acks) := by
  unfold responseForFetchingRef
  refine Triple.bind (onHeap_ledger _) (fun wq => ?_)
  refine Triple.bind (onHeap_ledger _) (fun _ => ?_)
  refine Triple.look (fun s => ?_)
  refine Triple.bind (check_ledger _) (fun _ => ?_)
  refine Triple.bind (resumeWaiters_ledger e tid _ obj) (fun _ => ?_)
  refine Triple.look (fun s => ?_)
  split
  · refine Triple.bind (onHeap_ledger _) (fun _ => ?_)
    exact onHeap_ledger _
  · exact Triple.ret () (fun _ hs => hs)

theorem mergeObject_ledger (e : Env n) (tid : Fin n) (addr : Gaddr n) (p : Pntr) :
    Triple (InLedger base [] k acks) (mergeObject e tid addr p)
      (fun _ => InLedger base [] k acks) := by
  unfold mergeObject
  refine Triple.look (fun s => ?_)
  split
  · refine Triple.bind (check_ledger _) (fun _ => ?_)
    refine Triple.bind (check_ledger _) (fun _ => ?_)
    refine Triple.bind (onHeap_ledger _) (fun _ => ?_)
    exact Triple.ret _ (fun _ hs => hs)
  · refine Triple.bind (onHeap_ledger _) (fun existing => ?_)
    split
    · refine Triple.bind (onHeap_ledger _) (fun li => ?_)
      refine Triple.bind (check_ledger _) (fun _ => ?_)
      refine Triple.bind (Triple.when (fun _ => responseForFetchingRef_ledger e tid _ p)
        (fun _ _ hs => hs)) (fun _ => ?_)
      refine Triple.bind (onHeap_ledger _) (fun _ => ?_)
      exact Triple.ret _ (fun _ hs => hs)
    · exact Triple.ret _ (fun _ hs => hs)

theorem ownSysobject_ledger (tid : Fin n) (addr : Gaddr n) (p : Pntr) :
    Triple (InLedger base [] k acks) (ownSysobject tid addr p)
      (fun _ => InLedger base [] k acks) := by
  unfold ownSysobject
  refine Triple.look (fun s => ?_)
  split
  · refine Triple.ite (fun _ => ?_) (fun _ => Triple.ret _ (fun _ hs => hs))
    refine Triple.bind (need_ledger _) (fun g => ?_)
    refine Triple.bind (onHeap_ledger _) (fun existing => ?_)
    split
    · exact Triple.ret _ (fun _ hs => hs)
    · exact Triple.fail
  · exact Triple.ret _ (fun _ hs => hs)

/-- The reader counts the addresses that the writer wrote. -/
theorem readPntr_ledger (e : Env n) (tid : Fin n) (o : Obj n) :
    Triple (InLedger base [] k acks) (readPntr e tid o)
      (fun _ => InLedger base [] (k + o.addrs.length) acks) := by
  have hobj : 0 < o.addrs.length → Triple (InLedger base [] k acks)
      (do
        readGaddr
        let p ← readBody e tid o
        let addr ← need o.address
        let p ← ownSysobject tid addr p
        mergeObject e tid addr p)
      (fun _ => InLedger base [] (k + o.addrs.length) acks) := by
    intro hlen
    refine Triple.bind readGaddr_ledger (fun _ => ?_)
    refine Triple.bind (readBody_ledger e tid o) (fun p => ?_)
    have hk : k + 1 + (o.addrs.length - 1) = k + o.addrs.length := by omega
    rw [hk]
    refine Triple.bind (need_ledger _) (fun addr => ?_)
    refine Triple.bind (ownSysobject_ledger tid addr p) (fun p => ?_)
    exact mergeObject_ledger e tid addr p
  cases o with
  | ref r => exact readRef_ledger tid r
  | cons _ _ _ => exact hobj (Nat.succ_pos _)
  | aref _ _ _ _ => exact hobj (Nat.succ_pos _)
  | array _ _ => exact hobj (Nat.succ_pos _)
  | frame _ _ _ _ _ => exact hobj (Nat.succ_pos _)
  | cap _ _ _ _ _ _ _ => exact hobj (Nat.succ_pos _)
  | sysobject _ _ _ _ => exact hobj (Nat.succ_pos _)

theorem startAddressReading_ledger :
    Triple (InLedger base [] k acks) startAddressReading
      (fun _ s => k = 0 ∧ InLedger base [] k acks s) := by
  refine Triple.read (fun s hs => Triple.check (fun h0 s' he => ?_))
  rw [he]
  exact ⟨hs.naddrsread ▸ h0, hs⟩

/-- The acknowledgement of a message with `k` addresses. -/
def ackFor (src : Fin n) (k : Nat) : List (Fin n × Nat × Nat) := if 0 < k then [(src, 1, k)] else []

theorem finishAddressReading_ledger (src : Fin n) (tag : Tag) :
    Triple (InLedger base [] k acks) (finishAddressReading src tag)
      (fun _ => InLedger base [] 0 (acks ++ ackFor src k)) := by
  refine Triple.read (fun s hs => ?_)
  have hk : s.acct.naddrsread = k := hs.naddrsread
  refine Triple.bind (R := fun _ => InLedger base [] k (acks ++ ackFor src k))
    (Triple.when (fun hpos => ?_) (fun hpos s' he => ?_)) (fun _ => ?_)
  · rw [hk] at hpos ⊢
    have hsend : Triple (InLedger base [] k acks) (msgSend src (.ack 1 k tag))
        (fun _ => InLedger base [] k (acks ++ [(src, 1, k)])) :=
      msgSend_ledger src (.ack 1 k tag)
    refine hsend.conseq (fun s' he => ?_) (fun _ s' h => ?_)
    · rw [he]
      exact hs
    · rwa [ackFor, if_pos hpos]
  · rw [hk] at hpos
    rw [he, ackFor, if_neg hpos, List.append_nil]
    exact hs
  · refine Triple.update (fun s' hs' => ?_)
    exact ⟨hs'.inflight, rfl, hs'.addrs, hs'.counts, hs'.acks⟩

theorem scheduleFrame_ledger {ws : List (Gaddr n)} (e : Env n) (tid : Fin n) (f : Nat) :
    Triple (InLedger base ws k acks) (scheduleFrame e tid f)
      (fun item => InLedger base (ws ++ itemAddrs item) k acks) := by
  unfold scheduleFrame
  refine Triple.bind (onHeap_ledger _) (fun c => ?_)
  refine Triple.bind (onHeap_ledger _) (fun fr => ?_)
  refine Triple.bind (Triple.when (fun _ => onHeap_ledger _) (fun _ _ hs => hs)) (fun _ => ?_)
  refine Triple.bind (onHeap_ledger _) (fun _ => ?_)
  refine Triple.look (fun s => ?_)
  split
  · refine Triple.bind (onHeap_ledger _) (fun refaddr => ?_)
    refine Triple.bind (writeGaddr_ledger refaddr) (fun _ => ?_)
    refine Triple.bind (writePntr_ledger e tid _) (fun o => ?_)
    refine Triple.look (fun s => ?_)
    refine Triple.bind (need_ledger _) (fun g => ?_)
    refine Triple.bind (onHeap_ledger _) (fun glo => ?_)
    refine Triple.bind (check_ledger _) (fun _ => ?_)
    refine Triple.bind (check_ledger _) (fun _ => ?_)
    refine Triple.bind (onHeap_ledger _) (fun _ => ?_)
    refine Triple.bind (onHeap_ledger _) (fun _ => ?_)
    refine Triple.bind (onHeap_ledger _) (fun _ => ?_)
    refine Triple.ret _ (fun s hs => ?_)
    simpa only [itemAddrs, List.append_assoc, List.nil_append, List.cons_append] using hs
  · refine Triple.bind (onHeap_ledger _) (fun glo => ?_)
    refine Triple.bind (writeGaddr_ledger _) (fun _ => ?_)
    refine Triple.bind (writePntr_ledger e tid _) (fun o => ?_)
    refine Triple.bind (onHeap_ledger _) (fun _ => ?_)
    refine Triple.bind (onHeap_ledger _) (fun _ => ?_)
    refine Triple.ret _ (fun s hs => ?_)
    simpa only [itemAddrs, List.append_assoc, List.nil_append, List.cons_append] using hs

theorem scheduleSparks_ledger (e : Env n) (tid : Fin n) : ∀ (j : Nat) {ws : List (Gaddr n)},
    Triple (InLedger base ws k acks) (scheduleSparks e tid j)
      (fun items => InLedger base (ws ++ items.flatMap itemAddrs) k acks)
  | 0, ws => by
    refine Triple.ret _ (fun s hs => ?_)
    rwa [List.flatMap_nil, List.append_nil]
  | j + 1, ws => by
    unfold scheduleSparks
    refine Triple.look (fun s => ?_)
    split
    · refine Triple.ret _ (fun s hs => ?_)
      rwa [List.flatMap_nil, List.append_nil]
    · refine Triple.bind (onHeap_ledger _) (fun fr => ?_)
      refine Triple.bind (check_ledger _) (fun _ => ?_)
      refine Triple.bind (scheduleFrame_ledger e tid _) (fun item => ?_)
      refine Triple.bind (scheduleSparks_ledger e tid j) (fun items => ?_)
      refine Triple.ret _ (fun s hs => ?_)
      rwa [List.flatMap_cons, ← List.append_assoc]

/-- A SCHEDULE message with the sparks that have just been written, if there are any. -/
theorem sendSparks_ledger (dest : Fin n) (items : List (Gaddr n × Obj n)) {rest : InterpM n Unit}
    (hrest : items = [] →
      Triple (InLedger base [] k acks) rest (fun _ => InLedger base [] k acks)) :
    Triple (InLedger base ([] ++ items.flatMap itemAddrs) k acks)
      (if items ≠ [] then msgSend dest (.schedule items) else rest)
      (fun _ => InLedger base [] k acks) := by
  refine Triple.ite (fun _ => msgSend_plain dest (m := .schedule items) rfl) (fun hnil => ?_)
  have hnil : items = [] := not_not.mp hnil
  have := hrest hnil
  rwa [hnil]

theorem answerFish_ledger (e : Env n) (tid reqtsk dest : Fin n) (age : Int) (nframes : Nat) :
    Triple (InLedger base [] k acks) (answerFish e tid reqtsk dest age nframes)
      (fun _ => InLedger base [] k acks) := by
  unfold answerFish
  refine Triple.bind (scheduleSparks_ledger e tid nframes) (fun items => ?_)
  refine sendSparks_ledger reqtsk items (fun _ => ?_)
  refine Triple.ite (fun _ => ?_) (fun _ => Triple.ret () (fun _ hs => hs))
  refine Triple.bind (check_ledger _) (fun _ => ?_)
  exact msgSend_plain dest (m := .fish reqtsk (age - 1)) rfl

theorem interpreterFish_ledger (e : Env n) (tid src reqtsk dest : Fin n) (age : Int) :
    Triple (InLedger base [] 0 []) (interpreterFish e tid src reqtsk dest age)
      (fun _ => InLedger base [] 0 []) := by
  unfold interpreterFish
  refine Triple.bind startAddressReading_ledger (fun _ => Triple.pure_pre (fun _ => ?_))
  refine Triple.bind (finishAddressReading_ledger src .fish) (fun _ => ?_)
  refine Triple.look (fun s => ?_)
  refine Triple.ite (fun _ => answerFish_ledger e tid reqtsk dest age _) (fun _ => ?_)
  refine Triple.ite (fun _ => Triple.ret () (fun _ hs => hs)) (fun _ => ?_)
  exact answerFish_ledger e tid reqtsk dest age _

theorem respondWith_ledger (e : Env n) (tid src : Fin n) (store : Gaddr n) (obj : Pntr) :
    Triple (InLedger base [] k acks) (respondWith e tid src store obj)
      (fun _ => InLedger base [] k acks) := by
  unfold respondWith
  refine Triple.bind (writeGaddr_ledger store) (fun _ => ?_)
  refine Triple.bind (writePntr_ledger e tid obj) (fun o => ?_)
  exact msgSend_plain src (m := .respond store o) rfl

theorem interpreterFetch_ledger (e : Env n) (tid src : Fin n) (target store : Gaddr n) :
    Triple (InLedger base [] 0 []) (interpreterFetch e tid src target store)
      (fun _ => InLedger base [] 0 (ackFor src 2)) := by
  unfold interpreterFetch
  refine Triple.bind startAddressReading_ledger (fun _ => Triple.pure_pre (fun _ => ?_))
  refine Triple.bind readGaddr_ledger (fun _ => ?_)
  refine Triple.bind readGaddr_ledger (fun _ => ?_)
  refine Triple.bind (finishAddressReading_ledger src .fetch) (fun _ => ?_)
  refine Triple.bind (check_ledger _) (fun _ => ?_)
  refine Triple.bind (check_ledger _) (fun _ => ?_)
  refine Triple.look (fun s => ?_)
  refine Triple.bind (need_ledger _) (fun g => ?_)
  refine Triple.bind (onHeap_ledger _) (fun fetchglo => ?_)
  refine Triple.bind (onHeap_ledger _) (fun obj => ?_)
  split
  · exact respondWith_ledger e tid src store obj
  · rename_i f _
    refine Triple.bind (onHeap_ledger _) (fun fr => ?_)
    have hsend : Triple (InLedger base [] 0 ([] ++ ackFor src (0 + 1 + 1)))
        (do
          let c ← need fr.c
          onHeap (unsparkFrame f)
          respondWith e tid src store obj
          onHeap (frameSent tid store f c))
        (fun _ => InLedger base [] 0 (ackFor src 2)) := by
      refine Triple.bind (need_ledger _) (fun c => ?_)
      refine Triple.bind (onHeap_ledger _) (fun _ => ?_)
      refine Triple.bind (respondWith_ledger e tid src store obj) (fun _ => ?_)
      exact onHeap_ledger _
    split
    · exact onHeap_ledger _
    · exact hsend
    · exact hsend
    · exact respondWith_ledger e tid src store obj

theorem storeResponse_ledger (e : Env n) (tid src : Fin n) (target : Nat) (o : Obj n) :
    Triple (InLedger base [] k acks) (storeResponse e tid src target o)
      (fun _ => InLedger base [] 0 (acks ++ ackFor src (k + o.addrs.length))) := by
  unfold storeResponse
  refine Triple.bind (onHeap_ledger _) (fun glo => ?_)
  refine Triple.bind (check_ledger _) (fun _ => ?_)
  refine Triple.bind (onHeap_ledger _) (fun _ => ?_)
  refine Triple.bind (readPntr_ledger e tid o) (fun obj => ?_)
  refine Triple.bind (finishAddressReading_ledger src .respond) (fun _ => ?_)
  refine Triple.look (fun s => ?_)
  refine Triple.bind (Triple.when (fun _ => onHeap_ledger _) (fun _ _ hs => hs)) (fun _ => ?_)
  exact responseForFetchingRef_ledger e tid target obj

theorem interpreterRespond_ledger (e : Env n) (tid src : Fin n) (store : Gaddr n) (o : Obj n) :
    Triple (InLedger base [] 0 []) (interpreterRespond e tid src store o)
      (fun _ => InLedger base [] 0 (ackFor src (store :: o.addrs).length)) := by
  have hlen : (store :: o.addrs).length = 0 + 1 + o.addrs.length := by
    simp only [List.length_cons]
    omega
  rw [hlen]
  unfold interpreterRespond
  refine Triple.bind (check_ledger _) (fun _ => ?_)
  refine Triple.bind startAddressReading_ledger (fun _ => Triple.pure_pre (fun _ => ?_))
  refine Triple.bind readGaddr_ledger (fun _ => ?_)
  refine Triple.bind (check_ledger _) (fun _ => ?_)
  refine Triple.look (fun s => ?_)
  refine Triple.bind (need_ledger _) (fun r => ?_)
  refine Triple.bind (onHeap_ledger _) (fun reference => ?_)
  split
  · unfold ignoreResponse
    refine Triple.bind (onHeap_ledger _) (fun _ => ?_)
    refine Triple.bind (readPntr_ledger e tid o) (fun _ => ?_)
    exact finishAddressReading_ledger src .respond
  · refine Triple.bind (check_ledger _) (fun _ => ?_)
    exact storeResponse_ledger e tid src _ o

theorem receiveFrames_ledger (e : Env n) (tid : Fin n) : ∀ (items : List (Gaddr n × Obj n))
    {k : Nat}, Triple (InLedger base [] k acks) (receiveFrames e tid items)
      (fun _ => InLedger base [] (k + (items.flatMap itemAddrs).length) acks)
  | [], k => Triple.ret () (fun _ hs => hs)
  | (srcaddr, o) :: rest, k => by
    unfold receiveFrames receiveFrame
    have hrec : Triple (InLedger base [] k acks)
        (do
          readGaddr
          let framep ← readPntr e tid o
          let s ← get
          let f ← need (s.heap.frameOf framep)
          onHeap (addFetcherUnique (.frame f) srcaddr)
          onHeap (resolveLocalFetchers tid f)
          onHeap (runFrameAfterFirst f))
        (fun _ => InLedger base [] (k + 1 + o.addrs.length) acks) := by
      refine Triple.bind readGaddr_ledger (fun _ => ?_)
      refine Triple.bind (readPntr_ledger e tid o) (fun framep => ?_)
      refine Triple.look (fun s => ?_)
      refine Triple.bind (need_ledger _) (fun f => ?_)
      refine Triple.bind (onHeap_ledger _) (fun _ => ?_)
      refine Triple.bind (onHeap_ledger _) (fun _ => ?_)
      exact onHeap_ledger _
    refine Triple.bind hrec (fun _ => ?_)
    refine (receiveFrames_ledger e tid rest).conseq (fun s hs => hs) (fun _ s hs => ?_)
    simpa [itemAddrs, Nat.add_assoc, Nat.add_comm 1] using hs

theorem interpreterSchedule_ledger (e : Env n) (tid src : Fin n) (items : List (Gaddr n × Obj n)) :
    Triple (InLedger base [] 0 []) (interpreterSchedule e tid src items)
      (fun _ => InLedger base [] 0 (ackFor src (items.flatMap itemAddrs).length)) := by
  unfold interpreterSchedule
  refine Triple.bind startAddressReading_ledger (fun _ => Triple.pure_pre (fun _ => ?_))
  refine Triple.bind (receiveFrames_ledger e tid items) (fun _ => ?_)
  refine (finishAddressReading_ledger src .schedule).conseq (fun s hs => hs) (fun _ s hs => ?_)
  rwa [Nat.zero_add, List.nil_append] at hs

theorem distributeTo_ledger (e : Env n) (tid : Fin n) (dist : Fin n → Nat) : ∀ dests : List (Fin n),
    Triple (InLedger base [] k acks) (distributeTo e tid dist dests)
      (fun _ => InLedger base [] k acks)
  | [] => Triple.ret () (fun _ hs => hs)
  | dest :: dests => by
    unfold distributeTo
    refine Triple.bind (scheduleSparks_ledger e tid _) (fun items => ?_)
    refine Triple.bind (R := fun _ => InLedger base [] k acks) ?_
      (fun _ => distributeTo_ledger e tid dist dests)
    exact sendSparks_ledger dest items (fun _ => Triple.ret () (fun _ hs => hs))

theorem sendRaw_ledger {m : List (Gaddr n) → WMsg n} (hm : ∀ l, (m l).addrs = [])
    (ha : ∀ d l, ackOf (d, m l) = none) : ∀ l : List (Fin n × List (Gaddr n)),
    Triple (InLedger base [] k acks) (sendRaw m l) (fun _ => InLedger base [] k acks)
  | [] => Triple.ret () (fun _ hs => hs)
  | (d, addrs) :: l => by
    unfold sendRaw
    refine Triple.bind ?_ (fun _ => sendRaw_ledger hm ha l)
    have hsend : Triple (InLedger base (m addrs).addrs k acks) (msgSend d (m addrs))
        (fun _ => InLedger base [] k acks) := msgSend_plain d (ha d addrs)
    rwa [hm] at hsend

theorem postRaw_ledger {m : List (Gaddr n) → WMsg n} (hm : ∀ l, (m l).addrs = [])
    (ha : ∀ d l, ackOf (d, m l) = none) : ∀ l : List (Fin n × List (Gaddr n)),
    Triple (InLedger base [] k acks) (postRaw m l) (fun _ => InLedger base [] k acks)
  | [] => Triple.ret () (fun _ hs => hs)
  | (d, addrs) :: l => by
    unfold postRaw
    refine Triple.bind (Triple.update (fun s hs => ?_)) (fun _ => postRaw_ledger hm ha l)
    refine ⟨hs.inflight, hs.naddrsread, fun d' => ?_, fun d' => ?_, ?_⟩
    · simpa [Acct.post, sentLists_append, sentLists_single, hm] using hs.addrs d'
    · simpa [Acct.post, sentLists_append, sentLists_single, hm] using hs.counts d'
    · simpa [Acct.post, ha] using hs.acks

theorem readMarks_ledger (src : Fin n) (addrs : List (Gaddr n)) :
    Triple (InLedger base [] 0 []) (readMarks src addrs)
      (fun _ => InLedger base [] 0 (ackFor src addrs.length)) := by
  unfold readMarks
  refine Triple.bind startAddressReading_ledger (fun _ => Triple.pure_pre (fun _ => ?_))
  refine Triple.bind (readGaddrs_ledger addrs) (fun _ => ?_)
  refine (finishAddressReading_ledger src .markentry).conseq (fun s hs => hs) (fun _ s hs => ?_)
  rwa [Nat.zero_add, List.nil_append] at hs

/-! ## Evaluation -/

theorem sendFetch_ledger (tid : Fin n) (target : Nat) (ref : Pntr) :
    Triple (InLedger base [] k acks) (sendFetch tid target ref)
      (fun _ => InLedger base [] k acks) := by
  unfold sendFetch
  refine Triple.bind (onHeap_ledger _) (fun glo => ?_)
  refine Triple.bind (check_ledger _) (fun _ => ?_)
  refine Triple.bind (onHeap_ledger _) (fun storeaddr => ?_)
  refine Triple.bind (check_ledger _) (fun _ => ?_)
  refine Triple.bind (writeGaddr_ledger _) (fun _ => ?_)
  refine Triple.bind (writeGaddr_ledger _) (fun _ => ?_)
  refine Triple.bind (msgSend_plain _ (m := .fetch glo.addr storeaddr) rfl) (fun _ => ?_)
  refine Triple.bind (onHeap_ledger _) (fun glo => ?_)
  exact onHeap_ledger _

theorem evalRemoteref_ledger (tid : Fin n) (f target : Nat) (ref : Pntr) :
    Triple (InLedger base [] k acks) (evalRemoteref tid f target ref)
      (fun _ => InLedger base [] k acks) := by
  unfold evalRemoteref
  refine Triple.bind (onHeap_ledger _) (fun glo => ?_)
  refine Triple.bind (Triple.when (fun _ => sendFetch_ledger tid target ref) (fun _ _ hs => hs))
    (fun _ => ?_)
  refine Triple.look (fun s => ?_)
  refine Triple.bind (check_ledger _) (fun _ => ?_)
  refine Triple.bind (onHeap_ledger _) (fun _ => ?_)
  refine Triple.bind (onHeap_ledger _) (fun _ => ?_)
  exact onHeap_ledger _

theorem frameEnds_ledger (e : Env n) (tid : Fin n) (f : Nat) (val : Pntr) :
    Triple (InLedger base [] k acks) (frameEnds e tid f val)
      (fun _ => InLedger base [] k acks) := by
  unfold frameEnds
  refine Triple.bind (onHeap_ledger _) (fun _ => ?_)
  refine Triple.bind (resumeWaiters_ledger e tid _ val) (fun _ => ?_)
  exact onHeap_ledger _

theorem frameReturn_ledger (e : Env n) (tid : Fin n) (f : Nat) (val : Pntr) :
    Triple (InLedger base [] k acks) (frameReturn e tid f val)
      (fun _ => InLedger base [] k acks) := by
  unfold frameReturn
  refine Triple.bind (onHeap_ledger _) (fun fr => ?_)
  split
  · refine Triple.bind (check_ledger _) (fun _ => ?_)
    refine Triple.look (fun s => ?_)
    refine Triple.bind (check_ledger _) (fun _ => ?_)
    refine Triple.bind (onHeap_ledger _) (fun _ => ?_)
    refine Triple.bind (onHeap_ledger _) (fun _ => ?_)
    exact frameEnds_ledger e tid f val
  · refine Triple.bind (need_ledger _) (fun cs => ?_)
    refine Triple.bind (onHeap_ledger _) (fun cf => ?_)
    refine Triple.bind (onHeap_ledger _) (fun _ => ?_)
    refine Triple.bind (onHeap_ledger _) (fun fr => ?_)
    refine Triple.bind (onHeap_ledger _) (fun _ => ?_)
    exact frameEnds_ledger e tid f val

theorem returnCap_ledger (e : Env n) (tid : Fin n) (f arity address fno fileno lineno : Nat)
    (data : List Pntr) :
    Triple (InLedger base [] k acks) (returnCap e tid f arity address fno fileno lineno data)
      (fun _ => InLedger base [] k acks) := by
  unfold returnCap
  refine Triple.bind (onHeap_ledger _) (fun fr => ?_)
  split
  · refine Triple.bind (onHeap_ledger _) (fun _ => ?_)
    refine Triple.bind (onHeap_ledger _) (fun _ => ?_)
    exact frameEnds_ledger e tid f _
  · refine Triple.bind (onHeap_ledger _) (fun c => ?_)
    refine Triple.bind (need_ledger _) (fun cs => ?_)
    refine Triple.bind (onHeap_ledger _) (fun cf => ?_)
    refine Triple.bind (onHeap_ledger _) (fun _ => ?_)
    refine Triple.bind (onHeap_ledger _) (fun fr => ?_)
    refine Triple.bind (onHeap_ledger _) (fun _ => ?_)
    exact frameEnds_ledger e tid f _

theorem act_ledger (e : Env n) (tid : Fin n) (a : Action n) :
    Triple (InLedger base [] k acks) (act e tid a) (fun _ => InLedger base [] k acks) := by
  cases a with
  | mkframe f instr slot data => exact Triple.bind (onHeap_ledger _) (fun _ => onHeap_ledger _)
  | call f instr slot data => exact Triple.bind (onHeap_ledger _) (fun _ => onHeap_ledger _)
  | spark f slot => exact Triple.bind (onHeap_ledger _) (fun _ => onHeap_ledger _)
  | eval f slot =>
    refine Triple.bind (onHeap_ledger _) (fun _ => ?_)
    unfold opEval
    refine Triple.bind (onHeap_ledger _) (fun fr => ?_)
    refine Triple.bind (onHeap_ledger _) (fun p => ?_)
    refine Triple.bind (onHeap_ledger _) (fun _ => ?_)
    refine Triple.look (fun s => ?_)
    split
    · refine Triple.bind (onHeap_ledger _) (fun _ => ?_)
      exact Triple.bind (onHeap_ledger _) (fun _ => onHeap_ledger _)
    · exact evalRemoteref_ledger tid f _ p
    · exact Triple.ret () (fun _ hs => hs)
  | ret f slot => exact Triple.bind (onHeap_ledger _) (fun fr => frameReturn_ledger e tid f _)
  | retCap f arity address fno fileno lineno data =>
    exact Triple.bind (onHeap_ledger _)
      (fun _ => returnCap_ledger e tid f arity address fno fileno lineno data)
  | finish f => exact onHeap_ledger _
  | migrate f dest =>
    refine Triple.bind (onHeap_ledger _) (fun fr => ?_)
    refine Triple.bind (check_ledger _) (fun _ => ?_)
    unfold migrateTo
    refine Triple.bind (onHeap_ledger _) (fun _ => ?_)
    refine Triple.bind (scheduleFrame_ledger e tid f) (fun item => ?_)
    refine (msgSend_plain dest (m := .schedule [item]) rfl).conseq (fun s hs => ?_) (fun _ _ h => h)
    simpa [WMsg.addrs] using hs
  | postpone f =>
    refine Triple.bind (onHeap_ledger _) (fun fr => ?_)
    exact Triple.bind (check_ledger _) (fun _ => onHeap_ledger _)
  | startRunning f slot =>
    refine Triple.bind (onHeap_ledger _) (fun fr => ?_)
    unfold startFrameRunning
    refine Triple.bind (onHeap_ledger _) (fun p => ?_)
    refine Triple.look (fun s => ?_)
    split
    · exact onHeap_ledger _
    · exact Triple.bind (sendFetch_ledger tid _ p) (fun _ => onHeap_ledger _)
    · exact Triple.ret () (fun _ hs => hs)
  | suspend f => exact onHeap_ledger _
  | findSpark f => exact onHeap_ledger _
  | fish dest =>
    refine Triple.look (fun s => ?_)
    refine Triple.bind (check_ledger _) (fun _ => ?_)
    exact msgSend_plain dest (m := .fish tid n) rfl

end Handling

/-! ## What a message handler leaves -/

/-- Nothing is written, read or sent. -/
structure Acct.Settled (a : Acct n) : Prop where
  inflight : a.inflight = []
  naddrsread : a.naddrsread = 0
  sent : a.sent = []

theorem Acct.Settled.ledger {a : Acct n} (h : a.Settled) : Ledger a [] 0 [] a := by
  refine ⟨h.inflight, h.naddrsread, fun d => ?_, fun d => ?_, ?_⟩
  · simp [h.sent, sentLists]
  · simp [h.sent, sentLists]
  · simp [h.sent]

/-- The accounting after a message has been taken: an ACK removes what it acknowledges. -/
def Acct.take (src : Fin n) (m : WMsg n) (a : Acct n) : Acct n :=
  match m with
  | .ack count _ _ => a.removeAcked src count
  | _ => a

theorem handleMessage_ledger (e : Env n) (tid src dest : Fin n) (deleted : List (Gaddr n))
    (m : WMsg n) {base : Acct n} (hb : base.Settled) :
    Triple (fun s => s.acct = base) (handleMessage e tid src dest deleted m)
      (fun _ => InLedger (base.take src m) [] 0 (ackFor src m.addrs.length)) := by
  have hpre : ∀ s : Interp n, s.acct = base → InLedger base [] 0 [] s := by
    intro s hs
    rw [InLedger, hs]
    exact hb.ledger
  cases m with
  | fish reqtsk age =>
    exact (interpreterFish_ledger e tid src reqtsk dest age).conseq hpre (fun _ _ h => h)
  | fetch target store =>
    exact (interpreterFetch_ledger e tid src target store).conseq hpre (fun _ _ h => h)
  | respond store o =>
    exact (interpreterRespond_ledger e tid src store o).conseq hpre (fun _ _ h => h)
  | schedule items =>
    exact (interpreterSchedule_ledger e tid src items).conseq hpre (fun _ _ h => h)
  | ack count naddrs fromtype =>
    have hcheck : ∀ (b : Prop) [Decidable b],
        Triple (fun s : Interp n => s.acct = base) (check b) (fun _ s => s.acct = base) :=
      fun b _ => Triple.check (fun _ _ hs => hs)
    unfold handleMessage interpreterAck
    refine Triple.bind (hcheck _) (fun _ => ?_)
    refine Triple.look (fun s => ?_)
    refine Triple.bind (hcheck _) (fun _ => ?_)
    refine Triple.bind (hcheck _) (fun _ => ?_)
    refine Triple.bind (hcheck _) (fun _ => ?_)
    refine Triple.bind (hcheck _) (fun _ => ?_)
    refine Triple.update (fun s hs => ?_)
    show Ledger (base.removeAcked src count) [] 0 [] (s.acct.removeAcked src count)
    rw [hs]
    exact Acct.Settled.ledger ⟨hb.inflight, hb.naddrsread, hb.sent⟩
  | haveReplicas l =>
    refine (Triple.when (fun _ => ?_) (fun _ _ hs => hs) :
      Triple (InLedger base [] 0 []) _ (fun _ => InLedger base [] 0 [])).conseq hpre (fun _ _ h => h)
    exact msgSend_plain src (m := .deleteReplicas deleted) rfl
  | deleteReplicas l => exact Triple.ret () hpre
  | checkrefs l => exact Triple.ret () hpre

end Runtime
end NReduce
