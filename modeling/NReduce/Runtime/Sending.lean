import NReduce.Runtime.Handlers

/-!
# NReduce.Runtime.Sending

Which messages the handlers of a task send. FETCH requests of other tasks wait for frames, never for
globals (`Heap.Plain`), so a handler that wakes who waits for a global sends nothing.

* `Sending S`: in the middle of a handler, every message sent so far is in `S`.
* for each handler, that it keeps `Sending S` when `S` has the messages that it can send; for FISH,
  FETCH and DISTRIBUTE also under conditions that leave only acknowledgements.
-/

namespace NReduce
namespace Runtime

open Logic Network

variable {n : Nat}

/-! ## What the handlers keep -/

/-- No other task waits for a global: FETCH requests wait for frames. -/
def Heap.Plain (h : Heap n) : Prop := ∀ g glo, h.globals g = some glo → glo.wq.fetchers = []

theorem Heap.Plain.congr {h h' : Heap n} (hp : h.Plain) (hg : h'.globals = h.globals) :
    h'.Plain := by
  intro g glo
  rw [hg]
  exact hp g glo

theorem Heap.Plain.update {h h' : Heap n} (hp : h.Plain) {g : Nat} {v : Global n}
    (hv : v.wq.fetchers = []) (hg : h'.globals = Function.update h.globals g (some v)) :
    h'.Plain := by
  intro g' glo hglo
  rw [hg] at hglo
  by_cases hgg : g' = g
  · rw [hgg, Function.update_self] at hglo
    cases hglo
    exact hv
  · rw [Function.update_of_ne hgg] at hglo
    exact hp g' glo hglo

section Heap

theorem resolvePntr_plain (p : Pntr) : Keeps Heap.Plain (resolvePntr (n := n) p) := by
  unfold resolvePntr
  exact Keeps.look (fun h => Keeps.need _)

theorem setCell_plain (c : Nat) (v : Cell n) : Keeps Heap.Plain (setCell c v) :=
  Keeps.update (fun _ hp => hp.congr rfl)

theorem allocCell_plain (v : Cell n) : Keeps Heap.Plain (allocCell v) := by
  unfold allocCell
  refine Keeps.look (fun h => ?_)
  exact Keeps.bind (Keeps.update (fun _ hp => hp.congr rfl)) (fun _ => Keeps.ret _)

theorem cellMakeInd_plain (c : Nat) (p : Pntr) : Keeps Heap.Plain (cellMakeInd (n := n) c p) :=
  setCell_plain c _

/-- What a global is, when it is read. -/
theorem getGlobal_plain (g : Nat) :
    Triple Heap.Plain (getGlobal (n := n) g) (fun glo h => glo.wq.fetchers = [] ∧ h.Plain) := by
  unfold getGlobal
  refine Triple.read (fun h hp => ?_)
  refine Triple.need (fun glo hg h' he => ?_)
  rw [he]
  exact ⟨hp g glo hg, hp⟩

theorem getGlobal_keeps (g : Nat) : Keeps Heap.Plain (getGlobal (n := n) g) :=
  (getGlobal_plain g).conseq (fun _ hp => hp) (fun _ _ hp => hp.2)

theorem setGlobal_plain {v : Global n} (hv : v.wq.fetchers = []) (g : Nat) :
    Keeps Heap.Plain (setGlobal g v) :=
  Keeps.update (fun _ hp => hp.update hv rfl)

theorem newGlobal_plain {v : Global n} (hv : v.wq.fetchers = []) :
    Keeps Heap.Plain (newGlobal v) := by
  unfold newGlobal
  refine Keeps.look (fun h => ?_)
  exact Keeps.bind (Keeps.update (fun _ hp => hp.update hv rfl)) (fun _ => Keeps.ret _)

/-- A program after the global `g` is read. -/
theorem withGlobal_plain {α : Type} {g : Nat} {m : Global n → HeapM n α}
    (h : ∀ glo, glo.wq.fetchers = [] → Keeps Heap.Plain (m glo)) :
    Keeps Heap.Plain (getGlobal g >>= m) :=
  Triple.bind (getGlobal_plain g) (fun glo => Triple.pure_pre (h glo))

theorem targethashAdd_plain (g : Nat) : Keeps Heap.Plain (targethashAdd (n := n) g) := by
  unfold targethashAdd
  refine Keeps.bind (getGlobal_keeps g) (fun glo => Keeps.look (fun h => ?_))
  exact Keeps.bind (Keeps.check _) (fun _ => Keeps.update (fun _ hp => hp.congr rfl))

theorem physhashAdd_plain (g : Nat) : Keeps Heap.Plain (physhashAdd (n := n) g) := by
  unfold physhashAdd
  refine Keeps.bind (getGlobal_keeps g) (fun glo => Keeps.look (fun h => ?_))
  exact Keeps.bind (Keeps.check _) (fun _ => Keeps.update (fun _ hp => hp.congr rfl))

theorem addrhashAdd_plain (g : Nat) : Keeps Heap.Plain (addrhashAdd (n := n) g) := by
  unfold addrhashAdd
  refine Keeps.bind (getGlobal_keeps g) (fun glo => Keeps.look (fun h => ?_))
  exact Keeps.bind (Keeps.check _) (fun _ => Keeps.update (fun _ hp => hp.congr rfl))

theorem targethashRemove_plain (g : Nat) : Keeps Heap.Plain (targethashRemove (n := n) g) :=
  Keeps.update (fun _ hp => hp.congr rfl)

theorem physhashRemove_plain (g : Nat) : Keeps Heap.Plain (physhashRemove (n := n) g) :=
  Keeps.update (fun _ hp => hp.congr rfl)

theorem getPhysicalAddress_plain (tid : Fin n) (p : Pntr) :
    Keeps Heap.Plain (getPhysicalAddress tid p) := by
  unfold getPhysicalAddress
  refine Keeps.look (fun h => ?_)
  split
  · refine Keeps.bind (newGlobal_plain rfl) (fun g => ?_)
    refine Keeps.bind (Keeps.update (fun _ hp => hp.congr rfl)) (fun _ => ?_)
    refine Keeps.bind (physhashAdd_plain g) (fun _ => ?_)
    exact Keeps.bind (addrhashAdd_plain g) (fun _ => Keeps.ret _)
  · refine Keeps.bind (getGlobal_keeps _) (fun glo => ?_)
    refine Keeps.bind (Keeps.check _) (fun _ => ?_)
    exact Keeps.bind (Keeps.check _) (fun _ => Keeps.ret _)

theorem addTarget_plain (tid : Fin n) (addr : Gaddr n) (p : Pntr) :
    Keeps Heap.Plain (addTarget tid addr p) := by
  unfold addTarget
  refine Keeps.bind (Keeps.check _) (fun _ => Keeps.look (fun h => ?_))
  refine Keeps.bind (Keeps.check _) (fun _ => ?_)
  refine Keeps.bind (Keeps.check _) (fun _ => ?_)
  refine Keeps.bind (newGlobal_plain rfl) (fun g => ?_)
  refine Keeps.bind (addrhashAdd_plain g) (fun _ => ?_)
  exact Keeps.bind (targethashAdd_plain g) (fun _ => Keeps.ret _)

theorem setFrame_plain (f : Nat) (v : Frame n) : Keeps Heap.Plain (setFrame f v) :=
  Keeps.update (fun _ hp => hp.congr rfl)

theorem getFrame_plain (f : Nat) : Keeps Heap.Plain (getFrame (n := n) f) := by
  unfold getFrame
  exact Keeps.look (fun h => Keeps.ret _)

theorem frameNew_plain (v : Frame n) : Keeps Heap.Plain (frameNew v) := by
  unfold frameNew
  refine Keeps.look (fun h => ?_)
  exact Keeps.bind (Keeps.update (fun _ hp => hp.congr rfl)) (fun _ => Keeps.ret _)

theorem frameFree_plain (f : Nat) : Keeps Heap.Plain (frameFree (n := n) f) := by
  unfold frameFree
  refine Keeps.bind (getFrame_plain f) (fun fr => ?_)
  refine Keeps.bind (Keeps.check _) (fun _ => ?_)
  refine Keeps.bind (Keeps.check _) (fun _ => ?_)
  refine Keeps.bind (Keeps.check _) (fun _ => ?_)
  exact Keeps.bind (Keeps.check _) (fun _ => setFrame_plain _ _)

theorem sparkFrame_plain (f : Nat) : Keeps Heap.Plain (sparkFrame (n := n) f) := by
  unfold sparkFrame
  refine Keeps.bind (getFrame_plain f) (fun fr => Keeps.when (fun _ => ?_))
  exact Keeps.bind (setFrame_plain _ _) (fun _ => Keeps.update (fun _ hp => hp.congr rfl))

theorem removeSpark_plain (f : Nat) : Keeps Heap.Plain (removeSpark (n := n) f) := by
  unfold removeSpark
  refine Keeps.look (fun h => ?_)
  exact Keeps.bind (Keeps.check _) (fun _ => Keeps.update (fun _ hp => hp.congr rfl))

theorem unsparkFrame_plain (f : Nat) : Keeps Heap.Plain (unsparkFrame (n := n) f) := by
  unfold unsparkFrame
  refine Keeps.bind (getFrame_plain f) (fun fr => ?_)
  refine Keeps.bind (Keeps.check _) (fun _ => ?_)
  refine Keeps.bind (Keeps.when (fun _ => removeSpark_plain f)) (fun _ => ?_)
  refine Keeps.bind (setFrame_plain _ _) (fun _ => Keeps.look (fun h => ?_))
  split
  · exact Keeps.ret _
  · exact Keeps.check _

theorem runFrameWith_plain (place : Nat → List Nat → List Nat) (f : Nat) :
    Keeps Heap.Plain (runFrameWith (n := n) place f) := by
  unfold runFrameWith
  refine Keeps.bind (getFrame_plain f) (fun fr => ?_)
  split
  · refine Keeps.bind (removeSpark_plain f) (fun _ => ?_)
    exact Keeps.bind (setFrame_plain _ _) (fun _ => Keeps.update (fun _ hp => hp.congr rfl))
  · exact Keeps.bind (setFrame_plain _ _) (fun _ => Keeps.update (fun _ hp => hp.congr rfl))
  · exact Keeps.ret _

theorem blockFrame_plain (f : Nat) : Keeps Heap.Plain (blockFrame (n := n) f) := by
  unfold blockFrame
  refine Keeps.bind (getFrame_plain f) (fun fr => ?_)
  refine Keeps.bind (Keeps.check _) (fun _ => Keeps.look (fun h => ?_))
  exact Keeps.bind (Keeps.check _) (fun _ => Keeps.update (fun _ hp => hp.congr rfl))

theorem unblockFrameAfterFirst_plain (f : Nat) :
    Keeps Heap.Plain (unblockFrameAfterFirst (n := n) f) := by
  unfold unblockFrameAfterFirst
  refine Keeps.bind (getFrame_plain f) (fun fr => ?_)
  exact Keeps.bind (Keeps.check _) (fun _ => Keeps.update (fun _ hp => hp.congr rfl))

theorem doneFrame_plain (f : Nat) : Keeps Heap.Plain (doneFrame (n := n) f) := by
  unfold doneFrame
  refine Keeps.bind (getFrame_plain f) (fun fr => ?_)
  refine Keeps.bind (Keeps.check _) (fun _ => Keeps.look (fun h => ?_))
  refine Keeps.bind (Keeps.check _) (fun _ => ?_)
  exact Keeps.bind (Keeps.update (fun _ hp => hp.congr rfl)) (fun _ => setFrame_plain _ _)

/-- The queue of a global has frames only. -/
theorem getQueue_plain (w : Waitable) :
    Triple Heap.Plain (getQueue (n := n) w)
      (fun wq h => ((∃ g, w = .global g) → wq.fetchers = []) ∧ h.Plain) := by
  cases w with
  | frame f =>
    refine Triple.bind (getFrame_plain f) (fun fr => Triple.ret _ (fun h hp => ⟨?_, hp⟩))
    rintro ⟨g, hg⟩
    cases hg
  | global g =>
    refine Triple.bind (getGlobal_plain g) (fun glo => Triple.ret _ (fun h hp => ⟨fun _ => hp.1, hp.2⟩))

theorem getQueue_keeps (w : Waitable) : Keeps Heap.Plain (getQueue (n := n) w) :=
  (getQueue_plain w).conseq (fun _ hp => hp) (fun _ _ hp => hp.2)

theorem setQueue_plain (w : Waitable) {wq : WaitQueue n}
    (h : (∃ g, w = .global g) → wq.fetchers = []) : Keeps Heap.Plain (setQueue wq w) := by
  cases w with
  | frame f => exact Keeps.bind (getFrame_plain f) (fun fr => setFrame_plain _ _)
  | global g => exact Keeps.bind (getGlobal_keeps g) (fun glo => setGlobal_plain (h ⟨g, rfl⟩) g)

/-- A program after the queue of `w` is read. -/
theorem withQueue_plain {α : Type} {w : Waitable} {m : WaitQueue n → HeapM n α}
    (h : ∀ wq, ((∃ g, w = .global g) → wq.fetchers = []) → Keeps Heap.Plain (m wq)) :
    Keeps Heap.Plain (getQueue w >>= m) :=
  Triple.bind (getQueue_plain w) (fun wq => Triple.pure_pre (h wq))

theorem addWaiterFrame_plain (w : Waitable) (f : Nat) :
    Keeps Heap.Plain (addWaiterFrame (n := n) w f) := by
  unfold addWaiterFrame
  exact withQueue_plain (fun wq hq => setQueue_plain w hq)

theorem unblockAll_plain : ∀ fs : List Nat, Keeps Heap.Plain (unblockAll (n := n) fs)
  | [] => Keeps.ret _
  | f :: fs => Keeps.bind (unblockFrameAfterFirst_plain f) (fun _ => unblockAll_plain fs)

theorem resumeLocalWaiters_plain (w : Waitable) :
    Keeps Heap.Plain (resumeLocalWaiters (n := n) w) := by
  unfold resumeLocalWaiters
  refine withQueue_plain (fun wq hq => ?_)
  exact Keeps.bind (setQueue_plain w hq) (fun _ => unblockAll_plain _)

theorem transferFrom_plain (g f : Nat) : Keeps Heap.Plain (transferFrom (n := n) g f) := by
  unfold transferFrom transferWaitersAndFetchers
  refine Keeps.bind ?_ (fun _ => withGlobal_plain (fun glo hg => setGlobal_plain (by exact hg) g))
  refine Keeps.bind (getQueue_keeps _) (fun from' => Keeps.bind (getQueue_keeps _) (fun to' => ?_))
  refine Keeps.bind (setQueue_plain _ ?_) (fun _ => setQueue_plain _ (fun _ => rfl))
  rintro ⟨g', hg⟩
  cases hg

theorem transferLocal_plain (f : Nat) :
    ∀ as : List (Gaddr n), Keeps Heap.Plain (transferLocal f as)
  | [] => Keeps.ret _
  | a :: rest => by
    unfold transferLocal
    refine Keeps.look (fun h => Keeps.bind (Keeps.need _) (fun g => ?_))
    refine Keeps.bind (getGlobal_keeps g) (fun glo => ?_)
    exact Keeps.bind (Keeps.when (fun _ => transferFrom_plain g f)) (fun _ => transferLocal_plain f rest)

theorem resolveLocalFetchers_plain (tid : Fin n) (f : Nat) :
    Keeps Heap.Plain (resolveLocalFetchers tid f) := by
  unfold resolveLocalFetchers
  refine withQueue_plain (fun wq hq => Keeps.bind (setQueue_plain _ ?_) (fun _ => transferLocal_plain f _))
  rintro ⟨g, hg⟩
  cases hg

theorem addFetcher_plain (f : Nat) (a : Gaddr n) : Keeps Heap.Plain (addFetcher (.frame f) a) := by
  unfold addFetcher
  refine withQueue_plain (fun wq hq => setQueue_plain _ ?_)
  rintro ⟨g, hg⟩
  cases hg

theorem addFetcherUnique_plain (f : Nat) (a : Gaddr n) :
    Keeps Heap.Plain (addFetcherUnique (.frame f) a) := by
  unfold addFetcherUnique
  exact Keeps.bind (getQueue_keeps _) (fun wq => Keeps.when (fun _ => addFetcher_plain f a))

theorem ensureFrameHasCell_plain (f : Nat) : Keeps Heap.Plain (ensureFrameHasCell (n := n) f) := by
  unfold ensureFrameHasCell
  refine Keeps.bind (getFrame_plain f) (fun fr => ?_)
  split
  · exact Keeps.ret _
  · refine Keeps.bind (allocCell_plain _) (fun c => Keeps.bind (Keeps.need _) (fun r => ?_))
    refine Keeps.bind (getFrame_plain _) (fun cf => Keeps.bind (setFrame_plain _ _) (fun _ => ?_))
    refine Keeps.bind (getFrame_plain _) (fun fr => ?_)
    exact Keeps.bind (setFrame_plain _ _) (fun _ => Keeps.ret _)

theorem dropFrame_plain (f : Nat) : Keeps Heap.Plain (dropFrame (n := n) f) := by
  unfold dropFrame
  refine Keeps.bind (getFrame_plain f) (fun fr => ?_)
  exact Keeps.bind (setFrame_plain _ _) (fun _ => frameFree_plain f)

theorem frameSent_plain (tid : Fin n) (store : Gaddr n) (f c : Nat) :
    Keeps Heap.Plain (frameSent tid store f c) := by
  unfold frameSent
  refine Keeps.look (fun h => ?_)
  split
  · refine Keeps.bind (getGlobal_keeps _) (fun glo => Keeps.bind (Keeps.check _) (fun _ => ?_))
    exact Keeps.bind (cellMakeInd_plain c _) (fun _ => dropFrame_plain f)
  · refine Keeps.bind (addTarget_plain tid store _) (fun g => ?_)
    exact Keeps.bind (setCell_plain c _) (fun _ => dropFrame_plain f)

theorem redirectTarget_plain (target : Nat) (obj : Pntr) :
    Keeps Heap.Plain (redirectTarget (n := n) target obj) := by
  unfold redirectTarget
  refine Keeps.bind (getGlobal_keeps _) (fun glo => Keeps.look (fun h => ?_))
  split
  · exact cellMakeInd_plain _ _
  · exact Keeps.fail

theorem replaceReference_plain (tid : Fin n) (addr : Gaddr n) (g refcell : Nat) (inphys : Bool)
    (p : Pntr) : Keeps Heap.Plain (replaceReference tid addr g refcell inphys p) := by
  unfold replaceReference
  refine Keeps.bind (cellMakeInd_plain _ _) (fun _ => ?_)
  refine Keeps.bind (Keeps.when (fun _ => physhashRemove_plain g)) (fun _ => ?_)
  refine Keeps.bind (targethashRemove_plain g) (fun _ => withGlobal_plain (fun glo hg => ?_))
  refine Keeps.bind (setGlobal_plain (by exact hg) g) (fun _ => Keeps.look (fun h => ?_))
  refine Keeps.bind (Keeps.when (fun _ => targethashAdd_plain g)) (fun _ => ?_)
  exact Keeps.when (fun _ => physhashAdd_plain g)

theorem referenceGlobal_plain (tid : Fin n) (addr : Gaddr n) (p : Pntr) :
    Keeps Heap.Plain (referenceGlobal tid addr p) := by
  unfold referenceGlobal
  refine Keeps.look (fun h => ?_)
  split
  · exact Keeps.ret _
  · refine Keeps.bind (Keeps.need _) (fun g => Keeps.bind (getGlobal_keeps g) (fun glo => ?_))
    exact Keeps.bind (Keeps.check _) (fun _ => Keeps.bind (Keeps.check _) (fun _ => Keeps.ret _))

theorem running_plain (f : Nat) : Keeps Heap.Plain (running (n := n) f) := by
  unfold running
  exact Keeps.look (fun h => Keeps.bind (Keeps.check _) (fun _ => getFrame_plain f))

theorem opMkframe_plain (tid : Fin n) (f instr slot : Nat) (data : Nat → Pntr) :
    Keeps Heap.Plain (opMkframe tid f instr slot data) := by
  unfold opMkframe
  refine Keeps.look (fun h => Keeps.bind (frameNew_plain _) (fun newf => ?_))
  refine Keeps.bind (allocCell_plain _) (fun c => Keeps.bind (getFrame_plain _) (fun nf => ?_))
  refine Keeps.bind (setFrame_plain _ _) (fun _ => ?_)
  exact Keeps.bind (getFrame_plain _) (fun fr => setFrame_plain _ _)

theorem opCall_plain (tid : Fin n) (f instr slot : Nat) (data : Nat → Pntr) :
    Keeps Heap.Plain (opCall tid f instr slot data) := by
  unfold opCall
  refine Keeps.look (fun h => Keeps.bind (frameNew_plain _) (fun newf => ?_))
  refine Keeps.bind (addWaiterFrame_plain _ _) (fun _ => ?_)
  exact Keeps.bind (blockFrame_plain _) (fun _ => runFrameWith_plain _ _)

theorem opSpark_plain (f slot : Nat) : Keeps Heap.Plain (opSpark (n := n) f slot) := by
  unfold opSpark
  refine Keeps.bind (getFrame_plain f) (fun fr => ?_)
  refine Keeps.bind (resolvePntr_plain _) (fun p => Keeps.look (fun h => ?_))
  split
  · exact sparkFrame_plain _
  · exact Keeps.ret _

theorem opEnd_plain (f : Nat) : Keeps Heap.Plain (opEnd (n := n) f) := by
  unfold opEnd
  refine Keeps.bind (doneFrame_plain f) (fun _ => Keeps.bind (getFrame_plain f) (fun fr => ?_))
  refine Keeps.bind (Keeps.need _) (fun c => ?_)
  exact Keeps.bind (setCell_plain c _) (fun _ => dropFrame_plain f)

theorem postpone_plain (e : Env n) (f : Nat) : Keeps Heap.Plain (postpone e f) := by
  unfold postpone
  refine Keeps.bind (doneFrame_plain f) (fun _ => Keeps.bind (getFrame_plain f) (fun fr => ?_))
  exact Keeps.bind (setFrame_plain _ _) (fun _ => Keeps.update (fun _ hp => hp.congr rfl))

theorem suspendFrame_plain (f : Nat) : Keeps Heap.Plain (suspendFrame (n := n) f) := by
  unfold suspendFrame
  exact Keeps.bind (blockFrame_plain f) (fun _ => Keeps.update (fun _ hp => hp.congr rfl))

theorem retrieveBlockedFrame_plain (f : Nat) :
    Keeps Heap.Plain (retrieveBlockedFrame (n := n) f) := by
  unfold retrieveBlockedFrame
  refine Keeps.look (fun h => Keeps.bind (Keeps.check _) (fun _ => ?_))
  exact Keeps.bind (Keeps.update (fun _ hp => hp.congr rfl)) (fun _ => unblockFrameAfterFirst_plain f)

theorem findSpark_plain (f : Nat) : Keeps Heap.Plain (findSpark (n := n) f) := by
  unfold findSpark
  refine Keeps.look (fun h => Keeps.bind (Keeps.check _) (fun _ => ?_))
  exact Keeps.bind (Keeps.check _) (fun _ => runFrameWith_plain _ f)

theorem maybeExpandArray_plain (e : Env n) (c : Nat) : Keeps Heap.Plain (maybeExpandArray e c) :=
  Keeps.update (fun _ hp => hp.congr rfl)

end Heap

/-! ## What the handlers send -/

/-- In the middle of a handler: the messages sent so far, with their destinations, are in `S`. -/
structure Sending (S : Fin n × WMsg n → Prop) (w : Interp n) : Prop where
  plain : w.heap.Plain
  sent : ∀ d ∈ w.acct.sent, S d

section Sending

variable {S : Fin n × WMsg n → Prop} {α : Type}

theorem onHeap_sending {m : HeapM n α} (h : Keeps Heap.Plain m) : Keeps (Sending S) (onHeap m) :=
  Keeps.zoom h (fun _ hs => hs.plain) (fun _ _ hs ht => ⟨ht, hs.sent⟩)

theorem writeGaddr_sending (a : Gaddr n) : Keeps (Sending S) (writeGaddr a) :=
  Keeps.update (fun _ hs => ⟨hs.plain, hs.sent⟩)

theorem writeGaddrs_sending : ∀ as : List (Gaddr n), Keeps (Sending S) (writeGaddrs as)
  | [] => Keeps.ret _
  | a :: as => Keeps.bind (writeGaddr_sending a) (fun _ => writeGaddrs_sending as)

theorem msgSend_sending {dest : Fin n} {m : WMsg n} (h : S (dest, m)) :
    Keeps (Sending S) (msgSend dest m) := by
  refine Keeps.update (fun w hs => ⟨hs.plain, fun d hd => ?_⟩)
  rcases List.mem_append.mp hd with hd | hd
  · exact hs.sent d hd
  · rw [List.mem_singleton.mp hd]
    exact h

theorem writeObjectAddress_sending (tid : Fin n) (p : Pntr) :
    Keeps (Sending S) (writeObjectAddress tid p) := by
  unfold writeObjectAddress
  refine Keeps.look (fun s => ?_)
  split
  · refine Keeps.bind (onHeap_sending (getGlobal_keeps _)) (fun glo => ?_)
    refine Keeps.bind (Keeps.check _) (fun _ => ?_)
    exact Keeps.bind (writeGaddr_sending _) (fun _ => Keeps.ret _)
  · refine Keeps.bind (onHeap_sending (getPhysicalAddress_plain tid p)) (fun a => ?_)
    exact Keeps.bind (writeGaddr_sending _) (fun _ => Keeps.ret _)

theorem writeObjectRef_sending (tid : Fin n) (p : Pntr) :
    Keeps (Sending S) (writeObjectRef tid p) := by
  unfold writeObjectRef
  refine Keeps.look (fun s => ?_)
  split
  · refine Keeps.bind (onHeap_sending (getGlobal_keeps _)) (fun glo => ?_)
    refine Keeps.bind (Keeps.check _) (fun _ => Keeps.bind (Keeps.check _) (fun _ => ?_))
    exact Keeps.bind (writeGaddr_sending _) (fun _ => Keeps.ret _)
  · refine Keeps.bind (onHeap_sending (getPhysicalAddress_plain tid p)) (fun a => ?_)
    refine Keeps.bind (Keeps.check _) (fun _ => ?_)
    exact Keeps.bind (writeGaddr_sending _) (fun _ => Keeps.ret _)

theorem writeSimple_sending (tid : Fin n) (p : Pntr) : Keeps (Sending S) (writeSimple tid p) := by
  unfold writeSimple
  refine Keeps.look (fun s => ?_)
  cases p with
  | number d => exact Keeps.ret _
  | cell c i =>
    simp only
    split
    · exact Keeps.ret _
    · refine Keeps.bind (onHeap_sending (getGlobal_keeps _)) (fun glo => ?_)
      exact Keeps.bind (writeGaddr_sending _) (fun _ => Keeps.ret _)
    · refine Keeps.bind (onHeap_sending (getPhysicalAddress_plain tid _)) (fun a => ?_)
      exact Keeps.bind (writeGaddr_sending _) (fun _ => Keeps.ret _)
    · exact Keeps.fail
    · exact Keeps.fail
    · exact Keeps.ret _

theorem writeRef_sending (tid : Fin n) (p : Pntr) : Keeps (Sending S) (writeRef tid p) := by
  unfold writeRef
  refine Keeps.bind (onHeap_sending (resolvePntr_plain p)) (fun p => ?_)
  refine Keeps.bind (writeSimple_sending tid p) (fun r => ?_)
  split
  · exact Keeps.ret _
  · exact writeObjectRef_sending tid p

theorem writeRefs_sending (tid : Fin n) : ∀ ps : List Pntr, Keeps (Sending S) (writeRefs tid ps)
  | [] => Keeps.ret _
  | p :: ps => Keeps.bind (writeRef_sending tid p) (fun _ =>
      Keeps.bind (writeRefs_sending tid ps) (fun _ => Keeps.ret _))

theorem writeElements_sending (tid : Fin n) (l : Elements Pntr) :
    Keeps (Sending S) (writeElements tid l) := by
  cases l with
  | bytes b => exact Keeps.ret _
  | pntrs l => exact Keeps.bind (writeRefs_sending tid l) (fun rs => Keeps.ret _)

theorem arefArray_sending (arr : Nat) : Keeps (Sending S) (arefArray (n := n) arr) := by
  unfold arefArray
  refine Keeps.look (fun s => ?_)
  split
  · exact Keeps.ret _
  · exact Keeps.fail

theorem writeAref_sending (e : Env n) (tid : Fin n) (c index arr : Nat) (tail : Pntr) :
    Keeps (Sending S) (writeAref e tid c index arr tail) := by
  unfold writeAref
  refine Keeps.bind (arefArray_sending arr) (fun elements => ?_)
  split
  · unfold writeBuildarrayFrame
    refine Keeps.bind (writeObjectAddress_sending tid _) (fun a => ?_)
    exact Keeps.bind (writeRefs_sending tid _) (fun rs => Keeps.ret _)
  · refine Keeps.bind (writeObjectAddress_sending tid _) (fun a => ?_)
    refine Keeps.bind (Keeps.check _) (fun _ => Keeps.bind (Keeps.check _) (fun _ => ?_))
    refine Keeps.bind (writeElements_sending tid _) (fun es => ?_)
    refine Keeps.bind (writeRef_sending tid _) (fun t => ?_)
    exact Keeps.bind (onHeap_sending (setCell_plain _ _)) (fun _ => Keeps.ret _)

theorem writeArray_sending (tid : Fin n) (c index : Nat) (elements : Elements Pntr) :
    Keeps (Sending S) (writeArray tid c index elements) := by
  unfold writeArray
  refine Keeps.bind (Keeps.check _) (fun _ => ?_)
  refine Keeps.bind (writeObjectAddress_sending tid _) (fun a => ?_)
  refine Keeps.bind (writeElements_sending tid _) (fun es => ?_)
  exact Keeps.bind (onHeap_sending (setCell_plain _ _)) (fun _ => Keeps.ret _)

theorem writeFrame_sending (e : Env n) (tid : Fin n) (c index f : Nat) :
    Keeps (Sending S) (writeFrame e tid c index f) := by
  unfold writeFrame
  refine Keeps.bind (writeObjectAddress_sending tid _) (fun a => ?_)
  refine Keeps.bind (onHeap_sending (getFrame_plain f)) (fun fr => ?_)
  refine Keeps.bind (Keeps.check _) (fun _ => Keeps.bind (Keeps.check _) (fun _ => ?_))
  refine Keeps.bind (Keeps.check _) (fun _ => Keeps.bind (Keeps.check _) (fun _ => ?_))
  refine Keeps.bind (Keeps.check _) (fun _ => ?_)
  refine Keeps.bind (writeGaddrs_sending _) (fun _ => ?_)
  refine Keeps.bind (onHeap_sending (setFrame_plain _ _)) (fun _ => ?_)
  exact Keeps.bind (writeRefs_sending tid _) (fun rs => Keeps.ret _)

theorem writeObject_sending (e : Env n) (tid : Fin n) (c index : Nat) :
    Keeps (Sending S) (writeObject e tid c index) := by
  unfold writeObject
  refine Keeps.look (fun s => ?_)
  split
  · exact writeAref_sending e tid _ _ _ _
  · exact writeArray_sending tid _ _ _
  · refine Keeps.bind (writeObjectAddress_sending tid _) (fun a => ?_)
    refine Keeps.bind (writeRef_sending tid _) (fun h => ?_)
    exact Keeps.bind (writeRef_sending tid _) (fun t => Keeps.ret _)
  · exact writeFrame_sending e tid _ _ _
  · refine Keeps.bind (writeObjectAddress_sending tid _) (fun a => ?_)
    exact Keeps.bind (writeRefs_sending tid _) (fun rs => Keeps.ret _)
  · exact Keeps.bind (writeObjectAddress_sending tid _) (fun a => Keeps.ret _)
  · exact Keeps.fail

theorem writePntr_sending (e : Env n) (tid : Fin n) (p : Pntr) :
    Keeps (Sending S) (writePntr e tid p) := by
  unfold writePntr
  refine Keeps.bind (onHeap_sending (resolvePntr_plain p)) (fun p => ?_)
  refine Keeps.bind (writeSimple_sending tid p) (fun r => ?_)
  split
  · exact Keeps.ret _
  · cases p with
    | number d => exact Keeps.fail
    | cell c index =>
      refine Keeps.look (fun s => ?_)
      refine Keeps.bind (Keeps.when (fun _ => onHeap_sending (maybeExpandArray_plain e c))) (fun _ => ?_)
      exact writeObject_sending e tid c index

theorem readGaddr_sending : Keeps (Sending S) (readGaddr (n := n)) :=
  Keeps.update (fun _ hs => ⟨hs.plain, hs.sent⟩)

theorem readGaddrs_sending : ∀ as : List (Gaddr n), Keeps (Sending S) (readGaddrs as)
  | [] => Keeps.ret _
  | _ :: as => Keeps.bind readGaddr_sending (fun _ => readGaddrs_sending as)

theorem startAddressReading_sending : Keeps (Sending S) (startAddressReading (n := n)) := by
  unfold startAddressReading
  exact Keeps.look (fun s => Keeps.check _)

theorem finishAddressReading_sending {src : Fin n} (hS : ∀ k t, S (src, .ack 1 k t)) (tag : Tag) :
    Keeps (Sending S) (finishAddressReading src tag) := by
  unfold finishAddressReading
  refine Keeps.look (fun s => ?_)
  refine Keeps.bind (Keeps.when (fun _ => msgSend_sending (hS _ _))) (fun _ => ?_)
  exact Keeps.update (fun _ hs => ⟨hs.plain, hs.sent⟩)

theorem readRef_sending (tid : Fin n) (r : Ref n) : Keeps (Sending S) (readRef tid r) := by
  cases r with
  | number d => exact Keeps.ret _
  | nil => exact Keeps.ret _
  | remote a =>
    refine Keeps.bind readGaddr_sending (fun _ => Keeps.look (fun s => ?_))
    split
    · exact Keeps.bind (onHeap_sending (getGlobal_keeps _)) (fun glo => Keeps.ret _)
    · refine Keeps.bind (Keeps.check _) (fun _ => ?_)
      refine Keeps.bind (onHeap_sending (allocCell_plain _)) (fun c => ?_)
      refine Keeps.bind (onHeap_sending (addTarget_plain tid a _)) (fun g => ?_)
      exact Keeps.bind (onHeap_sending (setCell_plain _ _)) (fun _ => Keeps.ret _)

theorem readRefs_sending (tid : Fin n) : ∀ rs : List (Ref n), Keeps (Sending S) (readRefs tid rs)
  | [] => Keeps.ret _
  | r :: rs => Keeps.bind (readRef_sending tid r) (fun _ =>
      Keeps.bind (readRefs_sending tid rs) (fun _ => Keeps.ret _))

theorem readElements_sending (tid : Fin n) (l : Elements (Ref n)) :
    Keeps (Sending S) (readElements tid l) := by
  cases l with
  | bytes b => exact Keeps.ret _
  | pntrs l => exact Keeps.bind (readRefs_sending tid l) (fun _ => Keeps.ret _)

theorem newObject_sending (v : Cell n) : Keeps (Sending S) (newObject v) :=
  Keeps.bind (onHeap_sending (allocCell_plain v)) (fun _ => Keeps.ret _)

theorem readFrame_sending (e : Env n) (tid : Fin n) (address : Nat) (fetchers : List (Gaddr n))
    (data : List (Ref n)) (origin : Option (Origin n)) :
    Keeps (Sending S) (readFrame e tid address fetchers data origin) := by
  unfold readFrame
  refine Keeps.bind (onHeap_sending (frameNew_plain _)) (fun f => ?_)
  refine Keeps.bind (onHeap_sending (allocCell_plain _)) (fun c => ?_)
  refine Keeps.bind (readGaddrs_sending _) (fun _ => Keeps.bind (Keeps.check _) (fun _ => ?_))
  refine Keeps.bind (readRefs_sending tid _) (fun l => ?_)
  refine Keeps.bind (onHeap_sending (getFrame_plain f)) (fun fr => ?_)
  exact Keeps.bind (onHeap_sending (setFrame_plain _ _)) (fun _ => Keeps.ret _)

theorem readBody_sending (e : Env n) (tid : Fin n) (o : Obj n) :
    Keeps (Sending S) (readBody e tid o) := by
  cases o with
  | ref r => exact Keeps.fail
  | cons a head tail =>
    refine Keeps.bind (readRef_sending tid _) (fun h => ?_)
    exact Keeps.bind (readRef_sending tid _) (fun t => newObject_sending _)
  | aref a index elements tail =>
    refine Keeps.bind (Keeps.check _) (fun _ => Keeps.bind (Keeps.check _) (fun _ => ?_))
    refine Keeps.bind (readElements_sending tid _) (fun es => ?_)
    refine Keeps.bind (readRef_sending tid _) (fun t => ?_)
    refine Keeps.bind (onHeap_sending (allocCell_plain _)) (fun arr => ?_)
    exact Keeps.bind (onHeap_sending (allocCell_plain _)) (fun c => Keeps.ret _)
  | array a elements =>
    refine Keeps.bind (Keeps.check _) (fun _ => Keeps.bind (Keeps.check _) (fun _ => ?_))
    exact Keeps.bind (readElements_sending tid _) (fun es => newObject_sending _)
  | frame a address fetchers data origin => exact readFrame_sending e tid _ _ _ _
  | cap a arity address fno fileno lineno data =>
    refine Keeps.bind (Keeps.check _) (fun _ => ?_)
    exact Keeps.bind (readRefs_sending tid _) (fun l => newObject_sending _)
  | sysobject a type ownertid sockid =>
    exact Keeps.bind (Keeps.check _) (fun _ => newObject_sending _)

/-- Who waits for a global is in this task, so nothing is sent. -/
theorem resumeWaiters_global (e : Env n) (tid : Fin n) (g : Nat) (obj : Pntr) :
    Keeps (Sending S) (resumeWaiters e tid (.global g) obj) := by
  unfold resumeWaiters
  refine Keeps.bind (onHeap_sending (resumeLocalWaiters_plain _)) (fun _ => ?_)
  refine Triple.bind (R := fun wq w => wq.fetchers = [] ∧ Sending S w) ?_ (fun wq => ?_)
  · refine Triple.zoom (R := fun _ => Heap.Plain) (S := fun _ wq h => wq.fetchers = [] ∧ h.Plain)
      (fun _ => ?_) (fun _ hs => hs.plain) (fun s hs wq h hh => ⟨hh.1, hh.2, hs.sent⟩)
    exact (getQueue_plain (.global g)).conseq (fun _ hp => hp) (fun _ _ hp => ⟨hp.1 ⟨g, rfl⟩, hp.2⟩)
  · refine Triple.pure_pre (fun hq => Keeps.when (fun hc => ?_))
    exact absurd hq hc

theorem responseForFetchingRef_sending (e : Env n) (tid : Fin n) (target : Nat) (obj : Pntr) :
    Keeps (Sending S) (responseForFetchingRef e tid target obj) := by
  unfold responseForFetchingRef
  refine Keeps.bind (onHeap_sending (getQueue_keeps _)) (fun wq => ?_)
  refine Keeps.bind (onHeap_sending (Keeps.update (fun _ hp => hp.congr rfl))) (fun _ => ?_)
  refine Keeps.look (fun s => Keeps.bind (Keeps.check _) (fun _ => ?_))
  refine Keeps.bind (resumeWaiters_global e tid target obj) (fun _ => Keeps.look (fun s => ?_))
  split
  · refine Keeps.bind (onHeap_sending (resolveLocalFetchers_plain tid _)) (fun _ => ?_)
    exact onHeap_sending (runFrameWith_plain _ _)
  · exact Keeps.ret _

theorem mergeObject_sending (e : Env n) (tid : Fin n) (addr : Gaddr n) (p : Pntr) :
    Keeps (Sending S) (mergeObject e tid addr p) := by
  unfold mergeObject
  refine Keeps.look (fun s => ?_)
  split
  · refine Keeps.bind (Keeps.check _) (fun _ => Keeps.bind (Keeps.check _) (fun _ => ?_))
    exact Keeps.bind (onHeap_sending (addTarget_plain tid addr p)) (fun g => Keeps.ret _)
  · refine Keeps.bind (onHeap_sending (getGlobal_keeps _)) (fun existing => ?_)
    split
    · refine Keeps.bind (onHeap_sending (referenceGlobal_plain tid addr _)) (fun r => ?_)
      refine Keeps.bind (Keeps.check _) (fun _ => ?_)
      refine Keeps.bind (Keeps.when (fun _ => responseForFetchingRef_sending e tid _ p)) (fun _ => ?_)
      refine Keeps.bind (onHeap_sending (replaceReference_plain tid addr _ _ _ p)) (fun _ => ?_)
      exact Keeps.ret _
    · exact Keeps.ret _

theorem ownSysobject_sending (tid : Fin n) (addr : Gaddr n) (p : Pntr) :
    Keeps (Sending S) (ownSysobject tid addr p) := by
  unfold ownSysobject
  refine Keeps.look (fun s => ?_)
  split
  · split
    · refine Keeps.bind (Keeps.need _) (fun g => ?_)
      refine Keeps.bind (onHeap_sending (getGlobal_keeps _)) (fun existing => ?_)
      split
      · exact Keeps.ret _
      · exact Keeps.fail
    · exact Keeps.ret _
  · exact Keeps.ret _

theorem readPntr_sending (e : Env n) (tid : Fin n) (o : Obj n) :
    Keeps (Sending S) (readPntr e tid o) := by
  unfold readPntr
  split
  · exact readRef_sending tid _
  · refine Keeps.bind readGaddr_sending (fun _ => ?_)
    refine Keeps.bind (readBody_sending e tid o) (fun p => ?_)
    refine Keeps.bind (Keeps.need _) (fun addr => ?_)
    refine Keeps.bind (ownSysobject_sending tid addr p) (fun p => ?_)
    exact mergeObject_sending e tid addr p

end Sending

/-! ## Frames that leave -/

section Handlers

variable {S : Fin n × WMsg n → Prop}

theorem scheduleFrame_sending (e : Env n) (tid : Fin n) (f : Nat) :
    Keeps (Sending S) (scheduleFrame e tid f) := by
  unfold scheduleFrame
  refine Keeps.bind (onHeap_sending (ensureFrameHasCell_plain f)) (fun c => ?_)
  refine Keeps.bind (onHeap_sending (getFrame_plain f)) (fun fr => ?_)
  refine Keeps.bind (Keeps.when (fun _ => onHeap_sending (unsparkFrame_plain f))) (fun _ => ?_)
  refine Keeps.bind (onHeap_sending (resumeLocalWaiters_plain _)) (fun _ => Keeps.look (fun s => ?_))
  split
  · refine Keeps.bind (onHeap_sending (getPhysicalAddress_plain tid _)) (fun refaddr => ?_)
    refine Keeps.bind (writeGaddr_sending _) (fun _ => ?_)
    refine Keeps.bind (writePntr_sending e tid _) (fun o => Keeps.look (fun s => ?_))
    refine Keeps.bind (Keeps.need _) (fun g => ?_)
    refine Triple.bind (R := fun glo w => glo.wq.fetchers = [] ∧ Sending S w) ?_ (fun glo => ?_)
    · exact Triple.zoom (R := fun _ => Heap.Plain) (S := fun _ glo h => glo.wq.fetchers = [] ∧ h.Plain)
        (fun _ => getGlobal_plain g) (fun _ hs => hs.plain) (fun s hs glo h hh => ⟨hh.1, hh.2, hs.sent⟩)
    · refine Triple.pure_pre (fun hg => ?_)
      refine Keeps.bind (Keeps.check _) (fun _ => Keeps.bind (Keeps.check _) (fun _ => ?_))
      refine Keeps.bind (onHeap_sending (setCell_plain _ _)) (fun _ => ?_)
      refine Keeps.bind (onHeap_sending (setGlobal_plain (by exact hg) g)) (fun _ => ?_)
      exact Keeps.bind (onHeap_sending (dropFrame_plain f)) (fun _ => Keeps.ret _)
  · refine Keeps.bind (onHeap_sending (getGlobal_keeps _)) (fun glo => ?_)
    refine Keeps.bind (writeGaddr_sending _) (fun _ => ?_)
    refine Keeps.bind (writePntr_sending e tid _) (fun o => ?_)
    refine Keeps.bind (onHeap_sending (setCell_plain _ _)) (fun _ => ?_)
    exact Keeps.bind (onHeap_sending (dropFrame_plain f)) (fun _ => Keeps.ret _)

theorem scheduleSparks_sending (e : Env n) (tid : Fin n) :
    ∀ k, Keeps (Sending S) (scheduleSparks e tid k)
  | 0 => Keeps.ret _
  | k + 1 => by
    unfold scheduleSparks
    refine Keeps.look (fun s => ?_)
    split
    · exact Keeps.ret _
    · refine Keeps.bind (onHeap_sending (getFrame_plain _)) (fun fr => ?_)
      refine Keeps.bind (Keeps.check _) (fun _ => ?_)
      refine Keeps.bind (scheduleFrame_sending e tid _) (fun item => ?_)
      exact Keeps.bind (scheduleSparks_sending e tid k) (fun items => Keeps.ret _)

/-- Nothing is scheduled when nothing is asked for, or there is no spark. -/
theorem scheduleSparks_none (e : Env n) (tid : Fin n) {k : Nat} {w w' : Interp n}
    {items : List (Gaddr n × Obj n)} (hk : k = 0 ∨ w.heap.sparklist = [])
    (h : scheduleSparks e tid k w = some (items, w')) : items = [] ∧ w' = w := by
  cases k with
  | zero =>
    cases h
    exact ⟨rfl, rfl⟩
  | succ k =>
    have hs : w.heap.sparklist = [] := by
      rcases hk with hk | hk
      · cases hk
      · exact hk
    unfold scheduleSparks at h
    rw [get_apply, hs] at h
    cases h
    exact ⟨rfl, rfl⟩

/-! ## Handlers -/

theorem answerFish_sending (e : Env n) (tid reqtsk dest : Fin n) (age : Int) (k : Nat)
    (hf : ∀ a, S (dest, .fish reqtsk a)) (hs : ∀ l, S (reqtsk, .schedule l)) :
    Keeps (Sending S) (answerFish e tid reqtsk dest age k) := by
  unfold answerFish
  refine Keeps.bind (scheduleSparks_sending e tid k) (fun items => ?_)
  split
  · exact msgSend_sending (hs _)
  · split
    · exact Keeps.bind (Keeps.check _) (fun _ => msgSend_sending (hf _))
    · exact Keeps.ret _

/-- The number of sparks that a FISH request is answered with, if there are enough. -/
def fishSparks (e : Env n) (tid reqtsk : Fin n) (h : Heap n) : Nat :=
  if reqtsk = tid then 0 else if e.optFishhalf then h.sparklist.length / 2 else e.optFishframes

theorem answerFish_quiet (e : Env n) (tid reqtsk dest : Fin n) (age : Int) (k : Nat)
    (hf : ∀ a, S (dest, .fish reqtsk a)) :
    Triple (fun w => Sending S w ∧ (k = 0 ∨ w.heap.sparklist = []))
      (answerFish e tid reqtsk dest age k) (fun _ => Sending S) := by
  unfold answerFish
  refine Triple.bind (R := fun items w => items = [] ∧ Sending S w) ?_ (fun items => ?_)
  · rintro w ⟨hw, hk⟩ items w' h
    obtain ⟨h1, h2⟩ := scheduleSparks_none e tid hk h
    exact ⟨h1, h2 ▸ hw⟩
  · refine Triple.pure_pre (fun hi => ?_)
    rw [hi, if_neg (by simp)]
    split
    · exact Keeps.bind (Keeps.check _) (fun _ => msgSend_sending (hf _))
    · exact Keeps.ret _

theorem startAddressReading_heap {h : Heap n} :
    Keeps (fun w => Sending S w ∧ w.heap = h) (startAddressReading (n := n)) := by
  unfold startAddressReading
  exact Keeps.look (fun s => Keeps.check _)

theorem readGaddr_heap {h : Heap n} :
    Keeps (fun w => Sending S w ∧ w.heap = h) (readGaddr (n := n)) :=
  Keeps.update (fun _ hs => ⟨⟨hs.1.plain, hs.1.sent⟩, hs.2⟩)

theorem finishAddressReading_heap {h : Heap n} {src : Fin n} (hS : ∀ k t, S (src, .ack 1 k t))
    (tag : Tag) : Keeps (fun w => Sending S w ∧ w.heap = h) (finishAddressReading src tag) := by
  unfold finishAddressReading
  refine Keeps.look (fun s => Keeps.bind (Keeps.when (fun _ => ?_)) (fun _ => ?_))
  · refine Keeps.update (fun w hw => ⟨⟨hw.1.plain, fun d hd => ?_⟩, hw.2⟩)
    rcases List.mem_append.mp hd with hd | hd
    · exact hw.1.sent d hd
    · rw [List.mem_singleton.mp hd]
      exact hS _ _
  · exact Keeps.update (fun _ hs => ⟨⟨hs.1.plain, hs.1.sent⟩, hs.2⟩)

theorem interpreterFish_quiet (e : Env n) (tid src reqtsk dest : Fin n) (age : Int)
    (hS : ∀ k t, S (src, .ack 1 k t)) (hf : ∀ a, S (dest, .fish reqtsk a)) {h : Heap n}
    (hh : fishSparks e tid reqtsk h = 0 ∨ h.sparklist = []) :
    Triple (fun w => Sending S w ∧ w.heap = h) (interpreterFish e tid src reqtsk dest age)
      (fun _ => Sending S) := by
  unfold interpreterFish
  refine Triple.bind startAddressReading_heap (fun _ => ?_)
  refine Triple.bind (finishAddressReading_heap hS _) (fun _ => Triple.read (fun s hs => ?_))
  obtain ⟨hsend, rfl⟩ := hs
  unfold fishSparks at hh
  by_cases hr : reqtsk = tid
  · simp only [hr, if_true]
    split
    · refine (answerFish_quiet e tid tid dest age 0 (hr ▸ hf)).conseq (fun w hw => ?_) (fun _ _ h => h)
      exact ⟨hw ▸ hsend, Or.inl rfl⟩
    · exact Triple.ret _ (fun w hw => hw ▸ hsend)
  · simp only [hr, if_false] at hh ⊢
    split
    · rename_i ho
      rw [if_pos ho] at hh
      refine (answerFish_quiet e tid reqtsk dest age _ hf).conseq (fun w hw => ?_) (fun _ _ h => h)
      exact ⟨hw ▸ hsend, hw ▸ hh⟩
    · rename_i ho
      rw [if_neg ho] at hh
      refine (answerFish_quiet e tid reqtsk dest age _ hf).conseq (fun w hw => ?_) (fun _ _ h => h)
      exact ⟨hw ▸ hsend, hw ▸ hh⟩

theorem interpreterFish_sending (e : Env n) (tid src reqtsk dest : Fin n) (age : Int)
    (hS : ∀ d, S d) : Keeps (Sending S) (interpreterFish e tid src reqtsk dest age) := by
  unfold interpreterFish
  refine Keeps.bind startAddressReading_sending (fun _ => ?_)
  refine Keeps.bind (finishAddressReading_sending (fun _ _ => hS _) _) (fun _ => Keeps.look (fun s => ?_))
  split
  · exact answerFish_sending e tid reqtsk dest age _ (fun _ => hS _) (fun _ => hS _)
  · split
    · exact Keeps.ret _
    · exact answerFish_sending e tid reqtsk dest age _ (fun _ => hS _) (fun _ => hS _)

theorem respondWith_sending (e : Env n) (tid src : Fin n) (store : Gaddr n) (obj : Pntr)
    (hS : ∀ o, S (src, .respond store o)) :
    Keeps (Sending S) (respondWith e tid src store obj) := by
  unfold respondWith
  refine Keeps.bind (writeGaddr_sending _) (fun _ => ?_)
  exact Keeps.bind (writePntr_sending e tid obj) (fun o => msgSend_sending (hS o))

theorem interpreterFetch_sending (e : Env n) (tid src : Fin n) (target store : Gaddr n)
    (hS : ∀ k t, S (src, .ack 1 k t)) (hr : ∀ o, S (src, .respond store o)) :
    Keeps (Sending S) (interpreterFetch e tid src target store) := by
  have hresp : ∀ obj, Keeps (Sending S) (respondWith e tid src store obj) :=
    fun obj => respondWith_sending e tid src store obj hr
  unfold interpreterFetch
  refine Keeps.bind startAddressReading_sending (fun _ => ?_)
  refine Keeps.bind readGaddr_sending (fun _ => Keeps.bind readGaddr_sending (fun _ => ?_))
  refine Keeps.bind (finishAddressReading_sending hS _) (fun _ => ?_)
  refine Keeps.bind (Keeps.check _) (fun _ => Keeps.bind (Keeps.check _) (fun _ => ?_))
  refine Keeps.look (fun s => Keeps.bind (Keeps.need _) (fun g => ?_))
  refine Keeps.bind (onHeap_sending (getGlobal_keeps g)) (fun fetchglo => ?_)
  refine Keeps.bind (onHeap_sending (resolvePntr_plain _)) (fun obj => ?_)
  split
  · exact hresp obj
  · refine Keeps.bind (onHeap_sending (getFrame_plain _)) (fun fr => ?_)
    split
    · exact onHeap_sending (addFetcher_plain _ _)
    · refine Keeps.bind (Keeps.need _) (fun c => ?_)
      refine Keeps.bind (onHeap_sending (unsparkFrame_plain _)) (fun _ => ?_)
      exact Keeps.bind (hresp obj) (fun _ => onHeap_sending (frameSent_plain tid store _ c))
    · refine Keeps.bind (Keeps.need _) (fun c => ?_)
      refine Keeps.bind (onHeap_sending (unsparkFrame_plain _)) (fun _ => ?_)
      exact Keeps.bind (hresp obj) (fun _ => onHeap_sending (frameSent_plain tid store _ c))
    · exact hresp obj

/-- The object of a FETCH request is a frame that runs or is blocked, so that the request waits. -/
def Heap.Awaits (h : Heap n) (target : Gaddr n) : Prop :=
  ∃ g glo p f, h.addrhashLookup target = some g ∧ h.globals g = some glo ∧
    h.resolve glo.p = some p ∧ h.frameOf p = some f ∧ (h.frames f).state = .active

theorem interpreterFetch_quiet (e : Env n) (tid src : Fin n) (target store : Gaddr n)
    (hS : ∀ k t, S (src, .ack 1 k t)) {h : Heap n} (hh : h.Awaits target) :
    Triple (fun w => Sending S w ∧ w.heap = h) (interpreterFetch e tid src target store)
      (fun _ => Sending S) := by
  obtain ⟨g, glo, p, f, hg, hglo, hp, hf, hst⟩ := hh
  unfold interpreterFetch
  refine Triple.bind startAddressReading_heap (fun _ => ?_)
  refine Triple.bind readGaddr_heap (fun _ => Triple.bind readGaddr_heap (fun _ => ?_))
  refine Triple.bind (finishAddressReading_heap hS _) (fun _ => ?_)
  refine Triple.bind (Keeps.check _) (fun _ => Triple.bind (Keeps.check _) (fun _ => ?_))
  refine Triple.read (fun w hw => ?_)
  obtain ⟨hsend, rfl⟩ := hw
  rw [hg]
  -- the lookups are those of `Awaits`
  rintro w' rfl a w'' hr
  have hpure : ∀ {α σ : Type} (a : α) (s : σ), (StateT.pure a : StateT σ Option α) s =
      some (a, s) := fun _ _ => rfl
  have hr' : onHeap (addFetcher (.frame f) store) w' = some (a, w'') := by
    simpa [need, onHeap, getGlobal, resolvePntr, getFrame, zoom, hglo, hp, hf, hst, bind,
      StateT.bind, get, getThe, MonadStateOf.get, StateT.get, pure, hpure] using hr
  exact onHeap_sending (addFetcher_plain f store) w' hsend a w'' hr'

theorem receiveFrame_sending (e : Env n) (tid : Fin n) (srcaddr : Gaddr n) (o : Obj n) :
    Keeps (Sending S) (receiveFrame e tid srcaddr o) := by
  unfold receiveFrame
  refine Keeps.bind readGaddr_sending (fun _ => ?_)
  refine Keeps.bind (readPntr_sending e tid o) (fun framep => Keeps.look (fun s => ?_))
  refine Keeps.bind (Keeps.need _) (fun f => ?_)
  refine Keeps.bind (onHeap_sending (addFetcherUnique_plain f srcaddr)) (fun _ => ?_)
  refine Keeps.bind (onHeap_sending (resolveLocalFetchers_plain tid f)) (fun _ => ?_)
  exact onHeap_sending (runFrameWith_plain _ f)

theorem receiveFrames_sending (e : Env n) (tid : Fin n) :
    ∀ l : List (Gaddr n × Obj n), Keeps (Sending S) (receiveFrames e tid l)
  | [] => Keeps.ret _
  | (srcaddr, o) :: rest =>
    Keeps.bind (receiveFrame_sending e tid srcaddr o) (fun _ => receiveFrames_sending e tid rest)

theorem interpreterSchedule_sending (e : Env n) (tid src : Fin n) (l : List (Gaddr n × Obj n))
    (hS : ∀ k t, S (src, .ack 1 k t)) : Keeps (Sending S) (interpreterSchedule e tid src l) := by
  unfold interpreterSchedule
  refine Keeps.bind startAddressReading_sending (fun _ => ?_)
  refine Keeps.bind (receiveFrames_sending e tid l) (fun _ => ?_)
  exact finishAddressReading_sending hS _

theorem storeResponse_sending (e : Env n) (tid src : Fin n) (target : Nat) (o : Obj n)
    (hS : ∀ k t, S (src, .ack 1 k t)) : Keeps (Sending S) (storeResponse e tid src target o) := by
  unfold storeResponse
  refine Triple.bind (R := fun glo w => glo.wq.fetchers = [] ∧ Sending S w) ?_ (fun glo => ?_)
  · exact Triple.zoom (R := fun _ => Heap.Plain) (S := fun _ glo h => glo.wq.fetchers = [] ∧ h.Plain)
      (fun _ => getGlobal_plain target) (fun _ hs => hs.plain)
      (fun s hs glo h hh => ⟨hh.1, hh.2, hs.sent⟩)
  · refine Triple.pure_pre (fun hg => Keeps.bind (Keeps.check _) (fun _ => ?_))
    refine Keeps.bind (onHeap_sending (setGlobal_plain (by exact hg) target)) (fun _ => ?_)
    refine Keeps.bind (readPntr_sending e tid o) (fun obj => ?_)
    refine Keeps.bind (finishAddressReading_sending hS _) (fun _ => Keeps.look (fun s => ?_))
    refine Keeps.bind (Keeps.when (fun _ => onHeap_sending (redirectTarget_plain target obj)))
      (fun _ => ?_)
    exact responseForFetchingRef_sending e tid target obj

theorem interpreterRespond_sending (e : Env n) (tid src : Fin n) (store : Gaddr n) (o : Obj n)
    (hS : ∀ k t, S (src, .ack 1 k t)) : Keeps (Sending S) (interpreterRespond e tid src store o) := by
  unfold interpreterRespond
  refine Keeps.bind (Keeps.check _) (fun _ => ?_)
  refine Keeps.bind startAddressReading_sending (fun _ => Keeps.bind readGaddr_sending (fun _ => ?_))
  refine Keeps.bind (Keeps.check _) (fun _ => Keeps.look (fun s => ?_))
  refine Keeps.bind (Keeps.need _) (fun r => ?_)
  refine Keeps.bind (onHeap_sending (getGlobal_keeps r)) (fun reference => ?_)
  split
  · unfold ignoreResponse
    refine Keeps.bind (onHeap_sending (resolvePntr_plain _)) (fun _ => ?_)
    refine Keeps.bind (readPntr_sending e tid o) (fun _ => ?_)
    exact finishAddressReading_sending hS _
  · exact Keeps.bind (Keeps.check _) (fun _ => storeResponse_sending e tid src _ o hS)

theorem interpreterAck_sending (src : Fin n) (count naddrs : Nat) :
    Keeps (Sending S) (interpreterAck src count naddrs) := by
  unfold interpreterAck
  refine Keeps.bind (Keeps.check _) (fun _ => Keeps.look (fun s => ?_))
  refine Keeps.bind (Keeps.check _) (fun _ => Keeps.bind (Keeps.check _) (fun _ => ?_))
  refine Keeps.bind (Keeps.check _) (fun _ => Keeps.bind (Keeps.check _) (fun _ => ?_))
  exact Keeps.update (fun _ hs => ⟨hs.plain, hs.sent⟩)

theorem distributeTo_sending (e : Env n) (tid : Fin n) (dist : Fin n → Nat) (hS : ∀ d, S d) :
    ∀ dests, Keeps (Sending S) (distributeTo e tid dist dests)
  | [] => Keeps.ret _
  | dest :: rest => by
    unfold distributeTo
    refine Keeps.bind (scheduleSparks_sending e tid _) (fun items => ?_)
    refine Keeps.bind (Keeps.when (fun _ => msgSend_sending (hS _))) (fun _ => ?_)
    exact distributeTo_sending e tid dist hS rest

/-- Sparks for this task itself only. -/
theorem distributeTo_self (e : Env n) (tid : Fin n) (dist : Fin n → Nat)
    (hd : ∀ dest, dest ≠ tid → dist dest = 0) (hS : ∀ l, S (tid, .schedule l)) :
    ∀ dests, Keeps (Sending S) (distributeTo e tid dist dests)
  | [] => Keeps.ret _
  | dest :: rest => by
    unfold distributeTo
    by_cases hdest : dest = tid
    · refine Keeps.bind (scheduleSparks_sending e tid _) (fun items => ?_)
      refine Keeps.bind (Keeps.when (fun _ => msgSend_sending (hdest ▸ hS _))) (fun _ => ?_)
      exact distributeTo_self e tid dist hd hS rest
    · refine Triple.bind (R := fun items w => items = [] ∧ Sending S w) ?_ (fun items => ?_)
      · intro w hw items w' h
        obtain ⟨h1, h2⟩ := scheduleSparks_none e tid (Or.inl (hd dest hdest)) h
        exact ⟨h1, h2 ▸ hw⟩
      · refine Triple.pure_pre (fun hi => Keeps.bind (Keeps.when (fun hc => absurd hi hc)) (fun _ => ?_))
        exact distributeTo_self e tid dist hd hS rest

/-- No sparks for anybody. -/
theorem distributeTo_none (e : Env n) (tid : Fin n) (dist : Fin n → Nat) :
    ∀ dests {w w' : Interp n} {u : Unit}, w.heap.sparklist = [] →
      distributeTo e tid dist dests w = some (u, w') → w' = w
  | [], w, w', u, _, h => by
    cases h
    rfl
  | dest :: rest, w, w', u, hs, h => by
    unfold distributeTo at h
    obtain ⟨⟨items, w1⟩, h1, h2⟩ := Option.bind_eq_some_iff.mp h
    obtain ⟨hi, hw⟩ := scheduleSparks_none e tid (Or.inr hs) h1
    subst hi hw
    exact distributeTo_none e tid dist rest hs h2

theorem sendRaw_sending {m : List (Gaddr n) → WMsg n} (hS : ∀ d l, S (d, m l)) :
    ∀ l, Keeps (Sending S) (sendRaw m l)
  | [] => Keeps.ret _
  | (d, addrs) :: rest =>
    Keeps.bind (msgSend_sending (hS d addrs)) (fun _ => sendRaw_sending hS rest)

theorem postRaw_sending {m : List (Gaddr n) → WMsg n} (hS : ∀ d l, S (d, m l)) :
    ∀ l, Keeps (Sending S) (postRaw m l)
  | [] => Keeps.ret _
  | (d, addrs) :: rest => by
    refine Keeps.bind (Keeps.update (fun w hw => ⟨hw.plain, fun x hx => ?_⟩))
      (fun _ => postRaw_sending hS rest)
    rcases List.mem_append.mp hx with hx | hx
    · exact hw.sent x hx
    · rw [List.mem_singleton.mp hx]
      exact hS d addrs

theorem readMarks_sending (src : Fin n) (addrs : List (Gaddr n))
    (hS : ∀ k t, S (src, .ack 1 k t)) : Keeps (Sending S) (readMarks src addrs) := by
  unfold readMarks
  refine Keeps.bind startAddressReading_sending (fun _ => ?_)
  exact Keeps.bind (readGaddrs_sending addrs) (fun _ => finishAddressReading_sending hS _)

theorem handleMessage_sending (e : Env n) (tid src dest : Fin n) (deleted : List (Gaddr n))
    (m : WMsg n) (hS : ∀ d, S d) : Keeps (Sending S) (handleMessage e tid src dest deleted m) := by
  cases m with
  | fish reqtsk age => exact interpreterFish_sending e tid src reqtsk dest age hS
  | fetch target store => exact interpreterFetch_sending e tid src target store (fun _ _ => hS _) (fun _ => hS _)
  | respond store o => exact interpreterRespond_sending e tid src store o (fun _ _ => hS _)
  | schedule l => exact interpreterSchedule_sending e tid src l (fun _ _ => hS _)
  | ack count naddrs t => exact interpreterAck_sending src count naddrs
  | haveReplicas l => exact Keeps.when (fun _ => msgSend_sending (hS _))
  | deleteReplicas l => exact Keeps.ret _
  | checkrefs l => exact Keeps.ret _

end Handlers

/-! ## Evaluation -/

section Evaluation

variable {S : Fin n × WMsg n → Prop} (hS : ∀ d, S d)

include hS

theorem respondAll_sending (e : Env n) (tid : Fin n) (obj : Pntr) :
    ∀ l : List (Gaddr n), Keeps (Sending S) (respondAll e tid obj l)
  | [] => Keeps.ret _
  | ft :: rest => by
    unfold respondAll
    refine Keeps.look (fun s => Keeps.bind (Keeps.check _) (fun _ => ?_))
    refine Keeps.bind (writeGaddr_sending _) (fun _ => ?_)
    refine Keeps.bind (writePntr_sending e tid obj) (fun o => ?_)
    exact Keeps.bind (msgSend_sending (hS _)) (fun _ => respondAll_sending e tid obj rest)

theorem resumeWaiters_sending (e : Env n) (tid : Fin n) (g : Nat) (obj : Pntr) :
    Keeps (Sending S) (resumeWaiters e tid (.frame g) obj) := by
  unfold resumeWaiters
  refine Keeps.bind (onHeap_sending (resumeLocalWaiters_plain _)) (fun _ => ?_)
  refine Keeps.bind (onHeap_sending (getQueue_keeps _)) (fun wq => Keeps.when (fun _ => ?_))
  unfold resumeFetchers
  refine Keeps.bind (onHeap_sending (resolvePntr_plain _)) (fun obj => ?_)
  refine Keeps.bind (onHeap_sending (getQueue_keeps _)) (fun wq => ?_)
  refine Keeps.bind (respondAll_sending hS e tid obj _) (fun _ => ?_)
  refine Keeps.bind (onHeap_sending (getQueue_keeps _)) (fun wq => ?_)
  exact onHeap_sending (setQueue_plain _ (fun _ => rfl))

theorem frameEnds_sending (e : Env n) (tid : Fin n) (f : Nat) (val : Pntr) :
    Keeps (Sending S) (frameEnds e tid f val) := by
  unfold frameEnds
  refine Keeps.bind (onHeap_sending (doneFrame_plain f)) (fun _ => ?_)
  refine Keeps.bind (resumeWaiters_sending hS e tid f val) (fun _ => ?_)
  exact onHeap_sending (frameFree_plain f)

theorem frameReturn_sending (e : Env n) (tid : Fin n) (f : Nat) (val : Pntr) :
    Keeps (Sending S) (frameReturn e tid f val) := by
  unfold frameReturn
  refine Keeps.bind (onHeap_sending (getFrame_plain f)) (fun fr => ?_)
  split
  · refine Keeps.bind (Keeps.check _) (fun _ => Keeps.look (fun s => ?_))
    refine Keeps.bind (Keeps.check _) (fun _ => ?_)
    refine Keeps.bind (onHeap_sending (cellMakeInd_plain _ _)) (fun _ => ?_)
    refine Keeps.bind (onHeap_sending (setFrame_plain _ _)) (fun _ => ?_)
    exact frameEnds_sending hS e tid f val
  · refine Keeps.bind (Keeps.need _) (fun r => ?_)
    refine Keeps.bind (onHeap_sending (getFrame_plain _)) (fun cf => ?_)
    refine Keeps.bind (onHeap_sending (setFrame_plain _ _)) (fun _ => ?_)
    refine Keeps.bind (onHeap_sending (getFrame_plain _)) (fun fr => ?_)
    refine Keeps.bind (onHeap_sending (setFrame_plain _ _)) (fun _ => ?_)
    exact frameEnds_sending hS e tid f val

theorem returnCap_sending (e : Env n) (tid : Fin n) (f arity address fno fileno lineno : Nat)
    (data : List Pntr) :
    Keeps (Sending S) (returnCap e tid f arity address fno fileno lineno data) := by
  unfold returnCap
  refine Keeps.bind (onHeap_sending (getFrame_plain f)) (fun fr => ?_)
  split
  · refine Keeps.bind (onHeap_sending (setCell_plain _ _)) (fun _ => ?_)
    refine Keeps.bind (onHeap_sending (setFrame_plain _ _)) (fun _ => ?_)
    exact frameEnds_sending hS e tid f _
  · refine Keeps.bind (onHeap_sending (allocCell_plain _)) (fun c => ?_)
    refine Keeps.bind (Keeps.need _) (fun r => ?_)
    refine Keeps.bind (onHeap_sending (getFrame_plain _)) (fun cf => ?_)
    refine Keeps.bind (onHeap_sending (setFrame_plain _ _)) (fun _ => ?_)
    refine Keeps.bind (onHeap_sending (getFrame_plain _)) (fun fr => ?_)
    refine Keeps.bind (onHeap_sending (setFrame_plain _ _)) (fun _ => ?_)
    exact frameEnds_sending hS e tid f _

theorem sendFetch_sending (tid : Fin n) (target : Nat) (ref : Pntr) :
    Keeps (Sending S) (sendFetch tid target ref) := by
  unfold sendFetch
  refine Keeps.bind (onHeap_sending (getGlobal_keeps _)) (fun glo => ?_)
  refine Keeps.bind (Keeps.check _) (fun _ => ?_)
  refine Keeps.bind (onHeap_sending (getPhysicalAddress_plain tid ref)) (fun storeaddr => ?_)
  refine Keeps.bind (Keeps.check _) (fun _ => ?_)
  refine Keeps.bind (writeGaddr_sending _) (fun _ => Keeps.bind (writeGaddr_sending _) (fun _ => ?_))
  refine Keeps.bind (msgSend_sending (hS _)) (fun _ => ?_)
  refine Triple.bind (R := fun glo w => glo.wq.fetchers = [] ∧ Sending S w) ?_ (fun glo => ?_)
  · exact Triple.zoom (R := fun _ => Heap.Plain) (S := fun _ glo h => glo.wq.fetchers = [] ∧ h.Plain)
      (fun _ => getGlobal_plain target) (fun _ hs => hs.plain)
      (fun s hs glo h hh => ⟨hh.1, hh.2, hs.sent⟩)
  · exact Triple.pure_pre (fun hg => onHeap_sending (setGlobal_plain (by exact hg) target))

theorem opEval_sending (tid : Fin n) (f slot : Nat) : Keeps (Sending S) (opEval tid f slot) := by
  unfold opEval
  refine Keeps.bind (onHeap_sending (getFrame_plain f)) (fun fr => ?_)
  refine Keeps.bind (onHeap_sending (resolvePntr_plain _)) (fun p => ?_)
  refine Keeps.bind (onHeap_sending (setFrame_plain _ _)) (fun _ => Keeps.look (fun s => ?_))
  split
  · refine Keeps.bind (onHeap_sending (addWaiterFrame_plain _ _)) (fun _ => ?_)
    refine Keeps.bind (onHeap_sending (blockFrame_plain _)) (fun _ => ?_)
    exact onHeap_sending (runFrameWith_plain _ _)
  · unfold evalRemoteref
    refine Keeps.bind (onHeap_sending (getGlobal_keeps _)) (fun glo => ?_)
    refine Keeps.bind (Keeps.when (fun _ => sendFetch_sending hS tid _ p)) (fun _ => ?_)
    refine Keeps.look (fun s => Keeps.bind (Keeps.check _) (fun _ => ?_))
    refine Keeps.bind (onHeap_sending (Keeps.update (fun _ hp => hp.congr rfl))) (fun _ => ?_)
    refine Keeps.bind (onHeap_sending (addWaiterFrame_plain _ _)) (fun _ => ?_)
    exact onHeap_sending (blockFrame_plain _)
  · exact Keeps.ret _

theorem startFrameRunning_sending (tid : Fin n) (p : Pntr) :
    Keeps (Sending S) (startFrameRunning tid p) := by
  unfold startFrameRunning
  refine Keeps.bind (onHeap_sending (resolvePntr_plain _)) (fun p => Keeps.look (fun s => ?_))
  split
  · exact onHeap_sending (runFrameWith_plain _ _)
  · refine Keeps.bind (sendFetch_sending hS tid _ p) (fun _ => ?_)
    exact onHeap_sending (Keeps.update (fun _ hp => hp.congr rfl))
  · exact Keeps.ret _

theorem act_sending (e : Env n) (tid : Fin n) (a : Action n) : Keeps (Sending S) (act e tid a) := by
  have hrun : ∀ f, Keeps (Sending S) (onHeap (running f)) := fun f =>
    onHeap_sending (running_plain f)
  cases a with
  | mkframe f instr slot data =>
    exact Keeps.bind (hrun f) (fun _ => onHeap_sending (opMkframe_plain tid f instr slot data))
  | call f instr slot data =>
    exact Keeps.bind (hrun f) (fun _ => onHeap_sending (opCall_plain tid f instr slot data))
  | spark f slot => exact Keeps.bind (hrun f) (fun _ => onHeap_sending (opSpark_plain f slot))
  | eval f slot => exact Keeps.bind (hrun f) (fun _ => opEval_sending hS tid f slot)
  | ret f slot => exact Keeps.bind (hrun f) (fun fr => frameReturn_sending hS e tid f _)
  | retCap f arity address fno fileno lineno data =>
    exact Keeps.bind (hrun f) (fun _ => returnCap_sending hS e tid f arity address fno fileno lineno data)
  | finish f => exact onHeap_sending (opEnd_plain f)
  | migrate f dest =>
    refine Keeps.bind (hrun f) (fun fr => Keeps.bind (Keeps.check _) (fun _ => ?_))
    unfold migrateTo
    refine Keeps.bind (onHeap_sending (doneFrame_plain f)) (fun _ => ?_)
    exact Keeps.bind (scheduleFrame_sending e tid f) (fun item => msgSend_sending (hS _))
  | postpone f =>
    refine Keeps.bind (hrun f) (fun fr => Keeps.bind (Keeps.check _) (fun _ => ?_))
    exact onHeap_sending (postpone_plain e f)
  | startRunning f slot =>
    exact Keeps.bind (hrun f) (fun fr => startFrameRunning_sending hS tid _)
  | suspend f => exact onHeap_sending (suspendFrame_plain f)
  | findSpark f => exact onHeap_sending (findSpark_plain f)
  | fish dest =>
    exact Keeps.look (fun s => Keeps.bind (Keeps.check _) (fun _ => msgSend_sending (hS _)))

end Evaluation

end Runtime
end NReduce
