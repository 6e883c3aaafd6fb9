import NReduce.Network.Channel
import Mathlib.Data.List.FinRange

/-!
# NReduce.Runtime.Group

A group of tasks and the thread that drives their garbage collections: `gc_thread`, `pause_all` and
`resume_all` of `manager.c`, and the handlers of `interpreter.c` for the messages they exchange.

What the tasks do besides (evaluation, the messages FISH, FETCH, RESPOND, SCHEDULE and ACK, the
heap that a collection walks over) is the parameter `Work`: the results about pauses and about the
collector hold for every behaviour of it.

A handler gives `none` where an assertion of the source fails or `fatal` is called.
-/

namespace NReduce
namespace Runtime

open Network

/-- `gaddr`: the task that gave out the address, and the number it gave. -/
structure Gaddr (n : Nat) where
  tid : Fin n
  lid : Nat
  deriving DecidableEq

/-- The rest of the tasks. The lists of pairs are the messages a step sends, with their
destinations. -/
structure Work (n : Nat) where
  State : Type
  Msg : Type
  /-- handling a message of another task -/
  handle : Fin n → State → Fin n → Msg → State → List (Fin n × Msg) → Prop
  /-- handling a message from outside the group: I/O thread, scheduler, Java bridge -/
  external : Fin n → State → State → List (Fin n × Msg) → Prop
  /-- evaluation between two messages -/
  evaluate : Fin n → State → State → List (Fin n × Msg) → Prop
  /-- `distributed_collect_start`: the third argument lists the arguments of `add_pending_mark` -/
  collectStart : Fin n → State → List (Gaddr n) → State → List (Fin n × Msg) → Prop
  /-- the loop of `interpreter_markentry` over the addresses of a message of another task; the
  fifth argument lists the arguments of `add_pending_mark` -/
  markEntry : Fin n → State → Fin n → List (Gaddr n) → List (Gaddr n) → State →
    List (Fin n × Msg) → Prop
  /-- writing the addresses of a MARKENTRY message -/
  writeMarks : State → Fin n → List (Gaddr n) → State
  /-- `distributed_collect_end` -/
  collectEnd : Fin n → State → State → List (Fin n × Msg) → Prop
  /-- `send_checkrefs` -/
  checkRefs : Fin n → State → List (Fin n × Msg) → Prop

section

variable {n : Nat}

inductive Msg (n : Nat) (W : Type) where
  | pause
  | pauseack
  | gotpause
  | resume
  | startdistgc (gciter : Nat)
  | startdistgcack
  | markroots
  | markentry (addrs : List (Gaddr n))
  | update (gciter : Nat) (counts : Fin n → Int)
  | sweep
  | sweepack
  | checkallrefs
  | work (w : W)

/-- The collector is `none`, a task `some` of its number. -/
abbrev Party (n : Nat) := Option (Fin n)

abbrev Sends (n : Nat) (W : Type) := List (Party n × Msg n W)

/-- One message to every task, in the order of the tasks. -/
def toAll {W : Type} (m : Msg n W) : Sends n W := (List.finRange n).map (fun i => (some i, m))

/-- One message to every task but `i`. -/
def toOthers {W : Type} (i : Fin n) (m : Msg n W) : Sends n W :=
  ((List.finRange n).filter (fun j => j ≠ i)).map (fun j => (some j, m))

/-- Messages between tasks, as they are sent. -/
def asWork {W : Type} (out : List (Fin n × W)) : Sends n W :=
  out.map (fun d => (some d.1, .work d.2))

/-! ## `gc_thread` -/

structure Collector (n : Nat) where
  /-- the acknowledgements that the loop of `pause_all` still waits for -/
  waiting : Nat := 0
  ingc : Bool := false
  count : Fin n → Int := fun _ => 0
  markDone : Bool := false
  remStartacks : Nat := 0
  remSweepacks : Nat := 0
  gciter : Nat := 0

variable {W : Type}

/-- No message for `DISTGC_DELAY`: a collection starts, with `pause_all`. -/
def gcTimeout (gc : Collector n) : Option (Collector n × Sends n W) :=
  if gc.ingc then none
  else some ({ gc with gciter := gc.gciter + 1, ingc := true, waiting := n }, toAll .pause)

/-- One message received by `gc_thread`, in the loop of `pause_all` or in its own. -/
def gcReceive (gc : Collector n) (m : Msg n W) : Option (Collector n × Sends n W) :=
  if 0 < gc.waiting then
    match m with
    | .pauseack =>
      if gc.waiting = 1 then
        some ({ gc with waiting := 0, remStartacks := n }, toAll (.startdistgc gc.gciter))
      else some ({ gc with waiting := gc.waiting - 1 }, [])
    | _ => none
  else
    match m with
    | .startdistgcack =>
      if gc.ingc ∧ ¬ gc.markDone ∧ 0 < gc.remStartacks then
        if gc.remStartacks = 1 then
          some ({ gc with remStartacks := 0, count := fun _ => 1 }, toAll .markroots)
        else some ({ gc with remStartacks := gc.remStartacks - 1 }, [])
      else none
    | .update gciter counts =>
      if gc.ingc ∧ ¬ gc.markDone ∧ gciter = gc.gciter then
        let count := fun i => gc.count i + counts i
        if ∀ i, count i = 0 then
          some ({ gc with count := count, markDone := true, remSweepacks := n }, toAll .sweep)
        else some ({ gc with count := count }, [])
      else none
    | .sweepack =>
      if gc.ingc ∧ gc.markDone ∧ 0 < gc.remSweepacks then
        if gc.remSweepacks = 1 then
          if ∀ i, gc.count i = 0 then
            some ({ gc with remSweepacks := 0, ingc := false, markDone := false },
              toAll .checkallrefs ++ toAll .resume)
          else none
        else some ({ gc with remSweepacks := gc.remSweepacks - 1 }, [])
      else none
    | _ => none

/-! ## The handlers of a task -/

structure Task (W : Work n) where
  /-- `tsk->gc` is not the null endpoint -/
  gc : Bool := false
  paused : Bool := false
  gotpause : Nat := 0
  indistgc : Bool := false
  gciter : Nat := 0
  gcsent : Fin n → Int := fun _ => 0
  distmarks : Fin n → List (Gaddr n) := fun _ => []
  /-- inside a marking handler (`inmark`), the position of the loop of `send_mark_messages` -/
  marking : Option Nat := none
  /-- the globals of this task with `FLAG_DMB` set by a MARKENTRY -/
  dmb : List (Gaddr n) := []
  work : W.State

end

variable {n : Nat} {W : Work n}

def maybePauseack (t : Task W) : Sends n W.Msg :=
  if t.paused ∧ n - 1 = t.gotpause then [(none, .pauseack)] else []

def interpreterPause (i : Fin n) (t : Task W) : Option (Task W × Sends n W.Msg) :=
  if t.paused then none
  else
    let t' := { t with gc := true, paused := true }
    some (t', toOthers i .gotpause ++ maybePauseack t')

def interpreterGotpause (t : Task W) : Option (Task W × Sends n W.Msg) :=
  let t' := { t with gotpause := t.gotpause + 1 }
  if t'.gotpause ≤ n - 1 then some (t', maybePauseack t') else none

def interpreterResume (t : Task W) : Task W := { t with paused := false, gotpause := 0 }

def interpreterStartdistgc (gciter : Nat) (t : Task W) : Option (Task W × Sends n W.Msg) :=
  if t.indistgc then none
  else some ({ t with indistgc := true, gc := true, gciter := gciter }, [(none, .startdistgcack)])

/-- The start of a marking handler: its assertions, `inmark`, and the marks requested while the
heap is walked. `took` roots or addresses have been dealt with. -/
def startMarking (i : Fin n) (took : Nat) (pending : List (Gaddr n)) (t : Task W) :
    Option (Task W) :=
  if t.indistgc ∧ t.gc ∧ ∀ j, t.distmarks j = [] then
    some { t with
      marking := some 0
      distmarks := fun j => pending.filter (fun a => a.tid = j)
      gcsent := fun j => if j = i then t.gcsent j - took else t.gcsent j }
  else none

/-- One turn of the loop of `send_mark_messages`, for task `j`. -/
def sendMarkMessage (j : Fin n) (t : Task W) : Task W × Sends n W.Msg :=
  if t.distmarks j = [] then (t, [])
  else
    ({ t with
        gcsent := fun k => if k = j then t.gcsent k + (t.distmarks j).length else t.gcsent k
        distmarks := fun k => if k = j then [] else t.distmarks k
        work := W.writeMarks t.work j (t.distmarks j) },
      [(some j, .markentry (t.distmarks j))])

/-- `send_update`, and the end of the marking handler. -/
def sendUpdate (t : Task W) : Task W × Sends n W.Msg :=
  ({ t with gcsent := fun _ => 0, marking := none }, [(none, .update t.gciter t.gcsent)])

/-- The next step of a marking handler that has not ended. -/
def continueMarking (t : Task W) : Option (Task W × Sends n W.Msg) :=
  match t.marking with
  | none => none
  | some pid =>
    if h : pid < n then
      let (t', out) := sendMarkMessage ⟨pid, h⟩ t
      some ({ t' with marking := some (pid + 1) }, out)
    else some (sendUpdate t)

def interpreterSweep (t : Task W) : Option (Task W × Sends n W.Msg) :=
  if t.indistgc ∧ t.gc then some ({ t with indistgc := false, dmb := [] }, [(none, .sweepack)])
  else none

/-- `handle_message` of task `i`, for a message of `j`. The list of addresses is what the handler
gives to `add_pending_mark`. -/
inductive Handles (i : Fin n) : Task W → Party n → Msg n W.Msg → List (Gaddr n) → Task W →
    Sends n W.Msg → Prop where
  | pause {t t' : Task W} {out : Sends n W.Msg} :
      interpreterPause i t = some (t', out) → Handles i t none .pause [] t' out
  | gotpause {t t' : Task W} {out : Sends n W.Msg} {j : Fin n} :
      interpreterGotpause t = some (t', out) → Handles i t (some j) .gotpause [] t' out
  | resume {t : Task W} : Handles i t none .resume [] (interpreterResume t) []
  | startdistgc {t t' : Task W} {out : Sends n W.Msg} {k : Nat} :
      interpreterStartdistgc k t = some (t', out) → Handles i t none (.startdistgc k) [] t' out
  | markroots {t t' : Task W} {pending : List (Gaddr n)} {w : W.State}
      {out : List (Fin n × W.Msg)} :
      W.collectStart i t.work pending w out → startMarking i 1 pending { t with work := w } = some t' →
      Handles i t none .markroots pending t' (asWork out)
  | markentry {t t' : Task W} {j : Fin n} {addrs pending : List (Gaddr n)} {w : W.State}
      {out : List (Fin n × W.Msg)} :
      W.markEntry i t.work j addrs pending w out → (∀ a ∈ addrs, a.tid = i) →
      startMarking i addrs.length pending { t with work := w, dmb := addrs ++ t.dmb } = some t' →
      Handles i t (some j) (.markentry addrs) pending t' (asWork out)
  | sweep {t t' : Task W} {w : W.State} {out : List (Fin n × W.Msg)} {ack : Sends n W.Msg} :
      W.collectEnd i t.work w out → interpreterSweep { t with work := w } = some (t', ack) →
      Handles i t none .sweep [] t' (asWork out ++ ack)
  | checkallrefs {t : Task W} {out : List (Fin n × W.Msg)} :
      W.checkRefs i t.work out → Handles i t none .checkallrefs [] t (asWork out)
  | work {t : Task W} {j : Fin n} {m : W.Msg} {w : W.State} {out : List (Fin n × W.Msg)} :
      W.handle i t.work j m w out → Handles i t (some j) (.work m) [] { t with work := w } (asWork out)

/-! ## The group -/

structure Group (W : Work n) where
  gc : Collector n
  task : Fin n → Task W
  chan : Channels (Party n) (Msg n W.Msg)

def Group.setTask (s : Group W) (i : Fin n) (t : Task W) : Group W :=
  { s with task := fun j => if j = i then t else s.task j }

@[simp] theorem setTask_chan (s : Group W) (i : Fin n) (t : Task W) :
    (s.setTask i t).chan = s.chan := rfl

@[simp] theorem setTask_gc (s : Group W) (i : Fin n) (t : Task W) :
    (s.setTask i t).gc = s.gc := rfl

theorem setTask_self (s : Group W) (i : Fin n) (t : Task W) : (s.setTask i t).task i = t := by
  simp [Group.setTask]

theorem setTask_other (s : Group W) {i j : Fin n} (t : Task W) (h : j ≠ i) :
    (s.setTask i t).task j = s.task j := by
  simp [Group.setTask, h]

/-- What a step did: who did it, the message it took out of a channel, the marks it requested and
the messages it sent. -/
structure Event (W : Work n) where
  actor : Party n
  took : Option (Party n × Msg n W.Msg)
  pending : List (Gaddr n)
  out : Sends n W.Msg

/-- The group after `actor` has taken a message, if any, and sent others. -/
def Group.deliver (s : Group W) (e : Event W) : Group W :=
  { s with
    chan := (match e.took with
      | some (j, _) => s.chan.pop j e.actor
      | none => s.chan).sendAll e.actor e.out }

@[simp] theorem deliver_task (s : Group W) (e : Event W) : (s.deliver e).task = s.task := rfl

@[simp] theorem deliver_gc (s : Group W) (e : Event W) : (s.deliver e).gc = s.gc := rfl

/-- One step of one party. A task handles no message while it is inside a marking handler, and
evaluates only when it is not paused. -/
inductive Step : Group W → Event W → Group W → Prop where
  | timeout {s : Group W} {gc : Collector n} {out : Sends n W.Msg} :
      gcTimeout s.gc = some (gc, out) →
      Step s ⟨none, none, [], out⟩ ({ s with gc := gc }.deliver ⟨none, none, [], out⟩)
  | receive {s : Group W} {gc : Collector n} {out : Sends n W.Msg} {i : Fin n} {m : Msg n W.Msg}
      {rest : List (Msg n W.Msg)} :
      s.chan (some i) none = m :: rest → gcReceive s.gc m = some (gc, out) →
      Step s ⟨none, some (some i, m), [], out⟩
        ({ s with gc := gc }.deliver ⟨none, some (some i, m), [], out⟩)
  | handle {s : Group W} {i : Fin n} {j : Party n} {m : Msg n W.Msg} {rest : List (Msg n W.Msg)}
      {pending : List (Gaddr n)} {t' : Task W} {out : Sends n W.Msg} :
      s.chan j (some i) = m :: rest → (s.task i).marking = none →
      Handles i (s.task i) j m pending t' out →
      Step s ⟨some i, some (j, m), pending, out⟩
        ((s.setTask i t').deliver ⟨some i, some (j, m), pending, out⟩)
  | mark {s : Group W} {i : Fin n} {t' : Task W} {out : Sends n W.Msg} :
      continueMarking (s.task i) = some (t', out) →
      Step s ⟨some i, none, [], out⟩ ((s.setTask i t').deliver ⟨some i, none, [], out⟩)
  | external {s : Group W} {i : Fin n} {w : W.State} {out : List (Fin n × W.Msg)} :
      (s.task i).marking = none → W.external i (s.task i).work w out →
      Step s ⟨some i, none, [], asWork out⟩
        ((s.setTask i { s.task i with work := w }).deliver ⟨some i, none, [], asWork out⟩)
  | evaluate {s : Group W} {i : Fin n} {w : W.State} {out : List (Fin n × W.Msg)} :
      (s.task i).marking = none → (s.task i).paused = false →
      W.evaluate i (s.task i).work w out →
      Step s ⟨some i, none, [], asWork out⟩
        ((s.setTask i { s.task i with work := w }).deliver ⟨some i, none, [], asWork out⟩)

/-- A group as it is started: nothing in flight, all counters zero. -/
structure Initial (s : Group W) : Prop where
  gc : s.gc = {}
  task : ∀ i, ∃ w, s.task i = { work := w }
  chan : ∀ a b, s.chan a b = []

/-- The states of a group, each with what happened before. -/
abbrev GroupRun (W : Work n) : Group W → List (Event W) → Prop := Run Initial Step

end Runtime
end NReduce
