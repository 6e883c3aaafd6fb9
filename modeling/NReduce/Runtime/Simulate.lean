import NReduce.Runtime.Accounting

/-!
# NReduce.Runtime.Simulate

Runs of a group by evaluation: a list of moves, one for each step, and the group after them.

* `execAll_run`: what the moves lead to is reached by a run.
* `reaches`: a property of the group and of its history that holds after some moves.
-/

namespace NReduce
namespace Runtime

open Logic Network

variable {n : Nat} {e : Env n} {gc : Heap n → Heap n → Prop}

/-- A step of a group, outside the collections. -/
inductive Move (n : Nat) where
  | timeout
  /-- the collector receives a message of a task -/
  | receive (i : Fin n)
  /-- a task handles PAUSE or RESUME -/
  | control (i : Fin n)
  /-- task `i` handles the GOTPAUSE of task `j` -/
  | gotpause (i j : Fin n)
  /-- task `i` handles a message of task `j`; a FISH request is passed on to `dest` -/
  | work (i j dest : Fin n)
  | evaluate (i : Fin n) (a : Action n)

/-- The state and what has been sent, after a program of a task. -/
def outcome (m : InterpM n Unit) (w : Interp n) : Option (Interp n × List (Fin n × WMsg n)) :=
  (m w).map (fun r => (r.2.settled, r.2.acct.sent))

theorem runs_outcome {m : InterpM n Unit} {w w' : Interp n} {out : List (Fin n × WMsg n)}
    (h : outcome m w = some (w', out)) : Runs m w w' out := by
  obtain ⟨⟨u, r⟩, hr, he⟩ := Option.map_eq_some_iff.mp h
  cases he
  exact ⟨r, hr, rfl, rfl⟩

/-- Task `i` takes a message and becomes `t'`. -/
def Group.handled (s : Group (interp e gc)) (i : Fin n) (j : Party n) (m : Msg n (WMsg n))
    (r : Option (Task (interp e gc) × Sends n (WMsg n))) :
    Option (Group (interp e gc) × Event (interp e gc)) :=
  if (s.task i).marking = none then
    r.map (fun r => ((s.setTask i r.1).deliver ⟨some i, some (j, m), [], r.2⟩,
      ⟨some i, some (j, m), [], r.2⟩))
  else none

def exec (s : Group (interp e gc)) : Move n → Option (Group (interp e gc) × Event (interp e gc))
  | .timeout =>
    (gcTimeout s.gc).map (fun r =>
      ({ s with gc := r.1 }.deliver ⟨none, none, [], r.2⟩, ⟨none, none, [], r.2⟩))
  | .receive i =>
    match s.chan (some i) none with
    | m :: _ =>
      (gcReceive s.gc m).map (fun r =>
        ({ s with gc := r.1 }.deliver ⟨none, some (some i, m), [], r.2⟩,
          ⟨none, some (some i, m), [], r.2⟩))
    | [] => none
  | .control i =>
    match s.chan none (some i) with
    | .pause :: _ => s.handled i none .pause (interpreterPause i (s.task i))
    | .resume :: _ => s.handled i none .resume (some (interpreterResume (s.task i), []))
    | _ => none
  | .gotpause i j =>
    match s.chan (some j) (some i) with
    | .gotpause :: _ => s.handled i (some j) .gotpause (interpreterGotpause (s.task i))
    | _ => none
  | .work i j dest =>
    match s.chan (some j) (some i) with
    | .work m :: _ =>
      s.handled i (some j) (.work m)
        ((outcome (handleMessage e i j dest [] m) (s.task i).work).map
          (fun r => ({ s.task i with work := r.1 }, asWork r.2)))
    | _ => none
  | .evaluate i a =>
    if (s.task i).marking = none ∧ (s.task i).paused = false then
      (outcome (act e i a) (s.task i).work).map (fun r =>
        ((s.setTask i { s.task i with work := r.1 }).deliver ⟨some i, none, [], asWork r.2⟩,
          ⟨some i, none, [], asWork r.2⟩))
    else none

theorem handled_step {s s' : Group (interp e gc)} {i : Fin n} {j : Party n}
    {m : Msg n (WMsg n)} {rest : List (Msg n (WMsg n))} {ev : Event (interp e gc)}
    {r : Option (Task (interp e gc) × Sends n (WMsg n))}
    (hch : s.chan j (some i) = m :: rest) (h : s.handled i j m r = some (s', ev))
    (hr : ∀ t' out, r = some (t', out) → Handles i (s.task i) j m [] t' out) : Step s ev s' := by
  unfold Group.handled at h
  split at h
  · obtain ⟨⟨t', out⟩, hr', he⟩ := Option.map_eq_some_iff.mp h
    cases he
    exact .handle hch ‹_› (hr t' out hr')
  · cases h

theorem exec_step {s s' : Group (interp e gc)} {mv : Move n} {ev : Event (interp e gc)}
    (h : exec s mv = some (s', ev)) : Step s ev s' := by
  cases mv with
  | timeout =>
    obtain ⟨⟨g, out⟩, hr, he⟩ := Option.map_eq_some_iff.mp h
    cases he
    exact .timeout hr
  | receive i =>
    simp only [exec] at h
    split at h
    · rename_i m rest hch
      obtain ⟨⟨g, out⟩, hr, he⟩ := Option.map_eq_some_iff.mp h
      cases he
      exact .receive hch hr
    · cases h
  | control i =>
    simp only [exec] at h
    split at h
    · exact handled_step ‹_› h (fun t' out hr => .pause hr)
    · refine handled_step ‹_› h (fun t' out hr => ?_)
      cases hr
      exact .resume
    · cases h
  | gotpause i j =>
    simp only [exec] at h
    split at h
    · exact handled_step ‹_› h (fun t' out hr => .gotpause hr)
    · cases h
  | work i j dest =>
    simp only [exec] at h
    split at h
    · refine handled_step ‹_› h (fun t' out hr => ?_)
      obtain ⟨⟨w, out'⟩, hr', he⟩ := Option.map_eq_some_iff.mp hr
      cases he
      exact .work ⟨dest, [], runs_outcome hr'⟩
    · cases h
  | evaluate i a =>
    simp only [exec] at h
    split at h
    · rename_i hc
      obtain ⟨⟨w, out'⟩, hr', he⟩ := Option.map_eq_some_iff.mp h
      cases he
      exact .evaluate hc.1 hc.2 (.act a (runs_outcome hr'))
    · cases h

def execAll : List (Move n) → Group (interp e gc) × List (Event (interp e gc)) →
    Option (Group (interp e gc) × List (Event (interp e gc)))
  | [], r => some r
  | mv :: mvs, r =>
    match exec r.1 mv with
    | some (s', ev) => execAll mvs (s', r.2 ++ [ev])
    | none => none

theorem execAll_run {init : Group (interp e gc) → Prop} : ∀ {mvs : List (Move n)}
    {s s' : Group (interp e gc)} {tr tr' : List (Event (interp e gc))}, Run init Step s tr →
    execAll mvs (s, tr) = some (s', tr') → Run init Step s' tr'
  | [], s, s', tr, tr', hr, h => by
    cases h
    exact hr
  | mv :: mvs, s, s', tr, tr', hr, h => by
    unfold execAll at h
    split at h
    · rename_i s1 ev hx
      exact execAll_run (hr.next (exec_step hx)) h
    · cases h

/-- A property that holds after some moves from a state that is reached holds in another one. -/
theorem reaches {init : Group (interp e gc) → Prop} {s : Group (interp e gc)}
    (hs : Run init Step s []) (mvs : List (Move n))
    (P : Group (interp e gc) → List (Event (interp e gc)) → Bool)
    (h : (execAll mvs (s, [])).any (fun r => P r.1 r.2) = true) :
    ∃ s' tr, Run init Step s' tr ∧ P s' tr = true := by
  cases hx : execAll mvs (s, []) with
  | none =>
    rw [hx] at h
    cases h
  | some r =>
    rw [hx] at h
    exact ⟨r.1, r.2, execAll_run hs hx, h⟩

/-! ## How a group starts -/

/-- The heap of a task that has been created: no global and no frame, but that of the program in
the first task. -/
structure Started (tid : Fin n) (h : Heap n) : Prop where
  globals : h.globals = fun _ => none
  addrhash : h.addrhash = []
  targethash : h.targethash = []
  physhash : h.physhash = []
  sparklist : h.sparklist = []
  ioframes : h.ioframes = []
  nfetching : h.nfetching = 0
  /-- the cell of the only frame is its own, and the other cells hold no frame -/
  cells : ∀ c, (∀ p, h.cells c ≠ .ind p) ∧ (∀ g, h.cells c ≠ .remoteref g) ∧
    (∀ f, h.cells c = .frame f → f < h.nframes ∧ (h.frames f).c = some c)
  main : if tid.val = 0 then h.nframes = 1 ∧ h.runq = [0] else h.nframes = 0 ∧ h.runq = []
  frame : ∀ f, f < h.nframes → (h.frames f).state = .active ∧ (h.frames f).wq = {} ∧
    (h.frames f).retp = none ∧ (∃ c, (h.frames f).c = some c ∧ h.cells c = .frame f)
  fresh : ∀ f, h.nframes ≤ f → h.frames f = {}

/-- The runs of a group from its start. -/
abbrev StartedRun (e : Env n) (gc : Heap n → Heap n → Prop) :
    Group (interp e gc) → List (Event (interp e gc)) → Prop :=
  Run (fun s => Initial s ∧ ∀ i, (s.task i).work.acct = {} ∧ Started i (s.task i).work.heap) Step

instance neZero_two : NeZero 2 := ⟨by decide⟩

theorem small_buildarray : (fun a => if a = 9 then 3 else 1 : Nat → Nat) 9 = 3 := rfl

theorem small_wrapper (a : Nat) (ha : (fun _ => false : Nat → Bool) a = true) :
    (fun a => if a = 9 then 3 else 1 : Nat → Nat) ((fun _ => 0 : Nat → Nat)
      ((fun _ => 0 : Nat → Nat) a) + 1) = (fun a => if a = 9 then 3 else 1 : Nat → Nat) a := by
  cases ha

/-- A program whose functions have one argument. -/
def smallEnv : Env 2 where
  expcount := fun a => if a = 9 then 3 else 1
  fno := fun _ => 0
  funAddress := fun _ => 0
  numBuiltins := 1
  buildarray := 9
  optBuildarray := false
  optFishhalf := false
  optFishframes := 1
  expand := fun cells k _ => (cells, k)
  atBif := fun _ => false
  buildarray_expcount := small_buildarray
  wrapper_expcount := small_wrapper

/-- The heap of the first task: the frame of the program. -/
def mainHeap : Heap 2 where
  cells := fun c => match c with
    | 0 => .nil
    | 1 => .frame 0
    | _ => .empty
  ncells := 2
  frames := fun f => match f with
    | 0 => { c := some 1, state := .active, data := fun _ => nilPntr }
    | _ => {}
  nframes := 1
  runq := [0]

def idleHeap : Heap 2 where
  cells := fun c => match c with
    | 0 => .nil
    | _ => .empty
  ncells := 1

abbrev noGc : Heap 2 → Heap 2 → Prop := fun _ _ => False

/-- Two tasks as they are started. -/
def startGroup (gc : Heap 2 → Heap 2 → Prop) : Group (interp smallEnv gc) where
  gc := {}
  task := fun i => { work := { heap := if i = 0 then mainHeap else idleHeap } }
  chan := fun _ _ => []

theorem startGroup_initial (gc : Heap 2 → Heap 2 → Prop) : Initial (startGroup gc) :=
  ⟨rfl, fun _ => ⟨_, rfl⟩, fun _ _ => rfl⟩

theorem startGroup_run (gc : Heap 2 → Heap 2 → Prop) : InterpRun smallEnv gc (startGroup gc) [] :=
  .start ⟨startGroup_initial gc, fun _ => rfl⟩

theorem mainHeap_started : Started 0 mainHeap := by
  refine ⟨rfl, rfl, rfl, rfl, rfl, rfl, rfl, fun c => ?_, ⟨rfl, rfl⟩, fun f hf => ?_, fun f hf => ?_⟩
  · match c with
    | 0 => simp [mainHeap]
    | 1 => simp [mainHeap]
    | c + 2 => simp [mainHeap]
  · obtain rfl : f = 0 := Nat.lt_one_iff.mp hf
    exact ⟨rfl, rfl, rfl, 1, rfl, rfl⟩
  · match f, hf with
    | f + 1, _ => rfl

theorem idleHeap_started : Started 1 idleHeap := by
  refine ⟨rfl, rfl, rfl, rfl, rfl, rfl, rfl, fun c => ?_, ⟨rfl, rfl⟩, fun f hf => ?_, fun f hf => rfl⟩
  · match c with
    | 0 => simp [idleHeap]
    | c + 1 => simp [idleHeap]
  · cases hf

theorem startGroup_starts (gc : Heap 2 → Heap 2 → Prop) : Initial (startGroup gc) ∧
    ∀ i, ((startGroup gc).task i).work.acct = {} ∧
      Started i ((startGroup gc).task i).work.heap := by
  refine ⟨startGroup_initial gc, fun i => ⟨rfl, ?_⟩⟩
  match i with
  | 0 => exact mainHeap_started
  | 1 => exact idleHeap_started

theorem startGroup_started (gc : Heap 2 → Heap 2 → Prop) :
    StartedRun smallEnv gc (startGroup gc) [] :=
  .start (startGroup_starts gc)

/-- The program makes a frame, with itself as the argument, and sparks it. -/
def sparkMoves : List (Move 2) := [.evaluate 0 (.mkframe 0 5 0 (fun _ => .cell 1 0)),
  .evaluate 0 (.spark 0 0)]

/-- The message SCHEDULE that task 1 gets for its FISH request has three addresses, the last of them
the address of the argument of the frame. -/
theorem inflight_exact_sparks : ∃ s tr, InterpRun smallEnv noGc s tr ∧
    (unacked tr 0 1).map List.length = [3] ∧
    (s.task 0).work.acct.inflightAddrs 1 = (unacked tr 0 1).flatMap List.reverse := by
  obtain ⟨s, tr, hr, hp⟩ := reaches (startGroup_run noGc)
    (sparkMoves ++ [.evaluate 1 (.fish 0), .work 0 1 1])
    (fun _ tr => (unacked tr 0 1).map List.length == [3]) (by decide +kernel)
  exact ⟨s, tr, hr, eq_of_beq hp, (inflight_exact hr 0 1).1⟩

/-- The addresses of one message are not in the order in which they have been written. -/
theorem inflight_exact_reversed : ¬ ∀ s tr, InterpRun smallEnv noGc s tr →
    (s.task 0).work.acct.inflightAddrs 1 = (unacked tr 0 1).flatten := by
  intro h
  obtain ⟨s, tr, hr, hp⟩ := reaches (startGroup_run noGc)
    (sparkMoves ++ [.evaluate 1 (.fish 0), .work 0 1 1])
    (fun s tr => decide ((s.task 0).work.acct.inflightAddrs 1 ≠ (unacked tr 0 1).flatten))
    (by decide +kernel)
  exact of_decide_eq_true hp (h s tr hr)

end Runtime
end NReduce
