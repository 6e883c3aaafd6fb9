import NReduce.Runtime.SuspendInv

/-!
# NReduce.Runtime.SuspendTask

The slots of the task, its frames and its sysobjects agree: a frame in a slot is stopped at a
builtin, and the sysobject of that builtin has the ioid of the slot. The moves of the task keep
this, and keep the ioids in one place.
-/

namespace NReduce
namespace Runtime
namespace Suspend

/-! ## The history -/

/-- The suspension that is in the slot `ioid` after these events. -/
def outstanding : List Event → Nat → Option Ticket
  | [], _ => none
  | .suspended i t :: rest, ioid => if i = ioid then some t else outstanding rest ioid
  | .retrieved i _ :: rest, ioid => if i = ioid then none else outstanding rest ioid

namespace Cause

/-- What takes a frame out of its slot belongs to the suspension in the slot: the response to the
same operation, the notice that its connection is closed, or the collection that it waits for. -/
def Answers (t : Ticket) : Cause → Prop
  | response op t' => t' = t ∧ t.op = some op
  | connectionClosed sid => (t.op = some .read ∨ t.op = some .write) ∧ t.sid = sid
  | collected t' => t' = t ∧ t.op = none

end Cause

/-- No slot is handed out while it is in use, every suspension has a name of its own, and a frame is
taken out of a slot only by what answers the suspension in the slot. -/
def Proper : List Event → Prop
  | [] => True
  | .suspended ioid t :: rest =>
    outstanding rest ioid = none ∧ (∀ i, .suspended i t ∉ rest) ∧ Proper rest
  | .retrieved ioid cause :: rest =>
    (∃ t, outstanding rest ioid = some t ∧ cause.Answers t) ∧ Proper rest

/-! ## The invariant -/

namespace Frameaddr

def type : Frameaddr → SysobjectType
  | connect | read | write => .connection
  | listen | accept => .listener

end Frameaddr

namespace Task

/-- The builtin at which the frame of a slot is stopped. -/
def Stopped (tsk : Task) (ioid : Nat) (instr : Bif) (t : Ticket) : Prop :=
  (t.op = none ∧ instr = .opencon none) ∨
  ∃ op i so, t.op = some op ∧ instr.op = op ∧ instr.top = some i ∧ tsk.sysobjects i = some so ∧
    so.frameids op = ioid ∧ so.type = op.type ∧ (op.type = .connection → so.sockid = t.sid) ∧
    (op = .connect → t.sid = 0) ∧ (op = .read ∨ op = .write → t.sid ≠ 0)

structure Slot (tsk : Task) (ioid f : Nat) : Prop where
  pos : 0 < ioid
  lt : ioid < tsk.iocount
  blocked : (tsk.frames f).blocked = true
  stopped : ∃ instr, (tsk.frames f).instr = some instr ∧ tsk.Stopped ioid instr (tsk.owner ioid)

/-- A frame that has been unblocked has still to execute `instr` again. -/
def Woken (tsk : Task) (instr : Bif) : Prop :=
  ∃ f, (tsk.frames f).instr = some instr ∧ (tsk.frames f).blocked = false

structure Inv (tsk : Task) : Prop where
  pos : 0 < tsk.iocount
  slot : ∀ ioid f, (tsk.ioframes ioid).f = some f → tsk.Slot ioid f
  slot_inj : ∀ a b f, (tsk.ioframes a).f = some f → (tsk.ioframes b).f = some f → a = b
  owned : ∀ i so op, tsk.sysobjects i = some so → so.frameids op ≠ 0 →
    ∃ f instr, (tsk.ioframes (so.frameids op)).f = some f ∧ (tsk.frames f).instr = some instr ∧
      instr.top = some i ∧ instr.op = op
  closed : ∀ i so, tsk.sysobjects i = some so → so.closed = true →
    so.frameids .read = 0 ∧ so.frameids .write = 0
  -- what a response brought is for a frame that has not run yet
  buf : ∀ i so, tsk.sysobjects i = some so → so.buf ≠ [] →
    so.type = .connection ∧ (so.closed = false → tsk.Woken (.readcon i))
  newso : ∀ i so, tsk.sysobjects i = some so → so.newso ≠ none →
    so.type = .listener ∧ tsk.Woken (.accept i)
  newso_so : ∀ i so j, tsk.sysobjects i = some so → so.newso = some j →
    j < tsk.nsysobjects ∧ ∀ so', tsk.sysobjects j = some so' → so'.listenerso ≠ none
  connected : ∀ i so, tsk.sysobjects i = some so → so.connected = true →
    so.type = .connection ∧ so.sockid ≠ 0
  bound : ∀ i so, tsk.sysobjects i = some so → i < tsk.nsysobjects
  known : ∀ i so, tsk.sysobjects i = some so → tsk.known i = true → so.type = .connection →
    so.doneConnect = true ∨ so.listenerso ≠ none
  known_lt : ∀ i, tsk.known i = true → i < tsk.nsysobjects
  resumes : ∀ f instr, (tsk.frames f).instr = some instr →
    (tsk.frames f).resume = true ∨ instr = .opencon none
  running : ∀ f, (tsk.frames f).instr = none → (tsk.frames f).blocked = false
  history : ∀ ioid, outstanding tsk.log ioid = (tsk.ioframes ioid).f.map fun _ => tsk.owner ioid
  proper : Proper tsk.log
  named : ∀ ioid t, .suspended ioid t ∈ tsk.log → t.num < tsk.tickets

end Task

section

variable {tsk tsk' : Task} {io : Io} {hand : List (Nat × Ticket)} {f i ioid sid : Nat}
  {so so' : Sysobject} {instr : Bif} {op : Frameaddr} {t : Ticket}

/-! ## Moves that leave the slots alone -/

namespace Task

/-- The builtin that the frame `f` is at has taken what a response brought. -/
def Taken (tsk : Task) (f : Nat) : Prop :=
  ∀ i so, tsk.sysobjects i = some so →
    ((tsk.frames f).instr = some (.readcon i) → so.buf ≠ [] → so.closed = true) ∧
    ((tsk.frames f).instr = some (.accept i) → so.newso = none)

theorem setSo_cases {j : Nat} {d : Sysobject} (h : (tsk.setSo i so).sysobjects j = some d) :
    (j = i ∧ d = so) ∨ (j ≠ i ∧ tsk.sysobjects j = some d) := by
  simp only [setSo, Function.update_apply] at h
  split at h
  · rename_i hj
    exact .inl ⟨hj, (Option.some.inj h).symm⟩
  · rename_i hj
    exact .inr ⟨hj, h⟩

theorem finish_frames {g : Nat} {resume : Bool} (h : g ≠ f) :
    (tsk.finish f resume).frames g = tsk.frames g := Function.update_of_ne h _ _

theorem finish_self {resume : Bool} :
    (tsk.finish f resume).frames f = { resume := resume } := Function.update_self ..

theorem know_known {j : Nat} (h : j ≠ i) : (tsk.know i).known j = tsk.known j :=
  Function.update_of_ne h _ _

theorem newSysobject_of_ne {j : Nat} (h : j ≠ tsk.nsysobjects) :
    (tsk.newSysobject so).sysobjects j = tsk.sysobjects j := Function.update_of_ne h _ _

theorem Slot.ne (h : tsk.Slot ioid i) (hf : (tsk.frames f).blocked = false) : i ≠ f := by
  rintro rfl
  rw [h.blocked] at hf
  cases hf

theorem Inv.finish (h : tsk.Inv) (hf : (tsk.frames f).blocked = false) (ht : tsk.Taken f)
    (resume : Bool) : (tsk.finish f resume).Inv where
  pos := h.pos
  slot a g hg := by
    have hs := h.slot a g hg
    have hne := hs.ne hf
    refine ⟨hs.pos, hs.lt, ?_, ?_⟩
    · rw [finish_frames hne]
      exact hs.blocked
    · obtain ⟨instr, hi, hst⟩ := hs.stopped
      refine ⟨instr, ?_, hst⟩
      rw [finish_frames hne]
      exact hi
  slot_inj := h.slot_inj
  owned j d op hd hop := by
    obtain ⟨g, instr, hg, hi, htop⟩ := h.owned j d op hd hop
    refine ⟨g, instr, hg, ?_, htop⟩
    rw [finish_frames ((h.slot _ g hg).ne hf)]
    exact hi
  closed := h.closed
  buf j d hd hb := by
    refine ⟨(h.buf j d hd hb).1, fun hc => ?_⟩
    obtain ⟨g, hg, hgb⟩ := (h.buf j d hd hb).2 hc
    have hne : g ≠ f := by
      rintro rfl
      rw [(ht j d hd).1 hg hb] at hc
      cases hc
    exact ⟨g, by rw [finish_frames hne]; exact ⟨hg, hgb⟩⟩
  newso j d hd hb := by
    obtain ⟨hty, g, hg, hgb⟩ := h.newso j d hd hb
    have hne : g ≠ f := by
      rintro rfl
      exact hb ((ht j d hd).2 hg)
    exact ⟨hty, g, by rw [finish_frames hne]; exact ⟨hg, hgb⟩⟩
  newso_so := h.newso_so
  connected := h.connected
  bound := h.bound
  known := h.known
  known_lt := h.known_lt
  resumes g instr hg := by
    by_cases hgf : g = f
    · subst hgf
      rw [finish_self] at hg
      cases hg
    · rw [finish_frames hgf] at hg ⊢
      exact h.resumes g instr hg
  running g hg := by
    by_cases hgf : g = f
    · rw [hgf, finish_self]
    · rw [finish_frames hgf] at hg ⊢
      exact h.running g hg
  history := h.history
  proper := h.proper
  named := h.named

/-- The contents of a sysobject change, but not its ioids and its socket. -/
structure Change (tsk : Task) (i : Nat) (so so' : Sysobject) : Prop where
  frameids : so'.frameids = so.frameids
  type : so'.type = so.type
  listenerso : so'.listenerso = so.listenerso
  doneConnect : so'.doneConnect = false → so.doneConnect = false
  closed : so'.closed = true → so.frameids .read = 0 ∧ so.frameids .write = 0
  buf : so'.buf ≠ [] → so'.type = .connection ∧ (so'.closed = false → tsk.Woken (.readcon i))
  newso : ∀ j, so'.newso = some j → so'.type = .listener ∧ tsk.Woken (.accept i) ∧
    j < tsk.nsysobjects ∧ ∀ d, tsk.sysobjects j = some d → d.listenerso ≠ none
  connected : so'.connected = true → so'.type = .connection ∧ so'.sockid ≠ 0

/-- `sockid` is changed only while no frame waits for a connection with it. -/
theorem Inv.setSo (h : tsk.Inv) (so' : Sysobject) (hso : tsk.sysobjects i = some so)
    (hc : tsk.Change i so so')
    (hsid : so'.sockid = so.sockid ∨ ∀ op : Frameaddr, op.type = .connection → so.frameids op = 0) :
    (tsk.setSo i so').Inv where
  pos := h.pos
  slot a g hg := by
    have hs := h.slot a g hg
    refine ⟨hs.pos, hs.lt, hs.blocked, ?_⟩
    obtain ⟨instr, hi, hst⟩ := hs.stopped
    refine ⟨instr, hi, hst.imp id ?_⟩
    rintro ⟨op, j, d, h1, h2, h3, h4, h5, h6, h7, h8⟩
    by_cases hj : j = i
    · subst hj
      rw [hso] at h4
      cases h4
      have hsid' : op.type = .connection → so'.sockid = so.sockid := by
        intro hty
        refine hsid.resolve_right fun hz => ?_
        have := hs.pos
        rw [hz op hty] at h5
        omega
      exact ⟨op, j, so', h1, h2, h3, by simp [Task.setSo], by rw [hc.frameids]; exact h5,
        by rw [hc.type]; exact h6, fun hty => (hsid' hty).trans (h7 hty), h8⟩
    · exact ⟨op, j, d, h1, h2, h3, by simp [Task.setSo, hj, h4], h5, h6, h7, h8⟩
  slot_inj := h.slot_inj
  owned j d op hd hop := by
    obtain ⟨rfl, rfl⟩ | ⟨_, hd⟩ := setSo_cases hd
    · rw [hc.frameids] at hop ⊢
      exact h.owned _ so op hso hop
    · exact h.owned j d op hd hop
  closed j d hd hcl := by
    obtain ⟨rfl, rfl⟩ | ⟨_, hd⟩ := setSo_cases hd
    · rw [hc.frameids]
      exact hc.closed hcl
    · exact h.closed j d hd hcl
  buf j d hd hb := by
    obtain ⟨rfl, rfl⟩ | ⟨_, hd⟩ := setSo_cases hd
    · exact hc.buf hb
    · exact h.buf j d hd hb
  newso j d hd hb := by
    obtain ⟨rfl, rfl⟩ | ⟨_, hd⟩ := setSo_cases hd
    · obtain ⟨k, hk⟩ := Option.ne_none_iff_exists'.mp hb
      exact ⟨(hc.newso k hk).1, (hc.newso k hk).2.1⟩
    · exact h.newso j d hd hb
  newso_so j d k hd hk := by
    have key : k < tsk.nsysobjects ∧ ∀ e, tsk.sysobjects k = some e → e.listenerso ≠ none := by
      obtain ⟨rfl, rfl⟩ | ⟨_, hd⟩ := setSo_cases hd
      · exact (hc.newso k hk).2.2
      · exact h.newso_so j d k hd hk
    refine ⟨key.1, fun e he => ?_⟩
    obtain ⟨rfl, rfl⟩ | ⟨_, he⟩ := setSo_cases he
    · rw [hc.listenerso]
      exact key.2 so hso
    · exact key.2 e he
  connected j d hd hcon := by
    obtain ⟨rfl, rfl⟩ | ⟨_, hd⟩ := setSo_cases hd
    · exact hc.connected hcon
    · exact h.connected j d hd hcon
  bound j d hd := by
    obtain ⟨rfl, rfl⟩ | ⟨_, hd⟩ := setSo_cases hd
    · exact h.bound _ so hso
    · exact h.bound j d hd
  known j d hd hk hty := by
    obtain ⟨rfl, rfl⟩ | ⟨_, hd⟩ := setSo_cases hd
    · rw [hc.type] at hty
      rw [hc.listenerso]
      refine (h.known _ so hso hk hty).imp (fun hdone => ?_) id
      cases hd' : d.doneConnect with
      | true => rfl
      | false => rw [hc.doneConnect hd'] at hdone; cases hdone
    · exact h.known j d hd hk hty
  known_lt := h.known_lt
  resumes := h.resumes
  running := h.running
  history := h.history
  proper := h.proper
  named := h.named

theorem free_cases {j : Nat} {d : Sysobject}
    (h : Function.update tsk.sysobjects i none j = some d) : j ≠ i ∧ tsk.sysobjects j = some d := by
  rw [Function.update_apply] at h
  split at h
  · cases h
  · rename_i hj
    exact ⟨hj, h⟩

theorem Inv.free (h : tsk.Inv) (hso : tsk.sysobjects i = some so) (hz : ∀ op, so.frameids op = 0) :
    ({ tsk with sysobjects := Function.update tsk.sysobjects i none } : Task).Inv where
  pos := h.pos
  slot a g hg := by
    have hs := h.slot a g hg
    refine ⟨hs.pos, hs.lt, hs.blocked, ?_⟩
    obtain ⟨instr, hi, hst⟩ := hs.stopped
    refine ⟨instr, hi, hst.imp id ?_⟩
    rintro ⟨op, j, d, h1, h2, h3, h4, h5, h6⟩
    have hj : j ≠ i := by
      rintro rfl
      rw [hso] at h4
      cases h4
      have := hs.pos
      rw [hz op] at h5
      omega
    exact ⟨op, j, d, h1, h2, h3, by simp [hj, h4], h5, h6⟩
  slot_inj := h.slot_inj
  owned j d op hd hop := h.owned j d op (free_cases hd).2 hop
  closed j d hd := h.closed j d (free_cases hd).2
  buf j d hd := h.buf j d (free_cases hd).2
  newso j d hd := h.newso j d (free_cases hd).2
  newso_so j d k hd hk := by
    obtain ⟨hlt, hne⟩ := h.newso_so j d k (free_cases hd).2 hk
    exact ⟨hlt, fun e he => hne e (free_cases he).2⟩
  connected j d hd := h.connected j d (free_cases hd).2
  bound j d hd := h.bound j d (free_cases hd).2
  known j d hd := h.known j d (free_cases hd).2
  known_lt := h.known_lt
  resumes := h.resumes
  running := h.running
  history := h.history
  proper := h.proper
  named := h.named

theorem newSysobject_cases {j : Nat} {d : Sysobject}
    (h : (tsk.newSysobject so).sysobjects j = some d) :
    (j = tsk.nsysobjects ∧ d = so) ∨ (j ≠ tsk.nsysobjects ∧ tsk.sysobjects j = some d) :=
  setSo_cases h

theorem Inv.newSysobject (h : tsk.Inv) (so : Sysobject) (hz : ∀ op, so.frameids op = 0)
    (hb : so.buf = [])
    (hn : so.newso = none)
    (hcon : so.connected = true → so.type = .connection ∧ so.sockid ≠ 0) :
    (tsk.newSysobject so).Inv where
  pos := h.pos
  slot a g hg := by
    have hs := h.slot a g hg
    refine ⟨hs.pos, hs.lt, hs.blocked, ?_⟩
    obtain ⟨instr, hi, hst⟩ := hs.stopped
    refine ⟨instr, hi, hst.imp id ?_⟩
    rintro ⟨op, j, d, h1, h2, h3, h4, h5, h6⟩
    have hj := h.bound j d h4
    refine ⟨op, j, d, h1, h2, h3, ?_, h5, h6⟩
    rw [newSysobject_of_ne (by omega)]
    exact h4
  slot_inj := h.slot_inj
  owned j d op hd hop := by
    obtain ⟨_, rfl⟩ | ⟨_, hd⟩ := newSysobject_cases hd
    · exact absurd (hz op) hop
    · exact h.owned j d op hd hop
  closed j d hd hcl := by
    obtain ⟨_, rfl⟩ | ⟨_, hd⟩ := newSysobject_cases hd
    · exact ⟨hz _, hz _⟩
    · exact h.closed j d hd hcl
  buf j d hd hbd := by
    obtain ⟨_, rfl⟩ | ⟨_, hd⟩ := newSysobject_cases hd
    · exact absurd hb hbd
    · exact h.buf j d hd hbd
  newso j d hd hnd := by
    obtain ⟨_, rfl⟩ | ⟨_, hd⟩ := newSysobject_cases hd
    · exact absurd hn hnd
    · exact h.newso j d hd hnd
  newso_so j d k hd hk := by
    obtain ⟨_, rfl⟩ | ⟨_, hd⟩ := newSysobject_cases hd
    · rw [hn] at hk
      cases hk
    · obtain ⟨hlt, hne⟩ := h.newso_so j d k hd hk
      refine ⟨Nat.lt_succ_of_lt hlt, fun e he => ?_⟩
      obtain ⟨rfl, _⟩ | ⟨_, he⟩ := newSysobject_cases he
      · exact absurd hlt (Nat.lt_irrefl _)
      · exact hne e he
  connected j d hd hdc := by
    obtain ⟨_, rfl⟩ | ⟨_, hd⟩ := newSysobject_cases hd
    · exact hcon hdc
    · exact h.connected j d hd hdc
  bound j d hd := by
    obtain ⟨rfl, _⟩ | ⟨_, hd⟩ := newSysobject_cases hd
    · exact Nat.lt_succ_self _
    · exact Nat.lt_succ_of_lt (h.bound j d hd)
  known j d hd hk hty := by
    obtain ⟨rfl, _⟩ | ⟨_, hd⟩ := newSysobject_cases hd
    · exact absurd (h.known_lt _ hk) (Nat.lt_irrefl _)
    · exact h.known j d hd hk hty
  known_lt j hj := Nat.lt_succ_of_lt (h.known_lt j hj)
  resumes := h.resumes
  running := h.running
  history := h.history
  proper := h.proper
  named := h.named

theorem Inv.know (h : tsk.Inv) (hlt : i < tsk.nsysobjects)
    (hi : ∀ so, tsk.sysobjects i = some so → so.type = .connection →
      so.doneConnect = true ∨ so.listenerso ≠ none) : (tsk.know i).Inv :=
  { h with
    slot := fun a g hg =>
      ⟨(h.slot a g hg).pos, (h.slot a g hg).lt, (h.slot a g hg).blocked, (h.slot a g hg).stopped⟩
    known := fun j d hd hk hty => by
      by_cases hj : j = i
      · subst hj
        exact hi d hd hty
      · rw [know_known hj] at hk
        exact h.known j d hd hk hty
    known_lt := fun j hk => by
      by_cases hj : j = i
      · subst hj
        exact hlt
      · rw [know_known hj] at hk
        exact h.known_lt j hk }

theorem Inv.sent (h : tsk.Inv) (l : List Request) : ({ tsk with sent := l } : Task).Inv :=
  { h with
    slot := fun a g hg =>
      ⟨(h.slot a g hg).pos, (h.slot a g hg).lt, (h.slot a g hg).blocked, (h.slot a g hg).stopped⟩ }

theorem Inv.waiting (h : tsk.Inv) (l : List (Nat × Ticket)) :
    ({ tsk with wakeupAfterCollect := l } : Task).Inv :=
  { h with
    slot := fun a g hg =>
      ⟨(h.slot a g hg).pos, (h.slot a g hg).lt, (h.slot a g hg).blocked, (h.slot a g hg).stopped⟩ }

/-! ## Moves of a slot -/

theorem block_frames {g : Nat} {resume : Bool} (h : g ≠ f) :
    (tsk.block ioid f instr resume t).frames g = tsk.frames g := Function.update_of_ne h _ _

theorem block_self {resume : Bool} : (tsk.block ioid f instr resume t).frames f =
    { resume := resume, instr := some instr, blocked := true } := Function.update_self ..

theorem block_ioframes {a : Nat} {resume : Bool} (h : a ≠ ioid) :
    (tsk.block ioid f instr resume t).ioframes a = tsk.ioframes a := Function.update_of_ne h _ _

theorem block_owner {a : Nat} {resume : Bool} (h : a ≠ ioid) :
    (tsk.block ioid f instr resume t).owner a = tsk.owner a := Function.update_of_ne h _ _

theorem block_ioframes_self {resume : Bool} :
    (tsk.block ioid f instr resume t).ioframes ioid = { f := some f } := Function.update_self ..

theorem block_owner_self {resume : Bool} :
    (tsk.block ioid f instr resume t).owner ioid = t := Function.update_self ..

/-- A slot that is free, where `suspend_current_frame` may put a frame. -/
structure Free (tsk : Task) (ioid n : Nat) : Prop where
  pos : 0 < ioid
  lt : ioid < n
  le : tsk.iocount ≤ n
  empty : (tsk.ioframes ioid).f = none

/-- `suspend_current_frame` finds a free slot, or an assertion of it fails. -/
theorem suspend_cases (h : tsk.Inv) (f : Nat) (instr : Bif) (resume : Bool) (t : Ticket) :
    tsk.suspendCurrentFrame f instr resume t = .error .builtin ∨
    ∃ ioid n k, tsk.Free ioid n ∧ tsk.suspendCurrentFrame f instr resume t =
      .ok (({ tsk with iocount := n, iofree := k } : Task).block ioid f instr resume t, ioid) := by
  unfold suspendCurrentFrame
  split
  · rename_i hfree
    refine .inr ⟨tsk.iocount, tsk.iocount + 1, tsk.iofree,
      ⟨h.pos, Nat.lt_succ_self _, Nat.le_succ _, ?_⟩, rfl⟩
    cases hf : (tsk.ioframes tsk.iocount).f with
    | none => rfl
    | some g => exact absurd (h.slot _ g hf).lt (Nat.lt_irrefl _)
  · rename_i hfree
    split
    · rename_i hcond
      simp only [Bool.and_eq_true, decide_eq_true_eq, Option.isNone_iff_eq_none] at hcond
      exact .inr ⟨tsk.iofree, tsk.iocount, (tsk.ioframes tsk.iofree).freelnk,
        ⟨by omega, hcond.1, Nat.le_refl _, hcond.2⟩, rfl⟩
    · exact .inl rfl

/-- `sos` are the sysobjects, in which the one that `instr` is for has got the ioid. -/
structure Blocks (tsk : Task) (ioid : Nat) (instr : Bif) (t : Ticket)
    (sos : Nat → Option Sysobject) : Prop where
  back : ∀ j d, sos j = some d → ∃ d' fr, tsk.sysobjects j = some d' ∧
    d = { d' with frameids := fr } ∧ ∀ op, fr op = d'.frameids op ∨
      fr op = ioid ∧ d'.frameids op = 0 ∧ instr.top = some j ∧ instr.op = op ∧
        (d'.closed = true → op ≠ .read ∧ op ≠ .write)
  forth : ∀ j d', tsk.sysobjects j = some d' → ∃ d, sos j = some d
  stopped : ({ tsk with sysobjects := sos } : Task).Stopped ioid instr t

theorem Inv.block (h : tsk.Inv) {n k : Nat} (resume : Bool) {sos : Nat → Option Sysobject}
    (hfree : tsk.Free ioid n) (hf : (tsk.frames f).blocked = false)
    (hinstr : ∀ j, (tsk.frames f).instr ≠ some (.readcon j) ∧
      (tsk.frames f).instr ≠ some (.accept j))
    (hres : resume = true ∨ instr = .opencon none) (ht : t.num = tsk.tickets)
    (hb : tsk.Blocks ioid instr t sos) :
    ({ ({ tsk with iocount := n, iofree := k } : Task).block ioid f instr resume t with
      sysobjects := sos } : Task).Inv := by
  have hne : ∀ {a g}, (tsk.ioframes a).f = some g → g ≠ f := fun hg => (h.slot _ _ hg).ne hf
  -- a slot is the new one, or it was there
  have hcases : ∀ {a g}, ((({ tsk with iocount := n, iofree := k } : Task).block ioid f instr resume
      t).ioframes a).f = some g →
      (a = ioid ∧ g = f) ∨ (a ≠ ioid ∧ (tsk.ioframes a).f = some g) := by
    intro a g hg
    by_cases ha : a = ioid
    · subst ha
      rw [block_ioframes_self] at hg
      exact .inl ⟨rfl, (Option.some.inj hg).symm⟩
    · rw [block_ioframes ha] at hg
      exact .inr ⟨ha, hg⟩
  have hwoken : ∀ {instr'}, (tsk.frames f).instr ≠ some instr' → tsk.Woken instr' →
      ({ ({ tsk with iocount := n, iofree := k } : Task).block ioid f instr resume t with
        sysobjects := sos } : Task).Woken instr' := by
    rintro instr' hop ⟨g, hg, hgb⟩
    have hgf : g ≠ f := by
      rintro rfl
      exact hop hg
    refine ⟨g, ?_, ?_⟩
    · rw [block_frames hgf]
      exact hg
    · rw [block_frames hgf]
      exact hgb
  refine
    { pos := Nat.lt_of_lt_of_le h.pos hfree.le
      slot := ?_
      slot_inj := ?_
      owned := ?_
      closed := ?_
      buf := ?_
      newso := ?_
      newso_so := ?_
      connected := ?_
      bound := ?_
      known := ?_
      known_lt := h.known_lt
      resumes := ?_
      running := ?_
      history := ?_
      proper := ?_
      named := ?_ }
  · intro a g hg
    obtain ⟨rfl, rfl⟩ | ⟨ha, hg⟩ := hcases hg
    · refine ⟨hfree.pos, hfree.lt, ?_, instr, ?_, ?_⟩
      · rw [block_self]
      · rw [block_self]
      · rw [block_owner_self]
        exact hb.stopped
    · have hs := h.slot a g hg
      refine ⟨hs.pos, Nat.lt_of_lt_of_le hs.lt hfree.le, ?_, ?_⟩
      · rw [block_frames (hne hg)]
        exact hs.blocked
      · obtain ⟨instr', hi, hst⟩ := hs.stopped
        refine ⟨instr', ?_, ?_⟩
        · rw [block_frames (hne hg)]
          exact hi
        · rw [block_owner ha]
          refine hst.imp id ?_
          rintro ⟨op, j, d', h1, h2, h3, h4, h5, h6⟩
          obtain ⟨d, hd⟩ := hb.forth j d' h4
          obtain ⟨e, fr, he, rfl, hfr⟩ := hb.back j d hd
          rw [h4] at he
          cases he
          refine ⟨op, j, _, h1, h2, h3, hd, ?_, h6⟩
          obtain heq | ⟨_, hz, _⟩ := hfr op
          · rw [← h5]
            exact heq
          · have := hs.pos
            omega
  · intro a b g hga hgb
    obtain ⟨ha, hgf⟩ | ⟨_, hga'⟩ := hcases hga
    · obtain ⟨hb, _⟩ | ⟨_, hgb'⟩ := hcases hgb
      · rw [ha, hb]
      · exact absurd hgf (hne hgb')
    · obtain ⟨_, hgf⟩ | ⟨_, hgb'⟩ := hcases hgb
      · exact absurd hgf (hne hga')
      · exact h.slot_inj a b g hga' hgb'
  · intro j d op hd hop
    obtain ⟨d', fr, hd', rfl, hfr⟩ := hb.back j d hd
    obtain heq | ⟨heq, _, htop, hiop, _⟩ := hfr op
    · dsimp only at hop ⊢
      rw [heq] at hop ⊢
      obtain ⟨g, instr', hg, hi, htop⟩ := h.owned j d' op hd' hop
      have ha : d'.frameids op ≠ ioid := by
        intro ha
        rw [ha, hfree.empty] at hg
        cases hg
      refine ⟨g, instr', ?_, ?_, htop⟩
      · rw [block_ioframes ha]
        exact hg
      · rw [block_frames (hne hg)]
        exact hi
    · dsimp only at hop ⊢
      rw [heq]
      exact ⟨f, instr, by rw [block_ioframes_self], by rw [block_self], htop, hiop⟩
  · intro j d hd hcl
    obtain ⟨d', fr, hd', rfl, hfr⟩ := hb.back j d hd
    have hz := h.closed j d' hd' hcl
    refine ⟨(hfr .read).elim (fun heq => heq.trans hz.1) fun ⟨_, _, _, _, hx⟩ => ?_,
      (hfr .write).elim (fun heq => heq.trans hz.2) fun ⟨_, _, _, _, hx⟩ => ?_⟩
    · exact absurd rfl (hx hcl).1
    · exact absurd rfl (hx hcl).2
  · intro j d hd hbuf
    obtain ⟨d', fr, hd', rfl, hfr⟩ := hb.back j d hd
    obtain ⟨hty, hw⟩ := h.buf j d' hd' hbuf
    exact ⟨hty, fun hcl => hwoken (hinstr j).1 (hw hcl)⟩
  · intro j d hd hnew
    obtain ⟨d', fr, hd', rfl, hfr⟩ := hb.back j d hd
    obtain ⟨hty, hw⟩ := h.newso j d' hd' hnew
    exact ⟨hty, hwoken (hinstr j).2 hw⟩
  · intro j d m hd hm
    obtain ⟨d', fr, hd', rfl, hfr⟩ := hb.back j d hd
    obtain ⟨hlt, hl⟩ := h.newso_so j d' m hd' hm
    refine ⟨hlt, fun e he => ?_⟩
    obtain ⟨e', fr', he', rfl, _⟩ := hb.back m e he
    exact hl e' he'
  · intro j d hd
    obtain ⟨d', fr, hd', rfl, hfr⟩ := hb.back j d hd
    exact h.connected j d' hd'
  · intro j d hd
    obtain ⟨d', fr, hd', rfl, hfr⟩ := hb.back j d hd
    exact h.bound j d' hd'
  · intro j d hd hk hty
    obtain ⟨d', fr, hd', rfl, hfr⟩ := hb.back j d hd
    exact h.known j d' hd' hk hty
  · intro g instr' hg
    by_cases hgf : g = f
    · subst hgf
      rw [block_self] at hg ⊢
      cases hg
      exact hres
    · rw [block_frames hgf] at hg ⊢
      exact h.resumes g instr' hg
  · intro g hg
    by_cases hgf : g = f
    · subst hgf
      rw [block_self] at hg
      cases hg
    · rw [block_frames hgf] at hg ⊢
      exact h.running g hg
  · intro a
    show outstanding (.suspended ioid t :: tsk.log) a = _
    rw [outstanding]
    by_cases ha : ioid = a
    · subst ha
      rw [if_pos rfl, block_ioframes_self, block_owner_self]
      rfl
    · rw [if_neg ha, block_ioframes (Ne.symm ha), block_owner (Ne.symm ha)]
      exact h.history a
  · refine ⟨?_, fun a ha => ?_, h.proper⟩
    · rw [h.history, hfree.empty]
      rfl
    · have := h.named a t ha
      omega
  · intro a u ha
    obtain heq | ha := List.mem_cons.mp ha
    · cases heq
      show t.num < tsk.tickets + 1
      omega
    · exact Nat.lt_succ_of_lt (h.named a u ha)

/-- The sysobject `i` gets the ioid of the frame that asks for it. -/
theorem blocks_request (ioid : Nat) (hso : tsk.sysobjects i = some so) (htop : instr.top = some i)
    (hzero : so.frameids instr.op = 0) (hop : t.op = some instr.op) (hsid : t.sid = so.sockid)
    (hty : so.type = instr.op.type) (hconn : instr.op = .connect → so.sockid = 0)
    (hrw : instr.op = .read ∨ instr.op = .write → so.sockid ≠ 0)
    (hcl : so.closed = true → instr.op ≠ .read ∧ instr.op ≠ .write) :
    tsk.Blocks ioid instr t
      (Function.update tsk.sysobjects i (some (so.setFrameid instr.op ioid))) where
  back j d hd := by
    obtain ⟨rfl, rfl⟩ | ⟨_, hd⟩ := setSo_cases hd
    · refine ⟨so, _, hso, rfl, fun op => ?_⟩
      by_cases ho : op = instr.op
      · subst ho
        exact .inr ⟨by simp, hzero, htop, rfl, hcl⟩
      · exact .inl (by simp [ho])
    · exact ⟨d, d.frameids, hd, rfl, fun op => .inl rfl⟩
  forth j d' hd' := by
    by_cases hj : j = i
    · exact ⟨_, by rw [hj, Function.update_self]⟩
    · exact ⟨d', by rw [Function.update_of_ne hj]; exact hd'⟩
  stopped := .inr ⟨instr.op, i, so.setFrameid instr.op ioid, hop, rfl, htop,
    Function.update_self .., by simp [Sysobject.setFrameid], hty, fun _ => hsid.symm,
    fun h => hsid.trans (hconn h), fun h => by rw [hsid]; exact hrw h⟩

theorem blocks_wait (hop : t.op = none) : tsk.Blocks ioid (.opencon none) t tsk.sysobjects where
  back _ d hd := ⟨d, d.frameids, hd, rfl, fun _ => .inl rfl⟩
  forth _ d' hd' := ⟨d', hd'⟩
  stopped := .inl ⟨hop, rfl⟩

/-- The frame `f` leaves the slot `ioid`, and the sysobjects `sos` forget the ioid. -/
theorem Inv.unblock (h : tsk.Inv) (sos : Nat → Option Sysobject) {cause : Cause}
    (hslot : (tsk.ioframes ioid).f = some f) (hans : cause.Answers (tsk.owner ioid))
    (hback : ∀ j d, sos j = some d → ∃ d' fr, tsk.sysobjects j = some d' ∧
      d = { d' with frameids := fr } ∧
        ∀ op, (fr op = 0 ∧ d'.frameids op = ioid) ∨ (fr op = d'.frameids op ∧ (fr op ≠ ioid)))
    (hforth : ∀ j d', tsk.sysobjects j = some d' → ∃ d, sos j = some d) :
    ({ tsk.unblock ioid f cause with sysobjects := sos } : Task).Inv := by
  have hs := h.slot ioid f hslot
  have hcases : ∀ {a g}, ((tsk.unblock ioid f cause).ioframes a).f = some g →
      a ≠ ioid ∧ g ≠ f ∧ (tsk.ioframes a).f = some g := by
    intro a g hg
    by_cases ha : a = ioid
    · subst ha
      simp [Task.unblock] at hg
    · have hg' : (tsk.ioframes a).f = some g := by simpa [Task.unblock, ha] using hg
      refine ⟨ha, ?_, hg'⟩
      rintro rfl
      exact ha (h.slot_inj a ioid g hg' hslot)
  have hframe : ∀ {g}, g ≠ f → (tsk.unblock ioid f cause).frames g = tsk.frames g :=
    fun hg => Function.update_of_ne hg _ _
  have hinstr : ∀ g, ((tsk.unblock ioid f cause).frames g).instr = (tsk.frames g).instr ∧
      ((tsk.unblock ioid f cause).frames g).resume = (tsk.frames g).resume := by
    intro g
    by_cases hg : g = f
    · subst hg
      simp [Task.unblock]
    · rw [hframe hg]
      exact ⟨rfl, rfl⟩
  have hwoken : ∀ {instr'}, tsk.Woken instr' →
      ({ tsk.unblock ioid f cause with sysobjects := sos } : Task).Woken instr' := by
    rintro instr' ⟨g, hg, hgb⟩
    have hgf : g ≠ f := by
      rintro rfl
      rw [hs.blocked] at hgb
      cases hgb
    refine ⟨g, ?_, ?_⟩
    · rw [hframe hgf]
      exact hg
    · rw [hframe hgf]
      exact hgb
  refine
    { pos := h.pos
      slot := ?_
      slot_inj := ?_
      owned := ?_
      closed := ?_
      buf := ?_
      newso := ?_
      newso_so := ?_
      connected := ?_
      bound := ?_
      known := ?_
      known_lt := h.known_lt
      resumes := ?_
      running := ?_
      history := ?_
      proper := ?_
      named := ?_ }
  · intro a g hg
    obtain ⟨ha, hgf, hg⟩ := hcases hg
    have hs' := h.slot a g hg
    refine ⟨hs'.pos, hs'.lt, ?_, ?_⟩
    · rw [hframe hgf]
      exact hs'.blocked
    · obtain ⟨instr', hi, hst⟩ := hs'.stopped
      refine ⟨instr', ?_, hst.imp id ?_⟩
      · rw [hframe hgf]
        exact hi
      · rintro ⟨op, j, d', h1, h2, h3, h4, h5, h6⟩
        obtain ⟨d, hd⟩ := hforth j d' h4
        obtain ⟨e, fr, he, rfl, hfr⟩ := hback j d hd
        rw [h4] at he
        cases he
        refine ⟨op, j, _, h1, h2, h3, hd, ?_, h6⟩
        obtain ⟨_, heq⟩ | ⟨heq, _⟩ := hfr op
        · exact absurd (h5.symm.trans heq) ha
        · rw [← h5]
          exact heq
  · intro a b g hga hgb
    exact h.slot_inj a b g (hcases hga).2.2 (hcases hgb).2.2
  · intro j d op hd hop
    obtain ⟨d', fr, hd', rfl, hfr⟩ := hback j d hd
    obtain ⟨heq, _⟩ | ⟨heq, hne⟩ := hfr op
    · exact absurd heq hop
    · dsimp only at hop ⊢
      have hop' : d'.frameids op ≠ 0 := by rw [← heq]; exact hop
      obtain ⟨g, instr', hg, hi, htop⟩ := h.owned j d' op hd' hop'
      rw [← heq] at hg
      refine ⟨g, instr', ?_, ?_, htop⟩
      · simp only [Task.unblock]
        rw [Function.update_of_ne hne]
        exact hg
      · rw [(hinstr g).1]
        exact hi
  · intro j d hd hcl
    obtain ⟨d', fr, hd', rfl, hfr⟩ := hback j d hd
    obtain ⟨hr, hw⟩ := h.closed j d' hd' hcl
    exact ⟨(hfr .read).elim (·.1) (fun heq => heq.1.trans hr),
      (hfr .write).elim (·.1) (fun heq => heq.1.trans hw)⟩
  · intro j d hd hbuf
    obtain ⟨d', fr, hd', rfl, hfr⟩ := hback j d hd
    obtain ⟨hty, hw⟩ := h.buf j d' hd' hbuf
    exact ⟨hty, fun hcl => hwoken (hw hcl)⟩
  · intro j d hd hnew
    obtain ⟨d', fr, hd', rfl, hfr⟩ := hback j d hd
    obtain ⟨hty, hw⟩ := h.newso j d' hd' hnew
    exact ⟨hty, hwoken hw⟩
  · intro j d m hd hm
    obtain ⟨d', fr, hd', rfl, hfr⟩ := hback j d hd
    obtain ⟨hlt, hl⟩ := h.newso_so j d' m hd' hm
    refine ⟨hlt, fun e he => ?_⟩
    obtain ⟨e', fr', he', rfl, _⟩ := hback m e he
    exact hl e' he'
  · intro j d hd
    obtain ⟨d', fr, hd', rfl, hfr⟩ := hback j d hd
    exact h.connected j d' hd'
  · intro j d hd
    obtain ⟨d', fr, hd', rfl, hfr⟩ := hback j d hd
    exact h.bound j d' hd'
  · intro j d hd hk hty
    obtain ⟨d', fr, hd', rfl, hfr⟩ := hback j d hd
    exact h.known j d' hd' hk hty
  · intro g instr' hg
    rw [(hinstr g).1] at hg
    rw [(hinstr g).2]
    exact h.resumes g instr' hg
  · intro g hg
    by_cases hgf : g = f
    · subst hgf
      simp [Task.unblock]
    · rw [hframe hgf] at hg ⊢
      exact h.running g hg
  · intro a
    show outstanding (.retrieved ioid cause :: tsk.log) a = _
    rw [outstanding]
    by_cases ha : ioid = a
    · subst ha
      simp [Task.unblock]
    · rw [if_neg ha, h.history]
      simp [Task.unblock, Ne.symm ha]
  · refine ⟨⟨tsk.owner ioid, ?_, hans⟩, h.proper⟩
    rw [h.history, hslot]
    rfl
  · intro a u ha
    obtain heq | ha := List.mem_cons.mp ha
    · cases heq
    · exact h.named a u ha

end Task

/-! ## The ioids -/

/-- Nothing is sent, and the sysobjects keep their sockets, or have none. -/
theorem Ok.task (h : Ok tsk io hand) (tsk' : Task) (hsent : tsk'.sent = tsk.sent)
    (hwake : tsk'.wakeupAfterCollect = tsk.wakeupAfterCollect) (htick : tsk.tickets ≤ tsk'.tickets)
    (hv : ∀ a u, Token tsk io hand a u → tsk'.Valid a u)
    (hso : ∀ j d, tsk'.sysobjects j = some d → d.sockid = 0 ∨ ∃ d', tsk.sysobjects j = some d' ∧
      d.type = d'.type ∧ d.sockid = d'.sockid ∧ (d.doneConnect = false → d'.doneConnect = false) ∧
      (d.listenerso = none → d'.listenerso = none)) : Ok tsk' io hand := by
  have hfl : ∀ u, flight tsk' io hand u = flight tsk io hand u := by
    intro u
    simp only [flight, hsent, hwake]
  have hzero : ∀ c, io.connections 0 ≠ some c := by
    intro c hc
    exact absurd (h.inv.conn_sid 0 c hc).1 (Nat.lt_irrefl _)
  have hunused : ∀ {s}, s ≠ 0 → Unused tsk' io s → Unused tsk io s := by
    rintro s hs (⟨j, d, hd, hty, hsid, hdone, hl⟩ | hm)
    · obtain hz | ⟨d', hd', h1, h2, h3, h4⟩ := hso j d hd
      · exact absurd (hsid.symm.trans hz) hs
      · exact .inl ⟨j, d', hd', h1 ▸ hty, h2 ▸ hsid, h3 hdone, h4 hl⟩
    · exact .inr hm
  refine ⟨h.inv, ⟨?_, ?_, ?_, h.link.held_connect, ?_, ?_, h.link.response_fits, ?_,
    h.link.conn_fits, h.link.listener_fits⟩, ⟨?_, ?_, ?_, ?_, ?_, ?_, ?_, ?_, ?_⟩⟩
  · intro a u hu
    apply hv
    cases hu with
    | hand hm => exact .hand hm
    | request hm hr hl => exact .request (hsent ▸ hm) hr hl
    | response hm hr => exact .response hm hr
    | conn hd hop => exact .conn hd hop
    | listener hl hne => exact .listener hl hne
    | wakeup hm => exact .wakeup (hwake ▸ hm)
  · intro u
    rw [hfl]
    exact h.link.flight_le u
  · intro u hu
    rw [hfl]
    exact h.link.held u hu
  · intro u hu
    rw [hfl] at hu
    exact Nat.lt_of_lt_of_le (h.link.fresh u hu) htick
  · rw [hsent]
    exact h.link.request_fits
  · rw [hwake]
    exact h.link.wakeup_fits
  · intro j k d e hd he heq hne
    obtain hz | ⟨d', hd', _, hsd, _⟩ := hso j d hd
    · exact absurd hz hne
    · obtain hz | ⟨e', he', _, hse, _⟩ := hso k e he
      · exact absurd (heq.trans hz) hne
      · rw [hsd] at hne heq
        rw [hse] at heq
        exact h.sock.inj j k d' e' hd' he' heq hne
  · intro j d hd
    obtain hz | ⟨d', hd', _, hsd, _⟩ := hso j d hd
    · rw [hz]
      exact h.inv.pos
    · rw [hsd]
      exact h.sock.lt j d' hd'
  · intro j d hd ha
    obtain hz | ⟨d', hd', _, hsd, _⟩ := hso j d hd
    · rw [hz] at ha
      exact absurd (h.inv.announced_lt 0 ha).1 (Nat.lt_irrefl _)
    · rw [hsd] at ha
      exact h.sock.announced j d' hd' ha
  · intro j d c hd hc
    obtain hz | ⟨d', hd', _, hsd, _⟩ := hso j d hd
    · rw [hz] at hc
      exact absurd hc (hzero c)
    · rw [hsd] at hc
      exact h.sock.opening j d' c hd' hc
  · intro j d hd hty hne
    obtain hz | ⟨d', hd', htd, hsd, _⟩ := hso j d hd
    · exact absurd hz hne
    · rw [hsd] at hne ⊢
      exact h.sock.listener j d' hd' (htd ▸ hty) hne
  · rw [hsent]
    exact h.sock.request_lt
  · rw [hsent]
    exact h.sock.untouched
  · intro s hs hu
    exact h.sock.quiet s hs (hunused hs hu)
  · intro s hs hu
    rw [hsent]
    exact h.sock.quiet_request s hs (hunused hs hu)

/-- The slots are the same. -/
theorem Task.Valid.of_eq (h : tsk.Valid ioid t) (hi : tsk'.ioframes = tsk.ioframes)
    (ho : tsk'.owner = tsk.owner) : tsk'.Valid ioid t := by
  unfold Task.Valid at h ⊢
  rw [hi, ho]
  exact h

/-- `Ok.task`, for one sysobject -/
theorem Ok.setSo (h : Ok tsk io hand) (so' : Sysobject) (hso : tsk.sysobjects i = some so)
    (hty : so'.type = so.type) (hsid : so'.sockid = so.sockid ∨ so'.sockid = 0)
    (hdone : so'.doneConnect = false → so.doneConnect = false)
    (hl : so'.listenerso = so.listenerso) : Ok (tsk.setSo i so') io hand := by
  refine h.task (tsk.setSo i so') rfl rfl (Nat.le_refl _)
    (fun a u hu => (h.link.valid a u hu).of_eq rfl rfl) (fun j d hd => ?_)
  obtain ⟨rfl, rfl⟩ | ⟨_, hd⟩ := Task.setSo_cases hd
  · refine hsid.symm.imp id fun hsid => ⟨so, hso, hty, hsid, hdone, fun hn => ?_⟩
    rw [← hl]
    exact hn
  · exact .inr ⟨d, hd, rfl, rfl, id, id⟩

theorem Ok.finish (h : Ok tsk io hand) (f : Nat) (resume : Bool) :
    Ok (tsk.finish f resume) io hand :=
  h.task _ rfl rfl (Nat.le_refl _) (fun a u hu => (h.link.valid a u hu).of_eq rfl rfl)
    (fun _ d hd => .inr ⟨d, hd, rfl, rfl, id, id⟩)

theorem Ok.know (h : Ok tsk io hand) (i : Nat) : Ok (tsk.know i) io hand :=
  h.task _ rfl rfl (Nat.le_refl _) (fun a u hu => (h.link.valid a u hu).of_eq rfl rfl)
    (fun _ d hd => .inr ⟨d, hd, rfl, rfl, id, id⟩)

theorem Ok.newSysobject (h : Ok tsk io hand) (so : Sysobject) (hz : so.sockid = 0) :
    Ok (tsk.newSysobject so) io hand := by
  refine h.task (tsk.newSysobject so) rfl rfl (Nat.le_refl _)
    (fun a u hu => (h.link.valid a u hu).of_eq rfl rfl) (fun j d hd => ?_)
  obtain ⟨_, rfl⟩ | ⟨_, hd⟩ := Task.newSysobject_cases hd
  · exact .inl hz
  · exact .inr ⟨d, hd, rfl, rfl, id, id⟩

/-- The task sends a request, with the ioid in its hand if there is one in the request. -/
theorem Ok.send {r : Request} (h : Ok tsk io (r.token.toList ++ hand)) (hfit : r.Fits)
    (hr : ∀ s, r.sock = some s → s < io.nextsid ∧ (s ≠ 0 → ¬ Unused tsk io s) ∧
      ∀ c, io.connections s = some c → c.state.opening = false) : Ok (tsk.send r) io hand := by
  have hfl : ∀ u, flight (tsk.send r) io hand u = flight tsk io (r.token.toList ++ hand) u := by
    intro u
    simp only [flight, Task.send, List.filterMap_append, List.map_append, List.count_append,
      List.filterMap_cons, List.filterMap_nil]
    cases r.token with
    | none => simp
    | some x =>
      simp only [Option.toList_some, List.map_cons, List.map_nil]
      omega
  have hmem : ∀ {q}, q ∈ (tsk.send r).sent → q ∈ tsk.sent ∨ q = r := by
    intro q hq
    obtain hq | hq := List.mem_append.mp hq
    · exact .inl hq
    · exact .inr (List.mem_singleton.mp hq)
  refine ⟨h.inv, ⟨?_, ?_, ?_, h.link.held_connect, ?_, ?_, h.link.response_fits,
    h.link.wakeup_fits, h.link.conn_fits, h.link.listener_fits⟩, ⟨h.sock.inj, h.sock.lt,
    h.sock.announced, h.sock.opening, h.sock.listener, ?_, ?_, h.sock.quiet, ?_⟩⟩
  · intro a u hu
    have key : Token tsk io (r.token.toList ++ hand) a u := by
      cases hu with
      | hand hm => exact .hand (List.mem_append_right _ hm)
      | request hm htok hl =>
        obtain hm | rfl := hmem hm
        · exact .request hm htok hl
        · exact .hand (List.mem_append_left _ (by rw [htok]; exact List.mem_singleton_self _))
      | response hm htok => exact .response hm htok
      | conn hd hop => exact .conn hd hop
      | listener hl hne => exact .listener hl hne
      | wakeup hm => exact .wakeup hm
    exact (h.link.valid a u key).of_eq rfl rfl
  · intro u
    rw [hfl]
    exact h.link.flight_le u
  · intro u hu
    rw [hfl]
    exact h.link.held u hu
  · intro u hu
    rw [hfl] at hu
    exact h.link.fresh u hu
  · intro q hq
    obtain hq | rfl := hmem hq
    · exact h.link.request_fits q hq
    · exact hfit
  · intro q hq s hs
    obtain hq | rfl := hmem hq
    · exact h.sock.request_lt q hq s hs
    · exact (hr s hs).1
  · intro s c hc ho
    refine ⟨(h.sock.untouched s c hc ho).1, fun q hq hs => ?_⟩
    obtain hq | rfl := hmem hq
    · exact (h.sock.untouched s c hc ho).2 q hq hs
    · rw [(hr s hs).2.2 c hc] at ho
      cases ho
  · intro s hs hu q hq hqs
    obtain hq | rfl := hmem hq
    · exact h.sock.quiet_request s hs hu q hq hqs
    · exact (hr s hqs).2.1 hs hu

/-- A frame has been suspended, and its ioid is in hand. -/
theorem Ok.suspended {n k : Nat} (h : Ok tsk io hand) (f : Nat) (instr : Bif) (resume : Bool)
    (hfree : tsk.Free ioid n)
    (ht : t.num = tsk.tickets) :
    Ok (({ tsk with iocount := n, iofree := k } : Task).block ioid f instr resume t) io
      ((ioid, t) :: hand) := by
  have hnew : ∀ {u : Ticket}, u.num < tsk.tickets → u ≠ t := by
    rintro u hu rfl
    omega
  have hok : Ok (({ tsk with iocount := n, iofree := k } : Task).block ioid f instr resume t) io
      hand := by
    refine h.task (({ tsk with iocount := n, iofree := k } : Task).block ioid f instr
      resume t) rfl rfl (Nat.le_succ _) (fun a u hu => ?_)
      (fun _ d hd => .inr ⟨d, hd, rfl, rfl, id, id⟩)
    obtain ⟨hpos, hne, how⟩ := h.link.valid a u hu
    have ha : a ≠ ioid := by
      rintro rfl
      exact hne hfree.empty
    refine ⟨hpos, ?_, ?_⟩
    · rw [Task.block_ioframes ha]
      exact hne
    · rw [Task.block_owner ha]
      exact how
  refine ⟨hok.inv, hok.link.pick ⟨hfree.pos, ?_, ?_⟩ ?_ ?_ ?_, hok.sock⟩
  · rw [Task.block_ioframes_self]
    simp
  · rw [Task.block_owner_self]
  · by_contra hne
    exact hnew (h.link.fresh t (.inl (Nat.pos_of_ne_zero hne))) rfl
  · intro hh
    exact hnew (h.link.fresh t (.inr hh)) rfl
  · show t.num < tsk.tickets + 1
    omega

/-- A frame waits for a collection. -/
theorem Ok.wait (h : Ok tsk io ((ioid, t) :: hand)) (hop : t.op = none) :
    Ok { tsk with wakeupAfterCollect := (ioid, t) :: tsk.wakeupAfterCollect } io hand := by
  have hfl : ∀ u, flight { tsk with wakeupAfterCollect := (ioid, t) :: tsk.wakeupAfterCollect } io
      hand u = flight tsk io ((ioid, t) :: hand) u := by
    intro u
    simp only [flight, List.map_cons, List.count_cons]
    omega
  refine ⟨h.inv, ⟨?_, ?_, ?_, h.link.held_connect, ?_, h.link.request_fits, h.link.response_fits,
    ?_, h.link.conn_fits, h.link.listener_fits⟩, ⟨h.sock.inj, h.sock.lt, h.sock.announced,
    h.sock.opening, h.sock.listener, h.sock.request_lt, h.sock.untouched, h.sock.quiet,
    h.sock.quiet_request⟩⟩
  · intro a u hu
    refine (h.link.valid a u ?_).of_eq rfl rfl
    cases hu with
    | hand hm => exact .hand (List.mem_cons_of_mem _ hm)
    | request hm htok hl => exact .request hm htok hl
    | response hm htok => exact .response hm htok
    | conn hd hop => exact .conn hd hop
    | listener hl hne => exact .listener hl hne
    | wakeup hm =>
      obtain hm | hm := List.mem_cons.mp hm
      · exact .hand (List.mem_cons.mpr (.inl hm))
      · exact .wakeup hm
  · intro u
    rw [hfl]
    exact h.link.flight_le u
  · intro u hu
    rw [hfl]
    exact h.link.held u hu
  · intro u hu
    rw [hfl] at hu
    exact h.link.fresh u hu
  · intro x hx
    obtain hx | hx := List.mem_cons.mp hx
    · rw [hx]
      exact hop
    · exact h.link.wakeup_fits x hx

/-- The frames that wait for a collection are about to be woken. -/
theorem Ok.takeWaiting (h : Ok tsk io []) :
    Ok { tsk with wakeupAfterCollect := [] } io tsk.wakeupAfterCollect := by
  have hfl : ∀ u, flight { tsk with wakeupAfterCollect := [] } io tsk.wakeupAfterCollect u =
      flight tsk io [] u := by
    intro u
    simp only [flight, List.map_nil, List.count_nil]
    omega
  refine ⟨h.inv, ⟨?_, ?_, ?_, h.link.held_connect, ?_, h.link.request_fits, h.link.response_fits,
    (fun _ hx => by cases hx), h.link.conn_fits, h.link.listener_fits⟩, ⟨h.sock.inj, h.sock.lt,
    h.sock.announced, h.sock.opening, h.sock.listener, h.sock.request_lt, h.sock.untouched,
    h.sock.quiet, h.sock.quiet_request⟩⟩
  · intro a u hu
    refine (h.link.valid a u ?_).of_eq rfl rfl
    cases hu with
    | hand hm => exact .wakeup hm
    | request hm htok hl => exact .request hm htok hl
    | response hm htok => exact .response hm htok
    | conn hd hop => exact .conn hd hop
    | listener hl hne => exact .listener hl hne
    | wakeup hm => cases hm
  · intro u
    rw [hfl]
    exact h.link.flight_le u
  · intro u hu
    rw [hfl]
    exact h.link.held u hu
  · intro u hu
    rw [hfl] at hu
    exact h.link.fresh u hu

/-- The sysobjects may change as long as they keep their sockets. -/
theorem Ok.sysobjects {sos : Nat → Option Sysobject} (h : Ok tsk io hand)
    (hso : ∀ j d, sos j = some d → ∃ d' fr, tsk.sysobjects j = some d' ∧
      d = { d' with frameids := fr }) : Ok { tsk with sysobjects := sos } io hand := by
  refine h.task { tsk with sysobjects := sos } rfl rfl (Nat.le_refl _)
    (fun a u hu => (h.link.valid a u hu).of_eq rfl rfl) (fun j d hd => ?_)
  obtain ⟨d', fr, hd', rfl⟩ := hso j d hd
  exact .inr ⟨d', hd', rfl, rfl, id, id⟩

/-- A frame has been taken out of its slot, and the ioid is in no other place. -/
theorem Ok.unblock (h : Ok tsk io hand) (f : Nat) (cause : Cause)
    (hnot : ∀ u, ¬ Token tsk io hand ioid u) : Ok (tsk.unblock ioid f cause) io hand := by
  refine h.task (tsk.unblock ioid f cause) rfl rfl (Nat.le_refl _) (fun a u hu => ?_)
    (fun _ d hd => .inr ⟨d, hd, rfl, rfl, id, id⟩)
  obtain ⟨hpos, hne, how⟩ := h.link.valid a u hu
  have ha : a ≠ ioid := by
    rintro rfl
    exact hnot u hu
  refine ⟨hpos, ?_, how⟩
  simp only [Task.unblock]
  rw [Function.update_of_ne ha]
  exact hne

/-- The places of an ioid name the suspension in its slot, which is in the hand only. -/
theorem Ok.hand_only (h : Ok tsk io ((ioid, t) :: hand)) (u : Ticket) :
    ¬ Token tsk io hand ioid u := by
  intro hu
  have hv := h.link.valid _ _ (.hand (List.mem_cons_self ..))
  have hut : u = t := by
    rw [← (h.link.drop.valid ioid u hu).2.2]
    exact hv.2.2
  subst hut
  have hle := h.link.flight_le u
  rw [flight_cons, if_pos rfl] at hle
  have hpos : ∀ {l : List (Nat × Ticket)}, (ioid, u) ∈ l → 0 < (l.map Prod.snd).count u :=
    fun hm => List.count_pos_iff.mpr (List.mem_map.mpr ⟨_, hm, rfl⟩)
  have hheld : ¬ Held io u := by
    intro hh
    have := h.link.held u hh
    rw [flight_cons, if_pos rfl] at this
    omega
  have hzero : flight tsk io hand u = 0 := by omega
  simp only [flight] at hzero
  cases hu with
  | hand hm =>
    have := hpos hm
    omega
  | request hm htok _ =>
    have := hpos (List.mem_filterMap.mpr ⟨_, hm, htok⟩)
    omega
  | response hm htok =>
    have := hpos (List.mem_filterMap.mpr ⟨_, hm, htok⟩)
    omega
  | conn hd hop => exact hheld (.conn hd hop)
  | listener hl hne => exact hheld (.listener hl hne)
  | wakeup hm =>
    have := hpos hm
    omega

/-! ## Responses -/

/-- What the task may rely on when it takes the response `r`. -/
structure Heard (tsk : Task) (io : Io) (r : Response) : Prop where
  closes : ∀ sid, r.closes = some sid → sid ≠ 0 ∧ io.connections sid = none ∧
    (∀ q ∈ io.sent, q.about ≠ some sid) ∧ ¬ Unused tsk io sid ∧
    ∀ i so, tsk.sysobjects i = some so → so.sockid = sid → so.type = .connection
  announces : ∀ sid, r.announces = some sid → sid ≠ 0 ∧ sid < io.nextsid ∧ sid ∉ io.announced ∧
    (∀ c, io.connections sid = some c → c.state.opening = false) ∧
    ∀ i so, tsk.sysobjects i = some so → so.sockid ≠ sid
  listens : ∀ sid, r.listens = some sid → io.connections sid = none ∧ sid ∉ io.closing
  connects : ∀ sid, r.connects = some sid → (∃ c, io.connections sid = some c ∧ c.Quiet) ∧
    ∀ q ∈ tsk.sent, q.sock ≠ some sid

/-- The task takes the first response. -/
theorem Ok.popResponse {r : Response} {rest : List Response} (h : Ok tsk io [])
    (hs : io.sent = r :: rest) :
    Ok tsk { io with sent := rest } r.token.toList ∧ Heard tsk { io with sent := rest } r := by
  have hmem : r ∈ io.sent := by rw [hs]; exact List.mem_cons_self ..
  have hsub : ∀ {q}, q ∈ rest → q ∈ io.sent := by
    intro q hq
    rw [hs]
    exact List.mem_cons_of_mem _ hq
  have hmap : ∀ {α : Type} {g : Response → Option α} {x : α}, x ∈ rest.filterMap g →
      x ∈ io.sent.filterMap g := by
    intro α g x hx
    obtain ⟨q, hq, hg⟩ := List.mem_filterMap.mp hx
    exact List.mem_filterMap.mpr ⟨q, hsub hq, hg⟩
  have hhead : ∀ {α : Type} {g : Response → Option α} {x : α}, g r = some x →
      x ∈ io.sent.filterMap g := fun hg => List.mem_filterMap.mpr ⟨r, hmem, hg⟩
  have hunused : ∀ {s}, Unused tsk { io with sent := rest } s → Unused tsk io s :=
    fun hu => hu.imp id hmap
  have hheld : ∀ {u}, Held { io with sent := rest } u → Held io u := by
    intro u hu
    cases hu with
    | conn hd hop => exact .conn hd hop
    | listener hl hne => exact .listener hl hne
  have hfl : ∀ u, flight tsk { io with sent := rest } r.token.toList u = flight tsk io [] u := by
    intro u
    simp only [flight, hs, List.filterMap_cons]
    cases r.token with
    | none => simp
    | some x =>
      simp only [Option.toList_some, List.map_cons, List.map_nil, List.count_cons, List.count_nil]
      omega
  have horder := h.inv.order
  rw [hs, List.pairwise_cons] at horder
  have hann := h.inv.announced_nodup
  rw [Io.announced, hs, List.filterMap_cons] at hann
  refine ⟨⟨⟨h.inv.pos, h.inv.conn_sid, h.inv.room, fun s hs => h.inv.closed s (hmap hs), horder.2,
      ?_, fun s hs => h.inv.announced_lt s (hmap hs),
      fun s c hc ho hs => h.inv.opening s c hc ho (hmap hs),
      fun s hs => ⟨(h.inv.listening s (hmap hs)).1,
        fun hcl => (h.inv.listening s (hmap hs)).2 (hmap hcl)⟩⟩,
    ⟨?_, ?_, ?_, h.link.held_connect, ?_, h.link.request_fits,
      fun q hq => h.link.response_fits q (hsub hq), h.link.wakeup_fits, h.link.conn_fits,
      h.link.listener_fits⟩,
    ⟨h.sock.inj, h.sock.lt, fun j d hd ha => h.sock.announced j d hd (hmap ha), h.sock.opening,
      fun j d hd hty hne => ⟨(h.sock.listener j d hd hty hne).1,
        fun hcl => (h.sock.listener j d hd hty hne).2 (hmap hcl)⟩,
      h.sock.request_lt, h.sock.untouched, fun s h0 hu => h.sock.quiet s h0 (hunused hu),
      fun s h0 hu => h.sock.quiet_request s h0 (hunused hu)⟩⟩, ⟨?_, ?_, ?_, ?_⟩⟩
  · show (rest.filterMap Response.announces).Nodup
    split at hann
    · exact hann
    · exact (List.nodup_cons.mp hann).2
  · intro a u hu
    apply h.link.valid
    cases hu with
    | hand hm => exact .response hmem (Option.mem_toList.mp hm)
    | request hm hr hl => exact .request hm hr hl
    | response hm hr => exact .response (hsub hm) hr
    | conn hd hop => exact .conn hd hop
    | listener hl hne => exact .listener hl hne
    | wakeup hm => exact .wakeup hm
  · intro u
    rw [hfl]
    exact h.link.flight_le u
  · intro u hu
    rw [hfl]
    exact h.link.held u (hheld hu)
  · intro u hu
    rw [hfl] at hu
    exact h.link.fresh u (hu.imp id hheld)
  · intro s hcl
    obtain ⟨hn, hpos, _⟩ := h.inv.closed s (hhead hcl)
    refine ⟨by omega, hn, fun q hq => horder.1 q hq s hcl, fun hu => ?_, ?_⟩
    · obtain ⟨c, hc, _⟩ := h.sock.quiet s (by omega) (hunused hu)
      rw [hn] at hc
      cases hc
    · rintro j d hd rfl
      cases hty : d.type with
      | connection => rfl
      | listener => exact absurd (hhead hcl) (h.sock.listener j d hd hty (by omega)).2
  · intro s ha
    obtain ⟨hpos, hlt⟩ := h.inv.announced_lt s (hhead ha)
    refine ⟨by omega, hlt, ?_, fun c hc => ?_, ?_⟩
    · rw [ha] at hann
      exact (List.nodup_cons.mp hann).1
    · cases ho : c.state.opening with
      | false => rfl
      | true => exact absurd (hhead ha) (h.inv.opening s c hc ho)
    · rintro j d hd rfl
      exact h.sock.announced j d hd (hhead ha)
  · intro s hl
    obtain ⟨hn, hcl⟩ := h.inv.listening s (hhead hl)
    exact ⟨hn, fun hm => hcl (hmap hm)⟩
  · intro s hc
    have hpos : s ≠ 0 := by
      have : s ∈ io.announced := by
        refine List.mem_filterMap.mpr ⟨r, hmem, ?_⟩
        cases r with
        | connect ioid error errn sid errmsg t =>
          cases error with
          | true => cases hc
          | false => exact hc
        | _ => cases hc
      have := (h.inv.announced_lt s this).1
      omega
    exact ⟨h.sock.quiet s hpos (.inr (hhead hc)), h.sock.quiet_request s hpos (.inr (hhead hc))⟩

theorem Heard.of_sysobjects {r : Response} (h : Heard tsk io r) (tsk' : Task)
    (hsent : tsk'.sent = tsk.sent)
    (hso : ∀ j d, tsk'.sysobjects j = some d → ∃ d' fr, tsk.sysobjects j = some d' ∧
      d = { d' with frameids := fr }) : Heard tsk' io r where
  closes s hs := by
    obtain ⟨h1, h2, h3, h4, h5⟩ := h.closes s hs
    refine ⟨h1, h2, h3, fun hu => h4 ?_, fun j d hd hsid => ?_⟩
    · obtain ⟨j, d, hd, hty, hsid, hdone, hl⟩ | hm := hu
      · obtain ⟨d', fr, hd', rfl⟩ := hso j d hd
        exact .inl ⟨j, d', hd', hty, hsid, hdone, hl⟩
      · exact .inr hm
    · obtain ⟨d', fr, hd', rfl⟩ := hso j d hd
      exact h5 j d' hd' hsid
  announces s hs := by
    obtain ⟨h1, h2, h3, h4, h5⟩ := h.announces s hs
    refine ⟨h1, h2, h3, h4, fun j d hd => ?_⟩
    obtain ⟨d', fr, hd', rfl⟩ := hso j d hd
    exact h5 j d' hd'
  listens := h.listens
  connects s hs := by
    rw [hsent]
    exact h.connects s hs

/-- A sysobject gets the socket that the task has just heard of. -/
theorem Ok.assign {r : Response} (h : Ok tsk io hand) (sos : Nat → Option Sysobject)
    (hr : Heard tsk io r) (ha : r.announces = some sid)
    (hty : ∀ d, sos i = some d → (d.type = .listener → r.listens = some sid) ∧
      (d.type = .connection → d.doneConnect = false → d.listenerso = none → r.connects = some sid))
    (hi : ∀ d, sos i = some d → d.sockid = sid)
    (hso : ∀ j, j ≠ i → sos j = tsk.sysobjects j) : Ok { tsk with sysobjects := sos } io hand := by
  obtain ⟨hpos, hlt, hann, hopen, hfresh⟩ := hr.announces sid ha
  have hcases : ∀ {j d}, sos j = some d → (j = i ∧ d.sockid = sid) ∨
      (j ≠ i ∧ tsk.sysobjects j = some d) := by
    intro j d hd
    by_cases hj : j = i
    · subst hj
      exact .inl ⟨rfl, hi d hd⟩
    · rw [hso j hj] at hd
      exact .inr ⟨hj, hd⟩
  have hunused : ∀ {s}, Unused { tsk with sysobjects := sos } io s →
      Unused tsk io s ∨ r.connects = some s := by
    rintro s (⟨j, d, hd, hdt, hsid, hdone, hl⟩ | hm)
    · obtain ⟨rfl, hds⟩ | ⟨_, hd'⟩ := hcases hd
      · rw [← hsid, hds]
        exact .inr ((hty d hd).2 hdt hdone hl)
      · exact .inl (.inl ⟨j, d, hd', hdt, hsid, hdone, hl⟩)
    · exact .inl (.inr hm)
  refine ⟨h.inv, ⟨?_, h.link.flight_le, h.link.held, h.link.held_connect, h.link.fresh,
      h.link.request_fits, h.link.response_fits, h.link.wakeup_fits, h.link.conn_fits,
      h.link.listener_fits⟩, ⟨?_, ?_, ?_, ?_, ?_, h.sock.request_lt, h.sock.untouched, ?_, ?_⟩⟩
  · intro a u hu
    refine (h.link.valid a u ?_).of_eq rfl rfl
    cases hu with
    | hand hm => exact .hand hm
    | request hm hr hl => exact .request hm hr hl
    | response hm hr => exact .response hm hr
    | conn hd hop => exact .conn hd hop
    | listener hl hne => exact .listener hl hne
    | wakeup hm => exact .wakeup hm
  · intro j k d e hd he heq hne
    obtain ⟨hj, hds⟩ | ⟨_, hd'⟩ := hcases hd
    · obtain ⟨hk, _⟩ | ⟨_, he'⟩ := hcases he
      · rw [hj, hk]
      · exact absurd (heq.symm.trans hds) (hfresh k e he')
    · obtain ⟨_, hes⟩ | ⟨_, he'⟩ := hcases he
      · exact absurd (heq.trans hes) (hfresh j d hd')
      · exact h.sock.inj j k d e hd' he' heq hne
  · intro j d hd
    obtain ⟨_, hds⟩ | ⟨_, hd'⟩ := hcases hd
    · rw [hds]
      exact hlt
    · exact h.sock.lt j d hd'
  · intro j d hd
    obtain ⟨_, hds⟩ | ⟨_, hd'⟩ := hcases hd
    · rw [hds]
      exact hann
    · exact h.sock.announced j d hd'
  · intro j d c hd hc
    obtain ⟨_, hds⟩ | ⟨_, hd'⟩ := hcases hd
    · rw [hds] at hc
      exact hopen c hc
    · exact h.sock.opening j d c hd' hc
  · intro j d hd hdt hne
    obtain ⟨rfl, hds⟩ | ⟨_, hd'⟩ := hcases hd
    · rw [hds]
      exact hr.listens sid ((hty d hd).1 hdt)
    · exact h.sock.listener j d hd' hdt hne
  · intro s hs hu
    obtain hu | hu := hunused hu
    · exact h.sock.quiet s hs hu
    · exact (hr.connects s hu).1
  · intro s hs hu
    obtain hu | hu := hunused hu
    · exact h.sock.quiet_request s hs hu
    · exact (hr.connects s hu).2

end

end Suspend
end Runtime
end NReduce
