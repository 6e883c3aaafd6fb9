import NReduce.Runtime.SuspendIo
import NReduce.Runtime.SuspendTask

/-!
# NReduce.Runtime.SuspendOnce

A frame that waits for the I/O thread is resumed once, by what answers its own request, in every
run in which three things do not happen: the task is told that an accepted connection is closed,
the end of the output of a connection reaches the I/O thread after the connection is gone, and a
connection (or a listener) answers while a frame that an earlier answer woke has not run yet.
-/

namespace NReduce
namespace Runtime
namespace Suspend

section

variable {tsk tsk' : Task} {io : Io} {hand : List (Nat × Ticket)} {f i ioid sid : Nat}
  {so so' : Sysobject} {instr : Bif} {op : Frameaddr} {t : Ticket}

/-- The task goes on as it should, or an assertion fails that is not one of the handlers of the
responses. -/
def Good (io : Io) : Except Halt Task → Prop
  | .ok tsk => tsk.Inv ∧ Ok tsk io []
  | .error e => e ≠ .response

/-! ## Responses -/

/-- What `answer` leaves: the sysobject `i` and the frame that waited for it. -/
structure Answered (tsk : Task) (ioid : Nat) (op : Frameaddr) (t : Ticket) (f i : Nat)
    (so : Sysobject) (instr : Bif) : Prop where
  slot : (tsk.ioframes ioid).f = some f
  frame : (tsk.frames f).instr = some instr
  op_eq : instr.op = op
  top : instr.top = some i
  lookup : tsk.sysobjects i = some so
  frameid : so.frameids op = ioid
  type : so.type = op.type
  sockid : op.type = .connection → so.sockid = t.sid
  connect : op = .connect → t.sid = 0

/-- No slot but `ioid` belongs to the operation `op` of the sysobject `i`. -/
theorem Task.Inv.frameid_ne (h : tsk.Inv) {j : Nat} {d : Sysobject} {op' : Frameaddr}
    (hslot : (tsk.ioframes ioid).f = some f) (hinstr : (tsk.frames f).instr = some instr)
    (hpos : 0 < ioid) (hd : tsk.sysobjects j = some d)
    (hne : ¬ (instr.top = some j ∧ instr.op = op')) : d.frameids op' ≠ ioid := by
  intro heq
  obtain ⟨g, instr', hg, hi, htop⟩ := h.owned j d op' hd (by omega)
  rw [heq, hslot] at hg
  cases hg
  rw [hinstr] at hi
  cases hi
  exact hne htop

/-- The frame is taken out of its slot, and the sysobject `i` forgets the ioid. -/
theorem Task.Inv.unblock_setSo (h : tsk.Inv) (cause : Cause)
    (hslot : (tsk.ioframes ioid).f = some f) (hinstr : (tsk.frames f).instr = some instr)
    (htop : instr.top = some i) (hop : instr.op = op) (hso : tsk.sysobjects i = some so)
    (hfid : so.frameids op = ioid) (hans : cause.Answers (tsk.owner ioid)) :
    ((tsk.unblock ioid f cause).setSo i (so.setFrameid op 0)).Inv := by
  have hpos := (h.slot ioid f hslot).pos
  refine h.unblock (Function.update tsk.sysobjects i (some (so.setFrameid op 0))) hslot hans
    (fun j d hd => ?_) (fun j d' hd' => ?_)
  · obtain ⟨rfl, rfl⟩ | ⟨hj, hd⟩ := Task.setSo_cases hd
    · refine ⟨so, _, hso, rfl, fun op' => ?_⟩
      by_cases ho : op' = op
      · subst ho
        exact .inl ⟨by simp, hfid⟩
      · rw [Function.update_of_ne ho]
        exact .inr ⟨rfl, h.frameid_ne hslot hinstr hpos hso fun hh => ho (hh.2.symm.trans hop)⟩
    · refine ⟨d, d.frameids, hd, rfl, fun op' => .inr ⟨rfl, ?_⟩⟩
      refine h.frameid_ne hslot hinstr hpos hd fun hh => hj ?_
      rw [htop] at hh
      exact (Option.some.inj hh.1).symm
  · by_cases hj : j = i
    · exact ⟨_, by rw [hj, Function.update_self]⟩
    · exact ⟨d', by rw [Function.update_of_ne hj]; exact hd'⟩

theorem Ok.setFrameid (h : Ok tsk io hand) (op : Frameaddr) (ioid : Nat)
    (hso : tsk.sysobjects i = some so) :
    Ok (tsk.setSo i (so.setFrameid op ioid)) io hand :=
  h.setSo _ hso rfl (.inl rfl) id rfl

theorem Task.Inv.answered (h : tsk.Inv) (hv : tsk.Valid ioid t) (hop : t.op = some op) :
    ∃ f i so instr, Answered tsk ioid op t f i so instr := by
  obtain ⟨hpos, hne, how⟩ := hv
  obtain ⟨f, hslot⟩ := Option.ne_none_iff_exists'.mp hne
  obtain ⟨instr, hi, hst⟩ := (h.slot ioid f hslot).stopped
  rw [how] at hst
  obtain ⟨hnone, _⟩ | ⟨op', i, so, h1, h2, h3, h4, h5, h6, h7, h8, _⟩ := hst
  · rw [hnone] at hop
    cases hop
  · rw [h1] at hop
    cases hop
    exact ⟨f, i, so, instr, hslot, hi, h2, h3, h4, h5, h6, h7, h8⟩

/-- `answer` finds the frame and its sysobject. -/
theorem answer_spec (h : tsk.Inv) (hok : Ok tsk io [(ioid, t)]) (hop : t.op = some op)
    (ha : Answered tsk ioid op t f i so instr) :
    tsk.answer ioid op op.type t =
        .ok ((tsk.unblock ioid f (.response op t)).setSo i (so.setFrameid op 0), i,
          so.setFrameid op 0) ∧
      ((tsk.unblock ioid f (.response op t)).setSo i (so.setFrameid op 0)).Inv ∧
      Ok ((tsk.unblock ioid f (.response op t)).setSo i (so.setFrameid op 0)) io [] := by
  have hs := h.slot ioid f ha.slot
  have hv := hok.link.valid _ _ (.hand (List.mem_cons_self ..))
  refine ⟨?_, ?_, ?_⟩
  · have hret : tsk.retrieveBlockedFrame ioid (.response op t) =
        .ok (tsk.unblock ioid f (.response op t), f) := by
      simp [Task.retrieveBlockedFrame, hs.pos, hs.lt, ha.slot]
    have hfs : (tsk.unblock ioid f (.response op t)).getFrameSysobject f = .ok (instr, i, so) := by
      simp [Task.getFrameSysobject, Task.unblock, ha.frame, ha.top, ha.lookup]
    have hcond : (decide (instr.op = op) && decide (so.type = op.type) &&
        decide (ioid = so.frameids op)) = true := by
      simp [ha.op_eq, ha.type, ha.frameid]
    simp only [Task.answer, hret, bind, Except.bind, hfs]
    rw [if_pos hcond]
  · refine h.unblock_setSo _ ha.slot ha.frame ha.top ha.op_eq ha.lookup ha.frameid ?_
    rw [hv.2.2]
    exact ⟨rfl, hop⟩
  · exact (hok.drop.unblock f _ hok.hand_only).setFrameid op 0 ha.lookup

/-- The frame that has been taken out of its slot has still to run. -/
theorem Answered.woken (ha : Answered tsk ioid op t f i so instr) (cause : Cause)
    (d : Sysobject) : ((tsk.unblock ioid f cause).setSo i d).Woken instr :=
  ⟨f, by simp [Task.unblock, Task.setSo, ha.frame], by simp [Task.unblock, Task.setSo]⟩

/-- What the response brought is the same as before. -/
theorem Task.Change.of_eq (so' : Sysobject) (h : tsk.Inv) (hso : tsk.sysobjects i = some so)
    (hf : so'.frameids = so.frameids) (hty : so'.type = so.type)
    (hl : so'.listenerso = so.listenerso)
    (hd : so'.doneConnect = false → so.doneConnect = false) (hcl : so'.closed = so.closed)
    (hb : so'.buf = so.buf) (hn : so'.newso = so.newso)
    (hcon : so'.connected = true → so'.type = .connection ∧ so'.sockid ≠ 0) :
    tsk.Change i so so' where
  frameids := hf
  type := hty
  listenerso := hl
  doneConnect := hd
  closed hc := h.closed i so hso (hcl ▸ hc)
  buf hne := by
    obtain ⟨h1, h2⟩ := h.buf i so hso (hb ▸ hne)
    exact ⟨hty ▸ h1, fun hc => h2 (hcl ▸ hc)⟩
  newso j hj := by
    rw [hn] at hj
    obtain ⟨h1, h2⟩ := h.newso i so hso (by rw [hj]; simp)
    exact ⟨hty ▸ h1, h2, h.newso_so i so j hso hj⟩
  connected := hcon

theorem setSo_get : (tsk.setSo i so).sysobjects i = some so := Function.update_self ..

theorem setSo_setSo : (tsk.setSo i so).setSo i so' = tsk.setSo i so' := by
  simp [Task.setSo]

theorem sysobjects_setFrameid {cause : Cause} (hso : tsk.sysobjects i = some so) (j : Nat)
    (d : Sysobject)
    (hd : ((tsk.unblock ioid f cause).setSo i (so.setFrameid op 0)).sysobjects j = some d) :
    ∃ d' fr, tsk.sysobjects j = some d' ∧ d = { d' with frameids := fr } := by
  obtain ⟨rfl, rfl⟩ | ⟨_, hd⟩ := Task.setSo_cases hd
  · exact ⟨so, _, hso, rfl⟩
  · exact ⟨d, d.frameids, hd, rfl⟩

/-- `Ok.assign`, for a sysobject that there is -/
theorem Ok.assign_setSo {r : Response} (h : Ok tsk io hand) (i : Nat) (so : Sysobject)
    (hr : Heard tsk io r)
    (ha : r.announces = some sid)
    (hty : (so.type = .listener → r.listens = some sid) ∧
      (so.type = .connection → so.doneConnect = false → so.listenerso = none →
        r.connects = some sid))
    (hsid : so.sockid = sid) : Ok (tsk.setSo i so) io hand := by
  refine h.assign (i := i) (Function.update tsk.sysobjects i (some so)) hr ha ?_ ?_
    (fun j hj => Function.update_of_ne hj _ _)
  · intro d hd
    rw [Function.update_self] at hd
    cases hd
    exact hty
  · intro d hd
    rw [Function.update_self] at hd
    cases hd
    exact hsid

/-- An ioid of a sysobject is the slot of a suspension for that sysobject. -/
theorem Task.Inv.frameid_ticket (h : tsk.Inv) (hso : tsk.sysobjects i = some so)
    (hne : so.frameids op ≠ 0) :
    ((tsk.owner (so.frameids op)).op = some op ∧ so.type = op.type) ∧
      (op.type = .connection → so.sockid = (tsk.owner (so.frameids op)).sid) ∧
      (op = .connect → (tsk.owner (so.frameids op)).sid = 0) ∧
      (op = .read ∨ op = .write → (tsk.owner (so.frameids op)).sid ≠ 0) := by
  obtain ⟨g, instr, hg, hi, htop, hop⟩ := h.owned i so op hso hne
  obtain ⟨instr', hi', hst⟩ := (h.slot _ g hg).stopped
  rw [hi] at hi'
  cases hi'
  obtain ⟨_, rfl⟩ | ⟨op', j, d, h1, h2, h3, h4, _, h6, h7⟩ := hst
  · cases htop
  · rw [htop] at h3
    cases h3
    rw [hso] at h4
    cases h4
    rw [hop] at h2
    subst h2
    exact ⟨⟨h1, h6⟩, h7⟩

/-- `interpreter_write_response` -/
theorem Good.writeResponse (h : tsk.Inv) (hok : Ok tsk io [(ioid, t)])
    (hop : t.op = some .write) : Good io (tsk.writeResponse ioid t) := by
  obtain ⟨f, i, so, instr, ha⟩ := h.answered (hok.link.valid _ _ (.hand (List.mem_cons_self ..)))
    hop
  obtain ⟨heq, hinv, hok'⟩ := answer_spec h hok hop ha
  have : tsk.writeResponse ioid t =
      .ok ((tsk.unblock ioid f (.response .write t)).setSo i (so.setFrameid .write 0)) := by
    simp only [Task.writeResponse]
    rw [show (SysobjectType.connection) = Frameaddr.write.type from rfl, heq]
    rfl
  rw [this]
  exact ⟨hinv, hok'⟩

/-- `interpreter_read_response` -/
theorem Good.readResponse {data : List UInt8} (h : tsk.Inv) (hok : Ok tsk io [(ioid, t)])
    (hop : t.op = some .read)
    (hcalm : ∀ f i, (tsk.ioframes ioid).f = some f → (tsk.frames f).instr = some (.readcon i) →
      ¬ tsk.Woken (.readcon i)) : Good io (tsk.readResponse ioid data t) := by
  obtain ⟨f, i, so, instr, ha⟩ := h.answered (hok.link.valid _ _ (.hand (List.mem_cons_self ..)))
    hop
  obtain ⟨heq, hinv, hok'⟩ := answer_spec h hok hop ha
  have hinstr : instr = .readcon i := by
    have h1 := ha.op_eq
    have h2 := ha.top
    cases instr <;> simp [Bif.op, Bif.top] at h1 h2
    rw [h2]
  subst hinstr
  -- a connection that is closed has no frame that waits for it
  have hopen : so.closed = false := by
    cases hc : so.closed with
    | false => rfl
    | true =>
      have hz := (h.closed i so ha.lookup hc).1
      have hpos := (h.slot ioid f ha.slot).pos
      rw [ha.frameid] at hz
      omega
  have hbuf : so.buf = [] := by
    by_contra hne
    exact hcalm f i ha.slot ha.frame ((h.buf i so ha.lookup hne).2 hopen)
  have : tsk.readResponse ioid data t =
      .ok ((tsk.unblock ioid f (.response .read t)).setSo i
        { so.setFrameid .read 0 with buf := data }) := by
    simp only [Task.readResponse]
    rw [show (SysobjectType.connection) = Frameaddr.read.type from rfl, heq]
    simp [bind, Except.bind, Sysobject.setFrameid, hbuf, setSo_setSo]
  rw [this]
  have hc := Task.Change.of_eq _ hinv setSo_get rfl rfl rfl id rfl rfl rfl
    (hinv.connected i _ setSo_get)
  have hset := hinv.setSo { so.setFrameid .read 0 with buf := data } setSo_get
    { hc with buf := fun _ => ⟨ha.type, fun _ => ha.woken _ _⟩ } (.inl rfl)
  have hset' := hok'.setSo { so.setFrameid .read 0 with buf := data } setSo_get rfl
    (.inl rfl) id rfl
  rw [setSo_setSo] at hset hset'
  exact ⟨hset, hset'⟩

/-- `interpreter_listen_response` -/
theorem Good.listenResponse {error : Bool} {errmsg : String} (h : tsk.Inv)
    (hok : Ok tsk io [(ioid, t)]) (hop : t.op = some .listen)
    (hr : Heard tsk io (.listen ioid error sid errmsg t)) (herr : error = true → sid = 0) :
    Good io (tsk.listenResponse ioid error sid errmsg t) := by
  obtain ⟨f, i, so, instr, ha⟩ := h.answered (hok.link.valid _ _ (.hand (List.mem_cons_self ..)))
    hop
  obtain ⟨heq, hinv, hok'⟩ := answer_spec h hok hop ha
  generalize hso' : (if error then { so.setFrameid .listen 0 with error := true, errmsg := errmsg }
    else so.setFrameid .listen 0 : Sysobject) = so'
  have : tsk.listenResponse ioid error sid errmsg t =
      .ok ((tsk.unblock ioid f (.response .listen t)).setSo i { so' with sockid := sid }) := by
    simp only [Task.listenResponse]
    rw [show (SysobjectType.listener) = Frameaddr.listen.type from rfl, heq]
    simp [bind, Except.bind, hso', setSo_setSo]
  rw [this]
  have hsame : so'.frameids = (so.setFrameid .listen 0).frameids ∧ so'.type = so.type ∧
      so'.listenerso = so.listenerso ∧ so'.doneConnect = so.doneConnect ∧ so'.closed = so.closed ∧
      so'.buf = so.buf ∧ so'.newso = so.newso ∧ so'.connected = so.connected := by
    rw [← hso']
    split <;> exact ⟨rfl, rfl, rfl, rfl, rfl, rfl, rfl, rfl⟩
  obtain ⟨h1, h2, h3, h4, h5, h6, h7, h8⟩ := hsame
  have hty : so'.type = .listener := h2.trans ha.type
  -- no connection waits for a listener
  have hz : ∀ op : Frameaddr, op.type = .connection →
      (so.setFrameid .listen 0).frameids op = 0 := by
    intro op hopt
    by_contra hne
    have ho : op ≠ .listen := by
      rintro rfl
      cases hopt
    have hne' : so.frameids op ≠ 0 := by
      simpa [Sysobject.setFrameid, ho] using hne
    have hty' := (h.frameid_ticket ha.lookup hne').1.2
    rw [ha.type, hopt] at hty'
    cases hty'
  have hcon : so'.connected = true → so'.type = .connection ∧ sid ≠ 0 := by
    intro hc
    have := (h.connected i so ha.lookup (h8 ▸ hc)).1
    rw [ha.type] at this
    cases this
  have hset := hinv.setSo { so' with sockid := sid } setSo_get
    (Task.Change.of_eq _ hinv setSo_get h1 h2 h3 (fun hd => h4 ▸ hd) h5 h6 h7 hcon) (.inr hz)
  rw [setSo_setSo] at hset
  refine ⟨hset, ?_⟩
  cases herror : error with
  | true =>
    have hset' := hok'.setSo { so' with sockid := sid } setSo_get h2
      (.inr (herr herror)) (fun hd => h4 ▸ hd) h3
    rwa [setSo_setSo] at hset'
  | false =>
    subst herror
    have hr' := hr.of_sysobjects ((tsk.unblock ioid f (.response .listen t)).setSo i
      (so.setFrameid .listen 0)) rfl (sysobjects_setFrameid ha.lookup)
    have hset' := hok'.assign_setSo i { so' with sockid := sid } hr' rfl
      ⟨fun _ => rfl, fun hc => absurd (hc.symm.trans hty) (by simp)⟩ rfl
    rwa [setSo_setSo] at hset'

/-- `interpreter_connect_response` -/
theorem Good.connectResponse {error : Bool} {errn : Nat} {errmsg : String} (h : tsk.Inv)
    (hok : Ok tsk io [(ioid, t)]) (hop : t.op = some .connect)
    (hr : Heard tsk io (.connect ioid error errn sid errmsg t)) (herr : error = true → sid = 0) :
    Good io (tsk.connectResponse ioid error errn sid errmsg t) := by
  obtain ⟨f, i, so, instr, ha⟩ := h.answered (hok.link.valid _ _ (.hand (List.mem_cons_self ..)))
    hop
  obtain ⟨heq, hinv, hok'⟩ := answer_spec h hok hop ha
  generalize hso' : (if error then
      { so.setFrameid .connect 0 with error := true, errn := errn, errmsg := errmsg }
    else { so.setFrameid .connect 0 with connected := true } : Sysobject) = so'
  have hsid0 : so.sockid = 0 := (ha.sockid rfl).trans (ha.connect rfl)
  have hsid : sid ≠ 0 ∨ error = true := by
    cases error with
    | true => exact .inr rfl
    | false => exact .inl (hr.announces sid rfl).1
  have : tsk.connectResponse ioid error errn sid errmsg t =
      .ok ((tsk.unblock ioid f (.response .connect t)).setSo i { so' with sockid := sid }) := by
    have hcond : ((so.setFrameid .connect 0).sockid = 0 && (decide (sid ≠ 0) || error)) = true := by
      simpa [Sysobject.setFrameid, hsid0] using hsid
    simp only [Task.connectResponse]
    rw [show (SysobjectType.connection) = Frameaddr.connect.type from rfl, heq]
    simp only [bind, Except.bind]
    rw [if_pos hcond, hso', setSo_setSo]
  rw [this]
  have hsame : so'.frameids = (so.setFrameid .connect 0).frameids ∧ so'.type = so.type ∧
      so'.listenerso = so.listenerso ∧ so'.doneConnect = so.doneConnect ∧ so'.closed = so.closed ∧
      so'.buf = so.buf ∧ so'.newso = so.newso ∧ (error = true → so'.connected = so.connected) := by
    rw [← hso']
    cases error
    · exact ⟨rfl, rfl, rfl, rfl, rfl, rfl, rfl, by simp⟩
    · exact ⟨rfl, rfl, rfl, rfl, rfl, rfl, rfl, fun _ => rfl⟩
  obtain ⟨h1, h2, h3, h4, h5, h6, h7, h8⟩ := hsame
  have hty : so'.type = .connection := h2.trans ha.type
  -- nothing has been read or written yet
  have hz : ∀ op : Frameaddr, op.type = .connection →
      (so.setFrameid .connect 0).frameids op = 0 := by
    intro op hopt
    by_contra hne
    have ho : op ≠ .connect := by
      rintro rfl
      simp [Sysobject.setFrameid] at hne
    have hne' : so.frameids op ≠ 0 := by
      simpa [Sysobject.setFrameid, ho] using hne
    have hrw : op = .read ∨ op = .write := by
      cases op <;> simp [Frameaddr.type] at hopt ho ⊢
    obtain ⟨hs1, hs2⟩ := h.frameid_ticket ha.lookup hne'
    exact hs2.2.2 hrw (by rw [← hs2.1 hopt]; exact hsid0)
  have hcon : so'.connected = true → so'.type = .connection ∧ sid ≠ 0 := by
    intro hc
    refine ⟨hty, ?_⟩
    obtain hs | herror := hsid
    · exact hs
    · have := (h.connected i so ha.lookup (h8 herror ▸ hc)).2
      exact absurd hsid0 this
  have hset := hinv.setSo { so' with sockid := sid } setSo_get
    (Task.Change.of_eq _ hinv setSo_get h1 h2 h3 (fun hd => h4 ▸ hd) h5 h6 h7 hcon) (.inr hz)
  rw [setSo_setSo] at hset
  refine ⟨hset, ?_⟩
  cases herror : error with
  | true =>
    have hset' := hok'.setSo { so' with sockid := sid } setSo_get h2
      (.inr (herr herror)) (fun hd => h4 ▸ hd) h3
    rwa [setSo_setSo] at hset'
  | false =>
    subst herror
    have hr' := hr.of_sysobjects ((tsk.unblock ioid f (.response .connect t)).setSo i
      (so.setFrameid .connect 0)) rfl (sysobjects_setFrameid ha.lookup)
    have hset' := hok'.assign_setSo i { so' with sockid := sid } hr' rfl
      ⟨fun hc => absurd (hc.symm.trans hty) (by simp), fun _ _ _ => rfl⟩ rfl
    rwa [setSo_setSo] at hset'

/-- `interpreter_accept_response` -/
theorem Good.acceptResponse (h : tsk.Inv) (hok : Ok tsk io [(ioid, t)])
    (hop : t.op = some .accept) (hr : Heard tsk io (.accept ioid sid t))
    (hcalm : ∀ f i, (tsk.ioframes ioid).f = some f → (tsk.frames f).instr = some (.accept i) →
      ¬ tsk.Woken (.accept i)) : Good io (tsk.acceptResponse ioid sid t) := by
  obtain ⟨f, i, so, instr, ha⟩ := h.answered (hok.link.valid _ _ (.hand (List.mem_cons_self ..)))
    hop
  obtain ⟨heq, hinv, hok'⟩ := answer_spec h hok hop ha
  have hinstr : instr = .accept i := by
    have h1 := ha.op_eq
    have h2 := ha.top
    cases instr <;> simp [Bif.op, Bif.top] at h1 h2
    rw [h2]
  subst hinstr
  have hnew : so.newso = none := by
    by_contra hne
    exact hcalm f i ha.slot ha.frame (h.newso i so ha.lookup hne).2
  generalize htsk₁ : (tsk.unblock ioid f (.response .accept t)).setSo i (so.setFrameid .accept 0) =
    tsk₁ at hinv hok'
  generalize hcs : ({ type := .connection, connected := true, listenerso := some i, sockid := sid }
    : Sysobject) = connso
  have hn₁ : tsk₁.nsysobjects = tsk.nsysobjects := by rw [← htsk₁]; rfl
  have hlt := h.bound i so ha.lookup
  have : tsk.acceptResponse ioid sid t = .ok ((tsk₁.newSysobject connso).setSo i
      { so.setFrameid .accept 0 with newso := some tsk₁.nsysobjects }) := by
    simp only [Task.acceptResponse]
    rw [show (SysobjectType.listener) = Frameaddr.accept.type from rfl, heq, htsk₁]
    have hnone : (so.setFrameid .accept 0).newso.isNone = true := by
      simp [Sysobject.setFrameid, hnew]
    simp only [bind, Except.bind]
    rw [if_pos hnone, hcs]
    simp only [Task.setSo, Task.newSysobject]
    rw [Function.update_comm (by omega)]
  rw [this]
  have hget : tsk₁.sysobjects i = some (so.setFrameid .accept 0) := by rw [← htsk₁]; exact setSo_get
  have hget' : (tsk₁.newSysobject connso).sysobjects i = some (so.setFrameid .accept 0) := by
    rw [Task.newSysobject_of_ne (by omega)]
    exact hget
  have hadd : (tsk₁.newSysobject connso).Inv := by
    refine hinv.newSysobject connso ?_ ?_ ?_ ?_
    · rw [← hcs]
      exact fun _ => rfl
    · rw [← hcs]
    · rw [← hcs]
    · rw [← hcs]
      exact fun _ => ⟨rfl, (hr.announces sid rfl).1⟩
  have hwoken : (tsk₁.newSysobject connso).Woken (.accept i) := by
    rw [← htsk₁]
    exact ha.woken (.response .accept t) (so.setFrameid .accept 0)
  have hr' : Heard tsk₁ io (.accept ioid sid t) := by
    refine hr.of_sysobjects _ ?_ ?_
    · rw [← htsk₁]
      rfl
    · rw [← htsk₁]
      exact sysobjects_setFrameid ha.lookup
  refine ⟨hadd.setSo _ hget' ?_ (.inl rfl), ?_⟩
  · have hc := Task.Change.of_eq _ hadd hget' rfl rfl rfl id rfl rfl rfl (hadd.connected i _ hget')
    refine { hc with newso := ?_ }
    intro j hj
    cases hj
    refine ⟨ha.type, hwoken, Nat.lt_succ_self _, fun d hd => ?_⟩
    simp only [Task.newSysobject, Function.update_self, Option.some.injEq] at hd
    rw [← hd, ← hcs]
    simp
  · have hnewok : Ok (tsk₁.newSysobject connso) io [] := by
      have hs := hok'.assign (i := tsk₁.nsysobjects)
        (Function.update tsk₁.sysobjects tsk₁.nsysobjects (some connso)) hr' rfl ?_ ?_
        (fun j hj => Function.update_of_ne hj _ _)
      · exact hs.task (tsk₁.newSysobject connso) rfl rfl (Nat.le_refl _)
          (fun a u hu => (hs.link.valid a u hu).of_eq rfl rfl)
          (fun j d hd => .inr ⟨d, hd, rfl, rfl, id, id⟩)
      · intro d hd
        rw [Function.update_self] at hd
        cases hd
        rw [← hcs]
        exact ⟨by simp, by simp⟩
      · intro d hd
        rw [Function.update_self] at hd
        cases hd
        rw [← hcs]
    exact hnewok.setSo _ hget' rfl (.inl rfl) id rfl

/-- The frame that reads the closed connection, or writes it, is taken out of its slot. `so` is what
`interpreter_connection_closed` has made of the sysobject so far. -/
theorem wake_spec (op : Frameaddr) (h : (tsk.setSo i so).Inv) (hok : Ok (tsk.setSo i so) io [])
    (hop : op = .read ∨ op = .write)
    (hconn : io.connections so.sockid = none)
    (habout : ∀ q ∈ io.sent, q.about ≠ some so.sockid) :
    ∃ tsk' so', tsk.wake i so op = .ok (tsk', so') ∧ (tsk'.setSo i so').Inv ∧
      Ok (tsk'.setSo i so') io [] ∧ so'.frameids op = 0 ∧ (∀ op', so.frameids op' = 0 →
        so'.frameids op' = 0) ∧ ∃ fr, so' = { so with frameids := fr } := by
  have hget : (tsk.setSo i so).sysobjects i = some so := setSo_get
  by_cases hz : so.frameids op = 0
  · exact ⟨tsk, so, by simp [Task.wake, hz], h, hok, hz, fun _ h0 => h0, so.frameids, rfl⟩
  obtain ⟨f, instr, hslot, hinstr, htop, hopi⟩ := h.owned i so op hget hz
  have hs := h.slot _ f hslot
  have hslot' : (tsk.ioframes (so.frameids op)).f = some f := hslot
  have hlt : so.frameids op < tsk.iocount := hs.lt
  obtain ⟨⟨hto, _⟩, hts, _⟩ := h.frameid_ticket hget hz
  have htype : op.type = .connection := by
    obtain rfl | rfl := hop <;> rfl
  have hts := hts htype
  -- no other answer is on its way: the connection is gone, and nothing more is said about it
  have hnot : ∀ u, ¬ Token (tsk.setSo i so) io [] (so.frameids op) u := by
    intro u hu
    have hown := (hok.link.valid _ u hu).2.2
    rw [hown] at hto hts
    generalize so.frameids op = k at hu
    cases hu with
    | hand hm => cases hm
    | @request r _ _ hm htok hl =>
      have hfit := hok.link.request_fits r hm
      have hl := hl _ _ htok so.sockid
      cases r with
      | read s a u' =>
        cases htok
        exact hl (by rw [hts, hfit.2]; rfl) hconn
      | write s a d u' =>
        cases htok
        exact hl (by rw [hts, hfit.2]; rfl) hconn
      | deleteConnection s => cases htok
      | deleteListener s => cases htok
      | _ =>
        cases htok
        rw [hfit.1] at hto
        obtain rfl | rfl := hop <;> cases hto
    | @response r _ _ hm htok =>
      have hfit := hok.link.response_fits r hm
      have ha := habout r hm
      cases r with
      | read a s d u' =>
        cases htok
        exact ha (by rw [hts]; rfl)
      | write a u' =>
        cases htok
        exact ha (by rw [hts]; rfl)
      | connectionClosed s e m => cases htok
      | accept a s u' =>
        cases htok
        rw [show u.op = some .accept from hfit] at hto
        obtain rfl | rfl := hop <;> cases hto
      | _ =>
        cases htok
        rw [hfit.1] at hto
        obtain rfl | rfl := hop <;> cases hto
    | @conn s c op' hc hne =>
      obtain ⟨_, hcop, hcs⟩ := hok.link.conn_fits s c op' hc hne
      rw [hcop] at hto
      cases hto
      have := hcs (by obtain rfl | rfl := hop <;> simp)
      rw [hts, this, hc] at hconn
      cases hconn
    | @listener s l hl hne =>
      rw [(hok.link.listener_fits s l hl hne).1] at hto
      obtain rfl | rfl := hop <;> cases hto
    | wakeup hm =>
      rw [hok.link.wakeup_fits _ hm] at hto
      cases hto
  have hinv := h.unblock_setSo (.connectionClosed so.sockid) hslot hinstr htop hopi hget rfl
    ⟨by rw [hto]; obtain rfl | rfl := hop <;> simp, hts.symm⟩
  have hok' := (hok.unblock f (.connectionClosed so.sockid) hnot).setFrameid
    op 0 hget
  have heq : ((tsk.setSo i so).unblock (so.frameids op) f (.connectionClosed so.sockid)).setSo i
      (so.setFrameid op 0) =
        ((tsk.unblock (so.frameids op) f (.connectionClosed so.sockid)).setSo i
          (so.setFrameid op 0)).setSo i (so.setFrameid op 0) := by
    simp [Task.setSo, Task.unblock]
  rw [heq] at hinv hok'
  refine ⟨(tsk.unblock (so.frameids op) f (.connectionClosed so.sockid)).setSo i
    (so.setFrameid op 0), so.setFrameid op 0, ?_, hinv, hok', ?_, fun op' h0 => ?_, _, rfl⟩
  · have hret : tsk.retrieveBlockedFrame (so.frameids op) (.connectionClosed so.sockid) =
        .ok (tsk.unblock (so.frameids op) f (.connectionClosed so.sockid), f) := by
      simp [Task.retrieveBlockedFrame, Nat.pos_of_ne_zero hz, hlt, hslot']
    simp only [Task.wake]
    rw [if_pos hz, hret]
    rfl
  · simp [Sysobject.setFrameid]
  · simp only [Sysobject.setFrameid, Function.update_apply]
    split
    · rfl
    · exact h0

/-- `interpreter_connection_closed` -/
theorem Good.connectionClosed {error : Bool} {errmsg : String} (h : tsk.Inv) (hok : Ok tsk io [])
    (hr : Heard tsk io (.connectionClosed sid error errmsg))
    (hcalm : ∀ i so, tsk.sysobjects i = some so → so.sockid = sid → so.listenerso = none) :
    Good io (tsk.connectionClosed sid error errmsg) := by
  obtain ⟨hsid0, hconn, habout, hunused, htype⟩ := hr.closes sid rfl
  unfold Task.connectionClosed
  cases hfind : tsk.findSysobject sid with
  | none => exact ⟨h, hok⟩
  | some i =>
    dsimp only
    cases hso : tsk.sysobjects i with
    | none => exact ⟨h, hok⟩
    | some so =>
      have hsid : so.sockid = sid := by
        have := List.find?_some hfind
        simpa [hso] using this
      have hdone : so.doneConnect = true := by
        cases hd : so.doneConnect with
        | true => rfl
        | false =>
          exact absurd (.inl ⟨i, so, hso, htype i so hso hsid, hsid, hd, hcalm i so hso hsid⟩)
            hunused
      have hfid : so.frameids .connect = 0 := by
        by_contra hne
        obtain ⟨_, hs1, hs2, _⟩ := h.frameid_ticket hso hne
        exact hsid0 (hsid.symm.trans ((hs1 rfl).trans (hs2 rfl)))
      dsimp only
      rw [if_pos (by simp [hdone, hfid])]
      have hc := Task.Change.of_eq { so with error := error, errmsg := errmsg } h hso rfl
        rfl rfl id rfl rfl rfl (h.connected i so hso)
      obtain ⟨tsk₁, so₁, heq₁, h₁, hok₁, hr₁, _, fr₁, rfl⟩ := wake_spec .read
        (h.setSo _ hso hc (.inl rfl)) (hok.setSo _ hso rfl (.inl rfl) id rfl) (.inl rfl)
        (by rw [hsid]; exact hconn) (by rw [hsid]; exact habout)
      obtain ⟨tsk₂, so₂, heq₂, h₂, hok₂, hw₂, hk₂, fr₂, rfl⟩ := wake_spec .write h₁ hok₁
        (.inr rfl) (by rw [hsid]; exact hconn)
        (by rw [hsid]; exact habout)
      simp only [heq₁, heq₂, bind, Except.bind]
      have hc₂ := Task.Change.of_eq _ h₂ setSo_get rfl rfl rfl id rfl rfl rfl
        (h₂.connected i _ setSo_get)
      have hset := h₂.setSo { so with
          error := error, errmsg := errmsg, frameids := fr₂, closed := true } setSo_get
        { hc₂ with
          closed := fun _ => ⟨hk₂ _ hr₁, hw₂⟩
          buf := fun hb => ⟨(h₂.buf i _ setSo_get hb).1, fun hcl => by cases hcl⟩ } (.inl rfl)
      have hset' := hok₂.setSo { so with
          error := error, errmsg := errmsg, frameids := fr₂, closed := true } setSo_get rfl
        (.inl rfl) id rfl
      rw [setSo_setSo] at hset hset'
      exact ⟨hset, hset'⟩

/-! ## Builtins -/

/-- The frame `f` executes `instr`: it was unblocked at it, or it runs on its own and the program
has the sysobject. -/
structure Runs (tsk : Task) (f : Nat) (instr : Bif) : Prop where
  blocked : (tsk.frames f).blocked = false
  instr_eq : (tsk.frames f).instr = some instr ∨
    (tsk.frames f).instr = none ∧ ∀ i, instr.top = some i → tsk.known i = true

theorem Runs.taken (h : Runs tsk f instr)
    (hr : ∀ i so, instr = .readcon i → tsk.sysobjects i = some so → so.buf ≠ [] → so.closed = true)
    (ha : ∀ i so, instr = .accept i → tsk.sysobjects i = some so → so.newso = none) :
    tsk.Taken f := by
  intro i so hso
  obtain hi | ⟨hi, _⟩ := h.instr_eq
  · rw [hi]
    refine ⟨fun heq hb => hr i so (Option.some.inj heq) hso hb,
      fun heq => ha i so (Option.some.inj heq) hso⟩
  · rw [hi]
    exact ⟨(nomatch ·), (nomatch ·)⟩

/-- The frame has nothing to take from a response. -/
theorem Runs.idle (h : Runs tsk f instr) (hi : ∀ j, instr ≠ .readcon j ∧ instr ≠ .accept j)
    (j : Nat) :
    (tsk.frames f).instr ≠ some (.readcon j) ∧ (tsk.frames f).instr ≠ some (.accept j) := by
  obtain hi' | ⟨hi', _⟩ := h.instr_eq
  · rw [hi']
    exact ⟨fun heq => (hi j).1 (Option.some.inj heq), fun heq => (hi j).2 (Option.some.inj heq)⟩
  · rw [hi']
    exact ⟨(nomatch ·), (nomatch ·)⟩

theorem Task.Taken.of_idle (h : ∀ j, (tsk.frames f).instr ≠ some (.readcon j) ∧
    (tsk.frames f).instr ≠ some (.accept j)) : tsk.Taken f :=
  fun j _ _ => ⟨fun hi => absurd hi (h j).1, fun hi => absurd hi (h j).2⟩

/-- A frame that begins an operation runs on its own, or it starts a connect again. -/
theorem Runs.begins (h : Runs tsk f instr) (hinv : tsk.Inv)
    (hres : (tsk.frames f).resume = false) :
    (∀ j, (tsk.frames f).instr ≠ some (.readcon j) ∧ (tsk.frames f).instr ≠ some (.accept j)) ∧
      (∀ i, instr.top = some i → tsk.known i = true) := by
  obtain hi | ⟨hi, hk⟩ := h.instr_eq
  · obtain hr | rfl := hinv.resumes f instr hi
    · rw [hr] at hres
      cases hres
    · rw [hi]
      exact ⟨fun j => ⟨by simp, by simp⟩, fun i hi => by cases hi⟩
  · rw [hi]
    exact ⟨fun j => ⟨by simp, by simp⟩, hk⟩

theorem Good.finish (h : tsk.Inv) (hok : Ok tsk io []) (hr : Runs tsk f instr)
    (ht : tsk.Taken f) (resume : Bool) : Good io (.ok (tsk.finish f resume)) :=
  ⟨h.finish hr.blocked ht resume, hok.finish f resume⟩

/-- The task has a sysobject for a connection that it may use. -/
theorem Ok.not_unused_known (hok : Ok tsk io hand) (hso : tsk.sysobjects i = some so)
    (hne : so.sockid ≠ 0)
    (hk : so.type = .connection → so.doneConnect = true ∨ so.listenerso ≠ none) :
    ¬ Unused tsk io so.sockid := by
  rintro (⟨j, d, hd, hty, hsid, hdone, hl⟩ | hm)
  · have hj : j = i := hok.sock.inj j i d so hd hso hsid (by rw [hsid]; exact hne)
    subst hj
    rw [hso] at hd
    cases hd
    obtain hk | hk := hk hty
    · rw [hdone] at hk
      cases hk
    · exact hk hl
  · refine hok.sock.announced i so hso ?_
    obtain ⟨r, hr, hc⟩ := List.mem_filterMap.mp hm
    exact List.mem_filterMap.mpr ⟨r, hr, connects_announced hc⟩

/-- `free_sysobject` -/
theorem Good.freeSysobject (so' : Sysobject) (h : tsk.Inv) (hok : Ok tsk io [])
    (hso : tsk.sysobjects i = some so)
    (hf : so'.frameids = so.frameids) (hty : so'.type = so.type) (hsid : so'.sockid = so.sockid)
    (hz : so.type = .listener → ∀ op, so.frameids op = 0) :
    Good io (tsk.freeSysobject i so') := by
  have hfree : Ok ({ tsk with sysobjects := Function.update tsk.sysobjects i none } : Task) io [] :=
    hok.sysobjects fun j d hd => ⟨d, d.frameids, (Task.free_cases hd).2, rfl⟩
  -- nobody else has the socket
  have hunused : so.sockid ≠ 0 → ¬ Unused ({ tsk with
      sysobjects := Function.update tsk.sysobjects i none } : Task) io so.sockid := by
    rintro hne (⟨j, d, hd, _, hs, _⟩ | hm)
    · obtain ⟨hj, hd'⟩ := Task.free_cases hd
      exact hj (hok.sock.inj j i d so hd' hso hs (by rw [hs]; exact hne))
    · refine hok.sock.announced i so hso ?_
      obtain ⟨r, hr, hc⟩ := List.mem_filterMap.mp hm
      exact List.mem_filterMap.mpr ⟨r, hr, connects_announced hc⟩
  have hinv : (∀ op, so.frameids op = 0) →
      ({ tsk with sysobjects := Function.update tsk.sysobjects i none } : Task).Inv := h.free hso
  unfold Task.freeSysobject
  rw [hty, hsid]
  cases hst : so.type with
  | listener =>
    dsimp only
    have hinv := hinv (hz hst)
    split
    · exact ⟨hinv, hfree⟩
    · exact ⟨hinv.sent _, Ok.send (r := .deleteListener so.sockid) hfree trivial
        fun s hs => by cases hs⟩
  | connection =>
    dsimp only
    by_cases hcond : (so'.frameids .connect = 0 && so'.frameids .read = 0 &&
        so'.frameids .write = 0 && so'.frameids .listen = 0 && so'.frameids .accept = 0) = true
    · rw [if_pos hcond]
      simp only [Bool.and_eq_true, decide_eq_true_eq, hf] at hcond
      obtain ⟨⟨⟨⟨h1, h2⟩, h3⟩, h4⟩, h5⟩ := hcond
      have hinv := hinv fun op => by cases op <;> assumption
      split
      · exact ⟨hinv, hfree⟩
      · rename_i hne
        refine ⟨hinv.sent _, Ok.send (r := .deleteConnection so.sockid) hfree trivial
          fun s hs => ?_⟩
        cases hs
        exact ⟨hok.sock.lt i so hso, fun _ => hunused hne,
          fun c hc => hok.sock.opening i so c hso hc⟩
    · rw [if_neg hcond]
      simp [Good]

/-- `sysobject_delete_if_finished` -/
theorem Good.deleteIfFinished (h : tsk.Inv) (hok : Ok tsk io [])
    (hso : tsk.sysobjects i = some so) (hty : so.type = .connection)
    (hc : tsk.Change i so so') (hsid : so'.sockid = so.sockid) :
    Good io (tsk.deleteIfFinished i so') := by
  unfold Task.deleteIfFinished
  split
  · exact Good.freeSysobject _ h hok hso hc.frameids hc.type hsid
      fun hl => by rw [hty] at hl; cases hl
  · exact ⟨h.setSo _ hso hc (.inl hsid),
      hok.setSo _ hso hc.type (.inl hsid) hc.doneConnect hc.listenerso⟩

/-- A request for the sysobject `i` -/
theorem Good.request {r : Nat → Ticket → Request} (instr : Bif) (h : tsk.Inv) (hok : Ok tsk io [])
    (hblock : (tsk.frames f).blocked = false)
    (hbegin : ∀ j, (tsk.frames f).instr ≠ some (.readcon j) ∧
      (tsk.frames f).instr ≠ some (.accept j))
    (hso : tsk.sysobjects i = some so) (htop : instr.top = some i) (hty : so.type = instr.op.type)
    (hconn : instr.op = .connect → so.sockid = 0)
    (hrw : instr.op = .read ∨ instr.op = .write → so.sockid ≠ 0)
    (hcl : so.closed = true → instr.op ≠ .read ∧ instr.op ≠ .write)
    (htok : ∀ a u, (r a u).token = some (a, u))
    (hfit : ∀ a u, u.op = some instr.op → u.sid = so.sockid → (r a u).Fits)
    (hsock : ∀ a u s, (r a u).sock = some s → s < io.nextsid ∧ (s ≠ 0 → ¬ Unused tsk io s) ∧
      ∀ c, io.connections s = some c → c.state.opening = false) :
    Good io (tsk.request f i so instr instr.op r) := by
  unfold Task.request
  generalize ht : tsk.ticket (some instr.op) so.sockid = t
  have htn : t.num = tsk.tickets := by rw [← ht]; rfl
  have hto : t.op = some instr.op := by rw [← ht]; rfl
  have hts : t.sid = so.sockid := by rw [← ht]; rfl
  obtain heq | ⟨ioid, n, k, hfree, heq⟩ :=
    Task.suspend_cases h f instr true t
  · simp [heq, bind, Except.bind, Good]
  · simp only [heq, bind, Except.bind]
    split
    · rename_i hzero
      have hb := Task.blocks_request ioid hso htop hzero hto hts hty hconn hrw hcl
      refine ⟨(h.block (k := k) true hfree hblock hbegin (.inl rfl) htn hb).sent _, ?_⟩
      have hsus := hok.suspended (k := k) f instr true hfree htn
      rw [show [(ioid, t)] = (r ioid t).token.toList ++ [] by rw [htok]; rfl] at hsus
      exact (hsus.send (hfit _ _ hto hts) (hsock ioid t)).setFrameid _ _ hso
    · simp [Good]

/-- `b_connect` -/
theorem Good.bConnect {arg : Option Nat} (h : tsk.Inv) (hok : Ok tsk io [])
    (hr : Runs tsk f (.opencon arg)) : Good io (tsk.bConnect f arg) := by
  have hidle := hr.idle (fun j => ⟨by simp, by simp⟩)
  have htaken : tsk.Taken f := .of_idle hidle
  unfold Task.bConnect
  split
  · rename_i hres
    cases arg with
    | some i => exact Good.finish h hok hr htaken false
    | none =>
      have hadd := h.newSysobject { type := .connection } (fun _ => rfl) rfl rfl
        (fun hc => by cases hc)
      have hadd' := hok.newSysobject { type := .connection } rfl
      exact Good.request (r := .connect) (.opencon (some tsk.nsysobjects)) hadd hadd' hr.blocked
        (hr.begins h hres).1
        (Function.update_self ..) rfl rfl (fun _ => rfl)
        (by simp [Bif.op]) (by simp) (fun _ _ => rfl) (fun _ _ h1 h2 => ⟨h1, h2⟩)
        (fun _ _ _ hs => by cases hs)
  · cases harg : arg.bind fun i => (tsk.sysobjects i).map fun so => (i, so) with
    | none => simp [Good]
    | some x =>
      obtain ⟨i, so⟩ := x
      have hso : tsk.sysobjects i = some so := by
        obtain ⟨j, _, hj⟩ := Option.bind_eq_some_iff.mp harg
        obtain ⟨d, hd, heq⟩ := Option.map_eq_some_iff.mp hj
        cases heq
        exact hd
      dsimp only
      split
      · rename_i hty
        have hcon := h.connected i so hso
        split
        · split
          · -- out of sockets: the frame waits for a collection
            have hc := Task.Change.of_eq { so with retry := so.retry + 1 } h hso rfl rfl rfl
              id rfl rfl rfl hcon
            have hset := h.setSo _ hso hc (.inl rfl)
            have hset' := hok.setSo { so with retry := so.retry + 1 } hso rfl (.inl rfl) id
              rfl
            generalize htsk₁ : tsk.setSo i { so with retry := so.retry + 1 } = tsk₁ at hset hset' ⊢
            have hframes : tsk₁.frames = tsk.frames := by rw [← htsk₁]; rfl
            obtain heq | ⟨ioid, n, k, hfree, heq⟩ := Task.suspend_cases hset f
              (.opencon none) false (tsk₁.ticket none 0)
            · simp [heq, bind, Except.bind, Good]
            · simp only [heq, bind, Except.bind]
              have hblock := hset.block (k := k) false hfree
                (by rw [hframes]; exact hr.blocked) (by rw [hframes]; exact hidle) (.inr rfl)
                (t := tsk₁.ticket none 0) rfl (Task.blocks_wait rfl)
              exact ⟨hblock.waiting _, (hset'.suspended _ _ _ hfree rfl).wait rfl⟩
          · refine Good.deleteIfFinished (h.finish hr.blocked htaken false) (hok.finish f false) hso
              hty ?_ rfl
            exact Task.Change.of_eq _ (h.finish hr.blocked htaken false) hso rfl rfl rfl
              (fun hd => by cases hd) rfl rfl rfl hcon
        · have hc := Task.Change.of_eq { so with doneConnect := true } h hso rfl rfl rfl
            (fun hd => by cases hd) rfl rfl rfl hcon
          have hset := h.setSo _ hso hc (.inl rfl)
          have hset' := hok.setSo { so with doneConnect := true } hso rfl (.inl rfl)
            (fun hd => by cases hd) rfl
          have hknow := hset.know (h.bound i so hso) fun d hd _ => by
            rw [setSo_get] at hd
            cases hd
            exact .inl rfl
          exact ⟨hknow.finish hr.blocked (.of_idle hidle) false, (hset'.know i).finish f false⟩
      · simp [Good]

/-- `b_listen` -/
theorem Good.bListen {arg : Option Nat} (h : tsk.Inv) (hok : Ok tsk io [])
    (hr : Runs tsk f (.startlisten arg)) : Good io (tsk.bListen f arg) := by
  have hidle := hr.idle (fun j => ⟨by simp, by simp⟩)
  have htaken : tsk.Taken f := .of_idle hidle
  unfold Task.bListen
  split
  · rename_i hres
    cases arg with
    | some i => exact Good.finish h hok hr htaken false
    | none =>
      have hadd := h.newSysobject { type := .listener } (fun _ => rfl) rfl rfl
        (fun hc => by cases hc)
      have hadd' := hok.newSysobject { type := .listener } rfl
      exact Good.request (r := .listen) (.startlisten (some tsk.nsysobjects)) hadd hadd' hr.blocked
        hidle (Function.update_self ..)
        rfl rfl (by simp [Bif.op]) (by simp [Bif.op])
        (by simp) (fun _ _ => rfl) (fun _ _ h1 h2 => ⟨h1, h2⟩) (fun _ _ _ hs => by cases hs)
  · cases harg : arg.bind fun i => (tsk.sysobjects i).map fun so => (i, so) with
    | none => exact Good.finish h hok hr htaken true
    | some x =>
      obtain ⟨i, so⟩ := x
      have hso : tsk.sysobjects i = some so := by
        obtain ⟨j, _, hj⟩ := Option.bind_eq_some_iff.mp harg
        obtain ⟨d, hd, heq⟩ := Option.map_eq_some_iff.mp hj
        cases heq
        exact hd
      dsimp only
      split
      · rename_i hty
        split
        · exact Good.finish h hok hr htaken false
        · have hknow := h.know (h.bound i so hso) fun d hd hc => by
            rw [hso] at hd
            cases hd
            rw [hty] at hc
            cases hc
          exact ⟨hknow.finish hr.blocked (.of_idle hidle) false, (hok.know i).finish f false⟩
      · exact Good.finish h hok hr htaken true

/-- `b_accept` -/
theorem Good.bAccept (h : tsk.Inv) (hok : Ok tsk io []) (hr : Runs tsk f (.accept i)) :
    Good io (tsk.bAccept f i) := by
  unfold Task.bAccept
  cases hso : tsk.sysobjects i with
  | none =>
    refine Good.finish h hok hr (hr.taken (fun _ _ hi => by cases hi) ?_) _
    intro j d hi hd
    cases hi
    rw [hso] at hd
    cases hd
  | some so =>
    dsimp only
    split
    · rename_i hty
      split
      · rename_i hres
        exact Good.request (r := .accept so.sockid) (.accept i) h hok hr.blocked
          (hr.begins h hres).1 hso
          rfl hty (by simp [Bif.op]) (by simp [Bif.op]) (by simp [Bif.op])
          (fun _ _ => rfl) (fun _ _ h1 h2 => ⟨h1, h2⟩) (fun _ _ _ hs => by cases hs)
      · cases hnew : so.newso with
        | none => simp [Good]
        | some j =>
          have hc := Task.Change.of_eq so h hso rfl rfl rfl id rfl rfl rfl
            (h.connected i so hso)
          have hset := h.setSo { so with newso := none } hso
            { hc with newso := fun _ hj => by cases hj } (.inl rfl)
          have hset' := hok.setSo { so with newso := none } hso rfl (.inl rfl) id rfl
          obtain ⟨hlt, hj⟩ := h.newso_so i so j hso hnew
          have hknow := hset.know (i := j) hlt fun d hd hdty => by
            obtain ⟨_, rfl⟩ | ⟨_, hd⟩ := Task.setSo_cases hd
            · rw [hty] at hdty
              cases hdty
            · exact .inr (hj d hd)
          refine ⟨hknow.finish hr.blocked ?_ false, (hset'.know j).finish f false⟩
          have hrun : Runs ((tsk.setSo i { so with newso := none }).know j) f (.accept i) :=
            ⟨hr.blocked, hr.instr_eq.imp id fun hk => ⟨hk.1, fun m hm => by
              have := hk.2 m hm
              simp only [Task.know, Task.setSo, Function.update_apply]
              split
              · rfl
              · exact this⟩⟩
          refine hrun.taken (fun _ _ hi => by cases hi) ?_
          intro m d hi hd
          cases hi
          have hd' : (tsk.setSo i { so with newso := none }).sysobjects i = some d := hd
          rw [setSo_get] at hd'
          cases hd'
          rfl
    · rename_i hty
      refine Good.finish h hok hr (hr.taken (fun _ _ hi => by cases hi) ?_) _
      intro j d hi hd
      cases hi
      rw [hso] at hd
      cases hd
      by_contra hne
      exact hty (h.newso i so hso hne).1

/-- The sysobject may be used: its socket is in use, and nobody else has it. -/
theorem Good.sock (hok : Ok tsk io []) (hso : tsk.sysobjects i = some so)
    (hk : so.type = .connection → so.doneConnect = true ∨ so.listenerso ≠ none) :
    so.sockid < io.nextsid ∧ (so.sockid ≠ 0 → ¬ Unused tsk io so.sockid) ∧
      ∀ c, io.connections so.sockid = some c → c.state.opening = false :=
  ⟨hok.sock.lt i so hso, fun hne => hok.not_unused_known hso hne hk,
    fun c hc => hok.sock.opening i so c hso hc⟩

/-- `b_readcon` -/
theorem Good.bReadcon (h : tsk.Inv) (hok : Ok tsk io []) (hr : Runs tsk f (.readcon i)) :
    Good io (tsk.bReadcon f i) := by
  -- what has been read is taken, or the connection is closed
  have htaken : (∀ so, tsk.sysobjects i = some so → so.buf ≠ [] → so.closed = true) → tsk.Taken f :=
    fun hb => hr.taken (fun j d hi hd => by cases hi; exact hb d hd) (fun _ _ hi => by cases hi)
  unfold Task.bReadcon
  cases hso : tsk.sysobjects i with
  | none =>
    refine Good.finish h hok hr (htaken fun d hd => ?_) _
    rw [hso] at hd
    cases hd
  | some so =>
    have hcon := h.connected i so hso
    -- the frame is done with the connection
    have hdelete : (so.buf ≠ [] → so.closed = true) → so.type = .connection →
        Good io ((tsk.finish f false).deleteIfFinished i { so with doneReading := true }) := by
      intro hb hty
      have ht := htaken fun d hd => by
        rw [hso] at hd
        cases hd
        exact hb
      have hfin := h.finish hr.blocked ht false
      exact Good.deleteIfFinished hfin (hok.finish f false) hso hty
        (Task.Change.of_eq _ hfin hso rfl rfl rfl id rfl rfl rfl hcon) rfl
    dsimp only
    split
    · rename_i hty
      split
      · simp [Good]
      · rename_i hconn
        split
        · rename_i hcl
          exact hdelete (fun _ => hcl) hty
        · rename_i hcl
          split
          · rename_i hres
            obtain ⟨hbegin, hk⟩ := hr.begins h hres
            refine Good.request (r := .read so.sockid) (.readcon i) h hok hr.blocked hbegin hso
              rfl hty (by simp [Bif.op])
              (fun _ => (hcon (by simpa using hconn)).2) (fun hc => absurd hc hcl)
              (fun _ _ => rfl) (fun _ _ h1 h2 => ⟨h1, h2⟩) (fun a u s hs => ?_)
            cases hs
            exact Good.sock hok hso (h.known i so hso (hk i rfl))
          · split
            · rename_i hlen
              exact hdelete (fun hb => absurd (List.length_eq_zero_iff.mp hlen) hb) hty
            · have hc := Task.Change.of_eq so h hso rfl rfl rfl id rfl rfl rfl hcon
              have hset := h.setSo { so with buf := [] } hso
                { hc with buf := fun hb => absurd rfl hb } (.inl rfl)
              have hset' := hok.setSo { so with buf := [] } hso rfl (.inl rfl) id rfl
              have hrun : Runs (tsk.setSo i { so with buf := [] }) f (.readcon i) :=
                ⟨hr.blocked, hr.instr_eq⟩
              refine ⟨hset.finish hr.blocked (hrun.taken ?_ (fun _ _ hi => by cases hi)) false,
                hset'.finish f false⟩
              intro j d hi hd hb
              cases hi
              rw [setSo_get] at hd
              cases hd
              exact absurd rfl hb
    · rename_i hty
      refine Good.finish h hok hr (htaken fun d hd hb => ?_) _
      rw [hso] at hd
      cases hd
      exact absurd (h.buf i so hso hb).1 hty

/-- `write_data` -/
theorem Good.bWrite {data : List UInt8} (h : tsk.Inv) (hok : Ok tsk io [])
    (hr : Runs tsk f instr) (hop : instr.op = .write) (htop : instr.top = some i) :
    Good io (tsk.bWrite f i instr data) := by
  have hidle := hr.idle fun j => by
    constructor
    · rintro rfl
      cases hop
    · rintro rfl
      cases hop
  have htaken : tsk.Taken f := .of_idle hidle
  unfold Task.bWrite
  cases hso : tsk.sysobjects i with
  | none => exact Good.finish h hok hr htaken _
  | some so =>
    have hcon := h.connected i so hso
    have hdelete : so.type = .connection →
        Good io ((tsk.finish f false).deleteIfFinished i { so with doneWriting := true }) := by
      intro hty
      have hfin := h.finish hr.blocked htaken false
      exact Good.deleteIfFinished hfin (hok.finish f false) hso hty
        (Task.Change.of_eq _ hfin hso rfl rfl rfl id rfl rfl rfl hcon) rfl
    dsimp only
    split
    · rename_i hty
      unfold Task.writeData
      split
      · simp [Good]
      · rename_i hconn
        split
        · exact hdelete hty
        · rename_i hcl
          split
          · split
            · exact hdelete hty
            · exact Good.finish h hok hr htaken false
          · rename_i hres
            obtain ⟨hbegin, hk⟩ := hr.begins h (by simpa using hres)
            rw [← hop]
            refine Good.request (r := fun ioid t => .write so.sockid ioid data t) instr h
              hok hr.blocked
              hbegin hso htop (by rw [hop]; exact hty) (by simp [hop])
              (fun _ => (hcon (by simpa using hconn)).2) (fun hc => absurd hc hcl)
              (fun _ _ => rfl) (fun _ _ h1 h2 => ⟨by rw [h1, hop], h2⟩) (fun a u s hs => ?_)
            cases hs
            exact Good.sock hok hso (h.known i so hso (hk i htop))
    · exact Good.finish h hok hr htaken _

theorem Good.execute (h : tsk.Inv) (hok : Ok tsk io []) (hr : Runs tsk f instr) :
    Good io (tsk.execute f instr) := by
  cases instr with
  | opencon arg => exact Good.bConnect h hok hr
  | startlisten arg => exact Good.bListen h hok hr
  | accept i => exact Good.bAccept h hok hr
  | readcon i => exact Good.bReadcon h hok hr
  | print i c => exact Good.bWrite h hok hr rfl rfl
  | printarray i data =>
    simp only [Task.execute, Task.bPrintarray]
    split
    · exact Good.bWrite h hok hr rfl rfl
    · simp [Good]
  | printend i => exact Good.bWrite h hok hr rfl rfl

/-! ## Collections -/

theorem Task.freeSysobject_frames (h : tsk.freeSysobject i so = .ok tsk') :
    tsk'.frames = tsk.frames := by
  unfold Task.freeSysobject at h
  cases hty : so.type with
  | listener =>
    rw [hty] at h
    cases h
    split <;> rfl
  | connection =>
    rw [hty] at h
    dsimp only at h
    split at h
    · cases h
      split <;> rfl
    · cases h

/-- `sweep_sysobjects` -/
theorem Good.sweepSysobjects {dead l : List Nat} (h : tsk.Inv) (hok : Ok tsk io [])
    (hg : ∀ f instr i, (tsk.frames f).instr = some instr → instr.top = some i → i ∉ dead) :
    Good io (tsk.sweepSysobjects dead l) := by
  induction l generalizing tsk with
  | nil => exact ⟨h, hok⟩
  | cons i rest ih =>
    unfold Task.sweepSysobjects
    cases hso : tsk.sysobjects i with
    | none => exact ih h hok hg
    | some so =>
      dsimp only
      split
      · rename_i hi
        have hz : so.type = .listener → ∀ op, so.frameids op = 0 := by
          intro _ op
          by_contra hne
          obtain ⟨g, instr, _, hinstr, htop, _⟩ := h.owned i so op hso hne
          exact hg g instr i hinstr htop hi
        have hfree := Good.freeSysobject so h hok hso rfl rfl rfl hz
        cases hf : tsk.freeSysobject i so with
        | error e =>
          rw [hf] at hfree
          exact hfree
        | ok tsk₁ =>
          rw [hf] at hfree
          have hframes : tsk₁.frames = tsk.frames := Task.freeSysobject_frames hf
          exact ih hfree.1 hfree.2 (by rw [hframes]; exact hg)
      · exact ih h hok hg

/-- The frames that waited for the collection are woken. -/
theorem Good.wakeup {l : List (Nat × Ticket)} (h : tsk.Inv)
    (hok : Ok { tsk with wakeupAfterCollect := [] } io l) (hl : ∀ x ∈ l, x.2.op = none) :
    Good io (tsk.wakeup l) := by
  induction l generalizing tsk with
  | nil => exact ⟨h.waiting [], hok⟩
  | cons x rest ih =>
    obtain ⟨ioid, t⟩ := x
    have hop : t.op = none := hl (ioid, t) (List.mem_cons_self ..)
    obtain ⟨hpos, hne, how⟩ := hok.link.valid ioid t (.hand (List.mem_cons_self ..))
    have how' : tsk.owner ioid = t := how
    obtain ⟨f, hslot⟩ := Option.ne_none_iff_exists'.mp hne
    have hs := h.slot ioid f hslot
    have hret : tsk.retrieveBlockedFrame ioid (.collected t) =
        .ok (tsk.unblock ioid f (.collected t), f) := by
      have hslot' : (tsk.ioframes ioid).f = some f := hslot
      simp [Task.retrieveBlockedFrame, hs.pos, hs.lt, hslot']
    simp only [Task.wakeup, hret, bind, Except.bind]
    obtain ⟨instr, hinstr, hst⟩ := hs.stopped
    have htop : instr.top = none := by
      obtain ⟨_, rfl⟩ | ⟨op, _, _, h1, _⟩ := hst
      · rfl
      · rw [how', hop] at h1
        cases h1
    refine ih ?_ ?_ (fun y hy => hl y (List.mem_cons_of_mem _ hy))
    · refine h.unblock tsk.sysobjects hslot (by rw [how']; exact ⟨rfl, hop⟩)
        (fun j d hd => ⟨d, d.frameids, hd, rfl, fun op => .inr ⟨rfl, ?_⟩⟩) (fun j d hd => ⟨d, hd⟩)
      refine h.frameid_ne hslot hinstr hs.pos hd fun hh => ?_
      rw [htop] at hh
      cases hh.1
    · exact hok.drop.unblock f (.collected t) hok.hand_only

/-- A collection, and the frames that waited for it -/
theorem Good.collect {dead : List Nat} (h : tsk.Inv) (hok : Ok tsk io []) (hg : tsk.Garbage dead) :
    Good io (tsk.collect dead) := by
  unfold Task.collect
  have hsweep := Good.sweepSysobjects (l := List.range tsk.nsysobjects) h hok hg.frame
  cases hs : tsk.sweepSysobjects dead (List.range tsk.nsysobjects) with
  | error e =>
    rw [hs] at hsweep
    exact hsweep
  | ok tsk₁ =>
    rw [hs] at hsweep
    have hwake := Good.wakeup hsweep.1 hsweep.2.takeWaiting hsweep.2.link.wakeup_fits
    simpa only [bind, Except.bind] using hwake

end

/-! ## Runs -/

namespace State

/-- What the code relies on without saying so, for the next step.

A notice that a connection is closed is not about an accepted connection (for those, nothing sets
the flag that the handler asserts). A write of no bytes, which is always answered, is for a
connection that is still there. A listener answers when no frame that has accepted on it still has
to take its connection, and a connection when no reader still has to take the data. -/
def Calm (s : State) : Action → Prop
  | .receive =>
    match s.io.sent.head? with
    | some (.connectionClosed sid _ _) =>
      ∀ i so, s.tsk.sysobjects i = some so → so.sockid = sid → so.listenerso = none
    | some (.accept ioid _ _) => ∀ f i, (s.tsk.ioframes ioid).f = some f →
      (s.tsk.frames f).instr = some (.accept i) → ¬ s.tsk.Woken (.accept i)
    | some (.read ioid _ _ _) => ∀ f i, (s.tsk.ioframes ioid).f = some f →
      (s.tsk.frames f).instr = some (.readcon i) → ¬ s.tsk.Woken (.readcon i)
    | _ => True
  | .handle _ =>
    match s.tsk.sent.head? with
    | some (.write sid _ [] _) => s.io.connections sid ≠ none
    | _ => True
  | _ => True

/-- The runs whose steps all meet the condition `C`. -/
inductive Run (C : State → Action → Prop) : State → Prop where
  | init : Run C {}
  | step {s s' : State} {a : Action} : Run C s → s.Enabled a → C s a → s.step a = .ok s' → Run C s'

structure Inv (s : State) : Prop where
  tsk : s.tsk.Inv
  ok : Ok s.tsk s.io []

theorem Inv.init : State.Inv {} where
  tsk :=
    { pos := Nat.zero_lt_one
      slot := fun _ _ hf => by cases hf
      slot_inj := fun _ _ _ hf => by cases hf
      owned := fun _ _ _ hd => by cases hd
      closed := fun _ _ hd => by cases hd
      buf := fun _ _ hd => by cases hd
      newso := fun _ _ hd => by cases hd
      newso_so := fun _ _ _ hd => by cases hd
      connected := fun _ _ hd => by cases hd
      bound := fun _ _ hd => by cases hd
      known := fun _ _ hd => by cases hd
      known_lt := fun _ hk => by cases hk
      resumes := fun _ _ hi => by cases hi
      running := fun _ _ => rfl
      history := fun _ => rfl
      proper := trivial
      named := fun _ _ hm => by cases hm }
  ok :=
    { inv :=
        { pos := Nat.succ_pos _
          conn_sid := fun _ _ hc => by cases hc
          room := fun _ _ hc => by cases hc
          closed := fun _ hs => by cases hs
          order := List.Pairwise.nil
          announced_nodup := List.nodup_nil
          announced_lt := fun _ hs => by cases hs
          opening := fun _ _ hc => by cases hc
          listening := fun _ hs => by cases hs }
      link :=
        { valid := fun _ _ hu => by
            cases hu with
            | hand hm => cases hm
            | request hm => cases hm
            | response hm => cases hm
            | conn hc => cases hc
            | listener hl => cases hl
            | wakeup hm => cases hm
          flight_le := fun _ => Nat.zero_le _
          held := fun _ _ => rfl
          held_connect := fun _ _ _ _ hc => by cases hc
          fresh := fun _ hu => by
            obtain hu | hu := hu
            · exact absurd hu (Nat.lt_irrefl _)
            · cases hu with
              | conn hc => cases hc
              | listener hl => cases hl
          request_fits := fun _ hm => by cases hm
          response_fits := fun _ hm => by cases hm
          wakeup_fits := fun _ hm => by cases hm
          conn_fits := fun _ _ _ hc => by cases hc
          listener_fits := fun _ _ hl => by cases hl }
      sock :=
        { inj := fun _ _ _ _ hd => by cases hd
          lt := fun _ _ hd => by cases hd
          announced := fun _ _ hd => by cases hd
          opening := fun _ _ _ hd => by cases hd
          listener := fun _ _ hd => by cases hd
          request_lt := fun _ hm => by cases hm
          untouched := fun _ _ hc => by cases hc
          quiet := fun _ _ hu => by
            obtain ⟨_, _, hd, _⟩ | hm := hu
            · cases hd
            · cases hm
          quiet_request := fun _ _ _ _ hm => by cases hm } }

variable {s s' : State} {a : Action}

theorem good_map {io : Io} {e : Except Halt Task} {g : Task → State} (hg : Good io e)
    (hio : ∀ tsk, (g tsk).tsk = tsk ∧ (g tsk).io = io) :
    e.map g ≠ .error .response ∧ ∀ s', e.map g = .ok s' → s'.Inv := by
  cases e with
  | error e =>
    refine ⟨fun heq => hg ?_, fun s' heq => by cases heq⟩
    cases heq
    rfl
  | ok tsk =>
    refine ⟨(nomatch ·), fun s' heq => ?_⟩
    cases heq
    obtain ⟨h1, h2⟩ := hio tsk
    exact ⟨by rw [h1]; exact hg.1, by rw [h1, h2]; exact hg.2⟩

/-- The task handles the first message of the I/O thread. -/
theorem good_receive {r : Response} {rest : List Response} (h : s.Inv)
    (hs : s.io.sent = r :: rest) (hc : s.Calm .receive) :
    Good { s.io with sent := rest } (s.tsk.handleMessage r) := by
  obtain ⟨hok, hr⟩ := h.ok.popResponse hs
  have hfit := h.ok.link.response_fits r (by rw [hs]; exact List.mem_cons_self ..)
  simp only [Calm, hs, List.head?_cons] at hc
  cases r with
  | connect ioid error errn sid errmsg t =>
    exact Good.connectResponse h.tsk hok hfit.1 hr hfit.2
  | listen ioid error sid errmsg t => exact Good.listenResponse h.tsk hok hfit.1 hr hfit.2
  | accept ioid sid t => exact Good.acceptResponse h.tsk hok hfit hr hc
  | read ioid sid data t => exact Good.readResponse h.tsk hok hfit.1 hc
  | write ioid t => exact Good.writeResponse h.tsk hok hfit
  | connectionClosed sid error errmsg => exact Good.connectionClosed h.tsk hok hr hc

/-- A step of the I/O thread does not touch the task. -/
theorem inv_map {e : Except Halt Io} (h : s.Inv)
    (hio : ∀ io, e = .ok io → Ok s.tsk io []) (hne : e ≠ .error .response) :
    e.map ({ s with io := · }) ≠ .error .response ∧
      ∀ s', e.map ({ s with io := · }) = .ok s' → s'.Inv := by
  cases e with
  | error e =>
    refine ⟨fun heq => hne ?_, fun s' heq => by cases heq⟩
    cases heq
    rfl
  | ok io =>
    refine ⟨(nomatch ·), fun s' heq => ?_⟩
    cases heq
    exact ⟨h.tsk, hio io rfl⟩

theorem connectionFsm_ne {io : Io} {sid : Nat} {c : Connection} {event : CE} :
    io.connectionFsm sid c event ≠ .error .response := by
  unfold Io.connectionFsm
  split <;> try split
  all_goals simp

theorem deleteConns_ne {lsid : Nat} {l : List Nat} {io : Io} :
    io.deleteConns lsid l ≠ .error .response := by
  induction l generalizing io with
  | nil => simp [Io.deleteConns]
  | cons sid rest ih =>
    unfold Io.deleteConns
    split
    · exact ih
    · rename_i c _
      split
      · cases hf : io.connectionFsm sid c .delete with
        | error e =>
          intro heq
          cases heq
          exact connectionFsm_ne hf
        | ok io' => exact ih
      · exact ih

/-- The I/O thread has assertions of its own. -/
theorem handleMessage_ne {io : Io} {error : Option String} {r : Request} :
    io.handleMessage error r ≠ .error .response := by
  cases r with
  | connect ioid t =>
    simp only [Io.handleMessage, Io.iothreadConnect]
    exact connectionFsm_ne
  | listen ioid t => simp [Io.handleMessage]
  | accept sid ioid t =>
    simp only [Io.handleMessage, Io.iothreadAccept]
    split
    · simp
    · split <;> simp
  | read sid ioid t =>
    simp only [Io.handleMessage, Io.iothreadRead]
    split
    · simp
    · split <;> simp
  | write sid ioid data t =>
    simp only [Io.handleMessage, Io.iothreadWrite]
    split
    · simp
    · split <;> simp
  | deleteConnection sid =>
    simp only [Io.handleMessage, Io.iothreadDeleteConnection]
    split
    · simp
    · exact connectionFsm_ne
  | deleteListener sid =>
    simp only [Io.handleMessage, Io.iothreadDeleteListener]
    split
    · simp
    · cases hd : io.deleteConns sid (List.range io.nextsid) with
      | error e =>
        intro heq
        cases heq
        exact deleteConns_ne hd
      | ok io' => exact fun heq => by cases heq

theorem connectPending_ne {io : Io} {sid : Nat} {error : Option (Nat × String)} :
    io.connectPending sid error ≠ .error .response := by
  unfold Io.connectPending
  split
  · simp
  · split
    · split <;> exact connectionFsm_ne
    · simp

theorem handleConnected_ne {io : Io} {sid : Nat} {error : Option (Nat × String)} :
    io.handleConnected sid error ≠ .error .response := by
  unfold Io.handleConnected
  split
  · simp
  · split
    · split <;> exact connectionFsm_ne
    · simp

theorem handleWrite_ne {io : Io} {sid n : Nat} {error : Option (Nat × String)} :
    io.handleWrite sid n error ≠ .error .response := by
  unfold Io.handleWrite
  split
  · simp
  · split
    · split
      · split
        · simp
        · exact connectionFsm_ne
      · dsimp only
        split
        · exact connectionFsm_ne
        · simp
    · simp

theorem handleRead_ne {io : Io} {sid : Nat} {input : Io.Input} :
    io.handleRead sid input ≠ .error .response := by
  unfold Io.handleRead
  split
  · simp
  · split
    · split
      · exact connectionFsm_ne
      · exact connectionFsm_ne
      · split
        · simp
        · exact connectionFsm_ne
    · simp

theorem handleNewConnection_ne {io : Io} {lsid : Nat} :
    io.handleNewConnection lsid ≠ .error .response := by
  unfold Io.handleNewConnection
  split
  · simp
  · split
    · simp
    · split <;> simp

/-- Nothing but the three things that the code does not expect makes a handler fail, and every other
step keeps the ioids in their places. -/
theorem Inv.step (h : s.Inv) (he : s.Enabled a) (hc : s.Calm a) :
    s.step a ≠ .error .response ∧ ∀ s', s.step a = .ok s' → s'.Inv := by
  cases a with
  | call f instr =>
    simp only [State.step]
    split
    · rename_i hcan
      simp only [canCall, Bool.and_eq_true, Option.isNone_iff_eq_none] at hcan
      have hblocked := h.tsk.running f hcan.1
      exact good_map (Good.execute h.tsk h.ok ⟨hblocked, .inr ⟨hcan.1, fun i hi => by
        have := hcan.2
        rw [hi] at this
        exact this⟩⟩) fun _ => ⟨rfl, rfl⟩
    · exact ⟨by simp, fun _ heq => by cases heq⟩
  | resume f =>
    simp only [State.step]
    cases hi : (s.tsk.frames f).instr with
    | none => exact ⟨by simp, fun _ heq => by cases heq⟩
    | some instr =>
      dsimp only
      split
      · exact ⟨by simp, fun _ heq => by cases heq⟩
      · rename_i hb
        exact good_map (Good.execute h.tsk h.ok ⟨by simpa using hb, .inl hi⟩) fun _ => ⟨rfl, rfl⟩
  | collect dead => exact good_map (Good.collect h.tsk h.ok he) fun _ => ⟨rfl, rfl⟩
  | receive =>
    simp only [State.step]
    cases hs : s.io.sent with
    | nil => exact ⟨by simp, fun _ heq => by cases heq⟩
    | cons r rest => exact good_map (good_receive h hs hc) fun _ => ⟨rfl, rfl⟩
  | handle error =>
    simp only [State.step]
    cases hs : s.tsk.sent with
    | nil => exact ⟨by simp, fun _ heq => by cases heq⟩
    | cons r rest =>
      dsimp only
      have hend : ∀ sid ioid t, r = .write sid ioid [] t → s.io.connections sid ≠ none := by
        rintro sid ioid t rfl
        simpa only [Calm, hs, List.head?_cons] using hc
      cases hm : s.io.handleMessage error r with
      | error e =>
        refine ⟨fun heq => ?_, fun s' heq => by cases heq⟩
        cases heq
        exact handleMessage_ne hm
      | ok io =>
        refine ⟨fun heq => (by cases heq), fun s' heq => ?_⟩
        cases heq
        exact ⟨h.tsk.sent rest, h.ok.handleMessage hs hend hm⟩
  | connectPending sid error =>
    exact inv_map h (fun _ heq => h.ok.connectPending heq) connectPending_ne
  | connected sid error =>
    exact inv_map h (fun _ heq => h.ok.handleConnected heq) handleConnected_ne
  | write sid n error => exact inv_map h (fun _ heq => h.ok.handleWrite heq) handleWrite_ne
  | read sid input => exact inv_map h (fun _ heq => h.ok.handleRead heq) handleRead_ne
  | accept lsid =>
    exact inv_map h (fun _ heq => h.ok.handleNewConnection heq) handleNewConnection_ne

theorem Run.inv (h : Run Calm s) : s.Inv := by
  induction h with
  | init => exact .init
  | step _ he hc hs ih => exact (ih.step he hc).2 _ hs

end State

/-! ## The history of a slot -/

namespace Event

def suspends (ioid : Nat) : Event → Bool
  | suspended i _ => i == ioid
  | retrieved _ _ => false

def retrieves (ioid : Nat) : Event → Bool
  | suspended _ _ => false
  | retrieved i _ => i == ioid

end Event

/-- A slot has been emptied as often as it has been handed out, or it is in use. -/
theorem Proper.count {log : List Event} (h : Proper log) (ioid : Nat) :
    log.countP (Event.suspends ioid) =
      log.countP (Event.retrieves ioid) + if (outstanding log ioid).isSome then 1 else 0 := by
  induction log with
  | nil => rfl
  | cons e rest ih =>
    cases e with
    | suspended i t =>
      obtain ⟨hempty, _, hrest⟩ := h
      have ih := ih hrest
      by_cases hi : i = ioid
      · subst hi
        rw [hempty] at ih
        simp [Event.suspends, Event.retrieves, outstanding] at ih ⊢
        omega
      · simpa [Event.suspends, Event.retrieves, outstanding, hi] using ih
    | retrieved i cause =>
      obtain ⟨⟨t, ht, _⟩, hrest⟩ := h
      have ih := ih hrest
      by_cases hi : i = ioid
      · subst hi
        rw [ht] at ih
        simp [Event.suspends, Event.retrieves, outstanding] at ih ⊢
        omega
      · simpa [Event.suspends, Event.retrieves, outstanding, hi] using ih

namespace State

/-- A frame blocked on I/O is resumed once, by its own response: each slot has been emptied as often
as it has been handed out, or it holds the frame still, it was emptied by what answers the
suspension that was in it, and no assertion about it fails in a next step that meets `C`. -/
structure Resumed (C : State → Action → Prop) (s : State) : Prop where
  proper : Proper s.tsk.log
  count : ∀ ioid, s.tsk.log.countP (Event.suspends ioid) =
    s.tsk.log.countP (Event.retrieves ioid) + if (s.tsk.ioframes ioid).f.isSome then 1 else 0
  asserts : ∀ a, s.Enabled a → C s a → s.step a ≠ .error .response

theorem resumed_once {s : State} (h : Run Calm s) : s.Resumed Calm where
  proper := h.inv.tsk.proper
  count ioid := by
    rw [h.inv.tsk.proper.count, h.inv.tsk.history, Option.isSome_map]
  asserts a he hc := (h.inv.step he hc).1

/-- The actions one after another. -/
def runActions : State → List Action → Except Halt State
  | s, [] => .ok s
  | s, a :: rest => (s.step a).bind (runActions · rest)

/-- A connection is made and a byte is sent on it. -/
theorem resumed_once_print : ∃ s, runActions {} [.call 0 (.opencon none), .handle none,
    .connectPending 2 none, .connected 2 none, .receive, .resume 0, .call 0 (.print 0 65),
    .handle none, .receive, .resume 0] = .ok s ∧ s.tsk.log.length = 4 ∧ s.Resumed Calm := by
  have h0 : Run Calm {} := .init
  have h1 := h0.step (a := .call 0 (.opencon none)) trivial trivial rfl
  have h2 := h1.step (a := .handle none) trivial trivial rfl
  have h3 := h2.step (a := .connectPending 2 none) trivial trivial rfl
  have h4 := h3.step (a := .connected 2 none) trivial trivial rfl
  have h5 := h4.step (a := .receive) trivial trivial rfl
  have h6 := h5.step (a := .resume 0) trivial trivial rfl
  have h7 := h6.step (a := .call 0 (.print 0 65)) trivial trivial rfl
  have h8 := h7.step (a := .handle none) trivial trivial rfl
  have h9 := h8.step (a := .receive) trivial trivial rfl
  have h10 := h9.step (a := .resume 0) trivial trivial rfl
  exact ⟨_, rfl, rfl, resumed_once h10⟩

/-- Whether a collection is among the actions does not depend on the state. -/
def isCollect : Action → Bool
  | .collect _ => true
  | _ => false

theorem enabled_of_isCollect {s : State} {a : Action} (h : isCollect a = false) : s.Enabled a := by
  cases a with
  | collect dead => cases h
  | _ => trivial

theorem Run.actions {s s' : State} {l : List Action} (h : Run (fun _ _ => True) s)
    (hl : ∀ a ∈ l, isCollect a = false) (hok : runActions s l = .ok s') :
    Run (fun _ _ => True) s' := by
  induction l generalizing s with
  | nil =>
    cases hok
    exact h
  | cons a rest ih =>
    rw [runActions] at hok
    cases hs : s.step a with
    | error e =>
      rw [hs] at hok
      cases hok
    | ok s₁ =>
      rw [hs] at hok
      exact ih (.step h (enabled_of_isCollect (hl a (List.mem_cons_self ..))) trivial hs)
        (fun b hb => hl b (List.mem_cons_of_mem _ hb)) hok

/-- The peer resets a connection that was accepted, while a frame reads it. -/
def closeAccepted : List Action :=
  [.call 0 (.startlisten none), .handle none, .receive, .resume 0, .call 0 (.accept 0),
    .handle none, .accept 2, .receive, .resume 0, .call 0 (.readcon 1), .handle none,
    .read 3 (.failed 104 "Connection reset by peer")]

/-- The peer resets a connection while a frame reads it, and another ends the output. The reader is
woken by the notice, and the other by the notice too before the response to it comes. -/
def endAfterClose : List Action :=
  [.call 0 (.opencon none), .handle none, .connectPending 2 none, .connected 2 none, .receive,
    .resume 0, .call 0 (.readcon 0), .handle none, .read 2 (.failed 104 "Connection reset by peer"),
    .call 1 (.printend 0), .handle none, .receive]

/-- Two frames accept on one listener. -/
def acceptTwice : List Action :=
  [.call 0 (.startlisten none), .handle none, .receive, .resume 0, .call 0 (.accept 0),
    .handle none, .accept 2, .receive, .call 1 (.accept 0), .handle none, .accept 2]

/-- Two frames read one connection. -/
def readTwice : List Action :=
  [.call 0 (.opencon none), .handle none, .connectPending 2 none, .connected 2 none, .receive,
    .resume 0, .call 0 (.readcon 0), .handle none, .read 2 (.data [65]), .receive,
    .call 1 (.readcon 0), .handle none, .read 2 (.data [66])]

/-- Each of these makes a handler fail. -/
theorem not_resumed :
    (∃ s, runActions {} closeAccepted = .ok s ∧ s.step .receive = .error .response) ∧
    (∃ s, runActions {} endAfterClose = .ok s ∧ s.step .receive = .error .response) ∧
    (∃ s, runActions {} acceptTwice = .ok s ∧ s.step .receive = .error .response) ∧
    (∃ s, runActions {} readTwice = .ok s ∧ s.step .receive = .error .response) ∧
    ¬ ∀ s, Run (fun _ _ => True) s → s.Resumed (fun _ _ => True) := by
  have hclose : ∃ s, runActions {} closeAccepted = .ok s ∧ s.step .receive = .error .response :=
    ⟨_, rfl, rfl⟩
  refine ⟨hclose, ⟨_, rfl, rfl⟩, ⟨_, rfl, rfl⟩, ⟨_, rfl, rfl⟩, fun hall => ?_⟩
  obtain ⟨s, hs, hfail⟩ := hclose
  exact (hall s (Run.actions .init (by decide) hs)).asserts .receive trivial trivial hfail

end State

end Suspend
end Runtime
end NReduce
