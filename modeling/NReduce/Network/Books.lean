import Mathlib.Data.List.Nodup
import Mathlib.Tactic.Common
import NReduce.Network.Fsm

/-!
# NReduce.Network.Books

What the node keeps about its connections: the two lists, the counters of the servers and the flags
of the connections (`Books`). `connection_state` and `remove_connection` never find them wrong and
keep them right, and so does `add_connection`.

* `moved`, `dropped`, `added`: what the three functions make of the node.
-/

namespace NReduce
namespace Network
namespace Io

open Logic

/-! ## Counting -/

theorem countP_update {α β : Type} [DecidableEq α] (f : α → β) (q : β → Bool) (a : α) (b : β) :
    ∀ {l : List α}, l.Nodup → a ∈ l →
      l.countP (fun x => q (Function.update f a b x)) + (q (f a)).toNat =
        l.countP (fun x => q (f x)) + (q b).toNat := by
  intro l hl ha
  induction l with
  | nil => cases ha
  | cons x l ih =>
    obtain ⟨hx, hl⟩ := List.nodup_cons.mp hl
    rw [List.countP_cons, List.countP_cons]
    rcases List.mem_cons.mp ha with rfl | ha
    · have hrest : l.countP (fun y => q (Function.update f a b y)) = l.countP (fun y => q (f y)) :=
        List.countP_congr fun y hy => by
          have hne : y ≠ a := fun he => hx (he ▸ hy)
          rw [Function.update_of_ne hne]
      rw [hrest, Function.update_self]
      cases q (f a) <;> cases q b <;> simp
    · have hne : x ≠ a := fun h => hx (h ▸ ha)
      rw [Function.update_of_ne hne]
      have := ih hl ha
      omega

theorem tally_update (n : Node) (k : Kind) (ip : UInt32) {c : Nat} (h : c < n.next)
    (y : Option Conn) :
    tally { n with conn := Function.update n.conn c y } k ip + (inKind k ip (n.conn c)).toNat =
      tally n k ip + (inKind k ip y).toNat :=
  countP_update n.conn (inKind k ip) c y List.nodup_range (List.mem_range.mpr h)

/-! ## The books -/

structure Books (n : Node) : Prop where
  count : ∀ k ip, (n.server ip).count k = tally n k ip
  flag : ∀ c conn k, n.conn c = some conn → conn.flag k = k.holds conn.state
  nodup : n.connections.Nodup
  mem : ∀ c, c ∈ n.connections ↔ ∃ conn, n.conn c = some conn ∧ conn.state ≠ .waiting
  nodupWaiting : ∀ ip, (n.server ip).waitingConnections.Nodup
  memWaiting : ∀ ip c, c ∈ (n.server ip).waitingConnections ↔
    ∃ conn, n.conn c = some conn ∧ conn.state = .waiting ∧ conn.si = ip
  fresh : ∀ c, n.next ≤ c → n.conn c = none
  known : ∀ c conn, n.conn c = some conn → conn.si ∈ n.servers

/-- What the books say about a connection. -/
def Conn.entry (conn : Conn) : UInt32 × CS × (Kind → Bool) := (conn.si, conn.state, conn.flag)

/-- The same connections, with the same entries -/
def SameEntries (n n' : Node) : Prop := ∀ c, (n'.conn c).map Conn.entry = (n.conn c).map Conn.entry

theorem SameEntries.get {n n' : Node} (h : SameEntries n n') {c : Nat} {conn : Conn}
    (hc : n'.conn c = some conn) : ∃ conn', n.conn c = some conn' ∧ conn.si = conn'.si ∧
      conn.state = conn'.state ∧ conn.flag = conn'.flag := by
  have h := h c
  rw [hc] at h
  cases hc' : n.conn c with
  | none =>
    rw [hc'] at h
    cases h
  | some conn' =>
    rw [hc'] at h
    simp only [Option.map_some, Conn.entry, Option.some.injEq, Prod.mk.injEq] at h
    exact ⟨conn', rfl, h⟩

theorem SameEntries.symm {n n' : Node} (h : SameEntries n n') : SameEntries n' n :=
  fun c => (h c).symm

theorem SameEntries.inKind {n n' : Node} (h : SameEntries n n') (k : Kind) (ip : UInt32) (c : Nat) :
    inKind k ip (n'.conn c) = inKind k ip (n.conn c) := by
  cases hc : n'.conn c with
  | none =>
    cases hc' : n.conn c with
    | none => rfl
    | some conn =>
      have h := h c
      rw [hc, hc'] at h
      cases h
  | some conn =>
    obtain ⟨conn', hc', hsi, hstate, -⟩ := h.get hc
    rw [hc']
    simp only [Io.inKind, hsi, hstate]

/-- The rest of the node does not matter. -/
theorem Books.congr {n n' : Node} (h : Books n) (hsame : SameEntries n n')
    (hnext : n'.next = n.next) (hlist : n'.connections = n.connections)
    (hserver : n'.server = n.server) (hservers : n'.servers = n.servers) : Books n' := by
  constructor
  · intro k ip
    have htally : tally n' k ip = tally n k ip := by
      unfold tally
      rw [hnext]
      exact List.countP_congr fun c _ => by rw [hsame.inKind]
    rw [hserver, htally]
    exact h.count k ip
  · intro c conn k hc
    obtain ⟨conn', hc', -, hstate, hflag⟩ := hsame.get hc
    rw [hstate, hflag]
    exact h.flag c conn' k hc'
  · rw [hlist]
    exact h.nodup
  · intro c
    rw [hlist, h.mem]
    constructor
    · rintro ⟨conn, hc, hne⟩
      obtain ⟨conn', hc', -, hstate, -⟩ := hsame.symm.get hc
      exact ⟨conn', hc', hstate ▸ hne⟩
    · rintro ⟨conn, hc, hne⟩
      obtain ⟨conn', hc', -, hstate, -⟩ := hsame.get hc
      exact ⟨conn', hc', hstate ▸ hne⟩
  · rw [hserver]
    exact h.nodupWaiting
  · intro ip c
    rw [hserver, h.memWaiting]
    constructor
    · rintro ⟨conn, hc, hw, hip⟩
      obtain ⟨conn', hc', hsi, hstate, -⟩ := hsame.symm.get hc
      exact ⟨conn', hc', hstate ▸ hw, hsi ▸ hip⟩
    · rintro ⟨conn, hc, hw, hip⟩
      obtain ⟨conn', hc', hsi, hstate, -⟩ := hsame.get hc
      exact ⟨conn', hc', hstate ▸ hw, hsi ▸ hip⟩
  · intro c hc
    have h0 := hsame c
    rw [h.fresh c (hnext ▸ hc)] at h0
    exact Option.map_eq_none_iff.mp h0
  · intro c conn hc
    obtain ⟨conn', hc', hsi, -⟩ := hsame.get hc
    rw [hservers, hsi]
    exact h.known c conn' hc'

variable {n : Node} {c : Nat} {x : Conn}

theorem Books.lt_next (h : Books n) (hc : n.conn c = some x) : c < n.next := by
  by_contra hle
  rw [h.fresh c (Nat.le_of_not_lt hle)] at hc
  cases hc

@[simp] theorem Node.set_conn_self (n : Node) (c : Nat) (y : Conn) : (n.set c y).conn c = some y :=
  Function.update_self ..

theorem Node.set_conn_of_ne (n : Node) {c d : Nat} (h : d ≠ c) (y : Conn) :
    (n.set c y).conn d = n.conn d :=
  Function.update_of_ne h ..

/-- A change that leaves the entry as it is -/
theorem SameEntries.set (hc : n.conn c = some x) {y : Conn} (h : y.entry = x.entry) :
    SameEntries n (n.set c y) := by
  intro d
  by_cases hd : d = c
  · rw [hd, Node.set_conn_self, hc]
    exact congrArg some h
  · rw [Node.set_conn_of_ne n hd]

theorem Books.set (h : Books n) (hc : n.conn c = some x) {y : Conn} (hentry : y.entry = x.entry) :
    Books (n.set c y) :=
  h.congr (.set hc hentry) rfl rfl rfl rfl

theorem Books.note (h : Books n) (y : Note) : Books (n.note y) :=
  h.congr (fun _ => rfl) rfl rfl rfl rfl

/-! ## connection_state -/

@[simp] theorem Kind.holds_start (k : Kind) : k.holds .start = false := by cases k <;> rfl

@[simp] theorem Kind.holds_waiting (st : CS) : Kind.waiting.holds st = true ↔ st = .waiting := by
  simp [Kind.holds]

theorem Books.count_pos (h : Books n) (hc : n.conn c = some x) {k : Kind}
    (hk : k.holds x.state = true) : 1 ≤ (n.server x.si).count k := by
  rw [h.count]
  have : 0 < tally n k x.si :=
    List.countP_pos_iff.mpr ⟨c, List.mem_range.mpr (h.lt_next hc), by simp [Io.inKind, hc, hk]⟩
  omega

theorem Books.count_nonneg (h : Books n) (k : Kind) (ip : UInt32) :
    0 ≤ (n.server ip).count k := by
  rw [h.count]
  exact Int.natCast_nonneg _

/-- What one of the three tests does to the counters and flags -/
def kindMoved (n : Node) (c : Nat) (x : Conn) (new : CS) (k : Kind) : Node :=
  (n.setServer x.si { n.server x.si with
    count := Function.update (n.server x.si).count k
      ((n.server x.si).count k + (k.holds new).toNat - (k.holds x.state).toNat) }).set c
    { x with flag := Function.update x.flag k (k.holds new) }

theorem kindMoved_conn (n : Node) (c : Nat) (x : Conn) (new : CS) (k : Kind) :
    (kindMoved n c x new k).conn c =
      some { x with flag := Function.update x.flag k (k.holds new) } :=
  Node.set_conn_self ..

theorem Node.get_eq (hc : n.conn c = some x) : n.get c = .ok x := by
  unfold Node.get
  rw [hc]

theorem Node.get_bind {α : Type} (hc : n.conn c = some x) (f : Conn → Except Fault α) :
    (n.get c >>= f) = f x := by
  rw [Node.get_eq hc]
  rfl

theorem enter_eq (hc : n.conn c = some x) {k : Kind} (hcount : 0 ≤ (n.server x.si).count k)
    (hflag : x.flag k = false) (hold : k.holds x.state = false) {new : CS}
    (hnew : k.holds new = true) : enter k n c = .ok (kindMoved n c x new k) := by
  unfold enter kindMoved
  rw [Node.get_eq hc]
  simp only [bind, Except.bind, require_true hcount, require_true hflag, hold, hnew]
  simp [pure, Except.pure, Node.setServer]

theorem exit_eq (hc : n.conn c = some x) {k : Kind} (hcount : 1 ≤ (n.server x.si).count k)
    (hflag : x.flag k = true) (hold : k.holds x.state = true) {new : CS}
    (hnew : k.holds new = false) : exit k n c = .ok (kindMoved n c x new k) := by
  unfold exit kindMoved
  rw [Node.get_eq hc]
  have hpos : 0 ≤ (n.server x.si).count k - 1 := by omega
  simp only [bind, Except.bind, require_true hpos, require_true hflag, hold, hnew]
  simp [pure, Except.pure, Node.setServer]

/-- Nothing to do -/
theorem kindMoved_same (hc : n.conn c = some x) {k : Kind} {new : CS}
    (hflag : x.flag k = k.holds x.state) (hk : k.holds new = k.holds x.state) :
    kindMoved n c x new k = n := by
  unfold kindMoved Node.set Node.setServer
  rw [hk, ← hflag, Function.update_eq_self]
  simp only [Int.add_sub_cancel, Function.update_eq_self]
  rw [← hc, Function.update_eq_self]

theorem passKind_eq (hc : n.conn c = some x) {k : Kind} (hflag : x.flag k = k.holds x.state)
    (hcount : 0 ≤ (n.server x.si).count k)
    (hpos : k.holds x.state = true → 1 ≤ (n.server x.si).count k) (new : CS) :
    passKind k (enter k) (exit k) n c new = .ok (kindMoved n c x new k) := by
  unfold passKind
  rw [Node.get_eq hc]
  dsimp only [bind, Except.bind]
  cases hnew : k.holds new <;> cases hold : k.holds x.state
  · exact (congrArg Except.ok (kindMoved_same hc hflag (hnew.trans hold.symm))).symm
  · exact exit_eq hc (hpos hold) (hflag.trans hold) hold hnew
  · exact enter_eq hc hcount (hflag.trans hold) hold hnew
  · exact (congrArg Except.ok (kindMoved_same hc hflag (hnew.trans hold.symm))).symm

/-- The list for a connection that was on it or not, and now is to be on it or not -/
def relist (l : List Nat) (c : Nat) (old new : Bool) : List Nat :=
  if new && !old then l ++ [c] else if !new && old then l.erase c else l

theorem mem_relist_of_ne {l : List Nat} {d : Nat} (h : d ≠ c) (old new : Bool) :
    d ∈ relist l c old new ↔ d ∈ l := by
  cases old <;> cases new <;> simp [relist, h, List.mem_erase_of_ne]

theorem mem_relist_self {l : List Nat} {old : Bool} (hl : l.Nodup) (hold : c ∈ l ↔ old = true)
    (new : Bool) : c ∈ relist l c old new ↔ new = true := by
  cases old <;> cases new <;> simp_all [relist, hl.not_mem_erase]

theorem nodup_relist {l : List Nat} {old : Bool} (hl : l.Nodup) (hold : c ∈ l ↔ old = true)
    (new : Bool) : (relist l c old new).Nodup := by
  cases old <;> cases new
  · exact hl
  · refine List.nodup_append.mpr ⟨hl, List.nodup_singleton c, ?_⟩
    intro d hd e he hde
    rw [List.mem_singleton.mp he] at hde
    rw [hde] at hd
    cases hold.mp hd
  · exact hl.erase c
  · exact hl

def waitingMoved (n : Node) (c : Nat) (x : Conn) (new : CS) : Node :=
  let m := kindMoved n c x new .waiting
  { m with connections := relist n.connections c (x.state ≠ CS.waiting) (new ≠ CS.waiting) }.setServer x.si
    { m.server x.si with
      waitingConnections := relist (n.server x.si).waitingConnections c (x.state = CS.waiting)
        (new = CS.waiting) }

theorem passWaiting_eq (h : Books n) (hc : n.conn c = some x) (new : CS) :
    passKind .waiting enterWaiting exitWaiting n c new = .ok (waitingMoved n c x new) := by
  have hflag := h.flag c x .waiting hc
  have hmoved : (kindMoved n c x new .waiting).conn c =
      some { x with flag := Function.update x.flag .waiting (Kind.waiting.holds new) } :=
    Node.set_conn_self ..
  unfold passKind
  rw [Node.get_eq hc]
  dsimp only [bind, Except.bind]
  by_cases hnew : new = .waiting <;> by_cases hold : x.state = .waiting
  · have hsame := kindMoved_same hc hflag (show Kind.waiting.holds new = _ by rw [hnew, hold])
    simp only [hnew, hold, Kind.holds, waitingMoved, relist] at hsame ⊢
    simp only [hsame]
    simp [pure, Except.pure, Node.setServer]
  · have hmem : c ∈ n.connections := (h.mem c).mpr ⟨x, hc, hold⟩
    have henter := enter_eq hc (k := .waiting) (h.count_nonneg _ _)
      (by rw [hflag]; simp [Kind.holds, hold]) (by simp [Kind.holds, hold])
      (show Kind.waiting.holds new = true by simp [hnew])
    have hlist : (kindMoved n c x new .waiting).connections = n.connections := rfl
    simp only [Kind.holds, hnew, hold, decide_true, decide_false, Bool.not_false, Bool.and_self,
      if_true, enterWaiting]
    rw [← hnew, henter]
    dsimp only [bind, Except.bind]
    rw [Node.get_eq hmoved, hlist]
    simp [llistRemove, hmem, waitingMoved, relist, hnew, hold, pure, Except.pure,
      kindMoved, Node.setServer, Node.set]
  · have hmem : c ∈ (n.server x.si).waitingConnections := (h.memWaiting _ c).mpr ⟨x, hc, hold, rfl⟩
    have hexit := exit_eq hc (k := .waiting) (h.count_pos hc (by simp [hold]))
      (by rw [hflag]; simp [hold]) (by simp [hold])
      (show Kind.waiting.holds new = false by simp [Kind.holds, hnew])
    have hlist : ((kindMoved n c x new .waiting).server x.si).waitingConnections =
        (n.server x.si).waitingConnections := by
      simp [kindMoved, Node.setServer, Node.set]
    simp only [Kind.holds, hnew, hold, decide_true, decide_false, Bool.not_true, Bool.not_false,
      Bool.and_self, Bool.false_eq_true, if_true, if_false, exitWaiting]
    rw [hexit]
    dsimp only [bind, Except.bind]
    rw [Node.get_eq hmoved]
    dsimp only
    rw [hlist]
    simp [llistRemove, hmem, waitingMoved, relist, hnew, hold, pure, Except.pure,
      kindMoved, Node.setServer, Node.set]
  · have hsame := kindMoved_same hc hflag
      (show Kind.waiting.holds new = _ by simp [Kind.holds, hnew, hold])
    simp only [hnew, hold, Kind.holds, waitingMoved, relist, hsame]
    simp [pure, Except.pure, Node.setServer, hnew, hold]

/-- What `connection_state` makes of the node before it calls `connection_fsm` -/
def moved (n : Node) (c : Nat) (x : Conn) (new : CS) : Node :=
  let si := n.server x.si
  let y := if new = .connected then createConnectionBuffers x else x
  { n with
    conn := Function.update n.conn c (some { y with flag := fun k => k.holds new, state := new })
    connections := relist n.connections c (x.state ≠ CS.waiting) (new ≠ CS.waiting)
    server := Function.update n.server x.si
      { count := fun k => si.count k + (k.holds new).toNat - (k.holds x.state).toNat
        waitingConnections := relist si.waitingConnections c (x.state = CS.waiting) (new = CS.waiting) }
    log := n.log ++ if new = .connected then [.connected c] else [] }

theorem changeState_eq (h : Books n) (hc : n.conn c = some x) (new : CS) :
    changeState n c new = .ok (moved n c x new) := by
  have hflag := fun k => h.flag c x k hc
  have hpos : ∀ k : Kind, k.holds x.state = true → 1 ≤ (n.server x.si).count k :=
    fun k => h.count_pos hc
  have hnonneg := fun k => h.count_nonneg k x.si
  unfold changeState
  rw [passWaiting_eq h hc new]
  dsimp only [bind, Except.bind]
  -- the other two tests meet the connection as it was, but for the flags that are done
  have hc1 : (waitingMoved n c x new).conn c =
      some { x with flag := Function.update x.flag .waiting (Kind.waiting.holds new) } :=
    Node.set_conn_self ..
  have hcount1 : ∀ k, k ≠ .waiting →
      ((waitingMoved n c x new).server x.si).count k = (n.server x.si).count k := by
    intro k hk
    simp [waitingMoved, kindMoved, Node.setServer, Node.set, hk]
  have hopening := passKind_eq hc1 (k := .opening) (hflag .opening)
    ((hcount1 .opening (by decide)).symm ▸ hnonneg .opening)
    (fun hk => (hcount1 .opening (by decide)).symm ▸ hpos .opening hk) new
  rw [enterOpening, exitOpening, hopening]
  dsimp only
  have hc2 : (kindMoved (waitingMoved n c x new) c
        { x with flag := Function.update x.flag .waiting (Kind.waiting.holds new) } new
        .opening).conn c =
      some { x with flag := Function.update (Function.update x.flag .waiting
        (Kind.waiting.holds new)) .opening (Kind.opening.holds new) } :=
    Node.set_conn_self ..
  have hcount2 : ((kindMoved (waitingMoved n c x new) c
        { x with flag := Function.update x.flag .waiting (Kind.waiting.holds new) } new
        .opening).server x.si).count .accepted = (n.server x.si).count .accepted := by
    simp [waitingMoved, kindMoved, Node.setServer, Node.set]
  have haccepted := passKind_eq hc2 (k := .accepted) (hflag .accepted)
    (hcount2.symm ▸ hnonneg .accepted) (fun hk => hcount2.symm ▸ hpos .accepted hk) new
  rw [enterActive, exitActive, haccepted]
  dsimp only
  have hc3 := kindMoved_conn (kindMoved (waitingMoved n c x new) c
    { x with flag := Function.update x.flag .waiting (Kind.waiting.holds new) } new .opening) c
    { x with flag := Function.update (Function.update x.flag .waiting
      (Kind.waiting.holds new)) .opening (Kind.opening.holds new) } new .accepted
  rw [Node.get_eq hc3]
  dsimp only
  have hflags : Function.update (Function.update (Function.update x.flag .waiting
      (Kind.waiting.holds new)) .opening (Kind.opening.holds new)) .accepted
      (Kind.accepted.holds new) = fun k => k.holds new := by
    funext k
    cases k <;> rfl
  have hcounts : ∀ f : Kind → Int, Function.update (Function.update (Function.update
      (n.server x.si).count .waiting (f .waiting)) .opening (f .opening)) .accepted (f .accepted) =
      f := by
    intro f
    funext k
    cases k <;> rfl
  have hcounts := hcounts fun k =>
    (n.server x.si).count k + (k.holds new).toNat - (k.holds x.state).toNat
  by_cases hnew : new = .connected
  · simp only [if_pos hnew, kindMoved, waitingMoved, moved, Node.set, Node.setServer, Node.note,
      Function.update_self, Function.update_idem, ne_eq, reduceCtorEq, not_false_eq_true,
      Function.update_of_ne, pure, Except.pure, createConnectionBuffers, hflags, hcounts]
    by_cases hbuf : x.sendbuf = none
    · simp only [if_pos hbuf]
    · simp only [if_neg hbuf]
  · simp only [if_neg hnew, kindMoved, waitingMoved, moved, Node.set, Node.setServer,
      Function.update_self, Function.update_idem, ne_eq, reduceCtorEq, not_false_eq_true,
      Function.update_of_ne, pure, Except.pure, hflags, hcounts, List.append_nil]

theorem moved_conn_self (n : Node) (c : Nat) (x : Conn) (new : CS) :
    (moved n c x new).conn c = some { (if new = .connected then createConnectionBuffers x else x)
      with flag := fun k => k.holds new, state := new } :=
  Function.update_self ..

theorem moved_conn_of_ne (n : Node) {c d : Nat} (x : Conn) (new : CS) (h : d ≠ c) :
    (moved n c x new).conn d = n.conn d :=
  Function.update_of_ne h ..

theorem createConnectionBuffers_si (x : Conn) : (createConnectionBuffers x).si = x.si := by
  unfold createConnectionBuffers
  split <;> rfl

theorem Books.moved (h : Books n) (hc : n.conn c = some x) (new : CS) : Books (moved n c x new) := by
  have hself := moved_conn_self n c x new
  have hsi : (if new = .connected then createConnectionBuffers x else x).si = x.si := by
    split
    · exact createConnectionBuffers_si x
    · rfl
  have hserver : ∀ ip, ip ≠ x.si → (Io.moved n c x new).server ip = n.server ip :=
    fun ip hip => Function.update_of_ne hip ..
  have hwaiting : ((Io.moved n c x new).server x.si).waitingConnections =
      relist (n.server x.si).waitingConnections c (x.state = CS.waiting) (new = CS.waiting) := by
    simp [Io.moved]
  have hother : ∀ d, d ≠ c → (Io.moved n c x new).conn d = n.conn d :=
    fun d => moved_conn_of_ne n x new
  constructor
  · intro k ip
    have htally := tally_update n k ip (h.lt_next hc) ((Io.moved n c x new).conn c)
    have hmoved : tally { n with conn := Function.update n.conn c ((Io.moved n c x new).conn c) }
        k ip = tally (Io.moved n c x new) k ip := by
      rw [hself]
      rfl
    have hcount := h.count k ip
    rw [hmoved, hself, hc] at htally
    simp only [Io.inKind, hsi] at htally
    by_cases hip : x.si = ip
    · subst hip
      simp only [decide_true, Bool.true_and] at htally
      have hget : ((Io.moved n c x new).server x.si).count k =
          (n.server x.si).count k + (k.holds new).toNat - (k.holds x.state).toNat := by
        simp [Io.moved]
      omega
    · rw [hserver ip (Ne.symm hip)]
      simp only [hip, decide_false, Bool.false_and, Bool.toNat_false] at htally
      omega
  · intro d conn k hd
    by_cases hdc : d = c
    · subst hdc
      rw [hself] at hd
      cases hd
      rfl
    · rw [hother d hdc] at hd
      exact h.flag d conn k hd
  · exact nodup_relist h.nodup (by simp [h.mem, hc]) _
  · intro d
    by_cases hdc : d = c
    · subst hdc
      refine (mem_relist_self h.nodup (by simp [h.mem, hc]) _).trans ?_
      rw [hself]
      simp
    · rw [hother d hdc]
      exact (mem_relist_of_ne hdc _ _).trans (h.mem d)
  · intro ip
    by_cases hip : ip = x.si
    · subst hip
      rw [hwaiting]
      exact nodup_relist (h.nodupWaiting _) (by simp [h.memWaiting, hc]) _
    · rw [hserver ip hip]
      exact h.nodupWaiting ip
  · intro ip d
    by_cases hip : ip = x.si
    · subst hip
      rw [hwaiting]
      by_cases hdc : d = c
      · subst hdc
        refine (mem_relist_self (h.nodupWaiting _) (by simp [h.memWaiting, hc]) _).trans ?_
        rw [hself]
        simp [hsi]
      · rw [hother d hdc]
        exact (mem_relist_of_ne hdc _ _).trans (h.memWaiting _ d)
    · rw [hserver ip hip]
      by_cases hdc : d = c
      · subst hdc
        rw [h.memWaiting, hself, hc]
        simp [hsi, Ne.symm hip]
      · rw [hother d hdc]
        exact h.memWaiting ip d
  · intro d hd
    have hdc : d ≠ c := fun he => absurd (h.lt_next hc) (Nat.not_lt.mpr (he ▸ hd))
    rw [hother d hdc]
    exact h.fresh d hd
  · intro d conn hd
    by_cases hdc : d = c
    · subst hdc
      rw [hself] at hd
      cases hd
      exact hsi.symm ▸ h.known d x hc
    · rw [hother d hdc] at hd
      exact h.known d conn hd

/-! ## remove_connection -/

/-- What `remove_connection` makes of the node -/
def dropped (n : Node) (c : Nat) (x : Conn) : Node :=
  { n with
    toclose := x.sock.toList ++ n.toclose
    connections := n.connections.erase c
    conn := Function.update n.conn c none
    log := n.log ++ [.removed c x] }

theorem removeConnection_eq (h : Books n) (hc : n.conn c = some x) (hstate : x.state = .ended) :
    removeConnection n c = .ok (dropped n c x) := by
  have hmem : c ∈ n.connections := (h.mem c).mpr ⟨x, hc, by rw [hstate]; decide⟩
  unfold removeConnection
  rw [Node.get_eq hc]
  dsimp only [bind, Except.bind]
  simp [hstate, llistRemove, hmem, pure, Except.pure, dropped, Node.note]

theorem Books.dropped (h : Books n) (hc : n.conn c = some x) (hstate : x.state = .ended) :
    Books (dropped n c x) := by
  have hself : (Io.dropped n c x).conn c = none := Function.update_self ..
  have hother : ∀ d, d ≠ c → (Io.dropped n c x).conn d = n.conn d :=
    fun d hd => Function.update_of_ne hd ..
  have hget : ∀ d conn, (Io.dropped n c x).conn d = some conn → n.conn d = some conn := by
    intro d conn hd
    by_cases hdc : d = c
    · rw [hdc, hself] at hd
      cases hd
    · rwa [hother d hdc] at hd
  constructor
  · intro k ip
    have htally := tally_update n k ip (h.lt_next hc) none
    have hend : k.holds .ended = false := by cases k <;> rfl
    rw [hc] at htally
    simp only [Io.inKind, hstate, hend, Bool.and_false, Bool.toNat_false, Nat.add_zero] at htally
    refine (h.count k ip).trans (congrArg Int.ofNat ?_)
    exact htally.symm
  · exact fun d conn k hd => h.flag d conn k (hget d conn hd)
  · exact h.nodup.erase c
  · intro d
    by_cases hdc : d = c
    · rw [hdc, hself]
      simp [Io.dropped, h.nodup.not_mem_erase]
    · rw [hother d hdc, ← h.mem d]
      exact List.mem_erase_of_ne hdc
  · exact h.nodupWaiting
  · intro ip d
    by_cases hdc : d = c
    · have hnot : c ∉ (n.server ip).waitingConnections := by
        rw [h.memWaiting, hc]
        simp [hstate]
      have hwaiting : ((Io.dropped n c x).server ip).waitingConnections =
          (n.server ip).waitingConnections := rfl
      rw [hdc, hself, hwaiting]
      simpa using hnot
    · rw [hother d hdc]
      exact h.memWaiting ip d
  · intro d hd
    by_cases hdc : d = c
    · rw [hdc, hself]
    · rw [hother d hdc]
      exact h.fresh d hd
  · exact fun d conn hd => h.known d conn (hget d conn hd)

/-! ## add_connection -/

/-- What `add_connection` makes of the node -/
def added (n : Node) (ip : UInt32) (l : Option Nat) : Node :=
  let m := getServerinfo { n with nextsid := n.nextsid + 1, next := n.next + 1 } ip
  { m with connections := n.connections ++ [n.next] }.set n.next (newConn n ip l)

theorem addConnection_safe {bad : Fault → Prop} (hbad : ¬ bad .assertion) (n : Node) (ip : UInt32)
    (l : Option Nat) :
    Safe bad (fun r => r = (n.next, added n ip l)) (addConnection n ip l) := by
  refine Safe.bind (Safe.require fun _ => hbad) fun _ _ => ?_
  have hlist : (getServerinfo { n with nextsid := n.nextsid + 1, next := n.next + 1 } ip).connections
      = n.connections := by
    unfold getServerinfo
    split <;> rfl
  simp only [added, hlist, Safe, pure, Except.pure]

theorem Books.serverinfo (h : Books n) {ip : UInt32} : Books (getServerinfo n ip) := by
  unfold getServerinfo
  split
  · exact h
  · next hnew =>
    have hother : ∀ ip', ip' ≠ ip → Function.update n.server ip ⟨fun _ => 0, []⟩ ip' = n.server ip' :=
      fun ip' hne => Function.update_of_ne hne ..
    have hnone : ∀ c conn, n.conn c = some conn → conn.si ≠ ip :=
      fun c conn hc he => hnew (he ▸ h.known c conn hc)
    constructor
    · intro k ip'
      by_cases hip : ip' = ip
      · subst hip
        have hzero : tally n k ip' = 0 := by
          refine List.countP_eq_zero.mpr fun c _ => ?_
          cases hc : n.conn c with
          | none => simp [Io.inKind]
          | some conn => simp [Io.inKind, hnone c conn hc]
        exact (congrArg (fun si : Serverinfo => si.count k) (Function.update_self ..)).trans
          (congrArg Int.ofNat hzero.symm)
      · refine (congrArg (fun si : Serverinfo => si.count k) (hother ip' hip)).trans ?_
        exact h.count k ip'
    · exact h.flag
    · exact h.nodup
    · exact h.mem
    · intro ip'
      by_cases hip : ip' = ip
      · simp [hip]
      · simp only [hother ip' hip]
        exact h.nodupWaiting ip'
    · intro ip' c
      by_cases hip : ip' = ip
      · subst hip
        simp only [Function.update_self, List.not_mem_nil, false_iff]
        rintro ⟨conn, hc, -, hsi⟩
        exact hnone c conn hc hsi
      · simp only [hother ip' hip]
        exact h.memWaiting ip' c
    · exact h.fresh
    · exact fun c conn hc => List.mem_cons_of_mem _ (h.known c conn hc)

/-- The number of an allocation is taken. -/
theorem Books.alloc (h : Books n) (sid : UInt32) :
    Books { n with nextsid := sid, next := n.next + 1 } := by
  refine { h with count := fun k ip => ?_, fresh := fun c hc => h.fresh c (Nat.le_of_succ_le hc) }
  have hnone : inKind k ip (n.conn n.next) = false := by
    rw [h.fresh n.next le_rfl]
    rfl
  have htally : tally { n with nextsid := sid, next := n.next + 1 } k ip = tally n k ip := by
    unfold tally
    rw [List.range_succ, List.countP_append]
    simp [hnone]
  rw [htally]
  exact h.count k ip

theorem getServerinfo_mem (n : Node) (ip : UInt32) : ip ∈ (getServerinfo n ip).servers := by
  unfold getServerinfo
  split
  · next h => exact h
  · exact List.mem_cons_self

/-- A connection that does not wait and is not counted is put at the end of the list. -/
theorem Books.push (h : Books n) {c : Nat} {x : Conn} (hc : n.conn c = none) (hlt : c < n.next)
    (hstate : x.state = .start) (hflag : x.flag = fun _ => false) (hsi : x.si ∈ n.servers) :
    Books ({ n with connections := n.connections ++ [c] }.set c x) := by
  have hother : ∀ d, d ≠ c →
      ({ n with connections := n.connections ++ [c] }.set c x).conn d = n.conn d :=
    fun d hd => Function.update_of_ne hd ..
  have hnot : c ∉ n.connections := by
    rw [h.mem, hc]
    simp
  constructor
  · intro k ip
    have htally := tally_update n k ip hlt (some x)
    rw [hc] at htally
    simp only [Io.inKind, hstate, Kind.holds_start, Bool.and_false, Bool.toNat_false,
      Nat.add_zero] at htally
    exact (h.count k ip).trans (congrArg Int.ofNat htally.symm)
  · intro d conn k hd
    by_cases hdc : d = c
    · subst hdc
      rw [Node.set_conn_self] at hd
      cases hd
      rw [hstate, hflag, Kind.holds_start]
    · rw [hother d hdc] at hd
      exact h.flag d conn k hd
  · refine List.nodup_append.mpr ⟨h.nodup, List.nodup_singleton c, ?_⟩
    intro d hd e he hde
    rw [List.mem_singleton.mp he] at hde
    exact hnot (hde ▸ hd)
  · intro d
    by_cases hdc : d = c
    · subst hdc
      rw [Node.set_conn_self]
      simp [Node.set, hstate]
    · rw [hother d hdc, ← h.mem d]
      simp [Node.set, hdc]
  · exact h.nodupWaiting
  · intro ip d
    by_cases hdc : d = c
    · have hwait : c ∉ (n.server ip).waitingConnections := by
        rw [h.memWaiting, hc]
        simp
      subst hdc
      rw [Node.set_conn_self]
      refine iff_of_false hwait ?_
      rintro ⟨conn, hd, hw, -⟩
      cases hd
      rw [hstate] at hw
      cases hw
    · rw [hother d hdc]
      exact h.memWaiting ip d
  · intro d hd
    have hdc : d ≠ c := fun he => absurd hlt (Nat.not_lt.mpr (he ▸ hd))
    rw [hother d hdc]
    exact h.fresh d hd
  · intro d conn hd
    by_cases hdc : d = c
    · subst hdc
      rw [Node.set_conn_self] at hd
      cases hd
      exact hsi
    · rw [hother d hdc] at hd
      exact h.known d conn hd

theorem getServerinfo_same (n : Node) (ip : UInt32) : (getServerinfo n ip).conn = n.conn ∧
    (getServerinfo n ip).connections = n.connections ∧ (getServerinfo n ip).next = n.next := by
  unfold getServerinfo
  split <;> exact ⟨rfl, rfl, rfl⟩

theorem Books.added (h : Books n) (ip : UInt32) (l : Option Nat) : Books (added n ip l) := by
  obtain ⟨hconn, hlist, hnext⟩ :=
    getServerinfo_same { n with nextsid := n.nextsid + 1, next := n.next + 1 } ip
  have hbooks : Books (getServerinfo { n with nextsid := n.nextsid + 1, next := n.next + 1 } ip) :=
    (h.alloc (n.nextsid + 1)).serverinfo
  have hnone := h.fresh n.next le_rfl
  rw [← congrFun hconn n.next] at hnone
  have hpush := hbooks.push (x := newConn n ip l) hnone (hnext ▸ n.next.lt_succ_self) rfl rfl
    (getServerinfo_mem _ ip)
  rw [hlist] at hpush
  exact hpush

end Io
end Network
end NReduce
