import NReduce.Logic.Faults
import NReduce.Logic.Ring
import Mathlib.Data.List.Perm.Basic
import Mathlib.Data.List.Nodup

/-!
# NReduce.Network.Ports

The ports of outgoing connections (`connection.c`) for a node that is given a range of them: the set
of ports, `bind_client_port`, which asks for one until the system lets it have one, and
`remove_connection`, which gives it back.

Of the state machine of a connection (`Network.Fsm`) there is only what leads here:
`initiate_connection` is called when a connection leaves `CS_WAITING`, and where it fails the
connection is removed at once.
-/

namespace NReduce
namespace Network
namespace Ports

open Logic

structure Portset where
  min : Int
  max : Int
  /-- the ports from here on have not been used -/
  upto : Int
  size : Nat
  ports : Nat → Int
  count : Nat
  start : Nat
  end_ : Nat

inductive Fault where
  | assertion
  /-- the system calls and the state machine do not do this -/
  | environment
  deriving DecidableEq

/-- `portset_init` -/
def portsetInit (min max : Int) : Portset where
  min := min
  max := max
  upto := min
  size := (max + 1 - min).toNat
  ports := fun _ => 0
  count := 0
  start := 0
  end_ := 0

/-- `portset_allocport`, with -1 if there is no port -/
def portsetAllocport (pb : Portset) : Int × Portset :=
  if pb.upto ≤ pb.max then (pb.upto, { pb with upto := pb.upto + 1 })
  else if 0 < pb.count then
    (pb.ports pb.start, { pb with start := (pb.start + 1) % pb.size, count := pb.count - 1 })
  else (-1, pb)

/-- There is a port. -/
def Portset.available (pb : Portset) : Bool := pb.upto ≤ pb.max || 0 < pb.count

/-- `portset_releaseport` -/
def portsetReleaseport (pb : Portset) (port : Int) : Except Fault Portset := do
  let pb := { pb with
    ports := Function.update pb.ports pb.end_ port
    end_ := (pb.end_ + 1) % pb.size
    count := pb.count + 1 }
  require .assertion (pb.count ≤ pb.size)
  pure pb

structure Connection where
  /-- `CS_WAITING` -/
  waiting : Bool
  outport : Int

structure State where
  outports : Portset
  connections : List Connection
  /-- what has been handed out, given back and refused so far; the code does not keep it -/
  handed : List Int
  released : List Int
  refused : List Int

/-- What a call of `bind` returns; `failed` is any error but `EADDRINUSE`. -/
inductive Bind where
  | bound
  | inUse
  | failed
  deriving DecidableEq

/-- What the system calls of `initiate_connection` return, in their order. -/
inductive Attempt where
  /-- `socket` or `set_non_blocking` fails -/
  | noSocket
  /-- `setsockopt` fails -/
  | noReuse
  | connect (binds : List Bind) (inProgress : Bool)

/-- `portset_allocport`, with the history -/
def State.alloc (s : State) : Int × State :=
  let (port, pb) := portsetAllocport s.outports
  (port, { s with
    outports := pb
    handed := s.handed ++ (if s.outports.available then [port] else []) })

/-- `bind_client_port`, for the results of `bind` -/
def bindClientPort : List Bind → State → Except Fault (Int × State)
  | binds, s =>
    let (clientport, s) := s.alloc
    if clientport < 0 then do
      -- outgoing ports exhausted
      require .environment (binds = [])
      pure (-1, s)
    else
      match binds with
      | [] => .error .environment
      | .bound :: binds => do
        require .environment (binds = [])
        pure (clientport, s)
      | .inUse :: binds =>
        -- the port is not put back
        bindClientPort binds { s with refused := s.refused ++ [clientport] }
      | .failed :: binds => do
        require .environment (binds = [])
        pure (-1, s)

/-- `initiate_connection` for the connection at place `i` of the list -/
def initiateConnection (s : State) (i : Nat) : Attempt → Except Fault (Bool × State)
  | .noSocket => pure (false, s)
  | .noReuse => do
    require .environment (0 < s.outports.max)
    pure (false, s)
  | .connect binds inProgress =>
    if 0 < s.outports.max then do
      let (outport, s) ← bindClientPort binds s
      let s := { s with connections := s.connections.set i ⟨false, outport⟩ }
      pure (decide (0 ≤ outport) && inProgress, s)
    else do
      -- the system chooses the port
      require .environment (binds = [])
      pure (inProgress, s)

/-- `remove_connection` -/
def removeConnection (s : State) (i : Nat) : Except Fault State :=
  match s.connections[i]? with
  | none => .error .environment
  | some conn =>
    let s := { s with connections := s.connections.eraseIdx i }
    if 0 ≤ conn.outport then do
      let pb ← portsetReleaseport s.outports conn.outport
      pure { s with outports := pb, released := s.released ++ [conn.outport] }
    else pure s

inductive Event where
  /-- `add_connection`; a connection to another program waits for its turn -/
  | add (waiting : Bool)
  /-- `CE_SLOT_AVAILABLE` -/
  | slotAvailable (i : Nat) (a : Attempt)
  /-- an event that ends in `CS_END` -/
  | remove (i : Nat)

def step (s : State) : Event → Except Fault State
  | .add waiting => pure { s with connections := s.connections ++ [⟨waiting, -1⟩] }
  | .slotAvailable i a =>
    match s.connections[i]? with
    | none => .error .environment
    | some conn => do
      require .environment (conn.waiting = true)
      let s := { s with connections := s.connections.set i { conn with waiting := false } }
      let (started, s) ← initiateConnection s i a
      if started then pure s else removeConnection s i
  | .remove i => removeConnection s i

def start (min max : Int) : State := ⟨portsetInit min max, [], [], [], []⟩

def run (min max : Int) (es : List Event) : Except Fault State := es.foldlM step (start min max)

/-! ## The statement -/

/-- The port of a connection, if it has one of its own. -/
def Connection.port (conn : Connection) : Option Int :=
  if 0 ≤ conn.outport then some conn.outport else none

/-- The ports of the live connections. -/
def State.held (s : State) : List Int := s.connections.filterMap Connection.port

/-- The ports from `min` on that have been used, in their order. -/
def fresh (min upto : Int) : List Int :=
  (List.range (upto - min).toNat).map (fun k : Nat => min + (k : Int))

/-- Each port is on its way to one connection at most, and the ports come in their order. -/
structure State.Sound (s : State) (min max : Int) : Prop where
  held_nodup : s.held.Nodup
  handed_range : ∀ p ∈ s.handed, min ≤ p ∧ p ≤ max
  count_le : s.outports.count ≤ s.outports.size
  /-- first the ports that have never been used, then the released ones as they came back -/
  order : ∃ upto reused, reused <+: s.released ∧ s.handed = fresh min upto ++ reused ∧
    (reused ≠ [] → upto = max + 1)

/-- Each port that has been handed out is held by a connection, or it has been released, or another
program uses it. -/
def State.Accounted (s : State) : Prop := s.handed.Perm (s.held ++ s.released ++ s.refused)

/-- No port gets lost: `bind` does not fail for another reason than a port that is in use, and the
ports are not negative. -/
def Event.Lossless (min max : Int) : Event → Prop
  | .slotAvailable _ (.connect binds _) => .failed ∉ binds ∧ (0 < max → 0 ≤ min)
  | _ => True

/-! ## The used ports -/

variable {min max upto : Int}

theorem fresh_self : fresh min min = [] := by
  rw [fresh, Int.sub_self]
  rfl

theorem fresh_succ (h : min ≤ upto) : fresh min (upto + 1) = fresh min upto ++ [upto] := by
  have hn : (upto + 1 - min).toNat = (upto - min).toNat + 1 := by omega
  rw [fresh, fresh, hn, List.range_succ, List.map_append, List.map_singleton]
  congr 2
  omega

theorem mem_fresh {p : Int} : p ∈ fresh min upto ↔ min ≤ p ∧ p < upto := by
  simp only [fresh, List.mem_map, List.mem_range]
  constructor
  · rintro ⟨k, hk, rfl⟩
    omega
  · intro h
    exact ⟨(p - min).toNat, by omega, by omega⟩

theorem length_fresh : (fresh min upto).length = (upto - min).toNat := by
  rw [fresh, List.length_map, List.length_range]

theorem nodup_fresh : (fresh min upto).Nodup := by
  apply List.Nodup.map _ List.nodup_range
  intro a b hab
  exact Int.ofNat_inj.mp (Int.add_left_cancel hab)

/-! ## The connections -/

theorem held_eraseIdx {l : List Connection} {i : Nat} (hi : i < l.length) :
    (l.filterMap Connection.port).Perm
      ((l.get ⟨i, hi⟩).port.toList ++ (l.eraseIdx i).filterMap Connection.port) := by
  have h := (List.getElem_cons_eraseIdx_perm hi).symm.filterMap Connection.port
  rw [List.get_eq_getElem]
  cases hp : l[i].port with
  | none => rwa [List.filterMap_cons_none hp] at h
  | some p => rwa [List.filterMap_cons_some hp] at h

theorem held_set {l : List Connection} {i : Nat} (hi : i < l.length) (conn : Connection) :
    ((l.set i conn).filterMap Connection.port).Perm
      (conn.port.toList ++ (l.eraseIdx i).filterMap Connection.port) := by
  have h := (List.set_perm_cons_eraseIdx hi conn).filterMap Connection.port
  cases hp : conn.port with
  | none => rwa [List.filterMap_cons_none hp] at h
  | some p => rwa [List.filterMap_cons_some hp] at h

theorem port_of_neg {conn : Connection} (h : conn.outport < 0) : conn.port = none :=
  if_neg (Int.not_le.mpr h)

theorem port_of_nonneg {conn : Connection} (h : 0 ≤ conn.outport) :
    conn.port = some conn.outport := if_pos h

/-! ## The invariant -/

/-- `q` are the ports that wait in the ring and `lost` the ones that are nowhere. -/
structure Inv (min max : Int) (s : State) (q lost : List Int) : Prop where
  max_eq : s.outports.max = max
  size_eq : s.outports.size = (max + 1 - min).toNat
  le_upto : min ≤ s.outports.upto
  upto_le : s.outports.upto ≤ max + 1
  ring : Ring.Holds s.outports.ports s.outports.size s.outports.start s.outports.end_ q
  count_eq : s.outports.count = q.length
  /-- each port that has been used is in one place -/
  parts : (q ++ s.held ++ s.refused ++ lost).Perm (fresh min s.outports.upto)
  nonneg : ∀ p ∈ q ++ s.refused, 0 ≤ p
  waits : ∀ conn ∈ s.connections, conn.waiting = true → conn.outport < 0
  order : ∃ reused, s.released = reused ++ q ∧ s.handed = fresh min s.outports.upto ++ reused ∧
    (reused ≠ [] → s.outports.upto = max + 1) ∧ ∀ p ∈ reused, min ≤ p ∧ p ≤ max

variable {s s' : State} {q lost : List Int}

theorem start_inv (h : min ≤ max) : Inv min max (start min max) [] [] where
  max_eq := rfl
  size_eq := rfl
  le_upto := Int.le_refl _
  upto_le := by
    show min ≤ max + 1
    omega
  ring := Ring.Holds.nil (by show 0 < (max + 1 - min).toNat; omega)
  count_eq := rfl
  parts := by
    show List.Perm [] (fresh min min)
    rw [fresh_self]
  nonneg := fun _ hp => nomatch hp
  waits := fun _ hc => nomatch hc
  order := by
    refine ⟨[], rfl, ?_, fun h => absurd rfl h, fun _ hp => nomatch hp⟩
    show [] = fresh min min ++ []
    rw [fresh_self]
    rfl

theorem Inv.held_nodup (h : Inv min max s q lost) : s.held.Nodup := by
  have hn := h.parts.nodup_iff.mpr nodup_fresh
  exact (List.nodup_append.mp (List.nodup_append.mp (List.nodup_append.mp hn).1).1).2.1

/-- The ring has room for a port that is held. -/
theorem Inv.length_lt (h : Inv min max s q lost) (hne : s.held ≠ []) :
    q.length < s.outports.size := by
  have hlen := h.parts.length_eq
  simp only [List.length_append, length_fresh] at hlen
  have hpos := List.length_pos_iff.mpr hne
  have hle := h.upto_le
  rw [h.size_eq]
  omega

/-- Where each port that has been handed out has gone. -/
theorem Inv.handed_perm (h : Inv min max s q lost) :
    s.handed.Perm (s.held ++ s.released ++ s.refused ++ lost) := by
  obtain ⟨reused, hrel, hhand, -, -⟩ := h.order
  rw [hhand, hrel]
  apply (h.parts.symm.append_right reused).trans
  rw [List.perm_iff_count]
  intro p
  simp only [List.count_append]
  omega

theorem Inv.accounted_iff (h : Inv min max s q lost) : s.Accounted ↔ lost = [] := by
  have hp := h.handed_perm
  constructor
  · intro ha
    have hlen := ha.symm.trans hp
    have hl := hlen.length_eq
    simp only [List.length_append] at hl
    exact List.length_eq_zero_iff.mp (by omega)
  · rintro rfl
    rwa [List.append_nil] at hp

theorem Inv.sound (h : Inv min max s q lost) : s.Sound min max where
  held_nodup := h.held_nodup
  handed_range := by
    obtain ⟨reused, -, hhand, -, hrange⟩ := h.order
    have hle := h.upto_le
    intro p hp
    rw [hhand, List.mem_append] at hp
    obtain hp | hp := hp
    · have hm := mem_fresh.mp hp
      omega
    · exact hrange p hp
  count_le := by
    rw [h.count_eq]
    exact h.ring.length_le
  order := by
    obtain ⟨reused, hrel, hhand, hupto, -⟩ := h.order
    exact ⟨_, reused, ⟨q, hrel.symm⟩, hhand, hupto⟩

/-- Where no port has got lost there was no negative one. -/
theorem Inv.lost_ne_nil (h : Inv min max s q lost) (hmin : min < 0)
    (hupto : min < s.outports.upto) : lost ≠ [] := by
  rintro rfl
  have hm : min ∈ q ++ s.held ++ s.refused ++ [] :=
    h.parts.symm.subset (mem_fresh.mpr ⟨Int.le_refl _, hupto⟩)
  simp only [List.append_nil, List.mem_append] at hm
  obtain (hm | hm) | hm := hm
  · exact absurd (h.nonneg min (List.mem_append_left _ hm)) (by omega)
  · obtain ⟨conn, -, hport⟩ := List.mem_filterMap.mp hm
    unfold Connection.port at hport
    split at hport
    · cases hport
      omega
    · cases hport
  · exact absurd (h.nonneg min (List.mem_append_right _ hm)) (by omega)

/-! ## Asking for a port -/

theorem alloc_fresh (h : s.outports.upto ≤ s.outports.max) :
    s.alloc = (s.outports.upto, { s with
      outports := { s.outports with upto := s.outports.upto + 1 }
      handed := s.handed ++ [s.outports.upto] }) := by
  simp [State.alloc, portsetAllocport, Portset.available, h]

theorem alloc_reused (h : ¬ s.outports.upto ≤ s.outports.max) (hcount : 0 < s.outports.count) :
    s.alloc = (s.outports.ports s.outports.start, { s with
      outports := { s.outports with
        start := (s.outports.start + 1) % s.outports.size
        count := s.outports.count - 1 }
      handed := s.handed ++ [s.outports.ports s.outports.start] }) := by
  simp [State.alloc, portsetAllocport, Portset.available, h, hcount]

theorem alloc_none (h : ¬ s.outports.upto ≤ s.outports.max) (hcount : ¬ 0 < s.outports.count) :
    s.alloc = (-1, s) := by
  simp [State.alloc, portsetAllocport, Portset.available, h, hcount]

/-- A port that has been handed out is nowhere until it is bound. -/
theorem Inv.alloc (h : Inv min max s q lost) (hle : min ≤ max) :
    (∃ q', Inv min max s.alloc.2 q' (s.alloc.1 :: lost) ∧ min < s.alloc.2.outports.upto) ∨
      (s.alloc = (-1, s) ∧ min < s.outports.upto) := by
  obtain ⟨reused, hrel, hhand, hupto, hrange⟩ := h.order
  by_cases hfresh : s.outports.upto ≤ s.outports.max
  · refine .inl ⟨q, ?_, ?_⟩
    · rw [alloc_fresh hfresh]
      have hnil : reused = [] := by
        by_contra hne
        have := hupto hne
        have := h.max_eq
        omega
      subst hnil
      refine ⟨h.max_eq, h.size_eq, ?_, ?_, h.ring, h.count_eq, ?_, h.nonneg, h.waits,
        [], hrel, ?_, fun hne => absurd rfl hne, hrange⟩
      · exact h.le_upto.trans (Int.le_add_one (Int.le_refl _))
      · have := h.max_eq
        show s.outports.upto + 1 ≤ max + 1
        omega
      · show (q ++ s.held ++ s.refused ++ s.outports.upto :: lost).Perm
          (fresh min (s.outports.upto + 1))
        rw [fresh_succ h.le_upto]
        exact List.perm_middle.trans
          ((h.parts.cons s.outports.upto).trans (List.perm_append_singleton _ _).symm)
      · show s.handed ++ [s.outports.upto] = fresh min (s.outports.upto + 1) ++ []
        rw [fresh_succ h.le_upto, List.append_nil, hhand, List.append_nil]
    · rw [alloc_fresh hfresh]
      exact Int.lt_add_one_of_le h.le_upto
  · have hend : s.outports.upto = max + 1 := by
      have := h.max_eq
      have := h.upto_le
      omega
    by_cases hcount : 0 < s.outports.count
    · rw [alloc_reused hfresh hcount]
      cases q with
      | nil =>
        rw [h.count_eq] at hcount
        exact absurd hcount (Nat.lt_irrefl 0)
      | cons x q =>
        have hx := h.ring.first_eq
        have hmem : x ∈ fresh min s.outports.upto := h.parts.subset (by simp)
        have hm := mem_fresh.mp hmem
        refine .inl ⟨q, ⟨h.max_eq, h.size_eq, h.le_upto, h.upto_le, h.ring.pop, ?_, ?_, ?_,
          h.waits, reused ++ [x], ?_, ?_, fun _ => hend, ?_⟩, ?_⟩
        · show s.outports.count - 1 = q.length
          rw [h.count_eq, List.length_cons]
          rfl
        · rw [hx]
          exact List.perm_middle.trans h.parts
        · intro p hp
          exact h.nonneg p (List.mem_cons_of_mem x hp)
        · rw [hrel, List.append_assoc]
          rfl
        · show s.handed ++ [s.outports.ports s.outports.start] = _
          rw [hx, hhand, List.append_assoc]
        · intro p hp
          obtain hp | hp := List.mem_append.mp hp
          · exact hrange p hp
          · obtain rfl := List.mem_singleton.mp hp
            omega
        · show min < s.outports.upto
          omega
    · exact .inr ⟨alloc_none hfresh hcount, by omega⟩

/-- Another program uses the port. -/
theorem Inv.refuse {p : Int} (h : Inv min max s q (p :: lost)) (hp : 0 ≤ p) :
    Inv min max { s with refused := s.refused ++ [p] } q lost where
  max_eq := h.max_eq
  size_eq := h.size_eq
  le_upto := h.le_upto
  upto_le := h.upto_le
  ring := h.ring
  count_eq := h.count_eq
  parts := by
    have hparts := h.parts
    rw [List.append_cons, List.append_assoc _ s.refused [p]] at hparts
    exact hparts
  nonneg := by
    intro x hx
    rw [← List.append_assoc] at hx
    obtain hx | hx := List.mem_append.mp hx
    · exact h.nonneg x hx
    · rwa [List.mem_singleton.mp hx]
  waits := h.waits
  order := h.order

/-- What `bind_client_port` leaves: `y` are the ports that it took from the set and that no other
program uses. -/
structure Bound (min max : Int) (s : State) (binds : List Bind) (port : Int) (s' : State)
    (q y lost : List Int) : Prop where
  inv : Inv min max s' q (y ++ lost)
  connections : s'.connections = s.connections
  lt_upto : min < s'.outports.upto
  bound : 0 ≤ port → y = [port] ∧ .failed ∉ binds
  unbound : port < 0 → 0 ≤ min → (y = [] ↔ .failed ∉ binds)

theorem Inv.le_of_lost {p : Int} (h : Inv min max s q lost) (hp : p ∈ lost) : min ≤ p :=
  (mem_fresh.mp (h.parts.subset (List.mem_append_right _ hp))).1

/-- The set has no port left. -/
theorem bound_exhausted {binds : List Bind} (h : Inv min max s q lost)
    (hlt : min < s.outports.upto) (hbinds : binds = []) :
    Bound min max s binds (-1) s q [] lost where
  inv := h
  connections := rfl
  lt_upto := hlt
  bound := fun h0 => absurd h0 (by decide)
  unbound := fun _ _ => ⟨fun _ => by simp [hbinds], fun _ => rfl⟩

/-- A negative port counts as none. -/
theorem bound_negative {binds : List Bind} (h : Inv min max s.alloc.2 q (s.alloc.1 :: lost))
    (hlt : min < s.alloc.2.outports.upto) (hport : s.alloc.1 < 0) :
    Bound min max s binds (-1) s.alloc.2 q [s.alloc.1] lost where
  inv := h
  connections := rfl
  lt_upto := hlt
  bound := fun h0 => absurd h0 (by decide)
  unbound := fun _ hmin => by
    have hle := h.le_of_lost (List.mem_cons_self ..)
    omega

theorem bindClientPort_spec {binds : List Bind} (hle : min ≤ max) (h : Inv min max s q lost) :
    Safe (· = Fault.assertion) (fun r => ∃ q' y, Bound min max s binds r.1 r.2 q' y lost)
      (bindClientPort binds s) := by
  induction binds generalizing s q with
  | nil =>
    unfold bindClientPort
    obtain ⟨q', hinv, hlt⟩ | ⟨hnone, hlt⟩ := h.alloc hle
    · by_cases hport : s.alloc.1 < 0
      · simp only [hport, if_true]
        exact Safe.bind (Safe.require fun _ => by decide)
          fun _ _ => ⟨q', _, bound_negative hinv hlt hport⟩
      · simp only [hport, if_false]
        exact Safe.fault (by decide)
    · simp only [hnone]
      exact Safe.bind (Safe.require fun _ => by decide)
        fun _ _ => ⟨q, _, bound_exhausted h hlt rfl⟩
  | cons r binds ih =>
    unfold bindClientPort
    obtain ⟨q', hinv, hlt⟩ | ⟨hnone, hlt⟩ := h.alloc hle
    · by_cases hport : s.alloc.1 < 0
      · simp only [hport, if_true]
        exact Safe.bind (Safe.require fun _ => by decide)
          fun _ _ => ⟨q', _, bound_negative hinv hlt hport⟩
      · simp only [hport, if_false]
        cases r with
        | bound =>
          refine Safe.bind (Safe.require fun _ => by decide) fun _ hb => ?_
          exact ⟨q', [s.alloc.1], hinv, rfl, hlt, fun _ => ⟨rfl, by simp [hb]⟩,
            fun hneg => absurd hneg hport⟩
        | inUse =>
          refine (ih (hinv.refuse (Int.not_lt.mp hport))).mono fun r hr => ?_
          obtain ⟨q'', y, hb⟩ := hr
          refine ⟨q'', y, hb.inv, hb.connections, hb.lt_upto, fun h0 => ?_, fun hneg hmin => ?_⟩
          · simpa using hb.bound h0
          · simpa using hb.unbound hneg hmin
        | failed =>
          refine Safe.bind (Safe.require fun _ => by decide) fun _ hb => ?_
          exact ⟨q', [s.alloc.1], hinv, rfl, hlt, fun h0 => absurd h0 (by simp),
            fun _ _ => by simp⟩
    · simp only [hnone]
      exact Safe.bind (Safe.require fun _ => by decide)
        fun _ hb => ⟨q, _, bound_exhausted h hlt hb⟩

/-! ## Connections that come and go -/

theorem Inv.add (h : Inv min max s q lost) (waiting : Bool) :
    Inv min max { s with connections := s.connections ++ [⟨waiting, -1⟩] } q lost where
  max_eq := h.max_eq
  size_eq := h.size_eq
  le_upto := h.le_upto
  upto_le := h.upto_le
  ring := h.ring
  count_eq := h.count_eq
  parts := by
    have hheld : State.held { s with connections := s.connections ++ [⟨waiting, -1⟩] } = s.held := by
      rw [State.held, List.filterMap_append, List.filterMap_cons_none (port_of_neg (by simp)),
        List.filterMap_nil, List.append_nil]
      rfl
    rw [hheld]
    exact h.parts
  nonneg := h.nonneg
  waits := by
    intro conn hc hw
    obtain hc | hc := List.mem_append.mp hc
    · exact h.waits conn hc hw
    · rw [List.mem_singleton.mp hc]
      exact Int.negSucc_lt_zero 0
  order := h.order

/-- A connection without a port gets one, or still has none. -/
theorem Inv.setPort {i : Nat} {y : List Int} (h : Inv min max s q (y ++ lost))
    (hi : i < s.connections.length) (hold : (s.connections.get ⟨i, hi⟩).outport < 0)
    (conn : Connection) (hport : conn.port.toList = y) (hw : conn.waiting = true → conn.outport < 0) :
    Inv min max { s with connections := s.connections.set i conn } q lost where
  max_eq := h.max_eq
  size_eq := h.size_eq
  le_upto := h.le_upto
  upto_le := h.upto_le
  ring := h.ring
  count_eq := h.count_eq
  parts := by
    refine List.Perm.trans ?_ h.parts
    have h1 : s.held.Perm ((s.connections.eraseIdx i).filterMap Connection.port) := by
      have := held_eraseIdx hi
      rwa [port_of_neg hold] at this
    have h2 := held_set hi conn
    rw [hport] at h2
    rw [List.perm_iff_count]
    intro p
    have c1 := h1.count_eq p
    have c2 := h2.count_eq p
    simp only [List.count_append, State.held] at c1 c2 ⊢
    omega
  nonneg := h.nonneg
  waits := by
    intro conn' hc hw'
    obtain hc | rfl := List.mem_or_eq_of_mem_set hc
    · exact h.waits conn' hc hw'
    · exact hw hw'
  order := h.order

theorem removeConnection_spec (i : Nat) (h : Inv min max s q lost) :
    Safe (· = Fault.assertion)
      (fun s' => (∃ q', Inv min max s' q' lost) ∧ s'.outports.upto = s.outports.upto)
      (removeConnection s i) := by
  unfold removeConnection
  cases hc : s.connections[i]? with
  | none => exact Safe.fault (by decide)
  | some conn =>
    obtain ⟨hi, hget⟩ := List.getElem?_eq_some_iff.mp hc
    have hheld := held_eraseIdx hi
    rw [List.get_eq_getElem, hget] at hheld
    have hwaits : ∀ conn' ∈ s.connections.eraseIdx i, conn'.waiting = true → conn'.outport < 0 :=
      fun conn' hmem => h.waits conn' (List.mem_of_mem_eraseIdx hmem)
    by_cases hport : 0 ≤ conn.outport
    · simp only [hport, if_true]
      rw [port_of_nonneg hport] at hheld
      have hmem : conn.outport ∈ s.held := hheld.symm.subset (List.mem_cons_self ..)
      have hlt := h.length_lt (List.ne_nil_of_mem hmem)
      have hpush := h.ring.push (x := conn.outport) hlt
      obtain ⟨reused, hrel, hhand, hupto, hrange⟩ := h.order
      unfold portsetReleaseport
      refine Safe.bind (Safe.bind (Safe.require fun hne => ?_) fun _ _ => Safe.pure rfl)
        fun pb hpb => ?_
      · intro _
        apply hne
        rw [h.count_eq]
        exact hlt
      · subst hpb
        refine ⟨⟨q ++ [conn.outport], h.max_eq, h.size_eq, h.le_upto, h.upto_le, hpush, ?_, ?_, ?_,
          hwaits, reused, ?_, hhand, hupto, hrange⟩, rfl⟩
        · show s.outports.count + 1 = (q ++ [conn.outport]).length
          rw [h.count_eq, List.length_append]
          rfl
        · refine List.Perm.trans ?_ h.parts
          rw [List.perm_iff_count]
          intro p
          have c1 := hheld.count_eq p
          simp only [List.count_append, State.held, Option.toList_some] at c1 ⊢
          omega
        · intro p hp
          simp only [List.mem_append, List.mem_singleton] at hp
          obtain (hp | rfl) | hp := hp
          · exact h.nonneg p (List.mem_append_left _ hp)
          · exact hport
          · exact h.nonneg p (List.mem_append_right _ hp)
        · rw [hrel, List.append_assoc]
    · simp only [hport, if_false]
      rw [port_of_neg (Int.not_le.mp hport)] at hheld
      refine ⟨⟨q, h.max_eq, h.size_eq, h.le_upto, h.upto_le, h.ring, h.count_eq, ?_, h.nonneg,
        hwaits, h.order⟩, rfl⟩
      refine List.Perm.trans ?_ h.parts
      exact ((hheld.symm.append_left q).append_right s.refused).append_right lost

/-! ## Runs -/

/-- What an event leaves: no port gets lost if and only if the event is lossless. -/
def Kept (min max : Int) (lost : List Int) (e : Event) (s' : State) : Prop :=
  ∃ q' lost', Inv min max s' q' lost' ∧ (lost' = [] ↔ lost = [] ∧ e.Lossless min max)

theorem Inv.kept {e : Event} (h : Inv min max s q lost) (he : e.Lossless min max) :
    Kept min max lost e s :=
  ⟨q, lost, h, (and_iff_left he).symm⟩

/-- A connection that has asked for a port, with what it was given. -/
theorem Bound.kept {binds : List Bind} {port : Int} {y : List Int} {i : Nat} {inProgress : Bool}
    (hb : Bound min max s binds port s' q y lost) (hmax : 0 < max)
    (hi : i < s.connections.length) (hold : (s.connections.get ⟨i, hi⟩).outport < 0) :
    Kept min max lost (.slotAvailable i (.connect binds inProgress))
      { s' with connections := s'.connections.set i ⟨false, port⟩ } := by
  have hi' : i < s'.connections.length := by rwa [hb.connections]
  have hold' : (s'.connections.get ⟨i, hi'⟩).outport < 0 := by
    simpa only [List.get_eq_getElem, hb.connections] using hold
  by_cases hport : 0 ≤ port
  · obtain ⟨hy, hfailed⟩ := hb.bound hport
    have hinv := hb.inv.setPort hi' hold' ⟨false, port⟩
      (by rw [port_of_nonneg hport, hy]; rfl) (fun hw => nomatch hw)
    refine ⟨q, lost, hinv, fun hl => ⟨hl, hfailed, fun _ => ?_⟩, And.left⟩
    by_contra hmin
    exact hinv.lost_ne_nil (Int.not_le.mp hmin) hb.lt_upto hl
  · have hneg := Int.not_le.mp hport
    have hnone : Inv min max s' q ([] ++ (y ++ lost)) := hb.inv
    have hinv := hnone.setPort hi' hold' ⟨false, port⟩ (by rw [port_of_neg hneg]; rfl)
      (fun hw => nomatch hw)
    refine ⟨q, y ++ lost, hinv, fun hl => ?_, fun hl => ?_⟩
    · have hmin : 0 ≤ min := by
        by_contra hmin
        exact hinv.lost_ne_nil (Int.not_le.mp hmin) hb.lt_upto hl
      obtain ⟨hy, hlost⟩ := List.append_eq_nil_iff.mp hl
      exact ⟨hlost, (hb.unbound hneg hmin).mp hy, fun _ => hmin⟩
    · obtain ⟨hlost, hfailed, hmin⟩ := hl
      rw [(hb.unbound hneg (hmin hmax)).mpr hfailed, hlost]
      rfl

theorem initiateConnection_spec {i : Nat} (a : Attempt) (hle : min ≤ max)
    (h : Inv min max s q lost) (hi : i < s.connections.length)
    (hold : (s.connections.get ⟨i, hi⟩).outport < 0) :
    Safe (· = Fault.assertion) (fun r => Kept min max lost (.slotAvailable i a) r.2)
      (initiateConnection s i a) := by
  cases a with
  | noSocket => exact h.kept trivial
  | noReuse => exact Safe.bind (Safe.require fun _ => by decide) fun _ _ => h.kept trivial
  | connect binds inProgress =>
    rw [initiateConnection, h.max_eq]
    by_cases hmax : 0 < max
    · rw [if_pos hmax]
      refine Safe.bind (bindClientPort_spec hle h) fun r hr => ?_
      obtain ⟨q', y, hb⟩ := hr
      exact hb.kept hmax hi hold
    · rw [if_neg hmax]
      refine Safe.bind (Safe.require fun _ => by decide) fun _ hbinds => ?_
      exact h.kept ⟨by simp [hbinds], fun hpos => absurd hpos hmax⟩

theorem step_spec (hle : min ≤ max) (h : Inv min max s q lost) (e : Event) :
    Safe (· = Fault.assertion) (Kept min max lost e) (step s e) := by
  cases e with
  | add waiting => exact (h.add waiting).kept trivial
  | remove i =>
    refine (removeConnection_spec i h).mono fun s' hs => ?_
    obtain ⟨⟨q', hinv⟩, -⟩ := hs
    exact hinv.kept trivial
  | slotAvailable i a =>
    rw [step]
    cases hc : s.connections[i]? with
    | none => exact Safe.fault (by decide)
    | some conn =>
      obtain ⟨hi, hget⟩ := List.getElem?_eq_some_iff.mp hc
      refine Safe.bind (Safe.require fun _ => by decide) fun _ hw => ?_
      have hneg := h.waits conn (List.mem_of_getElem? hc) hw
      have hnone : Connection.port { conn with waiting := false } = none := port_of_neg hneg
      have hset := Inv.setPort (y := []) h hi (by rwa [List.get_eq_getElem, hget])
        { conn with waiting := false } (by rw [hnone]; rfl) (fun hw => nomatch hw)
      have hi' : i < (s.connections.set i { conn with waiting := false }).length := by
        rwa [List.length_set]
      refine Safe.bind (initiateConnection_spec a hle hset hi' ?_) fun r hr => ?_
      · rw [List.get_eq_getElem, List.getElem_set_self]
        exact hneg
      · obtain ⟨started, s'⟩ := r
        obtain ⟨q', lost', hinv, hlost⟩ := hr
        cases started with
        | true => exact ⟨q', lost', hinv, hlost⟩
        | false =>
          refine (removeConnection_spec i hinv).mono fun s'' hs => ?_
          obtain ⟨⟨q'', hinv'⟩, -⟩ := hs
          exact ⟨q'', lost', hinv', hlost⟩

theorem run_spec (hle : min ≤ max) (es : List Event) (h : Inv min max s q lost) :
    Safe (· = Fault.assertion) (fun s' => ∃ q' lost', Inv min max s' q' lost' ∧
      (lost' = [] ↔ lost = [] ∧ ∀ e ∈ es, e.Lossless min max)) (es.foldlM step s) := by
  induction es generalizing s q lost with
  | nil => exact ⟨q, lost, h, by simp⟩
  | cons e es ih =>
    rw [List.foldlM_cons]
    refine Safe.bind (step_spec hle h e) fun s' hs => ?_
    obtain ⟨q', lost', hinv, hlost⟩ := hs
    refine (ih hinv).mono fun s'' hs' => ?_
    obtain ⟨q'', lost'', hinv', hlost'⟩ := hs'
    refine ⟨q'', lost'', hinv', ?_⟩
    rw [hlost', hlost, List.forall_mem_cons, and_assoc]

/-- In every run the assertion holds, no port has two holders and the ports come in their order.
They are all accounted for if and only if each event was lossless. -/
theorem ports_accounted_iff (min max : Int) (hle : min ≤ max) (es : List Event) :
    run min max es ≠ .error .assertion ∧
      ∀ s, run min max es = .ok s →
        s.Sound min max ∧ (s.Accounted ↔ ∀ e ∈ es, e.Lossless min max) := by
  have hrun := run_spec hle es (start_inv hle)
  refine ⟨fun herr => hrun.not_bad herr rfl, fun s hs => ?_⟩
  obtain ⟨q, lost, hinv, hlost⟩ := hrun.ok_of hs
  refine ⟨hinv.sound, ?_⟩
  rw [hinv.accounted_iff, hlost, and_iff_right rfl]


/-- Three ports, of which another program uses one; one comes back and is used again. -/
theorem ports_accounted_iff_three :
    ∃ s, run 7000 7002 [.add true, .add true, .slotAvailable 0 (.connect [.inUse, .bound] true),
        .slotAvailable 1 (.connect [.bound] true), .remove 0, .add true,
        .slotAvailable 1 (.connect [.bound] true)] = .ok s ∧
      s.handed = [7000, 7001, 7002, 7001] ∧ s.Sound 7000 7002 ∧ s.Accounted := by
  generalize hes : [Event.add true, _, _, _, _, _, _] = es
  have hrun : (run 7000 7002 es).map State.handed = .ok [7000, 7001, 7002, 7001] := by
    subst hes
    decide +kernel
  cases hr : run 7000 7002 es with
  | error f =>
    rw [hr] at hrun
    cases hrun
  | ok s =>
    rw [hr] at hrun
    obtain ⟨hsound, hacc⟩ := (ports_accounted_iff 7000 7002 (by decide) es).2 s hr
    refine ⟨s, rfl, Except.ok.inj hrun, hsound, hacc.mpr ?_⟩
    subst hes
    simp [Event.Lossless]

/-- The program may not use port 80: it is gone after the first attempt, and there is none left. -/
theorem ports_lost :
    ∃ s, run 80 80 [.add true, .slotAvailable 0 (.connect [.failed] false)] = .ok s ∧
      s.handed = [80] ∧ s.held = [] ∧ s.released = [] ∧ s.refused = [] ∧ s.alloc.1 = -1 ∧
      ¬ s.Accounted := by
  have hrun : (run 80 80 [.add true, .slotAvailable 0 (.connect [.failed] false)]).map
      (fun s => (s.handed, s.held, s.released, s.refused, s.alloc.1)) = .ok ([80], [], [], [], -1) := by
    decide +kernel
  cases hr : run 80 80 [.add true, .slotAvailable 0 (.connect [.failed] false)] with
  | error f =>
    rw [hr] at hrun
    cases hrun
  | ok s =>
    rw [hr] at hrun
    simp only [Except.map, Except.ok.injEq, Prod.mk.injEq] at hrun
    obtain ⟨hhand, hheld, hrel, href, halloc⟩ := hrun
    refine ⟨s, rfl, hhand, hheld, hrel, href, halloc, fun h => ?_⟩
    rw [State.Accounted, hhand, hheld, hrel, href] at h
    exact absurd h.length_eq (by decide)

end Ports
end Network
end NReduce
