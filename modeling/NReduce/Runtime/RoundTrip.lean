import NReduce.Runtime.Reading

/-!
# NReduce.Runtime.RoundTrip

An object that is written by one task and read by another: the receiver takes exactly the bytes that
the sender wrote, and the copy it makes is what the sender described.
-/

namespace NReduce
namespace Runtime

open Logic

variable {n : Nat}

/-- `read_pntr` from the bytes of a message; the bytes after the object are left. -/
def readPntrBytes (e : Env n) (tid : Fin n) (data : List UInt8) : InterpM n (Pntr × List UInt8) := do
  let (o, rest) ← need (readBytes e.expcount data)
  let p ← readPntr e tid o
  return (p, rest)

theorem forget_address (o : Obj n) : o.forget.address = o.address := by cases o <;> rfl

theorem forget_refs (o : Obj n) : o.forget.refs = o.refs := by cases o <;> rfl

theorem forget_checked {expcount : Nat → Nat} {o : Obj n} (h : o.Checked expcount) :
    o.forget.Checked expcount := by
  cases o <;> exact h

theorem forget_acceptable {o : Obj n} (h : o.Acceptable) : o.forget.Acceptable := by
  cases o <;> exact h

theorem Received.of_forget {R : Ref n → Pntr → Prop} {h : Heap n} {o : Obj n} {q : Pntr}
    (hr : Received R h o.forget q) : Received R h o q := by
  cases o <;> exact hr

theorem forget_eq_sysobject {o : Obj n} {a : Gaddr n} {type : Nat} {ownertid : Fin n}
    {sockid : SocketId} (h : o.forget = .sysobject a type ownertid sockid) :
    o = .sysobject a type ownertid sockid := by
  cases o with
  | frame addr address fetchers data origin => cases h
  | _ => exact h

theorem Obj.Checked.slots {expcount : Nat → Nat} {o : Obj n} (h : o.Checked expcount) :
    o.Slots expcount := by
  cases o with
  | frame addr address fetchers data origin => exact h
  | _ => trivial

theorem readPntrBytes_apply {e : Env n} {tid : Fin n} {o : Obj n} {s s' : Interp n} {q : Pntr}
    (hfit : o.Fits) (hcheck : o.Checked e.expcount) (rest : List UInt8)
    (hread : readPntr e tid o.forget s = some (q, s')) :
    readPntrBytes e tid (o.bytes ++ rest) s = some ((q, rest), s') := by
  have hbytes := readBytes_reads e.expcount hfit hcheck.slots rest
  unfold readPntrBytes
  refine bind_eq_some.mpr ⟨(o.forget, rest), s, need_eq_some.mpr ⟨hbytes, rfl⟩, ?_⟩
  exact bind_eq_some.mpr ⟨q, s', hread, rfl⟩

/-- `q`, in the heap `h'` that the receiver has after reading, is what `o` describes. -/
def Copied (h h' : Heap n) (o : Obj n) (q : Pntr) : Prop :=
  match o.address with
  | none => Received (Refers h') h' o q
  | some addr => Received (Holds h h' addr q) h' o q ∧ h'.Knows addr q

/-- A message that the receiver can read: it knows its own addresses. -/
structure Receivable (tid : Fin n) (h : Heap n) (o : Obj n) : Prop where
  acceptable : o.Acceptable
  refs : ∀ r ∈ o.refs, Foreign tid h r
  address : ∀ addr, o.address = some addr → h.addrhashLookup addr = none → addr.tid ≠ tid

/-- The bytes that a task writes for an object describe it, and another task takes exactly these
bytes. If the address of the object is new to this task, it has a copy of the object then, and if it
has an object for this address, it has this one. -/
theorem readPntr_writePntr {e : Env n} {i j : Fin n} {p q : Pntr} {s s' r : Interp n} {o : Obj n}
    (hs : s.heap.Numbered) (hq : s.heap.resolve p = some q) (hsend : s.heap.Sendable e q)
    (hw : writePntr e i p s = some (o, s')) (hfit : o.Fits) (hr : r.heap.Allocated)
    (hrecv : Receivable j r.heap o) (rest : List UInt8) :
    s'.heap.describePntr e s.heap.frames q = some o ∧
    ((∀ addr, o.address = some addr → r.heap.addrhashLookup addr = none) →
      ∃ q' r', readPntrBytes e j (o.bytes ++ rest) r = some ((q', rest), r') ∧
        Copied r.heap r'.heap o q') ∧
    (∀ addr g glo, o.address = some addr → r.heap.addrhashLookup addr = some g →
      r.heap.globals g = some glo → r.heap.globalOf glo.p = none →
      (∀ a type sockid, o = .sysobject a type j sockid →
        ∃ type' owner sockid', r.heap.at glo.p = some (.sysobject type' owner sockid')) →
      ∃ r', readPntrBytes e j (o.bytes ++ rest) r = some ((glo.p, rest), r')) := by
  obtain ⟨hdesc, hcheck⟩ := writePntr_describes hs hq hsend hw
  have hrefs : ∀ x ∈ o.forget.refs, Foreign j r.heap x := by
    rw [forget_refs]
    exact hrecv.refs
  refine ⟨hdesc, ?_, ?_⟩
  · intro hnew
    cases haddr : o.address with
    | none =>
      cases o with
      | ref x =>
        obtain ⟨q', r', hread, -, -, hrefers⟩ := readRef_reading (Reading.refl hr)
          (hrecv.refs x List.mem_cons_self)
        exact ⟨q', r', readPntrBytes_apply hfit hcheck rest hread, hrefers⟩
      | _ => cases haddr
    | some addr =>
      have hnone := hnew addr haddr
      obtain ⟨q', r', hread, hcopy, hknows⟩ := readPntr_new hr ((forget_address o).trans haddr)
        hnone (hrecv.address addr haddr hnone) (forget_checked hcheck)
        (forget_acceptable hrecv.acceptable) hrefs
      refine ⟨q', r', readPntrBytes_apply hfit hcheck rest hread, ?_⟩
      unfold Copied
      rw [haddr]
      exact ⟨hcopy.of_forget, hknows⟩
  · intro addr g glo haddr hg hglo hobj hsys
    obtain ⟨r', hread⟩ := readPntr_known hr ((forget_address o).trans haddr) hg hglo hobj
      (fun a type sockid ho => hsys a type sockid (forget_eq_sysobject ho)) (forget_checked hcheck)
      (forget_acceptable hrecv.acceptable) hrefs
    exact ⟨r', readPntrBytes_apply hfit hcheck rest hread⟩

/-- `maybe_expand_array` on two CONS cells with nothing after them, whose heads are no characters. -/
def expandPair (cells : Nat → Cell 2) (ncells c : Nat) : (Nat → Cell 2) × Nat :=
  match cells c with
  | .cons x (.cell c' _) =>
    match cells c' with
    | .cons y tail =>
      (Function.update (Function.update cells ncells (.array (.pntrs [x, y]) false)) c
        (.aref ncells tail), ncells + 1)
    | _ => (cells, ncells)
  | _ => (cells, ncells)

def pairEnv : Env 2 where
  expcount := fun _ => 3
  fno := fun _ => 0
  funAddress := fun _ => 0
  numBuiltins := 1
  buildarray := 0
  optBuildarray := true
  optFishhalf := false
  optFishframes := 1
  expand := expandPair
  atBif := fun _ => false
  buildarray_expcount := rfl
  wrapper_expcount := fun _ h => by cases h

/-- A task with these cells, after `globnilpntr`. -/
def taskWith (l : List (Cell 2)) : Interp 2 where
  heap := { cells := fun c => (Cell.nil :: l).getD c .empty, ncells := l.length + 1 }

theorem taskWith_numbered (l : List (Cell 2)) : (taskWith l).heap.Numbered :=
  ⟨nofun, nofun, nofun⟩

theorem taskWith_allocated (l : List (Cell 2)) : (taskWith l).heap.Allocated :=
  ⟨nofun, nofun, nofun, nofun⟩

/-- A CONS of a number and a string. -/
theorem readPntr_writePntr_cons :
    ∃ q r', readPntrBytes pairEnv 1
        ((Obj.cons (n := 2) ⟨0, 0⟩ (.number 5) (.remote ⟨0, 1⟩)).bytes ++ [1]) (taskWith []) =
          some ((q, [1]), r') ∧
      Copied (taskWith []).heap r'.heap (.cons ⟨0, 0⟩ (.number 5) (.remote ⟨0, 1⟩)) q := by
  have h := readPntr_writePntr (e := pairEnv) (i := 0) (j := 1) (p := .cell 1 0)
    (s := taskWith [.cons (.number 5) (.cell 2 0), .array (.bytes [72]) false]) (r := taskWith [])
    (o := .cons ⟨0, 0⟩ (.number 5) (.remote ⟨0, 1⟩))
    (taskWith_numbered _) rfl ⟨rfl, ?_, ?_⟩ rfl ?_ (taskWith_allocated _) ⟨trivial, ?_, ?_⟩ [1]
  · exact h.2.1 (fun _ _ => rfl)
  · intro c i hc arr tail els m h1
    cases hc
    cases h1
  · intro c i hc f h1
    cases hc
    cases h1
  · exact ⟨⟨by decide, by decide⟩, trivial, ⟨by decide, by decide⟩⟩
  · intro r hr a ha _
    subst ha
    simp only [Obj.refs, List.mem_cons, List.not_mem_nil, or_false] at hr
    rcases hr with hr | hr
    · cases hr
    · cases hr
      decide
  · intro addr ha _
    cases ha
    decide

theorem writeRefs_nil (tid : Fin n) {s : Interp n} (h : s.heap.cells 0 = .nil) (k : Nat) :
    writeRefs tid (List.replicate k nilPntr) s = some (List.replicate k .nil, s) := by
  have href : writeRef tid nilPntr s = some (.nil, s) := by
    have hres : s.heap.resolve nilPntr = some nilPntr := by
      simp [Heap.resolve, nilPntr, resolveFrom, h]
    unfold writeRef
    refine bind_eq_some.mpr ⟨nilPntr, s, onHeap_apply ?_, ?_⟩
    · unfold resolvePntr
      rw [get_apply, need_eq_some]
      exact ⟨hres, rfl⟩
    · refine bind_eq_some.mpr ⟨some .nil, s, ?_, rfl⟩
      unfold writeSimple
      rw [get_apply]
      simp only [nilPntr, h]
      rfl
  induction k with
  | zero => rfl
  | succ k ih => exact bind_eq_some.mpr ⟨.nil, s, href, bind_eq_some.mpr ⟨_, s, ih, rfl⟩⟩

/-- `read_cap` does not take as many values. -/
theorem readPntrBytes_cap_none {e : Env n} {tid : Fin n} {addr : Gaddr n}
    {arity address fno fileno lineno : Nat} {data : List (Ref n)} {s : Interp n}
    (hfit : (Obj.cap addr arity address fno fileno lineno data).Fits)
    (hlen : ¬ data.length < maxCapSize) :
    readPntrBytes e tid (Obj.cap addr arity address fno fileno lineno data).bytes s = none := by
  have hbytes := readBytes_reads e.expcount hfit trivial []
  rw [List.append_nil] at hbytes
  apply Option.eq_none_iff_forall_ne_some.mpr
  rintro ⟨⟨q, rest⟩, s'⟩ hread
  simp only [readPntrBytes, bind_eq_some, need_eq_some, hbytes] at hread
  obtain ⟨_, _, ⟨ho, rfl⟩, hread⟩ := hread
  cases ho
  obtain ⟨p, s1, hread, -⟩ := hread
  simp only [readPntr, Obj.forget, bind_eq_some, readBody, check_eq_some] at hread
  obtain ⟨_, _, -, _, _, ⟨_, _, ⟨hlt, -⟩, -⟩, -⟩ := hread
  exact hlen hlt

/-- A CAP with as many values. -/
def maxCap : Cell 2 := .cap 2000 5 0 0 0 (List.replicate maxCapSize nilPntr)

theorem writePntr_maxCap : ∃ s', writePntr pairEnv 0 (.cell 1 0) (taskWith [maxCap]) =
    some (.cap ⟨0, 0⟩ 2000 5 0 0 0 (List.replicate maxCapSize .nil), s') := by
  exact ⟨_, bind_eq_some.mpr ⟨.cell 1 0, _, rfl, bind_eq_some.mpr ⟨none, _, rfl,
    bind_eq_some.mpr ⟨_, _, rfl, bind_eq_some.mpr ⟨(), _, rfl,
    bind_eq_some.mpr ⟨_, _, rfl, bind_eq_some.mpr ⟨⟨0, 0⟩, _, rfl,
    bind_eq_some.mpr ⟨_, _, writeRefs_nil 0 rfl maxCapSize, rfl⟩⟩⟩⟩⟩⟩⟩⟩

theorem readPntr_writePntr_irregular :
    -- a CAP one of whose values is itself has an indirection there
    (∃ o s' q r', writePntr pairEnv 0 (.cell 1 0) (taskWith [.cap 2 5 0 0 0 [.cell 1 0]]) =
        some (o, s') ∧
      readPntrBytes pairEnv 1 o.bytes (taskWith []) = some ((q, []), r') ∧
      ∃ c, r'.heap.at q = some (.cap 2 5 0 0 0 [.cell c 0]) ∧ r'.heap.cells c = .ind q) ∧
    -- a CONS is read as an array
    (∃ o s' q r' arr tail, writePntr pairEnv 0 (.cell 1 0)
        (taskWith [.cons nilPntr (.cell 2 0), .cons nilPntr nilPntr]) = some (o, s') ∧
      readPntrBytes pairEnv 1 o.bytes (taskWith []) = some ((q, []), r') ∧
      r'.heap.at q = some (.aref arr tail)) ∧
    -- an empty array is not read
    (∃ o s', writePntr pairEnv 0 (.cell 1 0) (taskWith [.array (.bytes []) false]) = some (o, s') ∧
      readPntrBytes pairEnv 1 o.bytes (taskWith []) = none) ∧
    -- nor is a CAP with 1024 values
    (∃ o s', writePntr pairEnv 0 (.cell 1 0) (taskWith [maxCap]) = some (o, s') ∧
      readPntrBytes pairEnv 1 o.bytes (taskWith []) = none) := by
  obtain ⟨s', hmax⟩ := writePntr_maxCap
  refine ⟨⟨_, _, _, _, rfl, rfl, 1, rfl, rfl⟩, ⟨_, _, _, _, _, _, rfl, rfl, rfl⟩, ⟨_, _, rfl, rfl⟩,
    _, s', hmax, readPntrBytes_cap_none ?_ (by rw [List.length_replicate]; decide)⟩
  refine ⟨⟨by decide, by decide⟩, by decide, by decide, by decide, by decide, by decide, ?_, ?_⟩
  · rw [List.length_replicate]
    decide
  · intro r hr
    rw [List.eq_of_mem_replicate hr]
    trivial

end Runtime
end NReduce
