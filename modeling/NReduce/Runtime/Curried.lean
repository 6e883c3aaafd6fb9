import NReduce.Bytecode.Emit
import NReduce.Runtime.Handlers

/-!
# NReduce.Runtime.Curried

Application to any number of arguments: DO (`op_do`) and the table of EVAL and DO sequences that it
continues in when there are arguments left (`compile_evaldo`).

Arguments lie in reverse, on the stack as in a CAP: with `count` of them, argument `i` is in slot
`count - 1 - i`. `applyTo` is what application means; `opDo_applies` compares DO with it.
-/

namespace NReduce
namespace Bytecode

open Compiler

/-! ## The table -/

/-- The loop that looks for the largest number of slots. It starts with -1. -/
def maxcount (code : List Instr) : Int :=
  code.foldl (fun m i => if m = -1 ∨ m < i.expcount then i.expcount else m) (-1)

/-- EVAL and DO with `i` values on the stack -/
def evaldoEntry (i : Nat) : Option (List Instr) :=
  (Emit.andThen (Emit.eval 0) (Emit.op (.do_ false))
    ⟨List.replicate i .unknown, false, []⟩).map Prod.fst

/-- The loop that emits the table: `turns` entries, from `i` on. -/
def evaldoTable (i : Nat) : Nat → Option (List Instr)
  | 0 => some []
  | turns + 1 => do
    let entry ← evaldoEntry i
    let table ← evaldoTable (i + 1) turns
    return entry ++ table

def evaldoSequenceSize : Nat := 2

structure Program where
  instructions : List Instr
  evaldoaddr : Nat

/-- `compile_evaldo`, after the code of all functions. The INVALID that comes behind the table has no
number of slots. -/
def compileEvaldo (code : List Instr) : Option Program := do
  let table ← evaldoTable 1 (maxcount code - 1).toNat
  return ⟨code ++ table, code.length⟩

theorem maxcount_foldl (code : List Instr) (m : Int) (hm : -1 ≤ m) :
    m ≤ code.foldl (fun m i => if m = -1 ∨ m < i.expcount then i.expcount else m) m ∧
      ∀ i ∈ code, (i.expcount : Int) ≤
        code.foldl (fun m i => if m = -1 ∨ m < i.expcount then i.expcount else m) m := by
  induction code generalizing m with
  | nil => exact ⟨Int.le_refl _, nofun⟩
  | cons j code ih =>
    rw [List.foldl_cons]
    have hstep : m ≤ (if m = -1 ∨ m < j.expcount then (j.expcount : Int) else m) ∧
        (j.expcount : Int) ≤ (if m = -1 ∨ m < j.expcount then (j.expcount : Int) else m) := by
      split <;> omega
    obtain ⟨hle, hall⟩ := ih _ (Int.le_trans hm hstep.1)
    refine ⟨Int.le_trans hstep.1 hle, fun i hi => ?_⟩
    rcases List.mem_cons.mp hi with rfl | hi
    · exact Int.le_trans hstep.2 hle
    · exact hall i hi

/-- No instruction uses more slots. -/
theorem le_maxcount {code : List Instr} {i : Instr} (h : i ∈ code) :
    (i.expcount : Int) ≤ maxcount code :=
  (maxcount_foldl code (-1) (Int.le_refl _)).2 i h

/-- What an entry is: the value on top is evaluated, and applied to those below it. -/
theorem evaldoEntry_eq (i : Nat) : evaldoEntry (i + 1) =
    some [⟨.eval i, i + 1, List.replicate (i + 1) .unknown⟩,
      ⟨.do_ false, i + 1, (List.replicate (i + 1) .unknown).set i .evaluated⟩] := by
  have htop : (List.replicate (i + 1) Status.unknown)[i]? = some .unknown := by
    rw [List.getElem?_replicate, if_pos (Nat.lt_succ_self i)]
  simp only [evaldoEntry, Emit.andThen, Emit.eval, List.length_replicate, Nat.zero_lt_succ, if_true,
    Nat.add_sub_cancel, Nat.sub_zero, htop, Option.some.injEq, reduceCtorEq, if_false, Emit.op,
    Op.effect, Nat.lt_succ_self, Option.bind_eq_bind, Option.bind_some, Option.pure_def,
    Bool.false_eq_true, List.length_set, Option.map_some, List.cons_append, List.nil_append]

/-- The table has an entry for every number of slots that is below the largest one. -/
theorem evaldoTable_spec (i turns : Nat) : ∃ table, evaldoTable (i + 1) turns = some table ∧
    table.length = turns * evaldoSequenceSize ∧
    (∀ j ∈ table, j.expcount ≤ i + turns) ∧
    ∀ k < turns, ∃ si si',
      table[k * evaldoSequenceSize]? = some ⟨.eval (i + k), i + k + 1, si⟩ ∧
      table[k * evaldoSequenceSize + 1]? = some ⟨.do_ false, i + k + 1, si'⟩ := by
  induction turns generalizing i with
  | zero => exact ⟨[], rfl, rfl, nofun, nofun⟩
  | succ turns ih =>
    obtain ⟨table, htable, hlen, hall, hat⟩ := ih (i + 1)
    refine ⟨_, by rw [evaldoTable, evaldoEntry_eq, htable]; rfl, ?_, ?_, ?_⟩
    · simp only [List.length_append, List.length_cons, List.length_nil, hlen, evaldoSequenceSize]
      omega
    · intro j hj
      simp only [List.cons_append, List.nil_append, List.mem_cons] at hj
      rcases hj with rfl | rfl | hj
      · simp only
        omega
      · simp only
        omega
      · have := hall j hj
        omega
    · intro k hk
      cases k with
      | zero => exact ⟨_, _, rfl, rfl⟩
      | succ k =>
        obtain ⟨si, si', h₁, h₂⟩ := hat k (by omega)
        have hk₁ : (k + 1) * evaldoSequenceSize = k * evaldoSequenceSize + 2 := by
          simp only [evaldoSequenceSize]
          omega
        refine ⟨si, si', ?_, ?_⟩
        · rw [hk₁, show i + (k + 1) = i + 1 + k by omega]
          exact h₁
        · rw [hk₁, show i + (k + 1) = i + 1 + k by omega]
          exact h₂

/-- The table is always emitted, behind the code. -/
theorem compileEvaldo_spec (code : List Instr) : ∃ table,
    compileEvaldo code = some ⟨code ++ table, code.length⟩ ∧
      table.length = (maxcount code - 1).toNat * evaldoSequenceSize ∧
      (∀ j ∈ table, (j.expcount : Int) < maxcount code) ∧
      ∀ k < (maxcount code - 1).toNat, ∃ si si',
        table[k * evaldoSequenceSize]? = some ⟨.eval k, k + 1, si⟩ ∧
        table[k * evaldoSequenceSize + 1]? = some ⟨.do_ false, k + 1, si'⟩ := by
  obtain ⟨table, htable, hlen, hall, hat⟩ := evaldoTable_spec 0 (maxcount code - 1).toNat
  refine ⟨table, by rw [compileEvaldo, htable]; rfl, hlen, fun j hj => ?_, fun k hk => ?_⟩
  · have := hall j hj
    cases table with
    | nil => cases hj
    | cons _ _ =>
      rw [List.length_cons] at hlen
      have : (maxcount code - 1).toNat ≠ 0 := by
        intro h0
        rw [h0] at hlen
        omega
      omega
  · simpa only [Nat.zero_add] using hat k hk

/-- `OP_GLOBSTART == instr->opcode` -/
def Program.globstartAt (prog : Program) (address : Nat) : Bool :=
  match prog.instructions[address]? with
  | some ⟨.globstart _ _, _, _⟩ => true
  | _ => false

end Bytecode

namespace Runtime

open Logic Bytecode

variable {n : Nat}

/-! ## DO -/

def constantAppMsg : String := "constant cannot be applied to arguments"

/-- The lowest `s` slots -/
def stackList (data : Nat → Pntr) (s : Nat) : List Pntr := (List.range s).map data

/-- The loop that stores arguments from slot `base` on -/
def storeFrom (data : Nat → Pntr) (base : Nat) (l : List Pntr) (k : Nat) : Pntr :=
  if base ≤ k then l.getD (k - base) (data k) else data k

/-- The part of DO behind its checks: the value is a CAP that holds `held`, with `s` slots below
it. -/
def doCap (e : Env n) (prog : Program) (tid : Fin n) (f s arity address fno fileno lineno : Nat)
    (held : List Pntr) : InterpM n Unit := do
  let fr ← onHeap (getFrame f)
  if s + held.length < arity then
    returnCap e tid f arity address fno fileno lineno (stackList fr.data s ++ held)
  else if s + held.length = arity then do
    check (prog.globstartAt address = true)
    onHeap (setFrame f { fr with instr := address + 1, data := storeFrom fr.data s held })
  else do
    check (prog.globstartAt address = true)
    let extra := arity - held.length
    onHeap (opMkframe tid f (address + 1) (s - extra)
      (slots ((stackList fr.data s).drop (s - extra) ++ held)))
    let newcount := s + 1 - extra
    let fr ← onHeap (getFrame f)
    onHeap (setFrame f { fr with
      instr := prog.evaldoaddr + (newcount - 1) * evaldoSequenceSize })

/-- The part of DO for a value that is no CAP -/
def doOther (e : Env n) (tid : Fin n) (f : Nat) (arg0 : Bool) (p : Pntr) :
    InterpM n (Option String) := do
  let st ← get
  if arg0 then do
    check (st.heap.frameOf p = none)
    frameReturn e tid f p
    return none
  else return some constantAppMsg

/-- `op_do`, of an instruction with `expcount` slots. It gives the message of the error that it
sets. -/
def opDo (e : Env n) (prog : Program) (tid : Fin n) (f expcount : Nat) (arg0 : Bool) :
    InterpM n (Option String) := do
  let fr ← onHeap (getFrame f)
  let p := fr.data (expcount - 1)
  let st ← get
  match st.heap.at p with
  | some (.cap arity address fno fileno lineno held) => do
    doCap e prog tid f (expcount - 1) arity address fno fileno lineno held
    return none
  | some (.ind _) => failure
  | _ => doOther e tid f arg0 p

/-! ## What application is -/

/-- A function that waits for more arguments, a call, or a call whose result is applied to the
rest. -/
inductive Applied (α : Type) where
  | cap (args : List α)
  | call (args : List α)
  | callThen (args rest : List α)
  deriving DecidableEq

/-- A function of `arity` arguments that has got `held` is applied to `given`. -/
def applyTo {α : Type} (arity : Nat) (held given : List α) : Applied α :=
  if (held ++ given).length < arity then .cap (held ++ given)
  else if (held ++ given).length = arity then .call (held ++ given)
  else .callThen ((held ++ given).take arity) ((held ++ given).drop arity)

/-- The arguments that the lowest `count` slots hold, the first one on top -/
def argsOf (data : Nat → Pntr) (count : Nat) : List Pntr :=
  (List.range count).map (fun i => data (count - 1 - i))

theorem length_argsOf (data : Nat → Pntr) (count : Nat) : (argsOf data count).length = count := by
  rw [argsOf, List.length_map, List.length_range]

theorem length_stackList (data : Nat → Pntr) (s : Nat) : (stackList data s).length = s := by
  rw [stackList, List.length_map, List.length_range]

theorem getElem_argsOf (data : Nat → Pntr) {count i : Nat} (h : i < (argsOf data count).length) :
    (argsOf data count)[i] = data (count - 1 - i) := by
  simp only [argsOf, List.getElem_map, List.getElem_range]

theorem reverse_stackList (data : Nat → Pntr) (s : Nat) :
    (stackList data s).reverse = argsOf data s := by
  refine List.ext_getElem ?_ (fun i h₁ h₂ => ?_)
  · rw [List.length_reverse, length_stackList, length_argsOf]
  · rw [getElem_argsOf, List.getElem_reverse]
    simp only [stackList, List.getElem_map, List.getElem_range, List.length_map, List.length_range]

/-- Two stacks that agree hold the same arguments. -/
theorem argsOf_congr {data data' : Nat → Pntr} {count : Nat} (h : ∀ k < count, data k = data' k) :
    argsOf data count = argsOf data' count := by
  refine List.map_congr_left (fun i hi => ?_)
  have hlt : i < count := List.mem_range.mp hi
  exact h _ (by omega)

/-- Slots that hold a list hold its reverse as arguments. -/
theorem argsOf_slots {data : Nat → Pntr} {l : List Pntr} {count : Nat} (hlen : l.length = count)
    (h : ∀ k < count, l[k]? = some (data k)) : argsOf data count = l.reverse := by
  refine List.ext_getElem ?_ (fun i h₁ h₂ => ?_)
  · rw [List.length_reverse, length_argsOf, hlen]
  · rw [length_argsOf] at h₁
    rw [getElem_argsOf, List.getElem_reverse]
    have hk := h (count - 1 - i) (by omega)
    rw [List.getElem?_eq_getElem (by omega)] at hk
    simp only [hlen]
    exact (Option.some.inj hk).symm

theorem getElem?_stackList {data : Nat → Pntr} {s k : Nat} (h : k < s) :
    (stackList data s)[k]? = some (data k) := by
  rw [stackList, List.getElem?_map, List.getElem?_range h]
  rfl

/-- With exactly the arguments that were missing, those of the CAP go on top. -/
theorem argsOf_storeFrom (data : Nat → Pntr) (s : Nat) (held : List Pntr) :
    argsOf (storeFrom data s held) (s + held.length) = held.reverse ++ argsOf data s := by
  rw [← reverse_stackList data, ← List.reverse_append]
  refine argsOf_slots ?_ (fun k hk => ?_)
  · rw [List.length_append, length_stackList]
  · by_cases hs : s ≤ k
    · rw [List.getElem?_append_right (by rw [length_stackList]; exact hs), length_stackList,
        storeFrom, if_pos hs, List.getD_eq_getElem?_getD, List.getElem?_eq_getElem (by omega)]
      rfl
    · rw [List.getElem?_append_left (by rw [length_stackList]; omega),
        getElem?_stackList (by omega), storeFrom, if_neg hs]

theorem argsOf_slots_eq (l : List Pntr) : argsOf (slots l) l.length = l.reverse :=
  argsOf_slots rfl (fun k hk => by
    rw [slots, List.getD_eq_getElem?_getD, List.getElem?_eq_getElem hk]
    rfl)

/-- The `extra` topmost arguments of the stack come first, the others are those below. -/
theorem argsOf_take (data : Nat → Pntr) (s extra : Nat) :
    ((stackList data s).drop (s - extra)).reverse = (argsOf data s).take extra := by
  rw [← reverse_stackList, List.take_reverse, length_stackList]

theorem argsOf_drop (data : Nat → Pntr) (s extra : Nat) :
    argsOf data (s - extra) = (argsOf data s).drop extra := by
  refine List.ext_getElem ?_ (fun i h₁ h₂ => ?_)
  · rw [List.length_drop, length_argsOf, length_argsOf]
  · rw [length_argsOf] at h₁
    rw [getElem_argsOf, List.getElem_drop, getElem_argsOf]
    congr 1
    omega

/-! ## What DO does -/

/-- A frame that runs: it is the first one in the queue, its value was asked for by a cell or by the
frame that called it, and the frames that wait for it are blocked. -/
structure Running (h : Heap n) (f : Nat) : Prop where
  allocated : f < h.nframes
  state : (h.frames f).state = .active
  first : h.runq.head? = some f
  result : (h.frames f).c = none ↔ (h.frames f).retp ≠ none
  waiters : ∀ g ∈ (h.frames f).wq.frames, g ≠ f ∧ (h.frames g).state = .active

/-- The value in cell `c` is where it was asked for. -/
def Delivered (h : Heap n) (f c : Nat) (h' : Heap n) : Prop :=
  (h.frames f).c = some c ∨
    ∃ caller slot, (h.frames f).retp = some (caller, slot) ∧ (h'.frames caller).data slot = .cell c 0

/-- A run returns a CAP that holds `args`: it ends as a frame that returns it ends, and where no task
waits for the value, it comes to an end. -/
structure ReturnsCap (e : Env n) (tid : Fin n) (f arity address fno fileno lineno : Nat)
    (st : Interp n) (run : Option (Option String × Interp n)) (args : List Pntr) : Prop where
  stores : ∃ c data st', st'.heap.cells c = .cap arity address fno fileno lineno data ∧
    data.reverse = args ∧ Delivered st.heap f c st'.heap ∧
    run = (frameEnds e tid f (.cell c 0) st').map (fun r => (none, r.2)) ∧
    ((st.heap.frames f).wq.fetchers = [] → ∃ st'', run = some (none, st'') ∧
      st''.heap.cells = st'.heap.cells ∧ ∀ g, (st''.heap.frames g).data = (st'.heap.frames g).data)

/-- A run leaves the frame at the start of the function, with its arguments. -/
structure EntersCode (f address : Nat) (st : Interp n) (run : Option (Option String × Interp n))
    (args : List Pntr) : Prop where
  enters : ∃ data, argsOf data args.length = args ∧
    run = some (none, { st with heap := { st.heap with
      frames := Function.update st.heap.frames f
        { st.heap.frames f with instr := address + 1, data := data } } })

/-- A run makes a frame of the function with the arguments `args`, leaves `rest` below it, and goes
on at the EVAL of the table for as many slots as are now in use. -/
structure CallsThen (prog : Program) (tid : Fin n) (f address : Nat) (st : Interp n)
    (run : Option (Option String × Interp n)) (args rest : List Pntr) : Prop where
  calls : ∃ st' data si si', run = some (none, st') ∧
    st'.acct = st.acct ∧
    st'.heap.cells = Function.update st.heap.cells st.heap.ncells (.frame st.heap.nframes) ∧
    st'.heap.frames st.heap.nframes =
      { instr := address + 1, state := .new, c := some st.heap.ncells,
        data := data, origin := some (tid, st.heap.nframes) } ∧
    argsOf data args.length = args ∧
    (∀ g, g ≠ f → g ≠ st.heap.nframes → st'.heap.frames g = st.heap.frames g) ∧
    argsOf (st'.heap.frames f).data rest.length = rest ∧
    (st'.heap.frames f).data rest.length = .cell st.heap.ncells 0 ∧
    prog.evaldoaddr ≤ (st'.heap.frames f).instr ∧
    prog.instructions[(st'.heap.frames f).instr]? =
      some ⟨.eval rest.length, rest.length + 1, si⟩ ∧
    prog.instructions[(st'.heap.frames f).instr + 1]? = some ⟨.do_ false, rest.length + 1, si'⟩

section

variable {e : Env n} {prog : Program} {tid : Fin n} {f s arity address fno fileno lineno : Nat}
  {held : List Pntr} {arg0 : Bool} {st : Interp n}

/-- Waking the waiters changes the queue only. -/
theorem unblockAll_spec {h : Heap n} {l : List Nat}
    (hl : ∀ g ∈ l, (h.frames g).state = .active) :
    ∃ q, unblockAll l h = some ((), { h with runq := q }) := by
  induction l generalizing h with
  | nil => exact ⟨h.runq, rfl⟩
  | cons g l ih =>
    obtain ⟨q, hq⟩ := ih (h := { h with runq := insertAfterFirst g h.runq })
      (fun g' hg' => hl g' (List.mem_cons_of_mem g hg'))
    refine ⟨q, bind_eq_some.mpr ⟨(), { h with runq := insertAfterFirst g h.runq }, ?_, hq⟩⟩
    refine bind_eq_some.mpr ⟨h.frames g, h, rfl, bind_eq_some.mpr ⟨(), h, ?_, rfl⟩⟩
    exact check_eq_some.mpr ⟨hl g (List.mem_cons_self ..), rfl⟩

/-- A frame of the heap is changed, and what is in its slots stays. -/
def Heap.withFrame (h : Heap n) (f : Nat) (v : Frame n) (q : List Nat) : Heap n :=
  { h with frames := Function.update h.frames f v, runq := q }

theorem Heap.withFrame_self (h : Heap n) (f : Nat) (v : Frame n) (q : List Nat) :
    (h.withFrame f v q).frames f = v := Function.update_self ..

theorem Heap.withFrame_other (h : Heap n) {f g : Nat} (v : Frame n) (q : List Nat) (hg : g ≠ f) :
    (h.withFrame f v q).frames g = h.frames g := Function.update_of_ne hg ..

theorem Heap.withFrame_data (h : Heap n) {f : Nat} {v : Frame n} (q : List Nat)
    (hv : v.data = (h.frames f).data) (g : Nat) :
    ((h.withFrame f v q).frames g).data = (h.frames g).data := by
  by_cases hg : g = f
  · rw [hg, h.withFrame_self, hv]
  · rw [h.withFrame_other v q hg]

theorem doneFrame_spec {h : Heap n} (hstate : (h.frames f).state = .active)
    (hfirst : h.runq.head? = some f) :
    doneFrame f h = some ((), h.withFrame f { h.frames f with state := .done } h.runq.tail) := by
  refine bind_eq_some.mpr ⟨h.frames f, h, rfl, bind_eq_some.mpr ⟨(), h, ?_, ?_⟩⟩
  · exact check_eq_some.mpr ⟨hstate, rfl⟩
  · refine bind_eq_some.mpr ⟨h, h, rfl, bind_eq_some.mpr ⟨(), h, ?_, rfl⟩⟩
    exact check_eq_some.mpr ⟨hfirst, rfl⟩

theorem resumeLocalWaiters_spec {h : Heap n}
    (hwait : ∀ g ∈ (h.frames f).wq.frames, g ≠ f ∧ (h.frames g).state = .active) :
    ∃ q, resumeLocalWaiters (.frame f) h = some ((),
      h.withFrame f { h.frames f with wq := { (h.frames f).wq with frames := [] } } q) := by
  obtain ⟨q, hq⟩ := unblockAll_spec (l := (h.frames f).wq.frames)
    (h := h.withFrame f { h.frames f with wq := { (h.frames f).wq with frames := [] } } h.runq)
    (fun g hg => by rw [h.withFrame_other _ _ (hwait g hg).1]; exact (hwait g hg).2)
  exact ⟨q, bind_eq_some.mpr ⟨(h.frames f).wq, h, rfl, bind_eq_some.mpr ⟨(), _, rfl, hq⟩⟩⟩

theorem frameFree_spec {h : Heap n} (hc : (h.frames f).c = none) (hretp : (h.frames f).retp = none)
    (hstate : (h.frames f).state = .done) (hframes : (h.frames f).wq.frames = [])
    (hfetch : (h.frames f).wq.fetchers = []) :
    frameFree f h = some ((), h.withFrame f { h.frames f with state := .unallocated } h.runq) := by
  refine bind_eq_some.mpr ⟨h.frames f, h, rfl, bind_eq_some.mpr ⟨(), h, ?_, ?_⟩⟩
  · exact check_eq_some.mpr ⟨⟨hretp, hc⟩, rfl⟩
  · refine bind_eq_some.mpr ⟨(), h, ?_, bind_eq_some.mpr ⟨(), h, ?_,
      bind_eq_some.mpr ⟨(), h, ?_, rfl⟩⟩⟩
    · exact check_eq_some.mpr ⟨.inl hstate, rfl⟩
    · exact check_eq_some.mpr ⟨hframes, rfl⟩
    · exact check_eq_some.mpr ⟨hfetch, rfl⟩

/-- A frame whose value has been delivered comes to an end, where no other task waits for it. -/
theorem frameEnds_spec {h : Heap n} (a : Acct n) (val : Pntr) (hstate : (h.frames f).state = .active)
    (hfirst : h.runq.head? = some f) (hc : (h.frames f).c = none) (hretp : (h.frames f).retp = none)
    (hwait : ∀ g ∈ (h.frames f).wq.frames, g ≠ f ∧ (h.frames g).state = .active)
    (hfetch : (h.frames f).wq.fetchers = []) :
    ∃ h', frameEnds e tid f val ⟨h, a⟩ = some ((), ⟨h', a⟩) ∧ h'.cells = h.cells ∧
      ∀ g, (h'.frames g).data = (h.frames g).data := by
  have hdone := doneFrame_spec hstate hfirst
  generalize hh₁ : h.withFrame f { h.frames f with state := .done } h.runq.tail = h₁ at hdone
  have h₁f : h₁.frames f = { h.frames f with state := .done } := hh₁ ▸ h.withFrame_self ..
  have hwait₁ : ∀ g ∈ (h₁.frames f).wq.frames, g ≠ f ∧ (h₁.frames g).state = .active := by
    intro g hg
    rw [h₁f] at hg
    obtain ⟨hne, hg⟩ := hwait g hg
    exact ⟨hne, by rw [← hh₁, h.withFrame_other _ _ hne]; exact hg⟩
  obtain ⟨q, hresume⟩ := resumeLocalWaiters_spec hwait₁
  generalize hh₂ : h₁.withFrame f
    { h₁.frames f with wq := { (h₁.frames f).wq with frames := [] } } q = h₂ at hresume
  have h₂f : h₂.frames f =
      { h₁.frames f with wq := { (h₁.frames f).wq with frames := [] } } := hh₂ ▸ h₁.withFrame_self ..
  have hfree : frameFree f h₂ = _ := frameFree_spec (by rw [h₂f, h₁f]; exact hc)
    (by rw [h₂f, h₁f]; exact hretp) (by rw [h₂f, h₁f]) (by rw [h₂f]) (by rw [h₂f, h₁f]; exact hfetch)
  refine ⟨h₂.withFrame f { h₂.frames f with state := .unallocated } h₂.runq, ?_, ?_, fun g => ?_⟩
  · refine bind_eq_some.mpr ⟨(), ⟨h₁, a⟩, zoom_eq_some.mpr ⟨h₁, hdone, rfl⟩, ?_⟩
    refine bind_eq_some.mpr ⟨(), ⟨h₂, a⟩, ?_, zoom_eq_some.mpr ⟨_, hfree, rfl⟩⟩
    refine bind_eq_some.mpr ⟨(), ⟨h₂, a⟩, zoom_eq_some.mpr ⟨_, hresume, rfl⟩, ?_⟩
    refine bind_eq_some.mpr ⟨(h₂.frames f).wq, ⟨h₂, a⟩, rfl, ?_⟩
    have hempty : (h₂.frames f).wq.fetchers = [] := by
      rw [h₂f, h₁f]
      exact hfetch
    rw [when, if_neg (fun hne => hne hempty)]
    rfl
  · rw [← hh₂, ← hh₁]
    rfl
  · calc ((h₂.withFrame f { h₂.frames f with state := .unallocated } h₂.runq).frames g).data
        = (h₂.frames g).data := h₂.withFrame_data _ (by rfl) g
      _ = (h₁.frames g).data := by rw [← hh₂]; exact h₁.withFrame_data _ (by rfl) g
      _ = (h.frames g).data := by rw [← hh₁]; exact h.withFrame_data _ (by rfl) g

/-- What `frameEnds` asks of a frame that still runs -/
theorem Running.frameEnds (hrun : Running st.heap f) {h : Heap n} (c : Pntr)
    (hq : h.runq = st.heap.runq) (hstate : ∀ g, (h.frames g).state = (st.heap.frames g).state)
    (hwq : (h.frames f).wq = (st.heap.frames f).wq) (hc : (h.frames f).c = none)
    (hretp : (h.frames f).retp = none) (hfetch : (st.heap.frames f).wq.fetchers = []) :
    ∃ h', Runtime.frameEnds e tid f c ⟨h, st.acct⟩ = some ((), ⟨h', st.acct⟩) ∧ h'.cells = h.cells ∧
      ∀ g, (h'.frames g).data = (h.frames g).data := by
  refine frameEnds_spec st.acct c ?_ ?_ hc hretp ?_ ?_
  · rw [hstate]
    exact hrun.state
  · rw [hq]
    exact hrun.first
  · intro g hg
    rw [hwq] at hg
    obtain ⟨hne, hg⟩ := hrun.waiters g hg
    exact ⟨hne, (hstate g).trans hg⟩
  · rw [hwq]
    exact hfetch

theorem getFrame_bind {α : Type} (next : Frame n → InterpM n α) :
    (onHeap (getFrame f) >>= next) st = next (st.heap.frames f) st := rfl

variable (e tid arity address fno fileno lineno) in
/-- The cell of the frame, or the slot of the frame that called it, gets the CAP. -/
theorem returnCap_spec (hrun : Running st.heap f) (data : List Pntr) :
    ∃ c h', h'.cells c = .cap arity address fno fileno lineno data ∧
      Delivered st.heap f c h' ∧
      returnCap e tid f arity address fno fileno lineno data st =
        frameEnds e tid f (.cell c 0) ⟨h', st.acct⟩ ∧
      ((st.heap.frames f).wq.fetchers = [] →
        ∃ h'', frameEnds e tid f (.cell c 0) ⟨h', st.acct⟩ = some ((), ⟨h'', st.acct⟩) ∧
          h''.cells = h'.cells ∧ ∀ g, (h''.frames g).data = (h'.frames g).data) := by
  have hresult := hrun.result
  cases hc : (st.heap.frames f).c with
  | some c =>
    have hretp : (st.heap.frames f).retp = none := by
      rw [hc] at hresult
      exact not_not.mp (fun hne => absurd (hresult.mpr hne) (by simp))
    let h' : Heap n := { st.heap with
      cells := Function.update st.heap.cells c (.cap arity address fno fileno lineno data)
      frames := Function.update st.heap.frames f { st.heap.frames f with c := none } }
    have hf : h'.frames f = { st.heap.frames f with c := none } := Function.update_self ..
    have hne : ∀ g, g ≠ f → h'.frames g = st.heap.frames g := fun g hg => Function.update_of_ne hg ..
    refine ⟨c, h', Function.update_self .., .inl hc, ?_, fun hfetch => ?_⟩
    · rw [returnCap, getFrame_bind]
      simp only [hc]
      rfl
    · refine hrun.frameEnds (.cell c 0) rfl (fun g => ?_) ?_ ?_ ?_ hfetch
      · by_cases hg : g = f
        · rw [hg, hf]
        · rw [hne g hg]
      · rw [hf]
      · rw [hf]
      · rw [hf]
        exact hretp
  | none =>
    cases hretp : (st.heap.frames f).retp with
    | none =>
      exact absurd hretp (hresult.mp hc)
    | some r =>
      obtain ⟨caller, slot⟩ := r
      let c := st.heap.ncells
      let v : Frame n := { st.heap.frames caller with
        data := Function.update (st.heap.frames caller).data slot (.cell c 0) }
      let frames := Function.update st.heap.frames caller v
      let h' : Heap n := { st.heap with
        cells := Function.update st.heap.cells c (.cap arity address fno fileno lineno data)
        ncells := c + 1
        frames := Function.update frames f { frames f with retp := none } }
      have hf : h'.frames f = { frames f with retp := none } := Function.update_self ..
      have hne : ∀ g, g ≠ f → h'.frames g = frames g := fun g hg => Function.update_of_ne hg ..
      have hv : frames caller = v := Function.update_self ..
      have hother : ∀ g, g ≠ caller → frames g = st.heap.frames g :=
        fun g hg => Function.update_of_ne hg ..
      -- the caller only gets the pointer in a slot
      have hframes : ∀ g, (frames g).state = (st.heap.frames g).state ∧
          (frames g).wq = (st.heap.frames g).wq ∧ (frames g).c = (st.heap.frames g).c := by
        intro g
        by_cases hg : g = caller
        · rw [hg, hv]
          exact ⟨rfl, rfl, rfl⟩
        · rw [hother g hg]
          exact ⟨rfl, rfl, rfl⟩
      refine ⟨c, h', Function.update_self .., .inr ⟨caller, slot, hretp, ?_⟩, ?_, fun hfetch => ?_⟩
      · have hdata : (h'.frames caller).data = (frames caller).data := by
          by_cases hg : caller = f
          · rw [hg, hf]
          · rw [hne caller hg]
        rw [hdata, hv]
        exact Function.update_self ..
      · rw [returnCap, getFrame_bind]
        simp only [hc]
        show (onHeap (allocCell _) >>= fun c => need (st.heap.frames f).retp >>= _ : InterpM n Unit)
          st = _
        rw [hretp]
        rfl
      · refine hrun.frameEnds (.cell c 0) rfl (fun g => ?_) ?_ ?_ ?_ hfetch
        · by_cases hg : g = f
          · rw [hg, hf]
            exact (hframes f).1
          · rw [hne g hg]
            exact (hframes g).1
        · rw [hf]
          exact (hframes f).2.1
        · rw [hf]
          exact (hframes f).2.2.trans hc
        · rw [hf]

/-- A DO with too few arguments. -/
theorem doCap_short (hrun : Running st.heap f) (h : s + held.length < arity) :
    ReturnsCap e tid f arity address fno fileno lineno st
      ((doCap e prog tid f s arity address fno fileno lineno held st).map (fun r => (none, r.2)))
      (held.reverse ++ argsOf (st.heap.frames f).data s) := by
  obtain ⟨c, h', hcell, hdel, hret, hend⟩ := returnCap_spec e tid arity address fno
    fileno lineno hrun (stackList (st.heap.frames f).data s ++ held)
  have hdo : doCap e prog tid f s arity address fno fileno lineno held st =
      frameEnds e tid f (.cell c 0) ⟨h', st.acct⟩ := by
    refine Eq.trans ?_ hret
    show (if s + held.length < arity then _ else _ : InterpM n Unit) st = _
    rw [if_pos h]
  refine ⟨c, _, ⟨h', st.acct⟩, hcell, ?_, hdel, by rw [hdo], fun hfetch => ?_⟩
  · rw [List.reverse_append, reverse_stackList]
  · obtain ⟨h'', hrun', hcells, hdata⟩ := hend hfetch
    exact ⟨⟨h'', st.acct⟩, by rw [hdo, hrun']; rfl, hcells, hdata⟩

/-- A DO with exactly the arguments that were missing. -/
theorem doCap_exact (h : s + held.length = arity) (hstart : prog.globstartAt address = true) :
    EntersCode f address st
      ((doCap e prog tid f s arity address fno fileno lineno held st).map (fun r => (none, r.2)))
      (held.reverse ++ argsOf (st.heap.frames f).data s) := by
  refine ⟨storeFrom (st.heap.frames f).data s held, ?_, ?_⟩
  · rw [List.length_append, List.length_reverse, length_argsOf, Nat.add_comm, argsOf_storeFrom]
  · have hdo : doCap e prog tid f s arity address fno fileno lineno held st =
        (check (prog.globstartAt address = true) >>= fun _ => onHeap (setFrame f
          { st.heap.frames f with
            instr := address + 1, data := storeFrom (st.heap.frames f).data s held }) :
          InterpM n Unit) st := by
      show (if s + held.length < arity then _ else if s + held.length = arity then _ else _ :
        InterpM n Unit) st = _
      rw [if_neg (by omega), if_pos h]
    rw [hdo, check_true hstart]
    rfl

/-- A frame that is made is new, and the slot points to its cell. -/
theorem opMkframe_spec {h : Heap n} (hf : f < h.nframes) (instr slot : Nat) (data : Nat → Pntr) :
    opMkframe tid f instr slot data h = some ((), { h with
      cells := Function.update h.cells h.ncells (.frame h.nframes)
      ncells := h.ncells + 1
      frames := Function.update (Function.update h.frames h.nframes
        { instr := instr, state := .new, c := some h.ncells, data := data,
          origin := some (tid, h.nframes) }) f
        { h.frames f with data := Function.update (h.frames f).data slot (.cell h.ncells 0) }
      nframes := h.nframes + 1 }) := by
  let v : Frame n :=
    { instr := instr, state := .new, data := data, origin := some (tid, h.nframes) }
  let made := Function.update h.frames h.nframes v
  let made' := Function.update made h.nframes { made h.nframes with c := some h.ncells }
  have hnew : made h.nframes = v := Function.update_self ..
  have hmade : made' = Function.update h.frames h.nframes { v with c := some h.ncells } := by
    show Function.update (Function.update h.frames h.nframes v) _ { made h.nframes with c := _ } = _
    rw [Function.update_idem, hnew]
  have hother : made' f = h.frames f := by
    rw [hmade]
    exact Function.update_of_ne (Nat.ne_of_lt hf) ..
  have hrun : opMkframe tid f instr slot data h = some ((), { h with
      cells := Function.update h.cells h.ncells (.frame h.nframes)
      ncells := h.ncells + 1
      frames := Function.update made' f
        { made' f with data := Function.update (made' f).data slot (.cell h.ncells 0) }
      nframes := h.nframes + 1 }) := rfl
  rw [hrun, hother, hmade]

/-- The instructions of the table for `k + 1` slots. -/
theorem evaldo_at {code : List Instr} (hprog : compileEvaldo code = some prog) {k : Nat}
    (hmax : ∃ i ∈ prog.instructions, k + 2 ≤ i.expcount) :
    ∃ si si', prog.instructions[prog.evaldoaddr + k * evaldoSequenceSize]? =
        some ⟨.eval k, k + 1, si⟩ ∧
      prog.instructions[prog.evaldoaddr + k * evaldoSequenceSize + 1]? =
        some ⟨.do_ false, k + 1, si'⟩ := by
  obtain ⟨table, htable, -, hall, hat⟩ := compileEvaldo_spec code
  obtain rfl : prog = ⟨code ++ table, code.length⟩ := Option.some.inj (hprog.symm.trans htable)
  have hlt : (k : Int) + 2 ≤ maxcount code := by
    obtain ⟨i, hi, hk⟩ := hmax
    rcases List.mem_append.mp hi with hi | hi
    · have := le_maxcount hi
      omega
    · have := hall i hi
      omega
  obtain ⟨si, si', h₁, h₂⟩ := hat k (by omega)
  refine ⟨si, si', ?_, ?_⟩
  · rw [List.getElem?_append_right (Nat.le_add_right _ _), Nat.add_sub_cancel_left]
    exact h₁
  · show (code ++ table)[code.length + k * evaldoSequenceSize + 1]? = _
    rw [List.getElem?_append_right (by omega), Nat.add_assoc, Nat.add_sub_cancel_left]
    exact h₂

/-- A DO with more arguments than were missing. -/
theorem doCap_over {code : List Instr} (hprog : compileEvaldo code = some prog)
    (hf : f < st.heap.nframes) (hheld : held.length < arity) (h : arity < s + held.length)
    (hstart : prog.globstartAt address = true) (hmax : ∃ i ∈ prog.instructions, s + 1 ≤ i.expcount) :
    CallsThen prog tid f address st
      ((doCap e prog tid f s arity address fno fileno lineno held st).map (fun r => (none, r.2)))
      ((held.reverse ++ argsOf (st.heap.frames f).data s).take arity)
      ((held.reverse ++ argsOf (st.heap.frames f).data s).drop arity) := by
  generalize hextra : arity - held.length = extra
  have hle : extra ≤ s := by omega
  let fr := st.heap.frames f
  let l := (stackList fr.data s).drop (s - extra) ++ held
  let slot := s - extra
  have hl : l.length = arity := by
    simp only [l, List.length_append, List.length_drop, length_stackList]
    omega
  have hargs : (held.reverse ++ argsOf fr.data s).take arity = l.reverse := by
    rw [List.take_append, List.take_of_length_le (by rw [List.length_reverse]; omega),
      List.length_reverse, hextra, ← argsOf_take, ← List.reverse_append]
  have hrest : (held.reverse ++ argsOf fr.data s).drop arity = argsOf fr.data slot := by
    rw [List.drop_append, List.drop_of_length_le (by rw [List.length_reverse]; omega),
      List.length_reverse, hextra, List.nil_append, argsOf_drop]
  obtain ⟨si, si', heval, hdo⟩ := evaldo_at hprog (k := slot) (by
    obtain ⟨i, hi, hk⟩ := hmax
    exact ⟨i, hi, by omega⟩)
  rw [hargs, hrest]
  have hslot : (argsOf fr.data slot).length = slot := length_argsOf ..
  -- the frame that is made, and the one that goes on
  let newf : Frame n :=
    { instr := address + 1, state := .new, c := some st.heap.ncells, data := slots l,
      origin := some (tid, st.heap.nframes) }
  let v : Frame n := { fr with
    instr := prog.evaldoaddr + slot * evaldoSequenceSize
    data := Function.update fr.data slot (.cell st.heap.ncells 0) }
  let made := Function.update st.heap.frames st.heap.nframes newf
  let frames := Function.update made f v
  let h' : Heap n := { st.heap with
    cells := Function.update st.heap.cells st.heap.ncells (.frame st.heap.nframes)
    ncells := st.heap.ncells + 1
    frames := frames
    nframes := st.heap.nframes + 1 }
  have hv : frames f = v := Function.update_self ..
  have hnewf : frames st.heap.nframes = newf := by
    show Function.update made f v st.heap.nframes = _
    rw [Function.update_of_ne (by omega)]
    exact Function.update_self ..
  let h₁ : Heap n := { h' with frames := Function.update made f { fr with data := v.data } }
  have hrun : (doCap e prog tid f s arity address fno fileno lineno held st).map
      (fun r => ((none : Option String), r.2)) = some (none, { st with heap := h' }) := by
    have hframes : h₁.frames f = { fr with data := v.data } := Function.update_self ..
    have hdo : doCap e prog tid f s arity address fno fileno lineno held st =
        some ((), { st with heap := { h₁ with
          frames := Function.update h₁.frames f { h₁.frames f with
            instr := prog.evaldoaddr + (s + 1 - (arity - held.length) - 1) *
              evaldoSequenceSize } } }) := by
      show (if s + held.length < arity then _ else if s + held.length = arity then _ else _ :
        InterpM n Unit) st = _
      rw [if_neg (by omega), if_neg (by omega), check_true hstart]
      refine bind_eq_some.mpr ⟨(), st, rfl, bind_eq_some.mpr ⟨(), { st with heap := h₁ }, ?_, rfl⟩⟩
      rw [hextra]
      exact zoom_eq_some.mpr ⟨h₁, opMkframe_spec hf .., rfl⟩
    rw [hdo, hframes, hextra, show s + 1 - extra - 1 = slot by omega]
    show some (none, { st with heap := { h₁ with frames := Function.update h₁.frames f v } }) = _
    rw [show Function.update h₁.frames f v = frames from Function.update_idem ..]
  refine ⟨{ st with heap := h' }, slots l, si, si', hrun, rfl, rfl, hnewf, ?_, fun g hg hg' => ?_,
    ?_, ?_, ?_, ?_, ?_⟩
  · rw [List.length_reverse, argsOf_slots_eq]
  · show Function.update made f v g = _
    rw [Function.update_of_ne hg]
    exact Function.update_of_ne hg' ..
  · show argsOf (frames f).data _ = _
    rw [hv, hslot]
    refine argsOf_congr (fun k hk => ?_)
    exact Function.update_of_ne (Nat.ne_of_lt hk) ..
  · show (frames f).data _ = _
    rw [hv, hslot]
    exact Function.update_self ..
  · show prog.evaldoaddr ≤ (frames f).instr
    rw [hv]
    exact Nat.le_add_right _ _
  · show prog.instructions[(frames f).instr]? = _
    rw [hv, hslot]
    exact heval
  · show prog.instructions[(frames f).instr + 1]? = _
    rw [hv, hslot]
    exact hdo

/-- What is to be seen of a run for each kind of application -/
def Carries (e : Env n) (prog : Program) (tid : Fin n)
    (f arity address fno fileno lineno : Nat) (st : Interp n)
    (run : Option (Option String × Interp n)) : Applied Pntr → Prop
  | .cap args => ReturnsCap e tid f arity address fno fileno lineno st run args
  | .call args => EntersCode f address st run args
  | .callThen args rest => CallsThen prog tid f address st run args rest

theorem bind_pure_map {α : Type} (m : InterpM n Unit) (a : α) (st : Interp n) :
    (m >>= fun _ => pure a : InterpM n α) st = (m st).map (fun r => (a, r.2)) := by
  show (m st).bind (fun r => some (a, r.2)) = _
  cases m st with
  | none => rfl
  | some r => rfl

/-- DO is application: with too few arguments it returns a function that holds them all, with exactly
as many as are missing it goes on in the code of the function, and with more it makes the call and
goes on in the table, where the result is applied to the rest. -/
theorem opDo_applies {code : List Instr} (hprog : compileEvaldo code = some prog)
    (hrun : Running st.heap f)
    (hcap : st.heap.at ((st.heap.frames f).data s) =
      some (.cap arity address fno fileno lineno held))
    (hheld : held.length < arity) (hstart : prog.globstartAt address = true)
    (hmax : ∃ i ∈ prog.instructions, s + 1 ≤ i.expcount) :
    Carries e prog tid f arity address fno fileno lineno st (opDo e prog tid f (s + 1) arg0 st)
      (applyTo arity held.reverse (argsOf (st.heap.frames f).data s)) := by
  have hdo : opDo e prog tid f (s + 1) arg0 st =
      (doCap e prog tid f s arity address fno fileno lineno held st).map (fun r => (none, r.2)) := by
    show (match st.heap.at ((st.heap.frames f).data s) with
      | some (.cap ..) => _
      | some (.ind _) => _
      | _ => _ : InterpM n (Option String)) st = _
    rw [hcap]
    exact bind_pure_map ..
  have hlen : (held.reverse ++ argsOf (st.heap.frames f).data s).length = s + held.length := by
    rw [List.length_append, List.length_reverse, length_argsOf, Nat.add_comm]
  rw [hdo, applyTo, hlen]
  rcases Nat.lt_trichotomy (s + held.length) arity with hlt | heq | hgt
  · rw [if_pos hlt]
    exact doCap_short hrun hlt
  · rw [if_neg (by omega), if_pos heq]
    exact doCap_exact heq hstart
  · rw [if_neg (by omega), if_neg (by omega)]
    exact doCap_over hprog hrun.allocated hheld hgt hstart hmax

end

/-- A function of two arguments, with three slots -/
def curriedCode : List Instr := [⟨.globstart (.sc 0) 2, 2, []⟩, ⟨.ret, 3, []⟩]

def curriedEnv : Env 1 where
  expcount := fun a => if a = 9 then 3 else 1
  fno := fun _ => 0
  funAddress := fun _ => 0
  numBuiltins := 1
  buildarray := 9
  optBuildarray := false
  optFishhalf := false
  optFishframes := 1
  expand := fun cells k _ => (cells, k)
  atBif := fun _ => false
  buildarray_expcount := rfl
  wrapper_expcount := fun _ h => by cases h

/-- The frame has 7 and 6 on its stack, and above them the function with 5 as its first argument. -/
def curriedHeap : Heap 1 where
  cells := fun c => match c with
    | 0 => .frame 0
    | 1 => .cap 2 0 0 0 0 [.number 5]
    | _ => .empty
  ncells := 2
  frames := fun f => match f with
    | 0 => { c := some 0, state := .active, data := slots [.number 7, .number 6, .cell 1 0] }
    | _ => {}
  nframes := 1
  runq := [0]

theorem curriedHeap_running : Running curriedHeap 0 where
  allocated := Nat.one_pos
  state := rfl
  first := rfl
  result := ⟨nofun, fun h => absurd rfl h⟩
  waiters := nofun

/-- The call is made with 5 and 6, and its result will be applied to 7. -/
theorem opDo_applies_three : ∃ prog, compileEvaldo curriedCode = some prog ∧
    CallsThen prog 0 0 0 ⟨curriedHeap, {}⟩ (opDo curriedEnv prog 0 0 3 false ⟨curriedHeap, {}⟩)
      [.number 5, .number 6] [.number 7] := by
  obtain ⟨table, htable, -⟩ := compileEvaldo_spec curriedCode
  refine ⟨_, htable, ?_⟩
  have hcap : (Interp.mk curriedHeap {}).heap.at ((curriedHeap.frames 0).data 2) =
    some (.cap 2 0 0 0 0 [.number 5]) := rfl
  exact opDo_applies htable curriedHeap_running hcap (by decide) rfl
    ⟨⟨.ret, 3, []⟩, List.mem_append_left _ (by decide), Nat.le_refl _⟩

end Runtime
end NReduce
