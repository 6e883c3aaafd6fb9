import NReduce.Bytecode.Exec
import NReduce.Bytecode.PeepholeFlow

/-!
# NReduce.Bytecode.Agree

An instruction reads only the slots that are in use before it, so what it does is the same in two
frames that agree on these. Also here: runs on absolute addresses, and the relation between runs
that allows a `SPARK` to be dropped in front of the `EVAL` of the same value.
-/

namespace NReduce
namespace Bytecode

open Compiler

/-- The lowest `n` slots are the same. -/
def Agree {V : Type} (n : Nat) (data data' : Nat → V) : Prop := ∀ k < n, data k = data' k

section Agree

variable {V : Type} {n m : Nat} {data data' : Nat → V}

theorem Agree.refl (n : Nat) (data : Nat → V) : Agree n data data := fun _ _ => rfl

theorem Agree.mono (h : Agree n data data') (hm : m ≤ n) : Agree m data data' :=
  fun k hk => h k (by omega)

theorem Agree.update (h : Agree n data data') (slot : Nat) (v : V)
    (hm : ∀ k < m, k ≠ slot → k < n) :
    Agree m (Function.update data slot v) (Function.update data' slot v) := by
  intro k hk
  by_cases hs : k = slot
  · rw [hs, Function.update_self, Function.update_self]
  · rw [Function.update_of_ne hs, Function.update_of_ne hs]
    exact h k (hm k hk hs)

theorem Agree.slots (h : Agree n data data') {k : Nat} (hk : k ≤ n) :
    slots data n k = slots data' n k := by
  unfold Bytecode.slots
  refine List.map_congr_left (fun j hj => ?_)
  rw [List.mem_range] at hj
  exact h _ (by omega)

end Agree

/-- Two frames go on in the same way, and their lowest `n` slots are the same. -/
inductive Next.Agrees {V S : Type} (n : Nat) : Next V S → Next V S → Prop where
  | fall {data data' : Nat → V} {w : S} {events : List (Event V)} (h : Agree n data data') :
    Agrees n (.fall data w events) (.fall data' w events)
  | goto {addr : Nat} {data data' : Nat → V} {w : S} {events : List (Event V)}
    (h : Agree n data data') : Agrees n (.goto addr data w events) (.goto addr data' w events)
  | stop (events : List (Event V)) (outcome : Outcome V) :
    Agrees n (.stop events outcome) (.stop events outcome)

section Step

variable {V : Type} {world : World V} {n m : Nat} {data data' : Nat → V} {w : world.State}

theorem ask_agrees (h : Agree n data data') (req : Request V) (slot : Nat)
    (hm : ∀ k < m, k ≠ slot → k < n) :
    Next.Agrees m (ask world w req data slot) (ask world w req data' slot) := by
  unfold ask
  cases world.apply w req with
  | none => exact .stop _ _
  | some r => exact .fall (h.update slot r.1 hm)

theorem evalSlot_agrees (h : Agree n data data') {slot : Nat} (hs : slot < n) :
    Next.Agrees n (evalSlot world w data slot) (evalSlot world w data' slot) := by
  unfold evalSlot
  rw [h slot hs]
  cases world.value w (data' slot) with
  | none => exact ask_agrees h _ _ (fun _ hk _ => hk)
  | some v => exact .fall (h.update slot v (fun _ hk _ => hk))

theorem allocSlots_agrees {base : Nat} : ∀ {k j : Nat} {w : world.State} {data data' : Nat → V}
    {events : List (Event V)}, Agree (base + j) data data' →
    Next.Agrees (base + j + k) (allocSlots world base k j w data events)
      (allocSlots world base k j w data' events)
  | 0, _, _, _, _, _, h => .fall h
  | k + 1, j, w, data, data', events, h => by
    unfold allocSlots
    cases world.apply w .alloc with
    | none => exact .stop _ _
    | some r =>
      rw [show base + j + (k + 1) = base + (j + 1) + k by omega]
      exact allocSlots_agrees (h.update (base + j) r.1 (by omega))

theorem popStatus_length {n : Nat} {si si' : List Status} (h : popStatus n si = some si') :
    n ≤ si.length ∧ si'.length = si.length - n := by
  obtain ⟨hle, rfl⟩ := popStatus_some h
  exact ⟨hle, by rw [List.length_take]; omega⟩

/-- Instructions that replace their `k` operands by one result. -/
theorem post_replaces {o : Op} {k : Nat} {st : Status} {si post : List Status}
    (ho : o.post si = (popStatus k si).map (· ++ [st])) (hp : o.post si = some post) :
    k ≤ si.length ∧ post.length = si.length - k + 1 := by
  rw [ho, Option.map_eq_some_iff] at hp
  obtain ⟨base, hbase, rfl⟩ := hp
  obtain ⟨hle, hlen⟩ := popStatus_length hbase
  exact ⟨hle, by rw [List.length_append, hlen]; rfl⟩

theorem getLast?_ne_none_pos {si : List Status} {st : Status} (h : si.getLast? = some st) :
    0 < si.length := by
  cases si with
  | nil => cases h
  | cons a l => exact Nat.succ_pos _

/-- The two arguments of a comparison. -/
theorem isComparison_nargs {b : Bif} (h : isComparison b = true) :
    (builtinInfo b).nargs = 2 ∧ (builtinInfo b).nstrict = 2 := by
  cases b <;> first | exact ⟨rfl, rfl⟩ | (simp [isComparison] at h)

theorem compareValues_agree {b : Bif} (h : Agree n data data') (hn : 2 ≤ n) :
    compareValues world w b (data (n - 1)) (data (n - 2)) =
      compareValues world w b (data' (n - 1)) (data' (n - 2)) := by
  rw [h (n - 1) (by omega), h (n - 2) (by omega)]

theorem step_agrees {i : Instr} {post : List Status} (hd : i.expcount = i.si.length)
    (hr : i.op.ready i.si) (hp : i.op.post i.si = some post) (h : Agree i.si.length data data') :
    Next.Agrees post.length (step world i w data) (step world i w data') := by
  obtain ⟨op, e, si⟩ := i
  simp only at hd hr hp h
  subst hd
  -- an instruction that asks for something with its `k` topmost slots
  have hreplace : ∀ {k : Nat} (req : List V → Request V),
      k ≤ si.length ∧ post.length = si.length - k + 1 →
      Next.Agrees post.length (ask world w (req (slots data si.length k)) data (si.length - k))
        (ask world w (req (slots data' si.length k)) data' (si.length - k)) := by
    intro k req hk
    rw [h.slots hk.1]
    exact ask_agrees h _ _ (by omega)
  have hpush : ∀ v : V, post.length = si.length + 1 →
      Next.Agrees post.length (.fall (Function.update data si.length v) w [])
        (Next.fall (Function.update data' si.length v) w []) := by
    intro v hlen
    exact .fall (h.update _ _ (by omega))
  by_cases hbif : ∃ b, op = .bif b
  · obtain ⟨b, rfl⟩ := hbif
    have hk := post_replaces (k := (builtinInfo b).nargs) (by simp [Op.post, Op.effect]; rfl) hp
    simp only [step]
    split
    · rename_i hb
      have h2 := (isComparison_nargs hb).1
      rw [h.slots hk.1, compareValues_agree h (by omega)]
      cases compareValues world w b (data' (si.length - 1)) (data' (si.length - 2)) with
      | none => exact .stop _ _
      | some r => exact .fall (h.update _ _ (by omega))
    · exact hreplace (Request.bif b) hk
  cases op with
  | begin_ | globstart =>
    cases hp
    exact .fall h
  | pop k =>
    simp only [Op.post, Op.effect, Option.map_map, Option.map_eq_some_iff, Function.comp] at hp
    obtain ⟨base, hbase, rfl⟩ := hp
    exact .fall (h.mono (by have := popStatus_length hbase; omega))
  | end_ | error | invalid => exact .stop _ _
  | spark pos =>
    simp only [Op.post, Op.effect, Option.map_map, Option.map_eq_some_iff, Function.comp] at hp
    obtain ⟨st, hst, rfl⟩ := hp
    have hpos := (List.getElem?_eq_some_iff.mp hst).1
    have hlen : (if st = Status.unknown then StackInfo.mk (si.set pos .sparked) false
        else ⟨si, false⟩).si.length = si.length := by split <;> simp
    rw [hlen]
    simp only [step]
    rw [h pos hpos]
    cases world.value w (data' pos) with
    | none => exact .fall h
    | some v => exact .fall h
  | ret =>
    have hpos := getLast?_ne_none_pos hr
    simp only [step]
    rw [h _ (by omega)]
    exact .stop _ _
  | do_ flag =>
    simp only [step]
    rw [h.slots (Nat.le_refl _)]
    exact .stop _ _
  | jfun fno mode =>
    simp only [step]
    rw [h.slots (Nat.le_refl _)]
    exact .stop _ _
  | jfalse addr =>
    have hpos := getLast?_ne_none_pos hr
    simp only [Op.post, Op.effect, Option.map_map, Option.map_eq_some_iff, Function.comp] at hp
    obtain ⟨base, hbase, rfl⟩ := hp
    have hlen := (popStatus_length hbase).2
    have hbase : Agree base.length data data' := h.mono (by omega)
    simp only [step]
    rw [h _ (by omega)]
    cases world.kind w (data' (si.length - 1)) with
    | cap => exact .stop _ _
    | nil => exact .goto hbase
    | number d => exact .fall hbase
    | other => exact .fall hbase
  | jump addr =>
    cases hp
    exact .goto h
  | push pos =>
    obtain ⟨st, hst, rfl⟩ := post_push hp
    have hpos := (List.getElem?_eq_some_iff.mp hst).1
    simp only [step]
    rw [h pos hpos]
    exact hpush _ (by simp)
  | update pos =>
    simp only [Op.post, Op.effect, Option.map_eq_some_iff, Option.bind_eq_bind,
      Option.bind_eq_some_iff] at hp
    obtain ⟨e, ⟨top, htop, hp⟩, rfl⟩ := hp
    split at hp
    case isFalse => cases hp
    rename_i hpos
    rw [Option.map_eq_some_iff] at hp
    obtain ⟨base, hbase, rfl⟩ := hp
    have hlen := (popStatus_length hbase).2
    rw [List.length_set] at hlen
    simp only [step]
    rw [h pos hpos, h (si.length - 1) (by omega)]
    exact ask_agrees h _ _ (by omega)
  | alloc k =>
    simp only [Op.post, Op.effect, Option.map_some, Option.some.injEq] at hp
    subst hp
    rw [List.length_append, List.length_replicate]
    exact allocSlots_agrees (j := 0) h
  | squeeze count remove =>
    simp only [Op.post, Op.effect] at hp
    split at hp
    case isFalse => cases hp
    rename_i hle
    cases hp
    refine .fall (fun k hk => ?_)
    simp only [List.length_append, List.length_take, List.length_drop] at hk ⊢
    split
    · exact h _ (by omega)
    · exact h _ (by omega)
  | mkcap fno k =>
    exact hreplace (Request.mkcap fno) (post_replaces (by simp [Op.post, Op.effect]; rfl) hp)
  | mkframe fno k =>
    exact hreplace (Request.mkframe fno) (post_replaces (by simp [Op.post, Op.effect]; rfl) hp)
  | pushnil =>
    cases hp
    exact hpush _ (by simp)
  | pushnumber d =>
    cases hp
    exact hpush _ (by simp)
  | pushstring k =>
    cases hp
    exact hpush _ (by simp)
  | eval pos =>
    obtain ⟨hpos, rfl⟩ := post_eval hp
    rw [List.length_set]
    exact evalSlot_agrees h hpos
  | call fno k =>
    have hk := post_replaces (k := k) rfl hp
    simp only [step]
    rw [h.slots hk.1]
    cases world.apply w (.mkframe fno (slots data' si.length k)) with
    | none => exact .stop _ _
    | some r =>
      simp only
      cases world.apply r.2 (.eval r.1) with
      | none => exact .stop _ _
      | some r' => exact .fall (h.update _ _ (by omega))
  | jcmp addr b =>
    have hlen := popStatus_length hp
    have hbase : Agree post.length data data' := h.mono (by omega)
    simp only [step]
    rw [h.slots hlen.1, compareValues_agree h hlen.1]
    cases compareValues world w b (data' (si.length - 1)) (data' (si.length - 2)) with
    | none => exact .stop _ _
    | some r =>
      cases r with
      | true => exact .fall hbase
      | false => exact .goto hbase
  | consn k =>
    exact hreplace Request.consn (post_replaces (by simp [Op.post, Op.effect]; rfl) hp)
  | itemn index flag =>
    have hk := post_replaces (k := 1) (by simp [Op.post, Op.effect]; rfl) hp
    simp only [step]
    rw [h (si.length - 1) (by omega)]
    exact ask_agrees h _ _ (by omega)
  | jeq addr v =>
    have hpos := getLast?_ne_none_pos hr
    obtain rfl := post_jeq hp
    simp only [step]
    rw [h _ (by omega)]
    cases world.kind w (data' (post.length - 1)) with
    | number d =>
      simp only
      split
      · exact .goto h
      · exact .fall h
    | nil => exact .stop _ _
    | cap => exact .stop _ _
    | other => exact .stop _ _
  | _ => exact absurd ⟨_, rfl⟩ hbif

/-! ## Runs on absolute addresses -/

/-- Jumps go forward. -/
def Forward (A : List Instr) : Prop :=
  ∀ {p t : Nat} {i : Instr}, A[p]? = some i → i.op.target = some t → p < t

theorem Compiled.forward {A : List Instr} (h : Compiled A) : Forward A := by
  intro p t i hi ht
  obtain ⟨post, hp⟩ := h.post hi
  exact (h.jump hi ht hp).1

theorem ask_ne_goto {req : Request V} {slot addr : Nat} {data data1 : Nat → V}
    {w w1 : world.State} {events : List (Event V)} :
    ask world w req data slot ≠ .goto addr data1 w1 events := by
  unfold ask
  split <;> exact nofun

theorem allocSlots_ne_goto {base addr : Nat} {data1 : Nat → V} {w1 : world.State}
    {events1 : List (Event V)} : ∀ {k j : Nat} {w : world.State} {data : Nat → V}
    {events : List (Event V)},
    allocSlots world base k j w data events ≠ .goto addr data1 w1 events1
  | 0, _, _, _, _ => nofun
  | k + 1, j, w, data, events => by
    unfold allocSlots
    split
    · exact allocSlots_ne_goto
    · exact nofun

/-- Control goes elsewhere only through the argument of a jump. -/
theorem step_goto {i : Instr} {addr : Nat} {data data1 : Nat → V} {w w1 : world.State}
    {events : List (Event V)} (h : step world i w data = .goto addr data1 w1 events) :
    i.op.target = some addr := by
  obtain ⟨op, n, si⟩ := i
  by_cases hbif : ∃ b, op = .bif b
  · obtain ⟨b, rfl⟩ := hbif
    simp only [step] at h
    split at h
    · split at h <;> cases h
    · exact absurd h ask_ne_goto
  simp only [step] at h
  cases op with
  | jump addr =>
    cases h
    rfl
  | jfalse addr =>
    simp only at h
    split at h <;> cases h
    rfl
  | jcmp addr b =>
    simp only at h
    split at h <;> cases h
    rfl
  | jeq addr v =>
    simp only at h
    split at h
    · split at h <;> cases h
      rfl
    · cases h
  | spark pos =>
    simp only at h
    split at h <;> cases h
  | eval pos =>
    simp only [evalSlot] at h
    split at h
    · cases h
    · exact absurd h ask_ne_goto
  | call fno k =>
    simp only at h
    split at h
    · split at h <;> cases h
    · cases h
  | alloc k => exact absurd h allocSlots_ne_goto
  | update => exact absurd h ask_ne_goto
  | mkcap => exact absurd h ask_ne_goto
  | mkframe => exact absurd h ask_ne_goto
  | consn => exact absurd h ask_ne_goto
  | itemn => exact absurd h ask_ne_goto
  | _ => first | cases h | exact absurd ⟨_, rfl⟩ hbif

/-- Control falls through only where it may. -/
theorem step_fall {i : Instr} {data data1 : Nat → V} {w w1 : world.State}
    {events : List (Event V)} (h : step world i w data = .fall data1 w1 events) :
    i.op.falls = true := by
  obtain ⟨op, n, si⟩ := i
  cases op <;> first | rfl | cases h

/-- An instruction with another target does the same and goes there. -/
theorem step_mapTarget (f : Nat → Nat) (i : Instr) (w : world.State) (data : Nat → V) :
    step world (i.mapTarget f) w data =
      match step world i w data with
      | .fall data1 w1 events => .fall data1 w1 events
      | .goto addr data1 w1 events => .goto (f addr) data1 w1 events
      | .stop events outcome => .stop events outcome := by
  cases ht : i.op.target with
  | none =>
    rw [Instr.mapTarget_of_none f ht]
    split
    · assumption
    · rename_i h
      rw [step_goto h] at ht
      cases ht
    · assumption
  | some d =>
    obtain ⟨op, n, si⟩ := i
    cases op <;> try cases ht
    · simp only [Instr.mapTarget, Op.target, Op.setTarget, step]
      cases world.kind w (data (n - 1)) <;> rfl
    · rfl
    · simp only [Instr.mapTarget, Op.target, Op.setTarget, step]
      cases compareValues world w _ (data (n - 1)) (data (n - 2)) with
      | none => rfl
      | some r => cases r <;> rfl
    · simp only [Instr.mapTarget, Op.target, Op.setTarget, step]
      cases world.kind w (data (n - 1)) with
      | number x =>
        simp only
        split <;> rfl
      | _ => rfl

variable (world) in
/-- A run of code with absolute addresses. -/
def runAt (A : List Instr) (p : Nat) (w : world.State) (data : Nat → V) : Run V :=
  runFrom world (fun _ t => t) A (A.length - p) p w data

variable (world) in
/-- No jump that the run takes goes to a place where `bad` holds. -/
def avoids (bad : Nat → Bool) (goto : Nat → Nat → Nat) (code : List Instr) :
    Nat → Nat → world.State → (Nat → V) → Bool
  | 0, _, _, _ => true
  | fuel + 1, pc, w, data =>
    match code[pc]? with
    | none => true
    | some i =>
      match step world i w data with
      | .fall data' w' _ => avoids bad goto code fuel (pc + 1) w' data'
      | .goto addr data' w' _ =>
        !bad (goto pc addr) && avoids bad goto code fuel (goto pc addr) w' data'
      | .stop _ _ => true

variable (world) in
def AvoidsAt (bad : Nat → Bool) (A : List Instr) (p : Nat) (w : world.State) (data : Nat → V) :
    Prop :=
  avoids world bad (fun _ t => t) A (A.length - p) p w data = true

/-- More fuel than there are instructions changes nothing. -/
theorem runFrom_fuel {A : List Instr} (hA : Forward A) : ∀ {fuel fuel' p : Nat}
    {w : world.State} {data : Nat → V}, A.length - p ≤ fuel → A.length - p ≤ fuel' →
    runFrom world (fun _ t => t) A fuel p w data =
      runFrom world (fun _ t => t) A fuel' p w data := by
  have hzero : ∀ {fuel p : Nat} {w : world.State} {data : Nat → V}, A.length - p = 0 →
      runFrom world (fun _ t => t) A fuel p w data = ⟨[], .lost⟩ := by
    intro fuel p w data hp
    cases fuel with
    | zero => rfl
    | succ fuel =>
      have : A[p]? = none := List.getElem?_eq_none (by omega)
      simp only [runFrom, this]
  intro fuel
  induction fuel with
  | zero =>
    intro fuel' p w data h h'
    rw [hzero (by omega), hzero (by omega)]
  | succ fuel ih =>
    intro fuel' p w data h h'
    cases fuel' with
    | zero => rw [hzero (by omega), hzero (by omega)]
    | succ fuel' =>
      simp only [runFrom]
      cases hi : A[p]? with
      | none => rfl
      | some i =>
        have hlt := (List.getElem?_eq_some_iff.mp hi).1
        simp only
        cases hs : step world i w data with
        | fall data1 w1 events =>
          exact congrArg (Run.after events) (ih (by omega) (by omega))
        | goto t data1 w1 events =>
          have := hA hi (step_goto hs)
          exact congrArg (Run.after events) (ih (by omega) (by omega))
        | stop events outcome => rfl

theorem avoids_fuel {bad : Nat → Bool} {A : List Instr} (hA : Forward A) :
    ∀ {fuel fuel' p : Nat} {w : world.State} {data : Nat → V}, A.length - p ≤ fuel →
    A.length - p ≤ fuel' → avoids world bad (fun _ t => t) A fuel p w data =
      avoids world bad (fun _ t => t) A fuel' p w data := by
  have hzero : ∀ {fuel p : Nat} {w : world.State} {data : Nat → V}, A.length - p = 0 →
      avoids world bad (fun _ t => t) A fuel p w data = true := by
    intro fuel p w data hp
    cases fuel with
    | zero => rfl
    | succ fuel =>
      have : A[p]? = none := List.getElem?_eq_none (by omega)
      simp only [avoids, this]
  intro fuel
  induction fuel with
  | zero =>
    intro fuel' p w data h h'
    rw [hzero (by omega), hzero (by omega)]
  | succ fuel ih =>
    intro fuel' p w data h h'
    cases fuel' with
    | zero => rw [hzero (by omega), hzero (by omega)]
    | succ fuel' =>
      simp only [avoids]
      cases hi : A[p]? with
      | none => rfl
      | some i =>
        have hlt := (List.getElem?_eq_some_iff.mp hi).1
        simp only
        cases hs : step world i w data with
        | fall data1 w1 events => exact ih (by omega) (by omega)
        | goto t data1 w1 events =>
          have := hA hi (step_goto hs)
          exact congrArg (!bad t && ·) (ih (by omega) (by omega))
        | stop events outcome => rfl

/-- A run and the condition on it, one instruction at a time. -/
theorem runAt_eq {A : List Instr} (hA : Forward A) {p : Nat} {i : Instr} {w : world.State}
    {data : Nat → V} (hi : A[p]? = some i) :
    runAt world A p w data =
      match step world i w data with
      | .fall data1 w1 events => (runAt world A (p + 1) w1 data1).after events
      | .goto t data1 w1 events => (runAt world A t w1 data1).after events
      | .stop events outcome => ⟨events, outcome⟩ := by
  have hlt := (List.getElem?_eq_some_iff.mp hi).1
  unfold runAt
  rw [show A.length - p = A.length - (p + 1) + 1 by omega]
  simp only [runFrom, hi]
  cases hs : step world i w data with
  | fall data1 w1 events => rfl
  | goto t data1 w1 events =>
    have := hA hi (step_goto hs)
    simp only
    rw [runFrom_fuel hA (by omega) (Nat.le_refl _)]
  | stop events outcome => rfl

theorem avoidsAt_iff {bad : Nat → Bool} {A : List Instr} (hA : Forward A) {p : Nat} {i : Instr}
    {w : world.State} {data : Nat → V} (hi : A[p]? = some i) :
    AvoidsAt world bad A p w data ↔
      match step world i w data with
      | .fall data1 w1 _ => AvoidsAt world bad A (p + 1) w1 data1
      | .goto t data1 w1 _ => bad t = false ∧ AvoidsAt world bad A t w1 data1
      | .stop _ _ => True := by
  have hlt := (List.getElem?_eq_some_iff.mp hi).1
  unfold AvoidsAt
  rw [show A.length - p = A.length - (p + 1) + 1 by omega]
  simp only [avoids, hi]
  cases hs : step world i w data with
  | fall data1 w1 events => rfl
  | goto t data1 w1 events =>
    have := hA hi (step_goto hs)
    simp only [Bool.and_eq_true, Bool.not_eq_true']
    rw [avoids_fuel hA (by omega) (Nat.le_refl _)]
  | stop events outcome => simp

end Step

end Bytecode
end NReduce
