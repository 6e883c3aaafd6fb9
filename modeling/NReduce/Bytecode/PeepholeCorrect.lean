import NReduce.Bytecode.Agree
import NReduce.Bytecode.PeepholeRound

/-!
# NReduce.Bytecode.PeepholeCorrect

The peephole pass preserves what the code does, up to sparks in front of the evaluation of the same
value. There is one exception. In a chain of tests `PUSH a; EVAL; JEQ; POP; PUSH a; EVAL; JEQ`, the
second `PUSH` and `EVAL` are dropped because the value tested first is that of slot `a`. That is
wrong where a jump goes to the first `EVAL`: the value on top of the stack is then another one.
`entersChain` describes such jumps; runs that take none of them are preserved.
-/

namespace NReduce
namespace Bytecode

open Compiler

/-! ## Events -/

/-- Sparks are dropped in front of the evaluation of the same value. -/
inductive SparksMerged {V : Type} : List (Event V) → List (Event V) → Prop where
  | nil : SparksMerged [] []
  | keep (e : Event V) {l l' : List (Event V)} (h : SparksMerged l l') :
    SparksMerged (e :: l) (e :: l')
  | drop {v : V} {r : Option V} {l l' : List (Event V)}
    (h : SparksMerged l (⟨.eval v, r⟩ :: l')) :
    SparksMerged (⟨.spark v, none⟩ :: l) (⟨.eval v, r⟩ :: l')

section Merged

variable {V : Type}

theorem SparksMerged.refl : ∀ l : List (Event V), SparksMerged l l
  | [] => .nil
  | e :: l => .keep e (SparksMerged.refl l)

theorem SparksMerged.trans {l1 l2 l3 : List (Event V)} (h1 : SparksMerged l1 l2)
    (h2 : SparksMerged l2 l3) : SparksMerged l1 l3 := by
  induction h1 generalizing l3 with
  | nil => exact h2
  | keep e h ih =>
    cases h2 with
    | keep _ h2 => exact .keep e (ih h2)
    | drop h2 => exact .drop (ih h2)
  | drop h ih =>
    cases h2 with
    | keep _ h2 => exact .drop (ih (.keep _ h2))

theorem SparksMerged.append (es : List (Event V)) {l l' : List (Event V)}
    (h : SparksMerged l l') : SparksMerged (es ++ l) (es ++ l') := by
  induction es with
  | nil => exact h
  | cons e es ih => exact .keep e ih

/-- The second run does what the first does, except for merged sparks. -/
def Merged (r r' : Run V) : Prop := SparksMerged r.events r'.events ∧ r.outcome = r'.outcome

theorem Merged.refl (r : Run V) : Merged r r := ⟨SparksMerged.refl _, rfl⟩

theorem Merged.trans {r1 r2 r3 : Run V} (h1 : Merged r1 r2) (h2 : Merged r2 r3) :
    Merged r1 r3 :=
  ⟨h1.1.trans h2.1, h1.2.trans h2.2⟩

theorem Merged.after (es : List (Event V)) {r r' : Run V} (h : Merged r r') :
    Merged (r.after es) (r'.after es) :=
  ⟨h.1.append es, h.2⟩

theorem Run.after_nil (r : Run V) : r.after [] = r := rfl

theorem Run.after_after (es es' : List (Event V)) (r : Run V) :
    (r.after es').after es = r.after (es ++ es') := by
  simp [Run.after]

end Merged

/-! ## Jumps into a chain -/

/-- A jump to `t` goes to the `EVAL` after the first `PUSH` of a chain of at least two tests. -/
def entersChain (code : List Instr) : Nat → Bool
  | 0 => false
  | q + 1 =>
    match evalJeqChain (code.drop q) with
    | some w => (chainNext w.chain (code.drop (q + w.taken))).isSome
    | none => false

/-! ## One round -/

section Round

variable {V : Type} {world : World V}

/-- From `p` on, the new code does from `q` on what the old code does, in frames that agree on the
slots in use. -/
def Follows (world : World V) (A A' : List Instr) (p q : Nat) (w : world.State)
    (data : Nat → V) : Prop :=
  ∀ data' i, A[p]? = some i → Agree i.si.length data data' →
    AvoidsAt world (entersChain A) A p w data →
    Merged (runAt world A p w data) (runAt world A' q w data')

/-- What the tests of a chain rely on; `n` slots are in use. -/
def ChainData (chain : Option (Nat × Bool)) (n : Nat) (w : world.State) (data : Nat → V) : Prop :=
  match chain with
  | none => True
  | some (a, false) => data (n - 1) = data a
  | some (a, true) => world.value w (data a) = some (data (n - 1))

variable {A A' : List Instr} {M : Nat → Nat} {p q : Nat}

/-- An instruction that is kept, and what follows it. -/
theorem Ready.follows_keep (h : Ready A) (h' : Ready A') {i : Instr} {w : world.State}
    {data data' : Nat → V} (hi : A[p]? = some i) (hj : A'[q]? = some (i.mapTarget M))
    (hag : Agree i.si.length data data')
    (hav : AvoidsAt world (entersChain A) A p w data)
    (hfall : ∀ data1 w1 events, step world i w data = .fall data1 w1 events →
      Follows world A A' (p + 1) (q + 1) w1 data1)
    (hjump : ∀ t w1 data1, i.op.target = some t → entersChain A t = false →
      Follows world A A' t (M t) w1 data1) :
    Merged (runAt world A p w data) (runAt world A' q w data') := by
  obtain ⟨post, hp⟩ := h.compiled.post hi
  rw [runAt_eq h.compiled.forward hi, runAt_eq h'.compiled.forward hj, step_mapTarget]
  rw [avoidsAt_iff h.compiled.forward hi] at hav
  have hstep : Next.Agrees post.length (step world i w data) (step world i w data') :=
    step_agrees (h.compiled.depth hi) (h.compiled.ready hi) hp hag
  generalize hs : step world i w data = s at hstep hav
  generalize step world i w data' = s' at hstep
  cases hstep with
  | fall hag1 =>
    obtain ⟨j, hj, hb, -⟩ := h.compiled.fall hi (step_fall hs) hp
    exact (hfall _ _ _ hs _ j hj (hag1.mono hb.1) hav).after _
  | goto hag1 =>
    have ht := step_goto hs
    obtain ⟨-, j, hj, hb⟩ := h.compiled.jump hi ht hp
    exact (hjump _ _ _ ht hav.1 _ j hj (hag1.mono hb.1) hav.2).after _
  | stop events outcome => exact Merged.refl _

/-- One instruction of the old code that falls through. -/
theorem Ready.run_fall (h : Ready A) {i : Instr} {w w1 : world.State} {data data1 : Nat → V}
    {events : List (Event V)} (hi : A[p]? = some i)
    (hs : step world i w data = .fall data1 w1 events) :
    runAt world A p w data = (runAt world A (p + 1) w1 data1).after events ∧
      (AvoidsAt world (entersChain A) A p w data →
        AvoidsAt world (entersChain A) A (p + 1) w1 data1) := by
  rw [runAt_eq h.compiled.forward hi, avoidsAt_iff h.compiled.forward hi, hs]
  exact ⟨rfl, id⟩

theorem Ready.run_stop (h : Ready A) {i : Instr} {w : world.State} {data : Nat → V}
    {events : List (Event V)} {outcome : Outcome V} (hi : A[p]? = some i)
    (hs : step world i w data = .stop events outcome) :
    runAt world A p w data = ⟨events, outcome⟩ := by
  rw [runAt_eq h.compiled.forward hi, hs]

/-- The depth of the next instruction. -/
theorem Ready.next_depth (h : Ready A) {i j : Instr} {post : List Status} (hi : A[p]? = some i)
    (hj : A[p + 1]? = some j) (hf : i.op.falls = true) (hp : i.op.post i.si = some post) :
    j.si.length ≤ post.length := by
  obtain ⟨j', hj', hb, -⟩ := h.compiled.fall hi hf hp
  rw [hj] at hj'
  cases hj'
  exact hb.1

theorem Ready.follows_pop (h : Ready A) {i : Instr} {n : Nat} {w : world.State} {data : Nat → V}
    (hi : A[p]? = some i) (hop : i.op = .pop n) (hnext : Follows world A A' (p + 1) q w data) :
    Follows world A A' p q w data := by
  intro data' i' hi' hag hav
  rw [hi] at hi'
  cases hi'
  obtain ⟨post, hp⟩ := h.compiled.post hi
  obtain ⟨j, hj, hb, -⟩ := h.compiled.fall hi (by rw [hop]; rfl) hp
  have hs : step world i w data = .fall data w [] := by simp only [step, hop]
  obtain ⟨hrun, hav'⟩ := h.run_fall hi hs
  rw [hrun]
  refine hnext data' j hj (hag.mono ?_) (hav' hav)
  rw [hop] at hp
  simp only [Op.post, Op.effect, Option.map_map, Option.map_eq_some_iff, Function.comp] at hp
  obtain ⟨base, hbase, rfl⟩ := hp
  have := popStatus_length hbase
  have := hb.1
  omega

/-- The first event of an `EVAL` that has something to do. -/
theorem Ready.run_eval (h : Ready A) {i : Instr} {pos : Nat} {w : world.State} {data : Nat → V}
    (hi : A[p]? = some i) (hop : i.op = .eval pos) (hv : world.value w (data pos) = none) :
    ∃ r l, (runAt world A p w data).events = ⟨.eval (data pos), r⟩ :: l := by
  rw [runAt_eq h.compiled.forward hi]
  simp only [step, hop, evalSlot, hv, ask]
  cases world.apply w (.eval (data pos)) with
  | none => exact ⟨none, [], rfl⟩
  | some r => exact ⟨some r.1, _, rfl⟩

theorem Ready.follows_sparkEval (h : Ready A) (h' : Ready A') {a : Nat} {i1 i2 : Instr}
    {w : world.State} {data : Nat → V} (hi1 : A[p]? = some i1) (hi2 : A[p + 1]? = some i2)
    (h1 : i1.op = .spark a) (h2 : i2.op = .eval a) (hj : A'[q]? = some i2)
    (hnext : ∀ w data, Follows world A A' (p + 1) q w data) : Follows world A A' p q w data := by
  intro data' i hi hag hav
  rw [hi1] at hi
  cases hi
  obtain ⟨post, hp⟩ := h.compiled.post hi1
  have hlen := h.next_depth hi1 hi2 (by rw [h1]; rfl) hp
  -- a spark leaves the depth as it is
  obtain ⟨hpos, hpost⟩ : a < i1.si.length ∧ post.length = i1.si.length := by
    rw [h1] at hp
    simp only [Op.post, Op.effect, Option.map_map, Option.map_eq_some_iff, Function.comp] at hp
    obtain ⟨st, hst, rfl⟩ := hp
    refine ⟨(List.getElem?_eq_some_iff.mp hst).1, ?_⟩
    split <;> simp
  cases hv : world.value w (data a) with
  | some v =>
    have hs : step world i1 w data = .fall data w [] := by simp only [step, h1, hv]
    obtain ⟨hrun, hav'⟩ := h.run_fall hi1 hs
    rw [hrun]
    exact hnext w data data' i2 hi2 (hag.mono (by omega)) (hav' hav)
  | none =>
    have hs : step world i1 w data = .fall data w [⟨.spark (data a), none⟩] := by
      simp only [step, h1, hv]
    obtain ⟨hrun, hav'⟩ := h.run_fall hi1 hs
    rw [hrun]
    obtain ⟨hev, hout⟩ := hnext w data data' i2 hi2 (hag.mono (by omega)) (hav' hav)
    refine ⟨?_, hout⟩
    have hv' : world.value w (data' a) = none := by rw [← hag a hpos, hv]
    obtain ⟨r, l, hl⟩ := h'.run_eval hj h2 hv'
    rw [← hag a hpos] at hl
    rw [hl] at hev ⊢
    exact .drop hev

/-- `CALL` does what `MKFRAME` and the `EVAL` after it do, and the `EVAL` that is left does
nothing. -/
theorem Ready.follows_call (h : Ready A) (h' : Ready A') {fno : Fn} {n pos : Nat}
    {i1 i2 : Instr} {w : world.State} {data : Nat → V} (hi1 : A[p]? = some i1)
    (hi2 : A[p + 1]? = some i2) (h1 : i1.op = .mkframe fno n) (h2 : i2.op = .eval pos)
    (hpos : i2.expcount = pos + 1) (hj : A'[q]? = some { i1 with op := .call fno n })
    (hnext : ∀ w data, Follows world A A' (p + 1) (q + 1) w data) :
    Follows world A A' p q w data := by
  intro data' i hi hag hav
  rw [hi1] at hi
  cases hi
  obtain ⟨post, hp⟩ := h.compiled.post hi1
  obtain ⟨j, hj2, -, hlen⟩ := h.compiled.fall hi1 (by rw [h1]; rfl) hp
  rw [hi2] at hj2
  cases hj2
  rw [h1] at hp
  have hk := post_replaces (k := n) (by simp [Op.post, Op.effect]; rfl) hp
  have hlen2 : i2.si.length = i1.si.length - n + 1 := by
    rcases hlen with hlen | ⟨hlast, -⟩
    · omega
    · simp only [Op.post, Op.effect, Option.map_map, Option.map_eq_some_iff, Function.comp] at hp
      obtain ⟨base, -, rfl⟩ := hp
      simp at hlast
  have hslot : pos = i1.expcount - n := by
    rw [h.compiled.depth hi2] at hpos
    rw [h.compiled.depth hi1]
    omega
  subst hslot
  have hn := h.compiled.depth hi1
  rw [runAt_eq h'.compiled.forward hj]
  simp only [step]
  rw [hn, ← hag.slots hk.1, ← hn]
  cases ha : world.apply w (.mkframe fno (slots data i1.expcount n)) with
  | none =>
    have hs : step world i1 w data = .stop [⟨.mkframe fno (slots data i1.expcount n), none⟩]
        .stopped := by simp only [step, h1, ask, ha]
    rw [h.run_stop hi1 hs]
    exact Merged.refl _
  | some r =>
    have hs : step world i1 w data = .fall (Function.update data (i1.expcount - n) r.1) r.2
        [⟨.mkframe fno (slots data i1.expcount n), some r.1⟩] := by simp only [step, h1, ask, ha]
    obtain ⟨hrun1, hav1⟩ := h.run_fall hi1 hs
    rw [hrun1]
    have hval := world.value_mkframe w fno _ r.1 r.2 ha
    simp only
    cases he : world.apply r.2 (.eval r.1) with
    | none =>
      have hs2 : step world i2 r.2 (Function.update data (i1.expcount - n) r.1) =
          .stop [⟨.eval r.1, none⟩] .stopped := by
        simp only [step, h2, evalSlot, Function.update_self, hval, ask, he]
      rw [h.run_stop hi2 hs2]
      exact Merged.refl _
    | some r' =>
      have hs2 : step world i2 r.2 (Function.update data (i1.expcount - n) r.1) =
          .fall (Function.update data (i1.expcount - n) r'.1) r'.2 [⟨.eval r.1, some r'.1⟩] := by
        simp only [step, h2, evalSlot, Function.update_self, hval, ask, he, Function.update_idem]
      have hs3 : step world i2 r'.2 (Function.update data (i1.expcount - n) r'.1) =
          .fall (Function.update data (i1.expcount - n) r'.1) r'.2 [] := by
        simp only [step, h2, evalSlot, Function.update_self,
          (world.value_eval r.2 r.1 r'.1 r'.2 he).2, Function.update_idem]
      obtain ⟨hrun2, hav2⟩ := h.run_fall hi2 hs2
      obtain ⟨hrun3, -⟩ := h.run_fall hi2 hs3
      have hav3 : AvoidsAt world (entersChain A) A (p + 1) r'.2
          (Function.update data (i1.expcount - n) r'.1) := by
        rw [avoidsAt_iff h.compiled.forward hi2, hs3]
        exact hav2 (hav1 hav)
      rw [hrun2, ← Run.after_nil (runAt world A (p + 1 + 1) _ _), ← hrun3, Run.after_after]
      refine (hnext r'.2 _ _ i2 hi2 ?_ hav3).after _
      exact hag.update _ _ (by omega)

theorem Ready.follows_squeezeReturn (h : Ready A) (h' : Ready A') {count remove : Nat}
    {i1 i2 : Instr} {w : world.State} {data : Nat → V} (hi1 : A[p]? = some i1)
    (hi2 : A[p + 1]? = some i2) (h1 : i1.op = .squeeze count remove) (h2 : i2.op = .ret)
    (hj : A'[q]? = some { i1 with op := .ret }) : Follows world A A' p q w data := by
  intro data' i hi hag hav
  rw [hi1] at hi
  cases hi
  have hpos := h.squeeze_keeps hi1 hi2 h1 h2
  obtain ⟨post, hp⟩ := h.compiled.post hi1
  obtain ⟨-, hlen⟩ := h.exact_of_no_landing hi1 hi2 (by rw [h1]; rfl) hp
    (fun l hla => by simp [Landing, h2] at hla)
  rw [h1] at hp
  simp only [Op.post, Op.effect] at hp
  split at hp
  case isFalse => cases hp
  rename_i hle
  cases hp
  simp only [List.length_append, List.length_take, List.length_drop] at hlen
  have hn1 := h.compiled.depth hi1
  have hn2 := h.compiled.depth hi2
  have hs1 : step world i1 w data = .fall (fun k => if i1.expcount - count - remove ≤ k ∧
      k < i1.expcount - count - remove + count then data (k + remove) else data k) w [] := by
    simp only [step, h1]
  have hs2 : step world i2 w (fun k => if i1.expcount - count - remove ≤ k ∧
      k < i1.expcount - count - remove + count then data (k + remove) else data k) =
      .stop [] (.returned (data (i1.expcount - 1))) := by
    simp only [step, h2]
    rw [if_pos (by omega), show i2.expcount - 1 + remove = i1.expcount - 1 by omega]
  have hs' : step world { i1 with op := .ret } w data' =
      .stop [] (.returned (data (i1.expcount - 1))) := by
    simp only [step]
    rw [hag _ (by omega)]
  rw [(h.run_fall hi1 hs1).1, h.run_stop hi2 hs2, h'.run_stop hj hs']
  exact Merged.refl _

/-- `JCMP` does what a comparison and the `JFALSE` after it do. -/
theorem Ready.follows_jcmp (h : Ready A) (h' : Ready A') {b : Bif} {addr : Nat} {i1 i2 : Instr}
    {w : world.State} {data : Nat → V} (hi1 : A[p]? = some i1) (hi2 : A[p + 1]? = some i2)
    (h1 : i1.op = .bif b) (h2 : i2.op = .jfalse addr) (hb : isComparison b = true)
    (hj : A'[q]? = some (({ i1 with op := .jcmp addr b } : Instr).mapTarget M))
    (hnext : ∀ w data, Follows world A A' (p + 2) (q + 1) w data)
    (hjump : ∀ w data, entersChain A addr = false → Follows world A A' addr (M addr) w data) :
    Follows world A A' p q w data := by
  intro data' i hi hag hav
  rw [hi1] at hi
  cases hi
  have hnargs := (isComparison_nargs hb).1
  obtain ⟨post1, hp1⟩ := h.compiled.post hi1
  obtain ⟨post2, hp2⟩ := h.compiled.post hi2
  obtain ⟨-, hlen⟩ := h.exact_of_no_landing hi1 hi2 (by rw [h1]; rfl) hp1
    (fun l hla => by simp [Landing, h2] at hla)
  have hn1 := h.compiled.depth hi1
  have hn2 := h.compiled.depth hi2
  rw [h1] at hp1
  have hk := post_replaces (k := 2) (by simp [Op.post, Op.effect, hnargs]; rfl) hp1
  have hlen2 : post2.length = i1.si.length - 2 := by
    rw [h2] at hp2
    simp only [Op.post, Op.effect, Option.map_map, Option.map_eq_some_iff, Function.comp] at hp2
    obtain ⟨base, hbase, rfl⟩ := hp2
    have := popStatus_length hbase
    omega
  have hrun' := @runAt_eq V world A' h'.compiled.forward q _ w data' hj
  rw [step_mapTarget] at hrun'
  simp only [step] at hrun'
  rw [hn1, ← hag.slots hk.1, ← compareValues_agree hag hk.1, ← hn1] at hrun'
  rw [hrun']
  -- what the comparison leaves on the stack
  have hag2 : ∀ (v : V) (j : Instr), j.si.length ≤ post2.length →
      Agree j.si.length (Function.update data (i1.expcount - 2) v) data' := by
    intro v j hle k hk
    rw [Function.update_of_ne (by omega)]
    exact hag k (by omega)
  cases hc : compareValues world w b (data (i1.expcount - 1)) (data (i1.expcount - 2)) with
  | none =>
    have hs : step world i1 w data = .stop [⟨.bif b (slots data i1.expcount 2), none⟩]
        .error := by simp only [step, h1, hnargs, hb, if_true, hc]
    rw [h.run_stop hi1 hs]
    exact Merged.refl _
  | some r =>
    have hs : step world i1 w data =
        .fall (Function.update data (i1.expcount - 2) (setBool world r)) w
          [⟨.bif b (slots data i1.expcount 2), some (setBool world r)⟩] := by
      simp only [step, h1, hnargs, hb, if_true, hc]
    obtain ⟨hrun1, hav1⟩ := h.run_fall hi1 hs
    rw [hrun1]
    have hslot : i2.expcount - 1 = i1.expcount - 2 := by omega
    cases r with
    | true =>
      have hs2 : step world i2 w (Function.update data (i1.expcount - 2) (setBool world true)) =
          .fall (Function.update data (i1.expcount - 2) (setBool world true)) w [] := by
        simp only [step, h2, hslot, Function.update_self, setBool, if_true, world.kind_true]
      obtain ⟨hrun2, hav2⟩ := h.run_fall hi2 hs2
      rw [hrun2, Run.after_nil]
      obtain ⟨j, hj2, hb2, -⟩ := h.compiled.fall hi2 (by rw [h2]; rfl) hp2
      exact (hnext w _ data' j hj2 (hag2 _ j hb2.1) (hav2 (hav1 hav))).after _
    | false =>
      have hs2 : step world i2 w (Function.update data (i1.expcount - 2) (setBool world false)) =
          .goto addr (Function.update data (i1.expcount - 2) (setBool world false)) w [] := by
        simp only [step, h2, hslot, Function.update_self, setBool, Bool.false_eq_true, if_false,
          world.kind_nil]
      have hav2 := hav1 hav
      rw [avoidsAt_iff h.compiled.forward hi2, hs2] at hav2
      rw [runAt_eq h.compiled.forward hi2, hs2]
      obtain ⟨-, j, hj2, hb2⟩ := h.compiled.jump hi2 (by rw [h2]; rfl) hp2
      exact (hjump w _ hav2.1 data' j hj2 (hag2 _ j hb2.1) hav2.2).after _

/-! ### Chains -/

theorem step_jeq_fall {i : Instr} {d : Nat} {v : Int} {w w1 : world.State} {data data1 : Nat → V}
    {events : List (Event V)} (hop : i.op = .jeq d v)
    (hs : step world i w data = .fall data1 w1 events) : data1 = data ∧ w1 = w := by
  simp only [step, hop] at hs
  split at hs
  · split at hs
    · cases hs
    · cases hs
      exact ⟨rfl, rfl⟩
  · cases hs

/-- In code with a chain the depths agree. -/
theorem Ready.depth_next (h : Ready A) (hf : Fresh A) {i j : Instr} {post : List Status}
    (hi : A[p]? = some i) (hj : A[p + 1]? = some j) (hfall : i.op.falls = true)
    (hp : i.op.post i.si = some post) : j.si.length = post.length := by
  obtain ⟨post', hp', -, hlen⟩ := h.edge hf hi hj hfall
  rw [hp] at hp'
  cases hp'
  exact hlen

theorem Ready.depth_push (h : Ready A) (hf : Fresh A) {a : Nat} {i j : Instr}
    (hi : A[p]? = some i) (hj : A[p + 1]? = some j) (hop : i.op = .push a) :
    a < i.si.length ∧ j.si.length = i.si.length + 1 := by
  obtain ⟨post, hp⟩ := h.compiled.post hi
  have hlen := h.depth_next hf hi hj (by rw [hop]; rfl) hp
  rw [hop] at hp
  obtain ⟨st, hst, rfl⟩ := post_push hp
  exact ⟨(List.getElem?_eq_some_iff.mp hst).1, by simpa using hlen⟩

theorem Ready.depth_jeq (h : Ready A) (hf : Fresh A) {d : Nat} {v : Int} {i j : Instr}
    (hi : A[p]? = some i) (hj : A[p + 1]? = some j) (hop : i.op = .jeq d v) :
    j.si.length = i.si.length := by
  obtain ⟨post, hp⟩ := h.compiled.post hi
  have hlen := h.depth_next hf hi hj (by rw [hop]; rfl) hp
  rw [hop] at hp
  obtain rfl := post_jeq hp
  exact hlen

theorem Ready.depth_eval (h : Ready A) (hf : Fresh A) {pos : Nat} {i j : Instr}
    (hi : A[p]? = some i) (hj : A[p + 1]? = some j) (hop : i.op = .eval pos) :
    j.si.length = i.si.length := by
  obtain ⟨post, hp⟩ := h.compiled.post hi
  have hlen := h.depth_next hf hi hj (by rw [hop]; rfl) hp
  rw [hop] at hp
  obtain ⟨-, rfl⟩ := post_eval hp
  simpa using hlen

theorem Ready.depth_pop (h : Ready A) {n : Nat} {i j : Instr}
    (hi : A[p]? = some i) (hj : A[p + 1]? = some j) (hop : i.op = .pop n) :
    i.si.length = j.si.length + 1 := by
  have hf := h.fresh_of_pop hi hop
  obtain ⟨rfl, htop, -⟩ := hf.pop hi hop
  have hpos := getLast?_ne_none_pos htop
  obtain ⟨post, hp⟩ := h.compiled.post hi
  have hlen := h.depth_next hf hi hj (by rw [hop]; rfl) hp
  rw [hop] at hp
  obtain rfl := post_pop hp
  rw [List.length_take] at hlen
  omega

/-- The value that the test is about is on top of the stack already. -/
theorem Ready.follows_chainPlain (h : Ready A) (h' : Ready A') {a n d : Nat} {v : Int}
    {i1 i2 i3 : Instr} {w : world.State} {data : Nat → V} (hi1 : A[p]? = some i1)
    (hi2 : A[p + 1]? = some i2) (hi3 : A[p + 2]? = some i3) (h1 : i1.op = .pop n)
    (h2 : i2.op = .push a) (h3 : i3.op = .jeq d v) (hj : A'[q]? = some (i3.mapTarget M))
    (hdata : data (i1.si.length - 1) = data a)
    (hnext : (∀ i, A[p + 3]? = some i → ChainData (some (a, false)) i.si.length w data) →
      Follows world A A' (p + 3) (q + 1) w data)
    (hjump : ∀ t w data, i3.op.target = some t → entersChain A t = false →
      Follows world A A' t (M t) w data) : Follows world A A' p q w data := by
  intro data' i hi hag hav
  rw [hi1] at hi
  cases hi
  have hf := h.fresh_of_pop hi1 h1
  have hlen1 := h.depth_pop hi1 hi2 h1
  obtain ⟨ha, hlen2⟩ := h.depth_push hf hi2 hi3 h2
  have hn2 := h.compiled.depth hi2
  have hs1 : step world i1 w data = .fall data w [] := by simp only [step, h1]
  have hs2 : step world i2 w data = .fall data w [] := by
    simp only [step, h2]
    rw [show i2.expcount = i1.si.length - 1 by omega, ← hdata, Function.update_eq_self]
  obtain ⟨hrun1, hav1⟩ := h.run_fall hi1 hs1
  obtain ⟨hrun2, hav2⟩ := h.run_fall hi2 hs2
  rw [hrun1, hrun2, Run.after_nil, Run.after_nil]
  refine h.follows_keep h' hi3 hj (hag.mono (by omega)) (hav2 (hav1 hav)) ?_
    (fun t w1 data1 ht hc => hjump t w1 data1 ht hc)
  intro data1 w1 events hs
  obtain ⟨rfl, rfl⟩ := step_jeq_fall h3 hs
  refine hnext (fun i hi => ?_)
  show data1 (i.si.length - 1) = data1 a
  rw [h.depth_jeq hf hi3 hi h3, ← hdata]
  congr 1
  omega

theorem Ready.follows_chainEval (h : Ready A) (h' : Ready A') {a n d : Nat} {v : Int}
    {i1 i2 i3 i4 : Instr} {w : world.State} {data : Nat → V} (hi1 : A[p]? = some i1)
    (hi2 : A[p + 1]? = some i2) (hi3 : A[p + 2]? = some i3) (hi4 : A[p + 3]? = some i4)
    (h1 : i1.op = .pop n) (h2 : i2.op = .push a) (h3 : i3.op = .eval i2.expcount)
    (h4 : i4.op = .jeq d v) (hj : A'[q]? = some (i4.mapTarget M))
    (hdata : world.value w (data a) = some (data (i1.si.length - 1)))
    (hnext : (∀ i, A[p + 4]? = some i → ChainData (some (a, true)) i.si.length w data) →
      Follows world A A' (p + 4) (q + 1) w data)
    (hjump : ∀ t w data, i4.op.target = some t → entersChain A t = false →
      Follows world A A' t (M t) w data) : Follows world A A' p q w data := by
  intro data' i hi hag hav
  rw [hi1] at hi
  cases hi
  have hf := h.fresh_of_pop hi1 h1
  have hlen1 := h.depth_pop hi1 hi2 h1
  obtain ⟨ha, hlen2⟩ := h.depth_push hf hi2 hi3 h2
  have hlen3 := h.depth_eval hf hi3 hi4 h3
  have hn2 := h.compiled.depth hi2
  have hslot : i2.expcount = i1.si.length - 1 := by omega
  have hs1 : step world i1 w data = .fall data w [] := by simp only [step, h1]
  have hs2 : step world i2 w data =
      .fall (Function.update data (i1.si.length - 1) (data a)) w [] := by
    simp only [step, h2, hslot]
  have hs3 : step world i3 w (Function.update data (i1.si.length - 1) (data a)) =
      .fall data w [] := by
    simp only [step, h3, hslot, evalSlot, Function.update_self, hdata, Function.update_idem,
      Function.update_eq_self]
  obtain ⟨hrun1, hav1⟩ := h.run_fall hi1 hs1
  obtain ⟨hrun2, hav2⟩ := h.run_fall hi2 hs2
  obtain ⟨hrun3, hav3⟩ := h.run_fall hi3 hs3
  rw [hrun1, hrun2, hrun3, Run.after_nil, Run.after_nil, Run.after_nil]
  refine h.follows_keep h' hi4 hj (hag.mono (by omega)) (hav3 (hav2 (hav1 hav))) ?_
    (fun t w1 data1 ht hc => hjump t w1 data1 ht hc)
  intro data1 w1 events hs
  obtain ⟨rfl, rfl⟩ := step_jeq_fall h4 hs
  refine hnext (fun i hi => ?_)
  show world.value w1 (data1 a) = some (data1 (i.si.length - 1))
  rw [h.depth_jeq hf hi4 hi h4, hdata]
  congr 2
  omega

/-- The head of a chain leaves the tested value on top. -/
theorem Ready.follows_jeqChain (h : Ready A) (h' : Ready A') (hf : Fresh A) {a d : Nat} {v : Int}
    {i1 i2 : Instr} {w : world.State} {data : Nat → V} (hi1 : A[p]? = some i1)
    (hi2 : A[p + 1]? = some i2) (h1 : i1.op = .push a) (h2 : i2.op = .jeq d v)
    (hj1 : A'[q]? = some (i1.mapTarget M)) (hj2 : A'[q + 1]? = some (i2.mapTarget M))
    (hnext : ∀ w data, (∀ i, A[p + 2]? = some i →
      ChainData (some (a, false)) i.si.length w data) → Follows world A A' (p + 2) (q + 2) w data)
    (hjump : ∀ t w data, i2.op.target = some t → entersChain A t = false →
      Follows world A A' t (M t) w data) : Follows world A A' p q w data := by
  intro data' i hi hag hav
  rw [hi1] at hi
  cases hi
  obtain ⟨ha, hlen1⟩ := h.depth_push hf hi1 hi2 h1
  have hn1 := h.compiled.depth hi1
  refine h.follows_keep h' hi1 hj1 hag hav ?_ (by simp [h1, Op.target])
  intro data1 w1 events hs
  simp only [step, h1] at hs
  cases hs
  intro data' i hi hag hav
  rw [hi2] at hi
  cases hi
  refine h.follows_keep h' hi2 hj2 hag hav ?_ hjump
  intro data1 w1 events hs
  obtain ⟨rfl, rfl⟩ := step_jeq_fall h2 hs
  refine hnext _ _ (fun i hi => ?_)
  show Function.update data i1.expcount (data a) (i.si.length - 1) =
    Function.update data i1.expcount (data a) a
  rw [h.depth_jeq hf hi2 hi h2, show i2.si.length - 1 = i1.expcount by omega,
    Function.update_self, Function.update_of_ne (by omega)]

/-- `EVAL` and `JEQ`, kept as they are. -/
theorem Ready.follows_evalJeq (h : Ready A) (h' : Ready A') {pos d : Nat} {v : Int}
    {i1 i2 : Instr} {w : world.State} {data : Nat → V} (hi1 : A[p]? = some i1)
    (hi2 : A[p + 1]? = some i2) (h1 : i1.op = .eval pos) (h2 : i2.op = .jeq d v)
    (hj1 : A'[q]? = some (i1.mapTarget M)) (hj2 : A'[q + 1]? = some (i2.mapTarget M))
    (hnext : ∀ w1 v, world.value w1 (data pos) = some v →
      Follows world A A' (p + 2) (q + 2) w1 (Function.update data pos v))
    (hjump : ∀ t w data, i2.op.target = some t → entersChain A t = false →
      Follows world A A' t (M t) w data) : Follows world A A' p q w data := by
  intro data' i hi hag hav
  rw [hi1] at hi
  cases hi
  refine h.follows_keep h' hi1 hj1 hag hav ?_ (by simp [h1, Op.target])
  intro data1 w1 events hs data' i hi hag hav
  rw [hi2] at hi
  cases hi
  refine h.follows_keep h' hi2 hj2 hag hav ?_ hjump
  intro data2 w2 events2 hs2
  obtain ⟨rfl, rfl⟩ := step_jeq_fall h2 hs2
  simp only [step, h1, evalSlot] at hs
  cases hv : world.value w (data pos) with
  | some v =>
    rw [hv] at hs
    cases hs
    exact hnext _ v hv
  | none =>
    simp only [hv, ask] at hs
    cases ha : world.apply w (.eval (data pos)) with
    | none =>
      rw [ha] at hs
      cases hs
    | some r =>
      rw [ha] at hs
      cases hs
      exact hnext _ r.1 (world.value_eval w _ r.1 r.2 ha).1

theorem Ready.follows_evalJeqChain (h : Ready A) (h' : Ready A') (hf : Fresh A) {a d : Nat}
    {v : Int} {i1 i2 i3 : Instr} {w : world.State} {data : Nat → V} (hi1 : A[p]? = some i1)
    (hi2 : A[p + 1]? = some i2) (hi3 : A[p + 2]? = some i3) (h1 : i1.op = .push a)
    (h2 : i2.op = .eval i1.expcount) (h3 : i3.op = .jeq d v)
    (hj1 : A'[q]? = some (i1.mapTarget M)) (hj2 : A'[q + 1]? = some (i2.mapTarget M))
    (hj3 : A'[q + 2]? = some (i3.mapTarget M))
    (hnext : ∀ w data, (∀ i, A[p + 3]? = some i →
      ChainData (some (a, true)) i.si.length w data) → Follows world A A' (p + 3) (q + 3) w data)
    (hjump : ∀ t w data, i3.op.target = some t → entersChain A t = false →
      Follows world A A' t (M t) w data) : Follows world A A' p q w data := by
  intro data' i hi hag hav
  rw [hi1] at hi
  cases hi
  obtain ⟨ha, hlen1⟩ := h.depth_push hf hi1 hi2 h1
  have hlen2 := h.depth_eval hf hi2 hi3 h2
  have hn1 := h.compiled.depth hi1
  refine h.follows_keep h' hi1 hj1 hag hav ?_ (by simp [h1, Op.target])
  intro data1 w1 events hs
  simp only [step, h1] at hs
  cases hs
  refine h.follows_evalJeq h' hi2 hi3 h2 h3 hj2 hj3 ?_ hjump
  intro w1 v hv
  rw [Function.update_self] at hv
  rw [Function.update_idem]
  refine hnext _ _ (fun i hi => ?_)
  show world.value w1 (Function.update data i1.expcount v a) =
    some (Function.update data i1.expcount v (i.si.length - 1))
  rw [h.depth_jeq hf hi3 hi h3, show i3.si.length - 1 = i1.expcount by omega,
    Function.update_self, Function.update_of_ne (by omega), hv]

/-! ### The whole round -/

variable {dest : Nat} {chain : Option (Nat × Bool)} {w : Window}

/-- The new code does what the old one does from the start of a window on. -/
def FollowsHere (world : World V) (A A' : List Instr) (p dest : Nat)
    (chain : Option (Nat × Bool)) : Prop :=
  ∀ (w : world.State) (data : Nat → V),
    ((chainNext chain (A.drop p)).isSome = true →
      ∀ i, A[p]? = some i → ChainData chain i.si.length w data) →
    Follows world A A' p dest w data

/-- The new code does what the old one does from a target of a jump on. -/
def FollowsJump (world : World V) (A A' : List Instr) (M : Nat → Nat) (p : Nat) : Prop :=
  ∀ t (w : world.State) (data : Nat → V), p ≤ t → IsTarget A t → entersChain A t = false →
    Follows world A A' t (M t) w data

theorem FollowsHere.of_none (h : FollowsHere world A A' p dest none) (w : world.State)
    (data : Nat → V) : Follows world A A' p dest w data :=
  h w data (by simp [chainNext])

theorem FollowsJump.last (h : Ready A) {k : Nat} (hj : FollowsJump world A A' M (k + 1))
    {i : Instr} (hi : A[k]? = some i) (t : Nat) (w : world.State) (data : Nat → V)
    (ht : i.op.target = some t) (hc : entersChain A t = false) :
    Follows world A A' t (M t) w data := by
  have := h.compiled.forward hi ht
  exact hj t w data (by omega) ⟨k, i, hi, ht⟩ hc

theorem At.followsHere (hw : At A A' M p dest chain w) (h : Ready A) (h' : Ready A')
    (hnext : FollowsHere world A A' (p + w.taken) (dest + w.out.length) w.chain)
    (hjump : FollowsJump world A A' M (p + w.taken)) : FollowsHere world A A' p dest chain := by
  obtain ⟨hr, hout, -, -⟩ := hw
  intro w data hchain
  generalize hl : A.drop p = l at hr hchain
  have hget : ∀ {k : Nat} {i : Instr}, l[k]? = some i → A[p + k]? = some i :=
    fun hk => getElem?_of_drop hl hk
  cases hr with
  | chainPlain a i1 i2 i3 rest n d v hc h1 h2 h3 =>
    have hi1 := hget (k := 0) (i := i1) rfl
    subst hc
    have hdata := hchain (by simp [chainNext, h1, h2, h3]) i1 hi1
    exact h.follows_chainPlain h' hi1 (hget (k := 1) rfl) (hget (k := 2) rfl) h1 h2 h3
      (hout 0 i3 rfl) hdata (fun hd => hnext w data (fun _ => hd))
      (FollowsJump.last h hjump (hget (k := 2) rfl))
  | chainEval a i1 i2 i3 i4 rest n d v hc h1 h2 h3 h4 =>
    have hi1 := hget (k := 0) (i := i1) rfl
    subst hc
    have hdata := hchain (by simp [chainNext, h1, h2, h3, h4]) i1 hi1
    exact h.follows_chainEval h' hi1 (hget (k := 1) rfl) (hget (k := 2) rfl) (hget (k := 3) rfl)
      h1 h2 h3 h4 (hout 0 i4 rfl) hdata (fun hd => hnext w data (fun _ => hd))
      (FollowsJump.last h hjump (hget (k := 3) rfl))
  | sparkEval a i1 i2 rest h1 h2 =>
    have hi2 := hget (k := 1) (i := i2) rfl
    have hj := hout 0 i2 rfl
    rw [Instr.mapTarget_of_none M (by rw [h2]; rfl)] at hj
    refine h.follows_sparkEval h' (hget (k := 0) rfl) hi2 h1 h2 hj (fun w data => ?_)
    intro data' i hi hag hav
    rw [hi2] at hi
    cases hi
    refine h.follows_keep h' (M := M) hi2 (hout 0 i2 rfl) hag hav ?_ (by simp [h2, Op.target])
    exact fun data1 w1 _ _ => hnext.of_none w1 data1
  | mkframeEval fno n pos i1 i2 rest h1 h2 hpos =>
    exact h.follows_call h' (hget (k := 0) rfl) (hget (k := 1) rfl) h1 h2 hpos (hout 0 _ rfl)
      hnext.of_none
  | squeezeReturn count remove i1 i2 rest h1 h2 =>
    exact h.follows_squeezeReturn h' (hget (k := 0) rfl) (hget (k := 1) rfl) h1 h2 (hout 0 _ rfl)
  | bifJfalse b addr i1 i2 rest h1 h2 hb =>
    exact h.follows_jcmp h' (hget (k := 0) rfl) (hget (k := 1) rfl) h1 h2 hb (hout 0 _ rfl)
      hnext.of_none (fun w data hc =>
        FollowsJump.last h hjump (hget (k := 1) rfl) addr w data (by rw [h2]; rfl) hc)
  | jeqChain a d n v i1 i2 i3 i4 rest h1 h2 h3 h4 =>
    have hf := h.fresh_of_pop (hget (k := 2) rfl) h3
    exact h.follows_jeqChain h' hf (hget (k := 0) rfl) (hget (k := 1) rfl) h1 h2 (hout 0 i1 rfl)
      (hout 1 i2 rfl) (fun w data hd => hnext w data (fun _ => hd))
      (FollowsJump.last h hjump (hget (k := 1) rfl))
  | evalJeqChain a d n v i1 i2 i3 i4 i5 rest h1 h2 h3 h4 h5 =>
    have hf := h.fresh_of_pop (hget (k := 3) rfl) h4
    exact h.follows_evalJeqChain h' hf (hget (k := 0) rfl) (hget (k := 1) rfl) (hget (k := 2) rfl)
      h1 h2 h3 (hout 0 i1 rfl) (hout 1 i2 rfl) (hout 2 i3 rfl)
      (fun w data hd => hnext w data (fun _ => hd))
      (FollowsJump.last h hjump (hget (k := 2) rfl))
  | pop n i1 rest h1 => exact h.follows_pop (hget (k := 0) rfl) h1 (hnext.of_none w data)
  | keep i1 rest h1 =>
    have hi1 := hget (k := 0) (i := i1) rfl
    intro data' i hi hag hav
    have hi' : A[p]? = some i1 := hi1
    rw [hi'] at hi
    cases hi
    exact h.follows_keep h' hi1 (hout 0 i1 rfl) hag hav
      (fun data1 w1 _ _ => hnext.of_none w1 data1)
      (fun t w1 data1 ht hc => FollowsJump.last h hjump hi1 t w1 data1 ht hc)

/-- A jump into the window. -/
theorem At.follows_enters (hw : At A A' M p dest chain w) (h : Ready A) (h' : Ready A')
    (hhere : FollowsHere world A A' p dest chain)
    (hnext : FollowsHere world A A' (p + w.taken) (dest + w.out.length) w.chain)
    (hjump : FollowsJump world A A' M (p + w.taken)) {t : Nat} (ht : Enters A p chain w t)
    (hc : entersChain A t = false) (st : world.State) (data : Nat → V) :
    Follows world A A' t (M t) st data := by
  cases ht with
  | start hnone =>
    subst hnone
    rw [show M p = dest from hw.map 0 0 hw.rule.map_zero]
    exact hhere.of_none st data
  | afterSpark a i1 i2 rest hl h1 h2 hw' =>
    subst hw'
    have hi2 := getElem?_of_drop (k := 1) hl rfl
    rw [show M (p + 1) = dest from hw.map 1 0 rfl]
    intro data' i hi hag hav
    rw [hi2] at hi
    cases hi
    exact h.follows_keep h' hi2 (hw.out 0 i2 rfl) hag hav
      (fun data1 w1 _ _ => hnext.of_none w1 data1) (by simp [h2, Op.target])
  | afterPush a d n v i1 i2 i3 i4 i5 rest hl h1 h2 h3 h4 h5 hw' =>
    subst hw'
    rw [show M (p + 1) = dest + 1 from hw.map 1 1 rfl]
    -- the chain does not go on
    have hno : (chainNext (some (a, true)) (A.drop (p + 3))).isSome = false := by
      simpa [entersChain, evalJeqChain, hl, h1, h2, h3, h4, h5] using hc
    exact h.follows_evalJeq h' (getElem?_of_drop (k := 1) hl rfl)
      (getElem?_of_drop (k := 2) hl rfl) h2 h3 (hw.out 1 i2 rfl) (hw.out 2 i3 rfl)
      (fun w1 v _ => hnext w1 _ (fun hs => by rw [hno] at hs; cases hs))
      (FollowsJump.last h hjump (getElem?_of_drop (k := 2) hl rfl))

theorem Here.follows (hh : Here A A' M p dest chain) (h : Ready A) (h' : Ready A') :
    FollowsHere world A A' p dest chain ∧ FollowsJump world A A' M p := by
  induction hk : A.length - p using Nat.strongRecOn generalizing p dest chain with
  | _ n ih =>
  rcases hh.cases with ⟨hnil, -⟩ | ⟨w, hw⟩
  · rw [List.drop_eq_nil_iff] at hnil
    constructor
    · intro w data _ data' i hi
      have := (List.getElem?_eq_some_iff.mp hi).1
      omega
    · intro t w data hp ht
      have := ht.lt_length h.compiled
      omega
  · have htp := hw.rule.taken_pos
    have hle := hw.rule.taken_le
    rw [List.length_drop] at hle
    obtain ⟨hnext, hjump⟩ := ih (A.length - (p + w.taken)) (by omega) hw.next rfl
    have hhere := hw.followsHere h h' hnext hjump
    refine ⟨hhere, ?_⟩
    intro t st data hp ht hc
    by_cases hin : t < p + w.taken
    · exact hw.follows_enters h h' hhere hnext hjump (h.enters hh hw ht hp hin) hc st data
    · exact hjump t st data (by omega) ht hc

/-- One round, in a run that does not jump into a chain. -/
theorem Round.merged (hr : Round A A' M) (h : Ready A) {st : world.State} {data : Nat → V}
    (hav : AvoidsAt world (entersChain A) A 0 st data) :
    Merged (runAt world A 0 st data) (runAt world A' 0 st data) := by
  cases A with
  | nil =>
    rcases hr.here.cases with ⟨-, hnil⟩ | ⟨w, hw⟩
    · rw [List.drop_zero] at hnil
      subst hnil
      exact Merged.refl _
    · have := hw.rule.taken_pos
      have := hw.rule.taken_le
      simp at this
      omega
  | cons i rest =>
    exact (hr.here.follows h (hr.ready h)).1.of_none st data data i rfl (Agree.refl _ _) hav

/-! ## All rounds -/

/-- After the first round there are no chains. -/
theorem NoPop.entersChain (h : NoPop A) (t : Nat) : entersChain A t = false := by
  cases t with
  | zero => rfl
  | succ q =>
    rw [Bytecode.entersChain]
    split
    · rename_i w hw
      unfold evalJeqChain at hw
      split at hw
      · rename_i i1 i2 i3 i4 i5 rest hl
        split at hw
        · rename_i h4 _
          exact absurd h4 (h (getElem?_of_drop (k := 3) hl rfl))
        · cases hw
      · cases hw
    · rfl

theorem avoids_of_never {bad : Nat → Bool} (hbad : ∀ t, bad t = false)
    {goto : Nat → Nat → Nat} {code : List Instr} : ∀ {fuel pc : Nat} {st : world.State}
    {data : Nat → V}, avoids world bad goto code fuel pc st data = true
  | 0, _, _, _ => rfl
  | fuel + 1, pc, st, data => by
    unfold avoids
    split
    · rfl
    · split
      · exact avoids_of_never hbad
      · rw [hbad, avoids_of_never hbad]
        rfl
      · rfl

/-- What holds of the code after a round holds after all of them. -/
theorem peepholeRounds_induction {P : List Instr → Prop}
    (hstep : ∀ A, P A → P (peepholeRound A).1) : ∀ (n : Nat) {A : List Instr}, P A →
    P (peepholeRounds n A)
  | 0, _, h => h
  | n + 1, A, h => by
    unfold peepholeRounds
    simp only
    split
    · exact peepholeRounds_induction hstep n (hstep A h)
    · exact hstep A h

theorem Ready.rounds (h : Ready A) (n : Nat) : Ready (peepholeRounds n A) :=
  peepholeRounds_induction (fun A h => (peepholeRound_round A).ready h) n h

/-- All rounds together, in a run that does not jump into a chain. -/
theorem Ready.rounds_merged (h : Ready A) (n : Nat) {st : world.State} {data : Nat → V}
    (hav : AvoidsAt world (entersChain A) A 0 st data) :
    Merged (runAt world A 0 st data) (runAt world (peepholeRounds n A) 0 st data) := by
  have hstep : ∀ B, (Ready B ∧ NoPop B ∧
      Merged (runAt world A 0 st data) (runAt world B 0 st data)) →
      Ready (peepholeRound B).1 ∧ NoPop (peepholeRound B).1 ∧
      Merged (runAt world A 0 st data) (runAt world (peepholeRound B).1 0 st data) := by
    rintro B ⟨hB, hno, hm⟩
    have hr := peepholeRound_round B
    exact ⟨hr.ready hB, hr.noPop hB, hm.trans (hr.merged hB (avoids_of_never hno.entersChain))⟩
  cases n with
  | zero => exact Merged.refl _
  | succ n =>
    have hr := peepholeRound_round A
    unfold peepholeRounds
    simp only
    split
    · exact (peepholeRounds_induction hstep n
        ⟨hr.ready h, hr.noPop h, hr.merged h hav⟩).2.2
    · exact hr.merged h hav

end Round

/-! ## Termination -/

/-- The `do … while (changed)` loop, started with the code `A`, ends with `B`. -/
inductive Rounds : List Instr → List Instr → Prop where
  | stop {A : List Instr} (h : (peepholeRound A).2 = false) : Rounds A (peepholeRound A).1
  | again {A B : List Instr} (h : (peepholeRound A).2 = true) (hB : Rounds (peepholeRound A).1 B) :
    Rounds A B

theorem Rule.out_length {chain : Option (Nat × Bool)} {l : List Instr} {w : Window}
    (h : Rule chain l w) :
    w.out.length ≤ w.taken ∧ (w.changed = true → w.out.length < w.taken) := by
  cases h <;> simp

theorem scan_length : ∀ (fuel dest : Nat) (chain : Option (Nat × Bool)) (l : List Instr),
    (scan fuel dest chain l).code.length ≤ l.length ∧
      ((scan fuel dest chain l).changed = true →
        (scan fuel dest chain l).code.length < l.length)
  | 0, dest, chain, l => by simp [scan]
  | fuel + 1, dest, chain, l => by
    cases l with
    | nil => simp [scan]
    | cons i rest =>
      have hr := window_rule chain (List.cons_ne_nil i rest)
      generalize hw : window chain (i :: rest) = w at hr
      obtain ⟨h1, h2⟩ := scan_length fuel (dest + w.out.length) w.chain ((i :: rest).drop w.taken)
      obtain ⟨h3, h4⟩ := hr.out_length
      have hle := hr.taken_le
      simp only [scan, List.isEmpty_cons, Bool.false_eq_true, if_false, hw, List.length_append,
        Bool.or_eq_true]
      rw [List.length_drop] at h1 h2
      refine ⟨by omega, ?_⟩
      rintro (hc | hc)
      · have := h4 hc
        omega
      · have := h2 hc
        omega

/-- A round that changes something makes the code shorter, so the loop ends. -/
theorem peepholeRounds_rounds : ∀ (fuel : Nat) {A : List Instr}, A.length < fuel →
    Rounds A (peepholeRounds fuel A)
  | 0, A, h => by omega
  | fuel + 1, A, h => by
    unfold peepholeRounds
    simp only
    split
    · rename_i hc
      refine .again hc (peepholeRounds_rounds fuel ?_)
      have := (scan_length A.length 0 none A).2 hc
      simp only [peepholeRound, List.length_map]
      omega
    · rename_i hc
      exact .stop (by simpa using hc)

/-! ## Where jumps go -/

/-- `B` is the code after some rounds, and `M` takes an address of `A` to its image in `B`. -/
inductive Rewrites (A : List Instr) : (Nat → Nat) → List Instr → Prop where
  | start : Rewrites A id A
  | round {M : Nat → Nat} {B : List Instr} (h : Rewrites A M B) :
    Rewrites A (roundMap B ∘ M) (peepholeRound B).1

/-- A jump that a window puts out stands where the map takes a jump with the same target. -/
theorem Rule.out_target {chain : Option (Nat × Bool)} {l : List Instr} {w : Window}
    (h : Rule chain l w) {k t : Nat} {i : Instr} (hk : w.out[k]? = some i)
    (ht : i.op.target = some t) :
    ∃ (m : Nat) (i' : Instr), l[m]? = some i' ∧ i'.op.target = some t ∧ w.map[m]? = some k := by
  have hone : ∀ {j : Instr}, [j][k]? = some i → k = 0 ∧ i = j := by
    intro j hk
    cases k with
    | zero => exact ⟨rfl, by simpa using hk.symm⟩
    | succ k => simp at hk
  cases h with
  | chainPlain a i1 i2 i3 rest n d v hchain h1 h2 h3 =>
    obtain ⟨rfl, rfl⟩ := hone hk
    exact ⟨2, i, rfl, ht, rfl⟩
  | chainEval a i1 i2 i3 i4 rest n d v hchain h1 h2 h3 h4 =>
    obtain ⟨rfl, rfl⟩ := hone hk
    exact ⟨3, i, rfl, ht, rfl⟩
  | sparkEval a i1 i2 rest h1 h2 =>
    obtain ⟨rfl, rfl⟩ := hone hk
    exact ⟨1, i, rfl, ht, rfl⟩
  | mkframeEval fno n pos i1 i2 rest h1 h2 hpos =>
    obtain ⟨rfl, rfl⟩ := hone hk
    cases ht
  | squeezeReturn count remove i1 i2 rest h1 h2 =>
    obtain ⟨rfl, rfl⟩ := hone hk
    cases ht
  | bifJfalse b addr i1 i2 rest h1 h2 hb =>
    obtain ⟨rfl, rfl⟩ := hone hk
    cases ht
    exact ⟨1, i2, rfl, by rw [h2]; rfl, rfl⟩
  | jeqChain a d n v i1 i2 i3 i4 rest h1 h2 h3 h4 =>
    match k, hk with
    | 0, hk => exact ⟨0, i, hk, ht, rfl⟩
    | 1, hk => exact ⟨1, i, hk, ht, rfl⟩
  | evalJeqChain a d n v i1 i2 i3 i4 i5 rest h1 h2 h3 h4 h5 =>
    match k, hk with
    | 0, hk => exact ⟨0, i, hk, ht, rfl⟩
    | 1, hk => exact ⟨1, i, hk, ht, rfl⟩
    | 2, hk => exact ⟨2, i, hk, ht, rfl⟩
  | pop n i1 rest h1 => simp at hk
  | keep i1 rest h1 =>
    obtain ⟨rfl, rfl⟩ := hone hk
    exact ⟨0, i, rfl, ht, rfl⟩

theorem Rewrites.jumps {A B : List Instr} {M : Nat → Nat} (hr : Rewrites A M B) (h : Ready A) :
    Ready B ∧ ∀ {q u : Nat} {j : Instr}, B[q]? = some j → j.op.target = some u →
      ∃ (p t : Nat) (i : Instr), A[p]? = some i ∧ i.op.target = some t ∧ M p = q ∧ M t = u := by
  induction hr with
  | start => exact ⟨h, fun {q u j} hj hu => ⟨q, u, j, hj, hu, rfl, rfl⟩⟩
  | @round M B hr ih =>
    obtain ⟨hB, hjumps⟩ := ih
    have hround := peepholeRound_round B
    refine ⟨hround.ready hB, fun {q u j} hj hu => ?_⟩
    obtain ⟨p, dest, chain, w, k, i, -, hw, rfl, hk, rfl⟩ := hround.here.origin (Nat.zero_le _) hj
    rw [Instr.mapTarget_target, Option.map_eq_some_iff] at hu
    obtain ⟨t, ht, rfl⟩ := hu
    obtain ⟨m, i', hi', ht', hm⟩ := hw.rule.out_target hk ht
    obtain ⟨p0, t0, i0, hi0, ht0, hp0, ht0'⟩ := hjumps (hw.getElem? hi') ht'
    exact ⟨p0, t0, i0, hi0, ht0, by rw [Function.comp, hp0, hw.map m k hm],
      by rw [Function.comp, ht0']⟩

/-! ## Relative addresses -/

section Relative

variable {V : Type} {world : World V}

theorem absolute_length (c : List Instr) : (absolute c).length = c.length := by
  simp [absolute]

/-- Runs of the code that the compiler emits. -/
theorem runFrom_absolute (code : List Instr) : ∀ (fuel pc : Nat) (w : world.State) (data : Nat → V),
    runFrom world (· + ·) code fuel pc w data =
      runFrom world (fun _ t => t) (absolute code) fuel pc w data
  | 0, _, _, _ => rfl
  | fuel + 1, pc, w, data => by
    simp only [runFrom, getElem?_absolute]
    cases code[pc]? with
    | none => rfl
    | some i =>
      simp only [Option.map_some, step_mapTarget]
      cases step world i w data with
      | fall data1 w1 events => simp only [runFrom_absolute code fuel]
      | goto addr data1 w1 events => simp only [runFrom_absolute code fuel, Nat.add_comm]
      | stop events outcome => rfl

theorem run_absolute (c : List Instr) (w : world.State) (data : Nat → V) :
    run world c w data = runAt world (absolute c) 0 w data := by
  unfold run runAt
  rw [runFrom_absolute, absolute_length, Nat.sub_zero]

theorem Instr.mapTarget_mapTarget (f g : Nat → Nat) (i : Instr) :
    (i.mapTarget f).mapTarget g = i.mapTarget (g ∘ f) := by
  obtain ⟨op, n, si⟩ := i
  cases op <;> rfl

theorem Instr.mapTarget_eq_self {f : Nat → Nat} {i : Instr}
    (h : ∀ t, i.op.target = some t → f t = t) : i.mapTarget f = i := by
  obtain ⟨op, n, si⟩ := i
  cases op <;> try rfl
  all_goals simp only [Instr.mapTarget, Op.target, Op.setTarget, h _ rfl]

theorem absolute_relative {B : List Instr} (h : Forward B) : absolute (relative B) = B := by
  apply List.ext_getElem?
  intro q
  rw [getElem?_absolute]
  unfold relative
  rw [List.getElem?_mapIdx, Option.map_map]
  cases hi : B[q]? with
  | none => rfl
  | some i =>
    rw [Option.map_some, Function.comp, Instr.mapTarget_mapTarget, Instr.mapTarget_eq_self]
    intro t ht
    have := h hi ht
    show t - q + q = t
    omega

theorem evalJeqChain_map (f : Nat → Nat) (l : List Instr) :
    evalJeqChain (l.map (Instr.mapTarget f)) =
      (evalJeqChain l).map (fun w => { w with out := w.out.map (Instr.mapTarget f) }) := by
  obtain _ | ⟨i1, _ | ⟨i2, _ | ⟨i3, _ | ⟨i4, _ | ⟨i5, l⟩⟩⟩⟩⟩ := l <;> try rfl
  obtain ⟨op1, n1, si1⟩ := i1
  cases op1 <;> try rfl
  obtain ⟨op2, n2, si2⟩ := i2
  cases op2 <;> try rfl
  obtain ⟨op3, n3, si3⟩ := i3
  cases op3 <;> try rfl
  obtain ⟨op4, n4, si4⟩ := i4
  cases op4 <;> try rfl
  obtain ⟨op5, n5, si5⟩ := i5
  cases op5 <;> try rfl
  simp only [List.map_cons, evalJeqChain, Instr.mapTarget, Op.target, Op.setTarget]
  split <;> rfl

theorem chainNext_map (f : Nat → Nat) (a : Nat) (l : List Instr) :
    (chainNext (some (a, true)) (l.map (Instr.mapTarget f))).isSome =
      (chainNext (some (a, true)) l).isSome := by
  obtain _ | ⟨i1, _ | ⟨i2, _ | ⟨i3, _ | ⟨i4, l⟩⟩⟩⟩ := l <;> try rfl
  obtain ⟨op1, n1, si1⟩ := i1
  cases op1 <;> try rfl
  obtain ⟨op2, n2, si2⟩ := i2
  cases op2 <;> try rfl
  obtain ⟨op3, n3, si3⟩ := i3
  cases op3 <;> try rfl
  obtain ⟨op4, n4, si4⟩ := i4
  cases op4 <;> try rfl
  simp only [List.map_cons, chainNext, Instr.mapTarget, Op.target, Op.setTarget]
  split <;> rfl

theorem entersChain_map (f : Nat → Nat) (l : List Instr) (t : Nat) :
    entersChain (l.map (Instr.mapTarget f)) t = entersChain l t := by
  cases t with
  | zero => rfl
  | succ q =>
    simp only [entersChain, ← List.map_drop, evalJeqChain_map]
    cases hw : evalJeqChain (l.drop q) with
    | none => rfl
    | some w =>
      have hchain : ∃ a, w.chain = some (a, true) := by
        unfold evalJeqChain at hw
        split at hw
        · split at hw
          · split at hw
            · cases hw
              exact ⟨_, rfl⟩
            · cases hw
          · cases hw
        · cases hw
      obtain ⟨a, ha⟩ := hchain
      simp only [Option.map_some, ha, chainNext_map]

theorem entersChain_absolute (c : List Instr) (t : Nat) :
    entersChain (absolute c) t = entersChain c t := by
  rw [← entersChain_map (fun _ => 0) (absolute c), ← entersChain_map (fun _ => 0) c]
  congr 1
  apply List.ext_getElem?
  intro p
  rw [List.getElem?_map, List.getElem?_map, getElem?_absolute, Option.map_map]
  congr 1
  funext i
  exact Instr.mapTarget_mapTarget _ _ i
theorem avoids_absolute (code : List Instr) : ∀ (fuel pc : Nat) (w : world.State)
    (data : Nat → V), avoids world (entersChain code) (· + ·) code fuel pc w data =
      avoids world (entersChain (absolute code)) (fun _ t => t) (absolute code) fuel pc w data
  | 0, _, _, _ => rfl
  | fuel + 1, pc, w, data => by
    simp only [avoids, getElem?_absolute]
    cases code[pc]? with
    | none => rfl
    | some i =>
      simp only [Option.map_some, step_mapTarget]
      cases step world i w data with
      | fall data1 w1 events => exact avoids_absolute code fuel _ _ _
      | goto addr data1 w1 events =>
        simp only [avoids_absolute code fuel, entersChain_absolute, Nat.add_comm]
      | stop events outcome => rfl

end Relative

/-! ## The pass -/

section Pass

variable {scs : List Scomb} {fuel : Nat} {p : Pmap} {s s' : CompState} {e : Snode}
  {c : List Instr}

/-- The rounds end; after each of them a jump goes to the image of its old target; and the new
code does what the old one does in every run that takes no jump into a chain of tests. -/
theorem peephole_preserves (hd : Distinct p e.binders)
    (hc : compR scs fuel p s.si.length e s = some (c, s')) :
    Rounds (absolute c) (absolute (peephole c)) ∧
    (∀ M B, Rewrites (absolute c) M B → ∀ q u j, B[q]? = some j → j.op.target = some u →
      q < u ∧ u < B.length ∧ ∃ a t i, (absolute c)[a]? = some i ∧ i.op.target = some t ∧
        M a = q ∧ M t = u) ∧
    ∀ (V : Type) (world : World V) (w : world.State) (data : Nat → V),
      avoids world (entersChain c) (· + ·) c c.length 0 w data = true →
      Merged (run world c w data) (run world (peephole c) w data) := by
  obtain ⟨hcompiled, hfresh⟩ := (compR_spec e p s c s' hd hc).absolute
  have h : Ready (absolute c) := ⟨hcompiled, Or.inl hfresh⟩
  have hback : absolute (peephole c) = peepholeRounds (c.length + 1) (absolute c) :=
    absolute_relative (h.rounds _).compiled.forward
  refine ⟨?_, ?_, ?_⟩
  · rw [hback]
    exact peepholeRounds_rounds _ (by rw [absolute_length]; omega)
  · intro M B hr q u j hj hu
    obtain ⟨hB, hjumps⟩ := hr.jumps h
    exact ⟨hB.compiled.forward hj hu, IsTarget.lt_length hB.compiled ⟨q, j, hj, hu⟩,
      hjumps hj hu⟩
  · intro V world w data hav
    rw [avoids_absolute, ← absolute_length, ← Nat.sub_zero (absolute c).length] at hav
    rw [run_absolute, run_absolute, hback]
    exact h.rounds_merged _ hav

end Pass

/-! ### A chain of tests -/

/-- A heap with one frame, `none`, which returns 2; the state is what it has returned. -/
def oneFrame : World (Option Kind) where
  State := Option Kind
  number := fun d => some (.number d)
  nil := some .nil
  true_ := some .other
  string := fun _ => some .other
  kind := fun _ v => v.getD .other
  value := fun st v => (v.or st).map some
  apply := fun st req =>
    match req with
    | .mkframe _ _ => some (none, none)
    | .eval v => some ((v.or (some (.number 0x4000000000000000))),
        v.or (some (.number 0x4000000000000000)))
    | _ => some (some .nil, st)
  kind_nil := fun _ => rfl
  kind_true := fun _ => rfl
  value_eval := by
    intro st v r st' h
    cases v <;> simp at h <;> obtain ⟨rfl, rfl⟩ := h <;> exact ⟨rfl, rfl⟩
  value_mkframe := by
    intro st fno args v st' h
    simp at h
    obtain ⟨rfl, rfl⟩ := h
    rfl

/-- `(== e d)` -/
def equals (e : Snode) (d : Double) : Snode :=
  .application (.application (.builtin .eq) e false) (.number d) false

/-- `(if cond t f)` -/
def ifThenElse (cond t f : Snode) : Snode :=
  .application (.application (.application (.builtin .if_) cond false) t false) f false

/-- `letrec a = (h x) in (if (== e 1) 3 (if (== a 2) 4 5))` -/
def twoTests (e : Snode) : Snode :=
  .letrec (.bind "a" (.application (.scref 0) (.symbol "x") false) true .done)
    (ifThenElse (equals e 0x3FF0000000000000) (.number 0x4008000000000000)
      (ifThenElse (equals (.symbol "a") 0x4000000000000000) (.number 0x4010000000000000)
        (.number 0x4014000000000000)))

/-- The table of the functions called. -/
def oneScomb : List Scomb :=
  [{ name := "h", argnames := ["y"], body := .symbol "y", strictin := some [false] }]

def argStatus : CompState := { si := [.unknown, .unknown], strings := [] }

/-- The code of a function with the arguments `x` and `q`. -/
def bodyEmit (e : Snode) : Option (List Instr × CompState) :=
  compR oneScomb 1 [("x", 2), ("q", 1)] 2 e argStatus

def bodyCode (e : Snode) : List Instr := ((bodyEmit e).map Prod.fst).getD []

theorem bodyEmit_some {e : Snode} (h : (bodyEmit e).isSome = true) :
    ∃ s', bodyEmit e = some (bodyCode e, s') := by
  unfold bodyCode
  cases hb : bodyEmit e with
  | none => rw [hb] at h; cases h
  | some r => exact ⟨r.2, rfl⟩

/-- Both tests are about `a`, and the second `PUSH` and `EVAL` are dropped. -/
theorem peephole_preserves_twoTests :
    bodyCode (twoTests (.symbol "a")) ≠ [] ∧
    Rounds (absolute (bodyCode (twoTests (.symbol "a"))))
      (absolute (peephole (bodyCode (twoTests (.symbol "a"))))) ∧
    Merged (run oneFrame (bodyCode (twoTests (.symbol "a"))) none (fun _ => some .nil))
      (run oneFrame (peephole (bodyCode (twoTests (.symbol "a")))) none (fun _ => some .nil)) := by
  obtain ⟨s', hc⟩ := bodyEmit_some (e := twoTests (.symbol "a")) (by decide +kernel)
  obtain ⟨hr, -, hm⟩ := peephole_preserves (s := argStatus) (by decide +kernel) hc
  exact ⟨by decide +kernel, hr, hm _ oneFrame none (fun _ => some .nil) (by decide +kernel)⟩

/-- The value of the inner `if` is `q`, and the second test takes it for the value of `a`. -/
theorem peephole_not_preserves :
    ¬∀ (scs : List Scomb) (fuel : Nat) (p : Pmap) (s s' : CompState) (e : Snode)
      (c : List Instr), Distinct p e.binders →
      compR scs fuel p s.si.length e s = some (c, s') →
      ∀ (V : Type) (world : World V) (w : world.State) (data : Nat → V),
        Merged (run world c w data) (run world (peephole c) w data) := by
  intro h
  obtain ⟨s', hc⟩ := bodyEmit_some
    (e := twoTests (ifThenElse (.symbol "a") (.symbol "q") (.symbol "a"))) (by decide +kernel)
  have hm := h oneScomb 1 [("x", 2), ("q", 1)] argStatus s' _ _ (by decide +kernel) hc _ oneFrame
    none (fun _ => some (.number 0x4008000000000000))
  exact absurd hm.2 (by decide +kernel)

end Bytecode
end NReduce
