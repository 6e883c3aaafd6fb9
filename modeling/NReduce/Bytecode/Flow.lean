import NReduce.Bytecode.Emit

/-!
# NReduce.Bytecode.Flow

What the compiler promises about the code it emits, without looking at what the code computes.

* `Flow`: along every edge of the control flow, the stack picture recorded at the target promises
  no more than the picture left by the source. In particular the depths agree.
* `Jumps`: jumps go forward, never to the end unless the top of the stack is left unevaluated, and
  never to a `RETURN`, `JFALSE` or `JEQ`; no `JEQ` falls through to a target in three steps or less.
  A `POP` takes one evaluated value and stands before a place that could be jumped to, and so does
  a `SQUEEZE` that keeps nothing.

`Core` bundles them for a piece of code and is closed under sequencing.
-/

namespace NReduce
namespace Bytecode

open Compiler

/-! ## Stack pictures -/

/-- `a` promises no more about the stack than `b`. -/
def Weaker (a b : List Status) : Prop :=
  a.length = b.length ∧
    ∀ (i : Nat) (x y : Status), a[i]? = some x → b[i]? = some y → x.toNat ≤ y.toNat

theorem Weaker.refl (a : List Status) : Weaker a a := by
  refine ⟨rfl, ?_⟩
  intro i x y hx hy
  rw [hx] at hy
  cases hy
  exact Nat.le_refl _

theorem Weaker.trans {a b c : List Status} (h1 : Weaker a b) (h2 : Weaker b c) : Weaker a c := by
  refine ⟨h1.1.trans h2.1, ?_⟩
  intro i x z hx hz
  have hi : i < b.length := h1.1 ▸ (List.getElem?_eq_some_iff.mp hx).1
  have hy : b[i]? = some b[i] := List.getElem?_eq_getElem hi
  exact Nat.le_trans (h1.2 i x _ hx hy) (h2.2 i _ z hy hz)

theorem Weaker.append {a b a' b' : List Status} (h : Weaker a b) (h' : Weaker a' b') :
    Weaker (a ++ a') (b ++ b') := by
  obtain ⟨hl, hs⟩ := h
  obtain ⟨hl', hs'⟩ := h'
  refine ⟨by simp [hl, hl'], ?_⟩
  intro i x y hx hy
  rw [List.getElem?_append] at hx hy
  rw [← hl] at hy
  split at hx
  · rw [if_pos ‹_›] at hy
    exact hs i x y hx hy
  · rw [if_neg ‹_›] at hy
    exact hs' _ x y hx hy

theorem Weaker.append_inv {a b a' b' : List Status} (h : Weaker (a ++ a') (b ++ b'))
    (hl : a.length = b.length) : Weaker a b ∧ Weaker a' b' := by
  obtain ⟨hlen, hs⟩ := h
  simp only [List.length_append] at hlen
  refine ⟨⟨hl, ?_⟩, ⟨by omega, ?_⟩⟩
  · intro i x y hx hy
    have hi := (List.getElem?_eq_some_iff.mp hx).1
    refine hs i x y ?_ ?_
    · rw [List.getElem?_append_left hi, hx]
    · rw [List.getElem?_append_left (hl ▸ hi), hy]
  · intro i x y hx hy
    refine hs (a.length + i) x y ?_ ?_
    · rw [List.getElem?_append_right (by omega)]
      simpa using hx
    · rw [List.getElem?_append_right (by omega), hl]
      simpa using hy

theorem Weaker.singleton {x y : Status} (h : x.toNat ≤ y.toNat) : Weaker [x] [y] := by
  refine ⟨rfl, ?_⟩
  intro i x' y' hx hy
  cases i with
  | zero =>
    simp only [List.getElem?_cons_zero, Option.some.injEq] at hx hy
    subst hx hy
    exact h
  | succ i => simp at hx

theorem Status.toNat_le (s : Status) : s.toNat ≤ 2 := by cases s <;> decide

/-- Raising the status of one slot. -/
theorem Weaker.set (a : List Status) (i : Nat) (x : Status)
    (h : ∀ y, a[i]? = some y → y.toNat ≤ x.toNat) : Weaker a (a.set i x) := by
  refine ⟨by simp, ?_⟩
  intro j y z hy hz
  rw [List.getElem?_set] at hz
  split at hz
  · split at hz
    · cases hz
      subst ‹i = j›
      exact h y hy
    · simp at hz
  · rw [hy] at hz
    cases hz
    exact Nat.le_refl _

/-! ## Control flow -/

/-- The instruction may continue with the one after it. -/
def Op.falls : Op → Bool
  | .ret | .do_ _ | .jfun _ _ | .jump _ | .error | .invalid | .end_ => false
  | _ => true

/-- The argument of a jump; `is_jump` says whether there is one. -/
def Op.target : Op → Option Nat
  | .jfalse d | .jump d | .jcmp d _ | .jeq d _ => some d
  | _ => none

/-- The stack picture after an instruction, those of the peephole pass included. -/
def Op.post (op : Op) (si : List Status) : Option (List Status) :=
  match op with
  | .call _ n => (popStatus n si).map (· ++ [.evaluated])
  | .jcmp _ _ => popStatus 2 si
  | op => (op.effect si).map StackInfo.si

theorem Op.post_of_effect {op : Op} {si : List Status} {e : StackInfo}
    (h : op.effect si = some e) : op.post si = some e.si := by
  cases op
  case call => cases h
  case jcmp => cases h
  all_goals exact congrArg (Option.map StackInfo.si) h

/-- What an instruction needs of the slots whose values it looks at. -/
def Op.ready (op : Op) (si : List Status) : Prop :=
  match op with
  | .bif b | .jcmp _ b =>
    ∀ k < (builtinInfo b).nstrict, si[si.length - 1 - k]? = some .evaluated
  | .jfalse _ | .jeq _ _ | .do_ _ | .ret => si.getLast? = some .evaluated
  | _ => True

/-- Code that is entered with a stack as in `si`; the end of it is entered with `exit`. -/
def Fits (exit : List Status) (code : List Instr) (si : List Status) : Prop :=
  match code with
  | [] => Weaker exit si
  | i :: _ => Weaker i.si si

def Flow (exit : List Status) : List Instr → Prop
  | [] => True
  | i :: rest =>
    (i.expcount = i.si.length ∧ i.op.ready i.si) ∧ (∃ post, i.op.post i.si = some post ∧
      (i.op.falls → Fits exit rest post) ∧
      (∀ d, i.op.target = some d →
        0 < d ∧ d ≤ rest.length + 1 ∧ Fits exit ((i :: rest).drop d) post)) ∧
    Flow exit rest

theorem Fits.mono {exit si si' : List Status} {code : List Instr} (h : Fits exit code si)
    (hw : Weaker si si') : Fits exit code si' := by
  cases code with
  | nil => exact Weaker.trans h hw
  | cons i rest => exact Weaker.trans h hw

theorem Fits.append {e1 e2 si : List Status} {c1 c2 : List Instr} (h1 : Fits e1 c1 si)
    (h2 : Fits e2 c2 e1) : Fits e2 (c1 ++ c2) si := by
  cases c1 with
  | nil => exact h2.mono h1
  | cons i rest => exact h1

theorem Flow.append {e1 e2 : List Status} {c1 c2 : List Instr} (h1 : Flow e1 c1)
    (h2 : Flow e2 c2) (he : Fits e2 c2 e1) : Flow e2 (c1 ++ c2) := by
  induction c1 with
  | nil => exact h2
  | cons i rest ih =>
    obtain ⟨hi, ⟨post, hp, hf, ht⟩, hr⟩ := h1
    rw [List.cons_append]
    refine ⟨hi, ⟨post, hp, ?_, ?_⟩, ih hr⟩
    · intro h
      exact (hf h).append he
    · intro d hd
      obtain ⟨h0, hl, hfit⟩ := ht d hd
      refine ⟨h0, by rw [List.length_append]; omega, ?_⟩
      have hdrop : (i :: (rest ++ c2)).drop d = (i :: rest).drop d ++ c2 := by
        rw [← List.cons_append, List.drop_append_of_le_length (by simpa using hl)]
      rw [hdrop]
      exact hfit.append he

theorem Fits.weaken {e1 e2 si : List Status} {c : List Instr} (h : Fits e1 c si)
    (hw : Weaker e2 e1) : Fits e2 c si := by
  simpa using @Fits.append e1 e2 si c [] h hw

theorem Flow.weaken {e1 e2 : List Status} {c : List Instr} (h : Flow e1 c) (hw : Weaker e2 e1) :
    Flow e2 c := by
  simpa using @Flow.append e1 e2 c [] h trivial hw

/-! ## Where jumps land -/

/-- A place that a jump may go to. `POP` and `SQUEEZE` are looked through; `ok` says whether the
end of the code is such a place. -/
def Landing (ok : Prop) : List Instr → Prop
  | [] => ok
  | i :: rest =>
    match i.op with
    | .pop _ | .squeeze _ _ => Landing ok rest
    | .ret | .jfalse _ | .jeq _ _ => False
    | _ => True

theorem Landing.append {ok1 ok2 : Prop} {c1 c2 : List Instr} (h1 : Landing ok1 c1)
    (h2 : ok1 → Landing ok2 c2) : Landing ok2 (c1 ++ c2) := by
  induction c1 with
  | nil => exact h2 h1
  | cons i rest ih =>
    rw [List.cons_append]
    unfold Landing at h1 ⊢
    split at h1
    · exact ih h1
    · exact ih h1
    · exact h1
    · exact h1
    · exact h1
    · simp

theorem Landing.weaken {ok1 ok2 : Prop} {c : List Instr} (h : Landing ok1 c) (hok : ok1 → ok2) :
    Landing ok2 c := by
  simpa using @Landing.append ok1 ok2 c [] h hok

/-- The last instructions from which control falls through to the end, the last first. -/
def fallTail (c : List Instr) : List Instr := c.reverse.takeWhile (fun i => i.op.falls)

/-- No `JEQ` falls through to the end in at most three steps. -/
def NoJeqTail (c : List Instr) : Prop :=
  ∀ i ∈ (fallTail c).take 3, ∀ d v, i.op ≠ .jeq d v

theorem NoJeqTail.nil : NoJeqTail [] := by
  intro i hi
  simp [fallTail] at hi

theorem fallTail_append (c1 c2 : List Instr) :
    fallTail (c1 ++ c2) =
      if (fallTail c2).length = c2.length then fallTail c2 ++ fallTail c1 else fallTail c2 := by
  unfold fallTail
  rw [List.reverse_append, List.takeWhile_append]
  simp only [List.length_reverse]
  split
  · rename_i h
    have : List.takeWhile (fun i : Instr => i.op.falls) c2.reverse = c2.reverse :=
      (List.takeWhile_sublist _).eq_of_length (by rw [h, List.length_reverse])
    rw [this]
  · rfl

theorem NoJeqTail.append {c1 c2 : List Instr} (h1 : NoJeqTail c1) (h2 : NoJeqTail c2) :
    NoJeqTail (c1 ++ c2) := by
  intro i hi
  rw [fallTail_append] at hi
  split at hi
  · rw [List.take_append] at hi
    rcases List.mem_append.mp hi with hi | hi
    · exact h2 i hi
    · refine h1 i (List.take_subset_take_left _ ?_ hi)
      omega
  · exact h2 i hi

theorem NoJeqTail.singleton {i : Instr} (h : ∀ d v, i.op ≠ .jeq d v) : NoJeqTail [i] := by
  intro j hj
  have hm : j ∈ [i] := by
    have := List.mem_of_mem_take hj
    unfold fallTail at this
    simpa using (List.takeWhile_sublist _).subset this
  rw [List.mem_singleton] at hm
  subst hm
  exact h

/-- Nothing falls past an instruction that leaves. -/
theorem NoJeqTail.of_last {i : Instr} (c : List Instr) (h : i.op.falls = false) :
    NoJeqTail (c ++ [i]) := by
  intro j hj
  simp [fallTail, h] at hj

def Jumps (ok : Prop) : List Instr → Prop
  | [] => True
  | i :: rest =>
    (∀ d, i.op.target = some d →
      2 ≤ d ∧ d ≤ rest.length + 1 ∧ Landing ok ((i :: rest).drop d) ∧
        NoJeqTail ((i :: rest).take d)) ∧
    (∀ n, i.op = .pop n → n = 1 ∧ i.si.getLast? = some .evaluated ∧ Landing ok rest) ∧
    (∀ n, i.op = .squeeze 0 n → Landing ok rest) ∧
    Jumps ok rest

theorem Jumps.append {ok1 ok2 : Prop} {c1 c2 : List Instr} (h1 : Jumps ok1 c1)
    (h2 : Jumps ok2 c2) (hl : ok1 → Landing ok2 c2) : Jumps ok2 (c1 ++ c2) := by
  induction c1 with
  | nil => exact h2
  | cons i rest ih =>
    obtain ⟨hi, hpop, hsq, hr⟩ := h1
    rw [List.cons_append]
    refine ⟨?_, ?_, fun n hn => (hsq n hn).append hl, ih hr⟩
    · intro d hd
      obtain ⟨h0, hle, hland, htail⟩ := hi d hd
      have hle' : d ≤ (i :: rest).length := by simpa using hle
      refine ⟨h0, by rw [List.length_append]; omega, ?_, ?_⟩
      · have hdrop : (i :: (rest ++ c2)).drop d = (i :: rest).drop d ++ c2 := by
          rw [← List.cons_append, List.drop_append_of_le_length hle']
        rw [hdrop]
        exact hland.append hl
      · have htake : (i :: (rest ++ c2)).take d = (i :: rest).take d := by
          rw [← List.cons_append, List.take_append_of_le_length hle']
        rw [htake]
        exact htail
    · intro n hn
      obtain ⟨h1, htop, hland⟩ := hpop n hn
      exact ⟨h1, htop, hland.append hl⟩

theorem Jumps.weaken {ok1 ok2 : Prop} {c : List Instr} (h : Jumps ok1 c) (hok : ok1 → ok2) :
    Jumps ok2 c := by
  simpa using @Jumps.append ok1 ok2 c [] h trivial hok

end Bytecode
end NReduce
