import NReduce.Bytecode.Flow

/-!
# NReduce.Bytecode.EmitFlow

Every piece of code that the schemes emit is well formed in the sense of `NReduce.Bytecode.Flow`,
leaves one new slot on the stack and never lowers what is known of the slots below it. `compR_spec`
is the result for the body of a supercombinator.
-/

namespace NReduce
namespace Bytecode

open Compiler

/-- The top of the stack is not known to be evaluated. Only then may code jump to its own end. -/
def CompState.isOpen (s : CompState) : Prop := s.si.getLast? ≠ some .evaluated

/-- Code emitted between two states of the compiler. -/
structure Core (s : CompState) (c : List Instr) (s' : CompState) : Prop where
  flow : Flow s'.si c
  fits : Fits s'.si c s.si
  jumps : Jumps s'.isOpen c
  tail : NoJeqTail c

/-- Code that may also follow code that jumps to its own end. -/
structure Piece (s : CompState) (c : List Instr) (s' : CompState) : Prop extends Core s c s' where
  start : s.isOpen → Landing s'.isOpen c

theorem Core.append {s s1 s2 : CompState} {c1 c2 : List Instr} (h1 : Core s c1 s1)
    (h2 : Piece s1 c2 s2) : Core s (c1 ++ c2) s2 where
  flow := h1.flow.append h2.flow h2.fits
  fits := h1.fits.append h2.fits
  jumps := h1.jumps.append h2.jumps h2.start
  tail := h1.tail.append h2.tail

theorem Piece.append {s s1 s2 : CompState} {c1 c2 : List Instr} (h1 : Piece s c1 s1)
    (h2 : Piece s1 c2 s2) : Piece s (c1 ++ c2) s2 where
  toCore := h1.toCore.append h2
  start := fun h => (h1.start h).append h2.start

theorem Piece.nil (s : CompState) : Piece s [] s where
  flow := trivial
  fits := Weaker.refl _
  jumps := trivial
  tail := NoJeqTail.nil
  start := id

/-- The stack has `k` new slots, and the others are known at least as well as before. -/
def Grows (s s' : CompState) (k : Nat) : Prop :=
  ∃ base top, s'.si = base ++ top ∧ Weaker s.si base ∧ top.length = k

theorem Grows.refl (s : CompState) : Grows s s 0 := ⟨s.si, [], by simp, Weaker.refl _, rfl⟩

theorem Grows.length {s s' : CompState} {k : Nat} (h : Grows s s' k) :
    s'.si.length = s.si.length + k := by
  obtain ⟨base, top, hs, hw, ht⟩ := h
  rw [hs, List.length_append, ht, hw.1]

theorem Grows.trans {s s1 s2 : CompState} {k1 k2 : Nat} (h1 : Grows s s1 k1)
    (h2 : Grows s1 s2 k2) : Grows s s2 (k1 + k2) := by
  obtain ⟨b1, t1, hs1, hw1, ht1⟩ := h1
  obtain ⟨b2, t2, hs2, hw2, ht2⟩ := h2
  have hlen : b1.length ≤ b2.length := by
    have := hw2.1
    rw [hs1, List.length_append] at this
    omega
  have hsplit : Weaker (b1 ++ t1) (b2.take b1.length ++ b2.drop b1.length) := by
    rw [List.take_append_drop, ← hs1]
    exact hw2
  obtain ⟨hbase, htop⟩ := hsplit.append_inv (by simp [hlen])
  refine ⟨b2.take b1.length, b2.drop b1.length ++ t2, ?_, hw1.trans hbase, ?_⟩
  · rw [← List.append_assoc, List.take_append_drop, hs2]
  · rw [List.length_append, ← htop.1, ht1, ht2]

/-! ## One instruction -/

namespace Emit

theorem int_some {d : Double} {f : Int → Emit} {s : CompState} {r : List Instr × CompState}
    (h : Emit.int d f s = some r) : ∃ k, toInt d = some k ∧ f k s = some r :=
  Option.bind_eq_some_iff.mp h

theorem andThen_some {a b : Emit} {s s' : CompState} {c : List Instr}
    (h : andThen a b s = some (c, s')) :
    ∃ c1 s1 c2, a s = some (c1, s1) ∧ b s1 = some (c2, s') ∧ c = c1 ++ c2 := by
  unfold andThen at h
  cases ha : a s with
  | none => simp [ha] at h
  | some r1 =>
    cases hb : b r1.2 with
    | none => simp [ha, hb] at h
    | some r2 =>
      simp only [ha, hb, Option.bind_eq_bind, Option.bind_some, Option.pure_def,
        Option.some.injEq, Prod.mk.injEq] at h
      exact ⟨r1.1, r1.2, r2.1, rfl, by rw [hb, ← h.2], h.1.symm⟩

theorem op_some {o : Op} {s s' : CompState} {c : List Instr} (h : op o s = some (c, s')) :
    s.invalid = false ∧ c = [⟨o, s.si.length, s.si⟩] ∧
      o.effect s.si = some ⟨s'.si, s'.invalid⟩ ∧ s'.strings = s.strings := by
  unfold op at h
  split at h
  · simp at h
  · cases he : o.effect s.si with
    | none => simp [he] at h
    | some e =>
      simp only [he, Option.bind_eq_bind, Option.bind_some, Option.pure_def, Option.some.injEq,
        Prod.mk.injEq] at h
      obtain ⟨hc, hs⟩ := h
      subst hs
      exact ⟨by simpa using ‹¬s.invalid = true›, hc.symm, rfl, rfl⟩

end Emit

/-- An instruction that is no jump, no `POP` and no `SQUEEZE` of nothing. -/
theorem Core.op {o : Op} {s s' : CompState} {c : List Instr} (h : Emit.op o s = some (c, s'))
    (hj : o.target = none) (hpop : ∀ n, o ≠ .pop n) (hsq : ∀ n, o ≠ .squeeze 0 n)
    (hr : o.ready s.si) : Core s c s' := by
  obtain ⟨-, rfl, he, -⟩ := Emit.op_some h
  refine ⟨⟨⟨rfl, hr⟩, ⟨s'.si, Op.post_of_effect he, fun _ => Weaker.refl _, ?_⟩, trivial⟩,
    Weaker.refl _,
    ⟨?_, fun n hn => absurd hn (hpop n), fun n hn => absurd hn (hsq n), trivial⟩, ?_⟩
  · intro d hd
    rw [show (Instr.mk o s.si.length s.si).op = o from rfl, hj] at hd
    cases hd
  · intro d hd
    rw [show (Instr.mk o s.si.length s.si).op = o from rfl, hj] at hd
    cases hd
  · refine NoJeqTail.singleton ?_
    rintro d v rfl
    simp [Op.target] at hj

/-- Instructions that a jump may go to. -/
def Op.plain : Op → Bool
  | .ret | .jfalse _ | .jeq _ _ | .pop _ | .squeeze _ _ | .jump _ | .jcmp _ _ => false
  | _ => true

theorem landing_plain {ok : Prop} {i : Instr} (rest : List Instr) (h : i.op.plain = true) :
    Landing ok (i :: rest) := by
  unfold Landing
  cases hi : i.op <;> rw [hi] at h <;> simp [Op.plain] at h ⊢

theorem Piece.op {o : Op} {s s' : CompState} {c : List Instr}
    (h : Emit.op o s = some (c, s')) (hp : o.plain = true) (hr : o.ready s.si) :
    Piece s c s' := by
  refine ⟨Core.op h ?_ ?_ ?_ hr, ?_⟩
  · cases o <;> simp [Op.plain, Op.target] at hp ⊢
  · rintro n rfl
    simp [Op.plain] at hp
  · rintro n rfl
    simp [Op.plain] at hp
  · intro _
    obtain ⟨-, rfl, -, -⟩ := Emit.op_some h
    exact landing_plain _ hp

/-- `POP` of an evaluated value and the code that goes on without it. -/
theorem Core.pop {s s1 s2 : CompState} {c1 c2 : List Instr} (hclosed : ¬s.isOpen)
    (h : Emit.op (.pop 1) s = some (c1, s1)) (h2 : Core s1 c2 s2) (hl : Landing False c2) :
    Core s (c1 ++ c2) s2 := by
  obtain ⟨-, rfl, he, -⟩ := Emit.op_some h
  refine ⟨⟨⟨rfl, trivial⟩, ⟨s1.si, Op.post_of_effect he, fun _ => h2.fits, by simp [Op.target]⟩,
    h2.flow⟩,
    Weaker.refl _, ⟨by simp [Op.target], ?_, by simp, h2.jumps⟩, ?_⟩
  · intro n hn
    cases hn
    exact ⟨rfl, not_not.mp hclosed, hl.weaken False.elim⟩
  · exact (NoJeqTail.singleton (by simp)).append h2.tail

theorem squeeze_effect {count remove : Nat} {si : List Status} {e : StackInfo}
    (h : (Op.squeeze count remove).effect si = some e) :
    count + remove ≤ si.length ∧
      e = ⟨si.take (si.length - count - remove) ++ si.drop (si.length - count), false⟩ := by
  simp only [Op.effect] at h
  split at h
  · exact ⟨‹_›, by simpa using h.symm⟩
  · cases h

theorem Piece.squeeze {count remove : Nat} {s s' : CompState} {c : List Instr}
    (h : Emit.op (.squeeze count remove) s = some (c, s')) (hc : 0 < count) : Piece s c s' := by
  refine ⟨Core.op h rfl (by simp) (by rintro n hn; cases hn; omega) trivial, ?_⟩
  obtain ⟨-, rfl, he, -⟩ := Emit.op_some h
  obtain ⟨hle, hs⟩ := squeeze_effect he
  intro ho
  show s'.isOpen
  have hsi : s'.si = _ := congrArg StackInfo.si hs
  unfold CompState.isOpen at ho ⊢
  rw [hsi]
  rwa [List.getLast?_append_of_ne_nil, List.getLast?_drop, if_neg]
  · omega
  · intro hn
    have := congrArg List.length hn
    simp at this
    omega

/-! ## The stack after an instruction -/

/-- One new slot with status `st`. -/
def Pushes (s s' : CompState) (st : Status) : Prop :=
  ∃ base, s'.si = base ++ [st] ∧ Weaker s.si base

theorem Pushes.grows {s s' : CompState} {st : Status} (h : Pushes s s' st) : Grows s s' 1 := by
  obtain ⟨base, hs, hw⟩ := h
  exact ⟨base, [st], hs, hw, rfl⟩

theorem Pushes.isOpen_iff {s s' : CompState} {st : Status} (h : Pushes s s' st) :
    s'.isOpen ↔ st ≠ .evaluated := by
  obtain ⟨base, hs, -⟩ := h
  unfold CompState.isOpen
  rw [hs, List.getLast?_concat, ne_eq, Option.some.injEq]

theorem Grows.pushes {s s1 s2 : CompState} {st : Status} (h1 : Grows s s1 0)
    (h2 : Pushes s1 s2 st) : Pushes s s2 st := by
  obtain ⟨b1, t1, hs1, hw1, ht1⟩ := h1
  obtain ⟨b2, hs2, hw2⟩ := h2
  rw [List.length_eq_zero_iff] at ht1
  subst ht1
  rw [hs1, List.append_nil] at hw2
  exact ⟨b2, hs2, hw1.trans hw2⟩

/-- Evaluation below the top leaves the top a slot of its own. -/
theorem Pushes.then_grows {s s1 s2 : CompState} {st : Status} (h1 : Pushes s s1 st)
    (h2 : Grows s1 s2 0) : ∃ st', Pushes s s2 st' ∧ st.toNat ≤ st'.toNat := by
  obtain ⟨b1, hs1, hw1⟩ := h1
  obtain ⟨b2, t2, hs2, hw2, ht2⟩ := h2
  rw [List.length_eq_zero_iff] at ht2
  subst ht2
  rw [List.append_nil] at hs2
  rw [← hs2, hs1] at hw2
  have hne : s2.si ≠ [] := by
    intro hn
    have := hw2.1
    rw [hn] at this
    simp at this
  have hsplit := List.dropLast_append_getLast hne
  rw [← hsplit] at hw2
  have hlen : b1.length = s2.si.dropLast.length := by
    have := hw2.1
    simp only [List.length_append, List.length_cons, List.length_nil] at this
    omega
  obtain ⟨hb, ht⟩ := hw2.append_inv hlen
  exact ⟨_, ⟨_, hsplit.symm, hw1.trans hb⟩, ht.2 0 _ _ rfl rfl⟩

theorem popStatus_some {n : Nat} {si si' : List Status} (h : popStatus n si = some si') :
    n ≤ si.length ∧ si' = si.take (si.length - n) := by
  unfold popStatus at h
  split at h
  · exact ⟨‹_›, by simpa using h.symm⟩
  · cases h

/-- Replacing the `n` topmost slots by one. -/
theorem Grows.replace {s s1 s2 : CompState} {n : Nat} {st : Status} {si : List Status}
    (h1 : Grows s s1 n) (hp : popStatus n s1.si = some si) (h2 : s2.si = si ++ [st]) :
    Pushes s s2 st := by
  obtain ⟨b1, t1, hs1, hw1, ht1⟩ := h1
  obtain ⟨-, rfl⟩ := popStatus_some hp
  refine ⟨b1, ?_, hw1⟩
  rw [h2, hs1, ← ht1]
  simp

/-- The instructions that leave a slot with a status of its own. -/
theorem op_pushes {o : Op} {s s1 s2 : CompState} {c : List Instr} {n : Nat} {st : Status}
    (h : Emit.op o s1 = some (c, s2))
    (ho : o.effect s1.si = (popStatus n s1.si).map (fun si => ⟨si ++ [st], false⟩))
    (hg : Grows s s1 n) : Pushes s s2 st := by
  obtain ⟨-, -, he, -⟩ := Emit.op_some h
  rw [ho] at he
  cases hp : popStatus n s1.si with
  | none => simp [hp] at he
  | some si =>
    rw [hp, Option.map_some, Option.some.injEq] at he
    exact hg.replace hp (congrArg StackInfo.si he).symm

theorem popStatus_zero (si : List Status) : popStatus 0 si = some si := by simp [popStatus]

theorem op_pushes_const {o : Op} {s s' : CompState} {c : List Instr} {st : Status}
    (h : Emit.op o s = some (c, s')) (ho : o.effect s.si = some ⟨s.si ++ [st], false⟩) :
    Pushes s s' st :=
  op_pushes (n := 0) h (by rw [ho, popStatus_zero, Option.map_some]) (Grows.refl s)

theorem push_pushes {pos : Nat} {s s' : CompState} {c : List Instr}
    (h : Emit.op (.push pos) s = some (c, s')) :
    ∃ st, s.si[pos]? = some st ∧ Pushes s s' st := by
  obtain ⟨-, -, he, -⟩ := Emit.op_some h
  cases hs : s.si[pos]? with
  | none => simp [Op.effect, hs] at he
  | some st => exact ⟨st, rfl, op_pushes_const h (by simp [Op.effect, hs])⟩

/-! ## The macros -/

theorem Emit.spark_spec {a : Nat} {s s' : CompState} {c : List Instr}
    (h : Emit.spark a s = some (c, s')) :
    Piece s c s' ∧ Grows s s' 0 ∧
      ∃ st, s'.si[s.si.length - 1 - a]? = some st ∧ 1 ≤ st.toNat := by
  unfold Emit.spark at h
  split at h
  case isFalse => cases h
  rename_i ha
  have hlt : s.si.length - 1 - a < s.si.length := by omega
  split at h
  · rename_i hu
    obtain ⟨-, -, he, -⟩ := Emit.op_some h
    have hs : s'.si = s.si.set (s.si.length - 1 - a) .sparked := by
      simp only [Op.effect, hu, Option.map_some, if_true, Option.some.injEq,
        StackInfo.mk.injEq] at he
      exact he.1.symm
    refine ⟨Piece.op h rfl trivial, ⟨s'.si, [], by simp, ?_, rfl⟩, .sparked, ?_, by decide⟩
    · rw [hs]
      refine Weaker.set _ _ _ ?_
      intro y hy
      rw [hu] at hy
      cases hy
      decide
    · rw [hs, List.getElem?_set_self hlt]
  · rename_i hu
    cases h
    refine ⟨Piece.nil s, Grows.refl s, s.si[s.si.length - 1 - a], List.getElem?_eq_getElem hlt, ?_⟩
    rw [List.getElem?_eq_getElem hlt] at hu
    cases hst : s.si[s.si.length - 1 - a] with
    | unknown => rw [hst] at hu; exact absurd rfl hu
    | sparked => decide
    | evaluated => decide

theorem Emit.eval_spec {a : Nat} {s s' : CompState} {c : List Instr}
    (h : Emit.eval a s = some (c, s')) :
    Piece s c s' ∧ Grows s s' 0 ∧ s'.si[s.si.length - 1 - a]? = some .evaluated := by
  unfold Emit.eval at h
  split at h
  case isFalse => cases h
  rename_i ha
  have hlt : s.si.length - 1 - a < s.si.length := by omega
  split at h
  · rename_i hu
    cases h
    exact ⟨Piece.nil s, Grows.refl s, hu⟩
  · obtain ⟨-, -, he, -⟩ := Emit.op_some h
    have hs : s'.si = s.si.set (s.si.length - 1 - a) .evaluated := by
      simp only [Op.effect, if_pos hlt, Option.some.injEq, StackInfo.mk.injEq] at he
      exact he.1.symm
    refine ⟨Piece.op h rfl trivial, ⟨s'.si, [], by simp, ?_, rfl⟩, ?_⟩
    · rw [hs]
      exact Weaker.set _ _ _ (fun y _ => Status.toNat_le y)
    · rw [hs, List.getElem?_set_self hlt]

/-- After `EVAL` of the top nothing may jump here. -/
theorem Emit.eval_top_closed {s s' : CompState} {c : List Instr}
    (h : Emit.eval 0 s = some (c, s')) : ¬s'.isOpen := by
  obtain ⟨-, hg, he⟩ := Emit.eval_spec h
  unfold CompState.isOpen
  rw [List.getLast?_eq_getElem?, hg.length, Nat.add_zero]
  rw [Nat.sub_zero] at he
  exact fun hn => hn he

theorem Emit.push_spec {a : Nat} {s s' : CompState} {c : List Instr}
    (h : Emit.push a s = some (c, s')) :
    Piece s c s' ∧ Landing False c ∧
      ∃ st, s.si[s.si.length - 1 - a]? = some st ∧ Pushes s s' st := by
  unfold Emit.push at h
  split at h
  case isFalse => cases h
  refine ⟨Piece.op h rfl trivial, ?_, push_pushes h⟩
  obtain ⟨-, rfl, -, -⟩ := Emit.op_some h
  exact landing_plain _ rfl

theorem Weaker.evaluated {a b : List Status} {k : Nat} (h : Weaker a b)
    (hk : a[k]? = some .evaluated) : b[k]? = some .evaluated := by
  have hlt : k < b.length := h.1 ▸ (List.getElem?_eq_some_iff.mp hk).1
  have hb := List.getElem?_eq_getElem hlt
  have := h.2 k _ _ hk hb
  rw [hb]
  cases hst : b[k] <;> rw [hst] at this <;> simp [Status.toNat] at this ⊢

theorem Grows.evaluated {s s' : CompState} {k : Nat} (h : Grows s s' 0)
    (hk : s.si[k]? = some .evaluated) : s'.si[k]? = some .evaluated := by
  obtain ⟨base, top, hs, hw, ht⟩ := h
  rw [List.length_eq_zero_iff] at ht
  rw [hs, ht, List.append_nil]
  exact hw.evaluated hk

theorem Emit.evals_spec {k : Nat} : ∀ {a : Nat} {s s' : CompState} {c : List Instr},
    Emit.evals k a s = some (c, s') → Piece s c s' ∧ Grows s s' 0 ∧
      ∀ m < k, s'.si[s'.si.length - 1 - (a + m)]? = some .evaluated := by
  induction k with
  | zero =>
    intro a s s' c h
    cases h
    exact ⟨Piece.nil _, Grows.refl _, by omega⟩
  | succ k ih =>
    intro a s s' c h
    obtain ⟨c1, s1, c2, h1, h2, rfl⟩ := Emit.andThen_some h
    obtain ⟨hp1, hg1, he1⟩ := Emit.eval_spec h1
    obtain ⟨hp2, hg2, he2⟩ := ih h2
    refine ⟨hp1.append hp2, hg1.trans hg2, fun m hm => ?_⟩
    cases m with
    | zero =>
      have := hg2.evaluated he1
      rwa [← hg1.length.trans (Nat.add_zero _), ← hg2.length.trans (Nat.add_zero _)] at this
    | succ m =>
      rw [show a + (m + 1) = a + 1 + m by omega]
      exact he2 m (by omega)

/-- The result of a builtin, by `reswhnf`. -/
def resultStatus (b : Bif) : Status := if (builtinInfo b).reswhnf then .evaluated else .unknown

theorem Emit.builtin_spec {b : Bif} {s s1 s' : CompState} {c : List Instr}
    (h : Emit.builtin b s1 = some (c, s')) (hg : Grows s s1 (builtinInfo b).nargs) :
    Piece s1 c s' ∧ Pushes s s' (resultStatus b) := by
  obtain ⟨c1, s2, c2, h1, h2, rfl⟩ := Emit.andThen_some h
  obtain ⟨hp1, hg1, he⟩ := Emit.evals_spec h1
  refine ⟨hp1.append (Piece.op h2 rfl (fun k hk => ?_)), op_pushes h2 rfl (hg.trans hg1)⟩
  simpa using he k hk

theorem Emit.pushString_spec {v : String} {s s' : CompState} {c : List Instr}
    (h : Emit.pushString v s = some (c, s')) :
    Piece s c s' ∧ Landing False c ∧ Pushes s s' .evaluated := by
  unfold Emit.pushString at h
  split at h
  · refine ⟨Piece.op h rfl trivial, ?_, op_pushes_const h rfl⟩
    obtain ⟨-, rfl, -, -⟩ := Emit.op_some h
    exact landing_plain _ rfl
  · have hp := Piece.op h rfl trivial
    have hs := op_pushes_const h rfl
    obtain ⟨-, rfl, -, -⟩ := Emit.op_some h
    exact ⟨⟨⟨hp.flow, hp.fits, hp.jumps, hp.tail⟩, hp.start⟩, landing_plain _ rfl, hs⟩

theorem op_landing {o : Op} {s s' : CompState} {c : List Instr} (h : Emit.op o s = some (c, s'))
    (hp : o.plain = true) : Landing False c := by
  obtain ⟨-, rfl, -, -⟩ := Emit.op_some h
  exact landing_plain _ hp

theorem Landing.of_false {ok : Prop} {c : List Instr} (h : Landing False c) : Landing ok c := by
  exact h.weaken False.elim

theorem Emit.spark_landing {a : Nat} {s s' : CompState} {c : List Instr}
    (h : Emit.spark a s = some (c, s')) : Landing True c := by
  unfold Emit.spark at h
  split at h
  case isFalse => cases h
  split at h
  · exact (op_landing h rfl).of_false
  · cases h
    trivial

theorem Emit.eval_landing {a : Nat} {s s' : CompState} {c : List Instr}
    (h : Emit.eval a s = some (c, s')) : Landing True c := by
  unfold Emit.eval at h
  split at h
  case isFalse => cases h
  split at h
  · cases h
    trivial
  · exact (op_landing h rfl).of_false

/-- `SPARK` and `EVAL` of the top slot. -/
theorem Emit.spark_top {s s1 s2 : CompState} {c : List Instr} {st : Status}
    (hs : Pushes s s1 st) (h : Emit.spark 0 s1 = some (c, s2)) :
    Piece s1 c s2 ∧ ∃ st', Pushes s s2 st' ∧ 1 ≤ st'.toNat := by
  obtain ⟨hp, hg, st', hst, hle⟩ := Emit.spark_spec h
  obtain ⟨st2, ⟨base, hb, hw⟩, -⟩ := hs.then_grows hg
  refine ⟨hp, st2, ⟨base, hb, hw⟩, ?_⟩
  have hlen : s1.si.length - 1 - 0 = base.length := by
    have := hg.length
    rw [hb] at this
    simp only [List.length_append, List.length_cons, List.length_nil] at this
    omega
  rw [hb, hlen, List.getElem?_concat_length, Option.some.injEq] at hst
  rwa [hst]

theorem Emit.eval_top {s s1 s2 : CompState} {c : List Instr} {st : Status}
    (hs : Pushes s s1 st) (h : Emit.eval 0 s1 = some (c, s2)) :
    Piece s1 c s2 ∧ Pushes s s2 .evaluated := by
  obtain ⟨hp, hg, -⟩ := Emit.eval_spec h
  obtain ⟨st2, hs2, -⟩ := hs.then_grows hg
  refine ⟨hp, ?_⟩
  have := Emit.eval_top_closed h
  rw [hs2.isOpen_iff, not_not] at this
  exact this ▸ hs2

section Schemes

variable {scs : List Scomb} {fuel : Nat}

theorem domkframe_sc {i : Nat} {sc : Scomb} (h : scs[i]? = some sc) (n : Nat) :
    domkframe scs (fuel + 1) (.sc i) n =
      if sc.nargs = 0 then
        if n ≠ 0 then fun _ => none
        else constFrame scs (fun j => domkframe scs fuel (.sc j) 0) i sc.body
      else Emit.op (.mkframe (.sc i) n) := by
  simp only [domkframe, h]

theorem domkframe_sc_none {i : Nat} (h : scs[i]? = none) (n : Nat) :
    domkframe scs (fuel + 1) (.sc i) n = fun _ => none := by
  simp only [domkframe, h]

/-- What `domkframe` promises of its code, on top of `n` new slots. -/
def FrameSpec (s s1 : CompState) (c : List Instr) (s' : CompState) : Prop :=
  Piece s1 c s' ∧ Landing False c ∧ ∃ st, Pushes s s' st

theorem FrameSpec.op {o : Op} {s s1 s' : CompState} {c : List Instr} {n : Nat} {st : Status}
    (h : Emit.op o s1 = some (c, s')) (hp : o.plain = true) (hr : o.ready s1.si)
    (ho : o.effect s1.si = (popStatus n s1.si).map (fun si => ⟨si ++ [st], false⟩))
    (hg : Grows s s1 n) : FrameSpec s s1 c s' :=
  ⟨Piece.op h hp hr, op_landing h hp, st, op_pushes h ho hg⟩

theorem FrameSpec.const {o : Op} {s s1 s' : CompState} {c : List Instr} {st : Status}
    (h : Emit.op o s1 = some (c, s')) (hp : o.plain = true) (hr : o.ready s1.si)
    (ho : o.effect s1.si = some ⟨s1.si ++ [st], false⟩) (hg : Grows s s1 0) :
    FrameSpec s s1 c s' :=
  ⟨Piece.op h hp hr, op_landing h hp, st, hg.pushes (op_pushes_const h ho)⟩

theorem constFrame_spec {follow : Nat → Emit} {i : Nat} {e : Snode} {s s1 s' : CompState}
    {c : List Instr} (h : constFrame scs follow i e s1 = some (c, s')) (hg : Grows s s1 0)
    (hf : ∀ j, follow j s1 = some (c, s') → FrameSpec s s1 c s') : FrameSpec s s1 c s' := by
  cases e with
  | number d => exact FrameSpec.const h rfl trivial rfl hg
  | string v =>
    obtain ⟨hp, hl, hs⟩ := Emit.pushString_spec h
    exact ⟨hp, hl, _, hg.pushes hs⟩
  | nil => exact FrameSpec.const h rfl trivial rfl hg
  | scref j =>
    simp only [constFrame] at h
    cases hk : functionNargs scs (.sc j) with
    | none => simp [hk] at h
    | some k =>
      cases k with
      | zero => rw [hk] at h; exact hf j h
      | succ k => rw [hk] at h; exact FrameSpec.op h rfl trivial rfl hg
  | _ => exact FrameSpec.op h rfl trivial rfl hg

theorem domkframe_spec {fno : Fn} {n : Nat} {s s1 s' : CompState} {c : List Instr}
    (h : domkframe scs fuel fno n s1 = some (c, s')) (hg : Grows s s1 n) :
    FrameSpec s s1 c s' := by
  induction fuel generalizing fno n with
  | zero => cases h
  | succ fuel ih =>
    rcases fno with b | i
    · simp only [domkframe] at h
      split at h
      · split at h
        case isFalse => cases h
        have hn : (builtinInfo .cons).nargs = n := by rw [‹n = 2›]; decide
        have hz : (builtinInfo .cons).nstrict = 0 := by decide
        obtain ⟨hp, hs⟩ := Emit.builtin_spec h (hn ▸ hg)
        obtain ⟨c1, s2, c2, h1, h2, rfl⟩ := Emit.andThen_some h
        rw [hz] at h1
        cases h1
        exact ⟨hp, op_landing h2 rfl, _, hs⟩
      · exact FrameSpec.op h rfl trivial rfl hg
    · cases hsc : scs[i]? with
      | none => rw [domkframe_sc_none hsc] at h; cases h
      | some sc =>
        rw [domkframe_sc hsc] at h
        split at h
        case isFalse => exact FrameSpec.op h rfl trivial rfl hg
        split at h
        case isTrue => cases h
        obtain rfl : n = 0 := by omega
        exact constFrame_spec h hg (fun j hj => ih hj hg)

/-! ## The ends of applications -/

/-- What scheme `C` and scheme `E` promise of the code of an expression. -/
structure ExprSpec (least : Nat) (s : CompState) (c : List Instr) (s' : CompState) : Prop where
  piece : Piece s c s'
  landing : Landing False c
  pushes : ∃ st, Pushes s s' st ∧ least ≤ st.toNat

/-- The same for code that uses up `m` slots pushed before it. -/
def EndSpec (least : Nat) (s s1 : CompState) (c : List Instr) (s' : CompState) : Prop :=
  Piece s1 c s' ∧ ∃ st, Pushes s s' st ∧ least ≤ st.toNat

theorem EndSpec.frame_spark {fno : Fn} {k : Nat} {s s1 s' : CompState} {c : List Instr}
    (h : Emit.andThen (domkframe scs fuel fno k) (Emit.spark 0) s1 = some (c, s'))
    (hg : Grows s s1 k) : EndSpec 1 s s1 c s' := by
  obtain ⟨c1, s2, c2, h1, h2, rfl⟩ := Emit.andThen_some h
  obtain ⟨hp1, -, st, hs1⟩ := domkframe_spec h1 hg
  obtain ⟨hp2, hs2⟩ := Emit.spark_top hs1 h2
  exact ⟨hp1.append hp2, hs2⟩

theorem EndSpec.frame_eval {fno : Fn} {k : Nat} {s s1 s' : CompState} {c : List Instr}
    (h : Emit.andThen (domkframe scs fuel fno k) (Emit.eval 0) s1 = some (c, s'))
    (hg : Grows s s1 k) : EndSpec 2 s s1 c s' := by
  obtain ⟨c1, s2, c2, h1, h2, rfl⟩ := Emit.andThen_some h
  obtain ⟨hp1, -, st, hs1⟩ := domkframe_spec h1 hg
  obtain ⟨hp2, hs2⟩ := Emit.eval_top hs1 h2
  exact ⟨hp1.append hp2, _, hs2, by decide⟩

theorem finishE_spec {head : Snode} {m : Nat} {s s1 s' : CompState} {c : List Instr}
    (h : finishE scs fuel head m s1 = some (c, s')) (hg : Grows s s1 m) :
    EndSpec 1 s s1 c s' := by
  unfold finishE at h
  cases hf : snodeFno head with
  | none => simp [hf] at h
  | some fno =>
    cases hk : functionNargs scs fno with
    | none => simp [hf, hk] at h
    | some k =>
      simp only [hf, hk, Option.bind_eq_bind, Option.bind_some] at h
      by_cases hm : m = k
      · rw [if_pos hm] at h
        subst hm
        rcases fno with b | i
        · simp only at h
          by_cases hpure : (builtinInfo b).pure
          · rw [if_pos hpure] at h
            have hn : (builtinInfo b).nargs = m := by simpa [functionNargs] using hk
            split at h
            · rename_i hw
              obtain ⟨hp, hs⟩ := Emit.builtin_spec h (hn ▸ hg)
              exact ⟨hp, _, hs, by rw [resultStatus, if_pos hw]; decide⟩
            · obtain ⟨c1, s2, c2, h1, h2, rfl⟩ := Emit.andThen_some h
              obtain ⟨hp1, hs1⟩ := Emit.builtin_spec h1 (hn ▸ hg)
              obtain ⟨hp2, hs2⟩ := Emit.spark_top hs1 h2
              exact ⟨hp1.append hp2, hs2⟩
          · rw [if_neg hpure] at h
            obtain ⟨hp, st, hs, hle⟩ := EndSpec.frame_eval h hg
            exact ⟨hp, st, hs, by omega⟩
        · exact EndSpec.frame_spark h hg
      · rw [if_neg hm] at h
        obtain ⟨c1, s2, c2, h1, h2, rfl⟩ := Emit.andThen_some h
        obtain ⟨hp2, hs2⟩ := Emit.spark_top (op_pushes h1 rfl hg) h2
        exact ⟨(Piece.op h1 rfl trivial).append hp2, hs2⟩

theorem finishC_spec {head : Snode} {m : Nat} {s s1 s' : CompState} {c : List Instr}
    (h : finishC scs fuel head m s1 = some (c, s')) (hg : Grows s s1 m) :
    EndSpec 0 s s1 c s' := by
  unfold finishC at h
  cases hf : snodeFno head with
  | none => simp [hf] at h
  | some fno =>
    cases hk : functionNargs scs fno with
    | none => simp [hf, hk] at h
    | some k =>
      simp only [hf, hk, Option.bind_eq_bind, Option.bind_some] at h
      split at h
      case isFalse => cases h
      split at h
      · subst ‹m = k›
        obtain ⟨hp, -, st, hs⟩ := domkframe_spec h hg
        exact ⟨hp, st, hs, Nat.zero_le _⟩
      · exact ⟨Piece.op h rfl trivial, _, op_pushes h rfl hg, Nat.zero_le _⟩

theorem emitRef_spec {fno : Fn} {s s' : CompState} {c : List Instr}
    (h : emitRef scs fuel fno s = some (c, s')) : ExprSpec 0 s c s' := by
  unfold emitRef at h
  cases hk : functionNargs scs fno with
  | none => simp [hk] at h
  | some k =>
    simp only [hk, Option.bind_eq_bind, Option.bind_some] at h
    split at h
    · obtain ⟨hp, hl, st, hs⟩ := domkframe_spec h (Grows.refl s)
      exact ⟨hp, hl, st, hs, Nat.zero_le _⟩
    · exact ⟨Piece.op h rfl trivial, op_landing h rfl, _, op_pushes h rfl (Grows.refl s), Nat.zero_le _⟩

/-! ## Branches -/

end Schemes

/-- The two branches of an `if` and the jumps around them. `sf` is the state after it. -/
theorem Piece.ite {s s1 s2 s4 sf : CompState} {c1 c2 : List Instr} {jmp : Nat → Op}
    (hj : ∀ d, (jmp d).target = some d) (hpost : ∀ d, (jmp d).post s.si = some s1.si)
    (hready : ∀ d, (jmp d).ready s.si)
    (hclosed : ¬s.isOpen) (h1 : Core s1 c1 s2) (h2 : Core s1 c2 s4) (hl : Landing False c2)
    (hw1 : Weaker sf.si s2.si) (hw2 : Weaker sf.si s4.si) (hopen : sf.isOpen) :
    Piece s (⟨jmp (c1.length + 2), s.si.length, s.si⟩ ::
      (c1 ++ ⟨.jump (c2.length + 1), s2.si.length, s2.si⟩ :: c2)) sf := by
  have hnopop : ∀ n, jmp (c1.length + 2) = .pop n → n = 1 ∧ s.si.getLast? = some .evaluated ∧
      Landing sf.isOpen (c1 ++ ⟨.jump (c2.length + 1), s2.si.length, s2.si⟩ :: c2) := by
    intro n hn
    have := hj (c1.length + 2)
    rw [hn] at this
    cases this
  have hnosq : ∀ n, jmp (c1.length + 2) = .squeeze 0 n →
      Landing sf.isOpen (c1 ++ ⟨.jump (c2.length + 1), s2.si.length, s2.si⟩ :: c2) := by
    intro n hn
    have := hj (c1.length + 2)
    rw [hn] at this
    cases this
  have hexit : ∀ {c : List Instr} {s' : CompState}, Core s1 c s' → Weaker sf.si s'.si →
      Flow sf.si c := by
    intro c s' hc hw
    exact hc.flow.weaken hw
  have hflowJump : Flow sf.si (⟨.jump (c2.length + 1), s2.si.length, s2.si⟩ :: c2) := by
    refine ⟨⟨rfl, trivial⟩, ⟨s2.si, rfl, by simp [Op.falls], ?_⟩, hexit h2 hw2⟩
    intro d hd
    simp only [Op.target, Option.some.injEq] at hd
    subst hd
    exact ⟨by omega, by omega, by simpa [Fits] using hw1⟩
  have hfit2 : Fits sf.si c2 s1.si := by
    exact h2.fits.weaken hw2
  have hfit1 : Fits sf.si (c1 ++ ⟨.jump (c2.length + 1), s2.si.length, s2.si⟩ :: c2) s1.si :=
    h1.fits.append (Weaker.refl _)
  have hdrop : (⟨jmp (c1.length + 2), s.si.length, s.si⟩ ::
      (c1 ++ ⟨.jump (c2.length + 1), s2.si.length, s2.si⟩ :: c2)).drop (c1.length + 2) = c2 := by
    simp [List.drop_append]
  have htailJump : NoJeqTail (⟨.jump (c2.length + 1), s2.si.length, s2.si⟩ :: c2) := by
    rw [← List.singleton_append]
    exact (NoJeqTail.singleton (by simp)).append h2.tail
  have hjumps2 : Jumps sf.isOpen c2 := by
    exact h2.jumps.weaken (fun _ => hopen)
  refine ⟨⟨⟨⟨rfl, hready _⟩, ⟨s1.si, hpost _, fun _ => hfit1, ?_⟩, ?_⟩, ?_,
    ⟨?_, hnopop, hnosq, ?_⟩, ?_⟩, fun h => absurd h hclosed⟩
  · intro d hd
    simp only [hj, Option.some.injEq] at hd
    subst hd
    refine ⟨by omega, by simp only [List.length_append, List.length_cons]; omega, ?_⟩
    rw [hdrop]
    exact hfit2
  · exact h1.flow.append hflowJump (Weaker.refl _)
  · exact Weaker.refl _
  · intro d hd
    simp only [hj, Option.some.injEq] at hd
    subst hd
    refine ⟨by omega, by simp only [List.length_append, List.length_cons]; omega, ?_, ?_⟩
    · rw [hdrop]
      exact hl.of_false
    · have htake : (⟨jmp (c1.length + 2), s.si.length, s.si⟩ ::
          (c1 ++ ⟨.jump (c2.length + 1), s2.si.length, s2.si⟩ :: c2)).take (c1.length + 2) =
          (⟨jmp (c1.length + 2), s.si.length, s.si⟩ :: c1) ++
            [⟨.jump (c2.length + 1), s2.si.length, s2.si⟩] := by
        simp [List.take_append, List.take_of_length_le]
      rw [htake]
      exact NoJeqTail.of_last _ rfl
  · refine h1.jumps.append ⟨?_, by simp, by simp, hjumps2⟩ (fun _ => ?_)
    · intro d hd
      simp only [Op.target, Option.some.injEq] at hd
      subst hd
      refine ⟨?_, by omega, ?_, ?_⟩
      · have : c2 ≠ [] := by rintro rfl; exact hl
        have : 0 < c2.length := List.length_pos_iff.mpr this
        omega
      · simpa [Landing] using hopen
      · rw [List.take_of_length_le (by simp)]
        exact htailJump
    · simp [Landing]
  · rw [show (⟨jmp (c1.length + 2), s.si.length, s.si⟩ ::
        (c1 ++ ⟨.jump (c2.length + 1), s2.si.length, s2.si⟩ :: c2)) =
        ((⟨jmp (c1.length + 2), s.si.length, s.si⟩ :: c1) ++
          [⟨.jump (c2.length + 1), s2.si.length, s2.si⟩]) ++ c2 by simp]
    exact (NoJeqTail.of_last _ rfl).append h2.tail

section Schemes

variable {scs : List Scomb} {fuel : Nat}

theorem compE_application (p : Pmap) (n : Nat) (l r : Snode) (s : Bool) :
    (∃ x s1 d s2 s3 t s4, isIntegral d = true ∧
      l = .application (.application (.builtin .if_)
        (.application (.application (.builtin .eq) x s1) (.number d) s2) s3) t s4 ∧
      compE scs fuel p n (.application l r s) =
        Emit.andThen (compE scs fuel p n x) (Emit.andThen (Emit.eval 0)
          (Emit.int d fun k => Emit.andThen (emitIf (.jeq · k)
            (Emit.andThen (Emit.op (.pop 1)) (compE scs fuel p n r))
            (Emit.andThen (Emit.op (.pop 1)) (compE scs fuel p n t))) (joinStatus 1)))) ∨
    (∃ cond s3 t s4, l = .application (.application (.builtin .if_) cond s3) t s4 ∧
      compE scs fuel p n (.application l r s) =
        Emit.andThen (compE scs fuel p n cond) (Emit.andThen (Emit.eval 0)
          (Emit.andThen (emitIf .jfalse (compE scs fuel p n t) (compE scs fuel p n r))
            (joinStatus 0)))) ∨
    (∃ e1 s1, l = .application (.builtin .seq) e1 s1 ∧
      compE scs fuel p n (.application l r s) =
        Emit.andThen (compE scs fuel p n e1) (Emit.andThen (Emit.eval 0)
          (Emit.andThen (Emit.op (.pop 1)) (compE scs fuel p n r)))) ∨
    (∃ i d s1, l = .application (.scref i) (.number d) s1 ∧ isItem scs i = true ∧
      isIntegral d = true ∧
      compE scs fuel p n (.application l r s) =
        Emit.int d fun index => Emit.andThen (compE scs fuel p n r)
          (Emit.andThen (Emit.op (.itemn index false)) (Emit.spark 0))) ∨
    compE scs fuel p n (.application l r s) =
      Emit.andThen (checkE scs (.application l r s))
        (Emit.andThen (if s then compE scs fuel p n r else compC scs fuel p n r)
          (Emit.andThen (compArgsE scs fuel p (n + 1) l)
            (finishE scs fuel (spineHead l) (spineLength (.application l r s))))) := by
  generalize hE : compE scs fuel p n (.application l r s) = em
  rw [compE.eq_def] at hE
  simp only at hE
  generalize (if s = true then compE scs fuel p n r else compC scs fuel p n r) = arg at hE ⊢
  split at hE
  · rename_i cond s3 t s4
    split at hE
    · rename_i x s1 d s2
      split at hE
      · exact Or.inl ⟨x, s1, d, s2, s3, t, s4, by assumption, rfl, hE.symm⟩
      · exact Or.inr (Or.inl ⟨_, s3, t, s4, rfl, hE.symm⟩)
    · exact Or.inr (Or.inl ⟨_, s3, t, s4, rfl, hE.symm⟩)
  · rename_i e1 s1
    exact Or.inr (Or.inr (Or.inl ⟨e1, s1, rfl, hE.symm⟩))
  · rename_i i d s1
    split at hE
    · rename_i hc
      rw [Bool.and_eq_true] at hc
      exact Or.inr (Or.inr (Or.inr (Or.inl ⟨i, d, s1, rfl, hc.1, hc.2, hE.symm⟩)))
    · exact Or.inr (Or.inr (Or.inr (Or.inr hE.symm)))
  · exact Or.inr (Or.inr (Or.inr (Or.inr hE.symm)))

/-- What a branch of an `if` promises: one slot on top of `b`. -/
structure BranchSpec (b : List Status) (s1 : CompState) (c : List Instr) (s2 : CompState) :
    Prop where
  core : Core s1 c s2
  landing : Landing False c
  pushes : ∃ b' st, s2.si = b' ++ [st] ∧ Weaker b b' ∧ 1 ≤ st.toNat

theorem BranchSpec.weaker {b : List Status} {s1 s2 : CompState} {c : List Instr}
    (h : BranchSpec b s1 c s2) : Weaker (b ++ [.sparked]) s2.si := by
  obtain ⟨b', st, hs, hw, hst⟩ := h.pushes
  rw [hs]
  exact hw.append (Weaker.singleton hst)

theorem emitIf_spec {s0 s s' : CompState} {c : List Instr} {jmp : Nat → Op} {ct cf : Emit}
    {pop : Nat} {b t : List Status}
    (h : Emit.andThen (emitIf jmp ct cf) (joinStatus pop) s = some (c, s'))
    (hs : s.si = b ++ [.evaluated]) (hb : Weaker s0.si b)
    (hj : ∀ d, (jmp d).target = some d) (heff : ∀ d, (jmp d).effect s.si = some ⟨t, false⟩)
    (hready : ∀ d, (jmp d).ready s.si) (hpop : popStatus pop t = some b)
    (hct : ∀ s1 c1 s2, s1.si = t → ct s1 = some (c1, s2) → BranchSpec b s1 c1 s2)
    (hcf : ∀ s1 c1 s2, s1.si = t → cf s1 = some (c1, s2) → BranchSpec b s1 c1 s2) :
    Piece s c s' ∧ Pushes s0 s' .sparked := by
  obtain ⟨c1, s5, c2, h1, h2, rfl⟩ := Emit.andThen_some h
  simp only [emitIf, Option.bind_eq_bind, Option.bind_eq_some_iff, Option.pure_def,
    Option.some.injEq, Prod.mk.injEq] at h1
  obtain ⟨⟨cj, s1⟩, hjmp, ⟨code1, s2⟩, h1t, ⟨cj', s3⟩, hjump, ⟨code2, s4⟩, h1f, rfl, rfl⟩ := h1
  obtain ⟨-, -, he1, -⟩ := Emit.op_some hjmp
  rw [heff, Option.some.injEq] at he1
  have hsi1 : s1.si = t := (congrArg StackInfo.si he1).symm
  have hbt := hct s1 code1 s2 hsi1 h1t
  have hbf := hcf { s1 with strings := s3.strings } code2 s4 hsi1 h1f
  have hs' : c2 = [] ∧ s'.si = b ++ [.sparked] := by
    have hpop1 : popStatus pop s1.si = some b := by rw [hsi1, hpop]
    simp only [joinStatus, hpop1, Option.bind_eq_bind, Option.bind_some, Option.pure_def,
      Option.some.injEq, Prod.mk.injEq] at h2
    exact ⟨h2.1.symm, by rw [← h2.2]⟩
  obtain ⟨rfl, hsi'⟩ := hs'
  refine ⟨?_, b, hsi', hb⟩
  have hcore2 : Core s1 code2 s4 := ⟨hbf.core.flow, hbf.core.fits, hbf.core.jumps, hbf.core.tail⟩
  have hopen : s'.isOpen := by
    unfold CompState.isOpen
    rw [hsi', List.getLast?_concat]
    simp
  have hclosed : ¬s.isOpen := by
    unfold CompState.isOpen
    rw [hs, List.getLast?_concat]
    simp
  rw [List.append_nil, List.cons_append]
  exact Piece.ite hj (fun d => by rw [Op.post_of_effect (heff d), hsi1]) hready hclosed hbt.core hcore2
    hbf.landing (hsi' ▸ hbt.weaker) (hsi' ▸ hbf.weaker) hopen

/-! ## The schemes `C` and `E` -/

/-- The names in scope and the binders of an expression are all different. -/
def Distinct (p : Pmap) (binders : List String) : Prop := (p.map Prod.fst ++ binders).Nodup

instance (p : Pmap) (binders : List String) : Decidable (Distinct p binders) :=
  inferInstanceAs (Decidable (List.Nodup _))

def SpecC (scs : List Scomb) (fuel : Nat) (e : Snode) : Prop :=
  ∀ (p : Pmap) (s : CompState) (c : List Instr) (s' : CompState), Distinct p e.binders →
    compC scs fuel p s.si.length e s = some (c, s') → ExprSpec 0 s c s'

def SpecE (scs : List Scomb) (fuel : Nat) (e : Snode) : Prop :=
  ∀ (p : Pmap) (s : CompState) (c : List Instr) (s' : CompState), Distinct p e.binders →
    compE scs fuel p s.si.length e s = some (c, s') → ExprSpec 1 s c s'

theorem Distinct.left {p : Pmap} {a b : List String} (h : Distinct p (a ++ b)) :
    Distinct p a := by
  unfold Distinct at h ⊢
  rw [← List.append_assoc] at h
  exact (List.nodup_append.mp h).1

theorem Distinct.right {p : Pmap} {a b : List String} (h : Distinct p (a ++ b)) :
    Distinct p b := by
  unfold Distinct at h ⊢
  refine h.sublist ?_
  exact (List.Sublist.refl _).append (List.sublist_append_right a b)

theorem ExprSpec.sparked {s s' : CompState} {c : List Instr} (h : ExprSpec 1 s c s') :
    ExprSpec 0 s c s' := by
  obtain ⟨hp, hl, st, hs, -⟩ := h
  exact ⟨hp, hl, st, hs, Nat.zero_le _⟩

theorem ExprSpec.then_spark {s s1 s2 : CompState} {c1 c2 : List Instr} (h : ExprSpec 0 s c1 s1)
    (h2 : Emit.spark 0 s1 = some (c2, s2)) : ExprSpec 1 s (c1 ++ c2) s2 := by
  obtain ⟨hp, hl, st, hs, -⟩ := h
  obtain ⟨hp2, hs2⟩ := Emit.spark_top hs h2
  exact ⟨hp.append hp2, hl.append False.elim, hs2⟩

theorem argE_spec {e : Snode} (hE : SpecE scs fuel e) (hC : SpecC scs fuel e) (strict : Bool)
    {p : Pmap} {s s' : CompState} {c : List Instr} (hd : Distinct p e.binders)
    (h : (if strict then compE scs fuel p s.si.length e
      else compC scs fuel p s.si.length e) s = some (c, s')) : ExprSpec 0 s c s' := by
  cases strict with
  | true => exact (hE p s c s' hd h).sparked
  | false => exact hC p s c s' hd h

theorem compArgsE_spec {l : Snode} :
    (∀ a ∈ spineArgs l, SpecE scs fuel a.1 ∧ SpecC scs fuel a.1) →
    ∀ {p : Pmap} {s s' : CompState} {c : List Instr}, Distinct p l.binders →
      compArgsE scs fuel p s.si.length l s = some (c, s') →
      Piece s c s' ∧ Grows s s' (spineLength l) := by
  induction l using spineLength.induct with
  | case1 l r b ih =>
    intro hargs p s s' c hd h
    simp only [compArgsE] at h
    obtain ⟨c1, s1, c2, h1, h2, rfl⟩ := Emit.andThen_some h
    have hr := hargs (r, b) (by simp [spineArgs])
    obtain ⟨hp1, -, st, hs1, -⟩ := argE_spec hr.1 hr.2 b hd.right h1
    rw [← hs1.grows.length] at h2
    obtain ⟨hp2, hg2⟩ := ih (fun a ha => hargs a (by simp [spineArgs, ha])) hd.left h2
    refine ⟨hp1.append hp2, ?_⟩
    have := hs1.grows.trans hg2
    rwa [Nat.add_comm 1] at this
  | case2 e he =>
    intro hargs p s s' c hd h
    cases e <;> first
      | exact absurd rfl (he _ _ _)
      | (cases h; exact ⟨Piece.nil _, Grows.refl _⟩)

theorem compArgsC_spec {l : Snode} :
    (∀ a ∈ spineArgs l, SpecC scs fuel a.1) →
    ∀ {p : Pmap} {s s' : CompState} {c : List Instr}, Distinct p l.binders →
      compArgsC scs fuel p s.si.length l s = some (c, s') →
      Piece s c s' ∧ Grows s s' (spineLength l) := by
  induction l using spineLength.induct with
  | case1 l r b ih =>
    intro hargs p s s' c hd h
    simp only [compArgsC] at h
    obtain ⟨c1, s1, c2, h1, h2, rfl⟩ := Emit.andThen_some h
    obtain ⟨hp1, -, st, hs1, -⟩ := hargs (r, b) (by simp [spineArgs]) p s c1 s1 hd.right h1
    rw [← hs1.grows.length] at h2
    obtain ⟨hp2, hg2⟩ := ih (fun a ha => hargs a (by simp [spineArgs, ha])) hd.left h2
    refine ⟨hp1.append hp2, ?_⟩
    have := hs1.grows.trans hg2
    rwa [Nat.add_comm 1] at this
  | case2 e he =>
    intro hargs p s s' c hd h
    cases e <;> first
      | exact absurd rfl (he _ _ _)
      | (cases h; exact ⟨Piece.nil _, Grows.refl _⟩)

/-! ### Letrecs -/

/-- The names of the bindings stand in the slots from `m` on. -/
def Slots (p : Pmap) (m : Nat) (bs : Letrec) : Prop :=
  ∀ (j : Nat) (x : String), bs.names[j]? = some x → presolve p x = some (m + j + 1)

theorem Slots.next {p : Pmap} {m : Nat} {x : String} {v : Snode} {b : Bool} {next : Letrec}
    (h : Slots p m (.bind x v b next)) : Slots p (m + 1) next := by
  intro j y hy
  have := h (j + 1) y (by simpa [Letrec.names] using hy)
  rw [this]
  congr 1
  omega

/-- A property of every value that the bindings give. -/
def Letrec.Values (P : Snode → Prop) : Letrec → Prop
  | .done => True
  | .bind _ v _ next => P v ∧ Values P next

/-- `UPDATE` of the slot `m` with the value on top of the stack. -/
theorem update_spec {m i : Nat} {s s' : CompState} {c : List Instr}
    (h : Emit.update i s = some (c, s')) (hi : s.si.length - 1 - i = m) :
    Piece s c s' ∧ Landing False c ∧ s'.si.length = s.si.length - 1 ∧
      ∀ n, n ≤ m → s'.si.take n = s.si.take n := by
  unfold Emit.update at h
  split at h
  case isFalse => cases h
  rw [hi] at h
  obtain ⟨-, -, he, -⟩ := Emit.op_some h
  have hm : m < s.si.length := by omega
  have hl : s.si.getLast? = some (s.si.getLast (List.ne_nil_of_length_pos (by omega))) :=
    List.getLast?_eq_some_getLast _
  simp only [Op.effect, hl, Option.bind_eq_bind, Option.bind_some, if_pos hm] at he
  cases hp : popStatus 1 (s.si.set m (s.si.getLast (List.ne_nil_of_length_pos (by omega)))) with
  | none => simp [hp] at he
  | some si =>
    rw [hp, Option.map_some, Option.some.injEq] at he
    have hsi : s'.si = si := (congrArg StackInfo.si he).symm
    obtain ⟨-, rfl⟩ := popStatus_some hp
    refine ⟨Piece.op h rfl trivial, op_landing h rfl, ?_, ?_⟩
    · rw [hsi]
      simp
    · intro n hn
      rw [hsi, List.take_take, Nat.min_eq_left (by simp; omega), List.take_set_of_le hn]

/-- The slots below `n` are known at least as well as before. -/
def Keeps (n : Nat) (s s' : CompState) : Prop := Weaker (s.si.take n) (s'.si.take n)

theorem Keeps.of_grows {n k : Nat} {s s' : CompState} (h : Grows s s' k) (hn : n ≤ s.si.length) :
    Keeps n s s' := by
  obtain ⟨base, top, hs, hw, -⟩ := h
  have hb : n ≤ base.length := hw.1 ▸ hn
  unfold Keeps
  rw [hs, List.take_append_of_le_length hb]
  have hsplit : Weaker (s.si.take n ++ s.si.drop n) (base.take n ++ base.drop n) := by
    rw [List.take_append_drop, List.take_append_drop]
    exact hw
  exact (hsplit.append_inv (by simp [hn, hb])).1

/-- A binding whose hole has been made. -/
theorem letrecValue_spec {v : Snode} (hE : SpecE scs fuel v) (hC : SpecC scs fuel v)
    {direct : Bool} {x : String} {p : Pmap} {m b : Nat} {s s1 s2 : CompState}
    {c1 c2 : List Instr} (hx : presolve p x = some (m + 1)) (hd : Distinct p v.binders)
    (hm : m < s.si.length) (hn : b ≤ m)
    (h1 : (if direct then compE scs fuel p s.si.length v else compC scs fuel p s.si.length v) s =
      some (c1, s1))
    (h2 : (match presolve p x with
      | some i => if i ≤ s.si.length + 1 then Emit.update (s.si.length + 1 - i) s1 else none
      | none => none) = some (c2, s2)) :
    Piece s (c1 ++ c2) s2 ∧ Landing False (c1 ++ c2) ∧ Keeps b s s2 ∧
      s2.si.length = s.si.length := by
  obtain ⟨hp1, hl1, st, hs1, -⟩ := argE_spec hE hC direct hd h1
  have hlen1 := hs1.grows.length
  simp only [hx] at h2
  rw [if_pos (by omega)] at h2
  obtain ⟨hp2, hl2, hlen2, hk2⟩ := update_spec (m := m) h2 (by omega)
  refine ⟨hp1.append hp2, hl1.append False.elim, ?_, by omega⟩
  have := Keeps.of_grows hs1.grows (n := b) (by omega)
  unfold Keeps at this ⊢
  rwa [hk2 b hn]

theorem alloc_spec {k : Nat} {s s' : CompState} {c : List Instr}
    (h : Emit.op (.alloc k) s = some (c, s')) : Piece s c s' ∧ Landing False c ∧ Grows s s' k := by
  refine ⟨Piece.op h rfl trivial, op_landing h rfl, ?_⟩
  obtain ⟨-, -, he, -⟩ := Emit.op_some h
  simp only [Op.effect, Option.some.injEq, StackInfo.mk.injEq] at he
  exact ⟨s.si, List.replicate k .unknown, he.1.symm, Weaker.refl _, by simp⟩

theorem compLetrec_spec {bs : Letrec} :
    ∀ {p : Pmap} {strictcontext alloced : Bool} {m k n b : Nat} {s s' : CompState}
      {c : List Instr}, Letrec.Values (fun v => SpecE scs fuel v ∧ SpecC scs fuel v) bs →
      Letrec.Values (fun v => Distinct p v.binders) bs → Slots p m bs → k = bs.names.length →
      n = (if alloced then m + k else m) → s.si.length = n → b ≤ m →
      compLetrec scs fuel p n strictcontext k alloced bs s = some (c, s') →
      Piece s c s' ∧ Landing True c ∧ Keeps b s s' ∧ s'.si.length = m + k := by
  induction bs using Letrec.names.induct with
  | case1 =>
    intro p strictcontext alloced m k n b s s' c _ _ _ hk hn hlen _ h
    simp only [compLetrec] at h
    cases h
    refine ⟨Piece.nil _, trivial, Weaker.refl _, ?_⟩
    simp only [Letrec.names, List.length_nil] at hk
    subst hk
    rw [hlen, hn]
    simp
  | case2 x v strict next ih =>
    intro p strictcontext alloced m k n b s s' c hspec hdist hslots hk hn hlen hn0 h
    obtain ⟨⟨hE, hC⟩, hspec'⟩ := hspec
    obtain ⟨hd, hdist'⟩ := hdist
    simp only [Letrec.names, List.length_cons] at hk
    have hx : presolve p x = some (m + 1) := hslots 0 x (by simp [Letrec.names])
    simp only [compLetrec] at h
    generalize (strictcontext && strict &&
      letrecsUsed (getusage v) (.bind x v strict next) == 0) = direct at h
    split at h
    · -- evaluated at once, before any hole is made
      rename_i hc
      simp only [Bool.and_eq_true, Bool.not_eq_eq_eq_not, Bool.not_true] at hc
      obtain ⟨rfl, rfl⟩ := hc
      obtain ⟨c1, s1, c2, h1, h2, rfl⟩ := Emit.andThen_some h
      simp only [Bool.false_eq_true, if_false] at hn
      subst hn
      rw [← hlen] at h1
      obtain ⟨hp1, hl1, st, hs1, -⟩ := hE p s c1 s1 hd h1
      have hlen1 := hs1.grows.length
      obtain ⟨hp2, hl2, hk2, hlen2⟩ := ih (m := n + 1) (b := b) hspec' hdist' hslots.next
        (by omega) (by simp) (by omega) (by omega) h2
      refine ⟨hp1.append hp2, hl1.append False.elim, ?_, by omega⟩
      exact (Keeps.of_grows hs1.grows (by omega)).trans hk2
    · obtain ⟨c0, s0, c', h0, h', rfl⟩ := Emit.andThen_some h
      obtain ⟨c1, s1, c'', h1, h'', rfl⟩ := Emit.andThen_some h'
      obtain ⟨c2, s2, c3, h2, h3, rfl⟩ := Emit.andThen_some h''
      have hn' : (if alloced = true then n else n + k) = m + k := by
        cases alloced <;> simp_all
      rw [hn'] at h1 h2 h3
      have hhole : Piece s c0 s0 ∧ Landing True c0 ∧ Keeps b s s0 ∧ s0.si.length = m + k := by
        cases alloced with
        | true =>
          cases h0
          exact ⟨Piece.nil _, trivial, Weaker.refl _, by rw [hlen, hn]; simp⟩
        | false =>
          obtain ⟨hp0, hl0, hg0⟩ := alloc_spec h0
          have hsm : s.si.length = m := by rw [hlen, hn]; simp
          exact ⟨hp0, hl0.of_false, Keeps.of_grows hg0 (by omega), by rw [hg0.length, hsm]⟩
      obtain ⟨hp0, hl0, hk0, hlen0⟩ := hhole
      rw [← hlen0] at h1 h2
      obtain ⟨hp1, hl1, hk1, hlen1⟩ :=
        letrecValue_spec (b := b) hE hC hx hd (by omega) hn0 h1 h2
      obtain ⟨hp3, hl3, hk3, hlen3⟩ := ih (m := m + 1) (b := b) (k := k - 1) hspec' hdist'
        hslots.next (by omega) (by simp; omega) (by omega) (by omega) h3
      rw [← List.append_assoc c1]
      exact ⟨hp0.append (hp1.append hp3), hl0.append (fun _ => hl1.append False.elim),
        (hk0.trans hk1).trans hk3, by omega⟩

theorem map_fst_letrecPmap : ∀ (bs : Letrec) (n : Nat),
    (letrecPmap n bs).map Prod.fst = bs.names
  | .done, _ => rfl
  | .bind x _ _ next, n => by
    simp only [letrecPmap, List.map_cons, Letrec.names, map_fst_letrecPmap next (n + 1)]

theorem presolve_append {p q : Pmap} {x : String} (h : x ∉ p.map Prod.fst) :
    presolve (p ++ q) x = presolve q x := by
  unfold presolve
  rw [List.find?_append]
  have : p.find? (·.1 == x) = none := by
    rw [List.find?_eq_none]
    intro a ha hx
    exact h (List.mem_map.mpr ⟨a, ha, by simpa using hx⟩)
  rw [this, Option.none_or]

theorem slots_letrecPmap : ∀ (bs : Letrec) (n : Nat), bs.names.Nodup →
    Slots (letrecPmap n bs) n bs
  | .done, _, _ => by
    intro j x hx
    simp [Letrec.names] at hx
  | .bind y v b next, n, hnd => by
    intro j x hx
    simp only [Letrec.names, List.nodup_cons] at hnd hx
    cases j with
    | zero =>
      simp only [List.getElem?_cons_zero, Option.some.injEq] at hx
      subst hx
      simp [letrecPmap, presolve]
    | succ j =>
      rw [List.getElem?_cons_succ] at hx
      have hmem : x ∈ next.names := List.mem_of_getElem? hx
      have hyx : ¬y = x := fun h => hnd.1 (h ▸ hmem)
      have ih := slots_letrecPmap next (n + 1) hnd.2 j x hx
      rw [letrecPmap, ← List.singleton_append, presolve_append (by simpa using Ne.symm hyx), ih]
      congr 1
      omega

theorem Letrec.Values.of_inner {P : Snode → Prop} : ∀ {bs : Letrec},
    (∀ v : Snode, v.binders.Sublist bs.inner → P v) → Letrec.Values P bs
  | .done, _ => trivial
  | .bind _ v _ _, h =>
    ⟨h v (List.sublist_append_left _ _),
      Letrec.Values.of_inner (fun w hw => h w (hw.trans (List.sublist_append_right _ _)))⟩

/-- Inside a letrec its names are in scope, with the slots after those in use. -/
theorem Distinct.letrec {p : Pmap} {bs : Letrec} {b : List String} {n : Nat}
    (h : Distinct p (bs.binders ++ b)) :
    Distinct (p ++ letrecPmap n bs) b ∧
      Letrec.Values (fun v => Distinct (p ++ letrecPmap n bs) v.binders) bs ∧
      Slots (p ++ letrecPmap n bs) n bs := by
  have hnd : (p.map Prod.fst ++ bs.names ++ (bs.inner ++ b)).Nodup := by
    refine (List.Perm.nodup_iff ?_).mp h
    rw [List.append_assoc, ← List.append_assoc bs.names]
    exact (bs.binders_perm.append_right b).append_left _
  have hnames : (p ++ letrecPmap n bs).map Prod.fst = p.map Prod.fst ++ bs.names := by
    rw [List.map_append, map_fst_letrecPmap]
  refine ⟨?_, Letrec.Values.of_inner ?_, ?_⟩
  · unfold Distinct
    rw [hnames]
    exact hnd.sublist ((List.Sublist.refl _).append (List.sublist_append_right _ _))
  · intro v hv
    unfold Distinct
    rw [hnames]
    exact hnd.sublist
      ((List.Sublist.refl _).append (hv.trans (List.sublist_append_left _ _)))
  · have hnd' := (List.nodup_append.mp hnd).1
    have hdisj := (List.nodup_append.mp hnd').2.2
    intro j x hx
    rw [presolve_append]
    · exact slots_letrecPmap bs n (List.nodup_append.mp hnd').2.1 j x hx
    · intro hp
      exact hdisj x hp x (List.mem_of_getElem? hx) rfl

/-- `SQUEEZE` after the body of a letrec. -/
theorem squeeze_spec {k : Nat} {s s1 s2 s3 : CompState} {c : List Instr} {st : Status}
    (hk : Keeps s.si.length s s1) (hlen : s1.si.length = s.si.length + k)
    (hs : Pushes s1 s2 st) (h : Emit.op (.squeeze 1 k) s2 = some (c, s3)) :
    Piece s2 c s3 ∧ Pushes s s3 st := by
  refine ⟨Piece.squeeze h Nat.one_pos, ?_⟩
  obtain ⟨-, -, he, -⟩ := Emit.op_some h
  obtain ⟨hle, hsi⟩ := squeeze_effect he
  have hsi : s3.si = _ := congrArg StackInfo.si hsi
  obtain ⟨base, hb, hw⟩ := hs
  have hbl : base.length = s.si.length + k := by rw [← hw.1, hlen]
  refine ⟨base.take s.si.length, ?_, ?_⟩
  · rw [hsi, hb]
    simp only [List.length_append, List.length_cons, List.length_nil]
    rw [show base.length + (0 + 1) - 1 - k = s.si.length by omega,
      show base.length + (0 + 1) - 1 = base.length by omega,
      List.take_append_of_le_length (by omega), List.drop_left]
  · unfold Keeps at hk
    rw [List.take_length] at hk
    refine hk.trans ?_
    have hsplit : Weaker (s1.si.take s.si.length ++ s1.si.drop s.si.length)
        (base.take s.si.length ++ base.drop s.si.length) := by
      rw [List.take_append_drop, List.take_append_drop]
      exact hw
    exact (hsplit.append_inv (by simp; omega)).1

/-- A letrec in scheme `C` or `E`. -/
theorem letrecExpr_spec {bs : Letrec} {body : Emit} {least : Nat} {p : Pmap}
    {strictcontext : Bool} {s s' : CompState} {c : List Instr} {b : List String}
    (hspec : Letrec.Values (fun v => SpecE scs fuel v ∧ SpecC scs fuel v) bs)
    (hd : Distinct p (bs.binders ++ b))
    (h : Emit.andThen (compLetrec scs fuel (p ++ letrecPmap s.si.length bs) s.si.length
      strictcontext bs.names.length false bs)
      (Emit.andThen body (Emit.op (.squeeze 1 bs.names.length))) s = some (c, s'))
    (hbody : ∀ s1 c1 s2, s1.si.length = s.si.length + bs.names.length →
      body s1 = some (c1, s2) → ExprSpec least s1 c1 s2) :
    ExprSpec least s c s' := by
  obtain ⟨c1, s1, c', h1, h', rfl⟩ := Emit.andThen_some h
  obtain ⟨c2, s2, c3, h2, h3, rfl⟩ := Emit.andThen_some h'
  obtain ⟨-, hdv, hslots⟩ := hd.letrec (n := s.si.length)
  obtain ⟨hp1, hl1, hk1, hlen1⟩ := compLetrec_spec (b := s.si.length) hspec hdv hslots rfl
    (by simp) rfl (Nat.le_refl _) h1
  obtain ⟨hp2, hl2, st, hs2, hst⟩ := hbody s1 c2 s2 hlen1 h2
  obtain ⟨hp3, hs3⟩ := squeeze_spec hk1 hlen1 hs2 h3
  exact ⟨hp1.append (hp2.append hp3), hl1.append (fun _ => hl2.append False.elim), st, hs3, hst⟩

theorem sizeOf_spineArgs {l : Snode} : ∀ a ∈ spineArgs l, sizeOf a.1 < sizeOf l := by
  induction l using spineLength.induct with
  | case1 l r b ih =>
    intro a ha
    simp only [spineArgs, List.mem_cons] at ha
    rcases ha with rfl | ha
    · simp only [Snode.application.sizeOf_spec]
      omega
    · have := ih a ha
      simp only [Snode.application.sizeOf_spec]
      omega
  | case2 e he =>
    intro a ha
    cases e <;> first
      | exact absurd rfl (he _ _ _)
      | simp [spineArgs] at ha

theorem Letrec.Values.of_sizeOf {P : Snode → Prop} : ∀ {bs : Letrec},
    (∀ v : Snode, sizeOf v < sizeOf bs → P v) → Letrec.Values P bs
  | .done, _ => trivial
  | .bind _ v _ next, h => by
    simp only [Letrec.bind.sizeOf_spec] at h
    exact ⟨h v (by omega), Letrec.Values.of_sizeOf (fun w hw => h w (by omega))⟩

theorem symbol_spec {a : Nat} {s s' : CompState} {c : List Instr}
    (h : Emit.andThen (Emit.spark a) (Emit.push a) s = some (c, s')) : ExprSpec 1 s c s' := by
  obtain ⟨c1, s1, c2, h1, h2, rfl⟩ := Emit.andThen_some h
  obtain ⟨hp1, hg1, st1, hst1, hle1⟩ := Emit.spark_spec h1
  obtain ⟨hp2, hl2, st2, hst2, hs2⟩ := Emit.push_spec h2
  refine ⟨hp1.append hp2, (Emit.spark_landing h1).append (fun _ => hl2), st2, hg1.pushes hs2, ?_⟩
  · rw [hg1.length, Nat.add_zero, hst1, Option.some.injEq] at hst2
    rwa [← hst2]

theorem pop_effect {b : List Status} {st : Status} {s s' : CompState} {c : List Instr}
    (hs : s.si = b ++ [st]) (h : Emit.op (.pop 1) s = some (c, s')) : s'.si = b := by
  obtain ⟨-, -, he, -⟩ := Emit.op_some h
  rw [hs] at he
  simp only [Op.effect, popStatus, List.length_append, List.length_cons, List.length_nil] at he
  simp at he
  exact he.1.symm

/-- The branches of an `if` on a constant drop the number first. -/
theorem BranchSpec.pop {b : List Status} {s1 s2 : CompState} {c : List Instr} {ct : Emit}
    (hs : s1.si = b ++ [.evaluated])
    (h : Emit.andThen (Emit.op (.pop 1)) ct s1 = some (c, s2))
    (hct : ∀ s c s', s.si = b → ct s = some (c, s') → ExprSpec 1 s c s') :
    BranchSpec b s1 c s2 := by
  obtain ⟨c1, s3, c2, h1, h2, rfl⟩ := Emit.andThen_some h
  have hb : s3.si = b := pop_effect hs h1
  have hspec := hct s3 c2 s2 hb h2
  obtain ⟨st, ⟨b', hs2, hw⟩, hst⟩ := hspec.pushes
  have hclosed : ¬s1.isOpen := by
    unfold CompState.isOpen
    simp [hs]
  refine ⟨Core.pop hclosed h1 hspec.piece.toCore hspec.landing, ?_, b', st, hs2, hb ▸ hw, hst⟩
  obtain ⟨-, rfl, -, -⟩ := Emit.op_some h1
  exact hspec.landing

theorem BranchSpec.of_expr {b : List Status} {s1 s2 : CompState} {c : List Instr}
    (hs : s1.si = b) (h : ExprSpec 1 s1 c s2) : BranchSpec b s1 c s2 := by
  obtain ⟨st, ⟨b', hs2, hw⟩, hst⟩ := h.pushes
  exact ⟨h.piece.toCore, h.landing, b', st, hs2, hs ▸ hw, hst⟩

theorem checkE_some {e : Snode} {s s' : CompState} {c : List Instr}
    (h : checkE scs e s = some (c, s')) : c = [] ∧ s' = s := by
  simp only [checkE, Option.bind_eq_bind, Option.bind_eq_some_iff] at h
  obtain ⟨fno, -, k, -, h⟩ := h
  split at h
  · cases h
    exact ⟨rfl, rfl⟩
  · cases h

/-- The application case of scheme `E`. -/
theorem compE_application_spec {l r : Snode} {b : Bool}
    (ih : ∀ e : Snode, sizeOf e < sizeOf (Snode.application l r b) →
      SpecE scs fuel e ∧ SpecC scs fuel e) : SpecE scs fuel (.application l r b) := by
  intro p s c s' hd h
  simp only [Snode.binders] at hd
  rcases @compE_application scs fuel p s.si.length l r b with
    ⟨x, s1, d, s2, s3, t, s4, hint, rfl, he⟩ | ⟨cond, s3, t, s4, rfl, he⟩ | ⟨e1, s1, rfl, he⟩ |
    ⟨i, d, s1, rfl, hitem, hint, he⟩ | he
  · rw [he] at h
    simp only [Snode.application.sizeOf_spec] at ih
    simp only [Snode.binders, List.append_assoc, List.nil_append] at hd
    obtain ⟨c1, sa, c', h1, h', rfl⟩ := Emit.andThen_some h
    obtain ⟨c2, sb, c3, h2, h3, rfl⟩ := Emit.andThen_some h'
    obtain ⟨hp1, hl1, st, hs1, -⟩ := (ih x (by omega)).1 p s c1 sa hd.left h1
    obtain ⟨hp2, hs2⟩ := Emit.eval_top hs1 h2
    obtain ⟨base, hb, hw⟩ := hs2
    have hlen : s.si.length = base.length := hw.1
    rw [hlen] at h3
    obtain ⟨k, -, h3⟩ := Emit.int_some h3
    obtain ⟨hp3, hs3⟩ := emitIf_spec (b := base) (t := sb.si) h3 hb hw (fun _ => rfl)
      (fun _ => rfl) (fun _ => by rw [hb]; exact List.getLast?_concat)
      (by rw [hb]; simp [popStatus])
      (fun s1 c1 s2 hsi hct => BranchSpec.pop (hsi.trans hb) hct (fun s c s' hs he =>
        (ih r (by omega)).1 p s c s' hd.right.right (by rw [hs]; exact he)))
      (fun s1 c1 s2 hsi hcf => BranchSpec.pop (hsi.trans hb) hcf (fun s c s' hs he =>
        (ih t (by omega)).1 p s c s' hd.right.left (by rw [hs]; exact he)))
    exact ⟨hp1.append (hp2.append hp3), hl1.append False.elim, _, hs3, by decide⟩
  · rw [he] at h
    simp only [Snode.application.sizeOf_spec] at ih
    simp only [Snode.binders, List.append_assoc, List.nil_append] at hd
    obtain ⟨c1, sa, c', h1, h', rfl⟩ := Emit.andThen_some h
    obtain ⟨c2, sb, c3, h2, h3, rfl⟩ := Emit.andThen_some h'
    obtain ⟨hp1, hl1, st, hs1, -⟩ := (ih cond (by omega)).1 p s c1 sa hd.left h1
    obtain ⟨hp2, hs2⟩ := Emit.eval_top hs1 h2
    obtain ⟨base, hb, hw⟩ := hs2
    have hlen : s.si.length = base.length := hw.1
    rw [hlen] at h3
    obtain ⟨hp3, hs3⟩ := emitIf_spec (b := base) (t := base) h3 hb hw (fun _ => rfl)
      (fun _ => by rw [hb]; simp [Op.effect, popStatus])
      (fun _ => by rw [hb]; exact List.getLast?_concat) (popStatus_zero _)
      (fun s1 c1 s2 hsi hct => BranchSpec.of_expr hsi ((ih t (by omega)).1 p s1 c1 s2
        hd.right.left (by rw [hsi]; exact hct)))
      (fun s1 c1 s2 hsi hcf => BranchSpec.of_expr hsi ((ih r (by omega)).1 p s1 c1 s2
        hd.right.right (by rw [hsi]; exact hcf)))
    exact ⟨hp1.append (hp2.append hp3), hl1.append False.elim, _, hs3, by decide⟩
  · rw [he] at h
    simp only [Snode.application.sizeOf_spec] at ih
    simp only [Snode.binders, List.nil_append] at hd
    obtain ⟨c1, sa, c', h1, h', rfl⟩ := Emit.andThen_some h
    obtain ⟨c2, sb, c'', h2, h'', rfl⟩ := Emit.andThen_some h'
    obtain ⟨c3, sc, c4, h3, h4, rfl⟩ := Emit.andThen_some h''
    obtain ⟨hp1, hl1, st, hs1, -⟩ := (ih e1 (by omega)).1 p s c1 sa hd.left h1
    obtain ⟨hp2, hs2⟩ := Emit.eval_top hs1 h2
    have hclosed := Emit.eval_top_closed h2
    obtain ⟨base, hb, hw⟩ := hs2
    have hsc : sc.si = base := pop_effect hb h3
    rw [hw.1, ← hsc] at h4
    obtain ⟨hp4, hl4, st4, hs4, hst4⟩ := (ih r (by omega)).1 p sc c4 s' hd.right h4
    have hg : Grows s sc 0 := ⟨base, [], by rw [hsc, List.append_nil], hw, rfl⟩
    have hp34 : Piece sb (c3 ++ c4) s' :=
      ⟨Core.pop hclosed h3 hp4.toCore hl4, fun ho => absurd ho hclosed⟩
    exact ⟨hp1.append (hp2.append hp34), hl1.append False.elim, st4, hg.pushes hs4, hst4⟩
  · rw [he] at h
    simp only [Snode.application.sizeOf_spec] at ih
    obtain ⟨index, -, h⟩ := Emit.int_some h
    obtain ⟨c1, sa, c', h1, h', rfl⟩ := Emit.andThen_some h
    obtain ⟨c2, sb, c3, h2, h3, rfl⟩ := Emit.andThen_some h'
    obtain ⟨hp1, hl1, st, hs1, -⟩ := (ih r (by omega)).1 p s c1 sa hd.right h1
    obtain ⟨hp3, hs3⟩ := Emit.spark_top (op_pushes h2 rfl hs1.grows) h3
    exact ⟨hp1.append ((Piece.op h2 rfl trivial).append hp3), hl1.append False.elim, hs3⟩
  · rw [he] at h
    obtain ⟨c0, s0, c', h0, h', rfl⟩ := Emit.andThen_some h
    obtain ⟨rfl, rfl⟩ := checkE_some h0
    obtain ⟨c1, sa, c'', h1, h'', rfl⟩ := Emit.andThen_some h'
    obtain ⟨c2, sb, c3, h2, h3, rfl⟩ := Emit.andThen_some h''
    have hr := ih r (by simp only [Snode.application.sizeOf_spec]; omega)
    obtain ⟨hp1, hl1, st, hs1, -⟩ := argE_spec hr.1 hr.2 b hd.right h1
    rw [← hs1.grows.length] at h2
    obtain ⟨hp2, hg2⟩ := compArgsE_spec (fun a ha => ih a.1 (by
      have := sizeOf_spineArgs a ha
      simp only [Snode.application.sizeOf_spec]
      omega)) hd.left h2
    have hg : Grows s0 sb (spineLength (.application l r b)) := by
      have := hs1.grows.trans hg2
      rwa [Nat.add_comm 1] at this
    obtain ⟨hp3, hs3⟩ := finishE_spec h3 hg
    exact ⟨hp1.append (hp2.append hp3), hl1.append False.elim, hs3⟩

/-- Schemes `C` and `E` keep the promises of `ExprSpec`. -/
theorem comp_spec (e : Snode) : SpecE scs fuel e ∧ SpecC scs fuel e := by
  induction hk : sizeOf e using Nat.strongRecOn generalizing e with
  | _ k ihk =>
  subst hk
  have ih : ∀ e' : Snode, sizeOf e' < sizeOf e → SpecE scs fuel e' ∧ SpecC scs fuel e' :=
    fun e' he => ihk _ he e' rfl
  have hdefault : ∀ em : Emit, (∀ s c s', em s = some (c, s') → ExprSpec 0 s c s') →
      ∀ s c s', Emit.andThen em (Emit.spark 0) s = some (c, s') → ExprSpec 1 s c s' := by
    intro em hem s c s' h
    obtain ⟨c1, s1, c2, h1, h2, rfl⟩ := Emit.andThen_some h
    exact (hem s c1 s1 h1).then_spark h2
  have hconst : ∀ (o : Op) (st : Status), o.plain = true → (∀ si, o.ready si) →
      (∀ si, o.effect si = some ⟨si ++ [st], false⟩) →
      ∀ s c s', Emit.op o s = some (c, s') → ExprSpec 0 s c s' := by
    intro o st hp hr ho s c s' h
    exact ⟨Piece.op h hp (hr _), op_landing h hp, st, op_pushes_const h (ho _), Nat.zero_le _⟩
  have hstring : ∀ v s c s', Emit.pushString v s = some (c, s') → ExprSpec 0 s c s' := by
    intro v s c s' h
    obtain ⟨hp, hl, hs⟩ := Emit.pushString_spec h
    exact ⟨hp, hl, _, hs, Nat.zero_le _⟩
  cases e with
  | application l r b =>
    refine ⟨compE_application_spec ih, ?_⟩
    intro p s c s' hd h
    simp only [Snode.binders] at hd
    simp only [compC] at h
    obtain ⟨c1, sa, c', h1, h', rfl⟩ := Emit.andThen_some h
    obtain ⟨c2, sb, c3, h2, h3, rfl⟩ := Emit.andThen_some h'
    simp only [Snode.application.sizeOf_spec] at ih
    obtain ⟨hp1, hl1, st, hs1, -⟩ := (ih r (by omega)).2 p s c1 sa hd.right h1
    rw [← hs1.grows.length] at h2
    obtain ⟨hp2, hg2⟩ := compArgsC_spec (fun a ha => (ih a.1 (by
      have := sizeOf_spineArgs a ha
      omega)).2) hd.left h2
    have hg : Grows s sb (spineLength (.application l r b)) := by
      have := hs1.grows.trans hg2
      rwa [Nat.add_comm 1] at this
    obtain ⟨hp3, hs3⟩ := finishC_spec h3 hg
    exact ⟨hp1.append (hp2.append hp3), hl1.append False.elim, hs3⟩
  | lambda x b =>
    constructor
    · intro p s c s' _ h
      simp [compE] at h
    · intro p s c s' _ h
      simp [compC] at h
  | builtin b =>
    constructor
    · intro p s c s' _ h
      rw [compE] at h
      exact hdefault _ (fun _ _ _ => emitRef_spec) s c s' h
    · intro p s c s' _ h
      rw [compC] at h
      exact emitRef_spec h
  | symbol x =>
    constructor
    · intro p s c s' _ h
      simp only [compE] at h
      split at h
      case h_2 => cases h
      split at h
      · exact symbol_spec h
      · cases h
    · intro p s c s' _ h
      simp only [compC] at h
      split at h
      case h_2 => cases h
      split at h
      · obtain ⟨hp, hl, st, -, hs⟩ := Emit.push_spec h
        exact ⟨hp, hl, st, hs, Nat.zero_le _⟩
      · cases h
  | letrec bs body =>
    simp only [Snode.letrec.sizeOf_spec] at ih
    have hvals : Letrec.Values (fun v => SpecE scs fuel v ∧ SpecC scs fuel v) bs :=
      Letrec.Values.of_sizeOf (fun v hv => ih v (by omega))
    constructor
    · intro p s c s' hd h
      rw [compE] at h
      refine letrecExpr_spec hvals hd h ?_
      intro s1 c1 s2 hlen hb
      rw [← hlen] at hb
      exact (ih body (by omega)).1 _ s1 c1 s2 hd.letrec.1 hb
    · intro p s c s' hd h
      rw [compC] at h
      refine letrecExpr_spec hvals hd h ?_
      intro s1 c1 s2 hlen hb
      rw [← hlen] at hb
      exact (ih body (by omega)).2 _ s1 c1 s2 hd.letrec.1 hb
  | scref i =>
    constructor
    · intro p s c s' _ h
      rw [compE] at h
      exact hdefault _ (fun _ _ _ => emitRef_spec) s c s' h
    · intro p s c s' _ h
      rw [compC] at h
      exact emitRef_spec h
  | nil =>
    constructor
    · intro p s c s' _ h
      rw [compE] at h
      exact hdefault _ (hconst .pushnil _ rfl (fun _ => trivial) (fun _ => rfl)) s c s' h
    · intro p s c s' _ h
      rw [compC] at h
      exact hconst .pushnil _ rfl (fun _ => trivial) (fun _ => rfl) s c s' h
  | number d =>
    constructor
    · intro p s c s' _ h
      rw [compE] at h
      exact hdefault _ (hconst (.pushnumber _) _ rfl (fun _ => trivial) (fun _ => rfl)) s c s' h
    · intro p s c s' _ h
      rw [compC] at h
      exact hconst (.pushnumber _) _ rfl (fun _ => trivial) (fun _ => rfl) s c s' h
  | string v =>
    constructor
    · intro p s c s' _ h
      rw [compE] at h
      exact hdefault _ (hstring v) s c s' h
    · intro p s c s' _ h
      rw [compC] at h
      exact hstring v s c s' h

/-! ## Scheme `R` -/

/-- What scheme `R` promises of the code of a body: control never reaches its end. -/
structure BodySpec (s : CompState) (c : List Instr) : Prop where
  flow : ∀ exit, Flow exit c
  fits : ∀ exit, Fits exit c s.si
  jumps : Jumps False c
  last : ∃ init i, c = init ++ [i] ∧ i.op.falls = false
  landing : Landing False c

/-- Code that may jump to its own end whatever is known of the stack there. -/
structure Lead (s : CompState) (c : List Instr) (s' : CompState) : Prop where
  flow : Flow s'.si c
  fits : Fits s'.si c s.si
  jumps : Jumps True c
  tail : NoJeqTail c

theorem Core.lead {s s' : CompState} {c : List Instr} (h : Core s c s') : Lead s c s' :=
  ⟨h.flow, h.fits,
    h.jumps.weaken (fun _ => trivial), h.tail⟩

theorem Lead.append {s s1 s2 : CompState} {c1 c2 : List Instr} (h1 : Lead s c1 s1)
    (h2 : Core s1 c2 s2) (hl : Landing False c2) : Core s (c1 ++ c2) s2 where
  flow := h1.flow.append h2.flow h2.fits
  fits := h1.fits.append h2.fits
  jumps := h1.jumps.append h2.jumps (fun _ => hl.of_false)
  tail := h1.tail.append h2.tail

theorem BodySpec.prepend {s s1 : CompState} {c1 c2 : List Instr} (h1 : Lead s c1 s1)
    (hl : Landing True c1) (h2 : BodySpec s1 c2) : BodySpec s (c1 ++ c2) where
  flow := fun exit => h1.flow.append (h2.flow exit) (h2.fits exit)
  fits := fun exit => h1.fits.append (h2.fits exit)
  jumps := h1.jumps.append h2.jumps (fun _ => h2.landing)
  last := by
    obtain ⟨init, i, rfl, hi⟩ := h2.last
    exact ⟨c1 ++ init, i, by rw [List.append_assoc], hi⟩
  landing := hl.append (fun _ => h2.landing)

/-- The instructions that leave the function. -/
theorem Core.last {o : Op} {s s' : CompState} {c : List Instr} (h : Emit.op o s = some (c, s'))
    (hf : o.falls = false) (hj : o.target = none) (hr : o.ready s.si) :
    (∀ exit, Flow exit c) ∧ (∀ exit, Fits exit c s.si) ∧ Jumps False c ∧
      ∃ i, c = [i] ∧ i.op.falls = false := by
  have hpop : ∀ n, o ≠ .pop n := by
    rintro n rfl
    cases hf
  have hsq : ∀ n, o ≠ .squeeze 0 n := by
    rintro n rfl
    cases hf
  have hcore := Core.op h hj hpop hsq hr
  obtain ⟨-, rfl, -, -⟩ := Emit.op_some h
  obtain ⟨⟨hexp, ⟨post, hpost, -, -⟩, -⟩, hfits, -, -⟩ := hcore
  refine ⟨fun exit => ⟨hexp, ⟨post, hpost, ?_, ?_⟩, trivial⟩, fun _ => hfits,
    ⟨?_, fun n hn => absurd hn (hpop n), fun n hn => absurd hn (hsq n), trivial⟩, _, rfl, hf⟩
  · simp [hf]
  · simp [hj]
  · simp [hj]

theorem BodySpec.op {o : Op} {s s' : CompState} {c : List Instr}
    (h : Emit.op o s = some (c, s')) (hf : o.falls = false) (hp : o.plain = true)
    (hr : o.ready s.si) : BodySpec s c := by
  obtain ⟨h1, h2, h3, i, hi, hfi⟩ :=
    Core.last h hf (by cases o <;> simp [Op.plain, Op.target] at hp ⊢) hr
  exact ⟨h1, h2, h3, ⟨[], i, hi, hfi⟩, op_landing h hp⟩

/-- `RETURN` of an evaluated value. -/
theorem BodySpec.ret {s s1 s' : CompState} {c1 c2 : List Instr} (h1 : Core s c1 s1)
    (hl : Landing False c1) (hc : ¬s1.isOpen) (h : Emit.op .ret s1 = some (c2, s')) :
    BodySpec s (c1 ++ c2) := by
  obtain ⟨hf, hfit, hj, i, hi, hfi⟩ := Core.last h rfl rfl (not_not.mp hc)
  exact ⟨fun exit => h1.flow.append (hf exit) (hfit exit),
    fun exit => h1.fits.append (hfit exit),
    h1.jumps.append hj (fun ho => absurd ho hc), ⟨c1, i, by rw [hi], hfi⟩, hl.append False.elim⟩

theorem Pushes.closed {s s' : CompState} (h : Pushes s s' .evaluated) : ¬s'.isOpen := by
  rw [h.isOpen_iff]
  simp

/-! ### The arguments of a tail call -/

theorem compExprs_spec : ∀ {exprs : List (Snode × Bool)} {p : Pmap} {s s' : CompState}
    {c : List Instr}, (∀ a ∈ exprs, Distinct p a.1.binders) →
    compExprs scs fuel p s.si.length exprs s = some (c, s') →
    Piece s c s' ∧ Landing True c ∧ Grows s s' exprs.length
  | [], p, s, s', c, _, h => by
    cases h
    exact ⟨Piece.nil _, trivial, Grows.refl _⟩
  | (e, strict) :: exprs, p, s, s', c, hd, h => by
    simp only [compExprs] at h
    obtain ⟨c1, s1, c2, h1, h2, rfl⟩ := Emit.andThen_some h
    have hspec := @comp_spec scs fuel e
    obtain ⟨hp1, hl1, st, hs1, -⟩ :=
      argE_spec hspec.1 hspec.2 strict (hd _ (List.mem_cons_self ..)) h1
    rw [← hs1.grows.length] at h2
    obtain ⟨hp2, hl2, hg2⟩ := compExprs_spec (fun a ha => hd a (List.mem_cons_of_mem _ ha)) h2
    refine ⟨hp1.append hp2, hl1.append False.elim, ?_⟩
    have := hs1.grows.trans hg2
    rwa [Nat.add_comm 1] at this

theorem skipArgs_le {p : Pmap} {si : List Status} : ∀ {exprs : List (Snode × Bool)} {m k : Nat},
    skipArgs p si m exprs = some k → k ≤ exprs.length ∧ (k = 0 ∨ m + k ≤ si.length)
  | [], m, k, h => by
    simp [skipArgs] at h
    omega
  | (e, strict) :: exprs, m, k, h => by
    cases e with
    | symbol x =>
      simp only [skipArgs, Option.bind_eq_bind, Option.bind_eq_some_iff] at h
      obtain ⟨i, -, h⟩ := h
      split at h
      · simp only [Option.bind_eq_some_iff] at h
        obtain ⟨st, hst, h⟩ := h
        have hm := (List.getElem?_eq_some_iff.mp hst).1
        split at h
        · cases h
          simp
        · simp only [Option.bind_eq_some_iff, Option.pure_def, Option.some.injEq] at h
          obtain ⟨k', hk', rfl⟩ := h
          obtain ⟨h1, h2⟩ := skipArgs_le hk'
          simp only [List.length_cons]
          omega
      · cases h
        simp
    | _ =>
      simp [skipArgs] at h
      omega

/-- The layout of the arguments of a tail call: they are all that is left on the stack. -/
theorem compS_spec {exprs : List (Snode × Bool)} {p : Pmap} {s s' : CompState} {c : List Instr}
    (hd : ∀ a ∈ exprs, Distinct p a.1.binders)
    (h : compS scs fuel p s.si.length exprs s = some (c, s')) :
    Lead s c s' ∧ Landing True c ∧ s'.si.length = exprs.length := by
  simp only [compS, Option.bind_eq_bind, Option.bind_eq_some_iff] at h
  obtain ⟨k, hk, h⟩ := h
  obtain ⟨hle, hlen⟩ := skipArgs_le hk
  have hdrop : ∀ a ∈ exprs.drop k, Distinct p a.1.binders := fun a ha =>
    hd a (List.mem_of_mem_drop ha)
  split at h
  · obtain ⟨c1, s1, c2, h1, h2, rfl⟩ := Emit.andThen_some h
    obtain ⟨hp1, hl1, hg1⟩ := compExprs_spec hdrop h1
    have hlen1 := hg1.length
    rw [List.length_drop] at hlen1
    have hlast : s'.si.length = exprs.length := by
      obtain ⟨-, -, he, -⟩ := Emit.op_some h2
      obtain ⟨hle2, hsi⟩ := squeeze_effect he
      have hsi' : s'.si = _ := congrArg StackInfo.si hsi
      rw [hsi']
      simp only [List.length_append, List.length_take, List.length_drop]
      omega
    have hl2 : Landing True c2 := by
      obtain ⟨-, rfl, -, -⟩ := Emit.op_some h2
      trivial
    refine ⟨?_, hl1.append (fun _ => hl2), hlast⟩
    by_cases hc : exprs.length - k = 0
    · -- every argument is in place: nothing has been emitted before the SQUEEZE
      have hnil : exprs.drop k = [] := by rw [List.drop_eq_nil_iff]; omega
      rw [hnil] at h1
      cases h1
      obtain ⟨-, rfl, he, -⟩ := Emit.op_some h2
      exact ⟨⟨⟨rfl, trivial⟩, ⟨s'.si, Op.post_of_effect he, fun _ => Weaker.refl _,
        by simp [Op.target]⟩, trivial⟩, Weaker.refl _, ⟨by simp [Op.target], by simp, fun _ _ => trivial, trivial⟩,
        NoJeqTail.singleton (by simp)⟩
    · exact (hp1.toCore.append (Piece.squeeze h2 (by omega))).lead
  · obtain ⟨hp1, hl1, hg1⟩ := compExprs_spec hdrop h
    have hlen1 := hg1.length
    rw [List.length_drop] at hlen1
    exact ⟨hp1.toCore.lead, hl1, by omega⟩

theorem Grows.of_length {n : Nat} {s : CompState} (h : n ≤ s.si.length) :
    Grows { s with si := s.si.take (s.si.length - n) } s n :=
  ⟨s.si.take (s.si.length - n), s.si.drop (s.si.length - n), by simp, Weaker.refl _, by
    rw [List.length_drop]; omega⟩

/-- `SPARK`, `EVAL` and `DO` of the function on top of the stack. -/
theorem evalDo_spec {flag : Bool} {s s1 s' : CompState} {c : List Instr} {st : Status}
    (hs : Pushes s s1 st)
    (h : Emit.andThen (Emit.spark 0) (Emit.andThen (Emit.eval 0) (Emit.op (.do_ flag))) s1 =
      some (c, s')) : BodySpec s1 c := by
  obtain ⟨c1, s2, c', h1, h', rfl⟩ := Emit.andThen_some h
  obtain ⟨c2, s3, c3, h2, h3, rfl⟩ := Emit.andThen_some h'
  obtain ⟨hp1, st1, hs1, -⟩ := Emit.spark_top hs h1
  obtain ⟨hp2, hs2⟩ := Emit.eval_top hs1 h2
  exact BodySpec.prepend hp1.toCore.lead (Emit.spark_landing h1)
    (BodySpec.prepend hp2.toCore.lead (Emit.eval_landing h2)
      (BodySpec.op h3 rfl rfl (not_not.mp (Emit.eval_top_closed h2))))

/-- A squeeze of everything below the result of a function. -/
theorem squeezeAll_spec {s s1 s' : CompState} {c : List Instr} {st : Status}
    (hs : Pushes s s1 st)
    (h : (if 0 < s.si.length then Emit.op (.squeeze 1 s.si.length) else Emit.nothing) s1 =
      some (c, s')) : Piece s1 c s' ∧ Landing True c ∧ Pushes { s with si := [] } s' st := by
  obtain ⟨base, hb, hw⟩ := hs
  split at h
  · obtain ⟨-, hc, he, -⟩ := Emit.op_some h
    obtain ⟨hle, hsi⟩ := squeeze_effect he
    refine ⟨Piece.squeeze h Nat.one_pos, by rw [hc]; trivial, [], ?_, Weaker.refl _⟩
    have hsi' : s'.si = _ := congrArg StackInfo.si hsi
    rw [hsi', hb]
    simp [hw.1]
  · rename_i hz
    cases h
    have : base = [] := by
      have := hw.1
      rw [← List.length_eq_zero_iff]
      omega
    exact ⟨Piece.nil _, trivial, [], by rw [hb, this], Weaker.refl _⟩

theorem finishBuiltin_spec {b : Bif} {s s1 s' : CompState} {c : List Instr}
    (hg : Grows s s1 (builtinInfo b).nargs)
    (h : finishBuiltin scs fuel b s.si.length s1 = some (c, s')) :
    ∃ c1 s2, Piece s1 c1 s2 ∧ ∃ c2, c = c1 ++ c2 ∧
      ((∃ s3, ¬s2.isOpen ∧ Emit.op .ret s2 = some (c2, s3)) ∨ BodySpec s2 c2) := by
  obtain ⟨c0, s0, c', h0, h', rfl⟩ := Emit.andThen_some h
  obtain ⟨c1, s2, c'', h1, h'', rfl⟩ := Emit.andThen_some h'
  obtain ⟨c2, s3, c''', h2, h''', rfl⟩ := Emit.andThen_some h''
  obtain ⟨c3, s4, c4, h3, h4, rfl⟩ := Emit.andThen_some h'''
  have h0' : c0 = [] ∧ s0 = s1 := by
    unfold checkSparked at h0
    split at h0
    · cases h0; exact ⟨rfl, rfl⟩
    · cases h0
  have h3' : c3 = [] ∧ s4 = s3 := by
    split at h3
    · cases h3; exact ⟨rfl, rfl⟩
    · cases h3
  obtain ⟨rfl, rfl⟩ := h0'
  obtain ⟨rfl, rfl⟩ := h3'
  have hres : Piece s0 c1 s2 ∧ ∃ st, Pushes s s2 st ∧
      ((builtinInfo b).reswhnf → st = .evaluated) := by
    split at h1
    · obtain ⟨hp, hs⟩ := Emit.builtin_spec h1 hg
      exact ⟨hp, _, hs, fun hw => by rw [resultStatus, if_pos hw]⟩
    · obtain ⟨hp, st, hs, hst⟩ := EndSpec.frame_eval h1 hg
      exact ⟨hp, st, hs, fun _ => by cases st <;> simp [Status.toNat] at hst ⊢⟩
  obtain ⟨hp1, st, hs1, hst⟩ := hres
  obtain ⟨hp2, hl2, hs2⟩ := squeezeAll_spec hs1 h2
  refine ⟨c1 ++ c2, s4, hp1.append hp2, c4, by simp, ?_⟩
  split at h4
  · rename_i hw
    have := hst hw
    subst this
    exact Or.inl ⟨s', hs2.closed, h4⟩
  · right
    obtain ⟨c5, s5, c6, h5, h6, rfl⟩ := Emit.andThen_some h4
    obtain ⟨hp5, hs5⟩ := Emit.eval_top hs2 h5
    exact BodySpec.prepend hp5.toCore.lead (Emit.eval_landing h5)
      (BodySpec.op h6 rfl rfl (not_not.mp (Emit.eval_top_closed h5)))

/-- An `if` whose branches end the function. -/
theorem emitIfR_spec {s s' : CompState} {c : List Instr} {jmp : Nat → Op} {ct cf : Emit}
    {t : List Status} (h : emitIfR jmp ct cf s = some (c, s'))
    (hj : ∀ d, (jmp d).target = some d) (heff : ∀ d, (jmp d).effect s.si = some ⟨t, false⟩)
    (hready : ∀ d, (jmp d).ready s.si)
    (hct : ∀ s1 c1 s2, s1.si = t → ct s1 = some (c1, s2) → BodySpec s1 c1)
    (hcf : ∀ s1 c1 s2, s1.si = t → cf s1 = some (c1, s2) → BodySpec s1 c1) :
    (∀ exit, Flow exit c) ∧ (∀ exit, Fits exit c s.si) ∧ Jumps False c ∧
      ∃ init i, c = init ++ [i] ∧ i.op.falls = false := by
  simp only [emitIfR, Option.bind_eq_bind, Option.bind_eq_some_iff, Option.pure_def,
    Option.some.injEq, Prod.mk.injEq] at h
  obtain ⟨⟨cj, s1⟩, hjmp, ⟨c1, s2⟩, h1, ⟨c2, s3⟩, h2, rfl, rfl⟩ := h
  obtain ⟨-, -, he1, -⟩ := Emit.op_some hjmp
  rw [heff, Option.some.injEq] at he1
  have hsi1 : s1.si = t := (congrArg StackInfo.si he1).symm
  have hb1 := hct s1 c1 s2 hsi1 h1
  have hb2 := hcf { s1 with strings := s2.strings } c2 s3 hsi1 h2
  have hdrop : (⟨jmp (c1.length + 1), s.si.length, s.si⟩ :: (c1 ++ c2)).drop (c1.length + 1) =
      c2 := by simp
  rw [List.cons_append]
  refine ⟨fun exit => ⟨⟨rfl, hready _⟩, ⟨s1.si, ?_, ?_, ?_⟩, ?_⟩, fun _ => Weaker.refl _,
    ⟨?_, ?_, ?_, ?_⟩, ?_⟩
  · rw [Op.post_of_effect (heff _), hsi1]
  · intro _
    exact (hb1.fits s1.si).append (hb2.fits exit)
  · intro d hd
    simp only [hj, Option.some.injEq] at hd
    subst hd
    refine ⟨by omega, by simp only [List.length_append]; omega, ?_⟩
    rw [hdrop]
    exact hb2.fits exit
  · exact (hb1.flow s1.si).append (hb2.flow exit) (hb2.fits exit)
  · intro d hd
    simp only [hj, Option.some.injEq] at hd
    subst hd
    refine ⟨?_, by simp only [List.length_append]; omega, ?_, ?_⟩
    · obtain ⟨init, i, rfl, -⟩ := hb1.last
      simp
    · rw [hdrop]
      exact hb2.landing
    · rw [List.take_succ_cons, List.take_left]
      obtain ⟨init, i, rfl, hi⟩ := hb1.last
      exact NoJeqTail.of_last (_ :: init) hi
  · intro n hn
    have := hj (c1.length + 1)
    rw [show jmp (c1.length + 1) = .pop n from hn] at this
    cases this
  · intro n hn
    have := hj (c1.length + 1)
    rw [show jmp (c1.length + 1) = .squeeze 0 n from hn] at this
    cases this
  · exact hb1.jumps.append hb2.jumps False.elim
  · obtain ⟨init, i, rfl, hi⟩ := hb2.last
    exact ⟨⟨jmp (c1.length + 1), s.si.length, s.si⟩ :: (c1 ++ init), i, by simp, hi⟩

theorem spineArgs_length (e : Snode) : (spineArgs e).length = spineLength e := by
  induction e using spineLength.induct with
  | case1 l r b ih => simp [spineArgs, spineLength, ih]
  | case2 e he =>
    cases e <;> first
      | exact absurd rfl (he _ _ _)
      | rfl

theorem Distinct.spineArgs {p : Pmap} {e : Snode} :
    Distinct p e.binders → ∀ a ∈ Bytecode.spineArgs e, Distinct p a.1.binders := by
  induction e using spineLength.induct with
  | case1 l r b ih =>
    intro hd a ha
    simp only [Snode.binders] at hd
    simp only [Bytecode.spineArgs, List.mem_cons] at ha
    rcases ha with rfl | ha
    · exact hd.right
    · exact ih hd.left a ha
  | case2 e he =>
    intro hd a ha
    cases e <;> first
      | exact absurd rfl (he _ _ _)
      | simp [Bytecode.spineArgs] at ha

theorem compArgsE_spec' {l : Snode} {p : Pmap} {s s' : CompState} {c : List Instr}
    (hd : Distinct p l.binders) (h : compArgsE scs fuel p s.si.length l s = some (c, s')) :
    Piece s c s' ∧ Grows s s' (spineLength l) :=
  compArgsE_spec (fun _ _ => comp_spec _) hd h

theorem emitJfun_spec {fno : Fn} {s s' : CompState} {c : List Instr}
    (h : emitJfun scs fno s = some (c, s')) : BodySpec s c := by
  simp only [emitJfun, Option.bind_eq_bind, Option.bind_eq_some_iff] at h
  obtain ⟨nargs, -, h⟩ := h
  split at h
  case isFalse => cases h
  simp only [Option.bind_eq_some_iff] at h
  obtain ⟨r, -, h⟩ := h
  split at h
  · exact BodySpec.op h rfl rfl trivial
  · simp only [Option.bind_eq_some_iff] at h
    obtain ⟨q, -, h⟩ := h
    split at h
    · exact BodySpec.op h rfl rfl trivial
    · exact BodySpec.op h rfl rfl trivial

theorem Pushes.of_ne_nil {s : CompState} (h : s.si ≠ []) :
    Pushes { s with si := s.si.dropLast } s (s.si.getLast h) :=
  ⟨s.si.dropLast, (List.dropLast_append_getLast h).symm, Weaker.refl _⟩

/-- The arguments of an application are not empty code. -/
theorem landing_args {l r : Snode} {b : Bool} {p : Pmap} {s s' : CompState} {c : List Instr}
    (hd : Distinct p (Snode.application l r b).binders)
    (h : compArgsE scs fuel p s.si.length (.application l r b) s = some (c, s')) :
    Landing False c := by
  simp only [compArgsE] at h
  simp only [Snode.binders] at hd
  obtain ⟨c1, s1, c2, h1, -, rfl⟩ := Emit.andThen_some h
  have hr := @comp_spec scs fuel r
  exact (argE_spec hr.1 hr.2 b hd.right h1).landing.append False.elim

theorem compCallR_spec {l r head : Snode} {b : Bool} {p : Pmap} {s s' : CompState}
    {c : List Instr} (hd : Distinct p (Snode.application l r b).binders)
    (h : compCallR scs fuel p s.si.length (.application l r b) head s = some (c, s')) :
    BodySpec s c := by
  generalize he : Snode.application l r b = e at h hd
  unfold compCallR at h
  simp only [Option.bind_eq_bind, Option.bind_eq_some_iff] at h
  obtain ⟨fno, -, k, hk, h⟩ := h
  by_cases hlt : k < spineLength e
  · rw [if_pos hlt] at h
    obtain ⟨c1, s1, c', h1, h', rfl⟩ := Emit.andThen_some h
    obtain ⟨c2, s2, c3, h2, h3, rfl⟩ := Emit.andThen_some h'
    obtain ⟨hc1, hl1, hlen1⟩ := compS_spec hd.spineArgs h1
    rw [spineArgs_length] at hlen1
    obtain ⟨hp2, hl2, st, hs2⟩ := domkframe_spec h2 (Grows.of_length (n := k) (by omega))
    exact BodySpec.prepend hc1 hl1
      (BodySpec.prepend hp2.toCore.lead hl2.of_false (evalDo_spec hs2 h3))
  · rw [if_neg hlt] at h
    by_cases heq : spineLength e = k
    · rw [if_pos heq] at h
      rcases fno with bf | i
      · obtain ⟨c1, s1, c2, h1, h2, rfl⟩ := Emit.andThen_some h
        have hn : (builtinInfo bf).nargs = k := by simpa [functionNargs] using hk
        obtain ⟨hp1, hg1⟩ := compArgsE_spec' hd h1
        subst he
        have hl1 := landing_args hd h1
        obtain ⟨c3, s3, hp3, c4, rfl, hend⟩ := finishBuiltin_spec (hn ▸ heq ▸ hg1) h2
        rw [← List.append_assoc]
        rcases hend with ⟨s4, hclosed, hret⟩ | hbody
        · exact BodySpec.ret (hp1.append hp3).toCore (hl1.append False.elim) hclosed hret
        · exact BodySpec.prepend (hp1.append hp3).toCore.lead (hl1.append False.elim) hbody
      · obtain ⟨c1, s1, c2, h1, h2, rfl⟩ := Emit.andThen_some h
        obtain ⟨hc1, hl1, -⟩ := compS_spec hd.spineArgs h1
        exact BodySpec.prepend hc1 hl1 (emitJfun_spec h2)
    · rw [if_neg heq] at h
      obtain ⟨c1, s1, c', h1, h', rfl⟩ := Emit.andThen_some h
      obtain ⟨c2, s2, c3, h2, h3, rfl⟩ := Emit.andThen_some h'
      obtain ⟨hp1, hg1⟩ := compArgsC_spec (fun a _ => (comp_spec a.1).2) hd h1
      have hl1 : Landing False c1 := by
        subst he
        simp only [compArgsC] at h1
        simp only [Snode.binders] at hd
        obtain ⟨c1', s1', c2', h1', -, rfl⟩ := Emit.andThen_some h1
        exact ((comp_spec r).2 p s c1' s1' hd.right h1').landing.append False.elim
      have hs2 := op_pushes h2 rfl hg1
      rw [← List.append_assoc]
      exact BodySpec.ret (hp1.append (Piece.op h2 rfl trivial)).toCore (hl1.append False.elim)
        hs2.closed h3

/-- The application case of scheme `R`, apart from `if`, `seq`, `item` and lists. -/
theorem compAppR_spec {l r : Snode} {b : Bool} {p : Pmap} {s s' : CompState} {c : List Instr}
    (hd : Distinct p (Snode.application l r b).binders)
    (h : compAppR scs fuel p s.si.length (.application l r b) s = some (c, s')) :
    BodySpec s c := by
  cases hh : spineHead (.application l r b) with
  | symbol x =>
    simp only [compAppR, hh] at h
    obtain ⟨c1, s1, c2, h1, h2, rfl⟩ := Emit.andThen_some h
    have hargs : ∀ a ∈ Bytecode.spineArgs (.application l r b) ++ [(Snode.symbol x, false)],
        Distinct p a.1.binders := by
      intro a ha
      rcases List.mem_append.mp ha with ha | ha
      · exact hd.spineArgs a ha
      · rw [List.mem_singleton] at ha
        subst ha
        exact hd.sublist ((List.Sublist.refl _).append (List.nil_sublist _))
    obtain ⟨hc1, hl1, hlen1⟩ := compS_spec hargs h1
    have hne : s1.si ≠ [] := by
      intro hn
      rw [hn] at hlen1
      simp at hlen1
    exact BodySpec.prepend hc1 hl1 (evalDo_spec (Pushes.of_ne_nil hne) h2)
  | _ =>
    simp only [compAppR, hh] at h
    exact compCallR_spec hd h

theorem compR_application (p : Pmap) (n : Nat) (l r : Snode) (s : Bool) :
    (iscons (.application l r s) = true ∧ iscons r = true ∧
      compR scs fuel p n (.application l r s) =
        Emit.andThen (compCons scs fuel p n (.application l r s)) (Emit.op .ret)) ∨
    (∃ x s1 d s2 s3 t s4, isIntegral d = true ∧
      l = .application (.application (.builtin .if_)
        (.application (.application (.builtin .eq) x s1) (.number d) s2) s3) t s4 ∧
      compR scs fuel p n (.application l r s) =
        Emit.andThen (compE scs fuel p n x) (Emit.andThen (Emit.eval 0)
          (Emit.int d fun k => emitIfR (.jeq · k)
            (Emit.andThen (Emit.op (.pop 1)) (compR scs fuel p n r))
            (Emit.andThen (Emit.op (.pop 1)) (compR scs fuel p n t))))) ∨
    (∃ cond s3 t s4, l = .application (.application (.builtin .if_) cond s3) t s4 ∧
      compR scs fuel p n (.application l r s) =
        Emit.andThen (compE scs fuel p n cond) (Emit.andThen (Emit.eval 0)
          (emitIfR .jfalse (compR scs fuel p n t) (compR scs fuel p n r)))) ∨
    (∃ e1 s1, l = .application (.builtin .seq) e1 s1 ∧
      compR scs fuel p n (.application l r s) =
        Emit.andThen (compE scs fuel p n e1) (Emit.andThen (Emit.eval 0)
          (Emit.andThen (Emit.op (.pop 1)) (compR scs fuel p n r)))) ∨
    (∃ i d s1, l = .application (.scref i) (.number d) s1 ∧ isItem scs i = true ∧
      isIntegral d = true ∧
      compR scs fuel p n (.application l r s) =
        Emit.int d fun index => Emit.andThen (compE scs fuel p n r)
          (Emit.andThen (Emit.op (.itemn index true))
            (Emit.andThen (if 0 < n then Emit.op (.squeeze 1 n) else Emit.nothing)
              (Emit.andThen (Emit.eval 0) (Emit.op (.do_ true)))))) ∨
    compR scs fuel p n (.application l r s) = compAppR scs fuel p n (.application l r s) := by
  generalize hR : compR scs fuel p n (.application l r s) = em
  rw [compR.eq_def] at hR
  simp only at hR
  by_cases hcons : (iscons (.application l r s) && iscons r) = true
  · rw [if_pos hcons] at hR
    rw [Bool.and_eq_true] at hcons
    exact Or.inl ⟨hcons.1, hcons.2, hR.symm⟩
  · rw [if_neg hcons] at hR
    right
    generalize (if 0 < n then Emit.op (.squeeze 1 n) else Emit.nothing) = sq at hR ⊢
    split at hR
    · rename_i cond s3 t s4
      split at hR
      · rename_i x s1 d s2
        split at hR
        · exact Or.inl ⟨x, s1, d, s2, s3, t, s4, by assumption, rfl, hR.symm⟩
        · exact Or.inr (Or.inl ⟨_, s3, t, s4, rfl, hR.symm⟩)
      · exact Or.inr (Or.inl ⟨_, s3, t, s4, rfl, hR.symm⟩)
    · rename_i e1 s1
      exact Or.inr (Or.inr (Or.inl ⟨e1, s1, rfl, hR.symm⟩))
    · rename_i i d s1
      split at hR
      · rename_i hc
        rw [Bool.and_eq_true] at hc
        exact Or.inr (Or.inr (Or.inr (Or.inl ⟨i, d, s1, rfl, hc.1, hc.2, hR.symm⟩)))
      · exact Or.inr (Or.inr (Or.inr (Or.inr hR.symm)))
    · exact Or.inr (Or.inr (Or.inr (Or.inr hR.symm)))

theorem Distinct.consExprs {p : Pmap} {e : Snode} (hd : Distinct p e.binders) :
    ∀ a ∈ Bytecode.consExprs e, Distinct p a.1.binders := by
  fun_induction Bytecode.consExprs e with
  | case1 b x s1 rest s2 hb ih =>
    intro a ha
    simp only [Snode.binders, List.nil_append] at hd
    rcases List.mem_append.mp ha with ha | ha
    · exact ih hd.right a ha
    · rw [List.mem_singleton] at ha
      subst ha
      exact hd.left
  | case2 =>
    intro a ha
    rw [List.mem_singleton] at ha
    subst ha
    exact hd
  | case3 =>
    intro a ha
    rw [List.mem_singleton] at ha
    subst ha
    exact hd

def SpecR (scs : List Scomb) (fuel : Nat) (e : Snode) : Prop :=
  ∀ (p : Pmap) (s : CompState) (c : List Instr) (s' : CompState), Distinct p e.binders →
    compR scs fuel p s.si.length e s = some (c, s') → BodySpec s c

theorem compCons_spec {e : Snode} {p : Pmap} {s s' : CompState} {c : List Instr}
    (hd : Distinct p e.binders)
    (h : Emit.andThen (compCons scs fuel p s.si.length e) (Emit.op .ret) s = some (c, s')) :
    BodySpec s c := by
  obtain ⟨c', s2, c3, h', h3, rfl⟩ := Emit.andThen_some h
  obtain ⟨c1, s1, c2, h1, h2, rfl⟩ := Emit.andThen_some h'
  obtain ⟨hc1, hl1, hlen1⟩ := compS_spec hd.consExprs h1
  have hs2 := op_pushes h2 rfl (Grows.of_length (Nat.le_of_eq hlen1.symm))
  exact BodySpec.ret (hc1.append (Piece.op h2 rfl trivial).toCore (op_landing h2 rfl)) (hl1.append (fun _ => op_landing h2 rfl))
    hs2.closed h3

/-- A condition, its evaluation and the branches on it. -/
theorem ifR_spec {e : Snode} {p : Pmap} {s s' : CompState} {c : List Instr} {branches : Emit}
    (hd : Distinct p e.binders)
    (h : Emit.andThen (compE scs fuel p s.si.length e) (Emit.andThen (Emit.eval 0) branches) s =
      some (c, s'))
    (hb : ∀ s1 c1 s2 base, s1.si = base ++ [.evaluated] → base.length = s.si.length →
      branches s1 = some (c1, s2) →
      (∀ exit, Flow exit c1) ∧ (∀ exit, Fits exit c1 s1.si) ∧ Jumps False c1 ∧
        ∃ init i, c1 = init ++ [i] ∧ i.op.falls = false) : BodySpec s c := by
  obtain ⟨c1, sa, c', h1, h', rfl⟩ := Emit.andThen_some h
  obtain ⟨c2, sb, c3, h2, h3, rfl⟩ := Emit.andThen_some h'
  obtain ⟨hp1, hl1, st, hs1, -⟩ := (comp_spec e).1 p s c1 sa hd h1
  obtain ⟨hp2, base, hbase, hw⟩ := Emit.eval_top hs1 h2
  have hclosed := Emit.eval_top_closed h2
  obtain ⟨hf, hfit, hj, init, i, hlast, hi⟩ := hb sb c3 s' base hbase hw.1.symm h3
  have h12 := hp1.append hp2
  rw [← List.append_assoc]
  exact ⟨fun exit => h12.flow.append (hf exit) (hfit exit),
    fun exit => h12.fits.append (hfit exit), h12.jumps.append hj (fun ho => absurd ho hclosed),
    ⟨c1 ++ c2 ++ init, i, by rw [hlast]; simp, hi⟩,
    (hl1.append False.elim).append False.elim⟩

/-- A branch that drops the number compared before it goes on. -/
theorem popR_spec {e : Snode} (he : SpecR scs fuel e) {p : Pmap} {b : List Status}
    {s s' : CompState} {c : List Instr} (hd : Distinct p e.binders)
    (hs : s.si = b ++ [.evaluated])
    (h : Emit.andThen (Emit.op (.pop 1)) (compR scs fuel p b.length e) s = some (c, s')) :
    BodySpec s c := by
  obtain ⟨c1, s1, c2, h1, h2, rfl⟩ := Emit.andThen_some h
  have hb := pop_effect hs h1
  rw [← hb] at h2
  have hbody := he p s1 c2 s' hd h2
  have htop : s.si.getLast? = some .evaluated := by rw [hs, List.getLast?_concat]
  obtain ⟨-, rfl, heff, -⟩ := Emit.op_some h1
  refine ⟨fun exit => ⟨⟨rfl, trivial⟩, ⟨s1.si, Op.post_of_effect heff, fun _ => hbody.fits exit,
    by simp [Op.target]⟩, hbody.flow exit⟩, fun _ => Weaker.refl _,
    ⟨by simp [Op.target], ?_, by simp, hbody.jumps⟩, ?_, hbody.landing⟩
  · intro n hn
    cases hn
    exact ⟨rfl, htop, hbody.landing⟩
  · obtain ⟨init, i, rfl, hi⟩ := hbody.last
    exact ⟨_ :: init, i, rfl, hi⟩

theorem compR_application_spec {l r : Snode} {b : Bool}
    (ih : ∀ e : Snode, sizeOf e < sizeOf (Snode.application l r b) → SpecR scs fuel e) :
    SpecR scs fuel (.application l r b) := by
  intro p s c s' hd h
  rcases @compR_application scs fuel p s.si.length l r b with
    ⟨-, -, he⟩ | ⟨x, s1, d, s2, s3, t, s4, -, rfl, he⟩ | ⟨cond, s3, t, s4, rfl, he⟩ |
    ⟨e1, s1, rfl, he⟩ | ⟨i, d, s1, rfl, -, -, he⟩ | he
  · rw [he] at h
    exact compCons_spec hd h
  · rw [he] at h
    simp only [Snode.application.sizeOf_spec] at ih
    simp only [Snode.binders, List.append_assoc, List.nil_append] at hd
    refine ifR_spec hd.left h ?_
    intro sb c1 s2 base hb hlen h3
    rw [← hlen] at h3
    obtain ⟨k, -, h3⟩ := Emit.int_some h3
    exact emitIfR_spec h3 (fun _ => rfl) (fun _ => rfl)
      (fun _ => by rw [hb]; exact List.getLast?_concat)
      (fun sc c1 s2 hsi hct => popR_spec (ih r (by omega)) hd.right.right (hsi.trans hb) hct)
      (fun sc c1 s2 hsi hcf => popR_spec (ih t (by omega)) hd.right.left (hsi.trans hb) hcf)
  · rw [he] at h
    simp only [Snode.application.sizeOf_spec] at ih
    simp only [Snode.binders, List.append_assoc, List.nil_append] at hd
    refine ifR_spec hd.left h ?_
    intro sb c1 s2 base hb hlen h3
    rw [← hlen] at h3
    exact emitIfR_spec (t := base) h3 (fun _ => rfl)
      (fun _ => by rw [hb]; simp [Op.effect, popStatus])
      (fun _ => by rw [hb]; exact List.getLast?_concat)
      (fun sc c1 s2 hsi hct => (ih t (by omega)) p sc c1 s2 hd.right.left (by rw [hsi]; exact hct))
      (fun sc c1 s2 hsi hcf => (ih r (by omega)) p sc c1 s2 hd.right.right (by rw [hsi]; exact hcf))
  · rw [he] at h
    simp only [Snode.application.sizeOf_spec] at ih
    simp only [Snode.binders, List.nil_append] at hd
    refine ifR_spec hd.left h ?_
    intro sb c1 s2 base hb hlen h3
    rw [← hlen] at h3
    have hbody := popR_spec (ih r (by omega)) hd.right hb h3
    exact ⟨hbody.flow, hbody.fits, hbody.jumps, hbody.last⟩
  · rw [he] at h
    simp only [Snode.binders, List.nil_append] at hd
    obtain ⟨index, -, h⟩ := Emit.int_some h
    obtain ⟨c1, sa, c', h1, h', rfl⟩ := Emit.andThen_some h
    obtain ⟨c2, sb, c'', h2, h'', rfl⟩ := Emit.andThen_some h'
    obtain ⟨c3, sc, c''', h3, h''', rfl⟩ := Emit.andThen_some h''
    obtain ⟨c4, sd, c5, h4, h5, rfl⟩ := Emit.andThen_some h'''
    obtain ⟨hp1, hl1, st, hs1, -⟩ := (comp_spec r).1 p s c1 sa hd h1
    obtain ⟨hp3, hl3, hs3⟩ := squeezeAll_spec (op_pushes h2 rfl hs1.grows) h3
    obtain ⟨hp4, hs4⟩ := Emit.eval_top hs3 h4
    exact BodySpec.prepend hp1.toCore.lead hl1.of_false (BodySpec.prepend (Piece.op h2 rfl trivial).toCore.lead
      (op_landing h2 rfl).of_false (BodySpec.prepend hp3.toCore.lead hl3
        (BodySpec.prepend hp4.toCore.lead (Emit.eval_landing h4)
          (BodySpec.op h5 rfl rfl (not_not.mp (Emit.eval_top_closed h4))))))
  · rw [he] at h
    exact compAppR_spec hd h

/-- Scheme `R` keeps the promises of `BodySpec`. -/
theorem compR_spec (e : Snode) : SpecR scs fuel e := by
  induction hk : sizeOf e using Nat.strongRecOn generalizing e with
  | _ k ihk =>
  subst hk
  have ih : ∀ e' : Snode, sizeOf e' < sizeOf e → SpecR scs fuel e' :=
    fun e' he => ihk _ he e' rfl
  have hret : ∀ (em : Emit) (s : CompState) (c : List Instr) (s' : CompState),
      (∀ c1 s1, em s = some (c1, s1) → Core s c1 s1 ∧ Landing False c1 ∧ ¬s1.isOpen) →
      Emit.andThen em (Emit.op .ret) s = some (c, s') → BodySpec s c := by
    intro em s c s' hem h
    obtain ⟨c1, s1, c2, h1, h2, rfl⟩ := Emit.andThen_some h
    obtain ⟨hc, hl, ho⟩ := hem c1 s1 h1
    exact BodySpec.ret hc hl ho h2
  have hvalue : ∀ (o : Op) (s : CompState) (c : List Instr) (s' : CompState), o.plain = true →
      o.ready s.si → (∃ n, n ≤ s.si.length ∧
        o.effect s.si = (popStatus n s.si).map (fun si => ⟨si ++ [.evaluated], false⟩)) →
      Emit.andThen (Emit.op o) (Emit.op .ret) s = some (c, s') → BodySpec s c := by
    intro o s c s' hp hr ⟨n, hn, ho⟩ h
    refine hret _ s c s' (fun c1 s1 h1 => ?_) h
    exact ⟨(Piece.op h1 hp hr).toCore, op_landing h1 hp,
      (op_pushes h1 ho (Grows.of_length hn)).closed⟩
  cases e with
  | application l r b => exact compR_application_spec ih
  | lambda x b =>
    intro p s c s' _ h
    simp [compR] at h
  | builtin b =>
    intro p s c s' _ h
    rw [compR] at h
    exact hvalue (.mkcap _ 0) s c s' rfl trivial ⟨0, Nat.zero_le _, rfl⟩ h
  | symbol x =>
    intro p s c s' hd h
    rw [compR] at h
    obtain ⟨c1, s1, c', h1, h', rfl⟩ := Emit.andThen_some h
    obtain ⟨c2, s2, c'', h2, h'', rfl⟩ := Emit.andThen_some h'
    obtain ⟨c3, s3, c4, h3, h4, rfl⟩ := Emit.andThen_some h''
    obtain ⟨hp1, hl1, -⟩ := (comp_spec (.symbol x)).2 p s c1 s1 hd h1
    have hp2 := Piece.squeeze h2 Nat.one_pos
    obtain ⟨hp3, -, -⟩ := Emit.eval_spec h3
    rw [← List.append_assoc, ← List.append_assoc]
    exact BodySpec.ret ((hp1.append hp2).append hp3).toCore
      ((hl1.append False.elim).append False.elim) (Emit.eval_top_closed h3) h4
  | letrec bs body =>
    intro p s c s' hd h
    rw [compR] at h
    obtain ⟨c1, s1, c2, h1, h2, rfl⟩ := Emit.andThen_some h
    simp only [Snode.letrec.sizeOf_spec] at ih
    obtain ⟨hdb, hdv, hslots⟩ := Distinct.letrec (n := s.si.length) hd
    obtain ⟨hp1, hl1, -, hlen1⟩ := compLetrec_spec (b := s.si.length)
      (Letrec.Values.of_sizeOf (fun v _ => comp_spec v)) hdv hslots rfl (by simp) rfl
      (Nat.le_refl _) h1
    rw [← hlen1] at h2
    exact BodySpec.prepend hp1.toCore.lead hl1 (ih body (by omega) _ s1 c2 s' hdb h2)
  | scref i =>
    intro p s c s' _ h
    rw [compR] at h
    simp only [Option.bind_eq_bind, Option.bind_eq_some_iff] at h
    obtain ⟨k, -, h⟩ := h
    split at h
    · exact emitJfun_spec h
    · exact hvalue (.mkcap _ 0) s c s' rfl trivial ⟨0, Nat.zero_le _, rfl⟩ h
  | nil =>
    intro p s c s' _ h
    rw [compR] at h
    exact hvalue .pushnil s c s' rfl trivial ⟨0, Nat.zero_le _, by rw [popStatus_zero]; rfl⟩ h
  | number d =>
    intro p s c s' _ h
    rw [compR] at h
    exact hvalue (.pushnumber _) s c s' rfl trivial ⟨0, Nat.zero_le _, by rw [popStatus_zero]; rfl⟩ h
  | string v =>
    intro p s c s' _ h
    rw [compR] at h
    refine hret _ s c s' (fun c1 s1 h1 => ?_) h
    obtain ⟨hp, hl, hs⟩ := Emit.pushString_spec h1
    exact ⟨hp.toCore, hl, hs.closed⟩

end Schemes

end Bytecode
end NReduce
