import NReduce.Bytecode.EmitFlow
import NReduce.Bytecode.Exec

/-!
# NReduce.Bytecode.EqualTest

The test of a conditional `(if (== e k) t f)` with an integral constant `k`: `E` and `R` emit JEQ for
it, with the constant as an `int` in the instruction, in place of `==` and JFALSE. The conversion to
`int` traps where no `int` has the value, so that there is no code.

`eqThenJfalse` is what `==` and JFALSE do with the two numbers. `jeq_agrees_iff` says when there is
code that takes the same branch.
-/

namespace NReduce
namespace Bytecode

open Compiler

/-! ## Numbers -/

theorem scaled_of_isIntegral {d : Double} (h : isIntegral d = true) :
    scaled d = some (integerOf d * 2 ^ 1074) := by
  unfold isIntegral at h
  unfold integerOf
  cases hs : scaled d with
  | none =>
    rw [hs] at h
    cases h
  | some x =>
    rw [hs] at h
    have hmod : x % 2 ^ 1074 = 0 := eq_of_beq h
    rw [Option.getD_some, Int.ediv_mul_cancel (Int.dvd_of_emod_eq_zero hmod)]

theorem toInt_of_inIntRange {d : Double} (h : InIntRange (integerOf d)) :
    toInt d = some (integerOf d) := if_pos h

theorem toInt_eq_some {d : Double} {k : Int} (h : toInt d = some k) :
    InIntRange (integerOf d) ∧ k = integerOf d := by
  unfold toInt at h
  split at h
  · next hr => exact ⟨hr, (Option.some.inj h).symm⟩
  · cases h

/-- Comparing with an integral double is comparing with its value. -/
theorem doubleEq_of_isIntegral {y d : Double} (h : isIntegral d = true) :
    doubleEq y d = doubleEqInt y (integerOf d) := by
  unfold doubleEq doubleEqInt
  rw [scaled_of_isIntegral h]
  cases scaled y <;> rfl

/-! ## The branch -/

section

variable {V : Type} (world : World V)

/-- A number that is made is a number to `get_pntr`. -/
def World.Numbers : Prop := ∀ w d, world.kind w (world.number d) = .number d

/-- The branch that `==` and JFALSE take on the value `v` of `e` and the constant `k`, which is
below it on the stack; `none` where `==` sets an error. -/
def eqThenJfalse (w : world.State) (k v : V) : Option Bool :=
  match step world ⟨.bif .eq, 2, []⟩ w (fun i => if i = 0 then k else v) with
  | .fall data w _ =>
    match step world ⟨.jfalse 0, 1, []⟩ w data with
    | .fall _ _ _ => some true
    | .goto _ _ _ _ => some false
    | .stop _ _ => none
  | _ => none

/-- What `B_EQ` does with the result of the comparison -/
def compared (w : world.State) (d : Double) (v : V) : Option Bool → Next V world.State
  | some r => .fall (Function.update (fun i => if i = 0 then world.number d else v) 0
      (setBool world r)) w [⟨.bif .eq [world.number d, v], some (setBool world r)⟩]
  | none => .stop [⟨.bif .eq [world.number d, v], none⟩] .error

/-- Where the instruction at `pc` leads to; `none` where it sets an error. -/
def nextPc (pc : Nat) (i : Instr) (w : world.State) (data : Nat → V) : Option Nat :=
  match step world i w data with
  | .fall _ _ _ => some (pc + 1)
  | .goto addr _ _ _ => some (pc + addr)
  | .stop _ _ => none

variable {world}

/-- `==` looks at the numbers, and JFALSE at what it finds. -/
theorem eqThenJfalse_number (hn : world.Numbers) (w : world.State) (d : Double) (v : V) :
    eqThenJfalse world w (world.number d) v =
      match world.kind w v with
      | .number y => some (doubleEq y d)
      | _ => none := by
  have hstep : step world ⟨.bif .eq, 2, []⟩ w (fun i => if i = 0 then world.number d else v) =
      compared world w d v (compareValues world w .eq v (world.number d)) := rfl
  unfold eqThenJfalse
  rw [hstep]
  unfold compareValues
  rw [hn]
  cases world.kind w v with
  | number y =>
    simp only [compared, step, Nat.sub_self, Function.update_self]
    cases hd : doubleEq y d with
    | false => simp only [compareDoubles, hd, setBool, world.kind_nil, Bool.false_eq_true, if_false]
    | true => simp only [compareDoubles, hd, setBool, world.kind_true, if_true]
  | _ => rfl

end

/-! ## The code -/

/-- `(if (== x d) t f)` -/
def eqIf (x : Snode) (s1 : Bool) (d : Double) (s2 s3 : Bool) (t : Snode) (s4 : Bool) (f : Snode)
    (s5 : Bool) : Snode :=
  .application (.application (.application (.builtin .if_)
    (.application (.application (.builtin .eq) x s1) (.number d) s2) s3) t s4) f s5

/-- The two schemes that compile a conditional -/
inductive Scheme where
  | E
  | R
  deriving DecidableEq

def Scheme.comp (scs : List Scomb) (fuel : Nat) (p : Pmap) (n : Nat) : Scheme → Snode → Emit
  | E, c => compE scs fuel p n c
  | R, c => compR scs fuel p n c

/-- The code that the schemes emit for the conditional, with the constant `k` in JEQ. Nothing else in
it depends on the constant. -/
def Scheme.jeqCode (scs : List Scomb) (fuel : Nat) (p : Pmap) (n : Nat) (x t f : Snode) (k : Int) :
    Scheme → Emit
  | E =>
    Emit.andThen (compE scs fuel p n x) (Emit.andThen (Emit.eval 0)
      (Emit.andThen (emitIf (.jeq · k) (Emit.andThen (Emit.op (.pop 1)) (compE scs fuel p n f))
        (Emit.andThen (Emit.op (.pop 1)) (compE scs fuel p n t))) (joinStatus 1)))
  | R =>
    Emit.andThen (compE scs fuel p n x) (Emit.andThen (Emit.eval 0)
      (emitIfR (.jeq · k) (Emit.andThen (Emit.op (.pop 1)) (compR scs fuel p n f))
        (Emit.andThen (Emit.op (.pop 1)) (compR scs fuel p n t))))

/-- The code of a conditional with a test at its place: `cx` computes the value that is tested, and
the branches are behind the test. -/
structure EqCode (comp : Snode → Emit) (compX : Emit) (t f : Snode) (st : CompState)
    (code cx cf mid ct : List Instr) (test : Instr) : Prop where
  code_eq : code = cx ++ test :: (cf ++ mid ++ ct)
  value : ∃ st', Emit.andThen compX (Emit.eval 0) st = some (cx, st')
  falsebranch : ∃ st' st'', Emit.andThen (Emit.op (.pop 1)) (comp f) st' = some (cf, st'')
  truebranch : ∃ st' st'', Emit.andThen (Emit.op (.pop 1)) (comp t) st' = some (ct, st'')

/-- There is code for the conditional `c`, a test of `x` against `d`. It goes to the branch that `==`
and JFALSE choose, and sets an error where they do, whatever the value of `x`. -/
def Scheme.Agrees (scs : List Scomb) (fuel : Nat) (p : Pmap) (n : Nat) (c x t f : Snode) (d : Double)
    (st : CompState) (sch : Scheme) : Prop :=
  ∃ code st' cx cf mid ct test, sch.comp scs fuel p n c st = some (code, st') ∧
    EqCode (sch.comp scs fuel p n) (compE scs fuel p n x) t f st code cx cf mid ct test ∧
    ∀ (V : Type) (world : World V), world.Numbers → ∀ (w : world.State) (data : Nat → V),
      nextPc world cx.length test w data =
        (eqThenJfalse world w (world.number d) (data (test.expcount - 1))).map (fun b =>
          if b then cx.length + 1 + cf.length + mid.length else cx.length + 1)

variable {scs : List Scomb} {fuel : Nat} {p : Pmap} {n : Nat} {x t f : Snode} {d : Double}
  {s1 s2 s3 s4 s5 : Bool} {st st' : CompState} {code : List Instr}

theorem andThen_int (a : Emit) (g : Int → Emit) :
    Emit.andThen a (Emit.int d g) = Emit.int d (fun k => Emit.andThen a (g k)) := by
  funext s
  unfold Emit.andThen Emit.int
  cases toInt d with
  | none => cases a s <;> rfl
  | some k => rfl

theorem compE_eqIf (h : isIntegral d = true) :
    compE scs fuel p n (eqIf x s1 d s2 s3 t s4 f s5) =
      Emit.int d (fun k => Scheme.jeqCode scs fuel p n x t f k .E) := by
  have hcomp : compE scs fuel p n (eqIf x s1 d s2 s3 t s4 f s5) =
      Emit.andThen (compE scs fuel p n x) (Emit.andThen (Emit.eval 0) (Emit.int d fun k =>
        Emit.andThen (emitIf (.jeq · k) (Emit.andThen (Emit.op (.pop 1)) (compE scs fuel p n f))
          (Emit.andThen (Emit.op (.pop 1)) (compE scs fuel p n t))) (joinStatus 1))) := by
    rw [eqIf, compE.eq_def]
    simp only [h, if_true]
  rw [hcomp, andThen_int, andThen_int]
  rfl

theorem compR_eqIf (h : isIntegral d = true) :
    compR scs fuel p n (eqIf x s1 d s2 s3 t s4 f s5) =
      Emit.int d (fun k => Scheme.jeqCode scs fuel p n x t f k .R) := by
  have hcons : iscons (eqIf x s1 d s2 s3 t s4 f s5) = false := rfl
  have hcomp : compR scs fuel p n (eqIf x s1 d s2 s3 t s4 f s5) =
      Emit.andThen (compE scs fuel p n x) (Emit.andThen (Emit.eval 0) (Emit.int d fun k =>
        emitIfR (.jeq · k) (Emit.andThen (Emit.op (.pop 1)) (compR scs fuel p n f))
          (Emit.andThen (Emit.op (.pop 1)) (compR scs fuel p n t)))) := by
    rw [eqIf] at hcons ⊢
    rw [compR.eq_def]
    simp only [hcons, h, Bool.false_and, Bool.false_eq_true, if_false, if_true]
  rw [hcomp, andThen_int, andThen_int]
  rfl

/-- The constant is converted; then JEQ is emitted. -/
theorem comp_eqIf (sch : Scheme) (h : isIntegral d = true) :
    sch.comp scs fuel p n (eqIf x s1 d s2 s3 t s4 f s5) =
      Emit.int d (fun k => sch.jeqCode scs fuel p n x t f k) := by
  cases sch with
  | E => rw [Scheme.comp, compE_eqIf h]
  | R => rw [Scheme.comp, compR_eqIf h]

theorem Emit.andThen_eq {a b : Emit} {c₁ c₂ : List Instr} {st₁ st₂ : CompState}
    (ha : a st = some (c₁, st₁)) (hb : b st₁ = some (c₂, st₂)) :
    Emit.andThen a b st = some (c₁ ++ c₂, st₂) := by
  simp only [Emit.andThen, ha, hb, Option.bind_eq_bind, Option.bind_some, Option.pure_def]

/-- Behind the value there is JEQ with the constant. It jumps to the true branch. -/
theorem eqCode_of_jeqCode (sch : Scheme) {k : Int}
    (h : sch.jeqCode scs fuel p n x t f k st = some (code, st')) :
    ∃ cx cf mid ct test, EqCode (sch.comp scs fuel p n) (compE scs fuel p n x) t f st code
        cx cf mid ct test ∧
      test.op = .jeq (cf.length + mid.length + 1) k := by
  cases sch with
  | E =>
    rw [Scheme.jeqCode] at h
    obtain ⟨c₁, st₁, r₁, hx, h₁, rfl⟩ := Emit.andThen_some h
    obtain ⟨c₂, st₂, r₂, he, h₂, rfl⟩ := Emit.andThen_some h₁
    obtain ⟨c₃, st₃, c₄, hif, hjoin, rfl⟩ := Emit.andThen_some h₂
    simp only [emitIf, Option.bind_eq_bind, Option.bind_eq_some_iff, Option.pure_def,
      Option.some.injEq, Prod.mk.injEq] at hif
    obtain ⟨⟨_, a₁⟩, -, ⟨cf, a₂⟩, hf, ⟨_, a₃⟩, -, ⟨ct, a₄⟩, ht, rfl, rfl⟩ := hif
    simp only [joinStatus, Option.bind_eq_bind, Option.bind_eq_some_iff, Option.pure_def,
      Option.some.injEq, Prod.mk.injEq] at hjoin
    obtain ⟨si, -, rfl, -⟩ := hjoin
    refine ⟨c₁ ++ c₂, cf, [⟨.jump (ct.length + 1), a₂.si.length, a₂.si⟩], ct,
      ⟨.jeq (cf.length + 2) k, st₂.si.length, st₂.si⟩, ⟨?_, ⟨st₂, Emit.andThen_eq hx he⟩,
      ⟨_, _, hf⟩, ⟨_, _, ht⟩⟩, rfl⟩
    simp only [List.append_assoc, List.append_nil, List.cons_append, List.nil_append]
  | R =>
    rw [Scheme.jeqCode] at h
    obtain ⟨c₁, st₁, r₁, hx, h₁, rfl⟩ := Emit.andThen_some h
    obtain ⟨c₂, st₂, c₃, he, hif, rfl⟩ := Emit.andThen_some h₁
    simp only [emitIfR, Option.bind_eq_bind, Option.bind_eq_some_iff, Option.pure_def,
      Option.some.injEq, Prod.mk.injEq] at hif
    obtain ⟨⟨_, a₁⟩, -, ⟨cf, a₂⟩, hf, ⟨ct, a₃⟩, ht, rfl, rfl⟩ := hif
    refine ⟨c₁ ++ c₂, cf, [], ct, ⟨.jeq (cf.length + 1) k, st₂.si.length, st₂.si⟩, ⟨?_,
      ⟨st₂, Emit.andThen_eq hx he⟩, ⟨_, _, hf⟩, ⟨_, _, ht⟩⟩, rfl⟩
    simp only [List.append_assoc, List.append_nil, List.cons_append]

/-- What JEQ does with the value. -/
theorem nextPc_jeq {V : Type} {world : World V} {w : world.State} {data : Nat → V} {i : Instr}
    {pc addr : Nat} {k : Int} (hi : i.op = .jeq addr k) :
    nextPc world pc i w data =
      match world.kind w (data (i.expcount - 1)) with
      | .number y => some (if doubleEqInt y k then pc + addr else pc + 1)
      | _ => none := by
  simp only [nextPc, step, hi]
  cases world.kind w (data (i.expcount - 1)) with
  | number y =>
    cases hb : doubleEqInt y k with
    | true => simp only [hb, if_true]
    | false => simp only [hb, Bool.false_eq_true, if_false]
  | _ => rfl

/-- `E` and `R` emit code that goes to the branch that `==` and JFALSE choose, and sets an error where
they do, if and only if the constant is an `int`. The parts of the conditional have code. -/
theorem jeq_agrees_iff (sch : Scheme) (hd : isIntegral d = true)
    (hparts : ∀ k, (sch.jeqCode scs fuel p n x t f k st).isSome) :
    sch.Agrees scs fuel p n (eqIf x s1 d s2 s3 t s4 f s5) x t f d st ↔ InIntRange (integerOf d) := by
  constructor
  · rintro ⟨code, st', _, _, _, _, _, hcomp, -⟩
    rw [comp_eqIf sch hd] at hcomp
    obtain ⟨k, hk, -⟩ := Emit.int_some hcomp
    exact (toInt_eq_some hk).1
  · intro hr
    obtain ⟨⟨code, st'⟩, hcode⟩ := Option.isSome_iff_exists.mp (hparts (integerOf d))
    have hcomp : sch.comp scs fuel p n (eqIf x s1 d s2 s3 t s4 f s5) st = some (code, st') := by
      rw [comp_eqIf sch hd, Emit.int, toInt_of_inIntRange hr, Option.bind_some, hcode]
    obtain ⟨cx, cf, mid, ct, test, heq, htest⟩ := eqCode_of_jeqCode sch hcode
    refine ⟨code, st', cx, cf, mid, ct, test, hcomp, heq, fun V world hn w data => ?_⟩
    rw [nextPc_jeq htest, eqThenJfalse_number hn]
    cases world.kind w (data (test.expcount - 1)) with
    | number y =>
      have htarget : cx.length + (cf.length + mid.length + 1) =
          cx.length + 1 + cf.length + mid.length := by omega
      simp only [Option.map_some, doubleEq_of_isIntegral hd, htarget]
    | _ => rfl

/-- A world in which a value is what it looks like. -/
def plain : World Kind where
  State := Unit
  number := .number
  nil := .nil
  true_ := .other
  string := fun _ => .other
  kind := fun _ v => v
  value := fun _ v => some v
  apply := fun _ _ => none
  kind_nil := fun _ => rfl
  kind_true := fun _ => rfl
  value_eval := fun _ _ _ _ h => nomatch h
  value_mkframe := fun _ _ _ _ _ h => nomatch h

theorem plain_numbers : plain.Numbers := fun _ _ => rfl

/-- 2^32 -/
def pow32 : Double := 0x41F0000000000000

/-- 3 -/
def three : Double := 0x4008000000000000

/-- `(if (== d d) nil 0)` -/
def eqTest (d : Double) : Snode :=
  eqIf (.number d) false d false false .nil false (.number 0) false

theorem eqTest_parts (sch : Scheme) (d : Double) (k : Int) :
    (sch.jeqCode [] 0 [] 0 (.number d) .nil (.number 0) k ⟨[], false, []⟩).isSome := by
  cases sch <;> rfl

theorem isIntegral_three : isIntegral three = true := by decide +kernel

theorem isIntegral_pow32 : isIntegral pow32 = true := by decide +kernel

/-- The schemes on `eqTest` -/
def Scheme.AgreesOn (d : Double) (sch : Scheme) : Prop :=
  sch.Agrees [] 0 [] 0 (eqTest d) (.number d) .nil (.number 0) d ⟨[], false, []⟩

/-- The constant 3 is an `int`. -/
theorem jeq_agrees_iff_three : Scheme.E.AgreesOn three ∧ Scheme.R.AgreesOn three := by
  have hrange : InIntRange (integerOf three) := by decide +kernel
  exact ⟨(jeq_agrees_iff .E isIntegral_three (eqTest_parts .E three)).2 hrange,
    (jeq_agrees_iff .R isIntegral_three (eqTest_parts .R three)).2 hrange⟩

theorem comp_pow32 (sch : Scheme) : sch.comp [] 0 [] 0 (eqTest pow32) ⟨[], false, []⟩ = none := by
  have hint : toInt pow32 = none := by decide +kernel
  rw [eqTest, comp_eqIf sch isIntegral_pow32, Emit.int, hint, Option.bind_none]

/-- The conversion of the constant 2^32 traps, and neither scheme emits code. On the value 2^32, `==`
and JFALSE take the true branch. -/
theorem jeq_disagrees : ¬ Scheme.E.AgreesOn pow32 ∧ ¬ Scheme.R.AgreesOn pow32 ∧
    eqThenJfalse plain () (plain.number pow32) (.number pow32) = some true := by
  have hnone : ∀ sch : Scheme, ¬ sch.AgreesOn pow32 := by
    rintro sch ⟨code, st', _, _, _, _, _, hcomp, -⟩
    rw [comp_pow32 sch] at hcomp
    cases hcomp
  exact ⟨hnone .E, hnone .R, (eqThenJfalse_number plain_numbers () pow32 _).trans (by decide +kernel)⟩

end Bytecode
end NReduce
