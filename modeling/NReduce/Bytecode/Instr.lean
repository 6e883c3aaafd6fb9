import NReduce.Compiler.Syntax
import Mathlib.Algebra.Group.Nat.Defs
import Mathlib.Algebra.Group.Int.Defs

/-!
# NReduce.Bytecode.Instr

The instructions of `bytecode.h` and the compile-time picture of a frame's stack, `stackinfo` in
`bytecode.c`. `Op.effect` is the second half of `add_instruction`: what an instruction does to that
picture. It is `none` where an assertion of the source fails.
-/

namespace NReduce
namespace Bytecode

open Compiler

/-! ## Numbers

The operations of C on `double` that the compiler and the interpreter use. Every finite double is
an integer multiple of `2^-1074`; infinities are given a value beyond all finite ones. -/

/-- The value of a double times `2^1074`; `none` for a NaN. -/
def scaled (d : Double) : Option Int :=
  let exponent := (d.extractLsb 62 52).toNat
  let fraction := (d.extractLsb 51 0).toNat
  let magnitude :=
    if exponent = 2047 then if fraction = 0 then some (2 ^ 2200) else none
    else if exponent = 0 then some fraction
    else some ((2 ^ 52 + fraction) * 2 ^ (exponent - 1))
  magnitude.map (fun m => if d.getMsbD 0 then -(m : Int) else m)

/-- `a == b` -/
def doubleEq (a b : Double) : Bool :=
  match scaled a, scaled b with
  | some x, some y => x == y
  | _, _ => false

/-- `a < b` -/
def doubleLt (a b : Double) : Bool :=
  match scaled a, scaled b with
  | some x, some y => decide (x < y)
  | _, _ => false

/-- `floor(d) == d` -/
def isIntegral (d : Double) : Bool :=
  match scaled d with
  | some x => x % 2 ^ 1074 == 0
  | none => false

/-- The values of `int` -/
def InIntRange (x : Int) : Prop := -2 ^ 31 ≤ x ∧ x < 2 ^ 31

instance (x : Int) : Decidable (InIntRange x) := inferInstanceAs (Decidable (_ ∧ _))

/-- The value of an integral double -/
def integerOf (d : Double) : Int := (scaled d).getD 0 / 2 ^ 1074

/-- `(int)d`, for an integral `d`. The conversion is invalid where no `int` has the value, and the
program calls `enable_invalid_fpe` before all else: it then dies of SIGFPE. -/
def toInt (d : Double) : Option Int :=
  if InIntRange (integerOf d) then some (integerOf d) else none

/-- `d == (double)k` for an `int` `k`; the conversion is exact. -/
def doubleEqInt (d : Double) (k : Int) : Bool := scaled d == some (k * 2 ^ 1074)

/-! ## Instructions -/

/-- What is known of a stack slot. -/
inductive Status where
  | unknown
  | sparked
  | evaluated
  deriving DecidableEq

def Status.toNat : Status → Nat
  | .unknown => 0
  | .sparked => 1
  | .evaluated => 2

/-- A function number: a builtin, or a supercombinator by its index. -/
inductive Fn where
  | bif (b : Bif)
  | sc (i : Nat)
  deriving DecidableEq

/-- Opcodes with their arguments. Jumps hold the distance to their target. -/
inductive Op where
  | begin_
  | end_
  | globstart (fno : Fn) (n : Nat)
  | spark (pos : Nat)
  | ret
  | do_ (mayReturn : Bool)
  | jfun (fno : Fn) (mode : Nat)
  | jfalse (addr : Nat)
  | jump (addr : Nat)
  | push (pos : Nat)
  | update (pos : Nat)
  | alloc (n : Nat)
  | squeeze (count remove : Nat)
  | mkcap (fno : Fn) (n : Nat)
  | mkframe (fno : Fn) (n : Nat)
  | bif (b : Bif)
  | pushnil
  | pushnumber (d : Double)
  | pushstring (str : Nat)
  | pop (n : Nat)
  | error
  | eval (pos : Nat)
  | call (fno : Fn) (n : Nat)
  | jcmp (addr : Nat) (b : Bif)
  | consn (n : Nat)
  | itemn (index : Int) (mayReturn : Bool)
  | jeq (addr : Nat) (value : Int)
  | invalid
  deriving DecidableEq

/-- An instruction with the number of stack slots in use before it. `si` is the status of these
slots at the time the instruction was added; the bytecode does not store it. -/
structure Instr where
  op : Op
  expcount : Nat
  si : List Status
  deriving DecidableEq

/-- The stack of `stackinfo`, bottom first, and its flag `invalid`. -/
structure StackInfo where
  si : List Status
  invalid : Bool := false
  deriving DecidableEq

/-- `popstatus` -/
def popStatus (n : Nat) (si : List Status) : Option (List Status) :=
  if n ≤ si.length then some (si.take (si.length - n)) else none

/-- What an instruction does to the stack picture. -/
def Op.effect (op : Op) (si : List Status) : Option StackInfo :=
  match op with
  | .begin_ | .end_ | .globstart _ _ | .do_ _ | .jeq _ _ | .jump _ => some ⟨si, false⟩
  | .spark pos =>
    (si[pos]?).map (fun s => if s = .unknown then ⟨si.set pos .sparked, false⟩ else ⟨si, false⟩)
  | .ret | .jfun _ _ | .error | .invalid => some ⟨si, true⟩
  | .jfalse _ => (popStatus 1 si).map (⟨·, false⟩)
  | .push pos => (si[pos]?).map (fun s => ⟨si ++ [s], false⟩)
  | .pop n => (popStatus n si).map (⟨·, false⟩)
  | .update pos => do
    let top ← si.getLast?
    if pos < si.length then (popStatus 1 (si.set pos top)).map (⟨·, false⟩) else none
  | .alloc n => some ⟨si ++ List.replicate n .unknown, false⟩
  | .squeeze count remove =>
    if count + remove ≤ si.length then
      some ⟨si.take (si.length - count - remove) ++ si.drop (si.length - count), false⟩
    else none
  | .mkcap _ n => (popStatus n si).map (fun si => ⟨si ++ [.evaluated], false⟩)
  | .mkframe _ n => (popStatus n si).map (fun si => ⟨si ++ [.unknown], false⟩)
  | .bif b =>
    (popStatus (builtinInfo b).nargs si).map (fun si =>
      ⟨si ++ [if (builtinInfo b).reswhnf then .evaluated else .unknown], false⟩)
  | .pushnil | .pushnumber _ | .pushstring _ => some ⟨si ++ [.evaluated], false⟩
  | .eval pos => if pos < si.length then some ⟨si.set pos .evaluated, false⟩ else none
  -- CALL and JCMP are made by the peephole pass only
  | .call _ _ | .jcmp _ _ => none
  | .consn n => (popStatus n si).map (fun si => ⟨si ++ [.evaluated], false⟩)
  | .itemn _ _ => (popStatus 1 si).map (fun si => ⟨si ++ [.unknown], false⟩)

end Bytecode
end NReduce
