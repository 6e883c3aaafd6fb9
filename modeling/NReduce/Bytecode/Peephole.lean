import NReduce.Bytecode.Flow

/-!
# NReduce.Bytecode.Peephole

The peephole pass, `peephole` in `bytecode.c`. It works on absolute addresses, counted here from
the first instruction of the body. A round goes once over the code: at each place one of the rules
below takes some instructions and appends others, and `map` records the new address of every
instruction taken. At the end of a round all jumps are redirected through `map`. Rounds are
repeated as long as one of the rules that set `changed` was used.

The assertions of the pass are not part of the model.
-/

namespace NReduce
namespace Bytecode

open Compiler

def Op.setTarget (d : Nat) : Op → Op
  | .jfalse _ => .jfalse d
  | .jump _ => .jump d
  | .jcmp _ b => .jcmp d b
  | .jeq _ v => .jeq d v
  | op => op

/-- Redirects a jump; other instructions stay as they are. -/
def Instr.mapTarget (f : Nat → Nat) (i : Instr) : Instr :=
  match i.op.target with
  | some d => { i with op := i.op.setTarget (f d) }
  | none => i

/-- What one turn of the main loop does: how many instructions it takes, those it appends, the new
addresses relative to the first of them, and the slot whose `JEQ` tests are being joined. -/
structure Window where
  taken : Nat
  out : List Instr
  map : List Nat
  changed : Bool := false
  chain : Option (Nat × Bool) := none

/-- `SPARK` and `EVAL` of one slot. -/
def sparkEval : List Instr → Option Window
  | i1 :: i2 :: _ =>
    match i1.op, i2.op with
    | .spark a, .eval b => if a = b then some ⟨2, [i2], [0, 0], true, none⟩ else none
    | _, _ => none
  | _ => none

/-- `MKFRAME` and `EVAL` of the new frame. The `EVAL` stays. -/
def mkframeEval : List Instr → Option Window
  | i1 :: i2 :: _ =>
    match i1.op, i2.op with
    | .mkframe fno n, .eval pos =>
      if i2.expcount = pos + 1 then some ⟨1, [{ i1 with op := .call fno n }], [0], false, none⟩
      else none
    | _, _ => none
  | _ => none

/-- `SQUEEZE` and `RETURN` -/
def squeezeReturn : List Instr → Option Window
  | i1 :: i2 :: _ =>
    match i1.op, i2.op with
    | .squeeze _ _, .ret => some ⟨2, [{ i1 with op := .ret }], [0, 0], true, none⟩
    | _, _ => none
  | _ => none

def isComparison (b : Bif) : Bool :=
  b == .eq || b == .ne || b == .lt || b == .le || b == .gt || b == .ge

/-- A comparison and `JFALSE` -/
def bifJfalse : List Instr → Option Window
  | i1 :: i2 :: _ =>
    match i1.op, i2.op with
    | .bif b, .jfalse addr =>
      if isComparison b then some ⟨2, [{ i1 with op := .jcmp addr b }], [0, 0], true, none⟩
      else none
    | _, _ => none
  | _ => none

/-- The head of a chain of `JEQ` tests of a slot that is known to be evaluated. -/
def jeqChain : List Instr → Option Window
  | i1 :: i2 :: i3 :: i4 :: _ =>
    match i1.op, i2.op, i3.op, i4.op with
    | .push a, .jeq _ _, .pop _, .push a' =>
      if a = a' then some ⟨2, [i1, i2], [0, 1], false, some (a, false)⟩ else none
    | _, _, _, _ => none
  | _ => none

/-- The head of a chain of `JEQ` tests of a slot that is evaluated first. -/
def evalJeqChain : List Instr → Option Window
  | i1 :: i2 :: i3 :: i4 :: i5 :: _ =>
    match i1.op, i2.op, i3.op, i4.op, i5.op with
    | .push a, .eval pos, .jeq _ _, .pop _, .push a' =>
      if pos = i1.expcount ∧ a = a' then
        some ⟨3, [i1, i2, i3], [0, 1, 2], false, some (a, true)⟩
      else none
    | _, _, _, _, _ => none
  | _ => none

/-- Another test of the chain: only its `JEQ` is kept. -/
def chainNext (chain : Option (Nat × Bool)) (l : List Instr) : Option Window :=
  match chain, l with
  | some (a, false), i1 :: i2 :: i3 :: _ =>
    match i1.op, i2.op, i3.op with
    | .pop _, .push a', .jeq _ _ =>
      if a = a' then some ⟨3, [i3], [0, 0, 0], false, chain⟩ else none
    | _, _, _ => none
  | some (a, true), i1 :: i2 :: i3 :: i4 :: _ =>
    match i1.op, i2.op, i3.op, i4.op with
    | .pop _, .push a', .eval pos, .jeq _ _ =>
      if pos = i2.expcount ∧ a = a' then some ⟨4, [i4], [0, 0, 0, 0], false, chain⟩ else none
    | _, _, _, _ => none
  | _, _ => none

/-- `POP` is deleted: the depth of the stack is known at every instruction. -/
def dropPop : List Instr → Option Window
  | i :: _ => if let .pop _ := i.op then some ⟨1, [], [0], false, none⟩ else none
  | [] => none

def keepOne (l : List Instr) : Window := ⟨1, l.take 1, [0], false, none⟩

/-- The rules in the order in which the loop tries them. -/
def window (chain : Option (Nat × Bool)) (l : List Instr) : Window :=
  ((chainNext chain l).or <| (sparkEval l).or <| (mkframeEval l).or <| (squeezeReturn l).or <|
    (bifJfalse l).or <| (jeqChain l).or <| (evalJeqChain l).or <| dropPop l).getD (keepOne l)

/-- The code after a round, the map and the flag `changed`. -/
structure Scan where
  code : List Instr
  map : List Nat
  changed : Bool

/-- The main loop, from the address `dest` of the new code on. -/
def scan : Nat → Nat → Option (Nat × Bool) → List Instr → Scan
  | 0, _, _, _ => ⟨[], [], false⟩
  | fuel + 1, dest, chain, l =>
    if l.isEmpty then ⟨[], [], false⟩
    else
      let w := window chain l
      let r := scan fuel (dest + w.out.length) w.chain (l.drop w.taken)
      ⟨w.out ++ r.code, w.map.map (dest + ·) ++ r.map, w.changed || r.changed⟩

/-- One round: the new code with its jumps redirected, and `changed`. -/
def peepholeRound (code : List Instr) : List Instr × Bool :=
  let r := scan code.length 0 none code
  (r.code.map (Instr.mapTarget (fun addr => r.map.getD addr 0)), r.changed)

/-- The `do … while (changed)` loop. -/
def peepholeRounds : Nat → List Instr → List Instr
  | 0, code => code
  | fuel + 1, code =>
    let r := peepholeRound code
    if r.2 then peepholeRounds fuel r.1 else r.1

def absolute (code : List Instr) : List Instr :=
  code.mapIdx (fun addr i => i.mapTarget (· + addr))

def relative (code : List Instr) : List Instr :=
  code.mapIdx (fun addr i => i.mapTarget (· - addr))

/-- `peephole` -/
def peephole (code : List Instr) : List Instr :=
  relative (peepholeRounds (code.length + 1) (absolute code))

end Bytecode
end NReduce
