import NReduce.Bytecode.Peephole

/-!
# NReduce.Bytecode.Exec

The execution of the code of one function in one frame, as `interpreter.c` does it, against a
`World` that stands for the heap and for all other frames. Whatever the code asks of the world is
recorded as an event: calls, evaluations, builtins and heap operations with their operands. What
comes back is up to the world, so a statement about all worlds is one about every result that the
calls may return.
-/

namespace NReduce
namespace Bytecode

open Compiler

/-- What the instructions that test a value can see of it. -/
inductive Kind where
  | number (d : Double)
  | nil
  | cap
  | other
  deriving DecidableEq

/-- The operations of the code on the world. -/
inductive Request (V : Type) where
  | spark (v : V)
  | eval (v : V)
  | bif (b : Bif) (args : List V)
  | mkframe (fno : Fn) (args : List V)
  | mkcap (fno : Fn) (args : List V)
  | alloc
  | update (hole value : V)
  | consn (args : List V)
  | itemn (index : Int) (list : V)
  deriving DecidableEq

/-- The heap and the other frames, as one frame sees them. `value` is `resolve_pntr` where the
result is not a frame; `apply` is `none` where an operation does not come back to the frame. -/
structure World (V : Type) where
  State : Type
  number : Double → V
  nil : V
  true_ : V
  string : Nat → V
  kind : State → V → Kind
  value : State → V → Option V
  apply : State → Request V → Option (V × State)
  kind_nil : ∀ w, kind w nil = .nil
  kind_true : ∀ w, kind w true_ = .other
  /-- A frame that has been evaluated resolves to what it returned. -/
  value_eval : ∀ w v r w', apply w (.eval v) = some (r, w') →
    value w' v = some r ∧ value w' r = some r
  /-- A frame that has just been made has not been evaluated. -/
  value_mkframe : ∀ w fno args v w', apply w (.mkframe fno args) = some (v, w') →
    value w' v = none

/-- An operation, with its result where there is one. -/
structure Event (V : Type) where
  request : Request V
  result : Option V
  deriving DecidableEq

/-- How the code of a function ends. -/
inductive Outcome (V : Type) where
  | returned (v : V)
  | jfun (fno : Fn) (mode : Nat) (args : List V)
  | do_ (mayReturn : Bool) (args : List V)
  | ended
  /-- `set_error` -/
  | error
  /-- An operation did not come back. -/
  | stopped
  /-- Control left the code. -/
  | lost
  deriving DecidableEq

/-- What one instruction does. -/
inductive Next (V : Type) (S : Type) where
  | fall (data : Nat → V) (w : S) (events : List (Event V))
  | goto (addr : Nat) (data : Nat → V) (w : S) (events : List (Event V))
  | stop (events : List (Event V)) (outcome : Outcome V)

section Step

variable {V : Type} (world : World V)

/-- The `n` topmost of `expcount` slots, the lowest first. -/
def slots (data : Nat → V) (expcount n : Nat) : List V :=
  (List.range n).map (fun k => data (expcount - n + k))

/-- Asks for something and puts the answer in a slot. -/
def ask (w : world.State) (req : Request V) (data : Nat → V) (slot : Nat) :
    Next V world.State :=
  match world.apply w req with
  | some (v, w') => .fall (Function.update data slot v) w' [⟨req, some v⟩]
  | none => .stop [⟨req, none⟩] .stopped

/-- `op_eval`: nothing happens where the slot holds a value. -/
def evalSlot (w : world.State) (data : Nat → V) (slot : Nat) : Next V world.State :=
  match world.value w (data slot) with
  | some v => .fall (Function.update data slot v) w []
  | none => ask world w (.eval (data slot)) data slot

/-- `op_alloc`: `n` holes from slot `base` on. -/
def allocSlots (base : Nat) : Nat → Nat → world.State → (Nat → V) → List (Event V) →
    Next V world.State
  | 0, _, w, data, events => .fall data w events
  | n + 1, k, w, data, events =>
    match world.apply w .alloc with
    | some (v, w') =>
      allocSlots base n (k + 1) w' (Function.update data (base + k) v)
        (events ++ [⟨.alloc, some v⟩])
    | none => .stop (events ++ [⟨.alloc, none⟩]) .stopped

/-- The comparison of two numbers. -/
def compareDoubles (b : Bif) (x y : Double) : Bool :=
  match b with
  | .eq => doubleEq x y
  | .ne => !doubleEq x y
  | .lt => doubleLt x y
  | .le => doubleLt x y || doubleEq x y
  | .gt => doubleLt y x
  | .ge => doubleLt y x || doubleEq x y
  | _ => false

/-- The result of a comparison, `none` where an argument is no number. -/
def compareValues (w : world.State) (b : Bif) (p1 p2 : V) : Option Bool :=
  match world.kind w p1, world.kind w p2 with
  | .number x, .number y => some (compareDoubles b x y)
  | _, _ => none

/-- `setbool` -/
def setBool (b : Bool) : V := if b then world.true_ else world.nil

/-- `op_spark` … `op_itemn`. The last argument is the frame's stack. -/
def step (i : Instr) (w : world.State) (data : Nat → V) : Next V world.State :=
  let n := i.expcount
  match i.op with
  | .begin_ | .globstart _ _ | .pop _ => .fall data w []
  | .end_ => .stop [] .ended
  | .spark pos =>
    match world.value w (data pos) with
    | some _ => .fall data w []
    | none => .fall data w [⟨.spark (data pos), none⟩]
  | .ret => .stop [] (.returned (data (n - 1)))
  | .do_ mayReturn => .stop [] (.do_ mayReturn (slots data n n))
  | .jfun fno mode => .stop [] (.jfun fno mode (slots data n n))
  | .jfalse addr =>
    match world.kind w (data (n - 1)) with
    | .cap => .stop [] .error
    | .nil => .goto addr data w []
    | _ => .fall data w []
  | .jump addr => .goto addr data w []
  | .push pos => .fall (Function.update data n (data pos)) w []
  | .update pos => ask world w (.update (data pos) (data (n - 1))) data pos
  | .alloc k => allocSlots world n k 0 w data []
  | .squeeze count remove =>
    let base := n - count - remove
    .fall (fun k => if base ≤ k ∧ k < base + count then data (k + remove) else data k) w []
  | .mkcap fno k => ask world w (.mkcap fno (slots data n k)) data (n - k)
  | .mkframe fno k => ask world w (.mkframe fno (slots data n k)) data (n - k)
  | .bif b =>
    let req := Request.bif b (slots data n (builtinInfo b).nargs)
    let slot := n - (builtinInfo b).nargs
    if isComparison b then
      match compareValues world w b (data (n - 1)) (data (n - 2)) with
      | some r =>
        .fall (Function.update data slot (setBool world r)) w [⟨req, some (setBool world r)⟩]
      | none => .stop [⟨req, none⟩] .error
    else ask world w req data slot
  | .pushnil => .fall (Function.update data n world.nil) w []
  | .pushnumber d => .fall (Function.update data n (world.number d)) w []
  | .pushstring k => .fall (Function.update data n (world.string k)) w []
  | .error | .invalid => .stop [] .error
  | .eval pos => evalSlot world w data pos
  | .call fno k =>
    -- the new frame runs at once, and its result takes the place of the arguments
    let req := Request.mkframe fno (slots data n k)
    match world.apply w req with
    | some (v, w') =>
      match world.apply w' (.eval v) with
      | some (r, w'') =>
        .fall (Function.update data (n - k) r) w'' [⟨req, some v⟩, ⟨.eval v, some r⟩]
      | none => .stop [⟨req, some v⟩, ⟨.eval v, none⟩] .stopped
    | none => .stop [⟨req, none⟩] .stopped
  | .jcmp addr b =>
    let req := Request.bif b (slots data n 2)
    match compareValues world w b (data (n - 1)) (data (n - 2)) with
    | some true => .fall data w [⟨req, some (setBool world true)⟩]
    | some false => .goto addr data w [⟨req, some (setBool world false)⟩]
    | none => .stop [⟨req, none⟩] .error
  | .consn k => ask world w (.consn (slots data n k)) data (n - k)
  | .itemn index _ => ask world w (.itemn index (data (n - 1))) data (n - 1)
  | .jeq addr value =>
    match world.kind w (data (n - 1)) with
    | .number d => if doubleEqInt d value then .goto addr data w [] else .fall data w []
    | _ => .stop [] .error

/-- The events of a run and how it ends. -/
structure Run (V : Type) where
  events : List (Event V)
  outcome : Outcome V
  deriving DecidableEq

def Run.after (events : List (Event V)) (r : Run V) : Run V := ⟨events ++ r.events, r.outcome⟩

/-- Runs code from an address; `goto` says where the argument of a jump points. `fuel` bounds the
number of instructions: jumps go forward, so the length of the code is enough. -/
def runFrom (goto : Nat → Nat → Nat) (code : List Instr) :
    Nat → Nat → world.State → (Nat → V) → Run V
  | 0, _, _, _ => ⟨[], .lost⟩
  | fuel + 1, pc, w, data =>
    match code[pc]? with
    | none => ⟨[], .lost⟩
    | some i =>
      match step world i w data with
      | .fall data' w' events => (runFrom goto code fuel (pc + 1) w' data').after events
      | .goto addr data' w' events =>
        (runFrom goto code fuel (goto pc addr) w' data').after events
      | .stop events outcome => ⟨events, outcome⟩

/-- Runs the body of a function; jumps are relative. -/
def run (code : List Instr) (w : world.State) (data : Nat → V) : Run V :=
  runFrom world (· + ·) code code.length 0 w data

end Step

end Bytecode
end NReduce
