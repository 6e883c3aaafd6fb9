import NReduce.Compiler.Syntax
import Mathlib.Logic.Function.Basic

/-!
# NReduce.Runtime.Reduction

`reduction.c`: the graph reduction engine. It unwinds the spine of an expression, instantiates the
supercombinator or runs the builtin at its tip, and overwrites the root of the redex by an
indirection to the result.

The stack is a list, its top first. The loops of the source have one bound in common; a run that
needs more turns, and one that ends in `exit`, `abort` or a failed assertion, gives `none`. A
builtin is a parameter, `builtins`. Local collections are left out.
-/

namespace NReduce
namespace Reduction

open Compiler

/-- `pntr`: a number, or the address of a cell. An AREF is known by its cell and an index; here
each of them has an address of its own. -/
inductive Pntr where
  | number (d : Double)
  | cell (c : Nat)
  deriving DecidableEq

inductive Cell where
  | empty
  | application (field1 field2 : Pntr)
  | builtin (b : Bif)
  | scref (sc : Nat)
  | cons (field1 field2 : Pntr)
  /-- the element at the index, and those after it -/
  | aref (element : Pntr) (elements : List Pntr) (tail : Pntr)
  /-- the array that `string_to_array` makes of a string that is not empty -/
  | string (value : String)
  | nil
  | ind (p : Pntr)
  | hole
  deriving DecidableEq

/-- Lists and arrays -/
def Cell.isData : Cell → Bool
  | .cons _ _ | .aref _ _ _ | .string _ | .nil => true
  | .empty | .application _ _ | .builtin _ | .scref _ | .ind _ | .hole => false

structure Heap where
  cells : Nat → Cell
  ncells : Nat
  globnil : Nat

namespace Heap

/-- `alloc_cell`, with what the caller makes of the cell -/
def alloc (h : Heap) (c : Cell) : Nat × Heap :=
  (h.ncells, { h with cells := Function.update h.cells h.ncells c, ncells := h.ncells + 1 })

def set (h : Heap) (a : Nat) (c : Cell) : Heap := { h with cells := Function.update h.cells a c }

/-- `string_to_array` -/
def stringToArray (h : Heap) (s : String) : Pntr × Heap :=
  if s = "" then (.cell h.globnil, h)
  else
    let (aref, h) := h.alloc (.string s)
    (.cell aref, h)

/-- `resolve_pntr` -/
def resolve (h : Heap) : Nat → Pntr → Option Pntr
  | 0, _ => none
  | _ + 1, .number d => some (.number d)
  | k + 1, .cell c =>
    match h.cells c with
    | .ind p => h.resolve k p
    | _ => some (.cell c)

/-- The two fields of an application -/
def application? (h : Heap) : Pntr → Option (Pntr × Pntr)
  | .number _ => none
  | .cell c =>
    match h.cells c with
    | .application f a => some (f, a)
    | _ => none

/-- `cell_make_ind(tsk,get_pntr(dest),res)` -/
def makeInd (h : Heap) (dest res : Pntr) : Option Heap :=
  match dest with
  | .number _ => none
  | .cell c => some (h.set c (.ind res))

/-- The assertion of `reduce` about the root of a redex -/
def isRedex (h : Heap) : Pntr → Bool
  | .number _ => false
  | .cell c =>
    match h.cells c with
    | .application _ _ | .scref _ => true
    | _ => false

end Heap

/-! ## Instantiation -/

/-- The stacks `names` and `values`, the top first -/
abbrev Names := List (String × Pntr)

/-- The holes of a letrec, pushed one after the other -/
def pushHoles : Heap → Names → Letrec → Names × Heap
  | h, names, .done => (names, h)
  | h, names, .bind x _ _ next =>
    let (hole, h) := h.alloc .hole
    pushHoles h ((x, .cell hole) :: names) next

mutual

/-- `instantiate_scomb_r` -/
def instantiateScombR (h : Heap) (names : Names) : Snode → Option (Pntr × Heap)
  | .application l r _ => do
    let (dest, h) := h.alloc .empty
    let (field1, h) ← instantiateScombR h names l
    let (field2, h) ← instantiateScombR h names r
    return (.cell dest, h.set dest (.application field1 field2))
  | .symbol x => do
    let p ← (names.find? (fun b => b.1 = x)).map Prod.snd
    let (dest, h) := h.alloc (.ind p)
    return (.cell dest, h)
  | .letrec bs b => do
    let (names', h') := pushHoles h names bs
    let h ← instantiateBindings h' names' h.ncells bs
    instantiateScombR h names' b
  | .builtin b =>
    let (dest, h) := h.alloc (.builtin b)
    some (.cell dest, h)
  | .scref i =>
    let (dest, h) := h.alloc (.scref i)
    some (.cell dest, h)
  | .nil => some (.cell h.globnil, h)
  | .number d => some (.number d, h)
  | .string s => some (h.stringToArray s)
  | .lambda _ _ => none

/-- The second loop over the bindings of a letrec. `hole` is the cell of the first of them. -/
def instantiateBindings (h : Heap) (names : Names) (hole : Nat) : Letrec → Option Heap
  | .done => some h
  | .bind _ v _ next => do
    let (res, h) ← instantiateScombR h names v
    instantiateBindings (h.set hole (.ind res)) names (hole + 1) next

end

/-- The first loop of `instantiate_scomb`: the arguments are on top of the stack. -/
def pushArgs (h : Heap) (k : Nat) : List String → List Pntr → Names → Option Names
  | [], _, names => some names
  | x :: argnames, p :: s, names => do
    let p ← h.resolve k p
    pushArgs h k argnames s ((x, p) :: names)
  | _ :: _, [], _ => none

/-- `instantiate_scomb` -/
def instantiateScomb (h : Heap) (k : Nat) (s : List Pntr) (sc : Scomb) : Option (Pntr × Heap) := do
  let names ← pushArgs h k sc.argnames s []
  instantiateScombR h names sc.body

/-! ## Reduction -/

/-- The loop that unwinds the spine. `target` is on the stack already. -/
def unwind (h : Heap) : Nat → Pntr → List Pntr → Option (List Pntr)
  | 0, _, _ => none
  | k + 1, target, s =>
    match h.application? target with
    | some (f, _) => do
      let target ← h.resolve k f
      unwind h k target (target :: s)
    | none => some s

/-- The arguments in the `n` applications below the tip of the spine, the first argument first. -/
def spineArgs (h : Heap) (k : Nat) : Nat → List Pntr → Option (List Pntr)
  | 0, _ => some []
  | n + 1, _ :: p :: s => do
    let arg ← h.resolve k p
    let (_, field2) ← h.application? arg
    let args ← spineArgs h k n (p :: s)
    return field2 :: args
  | _ + 1, _ => none

/-- `resolve_pntr` of the topmost `n` entries of the stack -/
def resolveTop (h : Heap) (k : Nat) : Nat → List Pntr → Option (List Pntr)
  | 0, s => some s
  | n + 1, p :: s => do
    let p ← h.resolve k p
    let s ← resolveTop h k n s
    return p :: s
  | _ + 1, [] => none

/-- `s->count = oldtop` -/
def cutTo (oldtop : Nat) (s : List Pntr) : List Pntr := s.drop (s.length - oldtop)

/-- The part of `task` that the engine works on. -/
structure Task extends Heap where
  /-- `FLAG_REDUCED` -/
  reduced : Nat → Bool
  /-- `trace_step` has reported an argument that is irreducible. -/
  irreducible : Bool

section

variable (scs : List Scomb) (builtins : Bif → Heap → List Pntr → Option (Pntr × Heap))

/-- A supercombinator `sc` at the tip of the spine `s`, with enough arguments -/
def reduceScomb (k : Nat) (h : Heap) (sc : Scomb) (s : List Pntr) : Option Heap := do
  let dest ← s[sc.nargs]? >>= h.resolve k
  let args ← spineArgs h k sc.nargs s
  if h.isRedex dest then
    let (res, h) ← instantiateScomb h k (args ++ s.drop sc.nargs) sc
    h.makeInd dest res
  else none

/-- A builtin `b` whose arguments are on the stack and whose strict arguments have been reduced -/
def reduceBuiltin (k : Nat) (t : Task) (b : Bif) (s : List Pntr) : Option Task := do
  let s ← resolveTop t.toHeap k (builtinInfo b).nstrict s
  let irreducible := (s.take (builtinInfo b).nstrict).any (fun p => (t.application? p).isSome)
  let (res, h) ← builtins b t.toHeap (s.take (builtinInfo b).nargs)
  let res ← h.resolve k res
  let dest ← s[(builtinInfo b).nargs]?
  let h ← h.makeInd dest res
  return { t with toHeap := h, irreducible := t.irreducible || irreducible }

mutual

/-- `reduce` -/
def reduce : Nat → Task → List Pntr → Option (Task × List Pntr)
  | 0, _, _ => none
  | _ + 1, _, [] => none
  | k + 1, t, .number d :: s => reduceLoop k t (.number d :: s)
  | k + 1, t, .cell c :: s =>
    if t.reduced c then some (t, .cell c :: s)
    else reduceLoop k { t with reduced := Function.update t.reduced c true } (.cell c :: s)

/-- The loop of `reduce` -/
def reduceLoop : Nat → Task → List Pntr → Option (Task × List Pntr)
  | 0, _, _ => none
  | k + 1, t, s => do
    let redex ← s.head?
    let target ← t.resolve k redex
    let s' ← unwind t.toHeap k target (target :: s)
    let nargs := s'.length - 1 - s.length
    match s' with
    | .cell c :: _ =>
      match t.cells c with
      | .scref i => do
        let sc ← scs[i]?
        if nargs < sc.nargs then return (t, cutTo s.length s')
        else
          let h ← reduceScomb k t.toHeap sc s'
          reduceLoop k { t with toHeap := h } (cutTo s.length s')
      | .builtin b =>
        if nargs < (builtinInfo b).nargs then none
        else do
          let args ← spineArgs t.toHeap k (builtinInfo b).nargs s'
          let (t, s') ← reduceArgs k t (args ++ s'.drop (builtinInfo b).nargs)
            (List.range (builtinInfo b).nstrict)
          let t ← reduceBuiltin builtins k t b s'
          reduceLoop k t (cutTo s.length s')
      | .cons _ _ | .aref _ _ _ | .string _ | .nil =>
        if 0 < nargs then none else return (t, cutTo s.length s')
      | .empty | .application _ _ | .ind _ | .hole => none
    | .number _ :: _ => if 0 < nargs then none else return (t, cutTo s.length s')
    | [] => none

/-- `reduce_single` of the entries of the stack at these positions -/
def reduceArgs : Nat → Task → List Pntr → List Nat → Option (Task × List Pntr)
  | 0, _, _, _ => none
  | _ + 1, t, s, [] => some (t, s)
  | k + 1, t, s, i :: is => do
    let p ← s[i]?
    let (t, s') ← reduce k t (p :: s)
    reduceArgs k t s'.tail is

end

end

end Reduction
end NReduce
