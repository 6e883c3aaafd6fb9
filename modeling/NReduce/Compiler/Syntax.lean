import NReduce.Compiler.Builtin

/-!
# NReduce.Compiler.Syntax

The syntax trees of `source.h`. `Snode` is `struct snode` without its source location and without
the two link fields that only the sinking pass uses; `Letrec` is the linked list `struct letrec`.
An `SCREF` holds the position of the supercombinator in `src->scombs`, which is its `index`.
-/

namespace NReduce
namespace Compiler

/-- A C `double`, by its bit pattern. -/
abbrev Double := BitVec 64

mutual

inductive Snode where
  | application (left right : Snode) (strict : Bool)
  | lambda (name : String) (body : Snode)
  | builtin (b : Bif)
  | symbol (name : String)
  | letrec (bindings : Letrec) (body : Snode)
  | scref (sc : Nat)
  | nil
  | number (num : Double)
  | string (value : String)
  deriving DecidableEq

inductive Letrec where
  | done
  | bind (name : String) (value : Snode) (strict : Bool) (next : Letrec)
  deriving DecidableEq

end

namespace Letrec

/-- The names of the bindings, in order. -/
def names : Letrec → List String
  | .done => []
  | .bind x _ _ next => x :: next.names

end Letrec

/-- `struct scomb`. The arrays `argnames` and `strictin` have `nargs` entries; `strictin` is
`none` where the pointer is `NULL`. -/
structure Scomb where
  name : String
  argnames : List String
  body : Snode
  strictin : Option (List Bool) := none
  nospark : Bool := false
  doesappend : Bool := false
  appendver : Option Nat := none
  caninline : Bool := false
  deriving DecidableEq

def Scomb.nargs (sc : Scomb) : Nat := sc.argnames.length

/-- `struct source`: the supercombinators in table order and the counter of `next_var`. -/
structure Source where
  scombs : List Scomb
  varno : Nat

/-- `next_var`: the name `_v<varno>`. -/
def nextVar (varno : Nat) : String := "_v" ++ toString varno

mutual

/-- The symbols of a tree that no binder in it binds. -/
def Snode.free : Snode → List String
  | .application l r _ => l.free ++ r.free
  | .lambda x b => b.free.filter (· ≠ x)
  | .symbol x => [x]
  | .letrec bs b => (bs.free ++ b.free).filter (· ∉ bs.names)
  | .builtin _ | .scref _ | .nil | .number _ | .string _ => []

/-- The free symbols of the values of the bindings, the bound names included. -/
def Letrec.free : Letrec → List String
  | .done => []
  | .bind _ v _ next => v.free ++ next.free

end

mutual

/-- The names bound in a tree, in the order of their binders. -/
def Snode.binders : Snode → List String
  | .application l r _ => l.binders ++ r.binders
  | .lambda x b => x :: b.binders
  | .letrec bs b => bs.binders ++ b.binders
  | .builtin _ | .symbol _ | .scref _ | .nil | .number _ | .string _ => []

def Letrec.binders : Letrec → List String
  | .done => []
  | .bind x v _ next => x :: (v.binders ++ next.binders)

end

theorem Letrec.names_subset_binders : ∀ bs : Letrec, bs.names ⊆ bs.binders
  | .done => List.Subset.refl _
  | .bind x v _ next => by
    simp only [Letrec.names, Letrec.binders]
    exact List.cons_subset_cons _ (List.subset_append_of_subset_right _ next.names_subset_binders)

/-- The binders inside the values of the bindings. -/
def Letrec.inner : Letrec → List String
  | .done => []
  | .bind _ v _ next => v.binders ++ next.inner

theorem Letrec.mem_binders : ∀ (bs : Letrec) (x : String),
    x ∈ bs.binders ↔ x ∈ bs.names ∨ x ∈ bs.inner
  | .done, x => by simp [Letrec.binders, Letrec.names, Letrec.inner]
  | .bind y v s next, x => by
    simp only [Letrec.binders, Letrec.names, Letrec.inner, List.mem_cons, List.mem_append,
      Letrec.mem_binders next x]
    tauto

theorem Letrec.binders_perm : ∀ bs : Letrec, bs.binders.Perm (bs.names ++ bs.inner)
  | .done => by simp [Letrec.binders, Letrec.names, Letrec.inner]
  | .bind y v s next => by
    simp only [Letrec.binders, Letrec.names, Letrec.inner, List.cons_append]
    refine List.Perm.cons y ?_
    calc v.binders ++ next.binders
        |>.Perm (v.binders ++ (next.names ++ next.inner)) := (binders_perm next).append_left _
      _ |>.Perm (next.names ++ (v.binders ++ next.inner)) := by
          rw [← List.append_assoc, ← List.append_assoc]
          exact List.perm_append_comm.append_right _

mutual

/-- The supercombinators that a tree refers to. -/
def Snode.screfs : Snode → List Nat
  | .application l r _ => l.screfs ++ r.screfs
  | .lambda _ b => b.screfs
  | .letrec bs b => bs.screfs ++ b.screfs
  | .scref i => [i]
  | .builtin _ | .symbol _ | .nil | .number _ | .string _ => []

def Letrec.screfs : Letrec → List Nat
  | .done => []
  | .bind _ v _ next => v.screfs ++ next.screfs

end

mutual

/-- The letrecs in a tree, each with its bindings and its body. -/
def Snode.letrecs : Snode → List (Letrec × Snode)
  | .application l r _ => l.letrecs ++ r.letrecs
  | .lambda _ b => b.letrecs
  | .letrec bs b => (bs, b) :: (bs.letrecs ++ b.letrecs)
  | _ => []

def Letrec.letrecs : Letrec → List (Letrec × Snode)
  | .done => []
  | .bind _ v _ next => v.letrecs ++ next.letrecs

end

mutual

/-- No lambda abstraction is left in the tree. -/
def Snode.lambdaFree : Snode → Bool
  | .application l r _ => l.lambdaFree && r.lambdaFree
  | .lambda _ _ => false
  | .letrec bs b => bs.lambdaFree && b.lambdaFree
  | .builtin _ | .symbol _ | .scref _ | .nil | .number _ | .string _ => true

def Letrec.lambdaFree : Letrec → Bool
  | .done => true
  | .bind _ v _ next => v.lambdaFree && next.lambdaFree

end

end Compiler
end NReduce
