import NReduce.Compiler.Renaming
import NReduce.Logic.DepthFirst
import NReduce.Logic.Fuel

/-!
# NReduce.Compiler.Reorder

`reorder.c`: the bindings of a letrec are put into the order in which the names were pushed onto the
list of used variables, the last one first, and those that are not used are removed.

* `reorderLetrecsR`: the pass. The stack of binding lists points into the tree, so that the value of
  a binding is rewritten where it is bound when its name is met for the first time.
* `Letrec.Forward`: the order that `Cletrec` can make use of.
* `InOrder`: the letrecs that come out in this order.
-/

namespace NReduce
namespace Compiler

open Logic.DepthFirst

/-! ## The pass -/

/-- The value of the first binding of a name -/
def Letrec.find : Letrec → String → Option Snode
  | .done, _ => none
  | .bind x v _ next, y => if x = y then some v else next.find y

/-- Another value for the first binding of a name -/
def Letrec.assign : Letrec → String → Snode → Letrec
  | .done, _, _ => .done
  | .bind x v s next, y, w => if x = y then .bind x w s next else .bind x v s (next.assign y w)

/-- The first binding of a name, and the list without it -/
def Letrec.take : Letrec → String → Option ((Snode × Bool) × Letrec)
  | .done, _ => none
  | .bind x v s next, y =>
    if x = y then some ((v, s), next)
    else (next.take y).map fun (b, rest) => (b, .bind x v s rest)

/-- The bindings in the order of the used variables; these are removed from the list. -/
def relink : List String → Letrec → Letrec × List String
  | [], _ => (.done, [])
  | x :: used, bs =>
    match bs.take x with
    | some ((v, s), rest) =>
      let (newrecs, used') := relink used rest
      (.bind x v s newrecs, used')
    | none =>
      let (newrecs, used') := relink used bs
      (newrecs, x :: used')

/-- The value of a name, the innermost letrec first -/
def findBound : List Letrec → String → Option Snode
  | [], _ => none
  | bs :: bound, x =>
    match bs.find x with
    | some v => some v
    | none => findBound bound x

def assignBound : List Letrec → String → Snode → List Letrec
  | [], _, _ => []
  | bs :: bound, x, v =>
    if x ∈ bs.names then bs.assign x v :: bound else bs :: assignBound bound x v

/-- `reorder_letrecs_r`: the tree, the used variables and the stack of bindings, the last pushed of
each first. -/
def reorderLetrecsR : Nat → Snode → List String → List Letrec →
    Option (Snode × List String × List Letrec)
  | 0, _, _, _ => none
  | k + 1, .application l r s, used, bound => do
    let (l, used, bound) ← reorderLetrecsR k l used bound
    let (r, used, bound) ← reorderLetrecsR k r used bound
    return (.application l r s, used, bound)
  | k + 1, .letrec bs body, used, bound => do
    let (body, used, bound) ← reorderLetrecsR k body used (bs :: bound)
    match bound with
    | [] => none
    | bs :: bound =>
      let (newrecs, used) := relink used bs
      return (.letrec newrecs body, used, bound)
  | k + 1, .symbol x, used, bound =>
    if x ∈ used then some (.symbol x, used, bound)
    else
      match findBound bound x with
      | none => some (.symbol x, x :: used, bound)
      | some v => do
        let (v, used, bound) ← reorderLetrecsR k v (x :: used) bound
        return (.symbol x, used, assignBound bound x v)
  | _ + 1, c, used, bound => some (c, used, bound)

/-- `reorder_letrecs` -/
def reorderLetrecs (k : Nat) (c : Snode) : Option Snode := do
  let (c, _, _) ← reorderLetrecsR k c [] []
  return c

/-! ## What it is for -/

/-- The bindings, with their values -/
def Letrec.pairs : Letrec → List (String × Snode)
  | .done => []
  | .bind x v _ next => (x, v) :: next.pairs

/-- Every binding comes after all those that its value mentions. -/
def Letrec.Forward : Letrec → Prop
  | .done => True
  | .bind x v _ next => (∀ y ∈ v.free, y ≠ x ∧ y ∉ next.names) ∧ next.Forward

/-- The value of `x` mentions `y`. -/
def Letrec.Mentions (bs : Letrec) (x y : String) : Prop :=
  y ∈ bs.names ∧ ∃ v, (x, v) ∈ bs.pairs ∧ y ∈ v.free

/-- No binding depends on itself, directly or through others. -/
def Letrec.Acyclic (bs : Letrec) : Prop := ∀ x, ¬ Relation.TransGen bs.Mentions x x

/-! ## The order in which names are met -/

/-- The symbols from left to right, without those in the values of letrecs -/
def Snode.symbols : Snode → List String
  | .application l r _ => l.symbols ++ r.symbols
  | .lambda _ _ => []
  | .letrec _ b => b.symbols
  | .symbol x => [x]
  | .builtin _ | .scref _ | .nil | .number _ | .string _ => []

mutual

/-- The bindings of all letrecs in a tree -/
def Snode.lets : Snode → List (String × Snode)
  | .application l r _ => l.lets ++ r.lets
  | .lambda _ b => b.lets
  | .letrec bs b => bs.lets ++ b.lets
  | .builtin _ | .symbol _ | .scref _ | .nil | .number _ | .string _ => []

def Letrec.lets : Letrec → List (String × Snode)
  | .done => []
  | .bind x v _ next => (x, v) :: (v.lets ++ next.lets)

end

/-- The symbols that a variable leads to: those of its value -/
def follow (c : Snode) (x : String) : List String :=
  match c.lets.lookup x with
  | some v => v.symbols
  | none => []

/-- The names that are bound in a tree -/
def Snode.own (c : Snode) : Set String := {x | x ∈ c.binders}

/-- A variable that remains in a tree when the bindings that nothing uses are dropped -/
def Uses (c v : Snode) (y : String) : Prop := y ∉ v.binders ∧ Meets (follow c) v.own v.symbols y

/-- Reading the body of a letrec from left to right, and the value of each variable of the letrec
where it is met first, no binding is met before another one that uses it. -/
def InOrder (c : Snode) (bs : Letrec) (body : Snode) : Prop :=
  ∀ x v y, (x, v) ∈ bs.pairs → y ∈ bs.names →
    Meets (follow c) (Snode.letrec bs body).own body.symbols x → Uses c v y →
      ¬ Before (follow c) (Snode.letrec bs body).own y x body.symbols

end Compiler
end NReduce
