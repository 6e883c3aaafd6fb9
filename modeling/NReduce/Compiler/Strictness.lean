import NReduce.Logic.Partial
import NReduce.Compiler.Need

/-!
# NReduce.Compiler.Strictness

The strictness analyser (`strictness.c`): which arguments of a supercombinator, and which bindings
of a letrec, are evaluated whenever the call or the letrec is.

`checkStrictnessR` goes through an expression that is evaluated for certain. It collects the
variables that are evaluated with it in a sorted list, marks applications and bindings, and notes
whether a mark is new. The marks are in the tree, so it gives the tree back.

The recursion of `checkStrictnessR` goes down the tree, of which the marks are no part, so the height
of the tree bounds it; a failure stands for a bound that is too small, or for `abort`.
-/

namespace NReduce
namespace Compiler

open Logic

/-! ## Sorted lists of names -/

/-- The loop passes the names that come before `name`. -/
def addVar : List String → String → List String
  | [], name => [name]
  | x :: xs, name =>
    match compare x name with
    | .lt => x :: addVar xs name
    | .eq => x :: xs
    | .gt => name :: x :: xs

def addVars (vars : List String) : List String → List String
  | [] => vars
  | x :: xs => addVars (addVar vars x) xs

/-- The names in both of two sorted lists. The names of the second list that come before the first
name of the other are passed at once. -/
def addUnion (dest : List String) : List String → List String → List String
  | [], _ => dest
  | a :: as, bs =>
    match bs.dropWhile (fun b => compare a b = .gt) with
    | [] => dest
    | b :: bs' =>
      if compare a b = .eq then addUnion (addVar dest a) as bs'
      else addUnion dest as (b :: bs')

/-! ## Functions -/

def Scomb.flags (sc : Scomb) : List Bool := sc.strictin.getD (List.replicate sc.nargs false)

/-- The function that an application is of, and the number of arguments. -/
def Snode.spine : Snode → Snode × Nat
  | .application l _ _ => (l.spine.1, l.spine.2 + 1)
  | e => (e, 0)

/-- A call of a known function. -/
def Snode.head : Snode → Option Head
  | .scref i => some (.sc i)
  | .builtin b => some (.bif b)
  | _ => none

def funStrictin (scs : List Scomb) (h : Head) (argno : Nat) : Bool :=
  match h with
  | .sc i => ((scs[i]?).map Scomb.flags).getD [] |>.getD argno false
  | .bif b => argno < (builtinInfo b).nstrict

/-- The function of an application to as many arguments as it takes. -/
def saturated (scs : List Scomb) (c : Snode) : Option Head :=
  match c.spine.1.head with
  | some h => if h.arity scs = some c.spine.2 then some h else none
  | none => none

/-! ## Expressions -/

/-- The variables used so far, and whether a mark is new. -/
abbrev StrictM (α : Type) := Prog (List String × Bool) α

def use (f : List String → List String) : StrictM Unit := modify (fun st => (f st.1, st.2))

def setChanged (b : Bool) : StrictM Unit := modify (fun st => (st.1, st.2 || b))

/-- With a list of its own for the variables used. -/
def fresh {α : Type} (m : StrictM α) : StrictM (α × List String) := do
  let st ← get
  set (([] : List String), st.2)
  let a ← m
  let st' ← get
  set (st.1, st'.2)
  return (a, st'.1)

section Parts

-- `check_strictness_r` for the parts of an expression
variable (rec : Snode → StrictM Snode)

/-- An argument that the function is strict in. -/
def checkArg (strict : Bool) (r : Snode) (s : Bool) : StrictM (Snode × Bool) :=
  if strict then do
    setChanged (!s)
    let r' ← rec r
    return (r', true)
  else return (r, s)

/-- The arguments of a call, from the last to the first. -/
def checkArgs (strictin : Nat → Bool) : Snode → StrictM Snode
  | .application l r s => do
    let a ← checkArg rec (strictin l.spine.2) r s
    let l' ← checkArgs strictin l
    return .application l' a.1 a.2
  | e => return e

/-- What is in both branches of `if`. -/
def checkIf : Snode → StrictM Snode
  | .application (.application l truebranch s) falsebranch s' => do
    let t ← fresh (rec truebranch)
    let f ← fresh (rec falsebranch)
    use (fun used => addUnion used t.2 f.2)
    return .application (.application l t.1 s) f.1 s'
  | c => return c

/-- The second argument of `seq`; what it uses is not used before the first is evaluated. -/
def checkSeq : Snode → StrictM Snode
  | .application l after s => do
    let a ← fresh (rec after)
    return .application l a.1 s
  | c => return c

/-- A call with all its arguments. -/
def checkCall (scs : List Scomb) (h : Head) (c : Snode) : StrictM Snode := do
  let c ← checkArgs rec (funStrictin scs h) c
  match h with
  | .bif .if_ => checkIf rec c
  | .bif .seq => checkSeq rec c
  | _ => return c

/-- The function of an application is evaluated with it. -/
def checkLeft : Snode → StrictM Snode
  | .application l r s => do
    let l' ← rec l
    return .application l' r s
  | c => return c

def checkApplication (scs : List Scomb) (c : Snode) : StrictM Snode :=
  match saturated scs c with
  | some h => do
    let c ← checkCall rec scs h c
    checkLeft rec c
  | none => checkLeft rec c

/-- The values of the bindings that are marked. -/
def checkBindings : Letrec → StrictM Letrec
  | .done => return .done
  | .bind x v true next => do
    let v' ← rec v
    let next' ← checkBindings next
    return .bind x v' true next'
  | .bind x v false next => do
    let next' ← checkBindings next
    return .bind x v false next'

/-- The bindings that are used are marked. -/
def markUsed (used : List String) : Letrec → Letrec
  | .done => .done
  | .bind x v s next => .bind x v (s || used.contains x) (markUsed used next)

/-- The loop over a letrec, as long as a binding is newly marked. -/
def checkLetrec : Nat → Letrec → Snode → StrictM Snode
  | 0, _, _ => failure
  | k + 1, bs, b => do
    let bs ← checkBindings rec bs
    let b ← rec b
    let st ← get
    if markUsed st.1 bs = bs then return .letrec bs b
    else do
      setChanged true
      checkLetrec k (markUsed st.1 bs) b

end Parts

mutual

/-- The height of a tree, which the marks do not change. -/
def Snode.height : Snode → Nat
  | .application l r _ => max l.height r.height + 1
  | .lambda _ b => b.height + 1
  | .letrec bs b => max bs.height b.height + 1
  | _ => 1

def Letrec.height : Letrec → Nat
  | .done => 0
  | .bind _ v _ next => max v.height next.height

end

def checkStrictnessR (scs : List Scomb) : Nat → Snode → StrictM Snode
  | 0, _ => failure
  | d + 1, c =>
    match c with
    | .letrec bs b => do
      let r ← fresh (checkLetrec (checkStrictnessR scs d) (bs.names.length + 1) bs b)
      use (fun used => addVars used (r.2.filter (fun x => x ∉ bs.names)))
      return r.1
    | .application l r s => checkApplication (checkStrictnessR scs d) scs (.application l r s)
    | .symbol x => do
      use (fun used => addVar used x)
      return .symbol x
    | .lambda _ _ => failure
    | e => return e

/-! ## Supercombinators -/

/-- The flags of the arguments, with those that are used. -/
def newFlags (sc : Scomb) (used : List String) : List Bool :=
  List.zipWith (fun s x => s || used.contains x) sc.flags sc.argnames

def checkStrictness (scs : List Scomb) (i : Nat) (changed : Bool) : Option (List Scomb × Bool) := do
  let sc ← scs[i]?
  let (body, used, changed) ← checkStrictnessR scs sc.body.height sc.body ([], changed)
  let strictin := newFlags sc used
  return (scs.set i { sc with body := body, strictin := some strictin },
    changed || strictin != sc.flags)

/-- One iteration, over the supercombinators from number `i` on. -/
def strictnessRound : Nat → Nat → List Scomb → Bool → Option (List Scomb × Bool)
  | 0, _, scs, changed => some (scs, changed)
  | k + 1, i, scs, changed => do
    let (scs, changed) ← checkStrictness scs i changed
    strictnessRound k (i + 1) scs changed

/-- Up to `k` iterations. -/
def strictnessLoop : Nat → List Scomb → Option (List Scomb)
  | 0, _ => none
  | k + 1, scs => do
    let (scs', changed) ← strictnessRound scs.length 0 scs false
    if changed then strictnessLoop k scs' else some scs'

/-- Flags for each supercombinator, not set where there were none. -/
def initFlags (scs : List Scomb) : List Scomb :=
  scs.map (fun sc => { sc with strictin := some sc.flags })

def strictnessAnalysis (k : Nat) (scs : List Scomb) : Option (List Scomb) :=
  strictnessLoop k (initFlags scs)

end Compiler
end NReduce
