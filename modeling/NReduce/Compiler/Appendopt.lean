import NReduce.Compiler.Inlining
import Mathlib.Algebra.Group.Nat.Defs
import Mathlib.Algebra.Ring.Int.Defs

/-!
# NReduce.Compiler.Appendopt

`appendopt.c`: the loop that moves calls of `append` inwards and makes append versions of the
supercombinators it meets, and the sweep that drops what is not used any more; with the table of
supercombinators of `super.c`.

A supercombinator is known by its address, its position in `cells`. An `SCREF` holds the address;
`index` is the field of that name, and `scombs` the array of addresses that the sweep replaces.
`lappend` is passed along by `appreplace_r` and not read, so it is left out.
-/

namespace NReduce
namespace Compiler
namespace Appendopt

/-! ## super.c -/

/-- `GLOBAL_HASH_SIZE` -/
def globalHashSize : Nat := 4096

/-- `hash`, of a name; `char` is signed. -/
def hash (name : String) : Nat :=
  ((name.toUTF8.toList.map (fun b => b.toBitVec.toInt)).sum % globalHashSize).toNat

/-- The part of `source` that is about supercombinators. -/
structure Table where
  cells : List Scomb
  index : Nat → Nat
  scombs : List (Option Nat)
  /-- the chain of `hashnext` at each place -/
  schash : Nat → List Nat
  varno : Nat

namespace Table

def nameOf (t : Table) (p : Nat) : String := ((t.cells[p]?).map Scomb.name).getD ""

def isNamed (t : Table) (name : String) (p : Nat) : Bool := t.nameOf p = name

/-- `get_scomb` -/
def getScomb (t : Table) (name : String) : Option Nat := (t.schash (hash name)).find? (t.isNamed name)

/-- The names that `add_scomb` tries. -/
def numbered (name : String) (num : Nat) : String :=
  if 0 < num then name ++ "#" ++ toString num else name

/-- The loop of `add_scomb`. One of the first names is free, as there is one more of them than
supercombinators. -/
def freeName (t : Table) (name1 : String) : Option String :=
  let name := String.ofList (name1.toList.takeWhile (· ≠ '#'))
  ((List.range (t.cells.length + 1)).map (numbered name)).find? (fun x => (t.getScomb x).isNone)

/-- A new supercombinator, in the array and in the hash table. The fields that the caller of
`add_scomb` sets are empty. -/
def push (t : Table) (name : String) : Table :=
  let p := t.cells.length
  let h := hash name
  { t with
    cells := t.cells ++ [{ name := name, argnames := [], body := .nil }]
    index := Function.update t.index p t.scombs.length
    scombs := t.scombs ++ [some p]
    schash := Function.update t.schash h (p :: t.schash h) }

/-- `add_scomb` -/
def addScomb (t : Table) (name1 : String) : Option (Nat × Table) := do
  let name ← t.freeName name1
  return (t.cells.length, t.push name)

def modify (t : Table) (p : Nat) (f : Scomb → Scomb) : Table :=
  { t with cells := t.cells.modify p f }

/-- `next_var` -/
def nextVar (t : Table) : String × Table := (Compiler.nextVar t.varno, { t with varno := t.varno + 1 })

/-- The second loop of `schash_rebuild` -/
def rehash (t : Table) : List Nat → (Nat → List Nat) → Nat → List Nat
  | [], chains => chains
  | p :: ps, chains =>
    let h := hash (t.nameOf p)
    t.rehash ps (Function.update chains h (p :: chains h))

/-- `schash_rebuild` -/
def schashRebuild (t : Table) : Table :=
  { t with schash := t.rehash (t.scombs.filterMap id) (fun _ => []) }

end Table

/-! ## The rewriting loop -/

/-- The fields of the append version of `cell`, where `copy` is the copy of its body. -/
def appendVersion (cell : Scomb) (append : Nat) (copy : Snode) (restname : String) (v : Scomb) :
    Scomb :=
  { v with
    argnames := cell.argnames ++ [restname]
    strictin := cell.strictin.map (· ++ [false])
    body := .application (.application (.scref append) copy false) (.symbol restname) false
    doesappend := true }

/-- `make_append_version`, of the supercombinator `sc` with its body as it is now -/
def makeAppendVersion (t : Table) (sc : Nat) (body : Snode) : Option Table := do
  let cell ← t.cells[sc]?
  let (newsc, t) ← t.addScomb cell.name
  let (restname, t) := t.nextVar
  let append ← t.getScomb "append"
  let (copy, varno) :=
    copyScombBody t.varno { cell with body := body } (cell.argnames ++ [restname])
  let t := { t with varno := varno }
  let t := t.modify newsc (appendVersion cell append copy restname)
  return t.modify sc (fun c => { c with appendver := some newsc })

/-- `a->sc = a->sc->appendver`, for the head `a` of an application -/
def setHead (v : Nat) : Snode → Snode
  | .application l r s => .application (setHead v l) r s
  | .scref _ => .scref v
  | e => e

/-- The mutation of rules 2 and 3, and of a call of an append version: `(append (g x) y)` becomes
`(g (append x y))`, in the nodes that are there. `s` is the flag of the inner application. -/
def pushAppend (append : Nat) (second : Snode) (s : Bool) : Snode → Snode
  | .application l r s1 =>
    .application l (.application (.application (.scref append) r s) second s1) s1
  | e => e

/-- Rule 4, for `(append (if c x y) second)` -/
def appendIf (t : Table) (c x y second : Snode) (s1 s2 s3 : Bool) : Option (Snode × Table) := do
  let (firstsym, t) := t.nextVar
  let append ← t.getScomb "append"
  let sym := match second with
    | .symbol name => Snode.symbol name
    | _ => .symbol firstsym
  let branch := fun e => Snode.application (.application (.scref append) e false) sym false
  let first := Snode.application
    (.application (.application (.builtin .if_) c s3) (branch x) s2) (branch y) s1
  match second with
  | .symbol _ => return (first, t)
  | _ => return (.letrec (.bind firstsym second false .done) first, t)

section

-- The supercombinator that is rewritten, and its body around the current node.
variable (self : Nat) (ctx : Snode → Snode)

/-- The rule for `(append (f x1 .. xn) second)`, where `a` is `f` and `first` the call of it. -/
def appendCall (t : Table) (append a : Nat) (first second : Snode) (s1 s2 : Bool) :
    Option (Snode × Table × Bool) := do
  let cell ← t.cells[a]?
  if cell.doesappend then return (pushAppend append second s2 first, t, false)
  else
    let t ← match cell.appendver with
      | some _ => some t
      | none =>
        let node := Snode.application (.application (.scref append) first s2) second s1
        makeAppendVersion t a (if a = self then ctx node else cell.body)
    let v ← t.cells[a]? >>= Scomb.appendver
    return (.application (setHead v first) second s1, t, true)

/-- The rules for `(append first second)`. `s1` and `s2` are the flags of the two applications. -/
def appendRule (t : Table) (append : Nat) (first second : Snode) (s1 s2 : Bool) :
    Option (Snode × Table × Bool) :=
  let node := Snode.application (.application (.scref append) first s2) second s1
  match first with
  | .letrec bs b =>
    some (.letrec bs (.application (.application (.scref append) b s2) second s1), t, true)
  | .application (.application (.application (.builtin .if_) c t3) x t2) y t1 =>
    (appendIf t c x y second t1 t2 t3).map (fun (e, t) => (e, t, true))
  | _ =>
    match first.unwind [] with
    | (.nil, []) => some (second, t, true)
    | (.builtin .cons, [_, _]) => some (pushAppend append second s2 first, t, true)
    | (.scref a, args) =>
      if t.nameOf a = "append" then
        if args.length = 2 then some (pushAppend append second s2 first, t, true)
        else some (node, t, false)
      else appendCall self ctx t append a first second s1 s2
    | _ => some (node, t, false)

/-- What `appreplace_r` does with an application after its parts -/
def appreplaceNode (t : Table) (l r : Snode) (s : Bool) : Option (Snode × Table × Bool) :=
  match l with
  | .application (.scref i) first s2 =>
    if t.nameOf i = "append" then appendRule self ctx t i first r s s2
    else some (.application l r s, t, false)
  | _ => some (.application l r s, t, false)

end

mutual

/-- `appreplace_r`: the node that replaces this one, and whether something has changed. The body of
`self` is what `ctx` makes of the current node. -/
def appreplaceR (self : Nat) (ctx : Snode → Snode) (t : Table) : Snode →
    Option (Snode × Table × Bool)
  | .application l r s => do
    let (l, t, c1) ← appreplaceR self (fun e => ctx (.application e r s)) t l
    let (r, t, c2) ← appreplaceR self (fun e => ctx (.application l e s)) t r
    let (e, t, c3) ← appreplaceNode self ctx t l r s
    return (e, t, c1 || c2 || c3)
  | .letrec bs b => do
    let (bs, t, c1) ← appreplaceBindings self (fun e => ctx (.letrec e b)) t bs
    let (b, t, c2) ← appreplaceR self (fun e => ctx (.letrec bs e)) t b
    return (.letrec bs b, t, c1 || c2)
  | .lambda _ _ => none
  | e => some (e, t, false)

def appreplaceBindings (self : Nat) (ctx : Letrec → Snode) (t : Table) : Letrec →
    Option (Letrec × Table × Bool)
  | .done => some (.done, t, false)
  | .bind x v s next => do
    let (v, t, c1) ← appreplaceR self (fun e => ctx (.bind x e s next)) t v
    let (next, t, c2) ← appreplaceBindings self (fun e => ctx (.bind x v s e)) t next
    return (.bind x v s next, t, c1 || c2)

end

/-- The inner loop of `appendopt`, with a bound on its turns -/
def rewriteBody : Nat → Nat → Table → Option Table
  | 0, _, _ => none
  | k + 1, p, t => do
    let cell ← t.cells[p]?
    let (body, t, changed) ← appreplaceR p id t cell.body
    let t := t.modify p (fun c => { c with body := body })
    if changed then rewriteBody k p t else return t

/-- The outer loop of `appendopt`, from `scno` on, with a bound on its turns. The array grows. -/
def rewriteLoop : Nat → Nat → Table → Option Table
  | 0, _, _ => none
  | k + 1, scno, t =>
    if scno < t.scombs.length then do
      let p ← t.scombs[scno]? >>= id
      let t ← rewriteBody k p t
      rewriteLoop k (scno + 1) t
    else some t

/-! ## The sweep -/

/-- `mark_used`, over all bodies -/
def markUsed (t : Table) (i : Nat) : Bool :=
  t.scombs.any fun p => p.any fun p =>
    ((t.cells[p]?).map (fun sc => sc.body.screfs)).any (fun l => l.any (fun q => t.index q = i))

structure Sweep where
  table : Table
  newscombs : List Nat
  freed : List Nat

/-- `sc->index = array_count(newscombs); array_append(newscombs,&sc,..)` -/
def Sweep.append (s : Sweep) (p : Nat) : Sweep :=
  { s with
    table := { s.table with index := Function.update s.table.index p s.newscombs.length }
    newscombs := s.newscombs ++ [p] }

/-- The append version `v` takes the name and the place of `p`, and its old place becomes `NULL`. -/
def Sweep.replace (s : Sweep) (p v : Nat) : Sweep :=
  let t := s.table.modify v (fun c => { c with name := s.table.nameOf p })
  let t := { t with scombs := t.scombs.set (t.index v) none }
  { ({ s with table := t }).append v with freed := s.freed ++ [p] }

/-- One turn of the loop. Without an append version the first condition holds, so the last branch of
the source is not reached. -/
def sweepTurn (used : Nat → Bool) (s : Sweep) (scno : Nat) : Sweep :=
  match s.table.scombs[scno]? >>= id with
  | none => s
  | some p =>
    match s.table.cells[p]? >>= Scomb.appendver with
    | none => s.append p
    | some v =>
      if used (s.table.index p) || s.table.isNamed "__start" p then s.append p else s.replace p v

/-- What `appendopt` does after the rewriting loop, with what it frees -/
def sweep (t : Table) : Table × List Nat :=
  let s := (List.range t.scombs.length).foldl (sweepTurn (markUsed t)) ⟨t, [], []⟩
  (({ s.table with scombs := s.newscombs.map some }).schashRebuild, s.freed)

/-- `appendopt` -/
def appendopt (fuel : Nat) (t : Table) : Option (Table × List Nat) :=
  (rewriteLoop fuel 0 t).map sweep

end Appendopt
end Compiler
end NReduce
